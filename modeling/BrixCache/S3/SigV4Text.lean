import BrixCache.Lib.Delimited
import BrixCache.S3.SigV4

/-!
# The texts of a SigV4 check

What each of the builders writes when it has room, that its parts can be told from what it
writes, and what each of them does when the room is too small.
-/

namespace BrixCache

open Delimited List

/-! ## Hexadecimal digits -/

theorem hexNibble_inj {n m : ℕ} (hn : n < 16) (hm : m < 16) (h : hexNibble n = hexNibble m) :
    n = m := by
  have hall : ∀ n < 16, ∀ m < 16, hexNibble n = hexNibble m → n = m := by decide
  exact hall n hn m hm h

theorem upperNibble_inj {n m : ℕ} (hn : n < 16) (hm : m < 16)
    (h : upperNibble n = upperNibble m) : n = m := by
  have hall : ∀ n < 16, ∀ m < 16, upperNibble n = upperNibble m → n = m := by decide
  exact hall n hn m hm h

theorem eq_of_nibbles {b c : UInt8} (hhi : b.toNat / 16 = c.toNat / 16)
    (hlo : b.toNat % 16 = c.toNat % 16) : b = c := by
  apply UInt8.toNat.inj
  rw [← Nat.div_add_mod b.toNat 16, hhi, hlo, Nat.div_add_mod]

theorem nibble_hi_lt (b : UInt8) : b.toNat / 16 < 16 := by
  have := b.toNat_lt
  omega

theorem nibble_lo_lt (b : UInt8) : b.toNat % 16 < 16 := Nat.mod_lt _ (by decide)

theorem brixHexEncode_length (bs : Bytes) : (brixHexEncode bs).length = 2 * bs.length := by
  induction bs with
  | nil => rfl
  | cons b bs ih =>
    rw [brixHexEncode, flatMap_cons, length_append, ← brixHexEncode, ih]
    simp [Nat.mul_add, Nat.add_comm]

theorem brixHexEncode_inj {bs bs' : Bytes} (h : brixHexEncode bs = brixHexEncode bs') :
    bs = bs' := by
  have hcode : SelfDelimiting fun b : UInt8 =>
      [hexNibble (b.toNat / 16), hexNibble (b.toNat % 16)] := by
    intro b c r r' heq
    obtain ⟨hhi, hlo, -⟩ : _ ∧ _ ∧ _ := by simpa using heq
    exact eq_of_nibbles (hexNibble_inj (nibble_hi_lt b) (nibble_hi_lt c) hhi)
      (hexNibble_inj (nibble_lo_lt b) (nibble_lo_lt c) hlo)
  exact hcode.flatMap_inj (fun _ => cons_ne_nil _ _) h

/-! ## Percent-encoding -/

/-- The encoding of a text -/
def urlencoded (safeExtra src : Bytes) : Bytes := src.flatMap (urlencodeByte safeExtra)

section Urlencode

variable {safeExtra src out : Bytes} {dstsz : ℕ}

theorem urlencodeByte_ne_nil (c : UInt8) : urlencodeByte safeExtra c ≠ [] := by
  rw [urlencodeByte]
  split <;> simp

theorem urlencodeByte_length_le (c : UInt8) : (urlencodeByte safeExtra c).length ≤ 3 := by
  rw [urlencodeByte]
  split <;> simp

theorem urlencodeByte_self (hsafe : 37 ∉ safeExtra) : SelfDelimiting (urlencodeByte safeExtra) := by
  have hpercent : ¬((37 : UInt8) ≠ 0 ∧ (isUnreserved 37 ∨ 37 ∈ safeExtra)) := by
    rintro ⟨-, h | h⟩
    · exact absurd h (by decide)
    · exact hsafe h
  intro x y r r' heq
  rw [urlencodeByte, urlencodeByte] at heq
  -- a byte as it is is never the sign an escape begins with
  split at heq <;> split at heq <;> simp only [cons_append, nil_append] at heq
  · exact (cons.inj heq).1
  · next hx _ =>
    obtain ⟨rfl, -⟩ := cons.inj heq
    exact absurd hx hpercent
  · next _ hy =>
    obtain ⟨rfl, -⟩ := cons.inj heq
    exact absurd hy hpercent
  · obtain ⟨hhi, hlo, -⟩ : _ ∧ _ ∧ _ := by simpa using heq
    exact eq_of_nibbles (upperNibble_inj (nibble_hi_lt x) (nibble_hi_lt y) hhi)
      (upperNibble_inj (nibble_lo_lt x) (nibble_lo_lt y) hlo)

theorem urlencoded_inj (hsafe : 37 ∉ safeExtra) {src' : Bytes}
    (h : urlencoded safeExtra src = urlencoded safeExtra src') : src = src' :=
  (urlencodeByte_self hsafe).flatMap_inj urlencodeByte_ne_nil h

theorem not_mem_urlencoded {b : UInt8} (hsafe : b ∉ safeExtra) (hplain : ¬isUnreserved b)
    (hescape : b ≠ 37) : b ∉ urlencoded safeExtra src := by
  have hnibble : ∀ n < 16, isUnreserved (upperNibble n) := by decide
  intro h
  obtain ⟨c, -, hc⟩ := mem_flatMap.mp h
  rw [urlencodeByte] at hc
  split at hc
  · next hself =>
    obtain rfl := mem_singleton.mp hc
    obtain hun | hmem := hself.2
    · exact hplain hun
    · exact hsafe hmem
  · simp only [mem_cons, not_mem_nil, or_false] at hc
    obtain rfl | rfl | rfl := hc
    · exact hescape rfl
    · exact hplain (hnibble _ (nibble_hi_lt c))
    · exact hplain (hnibble _ (nibble_lo_lt c))

theorem urlencodeFrom_append (h : (out ++ urlencoded safeExtra src).length < dstsz)
    (more : Bytes) :
    urlencodeFrom dstsz safeExtra out (src ++ more) =
      urlencodeFrom dstsz safeExtra (out ++ urlencoded safeExtra src) more := by
  induction src generalizing out with
  | nil => simp [urlencoded]
  | cons c src ih =>
    rw [urlencoded, flatMap_cons, ← urlencoded, ← append_assoc] at h ⊢
    have hlen : (out ++ urlencodeByte safeExtra c).length < dstsz := by
      rw [length_append] at h
      omega
    rw [length_append] at hlen
    rw [cons_append, urlencodeFrom, if_neg (Nat.not_le.mpr hlen), ih h]

/-- A text too long stops the loop where there is no room for a byte more and its escape, and the
rest of the text is not looked at. -/
theorem urlencodeFrom_of_le (hout : out.length < dstsz)
    (h : dstsz ≤ (out ++ urlencoded safeExtra src).length) :
    ∃ p, p <+: urlencoded safeExtra src ∧ dstsz ≤ (out ++ p).length + 3 ∧
      ∀ more, urlencodeFrom dstsz safeExtra out (src ++ more) = (out ++ p, false) := by
  induction src generalizing out with
  | nil =>
    rw [urlencoded, flatMap_nil, append_nil] at h
    omega
  | cons c src ih =>
    rw [urlencoded, flatMap_cons, ← urlencoded] at h ⊢
    by_cases hroom : dstsz ≤ out.length + (urlencodeByte safeExtra c).length
    · refine ⟨[], List.nil_prefix, ?_, fun more => ?_⟩
      · have hle := @urlencodeByte_length_le safeExtra c
        rw [append_nil]
        omega
      · rw [cons_append, urlencodeFrom, if_pos hroom, append_nil]
    · have hout' : (out ++ urlencodeByte safeExtra c).length < dstsz := by
        rw [length_append]
        omega
      rw [← append_assoc] at h
      obtain ⟨p, hp, hlen, hmore⟩ := ih hout' h
      refine ⟨urlencodeByte safeExtra c ++ p, (prefix_append_right_inj _).mpr hp,
        by rwa [append_assoc] at hlen, fun more => ?_⟩
      rw [cons_append, urlencodeFrom, if_neg hroom, hmore, append_assoc]

theorem brixHttpUrlencode_of_lt (h : (urlencoded safeExtra src).length < dstsz) :
    brixHttpUrlencode src dstsz safeExtra = (urlencoded safeExtra src, true) := by
  have hloop := @urlencodeFrom_append _ _ [] _ h []
  rwa [append_nil] at hloop

theorem brixHttpUrlencode_of_le (hpos : 0 < dstsz) (h : dstsz ≤ (urlencoded safeExtra src).length) :
    ∃ p, p <+: urlencoded safeExtra src ∧ dstsz ≤ p.length + 3 ∧
      ∀ more, brixHttpUrlencode (src ++ more) dstsz safeExtra = (p, false) :=
  @urlencodeFrom_of_le _ _ [] _ hpos h

end Urlencode

/-! ## The query string -/

section Query

variable {params params' : List (Bytes × Bytes)} {out text : Bytes}

/-- A parameter in the query string -/
def queryEntry (p : Bytes × Bytes) : Bytes :=
  urlencoded [] p.1 ++ 61 :: urlencoded [] p.2

/-- The query string of some parameters -/
def queryText : List (Bytes × Bytes) → Bytes
  | [] => []
  | p :: params => queryEntry p ++ if params = [] then [] else 38 :: queryText params

theorem sigv4AppendEncoded_some {src : Bytes} (h : sigv4AppendEncoded out src = some text) :
    text = out ++ urlencoded [] src ∧ text.length < s3CanonicalQueryBufSize := by
  rw [sigv4AppendEncoded] at h
  by_cases hlen : (urlencoded [] src).length < s3QueryEncodeBufSize
  · rw [brixHttpUrlencode_of_lt hlen] at h
    simp only [Option.ite_none_left_eq_some, Option.some.injEq] at h
    obtain ⟨hroom, rfl⟩ := h
    exact ⟨rfl, by simpa using hroom⟩
  · obtain ⟨p, -, -, hmore⟩ := brixHttpUrlencode_of_le (by decide) (Nat.not_lt.mp hlen)
    have hstop := hmore []
    rw [append_nil] at hstop
    rw [hstop] at h
    cases h

theorem sigv4AppendByte_some {b : UInt8} (h : sigv4AppendByte out b = some text) :
    text = out ++ [b] ∧ text.length < s3CanonicalQueryBufSize := by
  simp only [sigv4AppendByte, Option.ite_none_left_eq_some, Option.some.injEq] at h
  obtain ⟨hroom, rfl⟩ := h
  exact ⟨rfl, by simpa using hroom⟩

theorem sigv4EmitCanonicalQs_some (hout : out.length < s3CanonicalQueryBufSize)
    (h : sigv4EmitCanonicalQs out params = some text) :
    text = out ++ queryText params ∧ text.length < s3CanonicalQueryBufSize := by
  induction params generalizing out with
  | nil =>
    cases h
    exact ⟨by simp [queryText], hout⟩
  | cons p params ih =>
    simp only [sigv4EmitCanonicalQs, Option.bind_eq_bind, Option.bind_eq_some_iff] at h
    obtain ⟨_, hname, _, hequals, _, hvalue, h⟩ := h
    obtain ⟨rfl, -⟩ := sigv4AppendEncoded_some hname
    obtain ⟨rfl, -⟩ := sigv4AppendByte_some hequals
    obtain ⟨rfl, hlen⟩ := sigv4AppendEncoded_some hvalue
    split at h
    · next hlast =>
      cases h
      exact ⟨by simp [queryText, queryEntry, hlast], hlen⟩
    · next hmore =>
      simp only [Option.bind_eq_some_iff] at h
      obtain ⟨_, hamp, h⟩ := h
      obtain ⟨rfl, hlen⟩ := sigv4AppendByte_some hamp
      obtain ⟨rfl, hlen⟩ := ih hlen h
      exact ⟨by simp [queryText, queryEntry, hmore], hlen⟩

theorem queryText_append (hne : params ≠ []) :
    queryText params ++ [38] = params.flatMap fun p => queryEntry p ++ [38] := by
  induction params with
  | nil => exact absurd rfl hne
  | cons p params ih =>
    cases params with
    | nil => simp [queryText]
    | cons q params =>
      rw [flatMap_cons, ← ih (cons_ne_nil _ _), queryText, if_neg (cons_ne_nil _ _)]
      simp

theorem queryEntry_self : SelfDelimiting fun p => queryEntry p ++ [38] := by
  intro x y r r' heq
  simp only [queryEntry, append_assoc, cons_append, nil_append] at heq
  have hplain (b : UInt8) (hun : ¬isUnreserved b) (hne : b ≠ 37) (src : Bytes) :
      b ∉ urlencoded [] src := not_mem_urlencoded not_mem_nil hun hne
  obtain ⟨hname, hrest⟩ := eq_of_first (hplain 61 (by decide) (by decide) _)
    (hplain 61 (by decide) (by decide) _) heq
  obtain ⟨hvalue, -⟩ := eq_of_first (hplain 38 (by decide) (by decide) _)
    (hplain 38 (by decide) (by decide) _) hrest
  exact Prod.ext (urlencoded_inj not_mem_nil hname) (urlencoded_inj not_mem_nil hvalue)

theorem queryText_ne_nil {p : Bytes × Bytes} : queryText (p :: params) ≠ [] := by
  simp [queryText, queryEntry]

theorem queryText_inj (h : queryText params = queryText params') : params = params' := by
  cases params with
  | nil =>
    cases params' with
    | nil => rfl
    | cons p params' => exact absurd h.symm queryText_ne_nil
  | cons p params =>
    cases params' with
    | nil => exact absurd h queryText_ne_nil
    | cons p' params' =>
      have hall := congrArg (· ++ [38]) h
      simp only [queryText_append (cons_ne_nil _ _)] at hall
      exact queryEntry_self.flatMap_inj (by simp) hall

theorem not_mem_queryText {b : UInt8} (hplain : ¬isUnreserved b) (h37 : b ≠ 37) (h61 : b ≠ 61)
    (h38 : b ≠ 38) : b ∉ queryText params := by
  have henc (src : Bytes) : b ∉ urlencoded [] src :=
    not_mem_urlencoded not_mem_nil hplain h37
  induction params with
  | nil => simp [queryText]
  | cons p params ih =>
    rw [queryText, queryEntry]
    split <;> simp [henc, h61, h38, ih]

theorem buildCanonicalParsedQs_some {query : List QueryParam} {skip : Bool}
    (h : buildCanonicalParsedQs query skip = some text) :
    ∃ params, params.Perm (signedQuery query skip) ∧ text = queryText params ∧
      text.length < s3CanonicalQueryBufSize := by
  simp only [buildCanonicalParsedQs, Option.ite_none_left_eq_some] at h
  obtain ⟨rfl, hlen⟩ := sigv4EmitCanonicalQs_some (by decide) h.2.2
  exact ⟨_, perm_insertionSort _ _, rfl, hlen⟩

end Query

/-! ## The headers -/

theorem mem_of_mem_trimBlanks {b : UInt8} {value : Bytes} (h : b ∈ trimBlanks value) :
    b ∈ value := by
  have hback := mem_reverse.mp h
  exact dropWhile_subset _ (mem_reverse.mp (dropWhile_subset _ hback))

theorem trimBlanks_append_ne {b : UInt8} (hb : ¬isBlank b) (value : Bytes) :
    trimBlanks (value ++ [b]) ≠ trimBlanks value := by
  intro h
  have hlen := congrArg length h
  have hback := (dropWhile_suffix (l := (value.dropWhile isBlank).reverse) isBlank).length_le
  rw [length_reverse] at hback
  rw [trimBlanks, trimBlanks, dropWhile_append] at hlen
  split at hlen
  · next hall =>
    simp [List.isEmpty_iff.mp hall, hb] at hlen
  · simp only [reverse_append, reverse_singleton, singleton_append,
      dropWhile_cons, hb, Bool.false_eq_true, if_false, length_reverse,
      length_cons] at hlen
    omega

theorem sameHeaderName_iff {name name' : Bytes} :
    sameHeaderName name name' ↔ name.map ngxTolower = name'.map ngxTolower := by
  simp [sameHeaderName]

namespace S3Request

variable {r r' : S3Request} {tok tok' : Bytes} {toks : List Bytes} {out : Bytes}

theorem getHeader_congr (h : sameHeaderName tok tok') : r.getHeader tok = r.getHeader tok' := by
  simp [getHeader, sameHeaderName, sameHeaderName_iff.mp h]

@[simp] theorem signedValue_eq : r.signedValue tok = r.getHeader tok := by
  rw [signedValue]
  split
  · next h => rw [host, h]
  · rfl

theorem getHeader_text (r : S3Request) (tok : Bytes) :
    10 ∉ r.getHeader tok ∧ 0 ∉ r.getHeader tok := by
  rw [getHeader]
  cases hfind : r.headers.find? fun h => sameHeaderName h.1 tok with
  | none => simp
  | some h => exact r.headerText h (mem_of_find?_eq_some hfind)

/-- The tokens whose lines are in the buffer, when so much of it is taken -/
def printedTokens (r : S3Request) : ℕ → List Bytes → List Bytes
  | _, [] => []
  | taken, tok :: toks =>
    if s3CanonicalHeadersBufSize ≤ taken + tok.length + 1 + (r.signedValue tok).length + 2 then []
    else tok :: printedTokens r (taken + (r.headerLine tok).length) toks

theorem canonicalHeadersFrom_eq (r : S3Request) (out : Bytes) (toks : List Bytes) :
    r.canonicalHeadersFrom out toks =
      out ++ (r.printedTokens out.length toks).flatMap r.headerLine := by
  induction toks generalizing out with
  | nil => simp [canonicalHeadersFrom, printedTokens]
  | cons tok toks ih =>
    rw [canonicalHeadersFrom, printedTokens]
    split
    · simp
    · rw [ih, flatMap_cons, append_assoc, length_append]

theorem printedTokens_begins (r : S3Request) (taken : ℕ) (toks : List Bytes) :
    r.printedTokens taken toks <+: toks := by
  induction toks generalizing taken with
  | nil => exact List.nil_prefix
  | cons tok toks ih =>
    rw [printedTokens]
    split
    · exact List.nil_prefix
    · exact (prefix_cons_inj tok).mpr (ih _)

/-- The lines without their ends -/
def printedLines (r : S3Request) (toks : List Bytes) : List Bytes :=
  toks.map fun tok => tok.map ngxTolower ++ 58 :: trimBlanks (r.signedValue tok)

theorem flatMap_headerLine (r : S3Request) (toks : List Bytes) :
    toks.flatMap r.headerLine = unlines 10 (r.printedLines toks) := by
  have hline : r.headerLine = fun tok =>
      tok.map ngxTolower ++ 58 :: trimBlanks (r.signedValue tok) ++ [10] := rfl
  rw [unlines, printedLines, flatMap_map, hline]

theorem not_mem_trimmed (r : S3Request) (tok : Bytes) :
    10 ∉ trimBlanks (r.signedValue tok) ∧ 0 ∉ trimBlanks (r.signedValue tok) := by
  obtain ⟨hlf, hnul⟩ := r.getHeader_text tok
  rw [← signedValue_eq] at hlf hnul
  exact ⟨fun h => hlf (mem_of_mem_trimBlanks h), fun h => hnul (mem_of_mem_trimBlanks h)⟩

theorem eq_of_lines {p p' : List Bytes} (hp : p <+: toks) (hp' : p' <+: toks)
    (h : p.flatMap r.headerLine = p'.flatMap r'.headerLine) :
    p = p' ∧ ∀ tok ∈ p, trimBlanks (r.signedValue tok) = trimBlanks (r'.signedValue tok) := by
  induction toks generalizing p p' with
  | nil =>
    obtain rfl := prefix_nil.mp hp
    obtain rfl := prefix_nil.mp hp'
    exact ⟨rfl, nofun⟩
  | cons tok toks ih =>
    obtain rfl | ⟨p, rfl, hpre⟩ := prefix_cons_iff.mp hp
    · obtain rfl | ⟨p', rfl, -⟩ := prefix_cons_iff.mp hp'
      · exact ⟨rfl, nofun⟩
      · simp [headerLine] at h
    · obtain rfl | ⟨p', rfl, hpre'⟩ := prefix_cons_iff.mp hp'
      · simp [headerLine] at h
      · simp only [flatMap_cons, headerLine, append_assoc, cons_append,
          nil_append, append_cancel_left_eq] at h
        obtain ⟨hvalue, hrest⟩ := eq_of_first (r.not_mem_trimmed tok).1 (r'.not_mem_trimmed tok).1
          (cons.inj h).2
        obtain ⟨rfl, hvalues⟩ := ih hpre hpre' hrest
        exact ⟨rfl, forall_mem_cons.mpr ⟨hvalue, hvalues⟩⟩

end S3Request

/-! ## What `snprintf` leaves to be hashed -/

theorem printedBytes_of_lt {size : ℕ} {behind : ℕ → UInt8} {text : Bytes}
    (h : text.length < size) : printedBytes size behind text = text := if_pos h

theorem zero_mem_printedBytes {size : ℕ} {behind : ℕ → UInt8} {text : Bytes}
    (h : size ≤ text.length) : 0 ∈ printedBytes size behind text := by
  rw [printedBytes, if_neg (Nat.not_lt.mpr h)]
  simp

end BrixCache

import BrixCache.Core.Json
import Mathlib.Data.List.Induction

/-!
# The cursor and what is left

A cursor stands in front of what is left of the document (`cur`). Each function of the extractor
reads inside the document, comes to its end and leaves what the function on the rest of the text
leaves.
-/

namespace BrixCache

open List

namespace Json

variable {doc s rest : Bytes} {c : UInt8} {turns : ℕ}

/-- The place of a cursor in front of what is left -/
def cur (doc s : Bytes) : ℕ := doc.length - s.length

@[simp] theorem cur_nil (doc : Bytes) : cur doc [] = doc.length := rfl

theorem cur_cons (h : c :: s <:+ doc) : cur doc (c :: s) + 1 = cur doc s := by
  have hle := h.length_le
  rw [length_cons] at hle
  unfold cur
  rw [length_cons]
  omega

theorem cur_append (xs : Bytes) (h : xs ++ s <:+ doc) :
    cur doc (xs ++ s) + xs.length = cur doc s := by
  have hle := h.length_le
  rw [length_append] at hle
  unfold cur
  rw [length_append]
  omega

theorem lt_length_iff (h : s <:+ doc) (k : ℕ) : cur doc s + k < doc.length ↔ k < s.length := by
  have hle := h.length_le
  unfold cur
  omega

theorem getElem?_cur (h : s <:+ doc) (k : ℕ) : doc[cur doc s + k]? = s[k]? := by
  obtain ⟨front, rfl⟩ := h
  have hcur : cur (front ++ s) s = front.length := by simp [cur]
  rw [hcur, getElem?_append_right (Nat.le_add_right _ _), Nat.add_sub_cancel_left]

theorem drop_cur (h : s <:+ doc) : doc.drop (cur doc s) = s := by
  obtain ⟨front, rfl⟩ := h
  have hcur : cur (front ++ s) s = front.length := by simp [cur]
  rw [hcur, drop_left]

theorem lt_length_cons (h : c :: s <:+ doc) : cur doc (c :: s) < doc.length :=
  (lt_length_iff h 0).mpr (by simp)

theorem getElem?_cons (h : c :: s <:+ doc) : doc[cur doc (c :: s)]? = some c :=
  getElem?_cur h 0

/-! ## Skipping -/

theorem jmSkip_cur {skips : UInt8 → Bool} (h : s <:+ doc) (hturns : s.length < turns) :
    jmSkip skips doc turns (cur doc s) = some (cur doc (s.dropWhile skips)) := by
  induction turns generalizing s with
  | zero => omega
  | succ turns ih =>
    cases s with
    | nil => simp [jmSkip]
    | cons c s =>
      have hs : s <:+ doc := (suffix_cons c s).trans h
      rw [length_cons] at hturns
      simp only [jmSkip, if_pos (lt_length_cons h), getElem?_cons h, cur_cons h]
      by_cases hc : skips c
      · simp [hc, ih hs (by omega)]
      · simp [hc]

theorem jmSkipWs_cur (h : s <:+ doc) : jmSkipWs doc (cur doc s) = some (cur doc (wsSkip s)) :=
  jmSkip_cur h (Nat.lt_succ_of_le h.length_le)

theorem jmSkipScalar_cur (h : s <:+ doc) :
    jmSkipScalar doc (cur doc s) = some (cur doc (scalarSkip s)) :=
  jmSkip_cur h (Nat.lt_succ_of_le h.length_le)

theorem wsSkip_suffix (s : Bytes) : wsSkip s <:+ s := dropWhile_suffix _

theorem scalarSkip_suffix (s : Bytes) : scalarSkip s <:+ s := dropWhile_suffix _

/-! ## Buffers -/

theorem Buffer.putAll_append (out : Buffer) (xs ys : Bytes) :
    out.putAll (xs ++ ys) = (out.putAll xs).putAll ys := foldl_append

theorem Buffer.putAll_new (size : ℕ) (bytes : Bytes) :
    (Buffer.new size).putAll bytes = ⟨size, bytes.take (size - 1), bytes.length⟩ := by
  induction bytes using reverseRecOn with
  | nil => simp [putAll, new]
  | append_singleton bytes c ih =>
    rw [putAll_append, ih]
    by_cases hfit : bytes.length + 1 < size
    · have hall : bytes.take (size - 1) = bytes := take_of_length_le (by omega)
      have hall' : (bytes ++ [c]).take (size - 1) = bytes ++ [c] :=
        take_of_length_le (by simp; omega)
      simp [putAll, put, hfit, hall, hall']
    · have hcut : (bytes ++ [c]).take (size - 1) = bytes.take (size - 1) := by
        rw [take_append_of_le_length (by omega)]
      simp [putAll, put, hfit, hcut]

/-! ## Strings -/

theorem jmU16_cur (h : s <:+ doc) (hlen : 4 ≤ s.length) :
    jmU16 doc (cur doc s) = some ((u16 s).map Prod.fst) := by
  obtain _ | ⟨a, _ | ⟨b, _ | ⟨c, _ | ⟨d, s⟩⟩⟩⟩ := s <;> simp only [length] at hlen <;>
    try omega
  have h0 := getElem?_cur h 0
  have h1 := getElem?_cur h 1
  have h2 := getElem?_cur h 2
  have h3 := getElem?_cur h 3
  simp only [Nat.add_zero, getElem?_cons_zero, getElem?_cons_succ] at h0 h1 h2 h3
  simp only [jmU16, h0, h1, h2, h3, u16, Option.bind_eq_bind, Option.bind_some]
  cases hexDigit a <;> cases hexDigit b <;> cases hexDigit c <;> cases hexDigit d <;> rfl

theorem u16_eq_some {n : ℕ} (h : u16 s = some (n, rest)) :
    ∃ a b c d, s = a :: b :: c :: d :: rest := by
  obtain _ | ⟨a, _ | ⟨b, _ | ⟨c, _ | ⟨d, s⟩⟩⟩⟩ := s <;> simp only [u16] at h <;> try cases h
  split at h
  · obtain ⟨-, rfl⟩ := Prod.mk.inj (Option.some.inj h)
    exact ⟨a, b, c, d, rfl⟩
  · cases h

theorem u16_length (h : s.length < 4) : u16 s = none := by
  cases hs : u16 s with
  | none => rfl
  | some x =>
    obtain ⟨n, rest⟩ := x
    obtain ⟨a, b, c, d, rfl⟩ := u16_eq_some hs
    simp only [length_cons] at h
    omega

/-- The low surrogate that comes next, if one does -/
def low : Bytes → Option ℕ
  | 92 :: 117 :: s => ((u16 s).map Prod.fst).filter fun lo => 0xDC00 ≤ lo && lo ≤ 0xDFFF
  | _ => none

theorem low_eq_none (h : ∀ t, s ≠ 92 :: 117 :: t) : low s = none := by
  unfold low
  split
  · next t => exact absurd rfl (h t)
  · rfl

theorem low_eq_some {lo : ℕ} (h : low s = some lo) :
    ∃ a b c d, s = 92 :: 117 :: a :: b :: c :: d :: s.drop 6 := by
  unfold low at h
  split at h
  · next t =>
    obtain ⟨⟨n, r⟩, hx, -⟩ := Option.map_eq_some_iff.mp (Option.filter_eq_some_iff.mp h).1
    obtain ⟨a, b, c, d, rfl⟩ := u16_eq_some hx
    exact ⟨a, b, c, d, rfl⟩
  · cases h

theorem unescapeU_eq (s : Bytes) : unescapeU s = (u16 s).map fun x =>
    if 0xD800 ≤ x.1 ∧ x.1 ≤ 0xDBFF then
      (low x.2).elim (utf8 0xFFFD, x.2) fun lo =>
        (utf8 (0x10000 + (x.1 - 0xD800) * 1024 + (lo - 0xDC00)), x.2.drop 6)
    else (utf8 x.1, x.2) := by
  unfold unescapeU
  cases u16 s with
  | none => rfl
  | some x =>
    obtain ⟨hi, t⟩ := x
    simp only [Option.map_some]
    split
    · split
      · next t' =>
        rw [low]
        cases hlo : u16 t' with
        | none => rfl
        | some y =>
          obtain ⟨lo, t''⟩ := y
          obtain ⟨a, b, c, d, rfl⟩ := u16_eq_some hlo
          by_cases hrange : 0xDC00 ≤ lo ∧ lo ≤ 0xDFFF
          · simp [Option.filter, hrange]
          · have hrange' : ¬((decide (0xDC00 ≤ lo) && decide (lo ≤ 0xDFFF)) = true) := by
              simpa using hrange
            simp only [if_neg hrange, Option.map_some, Option.filter, if_neg hrange', Option.elim]
      · next hother => rw [low_eq_none hother]; rfl
    · rfl

theorem jmLow_cur {b : UInt8} (h : b :: s <:+ doc) :
    jmLow doc (cur doc (b :: s)) = some (low s) := by
  have hat : ∀ k, doc[cur doc (b :: s) + k]? = (b :: s)[k]? := getElem?_cur h
  unfold jmLow
  by_cases hlong : cur doc (b :: s) + 6 < doc.length
  · have hlen := (lt_length_iff h 6).mp hlong
    obtain _ | ⟨a, _ | ⟨u, t⟩⟩ := s <;> simp only [length] at hlen <;> try omega
    have ht : t <:+ doc := (suffix_append [b, a, u] t).trans h
    have hcur : cur doc (b :: a :: u :: t) + 3 = cur doc t := cur_append [b, a, u] h
    rw [if_pos hlong, hat 1, hat 2, hcur, jmU16_cur ht (by omega)]
    simp only [getElem?_cons_succ, getElem?_cons_zero, Option.bind_eq_bind,
      Option.bind_some]
    by_cases ha : a = 92
    · by_cases hu : u = 117
      · rw [if_pos ha, if_pos hu, ha, hu]
        rfl
      · rw [if_pos ha, if_neg hu, low_eq_none]
        exact fun t' he => hu (cons.inj (cons.inj he).2).1
    · rw [if_neg ha, low_eq_none]
      exact fun t' he => ha (cons.inj he).1
  · rw [if_neg hlong]
    cases hlow : low s with
    | none => rfl
    | some lo =>
      obtain ⟨a', b', c', d', hs⟩ := low_eq_some hlow
      refine absurd ((lt_length_iff h 6).mpr ?_) hlong
      rw [hs]
      simp

theorem unescapeU_suffix {bytes : Bytes} (h : unescapeU s = some (bytes, rest)) :
    rest <:+ s := by
  rw [unescapeU_eq] at h
  obtain ⟨⟨n, t⟩, hx, heq⟩ := Option.map_eq_some_iff.mp h
  obtain ⟨a, b, c, d, rfl⟩ := u16_eq_some hx
  have ht : t <:+ a :: b :: c :: d :: t := suffix_append [a, b, c, d] t
  dsimp only at heq
  split at heq
  · cases hlow : low t with
    | none =>
      rw [hlow] at heq
      exact (Prod.mk.inj heq).2 ▸ ht
    | some lo =>
      rw [hlow] at heq
      exact (Prod.mk.inj heq).2 ▸ (drop_suffix 6 t).trans ht
  · exact (Prod.mk.inj heq).2 ▸ ht

theorem jmUnescapeU_cur {u : UInt8} (h : u :: s <:+ doc) (out : Option Buffer) :
    jmUnescapeU doc (cur doc (u :: s)) out = some ((unescapeU s).map fun x =>
      (cur doc x.2 - 1, out.map fun out => out.putAll x.1)) := by
  have hs : s <:+ doc := (suffix_cons u s).trans h
  unfold jmUnescapeU
  by_cases hlong : cur doc (u :: s) + 4 < doc.length
  · have hlen := (lt_length_iff h 4).mp hlong
    rw [length_cons] at hlen
    rw [if_neg (Nat.not_le.mpr hlong), cur_cons h, jmU16_cur hs (by omega), unescapeU_eq]
    simp only [Option.bind_eq_bind, Option.bind_some]
    cases hu : u16 s with
    | none => rfl
    | some x =>
      obtain ⟨hi, t⟩ := x
      obtain ⟨a, b, c, d, rfl⟩ := u16_eq_some hu
      have hdt : d :: t <:+ doc := (suffix_append [a, b, c] _).trans hs
      have hcur : cur doc (u :: a :: b :: c :: d :: t) + 4 = cur doc (d :: t) :=
        cur_append [u, a, b, c] h
      have hlast : cur doc (d :: t) = cur doc t - 1 := by
        rw [← cur_cons hdt, Nat.add_sub_cancel]
      simp only [Option.map_some, hcur]
      by_cases hhigh : 0xD800 ≤ hi ∧ hi ≤ 0xDBFF
      · simp only [if_pos hhigh, jmLow_cur hdt, Option.bind_some]
        cases hlow : low t with
        | none => simp only [Option.elim, hlast]
        | some lo =>
          obtain ⟨a', b', c', d', ht⟩ := low_eq_some hlow
          rw [ht] at hdt
          have hpos : cur doc (d :: 92 :: 117 :: a' :: b' :: c' :: d' :: t.drop 6) + 7 =
              cur doc (t.drop 6) := cur_append [d, 92, 117, a', b', c', d'] hdt
          rw [← ht] at hpos
          have hend : cur doc (u :: a :: b :: c :: d :: t) + 10 = cur doc (t.drop 6) - 1 := by omega
          simp only [Option.elim, hend]
      · simp only [if_neg hhigh, hlast]
  · have hlen : s.length < 4 := by
      have := mt (lt_length_iff h 4).mpr hlong
      rw [length_cons] at this
      omega
    rw [if_pos (Nat.not_lt.mp hlong), unescapeU, u16_length hlen]
    rfl

theorem unescapeChar_cons (c : UInt8) (s : Bytes) : unescapeChar (c :: s) =
    (escaped c).elim (if c = 117 then unescapeU s else none) fun d => some ([d], s) := by
  rw [unescapeChar, escaped]
  split_ifs <;> rfl

theorem unescapeChar_suffix {bytes : Bytes} (h : unescapeChar s = some (bytes, rest)) :
    rest <:+ s ∧ rest.length < s.length := by
  cases s with
  | nil => cases h
  | cons c s =>
    have hle : rest <:+ s := by
      rw [unescapeChar_cons] at h
      cases he : escaped c with
      | some d =>
        rw [he] at h
        exact (Prod.mk.inj (Option.some.inj h)).2 ▸ suffix_refl s
      | none =>
        rw [he] at h
        dsimp only [Option.elim] at h
        split at h
        · exact unescapeU_suffix h
        · cases h
    exact ⟨hle.trans (suffix_cons c s), Nat.lt_succ_of_le hle.length_le⟩

theorem jmUnescapeChar_cur (h : s <:+ doc) (out : Option Buffer) :
    jmUnescapeChar doc (cur doc s) out = some ((unescapeChar s).map fun x =>
      (cur doc x.2 - 1, out.map fun out => out.putAll x.1)) := by
  cases s with
  | nil => simp [jmUnescapeChar, unescapeChar]
  | cons c s =>
    rw [jmUnescapeChar, if_neg (Nat.not_le.mpr (lt_length_cons h)), getElem?_cons h,
      unescapeChar_cons]
    simp only [Option.bind_eq_bind, Option.bind_some]
    cases he : escaped c with
    | some d => simp [← cur_cons h, Buffer.putAll]
    | none =>
      dsimp only [Option.elim]
      split
      · exact jmUnescapeU_cur h out
      · rfl

/-- Enough turns read the string to its end. -/
theorem stringLoop_eq (h : s.length ≤ turns) : stringLoop turns s = string s := by
  have hmore : ∀ n (s : Bytes), s.length ≤ n → stringLoop (n + 1) s = stringLoop n s := by
    intro n
    induction n with
    | zero =>
      intro s hs
      obtain rfl := length_eq_zero_iff.mp (Nat.le_zero.mp hs)
      rfl
    | succ n ih =>
      intro s hs
      cases s with
      | nil => rfl
      | cons c s =>
        rw [length_cons] at hs
        rw [stringLoop, stringLoop]
        split
        · rfl
        · split
          · cases hu : unescapeChar s with
            | none => rfl
            | some x =>
              obtain ⟨bytes, t⟩ := x
              have hlen := (unescapeChar_suffix hu).2
              simp only [ih t (by omega)]
          · rw [ih s (by omega)]
  induction turns with
  | zero =>
    obtain rfl := length_eq_zero_iff.mp (Nat.le_zero.mp h)
    rfl
  | succ turns ih =>
    rcases Nat.lt_or_ge turns s.length with hlt | hge
    · rw [string, Nat.le_antisymm h hlt]
    · rw [hmore turns s hge, ih hge]

theorem string_cons (c : UInt8) (s : Bytes) : string (c :: s) =
    if c = 34 then some ([], s)
    else if c = 92 then
      (unescapeChar s).bind fun x => (string x.2).map fun y => (x.1 ++ y.1, y.2)
    else (string s).map fun y => (c :: y.1, y.2) := by
  rw [string, length_cons, stringLoop]
  split
  · rfl
  · split
    · cases hu : unescapeChar s with
      | none => rfl
      | some x =>
        obtain ⟨bytes, t⟩ := x
        have hlen := (unescapeChar_suffix hu).2
        simp only [stringLoop_eq (Nat.le_of_lt hlen), Option.bind_some]
    · rw [stringLoop_eq (Nat.le_refl _)]

theorem string_suffix {text : Bytes} (h : string s = some (text, rest)) :
    rest <:+ s ∧ rest.length < s.length := by
  induction hn : s.length using Nat.strongRecOn generalizing s text with
  | _ n ih =>
    cases s with
    | nil => cases h
    | cons c s =>
      have hcons := suffix_cons c s
      rw [length_cons] at hn
      rw [string_cons] at h
      split at h
      · obtain ⟨-, rfl⟩ := Prod.mk.inj (Option.some.inj h)
        exact ⟨hcons, by omega⟩
      · split at h
        · obtain ⟨⟨bytes, t⟩, hx, hs⟩ := Option.bind_eq_some_iff.mp h
          obtain ⟨⟨text', r⟩, hy, heq⟩ := Option.map_eq_some_iff.mp hs
          obtain ⟨-, rfl⟩ := Prod.mk.inj heq
          obtain ⟨hsuf, hlen⟩ := unescapeChar_suffix hx
          obtain ⟨hsuf', hlen'⟩ := ih t.length (by omega) hy rfl
          exact ⟨hsuf'.trans (hsuf.trans hcons), by omega⟩
        · obtain ⟨⟨text', r⟩, hy, heq⟩ := Option.map_eq_some_iff.mp h
          obtain ⟨-, rfl⟩ := Prod.mk.inj heq
          obtain ⟨hsuf, hlen⟩ := ih s.length (by omega) hy rfl
          exact ⟨hsuf.trans hcons, by omega⟩

/-- The loop over a string agrees with the one on lists. -/
theorem jmStringLoop_cur (h : s <:+ doc) (hturns : s.length < turns) (out : Option Buffer) :
    jmStringLoop doc turns (cur doc s) out = some ((string s).map fun x =>
      (cur doc x.2, out.map fun out => out.putAll x.1)) := by
  induction turns generalizing s out with
  | zero => omega
  | succ turns ih =>
    cases s with
    | nil => simp [jmStringLoop, string, stringLoop]
    | cons c s =>
      have hs : s <:+ doc := (suffix_cons c s).trans h
      rw [length_cons] at hturns
      rw [jmStringLoop, if_pos (lt_length_cons h), getElem?_cons h, cur_cons h, string_cons]
      simp only [Option.bind_eq_bind, Option.bind_some]
      split
      · simp [Buffer.putAll]
      · split
        · rw [jmUnescapeChar_cur hs, Option.bind_some]
          cases hu : unescapeChar s with
          | none => rfl
          | some x =>
            obtain ⟨bytes, t⟩ := x
            obtain ⟨hsuf, hlen⟩ := unescapeChar_suffix hu
            have hx : t <:+ doc := hsuf.trans hs
            have hpos : 0 < cur doc t := by
              have := hs.length_le
              unfold cur
              omega
            simp only [Option.map_some, Option.bind_some]
            rw [Nat.sub_add_cancel hpos, ih hx (by omega)]
            cases string t with
            | none => rfl
            | some y => cases out <;> simp [Buffer.putAll_append]
        · rw [ih hs (by omega)]
          cases string s with
          | none => rfl
          | some y => cases out <;> simp [Buffer.putAll]

theorem jmString_cur (h : c :: s <:+ doc) (out : Option Buffer) :
    jmString doc (cur doc (c :: s)) out = some ((string s).map fun x =>
      (cur doc x.2, out.map fun out => out.putAll x.1)) := by
  have hs : s <:+ doc := (suffix_cons c s).trans h
  rw [jmString, cur_cons h]
  exact jmStringLoop_cur hs (Nat.lt_succ_of_le hs.length_le) out

end Json

end BrixCache

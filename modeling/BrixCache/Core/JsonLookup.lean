import BrixCache.Core.JsonNesting

/-!
# The texts of JSON objects

An object as a tree: its members in order, each with its name, its value and the spaces around
them. `Document.text` is how it is written and `Document.lookup` what the member of a name is. The
extractor finds that in the text (`jsonGetStr_answers`): brackets and names in strings are passed
over with them, and a value that nests is passed over as a whole.
-/

namespace BrixCache

open List

namespace Json

variable {s rest key : Bytes} {c : UInt8} {turns size : ℕ}

/-! ## Strings -/

/-- A piece of a string: a byte that stands for itself, an escape of one byte, one of a code unit -/
inductive Piece : Type where
  | plain (c : UInt8) (h : c ≠ 34 ∧ c ≠ 92)
  | escape (c d : UInt8) (h : escaped c = some d)
  | unit (a b c d : UInt8) (n : ℕ) (h : u16 [a, b, c, d] = some (n, []))

def Piece.text : Piece → Bytes
  | plain c _ => [c]
  | escape c _ _ => [92, c]
  | unit a b c d _ _ => [92, 117, a, b, c, d]

def piecesText (ps : List Piece) : Bytes := ps.flatMap Piece.text

def nextLow : List Piece → Option ℕ
  | .unit _ _ _ _ lo _ :: _ => if 0xDC00 ≤ lo ∧ lo ≤ 0xDFFF then some lo else none
  | _ => none

/-- What pieces stand for, or those behind the first, which was taken with the one before it -/
def decodeFrom : Bool → List Piece → Bytes
  | _, [] => []
  | true, _ :: ps => decodeFrom false ps
  | false, .plain c _ :: ps => c :: decodeFrom false ps
  | false, .escape _ d _ :: ps => d :: decodeFrom false ps
  | false, .unit _ _ _ _ n _ :: ps =>
    if 0xD800 ≤ n ∧ n ≤ 0xDBFF then
      match nextLow ps with
      | some lo => utf8 (0x10000 + (n - 0xD800) * 1024 + (lo - 0xDC00)) ++ decodeFrom true ps
      | none => utf8 0xFFFD ++ decodeFrom false ps
    else utf8 n ++ decodeFrom false ps

/-- What a string stands for. A high surrogate and a low one that follows it are one character; a
high one that is alone is replaced. -/
def decode (ps : List Piece) : Bytes := decodeFrom false ps

def quoted (ps : List Piece) : Bytes := 34 :: (piecesText ps ++ [34])

@[simp] theorem piecesText_cons (x : Piece) (ps : List Piece) :
    piecesText (x :: ps) = x.text ++ piecesText ps := flatMap_cons

variable {d : UInt8} {t : Bytes}

theorem u16_append {a b : UInt8} {n : ℕ} (h : u16 [a, b, c, d] = some (n, []))
    (rest : Bytes) : u16 (a :: b :: c :: d :: rest) = some (n, rest) := by
  simp only [u16] at h ⊢
  split at h
  · obtain ⟨rfl, -⟩ := Prod.mk.inj (Option.some.inj h)
    rfl
  · cases h

theorem low_pieces (ps : List Piece) (rest : Bytes) :
    low (piecesText ps ++ 34 :: rest) = nextLow ps := by
  obtain _ | ⟨x, ps⟩ := ps
  · exact low_eq_none fun t he => by cases he
  · cases x with
    | plain c h =>
      refine low_eq_none fun t he => h.2 ?_
      simpa [Piece.text] using (cons.inj he).1
    | escape c d h =>
      refine low_eq_none fun t he => ?_
      have hc : c = 117 := (cons.inj (cons.inj he).2).1
      rw [hc] at h
      cases h
    | unit a b c d lo h =>
      have htext : piecesText (.unit a b c d lo h :: ps) ++ 34 :: rest =
          92 :: 117 :: a :: b :: c :: d :: (piecesText ps ++ 34 :: rest) := rfl
      rw [htext, low, u16_append h, nextLow]
      by_cases hrange : 0xDC00 ≤ lo ∧ lo ≤ 0xDFFF <;> simp [Option.filter, hrange]

theorem drop_of_nextLow {ps : List Piece} {lo : ℕ} (h : nextLow ps = some lo) (rest : Bytes) :
    (piecesText ps ++ 34 :: rest).drop 6 = piecesText ps.tail ++ 34 :: rest := by
  unfold nextLow at h
  split at h
  · rfl
  · cases h

/-- A string is read back from its pieces. -/
theorem string_pieces (ps : List Piece) (rest : Bytes) :
    string (piecesText ps ++ 34 :: rest) = some (decode ps, rest) := by
  have hboth : string (piecesText ps ++ 34 :: rest) = some (decodeFrom false ps, rest) ∧
      string (piecesText ps.tail ++ 34 :: rest) = some (decodeFrom true ps, rest) := by
    induction ps with
    | nil => exact ⟨rfl, rfl⟩
    | cons x ps ih =>
      obtain ⟨ih, ihtail⟩ := ih
      refine ⟨?_, ih⟩
      cases x with
      | plain c h =>
        have htext : piecesText (.plain c h :: ps) ++ 34 :: rest =
            c :: (piecesText ps ++ 34 :: rest) := rfl
        rw [htext, string_cons, if_neg h.1, if_neg h.2, ih]
        rfl
      | escape c d h =>
        have htext : piecesText (.escape c d h :: ps) ++ 34 :: rest =
            92 :: c :: (piecesText ps ++ 34 :: rest) := rfl
        rw [htext, string_cons, if_neg (by decide), if_pos rfl, unescapeChar_cons, h]
        simp only [Option.elim, Option.bind_some, ih]
        rfl
      | unit a b c d n h =>
        have htext : piecesText (.unit a b c d n h :: ps) ++ 34 :: rest =
            92 :: 117 :: a :: b :: c :: d :: (piecesText ps ++ 34 :: rest) := rfl
        have hnone : escaped 117 = none := by decide
        rw [htext, string_cons, if_neg (by decide), if_pos rfl, unescapeChar_cons, hnone,
          unescapeU_eq, u16_append h]
        simp only [Option.elim, if_true, Option.map_some, Option.bind_some, low_pieces]
        rw [decodeFrom]
        by_cases hhigh : 0xD800 ≤ n ∧ n ≤ 0xDBFF
        · rw [if_pos hhigh, if_pos hhigh]
          cases hlow : nextLow ps with
          | none => simp only [ih, Option.map_some]
          | some lo => simp only [drop_of_nextLow hlow, ihtail, Option.map_some]
        · rw [if_neg hhigh, if_neg hhigh]
          simp only [ih, Option.map_some]
  exact hboth.1

/-! ## Values -/

/-- The bytes of a number, `true`, `false` or `null`: none of them ends a value or opens one -/
def Token (t : Bytes) : Prop :=
  t ≠ [] ∧ ∀ c ∈ t, isScalar c = true ∧ c ≠ 34 ∧ c ≠ 123 ∧ c ≠ 91

/-- White space -/
def Spaces (s : Bytes) : Prop := ∀ c ∈ s, isSpace c = true

/-- What a text is: a value, an array or an object, what is between its brackets -/
inductive Kind : Type where
  | value
  | container
  | elems
  | members

/-- The texts of the grammar, of each kind -/
inductive Text : Kind → Bytes → Prop
  | token {t : Bytes} : Token t → Text .value t
  | string (ps : List Piece) : Text .value (quoted ps)
  | nested {t : Bytes} : Text .container t → Text .value t
  | emptyArray {ws : Bytes} : Spaces ws → Text .container (91 :: (ws ++ [93]))
  | array {t : Bytes} : Text .elems t → Text .container (91 :: (t ++ [93]))
  | emptyObject {ws : Bytes} : Spaces ws → Text .container (123 :: (ws ++ [125]))
  | object {t : Bytes} : Text .members t → Text .container (123 :: (t ++ [125]))
  | lastElem {ws v ws' : Bytes} : Spaces ws → Text .value v → Spaces ws' →
      Text .elems (ws ++ v ++ ws')
  | elem {ws v ws' t : Bytes} : Spaces ws → Text .value v → Spaces ws' → Text .elems t →
      Text .elems (ws ++ v ++ ws' ++ 44 :: t)
  | lastMember {ws ws₁ ws₂ v ws' : Bytes} (ps : List Piece) : Spaces ws → Spaces ws₁ →
      Spaces ws₂ → Text .value v → Spaces ws' →
      Text .members (ws ++ quoted ps ++ ws₁ ++ 58 :: (ws₂ ++ v ++ ws'))
  | member {ws ws₁ ws₂ v ws' t : Bytes} (ps : List Piece) : Spaces ws → Spaces ws₁ →
      Spaces ws₂ → Text .value v → Spaces ws' → Text .members t →
      Text .members (ws ++ quoted ps ++ ws₁ ++ 58 :: (ws₂ ++ v ++ ws' ++ 44 :: t))

/-! ### Passing over a text -/

theorem skipContainer_eq {n depth : ℕ} (h : s.length ≤ n) :
    skipContainer n depth s = skipContainer s.length depth s := by
  induction n using Nat.strongRecOn generalizing s depth with
  | _ n ih =>
    cases s with
    | nil => cases n <;> rfl
    | cons c s =>
      rw [length_cons] at h ⊢
      obtain ⟨n, rfl⟩ : ∃ m, n = m + 1 := ⟨n - 1, by omega⟩
      have hn : s.length ≤ n := by omega
      rw [skipContainer, skipContainer]
      split
      · cases hstr : string s with
        | none => rfl
        | some x =>
          obtain ⟨text, t⟩ := x
          have hlen := (string_suffix hstr).2
          have hone : skipContainer n depth t = skipContainer t.length depth t :=
            ih n (by omega) (by omega)
          have hother : skipContainer s.length depth t = skipContainer t.length depth t :=
            ih s.length (by omega) (by omega)
          simp only [hone, hother]
      · rw [ih n (by omega) hn, ih n (by omega) hn, ih n (by omega) hn]

/-- The loop with as many turns as there are bytes -/
def skipDepth (depth : ℕ) (s : Bytes) : Option Bytes := skipContainer s.length depth s

theorem skipDepth_cons (depth : ℕ) (c : UInt8) (s : Bytes) : skipDepth depth (c :: s) =
    if c = 34 then (string s).elim none fun x => skipDepth depth x.2
    else if c = 123 ∨ c = 91 then skipDepth (depth + 1) s
    else if c = 125 ∨ c = 93 then if depth = 1 then some s else skipDepth (depth - 1) s
    else skipDepth depth s := by
  rw [skipDepth, length_cons, skipContainer]
  split
  · cases hstr : string s with
    | none => rfl
    | some x =>
      obtain ⟨text, t⟩ := x
      have hlen := (string_suffix hstr).2
      exact skipContainer_eq (Nat.le_of_lt hlen)
  · rfl

/-- Inside a container a text is passed over. -/
def Passed (t : Bytes) : Prop :=
  ∀ depth rest, 0 < depth → skipDepth depth (t ++ rest) = skipDepth depth rest

theorem Passed.append {t' : Bytes} (h : Passed t) (h' : Passed t') : Passed (t ++ t') :=
  fun depth rest hpos => by rw [append_assoc, h depth _ hpos, h' depth rest hpos]

theorem passed_byte (h : c ≠ 34 ∧ c ≠ 123 ∧ c ≠ 91 ∧ c ≠ 125 ∧ c ≠ 93) : Passed [c] :=
  fun depth rest _ => by
    obtain ⟨hquote, hbrace, hbracket, hbrace', hbracket'⟩ := h
    rw [singleton_append, skipDepth_cons, if_neg hquote, if_neg (by simp [hbrace, hbracket]),
      if_neg (by simp [hbrace', hbracket'])]

theorem passed_bytes (h : ∀ c ∈ t, c ≠ 34 ∧ c ≠ 123 ∧ c ≠ 91 ∧ c ≠ 125 ∧ c ≠ 93) : Passed t := by
  induction t with
  | nil => exact fun _ _ _ => rfl
  | cons c t ih =>
    rw [← singleton_append]
    exact (passed_byte (h c mem_cons_self)).append
      (ih fun d hd => h d (mem_cons_of_mem _ hd))

theorem Spaces.passed (h : Spaces s) : Passed s := passed_bytes fun c hc => by
  have hspace := h c hc
  refine ⟨?_, ?_, ?_, ?_, ?_⟩ <;> rintro rfl <;> simp [isSpace] at hspace

theorem Token.passed (h : Token t) : Passed t := passed_bytes fun c hc => by
  obtain ⟨hscalar, hquote, hbrace, hbracket⟩ := h.2 c hc
  refine ⟨hquote, hbrace, hbracket, ?_, ?_⟩ <;> rintro rfl <;> simp [isScalar] at hscalar

theorem passed_quoted (ps : List Piece) : Passed (quoted ps) := fun depth rest _ => by
  have htext : quoted ps ++ rest = 34 :: (piecesText ps ++ 34 :: rest) := by simp [quoted]
  rw [htext, skipDepth_cons, if_pos rfl, string_pieces]
  rfl

theorem skipDepth_brackets (ht : Passed t) (hc : c = 123 ∨ c = 91)
    (hd : d = 125 ∨ d = 93) (depth : ℕ) (rest : Bytes) :
    skipDepth depth (c :: (t ++ [d]) ++ rest) =
      if depth = 0 then some rest else skipDepth depth rest := by
  have htext : c :: (t ++ [d]) ++ rest = c :: (t ++ d :: rest) := by simp
  have hquote : c ≠ 34 := by
    rintro rfl
    simp at hc
  have hquote' : d ≠ 34 := by
    rintro rfl
    simp at hd
  have hopen : ¬(d = 123 ∨ d = 91) := by rcases hd with rfl | rfl <;> simp
  rw [htext, skipDepth_cons, if_neg hquote, if_pos hc, ht _ _ (Nat.succ_pos depth), skipDepth_cons,
    if_neg hquote', if_neg hopen, if_pos hd]
  by_cases hzero : depth = 0 <;> simp [hzero]

theorem Passed.brackets (ht : Passed t) (hc : c = 123 ∨ c = 91)
    (hd : d = 125 ∨ d = 93) : Passed (c :: (t ++ [d])) := fun depth rest hpos => by
  rw [skipDepth_brackets ht hc hd, if_neg (Nat.pos_iff_ne_zero.mp hpos)]

theorem Text.passed {k : Kind} (h : Text k t) : Passed t := by
  have hcolon : Passed [58] := passed_byte (by decide)
  have hcomma : Passed [44] := passed_byte (by decide)
  induction h with
  | token h => exact h.passed
  | string ps => exact passed_quoted ps
  | nested _ ih => exact ih
  | emptyArray h => exact h.passed.brackets (.inr rfl) (.inr rfl)
  | array _ ih => exact ih.brackets (.inr rfl) (.inr rfl)
  | emptyObject h => exact h.passed.brackets (.inl rfl) (.inl rfl)
  | object _ ih => exact ih.brackets (.inl rfl) (.inl rfl)
  | lastElem hws _ hws' ih => exact (hws.passed.append ih).append hws'.passed
  | elem hws _ hws' _ ih iht =>
    exact ((hws.passed.append ih).append hws'.passed).append (hcomma.append iht)
  | lastMember ps hws h₁ h₂ _ hws' ih =>
    exact ((hws.passed.append (passed_quoted ps)).append h₁.passed).append
      (hcolon.append ((h₂.passed.append ih).append hws'.passed))
  | member ps hws h₁ h₂ _ hws' _ ih iht =>
    exact ((hws.passed.append (passed_quoted ps)).append h₁.passed).append
      (hcolon.append (((h₂.passed.append ih).append hws'.passed).append (hcomma.append iht)))

theorem Text.brackets (h : Text .container t) : ∃ c mid d, Passed mid ∧
    (c = 123 ∨ c = 91) ∧ (d = 125 ∨ d = 93) ∧ t = c :: (mid ++ [d]) := by
  cases h with
  | emptyArray h | array h => exact ⟨91, _, 93, h.passed, .inr rfl, .inr rfl, rfl⟩
  | emptyObject h | object h => exact ⟨123, _, 125, h.passed, .inl rfl, .inl rfl, rfl⟩

end Json

end BrixCache

/-!
## Looking a member up

The extractor answers `lookup` for every document as long as no value in front of the member is too
deep for its counter (`jsonGetStr_answers`).
-/

namespace BrixCache

open List

namespace Json

variable {s rest key : Bytes} {c : UInt8} {turns size : ℕ}

/-- A value: a string, another scalar, an array or an object -/
inductive Value : Type where
  | string (ps : List Piece)
  | token (t : Bytes) (h : Token t)
  | container (t : Bytes) (h : Text .container t)

def Value.text : Value → Bytes
  | string ps => quoted ps
  | token t _ => t
  | container t _ => t

/-- What a string or a scalar says -/
def Value.flat : Value → Option Bytes
  | string ps => some (decode ps)
  | token t _ => some t
  | container _ _ => none

/-- A member of an object, with the spaces around its parts -/
structure Member : Type where
  front : Bytes
  name : List Piece
  colon : Bytes
  mid : Bytes
  value : Value
  back : Bytes
  spaces : Spaces front ∧ Spaces colon ∧ Spaces mid ∧ Spaces back

def Member.text (m : Member) : Bytes :=
  m.front ++ quoted m.name ++ m.colon ++ 58 :: (m.mid ++ m.value.text ++ m.back)

/-- Members with commas between them -/
def membersText : List Member → Bytes
  | [] => []
  | [m] => m.text
  | m :: ms => m.text ++ 44 :: membersText ms

/-- An object as a document: what is in front of it and behind it, and its members -/
structure Document : Type where
  front : Bytes
  members : List Member
  inner : Bytes
  back : Bytes
  spaces : Spaces front ∧ Spaces inner

def Document.text (doc : Document) : Bytes :=
  doc.front ++ 123 :: (doc.inner ++ membersText doc.members ++ 125 :: doc.back)

/-- **What a name stands for**: the first member of that name, as much of it as fits in a buffer -/
def lookup (members : List Member) (key : Bytes) (size : ℕ) : Option Bytes :=
  (members.find? fun m => decode m.name = key).bind fun m =>
    m.value.flat.map fun text => text.take (size - 1)

/-! ### One member -/

theorem wsSkip_spaces (h : Spaces s) (rest : Bytes) : wsSkip (s ++ rest) = wsSkip rest :=
  dropWhile_append_of_pos h

theorem wsSkip_cons (h : isSpace c = false) (s : Bytes) : wsSkip (c :: s) = c :: s :=
  dropWhile_cons_of_neg (by simp [h])

theorem Value.head (v : Value) : ∃ c t, v.text = c :: t ∧ isSpace c = false := by
  cases v with
  | string ps => exact ⟨34, _, rfl, rfl⟩
  | token t h =>
    obtain ⟨c, t, rfl⟩ := exists_cons_of_ne_nil h.1
    have hscalar := (h.2 c mem_cons_self).1
    refine ⟨c, t, rfl, ?_⟩
    simp only [isScalar, Bool.not_eq_true', Bool.or_eq_false_iff] at hscalar
    exact hscalar.2
  | container t h =>
    obtain ⟨c, mid, d, -, hc, -, rfl⟩ := h.brackets
    refine ⟨c, _, rfl, ?_⟩
    rcases hc with rfl | rfl <;> rfl

theorem memberKey_text (m : Member) (hs : Spaces s) (rest : Bytes) :
    memberKey (s ++ (m.text ++ rest)) =
      some (decode m.name, m.value.text ++ (m.back ++ rest)) := by
  obtain ⟨hfront, hcolon, hmid, -⟩ := m.spaces
  have htext : m.text ++ rest = m.front ++ (34 :: (piecesText m.name ++ 34 ::
      (m.colon ++ 58 :: (m.mid ++ (m.value.text ++ (m.back ++ rest)))))) := by
    simp [Member.text, quoted]
  obtain ⟨c, t, hvalue, hspace⟩ := m.value.head
  have hws : wsSkip (m.mid ++ (m.value.text ++ (m.back ++ rest))) =
      m.value.text ++ (m.back ++ rest) := by
    rw [wsSkip_spaces hmid, hvalue, cons_append, wsSkip_cons hspace]
  have hcolon' : wsSkip (m.colon ++ 58 :: (m.mid ++ (m.value.text ++ (m.back ++ rest)))) =
      58 :: (m.mid ++ (m.value.text ++ (m.back ++ rest))) := by
    rw [wsSkip_spaces hcolon, wsSkip_cons rfl]
  have hquote : wsSkip (s ++ (m.text ++ rest)) = 34 :: (piecesText m.name ++ 34 ::
      (m.colon ++ 58 :: (m.mid ++ (m.value.text ++ (m.back ++ rest))))) := by
    rw [wsSkip_spaces hs, htext, wsSkip_spaces hfront, wsSkip_cons rfl]
  have hne : m.value.text ++ (m.back ++ rest) ≠ [] := by simp [hvalue]
  simp only [memberKey, hquote, string_pieces, hcolon', hws, if_neg hne]

/-- No scalar goes on in what is behind it. -/
def Ends (rest : Bytes) : Prop := ∀ c ∈ rest.head?, isScalar c = false

theorem skipValue_text (v : Value) (hrest : Ends rest) :
    skipValue (v.text ++ rest) = some rest := by
  cases v with
  | string ps =>
    have htext : quoted ps ++ rest = 34 :: (piecesText ps ++ 34 :: rest) := by simp [quoted]
    rw [Value.text, htext, skipValue, if_pos rfl, string_pieces]
    rfl
  | token t h =>
    obtain ⟨c, t, rfl⟩ := exists_cons_of_ne_nil h.1
    obtain ⟨-, hquote, hbrace, hbracket⟩ := h.2 c mem_cons_self
    rw [Value.text, cons_append, skipValue, if_neg hquote, if_neg (by simp [hbrace, hbracket]),
      ← cons_append, scalarSkip, dropWhile_append_of_pos fun d hd => (h.2 d hd).1]
    cases rest with
    | nil => rfl
    | cons d rest => rw [dropWhile_cons_of_neg (by simp [hrest d (by simp)])]
  | container t h =>
    obtain ⟨c, mid, d, hmid, hc, hd, rfl⟩ := h.brackets
    have hquote : c ≠ 34 := by
      rintro rfl
      simp at hc
    have hskip := skipDepth_brackets hmid hc hd 0 rest
    rw [if_pos rfl, cons_append] at hskip
    rw [Value.text, cons_append, skipValue, if_neg hquote, if_pos hc]
    exact hskip

theorem emitValue_text (v : Value) (hrest : Ends rest) :
    emitValue size (v.text ++ rest) = v.flat.map fun text => text.take (size - 1) := by
  cases v with
  | string ps =>
    have htext : quoted ps ++ rest = 34 :: (piecesText ps ++ 34 :: rest) := by simp [quoted]
    rw [Value.text, htext, emitValue, if_pos rfl, string_pieces]
    rfl
  | token t h =>
    have hskip := skipValue_text (.token t h) hrest
    obtain ⟨c, t, rfl⟩ := exists_cons_of_ne_nil h.1
    obtain ⟨-, hquote, hbrace, hbracket⟩ := h.2 c mem_cons_self
    have hno : ¬(c = 123 ∨ c = 91) := by simp [hbrace, hbracket]
    rw [Value.text, cons_append, skipValue, if_neg hquote, if_neg hno] at hskip
    rw [Value.text, cons_append, emitValue, if_neg hquote, if_neg hno, Option.some.inj hskip]
    have hspan : span (c :: (t ++ rest)) rest = c :: t := by
      have hlen : (c :: (t ++ rest)).length - rest.length = (c :: t).length := by
        simp only [length_cons, length_append]
        omega
      rw [span, hlen, ← cons_append, take_left]
    rw [hspan]
    rfl
  | container t h =>
    obtain ⟨c, mid, d, -, hc, -, rfl⟩ := h.brackets
    have hquote : c ≠ 34 := by
      rintro rfl
      simp at hc
    rw [Value.text, cons_append, emitValue, if_neg hquote, if_pos hc]
    rfl

/-! ### The document -/

theorem ends_spaces (hs : Spaces s) (hc : isScalar c = false) (rest : Bytes) :
    Ends (s ++ c :: rest) := by
  cases s with
  | nil =>
    intro d hd
    cases hd
    exact hc
  | cons e s =>
    intro d hd
    cases hd
    have hspace := hs e mem_cons_self
    simp [isScalar, hspace]

/-- The look for a member in the text of an object -/
theorem getStrLoop_text (members : List Member) (back : Bytes) (hs : Spaces s)
    (hturns : members.length < turns) :
    getStrLoop key size turns (s ++ (membersText members ++ 125 :: back)) =
      lookup members key size := by
  induction members generalizing s turns with
  | nil =>
    obtain ⟨turns, rfl⟩ : ∃ m, turns = m + 1 := ⟨turns - 1, by omega⟩
    have hnone : memberKey (s ++ 125 :: back) = none := by
      rw [memberKey, wsSkip_spaces hs, wsSkip_cons rfl]
      rfl
    rw [membersText, nil_append, getStrLoop_succ, hnone]
    rfl
  | cons m ms ih =>
    obtain ⟨turns, rfl⟩ : ∃ k, turns = k + 1 := ⟨turns - 1, by omega⟩
    rw [length_cons] at hturns
    obtain ⟨c, t, hc, htext, hnext⟩ : ∃ c t, isScalar c = false ∧
        membersText (m :: ms) ++ 125 :: back = m.text ++ c :: t ∧
        getStrLoop key size turns (nextMember (m.back ++ c :: t)) = lookup ms key size := by
      have hback := m.spaces.2.2.2
      have hempty : Spaces [] := fun _ h => by cases h
      cases ms with
      | nil =>
        have hother : wsSkip (m.back ++ 125 :: back) = 125 :: back := by
          rw [wsSkip_spaces hback, wsSkip_cons rfl]
        refine ⟨125, back, rfl, rfl, ?_⟩
        rw [nextMember_other (by simp [hother]), hother]
        exact ih hempty (by omega)
      | cons m' ms =>
        have hcomma : wsSkip (m.back ++ 44 :: (membersText (m' :: ms) ++ 125 :: back)) =
            44 :: (membersText (m' :: ms) ++ 125 :: back) := by
          rw [wsSkip_spaces hback, wsSkip_cons rfl]
        refine ⟨44, membersText (m' :: ms) ++ 125 :: back, rfl, by simp [membersText], ?_⟩
        rw [nextMember_comma hcomma]
        exact ih hempty (by omega)
    have hends := ends_spaces m.spaces.2.2.2 hc t
    rw [htext, getStrLoop_succ, memberKey_text m hs, lookup, find?_cons]
    dsimp only [Option.elim]
    by_cases hname : decode m.name = key
    · rw [if_pos hname, emitValue_text m.value hends]
      simp [hname]
    · rw [if_neg hname, skipValue_text m.value hends]
      simpa [hname, lookup] using hnext

theorem getStr_text (doc : Document) (key : Bytes) (size : ℕ) :
    getStr doc.text key size = lookup doc.members key size := by
  have hlen : doc.members.length ≤ (membersText doc.members).length := by
    generalize doc.members = members
    induction members with
    | nil => exact Nat.le_refl _
    | cons m ms ih =>
      have hone : 0 < m.text.length := by
        simp only [Member.text, length_append, length_cons]
        omega
      cases ms with
      | nil => exact hone
      | cons m' ms =>
        have htext : membersText (m :: m' :: ms) = m.text ++ 44 :: membersText (m' :: ms) := rfl
        have hcons : (44 :: membersText (m' :: ms)).length = (membersText (m' :: ms)).length + 1 :=
          rfl
        rw [htext, length_append, length_cons, hcons]
        omega
  have hws : wsSkip doc.text =
      123 :: (doc.inner ++ membersText doc.members ++ 125 :: doc.back) := by
    rw [Document.text, wsSkip_spaces doc.spaces.1, wsSkip_cons rfl]
  simp only [getStr, hws, append_assoc]
  refine getStrLoop_text doc.members doc.back doc.spaces.2 ?_
  rw [length_append, length_append]
  omega

/-! ### The claim of the extractor -/

/-- The extractor comes to its end without a read past the end of the document, whatever that is,
and if it is an object the answer is what the name stands for in it. -/
def Answers (json key : Bytes) (size : ℕ) : Prop :=
  ∃ answer, jsonGetStr json key size = some answer ∧
    ∀ doc : Document, doc.text = json → answer = lookup doc.members key size

/-- **The extractor reads the document.** It comes to its end for every text, and its answer is right
where no value that it skips nests so deep that its counter is zero again. -/
theorem jsonGetStr_answers (json : Bytes) (hkey : key.length < keyBuf) (hsize : 0 < size) :
    (∃ answer, jsonGetStr json key size = some answer) ∧
      (Shallow json key → Answers json key size) := by
  obtain ⟨answer, hanswer, hsame⟩ := @jsonGetStr_cur json _ _ hkey hsize
  refine ⟨⟨answer, hanswer⟩, fun hshallow => ⟨answer, hanswer, fun doc hdoc => ?_⟩⟩
  rw [hsame hshallow, ← hdoc, getStr_text]

/-- A member is found behind one whose value has its name in it. -/
theorem jsonGetStr_answers_nested :
    Answers (ascii "\x7b\"a\":\x7b\"k\":[\"\x7d\"]\x7d, \"k\" : 12\x7d") (ascii "k") 8 :=
  (jsonGetStr_answers _ (by decide) (by decide)).2 (by unfold Shallow; decide +kernel)

/-! ### A document that is too deep -/

theorem jmSkipContainerLoop_open {doc : Bytes} (n : ℕ) {turns : ℕ} {depth : Int32}
    {rest : Bytes} (h : replicate n 91 ++ rest <:+ doc) :
    jmSkipContainerLoop doc (turns + n) (cur doc (replicate n 91 ++ rest)) depth =
      jmSkipContainerLoop doc turns (cur doc rest) (depth + Int32.ofNat n) := by
  induction n generalizing depth with
  | zero => simp
  | succ n ih =>
    rw [replicate_succ, cons_append] at h ⊢
    have ht := (suffix_cons _ _).trans h
    rw [← Nat.add_assoc, jmSkipContainerLoop, if_pos (lt_length_cons h), getElem?_cons h, cur_cons h]
    simp only [Option.bind_eq_bind, Option.bind_some]
    rw [if_neg (by decide), if_pos (by decide), ih ht, Int32.add_assoc, Nat.add_comm n 1,
      Int32.ofNat_add]
    rfl

theorem text_deep (n : ℕ) :
    Text .container (replicate (n + 1) 91 ++ replicate (n + 1) 93) := by
  have hnil : Spaces [] := fun _ h => by cases h
  induction n with
  | zero => exact .emptyArray hnil
  | succ n ih =>
    have htext : replicate (n + 2) 91 ++ replicate (n + 2) 93 =
        (91 : UInt8) :: (([] ++ (replicate (n + 1) 91 ++ replicate (n + 1) 93) ++ []) ++
          [93]) := by
      rw [replicate_succ, replicate_succ' (n := n + 1)]
      simp
    rw [htext]
    exact .array (.lastElem hnil (.nested ih) hnil)

/-- A member `x` whose value is an array in an array and so on, and behind it a member `k` -/
def deepDocument (n : ℕ) : Document where
  front := []
  members :=
    [⟨[], [.plain 120 (by decide)], [], [], .container _ (text_deep n), [], by simp [Spaces]⟩,
      ⟨[], [.plain 107 (by decide)], [], [], .token [49] (by simp [Token]; decide), [],
        by simp [Spaces]⟩]
  inner := []
  back := []
  spaces := by simp [Spaces]

/-- What follows the innermost array of that document -/
def deepRest (n : ℕ) : Bytes := replicate n 93 ++ ascii ",\"k\":1\x7d"

theorem deepDocument_text (n : ℕ) : (deepDocument n).text =
    123 :: 34 :: 120 :: 34 :: 58 :: 91 :: (replicate n 91 ++ 93 :: deepRest n) := by
  have hback : ascii ",\"k\":1\x7d" = [44, 34, 107, 34, 58, 49, 125] := rfl
  simp [deepDocument, Document.text, membersText, Member.text, quoted, Value.text, deepRest, hback,
    replicate_succ, Piece.text, piecesText]

theorem memberKey_x (t : Bytes) :
    memberKey (34 :: 120 :: 34 :: 58 :: 91 :: t) = some ([120], 91 :: t) := by
  have hname : string (120 :: 34 :: 58 :: 91 :: t) = some ([120], 58 :: 91 :: t) :=
    string_pieces [.plain 120 (by decide)] (58 :: 91 :: t)
  rw [memberKey, wsSkip_cons rfl]
  simp only [hname, wsSkip_cons (rfl : isSpace 58 = false), wsSkip_cons (rfl : isSpace 91 = false)]
  rfl

/-- Of `2 ^ 32 + 1` arrays the innermost alone is passed over, and what follows is no member. -/
theorem jsonGetStr_deep {n : ℕ} (hn : n = depthBound) :
    jsonGetStr (deepDocument n).text (ascii "k") 8 = some none := by
  obtain ⟨rest, hrest⟩ : ∃ rest, deepRest n = 93 :: rest := by
    refine ⟨replicate (n - 1) 93 ++ ascii ",\"k\":1\x7d", ?_⟩
    obtain ⟨m, rfl⟩ : ∃ m, n = m + 1 := ⟨n - 1, by rw [hn]; rfl⟩
    rw [deepRest, replicate_succ]
    rfl
  have htext := deepDocument_text n
  rw [hrest] at htext
  generalize (deepDocument n).text = doc at *
  have hvalue : replicate (n + 1) 91 ++ 93 :: 93 :: rest <:+ doc :=
    ⟨[123, 34, 120, 34, 58], htext.symm⟩
  have hname : 34 :: 120 :: 34 :: 58 :: 91 :: (replicate n 91 ++ 93 :: 93 :: rest) <:+ doc :=
    ⟨[123], htext.symm⟩
  have hclose : 93 :: 93 :: rest <:+ doc := (suffix_append _ _).trans hvalue
  have hbehind : 93 :: rest <:+ doc := (suffix_cons _ _).trans hclose
  have hskip : jmSkipValue doc (cur doc (91 :: (replicate n 91 ++ 93 :: 93 :: rest))) =
      some (some (cur doc (93 :: rest))) := by
    have hfirst : 91 :: (replicate n 91 ++ 93 :: 93 :: rest) <:+ doc := hvalue
    have hturns : doc.length + 1 = doc.length - (n + 1) + 1 + (n + 1) := by
      have hle := hvalue.length_le
      rw [length_append, length_replicate] at hle
      omega
    have hone : (0 : Int32) + Int32.ofNat (n + 1) - 1 = 0 := by
      rw [hn]
      decide
    rw [jmSkipValue, if_neg (Nat.not_le.mpr (lt_length_cons hfirst)), getElem?_cons hfirst]
    simp only [Option.bind_eq_bind, Option.bind_some]
    rw [if_neg (by decide), if_pos (by decide), jmSkipContainer, hturns]
    refine (jmSkipContainerLoop_open (n + 1) hvalue).trans ?_
    rw [jmSkipContainerLoop, if_pos (lt_length_cons hclose), getElem?_cons hclose, cur_cons hclose]
    simp only [Option.bind_eq_bind, Option.bind_some]
    rw [if_neg (by decide), if_neg (by decide), if_pos (by decide), if_pos hone]
  have hdoc : 123 :: 34 :: 120 :: 34 :: 58 :: 91 :: (replicate n 91 ++ 93 :: 93 :: rest) <:+
      doc := htext ▸ suffix_refl _
  have hlen : ∃ turns, doc.length = turns + 1 := ⟨doc.length - 1, by rw [htext]; rfl⟩
  obtain ⟨turns, hlen⟩ := hlen
  have hstart : cur doc doc = 0 := Nat.sub_self _
  have hws := jmSkipWs_cur (suffix_refl doc)
  rw [hstart] at hws
  have hkeep : wsSkip doc = 123 :: 34 :: 120 :: 34 :: 58 :: 91 ::
      (replicate n 91 ++ 93 :: 93 :: rest) := by
    rw [htext]
    exact wsSkip_cons rfl _
  rw [jsonGetStr, if_neg (by decide), hws, hkeep]
  simp only [Option.bind_eq_bind, Option.bind_some]
  rw [if_neg (Nat.not_le.mpr (lt_length_cons hdoc)), getElem?_cons hdoc, Option.bind_some,
    if_neg (by decide), cur_cons hdoc, jsonGetStrLoop, jmMemberKey_cur hname, memberKey_x]
  have hother : ¬([120] : Bytes) = ascii "k" := by decide
  have hnot : wsSkip (93 :: rest) = 93 :: rest := wsSkip_cons rfl _
  have hnext : nextMember (93 :: rest) = 93 :: rest := by
    rw [nextMember_other (by simp [hnot]), hnot]
  have hnone : memberKey (93 :: rest) = none := by
    rw [memberKey, hnot]
    rfl
  simp only [Option.bind_eq_bind, Option.bind_some, Option.map_some,
    @kbuf_eq_key (ascii "k") (by decide), if_neg hother, hskip, jmSkipWs_cur hbehind]
  rw [cur_nextMember hbehind fun p => jsonGetStrLoop doc (ascii "k") 8 doc.length p, hnext, hlen,
    jsonGetStrLoop, jmMemberKey_cur hbehind, hnone]
  rfl

/-- At `2 ^ 32 + 1` arrays the skip ends too early. -/
theorem not_jsonGetStr : ¬∀ (json key : Bytes) (size : ℕ), key.length < keyBuf → 0 < size →
    Answers json key size := by
  intro h
  obtain ⟨answer, hanswer, hdoc⟩ :=
    h (deepDocument depthBound).text (ascii "k") 8 (by decide) (by decide)
  have hnone := hdoc (deepDocument depthBound) rfl
  rw [jsonGetStr_deep rfl] at hanswer
  rw [← Option.some.inj hanswer] at hnone
  cases hnone

end Json

end BrixCache

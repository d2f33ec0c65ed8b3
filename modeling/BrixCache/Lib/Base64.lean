import Mathlib.Data.Nat.Notation

/-!
# Base64

Bytes as groups of six bits and back, and the text of the groups in the standard
alphabet, with padding to a multiple of four characters.
-/

namespace Base64

/-! ## Groups of six bits -/

/-- The groups of six bits of bytes, the last one filled up with zeros. -/
def sextets : List UInt8 → List ℕ
  | [] => []
  | [a] => [a.toNat / 4, a.toNat % 4 * 16]
  | [a, b] => [a.toNat / 4, a.toNat % 4 * 16 + b.toNat / 16, b.toNat % 16 * 4]
  | a :: b :: c :: bytes =>
    a.toNat / 4 :: (a.toNat % 4 * 16 + b.toNat / 16) :: (b.toNat % 16 * 4 + c.toNat / 64) ::
      c.toNat % 64 :: sextets bytes

/-- The bytes of groups of six bits. -/
def bytes : List ℕ → Option (List UInt8)
  | [] => some []
  | [_] => none
  | [w, x] => some [UInt8.ofNat (w * 4 + x / 16)]
  | [w, x, y] => some [UInt8.ofNat (w * 4 + x / 16), UInt8.ofNat (x % 16 * 16 + y / 4)]
  | w :: x :: y :: z :: rest =>
    (bytes rest).map fun more =>
      UInt8.ofNat (w * 4 + x / 16) :: UInt8.ofNat (x % 16 * 16 + y / 4) ::
        UInt8.ofNat (y % 4 * 64 + z) :: more

theorem ofNat_eq {a : UInt8} {n : ℕ} (h : n = a.toNat) : UInt8.ofNat n = a := by
  rw [h, UInt8.ofNat_toNat]

theorem bytes_sextets (bs : List UInt8) : bytes (sextets bs) = some bs := by
  induction bs using sextets.induct with
  | case1 => rfl
  | case2 a =>
    rw [sextets, bytes, ofNat_eq (a := a) (by omega)]
  | case3 a b =>
    have hb := b.toNat_lt
    rw [sextets, bytes, ofNat_eq (a := a) (by omega), ofNat_eq (a := b) (by omega)]
  | case4 a b c bs ih =>
    have hb := b.toNat_lt
    have hc := c.toNat_lt
    rw [sextets, bytes, ih, Option.map_some, ofNat_eq (a := a) (by omega),
      ofNat_eq (a := b) (by omega), ofNat_eq (a := c) (by omega)]

theorem sextets_lt {bs : List UInt8} {n : ℕ} (h : n ∈ sextets bs) : n < 64 := by
  induction bs using sextets.induct with
  | case1 => cases h
  | case2 a =>
    have ha := a.toNat_lt
    simp only [sextets, List.mem_cons, List.not_mem_nil, or_false] at h
    omega
  | case3 a b =>
    have ha := a.toNat_lt
    have hb := b.toNat_lt
    simp only [sextets, List.mem_cons, List.not_mem_nil, or_false] at h
    omega
  | case4 a b c bs ih =>
    have ha := a.toNat_lt
    have hb := b.toNat_lt
    have hc := c.toNat_lt
    simp only [sextets, List.mem_cons] at h
    obtain h | h | h | h | h := h
    · omega
    · omega
    · omega
    · omega
    · exact ih h

theorem length_sextets (bs : List UInt8) : (sextets bs).length = (bs.length * 4 + 2) / 3 := by
  induction bs using sextets.induct with
  | case1 => rfl
  | case2 a | case3 a b => simp [sextets]
  | case4 a b c bs ih =>
    simp only [sextets, List.length_cons, ih]
    omega

/-! ## Texts -/

/-- A group of six bits in the standard alphabet. -/
def char (n : ℕ) : UInt8 :=
  if n < 26 then UInt8.ofNat (n + 65)
  else if n < 52 then UInt8.ofNat (n + 71)
  else if n < 62 then UInt8.ofNat (n - 4)
  else if n = 62 then 43
  else 47

/-- The group of six bits of a character. -/
def value (c : UInt8) : Option ℕ :=
  if 65 ≤ c ∧ c ≤ 90 then some (c.toNat - 65)
  else if 97 ≤ c ∧ c ≤ 122 then some (c.toNat - 71)
  else if 48 ≤ c ∧ c ≤ 57 then some (c.toNat + 4)
  else if c = 43 then some 62
  else if c = 47 then some 63
  else none

theorem value_char {n : ℕ} (h : n < 64) : value (char n) = some n := by
  revert h
  revert n
  decide

theorem mapM_value (ns : List ℕ) (h : ∀ n ∈ ns, n < 64) :
    (ns.map char).mapM value = some ns := by
  induction ns with
  | nil => rfl
  | cons n ns ih =>
    obtain ⟨hn, hns⟩ := List.forall_mem_cons.mp h
    simp [List.mapM_cons, value_char hn, ih hns]

theorem char_ne_pad {n : ℕ} (h : n < 64) : char n ≠ 61 := by
  revert h
  revert n
  decide

/-- The padding behind so many characters. -/
def padding (length : ℕ) : ℕ := (4 - length % 4) % 4

/-- The text of bytes, with its padding. -/
def encode (bs : List UInt8) : List UInt8 :=
  (sextets bs).map char ++ List.replicate (padding (sextets bs).length) 61

/-- The bytes of a text with padding; none where a character is not in the alphabet. -/
def decode (text : List UInt8) : Option (List UInt8) :=
  if text.length % 4 = 0 then
    ((text.reverse.dropWhile (· = 61)).reverse.mapM value).bind bytes
  else none

theorem dropWhile_pad {cs : List UInt8} {n : ℕ} (h : ∀ c ∈ cs, c ≠ 61) :
    ((cs ++ List.replicate n 61).reverse.dropWhile (· = 61)).reverse = cs := by
  rw [List.reverse_append, List.reverse_replicate]
  induction n with
  | zero =>
    rw [List.replicate_zero, List.nil_append]
    cases hrev : cs.reverse with
    | nil => simpa using hrev.symm
    | cons c rest =>
      have hc : c ∈ cs := List.mem_reverse.mp (by rw [hrev]; exact List.mem_cons_self)
      rw [List.dropWhile_cons_of_neg (by simpa using h c hc), ← hrev, List.reverse_reverse]
  | succ n ih =>
    rw [List.replicate_succ, List.cons_append, List.dropWhile_cons_of_pos (by simp)]
    exact ih

theorem decode_encode (bs : List UInt8) : decode (encode bs) = some bs := by
  have hpad : (encode bs).length % 4 = 0 := by
    simp only [encode, padding, List.length_append, List.length_map, List.length_replicate]
    omega
  have hchars : ∀ c ∈ (sextets bs).map char, c ≠ 61 := by
    intro c hc
    obtain ⟨n, hn, rfl⟩ := List.mem_map.mp hc
    exact char_ne_pad (sextets_lt hn)
  have hvalues := mapM_value (sextets bs) fun n hn => sextets_lt hn
  rw [decode, if_pos hpad, encode, dropWhile_pad hchars, hvalues, Option.bind_some,
    bytes_sextets]

end Base64

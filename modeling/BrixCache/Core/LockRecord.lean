import BrixCache.Core.Ascii
import BrixCache.Core.Decimal
import BrixCache.Lib.Words
import Mathlib.Algebra.Group.Int.Defs
import Mathlib.Algebra.Group.Nat.Defs

/-!
# The persisted lock record

`lock_record.c`: a lock as the value of one extended attribute on the resource it locks, and the
walk from a path to its ancestors. `beneath.h` makes the paths the walk is done on: a request
path joined to the root of the export.
-/

namespace BrixCache

open Words List

/-! ## Numbers as the C library reads them -/

def isCSpace (c : UInt8) : Bool := c = 32 || (9 ≤ c && c ≤ 13)

def isCDigit (c : UInt8) : Bool := 48 ≤ c && c ≤ 57

/-- `strtoll` in base ten: blanks, a sign, digits, and the nearest representable number. -/
def strtoll (s : Bytes) : ℤ :=
  let value (s : Bytes) : ℤ := digitsValue (s.takeWhile isCDigit)
  match s.dropWhile isCSpace with
  | 45 :: s => max (-value s) (-2 ^ 63)
  | 43 :: s => min (value s) (2 ^ 63 - 1)
  | s => min (value s) (2 ^ 63 - 1)

/-- `%lld` -/
def formatLld (x : ℤ) : Bytes := if x < 0 then 45 :: digits x.natAbs else digits x.natAbs

/-! ## The record -/

def BRIX_LOCK_XATTR_MAXLEN : ℕ := 512

/-- A lock as its extended attribute has it -/
structure LockRecord : Type where
  token : Bytes
  owner : Bytes
  /-- wall-clock seconds -/
  expires : ℤ
  exclusive : Bool
  depthInfinity : Bool
  isNull : Bool
  /-- the bytes the record was read from -/
  observed : Bytes
  deriving DecidableEq

/-- A record with nothing decoded into it yet, and the version seen -/
def LockRecord.zero : LockRecord × ℤ := (⟨[], [], 0, false, false, false, []⟩, 0)

/-- One field of a record's text. -/
def brixLockRecordApplyField (key val : Bytes) (e : LockRecord × ℤ) : LockRecord × ℤ :=
  if key = ascii "v" then (e.1, Int.bmod (strtoll val) (2 ^ 32))
  else if key = ascii "token" then ({ e.1 with token := val.take 63 }, e.2)
  else if key = ascii "owner" then ({ e.1 with owner := val.take 255 }, e.2)
  else if key = ascii "expires" then ({ e.1 with expires := strtoll val }, e.2)
  else if key = ascii "scope" then ({ e.1 with exclusive := val = ascii "exclusive" }, e.2)
  else if key = ascii "depth" then ({ e.1 with depthInfinity := val = ascii "infinity" }, e.2)
  else if key = ascii "null" then ({ e.1 with isNull := val = ascii "1" }, e.2)
  else e

/-- `brix_lock_record_encode` into a buffer of `BRIX_LOCK_XATTR_MAXLEN` -/
def brixLockRecordEncode (e : LockRecord) : Option Bytes :=
  let out := ascii "v=2|token=" ++ e.token ++ ascii "|owner=" ++ e.owner
    ++ ascii "|expires=" ++ formatLld e.expires
    ++ ascii "|scope=" ++ (if e.exclusive then ascii "exclusive" else ascii "shared")
    ++ ascii "|depth=" ++ (if e.depthInfinity then ascii "infinity" else ascii "0")
    ++ ascii "|null=" ++ (if e.isNull then ascii "1" else ascii "0")
  if out.length < BRIX_LOCK_XATTR_MAXLEN then some out else none

/-- One piece between bars: the field before its first equals sign, or nothing -/
def lockRecordField (e : LockRecord × ℤ) (piece : Bytes) : LockRecord × ℤ :=
  match piece.dropWhile (· ≠ 61) with
  | _ :: val => brixLockRecordApplyField (piece.takeWhile (· ≠ 61)) val e
  | [] => e

/-- `brix_lock_record_decode`. Empty pieces have no equals sign, so the words between the bars
are all there is to apply. A record of an older version counts as expired. -/
def brixLockRecordDecode (raw : Bytes) : Option LockRecord :=
  if raw = [] ∨ BRIX_LOCK_XATTR_MAXLEN ≤ raw.length ∨ 0 ∈ raw then none
  else
    let e := (words 124 raw).foldl lockRecordField LockRecord.zero
    if e.1.token = [] then none
    else some { e.1 with expires := if e.2 = 2 then e.1.expires else 0, observed := raw }

/-! ## From a path to its parent -/

/-- A pointer walks back over a reversed string, but not past its first byte. -/
def walkBack (go : UInt8 → Bool) : Bytes → Bytes
  | [] => []
  | [c] => [c]
  | c :: d :: rest => if go c then walkBack go (d :: rest) else c :: d :: rest

/-- The path above. -/
def brixLockPathAscend (check : Bytes) : Option Bytes :=
  match walkBack (· ≠ slash) (walkBack (· = slash) check.reverse) with
  | [] => none
  | c :: before => if c = slash then some before.reverse else none

theorem walkBack_suffix (go : UInt8 → Bool) (s : Bytes) : walkBack go s <:+ s := by
  fun_induction walkBack go s with
  | case1 => exact suffix_rfl
  | case2 c => exact suffix_rfl
  | case3 c d rest hgo ih => exact ih.trans (suffix_cons c _)
  | case4 c d rest hgo => exact suffix_rfl

theorem brixLockPathAscend_begins {check up : Bytes}
    (h : brixLockPathAscend check = some up) : up ++ [slash] <+: check := by
  rw [brixLockPathAscend] at h
  split at h
  · cases h
  · next c before heq =>
    split at h
    · next hc =>
      cases h
      have hsuffix := (walkBack_suffix (· ≠ slash) _).trans (walkBack_suffix (· = slash) check.reverse)
      rw [heq, hc] at hsuffix
      simpa using reverse_prefix.mpr hsuffix
    · cases h

theorem walkBack_append {go : UInt8 → Bool} {s t : Bytes} (hs : ∀ c ∈ s, go c = true)
    (ht : t ≠ []) : walkBack go (s ++ t) = walkBack go t := by
  induction s with
  | nil => rfl
  | cons c s ih =>
    obtain ⟨d, rest, hd⟩ := exists_cons_of_ne_nil (append_ne_nil_of_right_ne_nil s ht)
    rw [cons_append, hd, walkBack, if_pos (hs c mem_cons_self), ← hd]
    exact ih fun c hc => hs c (mem_cons_of_mem _ hc)

theorem walkBack_stop {go : UInt8 → Bool} {c : UInt8} (hc : go c = false) (t : Bytes) :
    walkBack go (c :: t) = c :: t := by
  cases t with
  | nil => rfl
  | cons d t => simp [walkBack, hc]

theorem brixLockPathAscend_name {pre name : Bytes} (hname : slash ∉ name) (hne : name ≠ [])
    (k : ℕ) :
    brixLockPathAscend (pre ++ slash :: (name ++ replicate k slash)) = some pre := by
  have hrev : (pre ++ slash :: (name ++ replicate k slash)).reverse
      = replicate k slash ++ (name.reverse ++ slash :: pre.reverse) := by simp
  have hslash : ∀ c ∈ replicate k slash, (fun c => decide (c = slash)) c = true := by simp
  obtain ⟨c, rest, hc⟩ := exists_cons_of_ne_nil
    (fun h => hne (reverse_eq_nil_iff.mp h) : name.reverse ≠ [])
  have hcs : c ≠ slash := fun h => hname (by simpa [hc, h] using
    (mem_reverse.mp (hc ▸ mem_cons_self) : c ∈ name))
  have hback : ∀ c ∈ name.reverse, (fun c => decide (c ≠ slash)) c = true := by
    intro c hc
    have hmem : c ∈ name := by simpa using hc
    simpa using fun h : c = slash => hname (h ▸ hmem)
  rw [brixLockPathAscend, hrev, walkBack_append hslash (by simp [hc])]
  rw [show walkBack (fun c => decide (c = slash)) (name.reverse ++ slash :: pre.reverse)
    = name.reverse ++ slash :: pre.reverse by
      rw [hc, cons_append]; exact walkBack_stop (by simp [hcs]) _]
  rw [walkBack_append hback (by simp), walkBack_stop (by simp)]
  simp

end BrixCache

/-! ## Lock records read back -/

namespace BrixCache

open Words List

/-! ### Numbers -/

theorem isCDigit_digit {d : ℕ} (h : d < 10) : isCDigit (digit d) = true := by
  revert h
  revert d
  decide

theorem all_digits (n : ℕ) : ∀ c ∈ digits n, isCDigit c = true := by
  intro c hc
  obtain ⟨d, hd, rfl⟩ := of_mem_digits hc
  exact isCDigit_digit hd

theorem takeWhile_digits (n : ℕ) : (digits n).takeWhile isCDigit = digits n :=
  takeWhile_eq_self_iff.mpr (all_digits n)

theorem digits_ne_nil (n : ℕ) : digits n ≠ [] := by
  rcases Nat.lt_or_ge n 10 with h | h
  · simp [digits_small h]
  · simp [digits_more h]

theorem digits_head (n : ℕ) :
    ∃ c rest, digits n = c :: rest ∧ isCSpace c = false ∧ c ≠ 45 ∧ c ≠ 43 := by
  obtain ⟨c, rest, h⟩ := exists_cons_of_ne_nil (digits_ne_nil n)
  obtain ⟨d, hd, rfl⟩ : ∃ d, d < 10 ∧ c = digit d := of_mem_digits (h ▸ mem_cons_self)
  refine ⟨digit d, rest, h, ?_⟩
  clear h
  revert hd
  revert d
  decide

theorem strtoll_formatLld {x : ℤ} (hlo : -2 ^ 63 ≤ x) (hhi : x < 2 ^ 63) :
    strtoll (formatLld x) = x := by
  rw [formatLld]
  split
  · next hneg =>
    have hspace : (45 :: digits x.natAbs).dropWhile isCSpace = 45 :: digits x.natAbs := rfl
    simp only [strtoll, hspace, takeWhile_digits, digitsValue_digits]
    omega
  · next hpos =>
    obtain ⟨c, rest, hc, hc'⟩ := digits_head x.natAbs
    have hspace : (digits x.natAbs).dropWhile isCSpace = c :: rest := by
      rw [hc, dropWhile_cons, if_neg (by simp [hc'.1])]
    have hvalue : digitsValue ((c :: rest).takeWhile isCDigit) = x.natAbs := by
      rw [← hc, takeWhile_digits, digitsValue_digits]
    rw [strtoll, hspace]
    split
    · next heq => exact absurd (cons.inj heq).1 hc'.2.1
    · next heq => exact absurd (cons.inj heq).1 hc'.2.2
    · simp only [hvalue]
      omega

/-! ### Texts in fields -/

/-- A text that can stand in a field -/
def FieldText (s : Bytes) : Prop := 124 ∉ s ∧ 0 ∉ s

instance (s : Bytes) : Decidable (FieldText s) := inferInstanceAs (Decidable (_ ∧ _))

theorem FieldText.subset {s t : Bytes} (hs : FieldText s) (h : ∀ c ∈ t, c ∈ s) :
    FieldText t := ⟨fun hc => hs.1 (h _ hc), fun hc => hs.2 (h _ hc)⟩

theorem FieldText.append {s t : Bytes} (hs : FieldText s) (ht : FieldText t) :
    FieldText (s ++ t) := by
  simp_all [FieldText]

theorem fieldText_formatLld (x : ℤ) : FieldText (formatLld x) := by
  have hdigits : FieldText (digits x.natAbs) := by
    constructor <;> intro h <;> exact absurd (all_digits _ _ h) (by decide)
  rw [formatLld]
  split
  · exact FieldText.append (s := [45]) (by simp [FieldText]) hdigits
  · exact hdigits

/-! ### The decoder -/

/-- A lock whose texts the fields of a record can hold -/
structure Fits (e : LockRecord) : Prop where
  token : FieldText e.token ∧ e.token.length ≤ 63
  owner : FieldText e.owner ∧ e.owner.length ≤ 255

theorem brixLockRecordApplyField_fits {e : LockRecord × ℤ} (he : Fits e.1)
    {key val : Bytes} (hval : FieldText val) :
    Fits (brixLockRecordApplyField key val e).1 := by
  have htake : ∀ n, FieldText (val.take n) ∧ (val.take n).length ≤ n := fun n =>
    ⟨hval.subset fun c hc => mem_of_mem_take hc, length_take_le n val⟩
  unfold brixLockRecordApplyField
  repeat' split
  all_goals first
    | exact he
    | exact ⟨htake 63, he.owner⟩
    | exact ⟨he.token, htake 255⟩
    | exact ⟨he.token, he.owner⟩

theorem lockRecordField_fits {e : LockRecord × ℤ} (he : Fits e.1) {piece : Bytes}
    (hpiece : FieldText piece) : Fits (lockRecordField e piece).1 := by
  rw [lockRecordField]
  split
  · next c val heq =>
    refine brixLockRecordApplyField_fits he (hpiece.subset fun c hc => ?_)
    exact (dropWhile_sublist _).subset (heq ▸ mem_cons_of_mem _ hc)
  · exact he

theorem foldl_fits {pieces : List Bytes} {e : LockRecord × ℤ} (he : Fits e.1)
    (hpieces : ∀ p ∈ pieces, FieldText p) : Fits (pieces.foldl lockRecordField e).1 := by
  induction pieces generalizing e with
  | nil => exact he
  | cons p pieces ih =>
    exact ih (lockRecordField_fits he (hpieces p mem_cons_self))
      fun q hq => hpieces q (mem_cons_of_mem _ hq)

variable {e : LockRecord} {raw : Bytes}

theorem brixLockRecordDecode_fits (h : brixLockRecordDecode raw = some e) :
    Fits e ∧ e.token ≠ [] ∧ e.observed = raw := by
  rw [brixLockRecordDecode] at h
  split at h
  · cases h
  · next hraw =>
    simp only at h
    split at h
    · cases h
    · next htoken =>
      cases h
      have hpieces : ∀ p ∈ words 124 raw, FieldText p :=
        fun p hp => ⟨(of_mem_words hp).1,
          fun h0 => hraw (.inr (.inr (mem_of_mem_words hp h0)))⟩
      have hfits := foldl_fits (e := LockRecord.zero) ⟨by simp [FieldText, LockRecord.zero],
        by simp [FieldText, LockRecord.zero]⟩ hpieces
      exact ⟨⟨hfits.token, hfits.owner⟩, htoken, rfl⟩

/-! ### Round trip -/

theorem lockRecordField_eq {key : Bytes} (hkey : 61 ∉ key) (val : Bytes)
    (e : LockRecord × ℤ) :
    lockRecordField e (key ++ 61 :: val) = brixLockRecordApplyField key val e := by
  have hall : ∀ c ∈ key, decide (c ≠ 61) = true := by
    intro c hc
    simpa using fun h : c = 61 => hkey (h ▸ hc)
  rw [lockRecordField, dropWhile_append_of_pos hall, takeWhile_append_of_pos hall]
  simp

def lockRecordFields (e : LockRecord) : List Bytes :=
  [ascii "v" ++ 61 :: ascii "2", ascii "token" ++ 61 :: e.token, ascii "owner" ++ 61 :: e.owner,
    ascii "expires" ++ 61 :: formatLld e.expires,
    ascii "scope" ++ 61 :: (if e.exclusive then ascii "exclusive" else ascii "shared"),
    ascii "depth" ++ 61 :: (if e.depthInfinity then ascii "infinity" else ascii "0"),
    ascii "null" ++ 61 :: (if e.isNull then ascii "1" else ascii "0")]

theorem fieldText_ascii {b : Bool} {s t : String} (hs : FieldText (ascii s))
    (ht : FieldText (ascii t)) : FieldText (if b then ascii s else ascii t) := by
  split
  · exact hs
  · exact ht

theorem lockRecordFields_text (hfits : Fits e) :
    ∀ f ∈ lockRecordFields e, FieldText f ∧ f ≠ [] := by
  have field : ∀ {key : Bytes} {val : Bytes}, FieldText (key ++ [61]) →
      FieldText val → FieldText (key ++ 61 :: val) ∧ key ++ 61 :: val ≠ [] := by
    intro key val hkey hval
    have h := hkey.append hval
    rw [append_assoc] at h
    exact ⟨h, by simp⟩
  simp only [lockRecordFields, forall_mem_cons]
  refine ⟨field (by decide) (by decide), field (by decide) hfits.token.1,
    field (by decide) hfits.owner.1, field (by decide) (fieldText_formatLld _),
    field (by decide) (fieldText_ascii (by decide) (by decide)),
    field (by decide) (fieldText_ascii (by decide) (by decide)),
    field (by decide) (fieldText_ascii (by decide) (by decide)), by simp⟩

theorem brixLockRecordEncode_fields (h : brixLockRecordEncode e = some raw) :
    124 :: raw = (lockRecordFields e).flatMap (124 :: ·) ∧
      raw.length < BRIX_LOCK_XATTR_MAXLEN := by
  rw [brixLockRecordEncode] at h
  obtain ⟨hlen, hraw⟩ := Option.ite_none_right_eq_some.mp h
  cases hraw
  refine ⟨?_, hlen⟩
  simp [lockRecordFields, ascii]

/-- What is encoded is read back. -/
theorem brixLockRecordDecode_encode (hfits : Fits e) (htoken : e.token ≠ [])
    (h : brixLockRecordEncode e = some raw) :
    brixLockRecordDecode raw
      = some { e with expires := strtoll (formatLld e.expires), observed := raw } := by
  obtain ⟨hraw, hlen⟩ := brixLockRecordEncode_fields h
  have hwords : words 124 raw = lockRecordFields e := by
    rw [← words_sep_cons, hraw,
      words_flatMap fun f hf => ⟨(lockRecordFields_text hfits f hf).1.1,
        (lockRecordFields_text hfits f hf).2⟩]
  have hgood : ¬(raw = [] ∨ BRIX_LOCK_XATTR_MAXLEN ≤ raw.length ∨ 0 ∈ raw) := by
    rintro (rfl | hlong | hzero)
    · cases hwords
    · exact absurd hlen (Nat.not_lt.mpr hlong)
    · have hmem : (0 : UInt8) ∈ (lockRecordFields e).flatMap (124 :: ·) :=
        hraw ▸ mem_cons_of_mem _ hzero
      obtain ⟨f, hf, hzero⟩ := mem_flatMap.mp hmem
      rcases mem_cons.mp hzero with h0 | h0
      · cases h0
      · exact (lockRecordFields_text hfits f hf).1.2 h0
  have hfold : (lockRecordFields e).foldl lockRecordField LockRecord.zero
      = ({ e with expires := strtoll (formatLld e.expires), observed := [] }, 2) := by
    have hversion : Int.bmod (strtoll (ascii "2")) (2 ^ 32) = 2 := by decide
    have htake : e.token.take 63 = e.token := take_of_length_le hfits.token.2
    have howner : e.owner.take 255 = e.owner := take_of_length_le hfits.owner.2
    simp only [lockRecordFields, foldl_cons, foldl_nil, LockRecord.zero]
    rw [lockRecordField_eq (by decide), lockRecordField_eq (by decide),
      lockRecordField_eq (by decide), lockRecordField_eq (by decide),
      lockRecordField_eq (by decide), lockRecordField_eq (by decide),
      lockRecordField_eq (by decide)]
    have hexcl : (decide ((if e.exclusive then ascii "exclusive" else ascii "shared")
        = ascii "exclusive")) = e.exclusive := by cases e.exclusive <;> decide
    have hdepth : (decide ((if e.depthInfinity then ascii "infinity" else ascii "0")
        = ascii "infinity")) = e.depthInfinity := by cases e.depthInfinity <;> decide
    have hnull : (decide ((if e.isNull then ascii "1" else ascii "0") = ascii "1"))
        = e.isNull := by cases e.isNull <;> decide
    simp +decide only [brixLockRecordApplyField, if_true, if_false, htake, howner, hversion,
      hexcl, hdepth, hnull]
  simp only [brixLockRecordDecode, if_neg hgood, hwords, hfold, if_neg htoken, if_true]

end BrixCache

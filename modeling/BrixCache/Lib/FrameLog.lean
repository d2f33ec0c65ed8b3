import Mathlib.Tactic.Common

/-!
# Logs of framed records

An append-only file holds records one after the other, each in a frame its own
reader recognises. A `Framing` says how a record is written and read, and carries
the two facts every recovery rests on: a whole record is read back, whatever
follows it, and a record cut short is not read at all. From them, a log cut at any
byte is read up to its last whole record.
-/

namespace BrixCache

open List

/-- How records of type `α` stand in a log. -/
structure Framing (α : Type) where
  encode : α → List UInt8
  /-- the record at the front of a byte string, and what follows it -/
  decode : List UInt8 → Option (α × List UInt8)
  /-- the records whose fields fit their places -/
  Fits : α → Prop
  decode_encode : ∀ r rest, Fits r → decode (encode r ++ rest) = some (r, rest)
  decode_short : ∀ r front back, Fits r → encode r = front ++ back → back ≠ [] →
    decode front = none
  decode_lt : ∀ bs r rest, decode bs = some (r, rest) → rest.length < bs.length

namespace Framing

variable {α : Type} (F : Framing α)

theorem decode_nil : F.decode [] = none := by
  cases h : F.decode [] with
  | none => rfl
  | some p => exact absurd (F.decode_lt [] p.1 p.2 h) (Nat.not_lt_zero _)

variable {F} in
theorem encode_pos {r : α} (hr : F.Fits r) : 0 < (F.encode r).length := by
  have hdec := F.decode_encode r [] hr
  rw [append_nil] at hdec
  exact F.decode_lt _ _ _ hdec

/-- The bytes of a log. -/
def encodeAll (rs : List α) : List UInt8 := rs.flatMap F.encode

@[simp] theorem encodeAll_nil : F.encodeAll [] = [] := rfl

@[simp] theorem encodeAll_cons (r : α) (rs : List α) :
    F.encodeAll (r :: rs) = F.encode r ++ F.encodeAll rs := flatMap_cons

@[simp] theorem encodeAll_append (rs rs' : List α) :
    F.encodeAll (rs ++ rs') = F.encodeAll rs ++ F.encodeAll rs' := flatMap_append

/-- Read records off the front as long as one is recognised: the records, and
the bytes left. -/
def scan (bs : List UInt8) : List α × List UInt8 :=
  match h : F.decode bs with
  | none => ([], bs)
  | some (r, rest) =>
    have := F.decode_lt bs r rest h
    let (rs, torn) := scan rest
    (r :: rs, torn)
  termination_by bs.length

theorem scan_of_none {bs : List UInt8} (h : F.decode bs = none) : F.scan bs = ([], bs) := by
  rw [scan]
  split
  · rfl
  · rename_i heq
    rw [h] at heq
    cases heq

theorem scan_of_some {bs rest : List UInt8} {r : α} (h : F.decode bs = some (r, rest)) :
    F.scan bs = (r :: (F.scan rest).1, (F.scan rest).2) := by
  rw [scan]
  split
  · rename_i heq
    rw [h] at heq
    cases heq
  · rename_i heq
    rw [h] at heq
    cases heq
    rfl

variable {F}

theorem scan_encodeAll {rs : List α} {torn : List UInt8} (hfits : ∀ r ∈ rs, F.Fits r)
    (htorn : F.decode torn = none) : F.scan (F.encodeAll rs ++ torn) = (rs, torn) := by
  induction rs with
  | nil => exact F.scan_of_none htorn
  | cons r rs ih =>
    have hdec : F.decode (F.encodeAll (r :: rs) ++ torn) = some (r, F.encodeAll rs ++ torn) := by
      rw [encodeAll_cons, append_assoc]
      exact F.decode_encode _ _ (hfits r mem_cons_self)
    rw [F.scan_of_some hdec, ih fun r' hr' => hfits r' (mem_cons_of_mem _ hr')]

/-- Bytes that a log may end in after its last whole record: nothing, or a record
cut short. -/
def Torn (F : Framing α) (bs : List UInt8) : Prop :=
  bs = [] ∨ ∃ r back, F.Fits r ∧ F.encode r = bs ++ back ∧ back ≠ []

namespace Torn

theorem nil : F.Torn [] := .inl rfl

theorem decode {bs : List UInt8} (h : F.Torn bs) : F.decode bs = none := by
  obtain rfl | ⟨r, back, hr, hsplit, hback⟩ := h
  · exact F.decode_nil
  · exact F.decode_short r bs back hr hsplit hback

theorem take {bs : List UInt8} (h : F.Torn bs) (n : ℕ) : F.Torn (bs.take n) := by
  obtain rfl | ⟨r, back, hr, hsplit, hback⟩ := h
  · rw [take_nil]
    exact nil
  · refine .inr ⟨r, bs.drop n ++ back, hr, ?_, fun h => hback (append_eq_nil_iff.mp h).2⟩
    rw [← append_assoc, take_append_drop, hsplit]

theorem of_lt {r : α} (hr : F.Fits r) {n : ℕ} (hn : n < (F.encode r).length) :
    F.Torn ((F.encode r).take n) := by
  refine .inr ⟨r, (F.encode r).drop n, hr, (take_append_drop n _).symm, ?_⟩
  intro hnil
  have hlen := congrArg length hnil
  rw [length_drop, length_nil] at hlen
  omega

end Torn

theorem take_encodeAll {rs : List α} (hfits : ∀ r ∈ rs, F.Fits r) (n : ℕ) :
    ∃ front back torn, rs = front ++ back ∧ F.Torn torn ∧
      (F.encodeAll rs).take n = F.encodeAll front ++ torn ∧
      ∀ r back', back = r :: back' → torn.length < (F.encode r).length := by
  induction rs generalizing n with
  | nil => exact ⟨[], [], [], rfl, Torn.nil, by simp, by simp⟩
  | cons r rs ih =>
    have hr := hfits r mem_cons_self
    obtain hn | hn := Nat.lt_or_ge n (F.encode r).length
    · -- the cut is inside the first record
      refine ⟨[], r :: rs, (F.encode r).take n, rfl, Torn.of_lt hr hn, ?_, ?_⟩
      · rw [encodeAll_cons, take_append_of_le_length (Nat.le_of_lt hn), encodeAll_nil,
          nil_append]
      · intro r' back' heq
        cases heq
        rw [length_take]
        omega
    · obtain ⟨front, back, torn, hrs, htorn, htake, hshort⟩ :=
        ih (fun r' hr' => hfits r' (mem_cons_of_mem _ hr')) (n - (F.encode r).length)
      refine ⟨r :: front, back, torn, by rw [hrs, cons_append], htorn, ?_, hshort⟩
      rw [encodeAll_cons, encodeAll_cons, take_append, take_of_length_le hn, htake,
        append_assoc]

theorem take_torn {rs : List α} {torn : List UInt8} (hfits : ∀ r ∈ rs, F.Fits r)
    (htorn : F.Torn torn) (n : ℕ) : ∃ front back torn', rs = front ++ back ∧ F.Torn torn' ∧
      (F.encodeAll rs ++ torn).take n = F.encodeAll front ++ torn' := by
  obtain hn | hn := Nat.lt_or_ge n (F.encodeAll rs).length
  · obtain ⟨front, back, torn', hrs, htorn', htake, -⟩ := take_encodeAll hfits n
    exact ⟨front, back, torn', hrs, htorn', by
      rw [take_append_of_le_length (Nat.le_of_lt hn), htake]⟩
  · refine ⟨rs, [], torn.take (n - (F.encodeAll rs).length), (append_nil _).symm,
      htorn.take _, ?_⟩
    rw [take_append, take_of_length_le hn]

/-! ## Where a record stands -/

/-- The record `r` stands `off` bytes into the log. -/
def At (F : Framing α) (rs : List α) (off : ℕ) (r : α) : Prop :=
  ∃ front back, rs = front ++ r :: back ∧ (F.encodeAll front).length = off

namespace At

variable {rs rs' : List α} {off : ℕ} {r : α}

theorem mem (h : F.At rs off r) : r ∈ rs := by
  obtain ⟨front, back, rfl, -⟩ := h
  simp

theorem append (h : F.At rs off r) (rs' : List α) : F.At (rs ++ rs') off r := by
  obtain ⟨front, back, rfl, hoff⟩ := h
  exact ⟨front, back ++ rs', by simp, hoff⟩

theorem last (rs : List α) (r : α) : F.At (rs ++ [r]) (F.encodeAll rs).length r :=
  ⟨rs, [], rfl, rfl⟩

theorem of_concat {r' : α} (h : F.At (rs ++ [r']) off r) :
    F.At rs off r ∨ (off = (F.encodeAll rs).length ∧ r = r') := by
  obtain ⟨front, back, heq, hoff⟩ := h
  obtain rfl | ⟨back', last, rfl⟩ := eq_nil_or_concat back
  · obtain ⟨rfl, hr⟩ := append_inj' heq rfl
    cases hr
    exact .inr ⟨hoff.symm, rfl⟩
  · rw [concat_eq_append, ← cons_append, ← append_assoc] at heq
    obtain ⟨rfl, -⟩ := append_inj' heq rfl
    exact .inl ⟨front, back', rfl, hoff⟩

theorem end_le (h : F.At rs off r) : off + (F.encode r).length ≤ (F.encodeAll rs).length := by
  obtain ⟨front, back, rfl, rfl⟩ := h
  rw [encodeAll_append, encodeAll_cons, length_append, length_append]
  omega

theorem drop (h : F.At rs off r) (tail : List UInt8) :
    ∃ rest, (F.encodeAll rs ++ tail).drop off = F.encode r ++ rest := by
  obtain ⟨front, back, rfl, rfl⟩ := h
  exact ⟨F.encodeAll back ++ tail, by simp⟩

theorem unique {r' : α} (h : F.At rs off r) (h' : F.At rs off r') (hr : F.Fits r)
    (hr' : F.Fits r') : r = r' := by
  obtain ⟨rest, hrest⟩ := h.drop []
  obtain ⟨rest', hrest'⟩ := h'.drop []
  have hdec := F.decode_encode r rest hr
  rw [← hrest, hrest', F.decode_encode r' rest' hr'] at hdec
  cases hdec
  rfl

theorem of_cut {front back : List α} {torn : List UInt8} (h : F.At rs off r)
    (hrs : rs = front ++ back)
    (hshort : ∀ r back', back = r :: back' → torn.length < (F.encode r).length)
    (hend : off + (F.encode r).length ≤ (F.encodeAll front ++ torn).length) :
    F.At front off r ∧ off + (F.encode r).length ≤ (F.encodeAll front).length := by
  obtain ⟨pre, post, hsplit, hoff⟩ := h
  rw [hrs] at hsplit
  obtain ⟨mid, hfront, hback⟩ | ⟨mid, hpre, hback⟩ := append_eq_append_iff.mp hsplit
  · -- the record starts at or after the cut
    cases mid with
    | nil =>
      rw [nil_append] at hback
      have hlt := hshort r post hback
      rw [append_nil] at hfront
      rw [length_append, ← hfront, hoff] at hend
      omega
    | cons m mid =>
      rw [cons_append] at hback
      have hlt := hshort m _ hback
      rw [hfront, encodeAll_append, encodeAll_cons, length_append,
        length_append] at hoff
      rw [length_append] at hend
      omega
  · cases mid with
    | nil =>
      rw [append_nil] at hpre
      rw [nil_append] at hback
      have hlt := hshort r post hback.symm
      rw [length_append, hpre, hoff] at hend
      omega
    | cons m mid =>
      rw [cons_append, cons.injEq] at hback
      obtain ⟨rfl, -⟩ := hback
      have hat : F.At front off r := ⟨pre, mid, hpre, hoff⟩
      exact ⟨hat, hat.end_le⟩

end At

end Framing

end BrixCache

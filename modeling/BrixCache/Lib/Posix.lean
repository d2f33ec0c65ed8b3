import Mathlib.Algebra.Group.Nat.Defs
import Mathlib.Data.List.GetD
import Mathlib.Tactic.Common

/-!
# Regular files as strings of cells

A regular file is the list of its cells. A cell is a byte, or whatever a
development needs to tell about one (an `Option UInt8` tells a hole from a
byte); writes past the end and truncations that grow the file fill with a
chosen `hole`. Offsets are naturals: the range of `off_t` is the callers'
matter.
-/

namespace BrixCache

open List

/-- The error numbers the modelled calls set. -/
inductive Errno : Type where
  /-- invalid argument -/
  | einval : Errno
  /-- file too large -/
  | efbig : Errno
  /-- result out of range -/
  | erange : Errno
  /-- bad message -/
  | ebadmsg : Errno
  /-- input/output error -/
  | eio : Errno
  /-- try again -/
  | eagain : Errno
  | etimedout : Errno
  | enoent : Errno
  /-- file name too long -/
  | enametoolong : Errno
  | enomem : Errno
  /-- permission denied -/
  | eacces : Errno
  | enotdir : Errno
  deriving DecidableEq, Repr

/-! ## `off_t` -/

theorem toInt_toInt64 {x : UInt64} (h : x.toNat < 2 ^ 63) : x.toInt64.toInt = x.toNat := by
  have hsmall : 2 * x.toBitVec.toNat < 2 ^ 64 := by
    have hx : x.toBitVec.toNat = x.toNat := rfl
    omega
  exact BitVec.toInt_eq_toNat_of_lt hsmall

theorem toNatClampNeg_toInt64 {x : UInt64} (h : x.toNat < 2 ^ 63) :
    x.toInt64.toNatClampNeg = x.toNat := by
  calc x.toInt64.toNatClampNeg = x.toInt64.toInt.toNat := rfl
    _ = x.toNat := by rw [toInt_toInt64 h, Int.toNat_natCast]

theorem toNatClampNeg_granule (bs : UInt32) : bs.toUInt64.toInt64.toNatClampNeg = bs.toNat := by
  rw [toNatClampNeg_toInt64, UInt32.toNat_toUInt64]
  rw [UInt32.toNat_toUInt64]
  exact Nat.lt_trans bs.toNat_lt (by decide)

theorem toUInt32_granule (bs : UInt32) : bs.toUInt64.toInt64.toUInt64.toUInt32 = bs := by
  rw [UInt64.toUInt64_toInt64]
  exact UInt32.toUInt32_toUInt64 bs

/-! ## Files -/

namespace File

variable {β : Type}

/-- `pread(2)`: the cells at `off`, at most `len`, fewer at the end. -/
def pread (f : List β) (off len : ℕ) : List β := (f.drop off).take len

/-- `ftruncate(2)`: cut or grow to `n` cells. -/
def ftruncate (hole : β) (f : List β) (n : ℕ) : List β :=
  f.take n ++ replicate (n - f.length) hole

/-- `pwrite(2)` of the whole of `cells` at `off`. Writing nothing changes
nothing, also past the end. -/
def pwrite (hole : β) (f : List β) (off : ℕ) (cells : List β) : List β :=
  match cells with
  | [] => f
  | c :: cs =>
    ftruncate hole (f.take off) off ++ (c :: cs) ++ f.drop (off + (c :: cs).length)

theorem getElem?_pread (f : List β) (off len i : ℕ) :
    (pread f off len)[i]? = if i < len then f[off + i]? else none := by
  rw [pread]
  by_cases h : i < len
  · rw [if_pos h, getElem?_take_of_lt h, getElem?_drop]
  · rw [if_neg h, getElem?_eq_none]
    rw [length_take]
    omega

theorem length_pread (f : List β) (off len : ℕ) :
    (pread f off len).length = min len (f.length - off) := by
  rw [pread, length_take, length_drop]

@[simp] theorem length_ftruncate (hole : β) (f : List β) (n : ℕ) :
    (ftruncate hole f n).length = n := by
  rw [ftruncate, length_append, length_take, length_replicate]
  omega

variable {i off : ℕ} {cells : List β}

theorem getElem?_ftruncate (hole : β) (f : List β) {n : ℕ} (h : i < n) :
    (ftruncate hole f n)[i]? = some ((f[i]?).getD hole) := by
  rw [ftruncate]
  by_cases hi : i < f.length
  · rw [getElem?_append_left (by rw [length_take]; omega), getElem?_take_of_lt h,
      getElem?_eq_getElem hi]
    rfl
  · have hlen : (f.take n).length = f.length := by
      rw [length_take]
      omega
    rw [getElem?_append_right (by omega), hlen, getElem?_replicate, if_pos (by omega),
      getElem?_eq_none (by omega)]
    rfl

@[simp] theorem pwrite_nil (hole : β) (f : List β) (off : ℕ) : pwrite hole f off [] = f := rfl

theorem pwrite_of_ne_nil (hole : β) (f : List β) (off : ℕ) (h : cells ≠ []) :
    pwrite hole f off cells =
      ftruncate hole (f.take off) off ++ cells ++ f.drop (off + cells.length) := by
  cases cells with
  | nil => exact absurd rfl h
  | cons c cs => rfl

theorem length_pwrite (hole : β) (f : List β) (off : ℕ) (h : cells ≠ []) :
    (pwrite hole f off cells).length = max f.length (off + cells.length) := by
  rw [pwrite_of_ne_nil hole f off h, length_append, length_append, length_ftruncate,
    length_drop]
  omega

theorem length_le_length_pwrite (hole : β) (f : List β) (off : ℕ) (cells : List β) :
    f.length ≤ (pwrite hole f off cells).length := by
  by_cases h : cells = []
  · subst h
    exact Nat.le_refl f.length
  · rw [length_pwrite hole f off h]
    omega

theorem ftruncate_pwrite_zero (hole : β) (f cells : List β) :
    ftruncate hole (pwrite hole f 0 cells) cells.length = cells := by
  cases cells with
  | nil =>
    rw [length_nil, ftruncate, take_zero, Nat.zero_sub]
    rfl
  | cons c cs =>
    have hle : (c :: cs).length ≤ (pwrite hole f 0 (c :: cs)).length := by
      rw [length_pwrite _ _ _ (cons_ne_nil c cs)]
      omega
    rw [ftruncate, Nat.sub_eq_zero_of_le hle, replicate_zero, append_nil, pwrite,
      take_zero, ftruncate, take_zero, length_nil, Nat.sub_self,
      replicate_zero, append_nil, nil_append, take_left]

theorem getElem?_pwrite_of_mem (hole : β) (f : List β)
    (h₁ : off ≤ i) (h₂ : i < off + cells.length) :
    (pwrite hole f off cells)[i]? = cells[i - off]? := by
  have hne : cells ≠ [] := by
    rintro rfl
    rw [length_nil] at h₂
    omega
  rw [pwrite_of_ne_nil hole f off hne, append_assoc, getElem?_append_right (by simpa),
    length_ftruncate, getElem?_append_left (by omega)]

theorem getElem?_pwrite_of_not_mem (hole : β) (f : List β)
    (h : i < off ∨ off + cells.length ≤ i) (hi : i < f.length) :
    (pwrite hole f off cells)[i]? = f[i]? := by
  by_cases hne : cells = []
  · rw [hne, pwrite_nil]
  · rw [pwrite_of_ne_nil hole f off hne]
    rcases h with h | h
    · rw [append_assoc, getElem?_append_left (by simpa), getElem?_ftruncate hole _ h,
        getElem?_take_of_lt h, getElem?_eq_getElem hi]
      rfl
    · have hlen : (ftruncate hole (f.take off) off ++ cells).length = off + cells.length := by
        rw [length_append, length_ftruncate]
      rw [getElem?_append_right (by omega), hlen, getElem?_drop]
      congr 1
      omega

theorem pwrite_eq_self_iff (hole : β) (f : List β) (off : ℕ) (cells : List β) :
    pwrite hole f off cells = f ↔ ∀ i < cells.length, f[off + i]? = cells[i]? := by
  constructor
  · intro h i hi
    have hat : (pwrite hole f off cells)[off + i]? = cells[off + i - off]? :=
      getElem?_pwrite_of_mem hole f (Nat.le_add_right off i) (Nat.add_lt_add_left hi off)
    rwa [h, Nat.add_sub_cancel_left] at hat
  · intro h
    by_cases hne : cells = []
    · rw [hne, pwrite_nil]
    have hpos := length_pos_iff.mpr hne
    have hlast := h (cells.length - 1) (by omega)
    rw [getElem?_eq_getElem (by omega : cells.length - 1 < cells.length)] at hlast
    have hin := (List.getElem?_eq_some_iff.mp hlast).1
    refine ext_getElem? fun i => ?_
    by_cases hmem : off ≤ i ∧ i < off + cells.length
    · have hat := h (i - off) (by omega)
      rw [Nat.add_sub_cancel' hmem.1] at hat
      rw [getElem?_pwrite_of_mem hole f hmem.1 hmem.2, hat]
    by_cases hi : i < f.length
    · exact getElem?_pwrite_of_not_mem hole f (by omega) hi
    · have hlen := length_pwrite hole f off hne
      rw [getElem?_eq_none (by omega), getElem?_eq_none (by omega)]

theorem getD_ftruncate (hole : β) (f : List β) (n i : ℕ) :
    (ftruncate hole f n).getD i hole = if i < n then f.getD i hole else hole := by
  rw [getD_eq_getElem?_getD]
  by_cases h : i < n
  · rw [getElem?_ftruncate hole f h, if_pos h, getD_eq_getElem?_getD]
    rfl
  · rw [if_neg h, getElem?_eq_none (by rw [length_ftruncate]; omega)]
    rfl

theorem getD_pwrite (hole : β) (f : List β) (off : ℕ) (cells : List β) (i : ℕ) :
    (pwrite hole f off cells).getD i hole =
      if off ≤ i ∧ i < off + cells.length then cells.getD (i - off) hole else f.getD i hole := by
  by_cases hin : off ≤ i ∧ i < off + cells.length
  · rw [if_pos hin, getD_eq_getElem?_getD, getElem?_pwrite_of_mem hole f hin.1 hin.2,
      getD_eq_getElem?_getD]
  · rw [if_neg hin]
    by_cases hi : i < f.length
    · rw [getD_eq_getElem?_getD, getElem?_pwrite_of_not_mem hole f (by omega) hi,
        getD_eq_getElem?_getD]
    · have hf : f.getD i hole = hole := by
        rw [getD_eq_getElem?_getD, getElem?_eq_none (by omega)]
        rfl
      by_cases hne : cells = []
      · rw [hne, pwrite_nil]
      · rw [hf, getD_eq_getElem?_getD]
        by_cases hlt : i < off
        · rw [pwrite_of_ne_nil hole f off hne, append_assoc,
            getElem?_append_left (by simpa), getElem?_ftruncate hole _ hlt,
            getElem?_eq_none (by rw [length_take]; omega)]
          rfl
        · rw [getElem?_eq_none (by rw [length_pwrite hole f off hne]; omega)]
          rfl

theorem pwrite_append (hole : β) (f : List β) (off : ℕ) (a b : List β) :
    pwrite hole (pwrite hole f off a) (off + a.length) b = pwrite hole f off (a ++ b) := by
  by_cases ha : a = []
  · rw [ha, pwrite_nil, length_nil, Nat.add_zero, nil_append]
  by_cases hb : b = []
  · rw [hb, pwrite_nil, append_nil]
  have hlen : (pwrite hole (pwrite hole f off a) (off + a.length) b).length =
      (pwrite hole f off (a ++ b)).length := by
    rw [length_pwrite hole _ _ hb, length_pwrite hole _ _ ha,
      length_pwrite hole _ _ (append_ne_nil_of_left_ne_nil ha b), length_append]
    omega
  refine ext_getElem hlen ?_
  intro i h₁ h₂
  have heq : (pwrite hole (pwrite hole f off a) (off + a.length) b).getD i hole =
      (pwrite hole f off (a ++ b)).getD i hole := by
    rw [getD_pwrite, getD_pwrite, getD_pwrite, length_append]
    by_cases hin : off + a.length ≤ i ∧ i < off + a.length + b.length
    · rw [if_pos hin, if_pos (by omega), getD_append_right _ _ _ _ (by omega)]
      congr 1
      omega
    · rw [if_neg hin]
      by_cases hfst : off ≤ i ∧ i < off + a.length
      · rw [if_pos hfst, if_pos (by omega), getD_append _ _ _ _ (by omega)]
      · rw [if_neg hfst, if_neg (by omega)]
  rw [getD_eq_getElem _ _ h₁, getD_eq_getElem _ _ h₂] at heq
  exact heq

theorem pwrite_length (hole : β) (f cells : List β) : pwrite hole f f.length cells = f ++ cells := by
  by_cases h : cells = []
  · rw [h, pwrite_nil, append_nil]
  · rw [pwrite_of_ne_nil hole f f.length h, ftruncate, take_length, take_length,
      Nat.sub_self, replicate_zero, append_nil, drop_eq_nil_of_le (by omega),
      append_nil]

theorem ftruncate_append (hole : β) (f cells : List β) :
    ftruncate hole (f ++ cells) f.length = f := by
  rw [ftruncate, take_left, length_append, Nat.sub_eq_zero_of_le (by omega),
    replicate_zero, append_nil]

theorem pread_prefix {f f' : List β} (h : f <+: f') {len : ℕ} (hlen : off + len ≤ f.length) :
    pread f' off len = pread f off len := by
  obtain ⟨back, rfl⟩ := h
  rw [pread, pread, drop_append_of_le_length (by omega),
    take_append_of_le_length (by rw [length_drop]; omega)]

theorem pread_pread (f : List β) (off : ℕ) {len n : ℕ} (h : i + n ≤ len) :
    pread (pread f off len) i n = pread f (off + i) n := by
  apply ext_getElem?
  intro j
  simp only [getElem?_pread]
  by_cases hj : j < n
  · rw [if_pos hj, if_pos hj, if_pos (by omega), Nat.add_assoc]
  · rw [if_neg hj, if_neg hj]

theorem pread_min (f : List β) (off len : ℕ) :
    pread f off (min len (f.length - off)) = pread f off len := by
  rw [pread, pread, take_eq_take_iff, length_drop]
  omega

end File

end BrixCache

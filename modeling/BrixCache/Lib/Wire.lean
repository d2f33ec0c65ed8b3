import Mathlib.Algebra.Group.Nat.Defs
import Mathlib.Tactic.Common

/-!
# Fixed-width wire forms

Little-endian words and the records laid out from them. A `Wire α` gives the
type `α` a fixed number of bytes, a writer onto them and a reader off them, and
carries the proof that reading back what was written returns the value — so a
record whose layout is declared through `Wire.ofEquiv` can never drift from its
reader. Words are written low byte first, the native order of the machines the
format is declared for.
-/

namespace BrixCache

open List

/-! ## Little-endian naturals -/

/-- The `n` little-endian bytes of `x`, low byte first; higher bytes are cut. -/
def leBytes : ℕ → ℕ → List UInt8
  | 0, _ => []
  | n + 1, x => UInt8.ofNat (x % 256) :: leBytes n (x / 256)

/-- The natural a little-endian byte string denotes. -/
def leNat : List UInt8 → ℕ
  | [] => 0
  | b :: bs => b.toNat + 256 * leNat bs

@[simp] theorem leBytes_length : ∀ (n x : ℕ), (leBytes n x).length = n
  | 0, _ => rfl
  | n + 1, x => by simp [leBytes, leBytes_length n]

theorem leNat_leBytes (n x : ℕ) : leNat (leBytes n x) = x % 256 ^ n := by
  induction n generalizing x with
  | zero =>
    rw [leBytes, leNat, Nat.pow_zero, Nat.mod_one]
  | succ n ih =>
    have hb : (UInt8.ofNat (x % 256)).toNat = x % 256 := by
      rw [UInt8.toNat_ofNat']
      omega
    rw [leBytes, leNat, hb, ih, Nat.pow_succ', Nat.mod_mul]

theorem leNat_leBytes_of_lt {n x : ℕ} (h : x < 256 ^ n) : leNat (leBytes n x) = x := by
  rw [leNat_leBytes, Nat.mod_eq_of_lt h]

theorem leBytes_leNat : ∀ bs : List UInt8, leBytes bs.length (leNat bs) = bs
  | [] => rfl
  | b :: bs => by
    have hb := b.toNat_lt
    have hmod : (b.toNat + 256 * leNat bs) % 256 = b.toNat := by omega
    have hdiv : (b.toNat + 256 * leNat bs) / 256 = leNat bs := by omega
    rw [length_cons, leNat, leBytes, hmod, hdiv, UInt8.ofNat_toNat, leBytes_leNat bs]

theorem leNat_lt (bs : List UInt8) : leNat bs < 256 ^ bs.length := by
  induction bs with
  | nil => exact Nat.one_pos
  | cons b bs ih =>
    have hb := b.toNat_lt
    rw [leNat, length_cons, Nat.pow_succ]
    omega

/-! ## Wire forms -/

/-- A fixed-width wire form of `α`: a writer onto `width` bytes and a reader
that inverts it. The reader is total; it is only ever run on `width` bytes. -/
class Wire (α : Type) where
  /-- the number of bytes every value takes -/
  width : ℕ
  put : α → List UInt8
  /-- the value of `width` bytes -/
  get : List UInt8 → α
  /-- every value takes exactly `width` bytes -/
  put_length : ∀ a, (put a).length = width
  /-- reading inverts writing -/
  get_put : ∀ a, get (put a) = a

attribute [simp] Wire.put_length Wire.get_put

namespace Wire

instance : Wire UInt8 where
  width := 1
  put x := leBytes 1 x.toNat
  get bs := UInt8.ofNat (leNat bs)
  put_length x := leBytes_length 1 _
  get_put x := by
    rw [leNat_leBytes_of_lt x.toNat_lt, UInt8.ofNat_toNat]

instance : Wire UInt16 where
  width := 2
  put x := leBytes 2 x.toNat
  get bs := UInt16.ofNat (leNat bs)
  put_length x := leBytes_length 2 _
  get_put x := by
    rw [leNat_leBytes_of_lt x.toNat_lt, UInt16.ofNat_toNat]

instance : Wire UInt32 where
  width := 4
  put x := leBytes 4 x.toNat
  get bs := UInt32.ofNat (leNat bs)
  put_length x := leBytes_length 4 _
  get_put x := by
    rw [leNat_leBytes_of_lt x.toNat_lt, UInt32.ofNat_toNat]

instance : Wire UInt64 where
  width := 8
  put x := leBytes 8 x.toNat
  get bs := UInt64.ofNat (leNat bs)
  put_length x := leBytes_length 8 _
  get_put x := by
    rw [leNat_leBytes_of_lt x.toNat_lt, UInt64.ofNat_toNat]

theorem put_get_uint32 {bs : List UInt8} (h : bs.length = 4) :
    put (get bs : UInt32) = bs := by
  have hlt := leNat_lt bs
  rw [h] at hlt
  change leBytes 4 (UInt32.ofNat (leNat bs)).toNat = bs
  rw [UInt32.toNat_ofNat_of_lt' hlt, ← h, leBytes_leNat]

/-- A type with a two-way conversion to one that has a wire form has that wire
form: the layout of a record is the layout of the tuple of its fields. -/
@[reducible] def ofEquiv {α β : Type} [Wire β] (f : α → β) (g : β → α)
    (h : ∀ a, g (f a) = a) : Wire α where
  width := width β
  put a := put (f a)
  get bs := g (get bs)
  put_length a := put_length (f a)
  get_put a := by rw [get_put, h]

instance : Wire Int32 := ofEquiv Int32.toUInt32 UInt32.toInt32 Int32.toInt32_toUInt32

instance : Wire Int64 := ofEquiv Int64.toUInt64 UInt64.toInt64 Int64.toInt64_toUInt64

/-- Two wire forms side by side: the first component's bytes, then the
second's, with nothing between them. -/
instance {α β : Type} [Wire α] [Wire β] : Wire (α × β) where
  width := width α + width β
  put p := put p.1 ++ put p.2
  get bs := (get (bs.take (width α)), get (bs.drop (width α)))
  put_length p := by rw [length_append, put_length, put_length]
  get_put p := by
    have hlen : (put p.1).length = width α := put_length p.1
    rw [← hlen, take_left, drop_left, get_put, get_put]

/-- The bytes of a table: its words one after the other. -/
def putAll {α : Type} [Wire α] (xs : List α) : List UInt8 := xs.flatMap put

/-- The `n` words at the front of a byte string. -/
def getAll {α : Type} [Wire α] : ℕ → List UInt8 → List α
  | 0, _ => []
  | n + 1, bs => get (bs.take (width α)) :: getAll n (bs.drop (width α))

theorem putAll_length {α : Type} [Wire α] (xs : List α) :
    (putAll xs).length = xs.length * width α := by
  induction xs with
  | nil => rw [putAll, flatMap_nil, length_nil, length_nil, Nat.zero_mul]
  | cons x xs ih =>
    rw [putAll] at ih ⊢
    rw [flatMap_cons, length_append, put_length, ih, length_cons,
      Nat.succ_mul, Nat.add_comm]

theorem getAll_putAll {α : Type} [Wire α] (xs : List α) :
    getAll xs.length (putAll xs) = xs := by
  induction xs with
  | nil => rfl
  | cons x xs ih =>
    have hlen : (put x).length = width α := put_length x
    rw [putAll] at ih ⊢
    rw [flatMap_cons, length_cons, getAll, ← hlen, take_left, drop_left,
      get_put, ih]

end Wire

end BrixCache

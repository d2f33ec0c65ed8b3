import BrixCache.Lib.LinearProbe
import BrixCache.Lib.Run
import BrixCache.Core.Ascii
import Mathlib.Algebra.Group.Nat.Defs

/-!
# The shared-memory key/value table

`core/shm/kv.c`: an open-addressed table of a power of two of slots, probed
linearly for at most half of them, at most half full, with backward-shift
deletion and expiry noticed by the reader. Every operation runs under the zone's
lock, so a table is a plain value and an operation a function on it.

A free slot (`key_len = 0`) is `none`. The hash is a parameter: nothing depends
on which one it is.
-/

namespace BrixCache

/-! ## The table -/

/-- `brix_kv_entry_t` with the key and the value that follow it. A length of
zero would mark the slot free, so a key is never empty. -/
structure KvEntry : Type where
  hash : UInt64
  key : Bytes
  val : Bytes
  /-- the clock at expiry; `0` is never -/
  expires : UInt64
  key_pos : 0 < key.length
  deriving DecidableEq

/-- The zone's geometry, fixed when it is configured. -/
structure Kv : Type where
  /-- the capacity is a power of two, and a slot stays free of two -/
  logCapacity : ℕ
  logCapacity_pos : 0 < logCapacity
  keyMax : ℕ
  valMax : ℕ
  /-- `brix_kv_hash` -/
  hash : Bytes → UInt64

/-- The table: `brix_kv_header_t` and the slots. -/
structure KvTable : Type where
  slots : List (Option KvEntry)
  /-- live entries -/
  count : ℕ
  hits : UInt64
  misses : UInt64
  evictions : UInt64
  deriving DecidableEq

/-- `BRIX_FNV1A64_OFFSET_BASIS` and `BRIX_FNV1A64_PRIME`, over the key's bytes. -/
def kvHash (key : Bytes) : UInt64 :=
  key.foldl (fun h b => (h ^^^ b.toUInt64) * 0x100000001b3) 0xcbf29ce484222325

namespace Kv

variable (kv : Kv)

def capacity : ℕ := 2 ^ kv.logCapacity

def mask : ℕ := kv.capacity - 1

def bucket (hash : UInt64) : ℕ := hash.toNat &&& kv.mask

def home (e : KvEntry) : ℕ := kv.bucket e.hash

/-- A zone just initialized: all slots free. -/
def emptyTable : KvTable := ⟨List.replicate kv.capacity none, 0, 0, 0, 0⟩

end Kv

namespace KvTable

/-- `brix_kv_slot` -/
def slot (t : KvTable) (i : ℕ) : Option KvEntry := t.slots[i]?.join

def setSlot (t : KvTable) (i : ℕ) (v : Option KvEntry) : KvTable :=
  { t with slots := t.slots.set i v }

end KvTable

/-! ## Deletion -/

/-- `brix_kv_should_shift`: iff `home` is not in the cyclic interval
`(hole, cur]`. -/
def kvShouldShift (home hole cur : ℕ) : Bool :=
  if hole ≤ cur then !(decide (home > hole) && decide (home ≤ cur))
  else !(decide (home > hole) || decide (home ≤ cur))

/-- The two loops of `brix_kv_remove_at` with the hole already emptied: `cur` is
the last slot looked at. They stop at the first free slot. -/
def kvRemoveLoop (kv : Kv) : ℕ → KvTable → ℕ → ℕ → Option KvTable
  | 0, _, _, _ => none
  | fuel + 1, t, hole, cur =>
    let cur := (cur + 1) &&& kv.mask
    match t.slot cur with
    | none => some t
    | some e =>
      if kvShouldShift (kv.home e) hole cur then
        kvRemoveLoop kv fuel ((t.setSlot hole (some e)).setSlot cur none) cur cur
      else kvRemoveLoop kv fuel t hole cur

/-- `brix_kv_remove_at`; `none` would be a loop that never ends. -/
def kvRemoveAt (kv : Kv) (t : KvTable) (hole : ℕ) : Option KvTable :=
  kvRemoveLoop kv kv.capacity (t.setSlot hole none) hole hole

/-! ## Probing -/

/-- Same hash and same key. -/
def kvEntryMatches (e : KvEntry) (hash : UInt64) (key : Bytes) : Bool :=
  decide (e.hash = hash) && decide (e.key = key)

/-- How the probe loop of `brix_kv_get`, `brix_kv_set` and `brix_kv_delete`
ends. -/
inductive KvProbe : Type where
  | free : ℕ → KvProbe
  /-- at the key's entry -/
  | found : ℕ → KvEntry → KvProbe
  /-- at neither within its budget -/
  | exhausted : KvProbe

/-- The probe loop of the three operations, from slot `idx` with a budget. -/
def kvProbe (kv : Kv) (t : KvTable) (hash : UInt64) (key : Bytes) : ℕ → ℕ → KvProbe
  | 0, _ => .exhausted
  | budget + 1, idx =>
    match t.slot idx with
    | none => .free idx
    | some e =>
      if kvEntryMatches e hash key then .found idx e
      else kvProbe kv t hash key budget ((idx + 1) &&& kv.mask)

/-- `kv_probe_begin` and the loop: half the slots from the home bucket on. -/
def kvProbeKey (kv : Kv) (t : KvTable) (key : Bytes) : KvProbe :=
  kvProbe kv t (kv.hash key) key (kv.capacity / 2) (kv.bucket (kv.hash key))

/-! ## The operations -/

/-- The expiry a set records: `0` without a time to live. -/
def kvDeadline (now ttl : UInt64) : UInt64 := if ttl ≠ 0 then now + ttl else 0

/-- Has an expiry passed? -/
def kvExpired (expires now : UInt64) : Bool := decide (expires ≠ 0) && decide (expires ≤ now)

/-- `brix_kv_copy_value`: the value cut to the caller's buffer, nothing without
one. -/
def kvCopyValue (val : Bytes) : Option ℕ → Bytes
  | none => []
  | some outLen => val.take outLen

/-- `if (h->count > 0) { h->count--; }` -/
def KvTable.uncount (t : KvTable) : KvTable :=
  { t with count := if 0 < t.count then t.count - 1 else t.count }

/-- `brix_kv_get` at clock `now`: what it copies out on a hit, nothing on a
miss. An expired entry is evicted. -/
def kvGet (kv : Kv) (t : KvTable) (key : Bytes) (out : Option ℕ) (now : UInt64) :
    Option (Option Bytes × KvTable) :=
  if key.length = 0 ∨ kv.keyMax < key.length then some (none, t)
  else
    match kvProbeKey kv t key with
    | .found idx e =>
      if kvExpired e.expires now then
        match kvRemoveAt kv t idx with
        | none => none
        | some t' =>
          let t' := t'.uncount
          some (none, { t' with evictions := t'.evictions + 1, misses := t'.misses + 1 })
      else some (some (kvCopyValue e.val out), { t with hits := t.hits + 1 })
    | _ => some (none, { t with misses := t.misses + 1 })

/-- `brix_kv_set` at clock `now`: `false` is `NGX_ERROR`. A new key is refused
at the load cap. -/
def kvSet (kv : Kv) (t : KvTable) (key val : Bytes) (ttl now : UInt64) : Bool × KvTable :=
  if h : 0 < key.length ∧ key.length ≤ kv.keyMax ∧ val.length ≤ kv.valMax then
    match kvProbeKey kv t key with
    | .free idx =>
      if kv.capacity / 2 ≤ t.count then (false, t)
      else
        let e : KvEntry := ⟨kv.hash key, key, val, kvDeadline now ttl, h.1⟩
        (true, { t.setSlot idx (some e) with count := t.count + 1 })
    | .found idx e =>
      (true, t.setSlot idx (some { e with val := val, expires := kvDeadline now ttl }))
    | .exhausted => (false, t)
  else (false, t)

/-- Delete the key by shifting its cluster back. -/
def kvDelete (kv : Kv) (t : KvTable) (key : Bytes) : Option KvTable :=
  if key.length = 0 ∨ kv.keyMax < key.length then some t
  else
    match kvProbeKey kv t key with
    | .found idx _ =>
      match kvRemoveAt kv t idx with
      | none => none
      | some t' => some t'.uncount
    | _ => some t

/-- A colliding pair in a table of four: the second key is reached over the
first, and is still there when the first is gone. -/
example :
    let kv : Kv := ⟨2, by decide, 8, 8, fun _ => 3⟩
    let t := (kvSet kv (kvSet kv kv.emptyTable [1] [10] 0 0).2 [2] [20] 0 0).2
    (kvDelete kv t [1]).map (fun t' => (t'.slots.map Option.isSome, t'.count)) =
      some ([false, false, false, true], 1) := by decide

/-! ## Slots and distances -/

section Slots

variable {kv : Kv}

theorem Kv.capacity_even (kv : Kv) : kv.capacity = 2 * (kv.capacity / 2) := by
  obtain ⟨k, hk⟩ := Nat.exists_eq_succ_of_ne_zero (Nat.ne_of_gt kv.logCapacity_pos)
  rw [Kv.capacity, hk, Nat.pow_succ]
  omega

theorem Kv.capacity_pos (kv : Kv) : 0 < kv.capacity := Nat.two_pow_pos _

theorem Kv.half_lt_capacity (kv : Kv) : kv.capacity / 2 < kv.capacity := by
  have h₁ := kv.capacity_even
  have h₂ := kv.capacity_pos
  omega

theorem Kv.bucket_lt (kv : Kv) (hash : UInt64) : kv.bucket hash < kv.capacity := by
  rw [Kv.bucket, Kv.mask, Kv.capacity, Nat.and_two_pow_sub_one_eq_mod]
  exact Nat.mod_lt _ kv.capacity_pos

theorem Kv.home_lt (kv : Kv) (e : KvEntry) : kv.home e < kv.capacity := kv.bucket_lt e.hash

theorem Kv.land_mask (kv : Kv) {i : ℕ} (hi : i < kv.capacity) :
    (i + 1) &&& kv.mask = LinearProbe.next kv.capacity i := by
  rw [Kv.mask]
  exact LinearProbe.next_two_pow hi

@[simp] theorem KvTable.length_setSlot (t : KvTable) (i : ℕ) (v : Option KvEntry) :
    (t.setSlot i v).slots.length = t.slots.length := List.length_set

theorem KvTable.slot_setSlot (t : KvTable) {i : ℕ} (hi : i < t.slots.length)
    (v : Option KvEntry) : (t.setSlot i v).slot = LinearProbe.put t.slot i v := by
  funext j
  rcases eq_or_ne j i with rfl | h
  · rw [LinearProbe.put_self, KvTable.slot, KvTable.setSlot, List.getElem?_set_self hi,
      Option.join_some]
  · rw [LinearProbe.put_of_ne _ _ h, KvTable.slot, KvTable.setSlot, List.getElem?_set_ne h.symm]
    rfl

theorem kvShouldShift_iff {n home hole cur : ℕ} (hhome : home < n) (hhole : hole < n)
    (hcur : cur < n) (hne : hole ≠ cur) :
    kvShouldShift home hole cur = true ↔
      LinearProbe.dist n home hole < LinearProbe.dist n home cur := by
  rw [kvShouldShift]
  rcases LinearProbe.dist_cases n home hole with h₁ | h₁ <;>
    rcases LinearProbe.dist_cases n home cur with h₂ | h₂ <;>
    rcases Nat.lt_or_ge cur hole with h | h
  all_goals
    first
      | rw [if_pos h]
      | rw [if_neg (Nat.not_le.mpr h)]
    simp only [Bool.not_eq_true', Bool.and_eq_false_iff, Bool.or_eq_false_iff,
      decide_eq_false_iff_not]
    omega

end Slots

end BrixCache

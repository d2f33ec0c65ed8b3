import Mathlib.Order.Lattice
import Mathlib.Tactic.Common

/-!
# The table of parked requests

`net/manager/pending.c`: a table in shared memory of 32 slots. A worker that parks a client inserts
an entry under a stream id of its own, and finds it again by the id and its pid when the answer
comes. Entries expire, and the next insert reaps those that did.
-/

namespace BrixCache

open List

/-- `brix_pending_locate_t`. What the redirect of a locate fills in is not read here. -/
structure PendingLocate : Type where
  streamid : UInt32
  workerPid : ℕ
  connFd : ℕ
  connNumber : ℕ
  clientStreamid : UInt8 × UInt8
  expires : UInt64
  deriving DecidableEq

/-- The slots of `brix_pending_table_t` -/
abbrev PendingTable : Type := List (Option PendingLocate)

/-- `BRIX_PENDING_LOCATE_SLOTS` free slots -/
def pendingInit : PendingTable := replicate 32 none

/-- In use for a stream id of a worker -/
def isPending (streamid : UInt32) (pid : ℕ) (slot : Option PendingLocate) : Bool :=
  slot.any fun e => e.streamid = streamid && e.workerPid = pid

/-- The entry of a stream id of this process. -/
def brixPendingLookup (tbl : PendingTable) (streamid : UInt32) (pid : ℕ) : Option PendingLocate :=
  (tbl.find? (isPending streamid pid)).join

/-- Clear the first slot of the stream id. -/
def brixPendingRemove (tbl : PendingTable) (streamid : UInt32) (pid : ℕ) : PendingTable :=
  match tbl.findIdx? (isPending streamid pid) with
  | some i => tbl.set i none
  | none => tbl

/-- Clear every slot whose time is over. -/
def brixPendingReapExpired (now : UInt64) (tbl : PendingTable) : PendingTable :=
  tbl.map fun slot => slot.filter fun e => now < e.expires

/-- `brix_pending_insert`: whether the table had room, and the table after it -/
def brixPendingInsert (now : UInt64) (tbl : PendingTable) (streamid : UInt32)
    (pid connFd connNumber : ℕ) (clientStreamid : UInt8 × UInt8) (timeoutMs : UInt64) :
    Bool × PendingTable :=
  let tbl := brixPendingReapExpired now tbl
  match tbl.findIdx? Option.isNone with
  | none => (false, tbl)
  | some i =>
    (true, tbl.set i (some ⟨streamid, pid, connFd, connNumber, clientStreamid, now + timeoutMs⟩))

/-! ## What stands in the table -/

variable {tbl : PendingTable} {streamid : UInt32} {pid : ℕ} {now : UInt64} {p : PendingLocate}

theorem of_brixPendingLookup (h : brixPendingLookup tbl streamid pid = some p) :
    some p ∈ tbl ∧ p.streamid = streamid ∧ p.workerPid = pid := by
  obtain ⟨slot, hfind, rfl⟩ : ∃ slot, tbl.find? (isPending streamid pid) = some slot ∧
      slot = some p := by
    cases hfind : tbl.find? (isPending streamid pid) with
    | none => simp [brixPendingLookup, hfind] at h
    | some slot => exact ⟨slot, rfl, by simpa [brixPendingLookup, hfind] using h⟩
  have hp := find?_some hfind
  refine ⟨mem_of_find?_eq_some hfind, ?_⟩
  simpa [isPending] using hp

theorem mem_of_brixPendingRemove (h : some p ∈ brixPendingRemove tbl streamid pid) :
    some p ∈ tbl := by
  rw [brixPendingRemove] at h
  split at h
  · obtain hmem | hnone := mem_or_eq_of_mem_set h
    · exact hmem
    · cases hnone
  · exact h

theorem mem_of_brixPendingReapExpired (h : some p ∈ brixPendingReapExpired now tbl) :
    some p ∈ tbl := by
  obtain ⟨slot, hslot, hp⟩ := mem_map.mp h
  obtain ⟨rfl, -⟩ := Option.filter_eq_some_iff.mp hp
  exact hslot

theorem mem_of_brixPendingInsert {connFd connNumber : ℕ} {cid : UInt8 × UInt8} {timeoutMs : UInt64}
    (h : some p ∈
      (brixPendingInsert now tbl streamid pid connFd connNumber cid timeoutMs).2) :
    some p ∈ tbl ∨
      p = ⟨streamid, pid, connFd, connNumber, cid, now + timeoutMs⟩ ∧
        (brixPendingInsert now tbl streamid pid connFd connNumber cid timeoutMs).1 = true := by
  simp only [brixPendingInsert] at h ⊢
  split at h
  · exact .inl (mem_of_brixPendingReapExpired h)
  · obtain hmem | hnew := mem_or_eq_of_mem_set h
    · exact .inl (mem_of_brixPendingReapExpired hmem)
    · exact .inr ⟨Option.some.inj hnew, by simp⟩

end BrixCache

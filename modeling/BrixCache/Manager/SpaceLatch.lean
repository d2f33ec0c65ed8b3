import BrixCache.Lib.Run
import BrixCache.Manager.Registry
import Mathlib.Algebra.Group.Nat.Defs
import Mathlib.Order.Lattice

/-!
# The write-space latch

A server below the free-space floor it announced takes no writes until its free space has reached
the high-water mark. `srv_space_reeval_locked` re-latches an entry, "from every point that writes
free_mb or min_free_mb"; a reset writes `free_mb` too, and leaves the latch as it was.
-/

namespace BrixCache

/-- The latch is what the recorded free space asks for: set below the floor, clear from the
high-water mark on, and clear without a floor. In between either value stands. -/
structure SrvEntry.Latched (hwm : UInt64) (e : SrvEntry) : Prop where
  set : e.minFreeMb ≠ 0 → e.freeMb < e.minFreeMb → e.spaceBlocked = true
  clear : e.minFreeMb ≠ 0 → max hwm.toNat e.minFreeMb.toNat ≤ e.freeMb.toNat →
    e.spaceBlocked = false
  noFloor : e.minFreeMb = 0 → e.spaceBlocked = false

/-- The high-water mark does not fit 32 bits, and what is left of it when it is cut is no more than
a free space below the floor. -/
structure CutMark (hwm : UInt64) (blocked : Bool) (minFreeMb freeMb : UInt32) : Prop where
  blocked : blocked = true
  above : minFreeMb.toUInt64 < hwm
  cut : hwm.toUInt32 ≤ freeMb
  below : freeMb < minFreeMb

/-- What a call must meet, on the table before it, to leave the latches as they should be -/
def KeepsLatch (hwm : UInt64) (tbl : SrvTable) : SrvCall → Prop
  | .register host port _ freeMb _ => brixNetHostCharsValid host = true →
      ∀ e, srvEntry tbl host port = some e → ¬ CutMark hwm e.spaceBlocked e.minFreeMb freeMb
  | .updateLoad host port freeMb _ =>
      ∀ e, srvEntry tbl host port = some e → ¬ CutMark hwm e.spaceBlocked e.minFreeMb freeMb
  | .setMinFree host port minFreeMb =>
      ∀ e, srvEntry tbl host port = some e → ¬ CutMark hwm e.spaceBlocked minFreeMb e.freeMb
  | .reset host port =>
      ∀ e, srvEntry tbl host port = some e → e.minFreeMb = 0 ∨ e.spaceBlocked = true
  | .unregister _ _ => True

/-! ## One entry -/

variable {hwm : UInt64} {e : SrvEntry}

theorem SrvEntry.Latched.of_blocked (hfloor : e.minFreeMb ≠ 0)
    (h : ¬ max hwm.toNat e.minFreeMb.toNat ≤ e.freeMb.toNat) (hblocked : e.spaceBlocked = true) :
    e.Latched hwm where
  set _ _ := hblocked
  clear _ hle := absurd hle h
  noFloor hzero := absurd hzero hfloor

theorem SrvEntry.Latched.of_clear (h : e.minFreeMb ≠ 0 → ¬ e.freeMb < e.minFreeMb)
    (hclear : e.spaceBlocked = false) : e.Latched hwm where
  set hfloor hlow := absurd hlow (h hfloor)
  clear _ _ := hclear
  noFloor _ := hclear

theorem not_max_le_of_lt (h : e.freeMb < e.minFreeMb) :
    ¬ max hwm.toNat e.minFreeMb.toNat ≤ e.freeMb.toNat := fun hle =>
  Nat.not_le.mpr (UInt32.lt_iff_toNat_lt.mp h) ((Nat.le_max_right _ _).trans hle)

/-- The latch after an evaluation, by the marks -/
theorem latched_reeval :
    (srvSpaceReevalLocked hwm e).Latched hwm ↔
      ¬ CutMark hwm e.spaceBlocked e.minFreeMb e.freeMb := by
  rw [srvSpaceReevalLocked]
  split
  · next hzero =>
    refine iff_of_true (.of_clear (fun hne => absurd hzero hne) rfl) fun hcut => ?_
    have hbelow := UInt32.lt_iff_toNat_lt.mp (hzero ▸ hcut.below)
    exact absurd hbelow (Nat.not_lt_zero _)
  next hfloor =>
  cases hblocked : e.spaceBlocked with
  | false =>
    have hno : ¬ CutMark hwm false e.minFreeMb e.freeMb := fun hcut => by cases hcut.blocked
    rw [if_neg (by simp)]
    split
    · next hlow => exact iff_of_true (.of_blocked hfloor (not_max_le_of_lt hlow) rfl) hno
    · next hlow => exact iff_of_true (.of_clear (fun _ => hlow) hblocked) hno
  | true =>
    rw [if_pos rfl]
    by_cases habove : e.minFreeMb.toUInt64 < hwm
    · rw [if_pos habove]
      split
      · next hmark =>
        -- the latch was cleared: right unless the free space is still below the floor
        constructor
        · intro h hcut
          cases h.set hfloor hcut.below
        · exact fun h => .of_clear (fun _ hlow => h ⟨rfl, habove, hmark, hlow⟩) rfl
      · next hmark =>
        refine iff_of_true (.of_blocked hfloor (fun hle => hmark ?_) hblocked)
          fun hcut => hmark hcut.cut
        rw [UInt32.le_iff_toNat_le, UInt64.toNat_toUInt32]
        exact (Nat.mod_le _ _).trans ((Nat.le_max_left _ _).trans hle)
    · rw [if_neg habove]
      have hno : ¬ CutMark hwm true e.minFreeMb e.freeMb := fun hcut => habove hcut.above
      split
      · next hmark => exact iff_of_true (.of_clear (fun _ => UInt32.not_lt.mpr hmark) rfl) hno
      · next hmark =>
        exact iff_of_true
          (.of_blocked hfloor (not_max_le_of_lt (UInt32.not_le.mp hmark)) hblocked) hno

theorem latched_forget {now : UInt64} (h : e.Latched hwm) :
    (srvForget now e).Latched hwm ↔ e.minFreeMb = 0 ∨ e.spaceBlocked = true := by
  constructor
  · intro hafter
    by_cases hzero : e.minFreeMb = 0
    · exact .inl hzero
    · exact .inr (hafter.set hzero (UInt32.pos_iff_ne_zero.mpr hzero))
  · rintro (hzero | hblocked)
    · exact .of_clear (fun hne => absurd hzero hne) (h.noFloor hzero)
    · have hfloor : e.minFreeMb ≠ 0 := by
        intro hzero
        rw [h.noFloor hzero] at hblocked
        cases hblocked
      have hlow : (srvForget now e).freeMb < e.minFreeMb := UInt32.pos_iff_ne_zero.mpr hfloor
      exact .of_blocked hfloor (not_max_le_of_lt hlow) hblocked

/-! ## Runs -/

theorem latched_first (hwm now : UInt64) (host paths : List UInt8) (port : UInt16)
    (freeMb utilPct : UInt32) :
    (srvSpaceReevalLocked hwm (srvFirstRegister host port paths freeMb utilPct now)).Latched
      hwm :=
  latched_reeval.mpr fun hcut => by cases hcut.blocked

theorem latched_call {tbl : SrvTable} (h : EveryEntry (·.Latched hwm) tbl) (now : UInt64)
    (call : SrvCall) :
    EveryEntry (·.Latched hwm) (srvCall hwm tbl (now, call)) ↔ KeepsLatch hwm tbl call := by
  cases call with
  | register host port paths freeMb utilPct =>
    rw [srvCall, h.register (latched_first hwm now host paths port freeMb utilPct)]
    simp only [latched_reeval]
    rfl
  | updateLoad host port freeMb utilPct =>
    rw [srvCall, brixSrvUpdateLoad, h.srvChange]
    simp only [latched_reeval]
    rfl
  | setMinFree host port minFreeMb =>
    rw [srvCall, brixSrvSetMinFree, h.srvChange]
    simp only [latched_reeval]
    rfl
  | reset host port =>
    rw [srvCall, brixSrvReset, h.srvChange]
    exact forall₂_congr fun e he => latched_forget (h e (mem_of_srvEntry he))
  | unregister host port => exact iff_of_true (h.unregister host port) trivial

/-- **The latch.** In a run of calls on the registry the latches are as they should be in every
state reached exactly when every call meets its condition. -/
theorem latch_iff (hwm : UInt64) (capacity : ℕ) (calls : List (UInt64 × SrvCall)) :
    (∀ done, done <+: calls → EveryEntry (·.Latched hwm) (srvRun hwm capacity done)) ↔
      ∀ done now call, done ++ [(now, call)] <+: calls →
        KeepsLatch hwm (srvRun hwm capacity done) call := by
  have hrun := Run.foldl_prefixes_iff (f := srvCall hwm) (I := EveryEntry (·.Latched hwm))
    (C := fun tbl c => KeepsLatch hwm tbl c.2) (fun tbl c h => latched_call h c.1 c.2)
    (everyEntry_replicate capacity) calls
  simp only [Prod.forall] at hrun
  exact hrun

def sampleReset : List (UInt64 × SrvCall) :=
  [(0, .register [97] 1094 [47] 20 0), (1, .setMinFree [97] 1094 10), (2, .reset [97] 1094)]

theorem reset_leaves_latch_clear :
    ¬∀ (hwm : UInt64) (capacity : ℕ) (calls : List (UInt64 × SrvCall)),
      EveryEntry (·.Latched hwm) (srvRun hwm capacity calls) := by
  intro h
  have hafter : srvRun 0 1 sampleReset = [some
      { srvFirstRegister [97] 1094 [47] 0 0 2 with minFreeMb := 10 }] := by decide
  have hlatched := h 0 1 sampleReset _ (hafter ▸ List.mem_singleton_self _)
  cases hlatched.set (by decide) (by decide)

end BrixCache

import BrixCache.Shm.Kv
import BrixCache.Core.Ascii

/-!
# The table refines a map with expiry

The abstract side is a map from keys to the last value set, with when it was set
and for how long. `KvTable.Valid` is the table invariant — the linear-probing
invariant of the library at this table's slots, and the load cap — and
`KvTable.Refines` ties a valid table to a map at a clock: every entry is the
map's, and what the map has more has expired.
-/

namespace BrixCache

open LinearProbe List

/-! ## The invariant -/

/-- What every operation keeps. -/
structure KvTable.Valid (kv : Kv) (t : KvTable) : Prop where
  length : t.slots.length = kv.capacity
  /-- an entry carries the hash of its key -/
  hashed : ∀ e, Holds kv.capacity t.slot e → e.hash = kv.hash e.key
  bounded : ∀ e, Holds kv.capacity t.slot e → e.key.length ≤ kv.keyMax
  /-- no free slot between an entry and its home bucket -/
  reachable : Reachable kv.home kv.capacity t.slot
  distinct : Distinct KvEntry.key kv.capacity t.slot
  count_eq : t.count = (occupied kv.capacity t.slot).card
  count_le : t.count ≤ kv.capacity / 2

variable {kv : Kv} {t t' : KvTable}

theorem KvTable.Valid.congr (hv : t.Valid kv) (hslots : t'.slots = t.slots)
    (hcount : t'.count = t.count) : t'.Valid kv := by
  have hslot : t'.slot = t.slot := by
    funext i
    rw [KvTable.slot, KvTable.slot, hslots]
  refine ⟨?_, ?_, ?_, ?_, ?_, ?_, ?_⟩
  · rw [hslots]
    exact hv.length
  · rw [hslot]
    exact hv.hashed
  · rw [hslot]
    exact hv.bounded
  · rw [hslot]
    exact hv.reachable
  · rw [hslot]
    exact hv.distinct
  · rw [hslot, hcount]
    exact hv.count_eq
  · rw [hcount]
    exact hv.count_le

theorem emptyTable_valid (kv : Kv) : kv.emptyTable.Valid kv := by
  have hnone : ∀ i, kv.emptyTable.slot i = none := by
    intro i
    rw [KvTable.slot, Kv.emptyTable, getElem?_replicate]
    by_cases h : i < kv.capacity
    · rw [if_pos h]
      rfl
    · rw [if_neg h]
      rfl
  have hfree : ∀ i e, kv.emptyTable.slot i ≠ some e := by
    intro i e he
    rw [hnone i] at he
    cases he
  refine ⟨length_replicate, ?_, ?_, ?_, ?_, ?_, Nat.zero_le _⟩
  · rintro e ⟨i, -, he⟩
    exact absurd he (hfree i e)
  · rintro e ⟨i, -, he⟩
    exact absurd he (hfree i e)
  · intro i _ e he
    exact absurd he (hfree i e)
  · intro i _ j _ a b ha
    exact absurd ha (hfree i a)
  · have hempty : occupied kv.capacity kv.emptyTable.slot = ∅ := by
      refine Finset.eq_empty_of_forall_notMem fun i hi => ?_
      have hsome := (mem_occupied.mp hi).2
      rw [hnone i] at hsome
      cases hsome
    rw [hempty, Finset.card_empty]
    rfl

variable {e : KvEntry} {i : ℕ} {key val : Bytes}

theorem KvTable.Valid.dist_lt (hv : t.Valid kv) (hi : i < kv.capacity)
    (he : t.slot i = some e) : dist kv.capacity (kv.home e) i < kv.capacity / 2 := by
  have h := dist_lt_card hv.reachable kv.home_lt hi he
  rw [← hv.count_eq] at h
  exact Nat.lt_of_lt_of_le h hv.count_le

/-! ## Probing -/

/-- What the end of a probe loop says: that the slots passed hold other keys. -/
def KvProbe.Sound (kv : Kv) (t : KvTable) (key : Bytes) (limit : ℕ) : KvProbe → Prop
  | .free idx => idx < kv.capacity ∧ t.slot idx = none ∧
      ∀ i < kv.capacity, dist kv.capacity (kv.bucket (kv.hash key)) i <
        dist kv.capacity (kv.bucket (kv.hash key)) idx →
        ∃ e, t.slot i = some e ∧ kvEntryMatches e (kv.hash key) key = false
  | .found idx e => idx < kv.capacity ∧ t.slot idx = some e ∧
      kvEntryMatches e (kv.hash key) key = true
  | .exhausted =>
      ∀ i < kv.capacity, dist kv.capacity (kv.bucket (kv.hash key)) i < limit →
        ∃ e, t.slot i = some e ∧ kvEntryMatches e (kv.hash key) key = false

/-- A probe that goes on has passed no match. -/
theorem kvProbe_sound (kv : Kv) (t : KvTable) (key : Bytes) {limit : ℕ}
    (hlimit : limit < kv.capacity) (budget idx : ℕ) (hidx : idx < kv.capacity)
    (hdist : dist kv.capacity (kv.bucket (kv.hash key)) idx + budget = limit)
    (hpassed : ∀ i < kv.capacity, dist kv.capacity (kv.bucket (kv.hash key)) i <
      dist kv.capacity (kv.bucket (kv.hash key)) idx →
      ∃ e, t.slot i = some e ∧ kvEntryMatches e (kv.hash key) key = false) :
    (kvProbe kv t (kv.hash key) key budget idx).Sound kv t key limit := by
  have hb := kv.bucket_lt (kv.hash key)
  induction budget generalizing idx with
  | zero =>
    intro i hi hlt
    exact hpassed i hi (by omega)
  | succ budget ih =>
    rw [kvProbe]
    rcases hs : t.slot idx with _ | e
    · exact ⟨hidx, hs, hpassed⟩
    · rcases hm : kvEntryMatches e (kv.hash key) key with _ | _
      · have hnext : next kv.capacity idx ≠ kv.bucket (kv.hash key) := by
          intro heq
          rcases next_cases kv.capacity idx with h | h <;>
            rcases dist_cases kv.capacity (kv.bucket (kv.hash key)) idx with h' | h' <;> omega
        have hstep := dist_next hb hidx hnext
        have hnlt := next_lt hidx
        simp only [hm, Bool.false_eq_true, if_false]
        rw [kv.land_mask hidx]
        refine ih _ hnlt (by omega) ?_
        intro i hi hlt
        rcases Nat.lt_or_ge (dist kv.capacity (kv.bucket (kv.hash key)) i)
          (dist kv.capacity (kv.bucket (kv.hash key)) idx) with h | h
        · exact hpassed i hi h
        · have heq : i = idx := eq_of_dist_eq hb hi hidx (by omega)
          rw [heq]
          exact ⟨e, hs, hm⟩
      · simp only [hm, if_true]
        exact ⟨hidx, hs, hm⟩

theorem kvProbeKey_sound (kv : Kv) (t : KvTable) (key : Bytes) :
    (kvProbeKey kv t key).Sound kv t key (kv.capacity / 2) := by
  refine kvProbe_sound kv t key kv.half_lt_capacity _ _ (kv.bucket_lt _) ?_ ?_
  · rw [dist_self, Nat.zero_add]
  · intro i _ hlt
    rw [dist_self] at hlt
    omega

theorem key_of_matches {hash : UInt64}
    (h : kvEntryMatches e hash key = true) : e.hash = hash ∧ e.key = key := by
  rw [kvEntryMatches, Bool.and_eq_true, decide_eq_true_eq, decide_eq_true_eq] at h
  exact h

theorem KvTable.Valid.matches_of_key (hv : t.Valid kv)
    (he : Holds kv.capacity t.slot e) (hk : e.key = key) :
    kvEntryMatches e (kv.hash key) key = true := by
  rw [kvEntryMatches, Bool.and_eq_true, decide_eq_true_eq, decide_eq_true_eq, hv.hashed e he, hk]
  exact ⟨rfl, rfl⟩

theorem ne_of_not_matches {x : KvEntry} {hash : UInt64}
    (hx : t.slot i = some x) (hno : kvEntryMatches x hash key = false)
    (hm : kvEntryMatches e hash key = true) : t.slot i ≠ some e := by
  intro he
  rw [hx] at he
  cases he
  rw [hm] at hno
  cases hno

theorem KvTable.Valid.absent (hv : t.Valid kv)
    (hmiss : ∀ idx e, kvProbeKey kv t key ≠ .found idx e) (e : KvEntry) (hk : e.key = key) :
    ¬ Holds kv.capacity t.slot e := by
  intro he
  have hsound := kvProbeKey_sound kv t key
  have hm := hv.matches_of_key he hk
  have hhome : kv.home e = kv.bucket (kv.hash key) := by
    rw [Kv.home, (key_of_matches hm).1]
  rcases hp : kvProbeKey kv t key with idx | ⟨idx, x⟩ | _
  · rw [hp] at hsound
    obtain ⟨hidx, hfree, hpassed⟩ := hsound
    refine not_holds_of_empty hv.reachable (kv.bucket_lt _) hidx hfree hhome ?_ he
    intro i hi hlt
    obtain ⟨x, hx, hno⟩ := hpassed i hi hlt
    exact ne_of_not_matches hx hno hm
  · exact hmiss idx x hp
  · rw [hp] at hsound
    have hcard : (occupied kv.capacity t.slot).card ≤ kv.capacity / 2 := by
      rw [← hv.count_eq]
      exact hv.count_le
    refine not_holds_of_exhausted hv.reachable kv.home_lt hcard hhome ?_ he
    intro i hi hlt
    obtain ⟨x, hx, hno⟩ := hsound i hi hlt
    exact ne_of_not_matches hx hno hm

/-! ## Deletion -/

/-- The deletion loop ends, with a reachable table holding the same entries. A
free slot other than the hole bounds its steps. -/
theorem kvRemoveLoop_spec (kv : Kv) (fuel : ℕ) (t : KvTable) (hole cur : ℕ)
    (hlen : t.slots.length = kv.capacity) (hg : Gap kv.home kv.capacity t.slot hole cur)
    {z : ℕ} (hz : z < kv.capacity) (hfree : t.slot z = none) (hzh : z ≠ hole)
    (hfuel : dist kv.capacity (next kv.capacity cur) z < fuel) :
    ∃ slots, kvRemoveLoop kv fuel t hole cur = some { t with slots := slots } ∧
      slots.length = kv.capacity ∧
      Reachable kv.home kv.capacity { t with slots := slots }.slot ∧
      Rearranged KvEntry.key kv.capacity t.slot { t with slots := slots }.slot := by
  induction fuel generalizing t hole cur with
  | zero => exact absurd hfuel (Nat.not_lt_zero _)
  | succ fuel ih =>
    have hnlt := next_lt hg.cur_lt
    rw [kvRemoveLoop, kv.land_mask hg.cur_lt]
    rcases he : t.slot (next kv.capacity cur) with _ | e
    · exact ⟨t.slots, rfl, hlen, gap_close kv.home_lt hg he, Rearranged.refl _⟩
    · obtain ⟨hne, -⟩ := hg.next_ne he
      have hnz : next kv.capacity cur ≠ z := by
        rintro heq
        rw [heq, hfree] at he
        cases he
      have hcloser := dist_next_left hnlt hz hnz
      have hiff := kvShouldShift_iff (kv.home_lt e) hg.hole_lt hnlt hne.symm
      simp only
      rcases hsh : kvShouldShift (kv.home e) hole (next kv.capacity cur) with _ | _
      · have hstay : ¬ dist kv.capacity (kv.home e) hole <
            dist kv.capacity (kv.home e) (next kv.capacity cur) := by
          intro hlt
          rw [hiff.mpr hlt] at hsh
          cases hsh
        rw [if_neg Bool.false_ne_true]
        exact ih t hole _ hlen (gap_skip hg he hstay) hfree hzh (by omega)
      · have hpull := hiff.mp hsh
        have hslot : ((t.setSlot hole (some e)).setSlot (next kv.capacity cur) none).slot =
            put (put t.slot hole (some e)) (next kv.capacity cur) none := by
          rw [KvTable.slot_setSlot, KvTable.slot_setSlot]
          · rw [hlen]
            exact hg.hole_lt
          · rw [KvTable.length_setSlot, hlen]
            exact hnlt
        have hg' := gap_shift hg he hpull
        have hfree' : put (put t.slot hole (some e)) (next kv.capacity cur) none z = none := by
          rw [put_of_ne _ _ hnz.symm, put_of_ne _ _ hzh]
          exact hfree
        have hmove : Rearranged KvEntry.key kv.capacity t.slot _ :=
          rearranged_shift hg.hole_lt hnlt hg.hole he
        rw [← hslot] at hg' hfree' hmove
        rw [if_pos rfl]
        obtain ⟨slots, hrun, hlen', hr, hre⟩ := ih _ _ _
          (by rw [KvTable.length_setSlot, KvTable.length_setSlot, hlen]) hg' hfree' hnz.symm
          (by omega)
        exact ⟨slots, hrun, hlen', hr, hmove.trans hre⟩

/-- **Deletion.** Removing an occupied slot ends, and leaves every other entry
in a valid table with one entry fewer. -/
theorem kvRemoveAt_spec (hv : t.Valid kv) (hi : i < kv.capacity) (he : t.slot i = some e) :
    ∃ slots, kvRemoveAt kv t i = some { t with slots := slots } ∧
      ({ t with slots := slots }.uncount).Valid kv ∧
      ∀ x, Holds kv.capacity { t with slots := slots }.slot x ↔
        Holds kv.capacity t.slot x ∧ x.key ≠ e.key := by
  have hcard := card_put_none hi he
  have hcount := hv.count_eq
  have hle := hv.count_le
  have hhalf := kv.half_lt_capacity
  obtain ⟨z, hz, hfree⟩ : ∃ z < kv.capacity, t.slot z = none := exists_empty (by omega)
  have hzi : z ≠ i := by
    rintro rfl
    rw [hfree] at he
    cases he
  have hslot : (t.setSlot i none).slot = put t.slot i none := by
    refine t.slot_setSlot ?_ none
    rw [hv.length]
    exact hi
  have hg := gap_clear hv.reachable hi
  have hfree' : put t.slot i none z = none := by
    rw [put_of_ne _ _ hzi]
    exact hfree
  rw [← hslot] at hg hfree'
  obtain ⟨slots, hrun, hlen, hr, hre⟩ := kvRemoveLoop_spec kv kv.capacity (t.setSlot i none) i i
    (by rw [KvTable.length_setSlot, hv.length]) hg hz hfree' hzi
    (dist_lt (next_lt hi) hz)
  rw [hslot] at hre
  have hholds : ∀ x, Holds kv.capacity { t with slots := slots }.slot x ↔
      Holds kv.capacity t.slot x ∧ x.key ≠ e.key := by
    intro x
    exact (hre.holds x).trans (holds_put_none hv.distinct hi he x)
  have hcard' : (occupied kv.capacity { t with slots := slots }.slot).card + 1 = t.count := by
    rw [hcount, ← hcard]
    exact congrArg (· + 1) hre.card
  have huncount : ({ t with slots := slots }.uncount).count =
      (occupied kv.capacity { t with slots := slots }.slot).card := by
    have hpos : 0 < t.count := by omega
    calc ({ t with slots := slots }.uncount).count = t.count - 1 := if_pos hpos
      _ = _ := by omega
  refine ⟨slots, hrun, ⟨hlen, ?_, ?_, hr, hre.distinct (distinct_put_none hv.distinct i),
    huncount, ?_⟩, hholds⟩
  · intro x hx
    exact hv.hashed x ((hholds x).mp hx).1
  · intro x hx
    exact hv.bounded x ((hholds x).mp hx).1
  · rw [huncount]
    omega

/-! ## Insertion -/

/-- Writing an entry into a slot on its way — a free one, or the one that holds
its key — keeps the table valid and replaces the key's entry. -/
theorem KvTable.Valid.write (hv : t.Valid kv) {idx c : ℕ}
    (hidx : idx < kv.capacity) (hhash : e.hash = kv.hash e.key)
    (hbound : e.key.length ≤ kv.keyMax)
    (hpath : Unbroken kv.capacity t.slot (kv.home e) idx)
    (hself : ∀ x, t.slot idx = some x → x.key = e.key)
    (hothers : ∀ j < kv.capacity, j ≠ idx → ∀ x, t.slot j = some x → x.key ≠ e.key)
    (hc : c = (occupied kv.capacity (put t.slot idx (some e))).card)
    (hle : c ≤ kv.capacity / 2) :
    ({ t.setSlot idx (some e) with count := c } : KvTable).Valid kv ∧
      ∀ x, Holds kv.capacity ({ t.setSlot idx (some e) with count := c } : KvTable).slot x ↔
        x = e ∨ (Holds kv.capacity t.slot x ∧ x.key ≠ e.key) := by
  have hslot : ({ t.setSlot idx (some e) with count := c } : KvTable).slot =
      put t.slot idx (some e) := by
    refine t.slot_setSlot ?_ (some e)
    rw [hv.length]
    exact hidx
  have hholds : ∀ x, Holds kv.capacity (put t.slot idx (some e)) x ↔
      x = e ∨ (Holds kv.capacity t.slot x ∧ x.key ≠ e.key) := by
    intro x
    rw [holds_put_some hidx]
    refine or_congr_right ⟨?_, ?_⟩
    · rintro ⟨j, hj, hji, hx⟩
      exact ⟨⟨j, hj, hx⟩, hothers j hj hji x hx⟩
    · rintro ⟨⟨j, hj, hx⟩, hk⟩
      refine ⟨j, hj, ?_, hx⟩
      rintro rfl
      exact hk (hself x hx)
  refine ⟨⟨?_, ?_, ?_, ?_, ?_, ?_, hle⟩, ?_⟩
  · exact (t.length_setSlot idx _).trans hv.length
  · rw [hslot]
    intro x hx
    rcases (hholds x).mp hx with rfl | ⟨hx', -⟩
    · exact hhash
    · exact hv.hashed x hx'
  · rw [hslot]
    intro x hx
    rcases (hholds x).mp hx with rfl | ⟨hx', -⟩
    · exact hbound
    · exact hv.bounded x hx'
  · rw [hslot]
    exact reachable_put hv.reachable hpath
  · rw [hslot]
    exact distinct_put_some hv.distinct hothers
  · rw [hslot]
    exact hc
  · rw [hslot]
    exact hholds

/-- A set that succeeds -/
theorem kvSet_spec (hv : t.Valid kv) {ttl now : UInt64}
    (h : kvSet kv t key val ttl now = (true, t')) :
    t'.Valid kv ∧ ∃ e : KvEntry, e.key = key ∧ e.val = val ∧
      e.expires = kvDeadline now ttl ∧
      ∀ x, Holds kv.capacity t'.slot x ↔
        x = e ∨ (Holds kv.capacity t.slot x ∧ x.key ≠ key) := by
  rw [kvSet] at h
  rcases Classical.em (0 < key.length ∧ key.length ≤ kv.keyMax ∧ val.length ≤ kv.valMax) with
    hok | hbad
  · rw [dif_pos hok] at h
    have hsound := kvProbeKey_sound kv t key
    rcases hp : kvProbeKey kv t key with idx | ⟨idx, e⟩ | _
    · rw [hp] at h hsound
      obtain ⟨hidx, hfree, hpassed⟩ := hsound
      simp only at h
      rcases Nat.lt_or_ge t.count (kv.capacity / 2) with hroom | hfull
      · rw [if_neg (Nat.not_le.mpr hroom)] at h
        obtain rfl := (Prod.mk.inj h).2
        have habsent : ∀ x, Holds kv.capacity t.slot x → x.key ≠ key := by
          intro x hx hk
          refine hv.absent ?_ x hk hx
          intro i y hfound
          rw [hp] at hfound
          cases hfound
        have hwrite := hv.write (e := ⟨kv.hash key, key, val, kvDeadline now ttl, hok.1⟩)
          hidx rfl hok.2.1 (by
            intro i hi hlt
            obtain ⟨x, hx, -⟩ := hpassed i hi hlt
            rw [hx]
            exact Option.some_ne_none x)
          (by
            intro x hx
            rw [hfree] at hx
            cases hx)
          (fun j hj _ x hx => habsent x ⟨j, hj, hx⟩)
          (c := t.count + 1) (by rw [card_put_some hidx hfree, hv.count_eq]) hroom
        exact ⟨hwrite.1, _, rfl, rfl, rfl, hwrite.2⟩
      · rw [if_pos hfull] at h
        cases h
    · rw [hp] at h hsound
      obtain ⟨hidx, hslot, hm⟩ := hsound
      obtain ⟨-, hkey⟩ := key_of_matches hm
      obtain rfl := (Prod.mk.inj h).2
      have hwrite := hv.write (e := { e with val := val, expires := kvDeadline now ttl }) hidx
        (hv.hashed e ⟨idx, hidx, hslot⟩) (hv.bounded e ⟨idx, hidx, hslot⟩)
        (hv.reachable idx hidx e hslot)
        (by
          intro x hx
          rw [hslot] at hx
          cases hx
          rfl)
        (by
          intro j hj hji x hx hk
          exact hji (hv.distinct j hj idx hidx x e hx hslot hk))
        (c := t.count) (by rw [card_put_some_of_some hidx hslot, hv.count_eq]) hv.count_le
      refine ⟨hwrite.1, { e with val := val, expires := kvDeadline now ttl }, hkey, rfl, rfl, ?_⟩
      intro x
      rw [← hkey]
      exact hwrite.2 x
    · rw [hp] at h
      cases h
  · rw [dif_neg hbad] at h
    cases h

theorem kvSet_error {ttl now : UInt64}
    (h : (kvSet kv t key val ttl now).1 = false) : (kvSet kv t key val ttl now).2 = t := by
  rw [kvSet] at h ⊢
  rcases Classical.em (0 < key.length ∧ key.length ≤ kv.keyMax ∧ val.length ≤ kv.valMax) with
    hok | hbad
  · rw [dif_pos hok] at h ⊢
    rcases hp : kvProbeKey kv t key with idx | ⟨idx, e⟩ | _
    · simp only [hp] at h ⊢
      rcases Nat.lt_or_ge t.count (kv.capacity / 2) with hroom | hfull
      · rw [if_neg (Nat.not_le.mpr hroom)] at h
        cases h
      · rw [if_pos hfull]
    · simp only [hp] at h
      cases h
    · rfl
  · rw [dif_neg hbad]

/-! ## The map -/

/-- What the map keeps of a set. -/
structure KvRec : Type where
  val : Bytes
  setAt : UInt64
  ttl : UInt64

/-- The last successful set of each key. -/
abbrev KvMap : Type := Bytes → Option KvRec

/-- Has the record's time passed? -/
def KvRec.expired (r : KvRec) (now : UInt64) : Bool := kvExpired (kvDeadline r.setAt r.ttl) now

theorem KvRec.expired_iff {r : KvRec} (h : r.setAt.toNat + r.ttl.toNat < 2 ^ 64) (now : UInt64) :
    r.expired now = true ↔ r.ttl ≠ 0 ∧ r.setAt.toNat + r.ttl.toNat ≤ now.toNat := by
  have hadd : (r.setAt + r.ttl).toNat = r.setAt.toNat + r.ttl.toNat := by
    rw [UInt64.toNat_add, Nat.mod_eq_of_lt h]
  rw [KvRec.expired, kvExpired, kvDeadline, Bool.and_eq_true, decide_eq_true_eq,
    decide_eq_true_eq, UInt64.le_iff_toNat_le]
  rcases eq_or_ne r.ttl 0 with hz | hz
  · rw [if_neg (not_not.mpr hz)]
    exact ⟨fun hx => absurd rfl hx.1, fun hx => absurd hz hx.1⟩
  · rw [if_pos hz, hadd]
    refine and_congr_left fun _ => ⟨fun _ => hz, fun _ hsum => ?_⟩
    have hpos : 0 < r.ttl.toNat := by
      refine Nat.pos_of_ne_zero fun h0 => hz ?_
      exact UInt64.toNat_inj.mp h0
    rw [hsum] at hadd
    have h0 : (0 : UInt64).toNat = 0 := rfl
    omega

theorem KvRec.expired_mono {r : KvRec} {now now' : UInt64} (h : r.expired now = true)
    (hle : now ≤ now') : r.expired now' = true := by
  rw [KvRec.expired, kvExpired, Bool.and_eq_true, decide_eq_true_eq, decide_eq_true_eq] at h ⊢
  exact ⟨h.1, UInt64.le_trans h.2 hle⟩

/-- What a get should return: the value, cut to the caller's buffer, of the last
set of the key that was neither deleted nor has expired. -/
def KvMap.read (m : KvMap) (key : Bytes) (out : Option ℕ) (now : UInt64) :
    Option Bytes :=
  match m key with
  | none => none
  | some r => if r.expired now then none else some (kvCopyValue r.val out)

/-- A call, with the clock it reads. -/
inductive KvOp : Type where
  | get (key : Bytes) (out : Option ℕ) (now : UInt64) : KvOp
  | set (key val : Bytes) (ttl now : UInt64) : KvOp
  | delete (key : Bytes) (now : UInt64) : KvOp

def KvOp.now : KvOp → UInt64
  | .get _ _ now => now
  | .set _ _ _ now => now
  | .delete _ now => now

/-- What a call returns. -/
inductive KvOut : Type where
  | got : Option Bytes → KvOut
  | set : Bool → KvOut
  | deleted : KvOut

/-- The map's side of a call: gets are answered from the map, a successful set
records, a failed one changes nothing, a delete forgets. -/
inductive KvMap.Step : KvMap → KvOp × KvOut → KvMap → Prop where
  | get (m : KvMap) (key : Bytes) (out : Option ℕ) (now : UInt64) :
      Step m (.get key out now, .got (m.read key out now)) m
  | set (m : KvMap) (key val : Bytes) (ttl now : UInt64) :
      Step m (.set key val ttl now, .set true)
        fun k => if k = key then some ⟨val, now, ttl⟩ else m k
  | setError (m : KvMap) (key val : Bytes) (ttl now : UInt64) :
      Step m (.set key val ttl now, .set false) m
  | delete (m : KvMap) (key : Bytes) (now : UInt64) :
      Step m (.delete key now, .deleted) fun k => if k = key then none else m k

def kvCall (kv : Kv) (t : KvTable) : KvOp → Option (KvOut × KvTable)
  | .get key out now => (kvGet kv t key out now).map fun p => (.got p.1, p.2)
  | .set key val ttl now => some (.set (kvSet kv t key val ttl now).1, (kvSet kv t key val ttl now).2)
  | .delete key _ => (kvDelete kv t key).map fun t => (.deleted, t)

/-- The table's side of a call: a table and the clock, which never goes back. -/
def KvTable.Step (kv : Kv) (s : KvTable × UInt64) (c : KvOp × KvOut) (s' : KvTable × UInt64) :
    Prop :=
  s.2 ≤ c.1.now ∧ kvCall kv s.1 c.1 = some (c.2, s'.1) ∧ s'.2 = c.1.now

/-- The table holds what the map holds, but for what has expired. -/
structure KvTable.Refines (kv : Kv) (s : KvTable × UInt64) (m : KvMap) : Prop where
  valid : s.1.Valid kv
  /-- an entry is the map's -/
  sound : ∀ e, Holds kv.capacity s.1.slot e →
    ∃ r, m e.key = some r ∧ r.val = e.val ∧ kvDeadline r.setAt r.ttl = e.expires
  /-- a record without an entry has expired -/
  complete : ∀ key r, m key = some r →
    (∃ e, Holds kv.capacity s.1.slot e ∧ e.key = key) ∨ r.expired s.2 = true

theorem emptyTable_refines (kv : Kv) :
    KvTable.Refines kv (kv.emptyTable, 0) fun _ => none := by
  refine ⟨emptyTable_valid kv, ?_, ?_⟩
  · rintro e ⟨i, hi, he⟩
    have hmem : i ∈ occupied kv.capacity kv.emptyTable.slot :=
      mem_occupied.mpr ⟨hi, by rw [he]; rfl⟩
    have hcard := (emptyTable_valid kv).count_eq
    rw [Finset.card_eq_zero.mp hcard.symm] at hmem
    exact absurd hmem (Finset.notMem_empty i)
  · intro key r hr
    cases hr

namespace KvTable.Refines

variable {s : KvTable × UInt64} {m : KvMap}

theorem later (h : Refines kv s m) {now : UInt64} (hle : s.2 ≤ now) :
    Refines kv (s.1, now) m := by
  refine ⟨h.valid, h.sound, ?_⟩
  intro key r hr
  rcases h.complete key r hr with he | hexp
  · exact .inl he
  · exact .inr (r.expired_mono hexp hle)

theorem congr (h : Refines kv s m) {t' : KvTable} (hslots : t'.slots = s.1.slots)
    (hcount : t'.count = s.1.count) : Refines kv (t', s.2) m := by
  have hslot : t'.slot = s.1.slot := by
    funext i
    rw [KvTable.slot, KvTable.slot, hslots]
  refine ⟨h.valid.congr hslots hcount, ?_, ?_⟩
  · rw [hslot]
    exact h.sound
  · rw [hslot]
    exact h.complete

theorem read_of_holds (h : Refines kv s m) {e : KvEntry} (he : Holds kv.capacity s.1.slot e)
    (out : Option ℕ) (now : UInt64) :
    m.read e.key out now =
      if kvExpired e.expires now then none else some (kvCopyValue e.val out) := by
  obtain ⟨r, hr, hval, hdeadline⟩ := h.sound e he
  rw [KvMap.read, hr]
  simp only [KvRec.expired, hdeadline, hval]

theorem read_of_absent (h : Refines kv s m) {key : Bytes}
    (habsent : ∀ e, e.key = key → ¬ Holds kv.capacity s.1.slot e) (out : Option ℕ) :
    m.read key out s.2 = none := by
  rw [KvMap.read]
  rcases hm : m key with _ | r
  · rfl
  · rcases h.complete key r hm with ⟨e, he, hk⟩ | hexp
    · exact absurd he (habsent e hk)
    · simp only [hexp, if_true]

theorem remove (h : Refines kv s m) {t' : KvTable} {key : Bytes} {m' : KvMap}
    (hv : t'.Valid kv)
    (hholds : ∀ x, Holds kv.capacity t'.slot x ↔ Holds kv.capacity s.1.slot x ∧ x.key ≠ key)
    (hother : ∀ k, k ≠ key → m' k = m k)
    (hgone : ∀ r, m' key = some r → r.expired s.2 = true) :
    Refines kv (t', s.2) m' := by
  refine ⟨hv, ?_, ?_⟩
  · intro e he
    obtain ⟨he', hk⟩ := (hholds e).mp he
    rw [hother e.key hk]
    exact h.sound e he'
  · intro k r hr
    rcases eq_or_ne k key with rfl | hk
    · exact .inr (hgone r hr)
    · rw [hother k hk] at hr
      rcases h.complete k r hr with ⟨e, he, hek⟩ | hexp
      · exact .inl ⟨e, (hholds e).mpr ⟨he, by rw [hek]; exact hk⟩, hek⟩
      · exact .inr hexp

end KvTable.Refines

/-! ## One call -/

variable {s : KvTable × UInt64} {m : KvMap}

theorem KvTable.Valid.absent_of_bounds (hv : t.Valid kv)
    (hbad : key.length = 0 ∨ kv.keyMax < key.length) (e : KvEntry) (hk : e.key = key) :
    ¬ Holds kv.capacity t.slot e := by
  intro he
  have hpos := e.key_pos
  have hle := hv.bounded e he
  rw [hk] at hpos hle
  rcases hbad with h | h <;> omega

/-- **A get** reads the map. -/
theorem kvGet_refines (h : KvTable.Refines kv s m) (key : Bytes) (out : Option ℕ) :
    ∃ t', kvGet kv s.1 key out s.2 = some (m.read key out s.2, t') ∧
      KvTable.Refines kv (t', s.2) m := by
  rw [kvGet]
  rcases Classical.em (key.length = 0 ∨ kv.keyMax < key.length) with hbad | hok
  · rw [if_pos hbad, h.read_of_absent (h.valid.absent_of_bounds hbad)]
    exact ⟨s.1, rfl, h⟩
  · rw [if_neg hok]
    have hsound := kvProbeKey_sound kv s.1 key
    rcases hp : kvProbeKey kv s.1 key with idx | ⟨idx, e⟩ | _
    · have hmiss : ∀ i e, kvProbeKey kv s.1 key ≠ .found i e := by
        intro i e hfound
        rw [hp] at hfound
        cases hfound
      rw [h.read_of_absent (h.valid.absent hmiss)]
      exact ⟨_, rfl, h.congr rfl rfl⟩
    · rw [hp] at hsound
      obtain ⟨hidx, hslot, hm⟩ := hsound
      obtain ⟨-, hkey⟩ := key_of_matches hm
      have hread := h.read_of_holds ⟨idx, hidx, hslot⟩ out s.2
      rw [hkey] at hread
      rw [hread]
      simp only
      rcases hexp : kvExpired e.expires s.2 with _ | _
      · exact ⟨_, rfl, h.congr rfl rfl⟩
      · -- the entry is evicted; the map keeps the record, whose time has passed
        obtain ⟨slots, hrun, hv, hholds⟩ := kvRemoveAt_spec h.valid hidx hslot
        obtain ⟨r, hr, -, hdeadline⟩ := h.sound e ⟨idx, hidx, hslot⟩
        have hremove : KvTable.Refines kv ({ s.1 with slots := slots }.uncount, s.2) m := by
          refine h.remove hv hholds (fun _ _ => rfl) ?_
          intro r' hr'
          rw [hr] at hr'
          cases hr'
          rw [KvRec.expired, hdeadline]
          exact hexp
        rw [if_pos rfl, if_pos rfl, hrun]
        exact ⟨_, rfl, hremove.congr rfl rfl⟩
    · have hmiss : ∀ i e, kvProbeKey kv s.1 key ≠ .found i e := by
        intro i e hfound
        rw [hp] at hfound
        cases hfound
      rw [h.read_of_absent (h.valid.absent hmiss)]
      exact ⟨_, rfl, h.congr rfl rfl⟩

/-- **A delete** takes the key off the map. -/
theorem kvDelete_refines (h : KvTable.Refines kv s m) (key : Bytes) :
    ∃ t', kvDelete kv s.1 key = some t' ∧
      KvTable.Refines kv (t', s.2) fun k => if k = key then none else m k := by
  -- without an entry of the key the table is a table of the smaller map already
  have hforget : (∀ e, e.key = key → ¬ Holds kv.capacity s.1.slot e) →
      KvTable.Refines kv (s.1, s.2) fun k => if k = key then none else m k := by
    intro habsent
    have hholds : ∀ x, Holds kv.capacity s.1.slot x ↔
        Holds kv.capacity s.1.slot x ∧ x.key ≠ key :=
      fun x => ⟨fun hx => ⟨hx, fun hk => habsent x hk hx⟩, fun hx => hx.1⟩
    refine h.remove h.valid hholds (fun k hk => if_neg hk) ?_
    · intro r hr
      rw [if_pos rfl] at hr
      cases hr
  rw [kvDelete]
  rcases Classical.em (key.length = 0 ∨ kv.keyMax < key.length) with hbad | hok
  · rw [if_pos hbad]
    exact ⟨s.1, rfl, hforget (h.valid.absent_of_bounds hbad)⟩
  · rw [if_neg hok]
    have hsound := kvProbeKey_sound kv s.1 key
    rcases hp : kvProbeKey kv s.1 key with idx | ⟨idx, e⟩ | _
    · refine ⟨s.1, rfl, hforget (h.valid.absent ?_)⟩
      intro i x hfound
      rw [hp] at hfound
      cases hfound
    · rw [hp] at hsound
      obtain ⟨hidx, hslot, hm⟩ := hsound
      obtain ⟨-, hkey⟩ := key_of_matches hm
      obtain ⟨slots, hrun, hv, hholds⟩ := kvRemoveAt_spec h.valid hidx hslot
      simp only [hrun]
      refine ⟨_, rfl, h.remove hv hholds (fun k hk => ?_) ?_⟩
      · rw [hkey] at hk
        exact if_neg hk
      · intro r hr
        rw [if_pos hkey] at hr
        cases hr
    · refine ⟨s.1, rfl, hforget (h.valid.absent ?_)⟩
      intro i x hfound
      rw [hp] at hfound
      cases hfound

theorem kvSet_refines (h : KvTable.Refines kv s m) {ttl : UInt64}
    (hset : kvSet kv s.1 key val ttl s.2 = (true, t')) :
    KvTable.Refines kv (t', s.2) fun k => if k = key then some ⟨val, s.2, ttl⟩ else m k := by
  obtain ⟨hv, e, hkey, hval, hexpires, hholds⟩ := kvSet_spec h.valid hset
  refine ⟨hv, ?_, ?_⟩
  · intro x hx
    rcases (hholds x).mp hx with rfl | ⟨hx', hk⟩
    · rw [if_pos hkey]
      exact ⟨_, rfl, hval.symm, hexpires.symm⟩
    · rw [if_neg hk]
      exact h.sound x hx'
  · intro k r hr
    rcases eq_or_ne k key with rfl | hk
    · exact .inl ⟨e, (hholds e).mpr (.inl rfl), hkey⟩
    · rw [if_neg hk] at hr
      rcases h.complete k r hr with ⟨x, hx, hxk⟩ | hexp
      · exact .inl ⟨x, (hholds x).mpr (.inr ⟨hx, by rw [hxk]; exact hk⟩), hxk⟩
      · exact .inr hexp

/-- A call on a table that refines a map answers as the map may, and leaves a
table that refines what the map became. -/
theorem kvCall_refines (h : KvTable.Refines kv s m) {op : KvOp} (hle : s.2 ≤ op.now) :
    ∃ out t' m', kvCall kv s.1 op = some (out, t') ∧ KvMap.Step m (op, out) m' ∧
      KvTable.Refines kv (t', op.now) m' := by
  have hlater := h.later hle
  cases op with
  | get key out now =>
    obtain ⟨t', hget, href⟩ := kvGet_refines hlater key out
    have hget' : kvGet kv s.1 key out now = some (m.read key out now, t') := hget
    refine ⟨_, t', m, ?_, .get m key out now, href⟩
    rw [kvCall, hget']
    rfl
  | set key val ttl now =>
    rcases hset : kvSet kv s.1 key val ttl now with ⟨_ | _, t'⟩
    · have hsame : t' = s.1 := by
        have herr : (kvSet kv s.1 key val ttl now).2 = s.1 := kvSet_error (by rw [hset])
        rw [hset] at herr
        exact herr
      refine ⟨.set false, t', m, ?_, .setError m key val ttl now, ?_⟩
      · rw [kvCall, hset]
      · rw [hsame]
        exact hlater
    · refine ⟨.set true, t', _, ?_, .set m key val ttl now, kvSet_refines hlater hset⟩
      rw [kvCall, hset]
  | delete key now =>
    obtain ⟨t', hdel, href⟩ := kvDelete_refines hlater key
    refine ⟨.deleted, t', _, ?_, .delete m key now, href⟩
    rw [kvCall, hdel]
    rfl

/-! ## Whole runs -/

theorem exists_run_refines (ops : List KvOp) (h : KvTable.Refines kv s m)
    (htimes : ops.Pairwise fun a b => a.now ≤ b.now) (hfrom : ∀ op ∈ ops, s.2 ≤ op.now) :
    ∃ hist s' m', hist.map Prod.fst = ops ∧ Run (KvTable.Step kv) s hist s' ∧
      Run KvMap.Step m hist m' ∧ KvTable.Refines kv s' m' := by
  induction ops generalizing s m with
  | nil => exact ⟨[], s, m, rfl, .nil s, .nil m, h⟩
  | cons op ops ih =>
    have hle := hfrom op mem_cons_self
    obtain ⟨out, t', mid, hcall, hmap, href⟩ := kvCall_refines h hle
    obtain ⟨hfirst, hrest⟩ := pairwise_cons.mp htimes
    obtain ⟨hist, s', m', hops, hrun, hmrun, hlast⟩ := ih href hrest hfirst
    refine ⟨(op, out) :: hist, s', m', ?_, .cons ⟨hle, hcall, rfl⟩ hrun, .cons hmap hmrun,
      hlast⟩
    rw [map_cons, hops]

/-- **The table refines a map with expiry.** For every capacity `2 ^ k` from two
on, every hash and every sequence of calls at nondecreasing times: the calls all
return; their answers are those of the map that records the successful sets and
forgets the deletes, read with expiry; and the table they leave counts its
occupied slots, at most half of them, holds no key twice, and has every entry
within half the capacity of its home bucket with no free slot on the way. A set
that fails leaves the table as it was. A record's time has passed once the
clock reaches the sum of its set time and its time to live. -/
theorem kv_refines_map (kv : Kv) (ops : List KvOp)
    (htimes : ops.Pairwise fun a b => a.now ≤ b.now) :
    ∃ hist t now m, hist.map Prod.fst = ops ∧
      Run (KvTable.Step kv) (kv.emptyTable, 0) hist (t, now) ∧
      Run KvMap.Step (fun _ => none) hist m ∧
      t.slots.length = kv.capacity ∧
      t.count = ((Finset.range kv.capacity).filter fun i => (t.slot i).isSome).card ∧
      t.count ≤ kv.capacity / 2 ∧
      (∀ i < kv.capacity, ∀ j < kv.capacity, ∀ a b, t.slot i = some a → t.slot j = some b →
        a.key = b.key → i = j) ∧
      (∀ i < kv.capacity, ∀ e, t.slot i = some e →
        dist kv.capacity (kv.home e) i < kv.capacity / 2 ∧
        ∀ j < kv.capacity, dist kv.capacity (kv.home e) j < dist kv.capacity (kv.home e) i →
          t.slot j ≠ none) ∧
      (∀ key val ttl now', (kvSet kv t key val ttl now').1 = false →
        (kvSet kv t key val ttl now').2 = t) ∧
      ∀ r : KvRec, r.setAt.toNat + r.ttl.toNat < 2 ^ 64 → ∀ now',
        (r.expired now' = true ↔ r.ttl ≠ 0 ∧ r.setAt.toNat + r.ttl.toNat ≤ now'.toNat) := by
  obtain ⟨hist, ⟨t, now⟩, m, hops, hrun, hmrun, href⟩ :=
    exists_run_refines ops (emptyTable_refines kv) htimes fun op _ => UInt64.zero_le
  have hv := href.valid
  refine ⟨hist, t, now, m, hops, hrun, hmrun, hv.length, hv.count_eq, hv.count_le, hv.distinct,
    ?_, fun key val ttl now' => kvSet_error, fun r hsum now' => r.expired_iff hsum now'⟩
  intro i hi e he
  exact ⟨hv.dist_lt hi he, hv.reachable i hi e he⟩

/-- A table of four slots under the real hash. -/
def sampleKv : Kv := ⟨2, by decide, 8, 8, kvHash⟩

/-- A key set, read, expired, set again and deleted. -/
def sampleKvOps : List KvOp :=
  [.set [1] [10] 5 1, .set [2] [20, 21] 0 2, .get [1] (some 4) 3, .get [1] (some 4) 6,
    .set [1] [11] 0 7, .delete [2] 7, .get [2] none 8]

theorem kv_refines_map_sample :
    ∃ hist t now m, hist.map Prod.fst = sampleKvOps ∧
      Run (KvTable.Step sampleKv) (sampleKv.emptyTable, 0) hist (t, now) ∧
      Run KvMap.Step (fun _ => none) hist m ∧ t.count ≤ sampleKv.capacity / 2 := by
  obtain ⟨hist, t, now, m, hops, hrun, hmrun, -, -, hle, -⟩ :=
    kv_refines_map sampleKv sampleKvOps (by decide)
  exact ⟨hist, t, now, m, hops, hrun, hmrun, hle⟩

end BrixCache

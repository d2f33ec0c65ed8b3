import BrixCache.Lib.FirstMax
import BrixCache.Manager.Select
import Mathlib.Data.List.Induction
import Mathlib.Data.List.Sort

/-!
# What a selection chooses

The candidates of a selection fall into classes: fresh, stale, overloaded or out of space, peers,
blacklisted. The one chosen belongs to the first class that is not empty. The scan keeps, of every
class, the first of the best; affinity and the fuzz band move the choice within the fresh class.
-/

namespace BrixCache

open List

/-- The classes of candidates, the most wanted first -/
inductive SrvClass : Type where
  | fresh | stale | overloaded | peer | black
  deriving DecidableEq

/-- The place of a class on the ladder -/
def SrvClass.rank : SrvClass → ℕ
  | .fresh => 0
  | .stale => 1
  | .overloaded => 2
  | .peer => 3
  | .black => 4

/-- What a selection is asked, and the registry it is asked of -/
structure SrvQuery : Type where
  tbl : SrvTable
  now : UInt64
  path : List UInt8
  forWrite : Bool
  allowBlacklisted : Bool

variable {st : SrvState} {q : SrvQuery}

def srvClass (st : SrvState) (q : SrvQuery) (e : SrvEntry) : SrvClass :=
  if srvIsBlack q.now e then .black
  else if e.role = [80] then .peer
  else if q.forWrite ∧ st.enforce ∧ e.spaceBlocked then .overloaded
  else if srvSelOverMaxload st e then .overloaded
  else if srvSelIsStale st q.now e then .stale
  else .fresh

/-- A slot a client may be sent to: it exports the path, and if it is blacklisted that is allowed. -/
structure SrvQuery.Candidate (q : SrvQuery) (i : ℕ) (e : SrvEntry) : Prop where
  slot : q.tbl[i]? = some (some e)
  covers : srvPathMatches e.paths q.path = true
  allowed : srvIsBlack q.now e = true → q.allowBlacklisted = true

/-- The metric of the one is better than that of the other, for the direction. -/
def metricBeats (forWrite : Bool) (m m' : UInt32) : Prop := if forWrite then m' < m else m < m'

/-- The metric `m` is no more than `fuzz` percent worse than the metric `best`. -/
def WithinFuzz (forWrite : Bool) (fuzz best m : ℕ) : Prop :=
  if forWrite then best * (100 - fuzz) / 100 ≤ m else m ≤ best * (100 + fuzz) / 100

/-- A fresh candidate, by its slot and the server in it -/
def SrvQuery.Fresh (st : SrvState) (q : SrvQuery) (i : ℕ) (host : List UInt8) (port : UInt16) :
    Prop :=
  ∃ e, q.Candidate i e ∧ srvClass st q e = .fresh ∧ e.host = host ∧ e.port = port

/-! ## The candidates in the order of the scan -/

/-- The entries that export the path and may be asked. -/
def SrvQuery.candidates (q : SrvQuery) : List (ℕ × SrvEntry) :=
  q.tbl.zipIdx.filterMap fun slot => slot.1.bind fun e =>
    if srvPathMatches e.paths q.path ∧ (srvIsBlack q.now e → q.allowBlacklisted) then
      some (slot.2, e)
    else none

variable {e : SrvEntry} {i : ℕ} {m : UInt32} {forWrite : Bool} {c : SrvClass} {rotate : UInt64}

theorem mem_candidates : (i, e) ∈ q.candidates ↔ q.Candidate i e := by
  simp only [SrvQuery.candidates, mem_filterMap, Option.bind_eq_some_iff]
  constructor
  · rintro ⟨slot, hslot, e', he', hsome⟩
    obtain ⟨hif, heq⟩ := Option.ite_none_right_eq_some.mp hsome
    obtain ⟨rfl, rfl⟩ := Prod.mk.inj (Option.some.inj heq)
    have hget := mem_zipIdx_iff_getElem?.mp hslot
    exact ⟨by rw [hget, he'], hif.1, hif.2⟩
  · intro h
    refine ⟨(some e, i), mem_zipIdx_iff_getElem?.mpr h.slot, e, rfl, ?_⟩
    rw [if_pos ⟨h.covers, h.allowed⟩]

theorem candidates_pairwise (q : SrvQuery) : q.candidates.Pairwise fun c c' => c.1 < c'.1 := by
  have hidx : q.tbl.zipIdx.Pairwise fun s s' => s.2 < s'.2 := by
    have hrange : (q.tbl.zipIdx.map Prod.snd).Pairwise (· < ·) := by
      rw [zipIdx_map_snd]
      exact pairwise_lt_range'
    exact pairwise_map.mp hrange
  refine hidx.filterMap _ fun s s' hlt c hc c' hc' => ?_
  obtain ⟨e, -, he⟩ := Option.bind_eq_some_iff.mp hc
  obtain ⟨e', -, he'⟩ := Option.bind_eq_some_iff.mp hc'
  obtain rfl := Option.some.inj (Option.ite_none_right_eq_some.mp he).2
  obtain rfl := Option.some.inj (Option.ite_none_right_eq_some.mp he').2
  exact hlt

theorem srvSelectScan_eq (st : SrvState) (q : SrvQuery) :
    srvSelectScan st q.tbl q.now q.path q.forWrite q.allowBlacklisted =
      q.candidates.foldl (fun sel c => srvSelStateConsider st q.now q.forWrite sel c.1 c.2
        (srvIsBlack q.now c.2)) srvSelStateInit := by
  rw [srvSelectScan, SrvQuery.candidates, foldl_filterMap]
  congr 1
  funext sel slot
  obtain ⟨slot, i⟩ := slot
  cases slot with
  | none => rfl
  | some e =>
    cases hcovers : srvPathMatches e.paths q.path <;> cases hblack : srvIsBlack q.now e <;>
      cases hallow : q.allowBlacklisted <;> simp [srvSelectSlot, hcovers, hblack]

/-! ## One tier -/

/-- What the candidates of the classes `p` offer to their tier -/
def offers (st : SrvState) (q : SrvQuery) (p : SrvClass → Bool) (cs : List (ℕ × SrvEntry)) :
    List (ℕ × UInt32) :=
  (cs.filter fun c => p (srvClass st q c.2)).map fun c => (c.1, srvSelMetric st c.2 q.forWrite)

/-- The candidate a tier holds after all offers. -/
def tierOf (forWrite : Bool) (cands : List (ℕ × UInt32)) : SrvSelTier :=
  cands.foldl (srvSelTierOffer forWrite) none

variable {p : SrvClass → Bool} {cs : List (ℕ × SrvEntry)}

theorem mem_offers :
    (i, m) ∈ offers st q p cs ↔
      ∃ e, (i, e) ∈ cs ∧ p (srvClass st q e) = true ∧ srvSelMetric st e q.forWrite = m := by
  simp only [offers, mem_map, mem_filter, Prod.mk.injEq]
  constructor
  · rintro ⟨⟨j, e⟩, ⟨hmem, hp⟩, rfl, rfl⟩
    exact ⟨e, hmem, hp, rfl⟩
  · rintro ⟨e, hmem, hp, rfl⟩
    exact ⟨(i, e), ⟨hmem, hp⟩, rfl, rfl⟩

theorem offers_concat (c : ℕ × SrvEntry) :
    offers st q p (cs ++ [c]) = offers st q p cs ++
      if p (srvClass st q c.2) then [(c.1, srvSelMetric st c.2 q.forWrite)] else [] := by
  cases hp : p (srvClass st q c.2) <;> simp [offers, filter_append, hp]

theorem tierOf_concat (forWrite : Bool) (cands : List (ℕ × UInt32)) (cand : ℕ × UInt32) :
    tierOf forWrite (cands ++ [cand]) = srvSelTierOffer forWrite (tierOf forWrite cands) cand := by
  rw [tierOf, foldl_append]
  rfl

/-- How much a metric is worth: reads want it small. -/
def metricWorth (forWrite : Bool) (cand : ℕ × UInt32) : ℤ :=
  if forWrite then cand.2.toNat else -cand.2.toNat

theorem metricBeats_iff {cand cand' : ℕ × UInt32} :
    metricBeats forWrite cand.2 cand'.2 ↔
      metricWorth forWrite cand' < metricWorth forWrite cand := by
  cases forWrite <;> simp [metricBeats, metricWorth, UInt32.lt_iff_toNat_lt]

theorem srvSelTierOffer_some {best cand : ℕ × UInt32} :
    srvSelTierOffer forWrite (some best) cand =
      if metricWorth forWrite best < metricWorth forWrite cand then some cand else some best := by
  have hbetter : srvSelMetricBetter (some best) cand.2 forWrite = true ↔
      metricWorth forWrite best < metricWorth forWrite cand := by
    rw [← metricBeats_iff]
    cases forWrite <;> simp [srvSelMetricBetter, metricBeats]
  by_cases hlt : metricWorth forWrite best < metricWorth forWrite cand
  · rw [srvSelTierOffer, if_pos (hbetter.mpr hlt), if_pos hlt]
  · rw [srvSelTierOffer, if_neg fun h => hlt (hbetter.mp h), if_neg hlt]

theorem tierOf_cases (forWrite : Bool) (cands : List (ℕ × UInt32)) :
    (cands = [] ∧ tierOf forWrite cands = none) ∨
      ∃ k best, FirstMax (metricWorth forWrite) cands k ∧ cands[k]? = some best ∧
        tierOf forWrite cands = some best := by
  induction cands using reverseRecOn with
  | nil => exact .inl ⟨rfl, rfl⟩
  | append_singleton cands cand ih =>
    rw [tierOf_concat]
    obtain ⟨rfl, hnone⟩ | ⟨k, best, hmax, hk, hbest⟩ := ih
    · rw [hnone]
      exact .inr ⟨0, cand, FirstMax.singleton cand, rfl, rfl⟩
    · rw [hbest, srvSelTierOffer_some]
      split
      · next hlt =>
        exact .inr ⟨cands.length, cand, hmax.concat_of_lt hk hlt, by simp, rfl⟩
      · next hle =>
        refine .inr ⟨k, best, hmax.concat_of_le hk (not_lt.mp hle), ?_, rfl⟩
        rw [getElem?_append_left hmax.lt, hk]

theorem offers_pairwise (h : cs.Pairwise fun c c' => c.1 < c'.1) :
    (offers st q p cs).Pairwise fun c c' => c.1 < c'.1 :=
  pairwise_map.mpr (h.filter _)

/-- A candidate that is the first of the best of the classes `p` -/
structure FirstBest (st : SrvState) (q : SrvQuery) (p : SrvClass → Bool)
    (cs : List (ℕ × SrvEntry)) (i : ℕ) (e : SrvEntry) : Prop where
  mem : (i, e) ∈ cs
  isOf : p (srvClass st q e) = true
  best : ∀ j e', (j, e') ∈ cs → p (srvClass st q e') = true →
    ¬ metricBeats q.forWrite (srvSelMetric st e' q.forWrite) (srvSelMetric st e q.forWrite)
  first : ∀ j e', (j, e') ∈ cs → p (srvClass st q e') = true →
    srvSelMetric st e' q.forWrite = srvSelMetric st e q.forWrite → i ≤ j

theorem firstBest_of_tierOf (hsorted : cs.Pairwise fun c c' => c.1 < c'.1)
    (h : tierOf q.forWrite (offers st q p cs) = some (i, m)) :
    ∃ e, FirstBest st q p cs i e ∧ srvSelMetric st e q.forWrite = m := by
  obtain ⟨-, hnone⟩ | ⟨k, best, hmax, hk, hbest⟩ := tierOf_cases q.forWrite (offers st q p cs)
  · rw [hnone] at h
    cases h
  obtain rfl := Option.some.inj (hbest.symm.trans h)
  obtain ⟨e, hmem, hp, rfl⟩ := mem_offers.mp (mem_of_getElem? hk)
  refine ⟨e, ⟨hmem, hp, fun j e' hmem' hp' => ?_, fun j e' hmem' hp' hsame => ?_⟩, rfl⟩
  · obtain ⟨k', hk'⟩ := getElem?_of_mem (mem_offers.mpr ⟨e', hmem', hp', rfl⟩)
    exact fun hbeats => absurd ((@metricBeats_iff q.forWrite (j, _) (i, _)).mp hbeats)
      (not_lt.mpr (hmax.max hk hk'))
  · obtain ⟨k', hk'⟩ := getElem?_of_mem (mem_offers.mpr ⟨e', hmem', hp', rfl⟩)
    have hle : k ≤ k' := by
      refine Nat.not_lt.mp fun hlt => ?_
      have hless := hmax.first hk hlt hk'
      rw [metricWorth, metricWorth, hsame] at hless
      exact lt_irrefl _ hless
    rcases Nat.eq_or_lt_of_le hle with rfl | hlt
    · exact Nat.le_of_eq (Prod.mk.inj (Option.some.inj (hk.symm.trans hk'))).1
    · obtain ⟨hkl, hkeq⟩ := List.getElem?_eq_some_iff.mp hk
      obtain ⟨hkl', hkeq'⟩ := List.getElem?_eq_some_iff.mp hk'
      have hord := pairwise_iff_getElem.mp (offers_pairwise hsorted) k k' hkl hkl' hlt
      rw [hkeq, hkeq'] at hord
      exact Nat.le_of_lt hord

theorem none_of_tierOf (h : tierOf q.forWrite (offers st q p cs) = none) :
    ∀ j e, (j, e) ∈ cs → p (srvClass st q e) = false := by
  intro j e hmem
  obtain ⟨hnil, -⟩ | ⟨k, best, -, -, hbest⟩ := tierOf_cases q.forWrite (offers st q p cs)
  · refine Bool.eq_false_iff.mpr fun hp => ?_
    have hoffer := mem_offers.mpr ⟨e, hmem, hp, rfl⟩
    rw [hnil] at hoffer
    cases hoffer
  · rw [hbest] at h
    cases h

/-! ## The scan -/

/-- The classes that go to the tier `any` -/
def SrvClass.isLive : SrvClass → Bool
  | .fresh | .stale => true
  | _ => false

/-- The tiers after some candidates -/
def ladder (st : SrvState) (q : SrvQuery) (cs : List (ℕ × SrvEntry)) : SrvSelState where
  fresh := tierOf q.forWrite (offers st q (· = .fresh) cs)
  any := tierOf q.forWrite (offers st q SrvClass.isLive cs)
  overload := tierOf q.forWrite (offers st q (· = .overloaded) cs)
  peer := tierOf q.forWrite (offers st q (· = .peer) cs)
  black := tierOf q.forWrite (offers st q (· = .black) cs)
  freshCands := (offers st q (· = .fresh) cs).take srvSelAffinityMax

theorem take_concat_of_cap {α : Type} (l : List α) (x : α) (n : ℕ) :
    (if l.length < n then l.take n ++ [x] else l.take n) = (l ++ [x]).take n := by
  split
  · next h =>
    have hle : (l ++ [x]).length ≤ n := by simpa using Nat.succ_le_of_lt h
    rw [take_of_length_le (Nat.le_of_lt h), take_of_length_le hle]
  · next h => rw [take_append_of_le_length (Nat.not_lt.mp h)]

/-- One more candidate, put where the ladder of tiers has it -/
theorem consider_ladder (cs : List (ℕ × SrvEntry)) (c : ℕ × SrvEntry) :
    srvSelStateConsider st q.now q.forWrite (ladder st q cs) c.1 c.2 (srvIsBlack q.now c.2) =
      ladder st q (cs ++ [c]) := by
  simp only [ladder, offers_concat]
  rw [srvSelStateConsider]
  split
  · next hblack =>
    have hclass : srvClass st q c.2 = .black := by rw [srvClass, if_pos hblack]
    simp [hclass, tierOf_concat, SrvClass.isLive]
  next hblack =>
  split
  · next hpeer =>
    have hclass : srvClass st q c.2 = .peer := by rw [srvClass, if_neg hblack, if_pos hpeer]
    simp [hclass, tierOf_concat, SrvClass.isLive]
  next hpeer =>
  split
  · next hspace =>
    have hclass : srvClass st q c.2 = .overloaded := by
      rw [srvClass, if_neg hblack, if_neg hpeer, if_pos hspace]
    simp [hclass, tierOf_concat, SrvClass.isLive]
  next hspace =>
  split
  · next hload =>
    have hclass : srvClass st q c.2 = .overloaded := by
      rw [srvClass, if_neg hblack, if_neg hpeer, if_neg hspace, if_pos hload]
    simp [hclass, tierOf_concat, SrvClass.isLive]
  next hload =>
  split
  · next hstale =>
    have hclass : srvClass st q c.2 = .stale := by
      rw [srvClass, if_neg hblack, if_neg hpeer, if_neg hspace, if_neg hload, if_pos hstale]
    simp [hclass, tierOf_concat, SrvClass.isLive]
  · next hstale =>
    have hclass : srvClass st q c.2 = .fresh := by
      rw [srvClass, if_neg hblack, if_neg hpeer, if_neg hspace, if_neg hload, if_neg hstale]
    simp [hclass, tierOf_concat, SrvClass.isLive, take_concat_of_cap]

theorem srvSelectScan_ladder (st : SrvState) (q : SrvQuery) :
    srvSelectScan st q.tbl q.now q.path q.forWrite q.allowBlacklisted =
      ladder st q q.candidates := by
  rw [srvSelectScan_eq]
  induction q.candidates using reverseRecOn with
  | nil => rfl
  | append_singleton cs c ih =>
    rw [foldl_append, ih]
    exact consider_ladder cs c

/-! ## The winner -/

/-- A candidate of the first class that is not empty -/
structure TopClass (st : SrvState) (q : SrvQuery) (cs : List (ℕ × SrvEntry)) (i : ℕ)
    (e : SrvEntry) : Prop where
  mem : (i, e) ∈ cs
  top : ∀ j e', (j, e') ∈ cs → (srvClass st q e).rank ≤ (srvClass st q e').rank

theorem SrvClass.isLive_iff : c.isLive = true ↔ c = .fresh ∨ c = .stale := by
  cases c <;> simp [SrvClass.isLive]

/-- There is no candidate on the first rungs of the ladder. -/
def EmptyBelow (st : SrvState) (q : SrvQuery) (cs : List (ℕ × SrvEntry)) (n : ℕ) : Prop :=
  ∀ j e, (j, e) ∈ cs → n ≤ (srvClass st q e).rank

theorem EmptyBelow.succ (h : EmptyBelow st q cs c.rank)
    (hc : p c = true) (hnone : tierOf q.forWrite (offers st q p cs) = none) :
    EmptyBelow st q cs (c.rank + 1) := by
  intro j e hmem
  refine Nat.lt_of_le_of_ne (h j e hmem) fun hrank => ?_
  have hclass : c = srvClass st q e := by
    revert hrank
    cases c <;> cases srvClass st q e <;> simp [SrvClass.rank]
  have hno := none_of_tierOf hnone j e hmem
  rw [← hclass, hc] at hno
  cases hno

theorem top_of_tier {best : ℕ × UInt32}
    (hsorted : cs.Pairwise fun c c' => c.1 < c'.1) (h : EmptyBelow st q cs c.rank)
    (htier : tierOf q.forWrite (offers st q p cs) = some best)
    (hp : ∀ c', p c' = true → c.rank ≤ c'.rank → c' = c) :
    ∃ e, TopClass st q cs best.1 e ∧ FirstBest st q (· = srvClass st q e) cs best.1 e := by
  obtain ⟨e, hbest, -⟩ := firstBest_of_tierOf hsorted htier
  have hclass := hp _ hbest.isOf (h _ _ hbest.mem)
  refine ⟨e, ⟨hbest.mem, fun j e' hmem => hclass ▸ h j e' hmem⟩, hbest.mem, by simp, ?_, ?_⟩
  · exact fun j e' hmem hsame => hbest.best j e' hmem (of_decide_eq_true hsame ▸ hbest.isOf)
  · exact fun j e' hmem hsame => hbest.first j e' hmem (of_decide_eq_true hsame ▸ hbest.isOf)

/-- What the ladder comes to: nothing if there was no candidate, or the first of the best of the
first class that is not empty. -/
theorem winner_cases (hsorted : cs.Pairwise fun c c' => c.1 < c'.1) :
    (cs = [] ∧ srvSelStateWinner (ladder st q cs) = none) ∨
      ∃ i e, srvSelStateWinner (ladder st q cs) = some i ∧ TopClass st q cs i e ∧
        FirstBest st q (· = srvClass st q e) cs i e := by
  simp only [srvSelStateWinner, ladder]
  have hzero : EmptyBelow st q cs SrvClass.fresh.rank := fun j e hmem => Nat.zero_le _
  cases hfresh : tierOf q.forWrite (offers st q (· = .fresh) cs) with
  | some best =>
    obtain ⟨e, htop, hbest⟩ := top_of_tier hsorted hzero hfresh (by simp)
    exact .inr ⟨best.1, e, by simp, htop, hbest⟩
  | none =>
  have hone : EmptyBelow st q cs SrvClass.stale.rank := hzero.succ (by simp) hfresh
  cases hany : tierOf q.forWrite (offers st q SrvClass.isLive cs) with
  | some best =>
    -- the tier takes fresh ones too, of which there are none here
    obtain ⟨e, htop, hbest⟩ := top_of_tier hsorted hone hany fun c hc hle => by
      cases c <;> first | rfl | exact absurd hle (by decide) | cases hc
    exact .inr ⟨best.1, e, by simp, htop, hbest⟩
  | none =>
  have htwo : EmptyBelow st q cs SrvClass.overloaded.rank := hone.succ rfl hany
  cases hover : tierOf q.forWrite (offers st q (· = .overloaded) cs) with
  | some best =>
    obtain ⟨e, htop, hbest⟩ := top_of_tier hsorted htwo hover (by simp)
    exact .inr ⟨best.1, e, by simp, htop, hbest⟩
  | none =>
  have hthree : EmptyBelow st q cs SrvClass.peer.rank := htwo.succ (by simp) hover
  cases hpeer : tierOf q.forWrite (offers st q (· = .peer) cs) with
  | some best =>
    obtain ⟨e, htop, hbest⟩ := top_of_tier hsorted hthree hpeer (by simp)
    exact .inr ⟨best.1, e, by simp, htop, hbest⟩
  | none =>
  have hfour : EmptyBelow st q cs SrvClass.black.rank := hthree.succ (by simp) hpeer
  cases hblack : tierOf q.forWrite (offers st q (· = .black) cs) with
  | some best =>
    obtain ⟨e, htop, hbest⟩ := top_of_tier hsorted hfour hblack (by simp)
    exact .inr ⟨best.1, e, by simp, htop, hbest⟩
  | none =>
    refine .inl ⟨eq_nil_iff_forall_not_mem.mpr fun ⟨j, e⟩ hmem => ?_, rfl⟩
    have hfive := hfour.succ (by simp) hblack j e hmem
    cases hclass : srvClass st q e <;> rw [hclass] at hfive <;> exact absurd hfive (by decide)

/-! ## The fuzz band -/

theorem WithinFuzz.of_not_beats {fuzz : ℕ} {best best' : UInt32}
    (h : WithinFuzz forWrite fuzz best.toNat m.toNat) (hbeats : ¬ metricBeats forWrite best' best) :
    WithinFuzz forWrite fuzz best'.toNat m.toNat := by
  cases forWrite with
  | true =>
    have hle : best'.toNat ≤ best.toNat :=
      Nat.not_lt.mp fun hlt => hbeats (UInt32.lt_iff_toNat_lt.mpr hlt)
    exact (Nat.div_le_div_right (Nat.mul_le_mul_right _ hle)).trans h
  | false =>
    have hle : best.toNat ≤ best'.toNat :=
      Nat.not_lt.mp fun hlt => hbeats (UInt32.lt_iff_toNat_lt.mpr hlt)
    exact Nat.le_trans h (Nat.div_le_div_right (Nat.mul_le_mul_right _ hle))

theorem withinFuzz_self (forWrite : Bool) (fuzz m : ℕ) : WithinFuzz forWrite fuzz m m := by
  cases forWrite with
  | true =>
    refine Nat.div_le_of_le_mul ?_
    rw [Nat.mul_comm 100 m]
    exact Nat.mul_le_mul_left _ (Nat.sub_le _ _)
  | false =>
    refine (Nat.le_div_iff_mul_le (by decide)).mpr ?_
    exact Nat.mul_le_mul_left _ (Nat.le_add_right _ _)

/-- The band in machine words is no wider than the fuzz allows. -/
theorem withinFuzz_of_inBand {best : UInt32} (hcap : st.sched.fuzz ≤ 100)
    (h : srvSelInBand st forWrite best m = true) :
    WithinFuzz forWrite st.sched.fuzz.toNat best.toNat m.toNat := by
  have hfuzz : st.sched.fuzz.toNat ≤ 100 := UInt64.le_iff_toNat_le.mp hcap
  have hbest := best.toNat_lt
  cases forWrite with
  | true =>
    have hle : best.toUInt64 * (100 - st.sched.fuzz) / 100 ≤ m.toUInt64 := by
      simpa [srvSelInBand] using h
    have hbound : best.toNat * (100 - st.sched.fuzz.toNat) < 2 ^ 64 :=
      Nat.lt_of_le_of_lt (Nat.mul_le_mul (Nat.le_of_lt hbest) (Nat.sub_le _ _)) (by decide)
    have hle := UInt64.le_iff_toNat_le.mp hle
    have hdiff : (100 - st.sched.fuzz).toNat = 100 - st.sched.fuzz.toNat :=
      UInt64.toNat_sub_of_le _ _ hcap
    rw [UInt64.toNat_div, UInt64.toNat_mul, hdiff, UInt32.toNat_toUInt64, UInt32.toNat_toUInt64,
      Nat.mod_eq_of_lt hbound] at hle
    exact hle
  | false =>
    have hle : m.toUInt64 ≤ best.toUInt64 * (100 + st.sched.fuzz) / 100 := by
      simpa [srvSelInBand] using h
    have hbound : best.toNat * (100 + st.sched.fuzz.toNat) < 2 ^ 64 :=
      Nat.lt_of_le_of_lt (Nat.mul_le_mul (Nat.le_of_lt hbest) (Nat.add_le_add_left hfuzz 100))
        (by decide)
    have hle := UInt64.le_iff_toNat_le.mp hle
    have hsum : (100 + st.sched.fuzz).toNat = 100 + st.sched.fuzz.toNat := by
      rw [UInt64.toNat_add]
      exact Nat.mod_eq_of_lt (Nat.lt_of_le_of_lt (Nat.add_le_add_left hfuzz 100) (by decide))
    rw [UInt64.toNat_div, UInt64.toNat_mul, hsum, UInt32.toNat_toUInt64, UInt32.toNat_toUInt64,
      Nat.mod_eq_of_lt hbound] at hle
    exact hle

theorem srvSelFuzzPick_cases (st : SrvState) (forWrite : Bool) (sel : SrvSelState)
    (best : Option ℕ) (rotate : UInt64) :
    (srvSelFuzzPick st forWrite sel best rotate).1 = best ∨
      st.sched.fuzz ≠ 0 ∧ 2 ≤ sel.freshCands.length ∧ ∃ top cand, sel.fresh = some top ∧
        cand ∈ sel.freshCands ∧ srvSelInBand st forWrite top.2 cand.2 = true ∧
        (srvSelFuzzPick st forWrite sel best rotate).1 = some cand.1 := by
  rw [srvSelFuzzPick]
  split
  · exact .inl rfl
  next hon =>
  obtain ⟨hfuzz, hon⟩ := not_or.mp hon
  have hmany := Nat.not_lt.mp (not_or.mp hon).1
  cases hfresh : sel.fresh with
  | none => exact .inl rfl
  | some top =>
    dsimp only
    split
    · exact .inl rfl
    · next hband =>
      have hpos := Nat.lt_of_lt_of_le Nat.two_pos (Nat.not_lt.mp hband)
      have hget := getElem?_eq_getElem (Nat.mod_lt rotate.toNat hpos)
      obtain ⟨hmem, hin⟩ := mem_filter.mp (mem_of_getElem? hget)
      exact .inr ⟨hfuzz, hmany, top, _, rfl, hmem, hin, by rw [hget]; rfl⟩

/-! ## The choice -/

/-- `best` at the end of a selection -/
def SrvQuery.best (st : SrvState) (q : SrvQuery) (rotate : UInt64) : Option ℕ :=
  (srvSelectBest st q.tbl q.now rotate q.path q.forWrite q.allowBlacklisted).1

/-- The fresh candidates with their metrics, in the order of the slots -/
def SrvQuery.freshOffers (st : SrvState) (q : SrvQuery) : List (ℕ × UInt32) :=
  offers st q (· = .fresh) q.candidates

theorem best_of_affinity (haffinity : st.affinity = true)
    (hmany : 1 < ((q.freshOffers st).take srvSelAffinityMax).length) :
    q.best st rotate = (((q.freshOffers st).take srvSelAffinityMax)[(srvSelPathHash q.path).toNat %
      ((q.freshOffers st).take srvSelAffinityMax).length]?).map Prod.fst := by
  rw [SrvQuery.best, srvSelectBest, srvSelectScan_ladder]
  exact congrArg Prod.fst (if_pos ⟨haffinity, hmany⟩)

theorem best_of_fuzz (h : ¬ (st.affinity = true ∧
    1 < ((q.freshOffers st).take srvSelAffinityMax).length)) :
    q.best st rotate = (srvSelFuzzPick st q.forWrite (ladder st q q.candidates)
      (srvSelStateWinner (ladder st q q.candidates)) rotate).1 := by
  rw [SrvQuery.best, srvSelectBest, srvSelectScan_ladder]
  exact congrArg Prod.fst (if_neg h)

theorem topClass_of_fresh (h : (i, m) ∈ q.freshOffers st) :
    ∃ e, TopClass st q q.candidates i e ∧ srvClass st q e = .fresh ∧
      srvSelMetric st e q.forWrite = m := by
  obtain ⟨e, hmem, hfresh, hm⟩ := mem_offers.mp h
  have hclass := of_decide_eq_true hfresh
  refine ⟨e, ⟨hmem, fun j e' _ => ?_⟩, hclass, hm⟩
  rw [hclass]
  exact Nat.zero_le _

/-- What a choice is: of the first class that is not empty, the first of the best of it without
affinity and fuzz, and within the band with fuzz alone. -/
structure Chosen (st : SrvState) (q : SrvQuery) (i : ℕ) (e : SrvEntry) : Prop where
  top : TopClass st q q.candidates i e
  plain : st.affinity = false → st.sched.fuzz = 0 →
    FirstBest st q (· = srvClass st q e) q.candidates i e
  band : st.affinity = false → st.sched.fuzz ≤ 100 → ∀ j e', (j, e') ∈ q.candidates →
    srvClass st q e' = srvClass st q e →
      WithinFuzz q.forWrite st.sched.fuzz.toNat (srvSelMetric st e' q.forWrite).toNat
        (srvSelMetric st e q.forWrite).toNat

theorem Chosen.of_winner (htop : TopClass st q q.candidates i e)
    (hbest : FirstBest st q (· = srvClass st q e) q.candidates i e) : Chosen st q i e where
  top := htop
  plain _ _ := hbest
  band _ _ j e' hmem hclass :=
    (withinFuzz_self _ _ _).of_not_beats (hbest.best j e' hmem (decide_eq_true hclass))

/-- The choice is one of the best tier's, and there is one if any server is a candidate. -/
theorem best_cases (st : SrvState) (q : SrvQuery) (rotate : UInt64) :
    (q.candidates = [] ∧ q.best st rotate = none) ∨
      ∃ i e, q.best st rotate = some i ∧ Chosen st q i e := by
  by_cases haffinity : st.affinity = true ∧
      1 < ((q.freshOffers st).take srvSelAffinityMax).length
  · -- the path picks one of the fresh candidates
    have hget := getElem?_eq_getElem
      (Nat.mod_lt (srvSelPathHash q.path).toNat (Nat.zero_lt_of_lt haffinity.2))
    obtain ⟨e, htop, -, -⟩ :=
      topClass_of_fresh (mem_of_mem_take (mem_of_getElem? hget))
    refine .inr ⟨_, e, by rw [best_of_affinity haffinity.1 haffinity.2, hget]; rfl, htop, ?_, ?_⟩
    · intro hoff
      rw [haffinity.1] at hoff
      cases hoff
    · intro hoff
      rw [haffinity.1] at hoff
      cases hoff
  rw [best_of_fuzz haffinity]
  obtain hsame | ⟨hfuzz, -, top, cand, hfresh, hmem, hin, hpick⟩ :=
    srvSelFuzzPick_cases st q.forWrite (ladder st q q.candidates)
      (srvSelStateWinner (ladder st q q.candidates)) rotate
  · rw [hsame]
    obtain ⟨hnil, hnone⟩ | ⟨i, e, hwin, htop, hbest⟩ := winner_cases (candidates_pairwise q)
    · exact .inl ⟨hnil, hnone⟩
    · exact .inr ⟨i, e, hwin, .of_winner htop hbest⟩
  · obtain ⟨e, htop, hclass, hm⟩ := topClass_of_fresh (mem_of_mem_take hmem)
    refine .inr ⟨cand.1, e, hpick, htop, fun _ hzero => absurd hzero hfuzz, ?_⟩
    intro _ hcap j e' hmem' hclass'
    obtain ⟨e₀, hbest, hm₀⟩ := firstBest_of_tierOf (candidates_pairwise q) hfresh
    rw [hm]
    refine (withinFuzz_of_inBand hcap hin).of_not_beats ?_
    rw [← hm₀]
    exact hbest.best j e' hmem' (decide_eq_true (hclass'.trans hclass))

/-- With affinity a path always goes to the same fresh server. -/
theorem best_eq_of_affinity (haffinity : st.affinity = true) (hne : q.freshOffers st ≠ []) :
    q.best st rotate =
      (((q.freshOffers st).map Prod.fst).take srvSelAffinityMax)[(srvSelPathHash q.path).toNat %
        (((q.freshOffers st).map Prod.fst).take srvSelAffinityMax).length]? := by
  by_cases hmany : 1 < ((q.freshOffers st).take srvSelAffinityMax).length
  · rw [← map_take, length_map, getElem?_map]
    exact best_of_affinity haffinity hmany
  · -- one fresh candidate: the winner of the ladder
    rw [best_of_fuzz fun h => hmany h.2]
    obtain ⟨x, hx⟩ : ∃ x, q.freshOffers st = [x] := by
      cases hf : q.freshOffers st with
      | nil => exact absurd hf hne
      | cons x rest =>
        rw [hf] at hmany
        cases rest with
        | nil => exact ⟨x, rfl⟩
        | cons y rest => simp [srvSelAffinityMax] at hmany
    have hcands : (ladder st q q.candidates).freshCands = [x] := by
      change (q.freshOffers st).take srvSelAffinityMax = [x]
      rw [hx]
      rfl
    have hfresh : (ladder st q q.candidates).fresh = some x := by
      change tierOf q.forWrite (q.freshOffers st) = some x
      rw [hx]
      rfl
    have hwin : srvSelStateWinner (ladder st q q.candidates) = some x.1 := by
      rw [srvSelStateWinner, hfresh]
      rfl
    obtain hsame | ⟨-, htwo, -⟩ := srvSelFuzzPick_cases st q.forWrite (ladder st q q.candidates)
      (srvSelStateWinner (ladder st q q.candidates)) rotate
    · have hone : ([x].map Prod.fst).take srvSelAffinityMax = [x.1] := rfl
      rw [hsame, hwin, hx, hone, length_singleton, Nat.mod_one]
      rfl
    · rw [hcands] at htwo
      exact absurd htwo (Nat.not_succ_le_self 1)

/-! ## The answer -/

/-- What a selection answers: the host as far as the buffer holds it, and the port -/
def SrvQuery.answer (st : SrvState) (q : SrvQuery) (rotate : UInt64) (hostSize : ℕ) :
    Option (List UInt8 × UInt16) :=
  (srvSelectCore st q.tbl q.now rotate q.path q.forWrite q.allowBlacklisted hostSize).1

theorem answer_of_best (hbest : q.best st rotate = some i)
    (hmem : (i, e) ∈ q.candidates) (hostSize : ℕ) :
    q.answer st rotate hostSize = some (ngxCpystrn e.host hostSize, e.port) := by
  have hslot := (mem_candidates.mp hmem).slot
  have hanswer : q.answer st rotate hostSize = (q.best st rotate).bind fun i =>
      (q.tbl[i]?).join.map fun e => (ngxCpystrn e.host hostSize, e.port) := rfl
  rw [hanswer, hbest, Option.bind_some, hslot]
  rfl

theorem mem_freshOffers :
    i ∈ (q.freshOffers st).map Prod.fst ↔ ∃ host port, q.Fresh st i host port := by
  simp only [SrvQuery.freshOffers, mem_map, Prod.exists, exists_and_right, exists_eq_right]
  constructor
  · rintro ⟨m, hm⟩
    obtain ⟨e, hmem, hclass, -⟩ := mem_offers.mp hm
    exact ⟨e.host, e.port, e, mem_candidates.mp hmem, of_decide_eq_true hclass, rfl, rfl⟩
  · rintro ⟨host, port, e, hcand, hclass, -, -⟩
    exact ⟨_, mem_offers.mpr ⟨e, mem_candidates.mpr hcand, decide_eq_true hclass, rfl⟩⟩

theorem freshOffers_pairwise (st : SrvState) (q : SrvQuery) :
    ((q.freshOffers st).map Prod.fst).Pairwise (· < ·) :=
  pairwise_map.mpr (offers_pairwise (candidates_pairwise q))

theorem answer_of_affinity (haffinity : st.affinity = true)
    (hsome : ∃ i host port, q.Fresh st i host port) :
    ∃ i host port, q.Fresh st i host port ∧
      (((q.freshOffers st).map Prod.fst).take srvSelAffinityMax)[(srvSelPathHash q.path).toNat %
        (((q.freshOffers st).map Prod.fst).take srvSelAffinityMax).length]? = some i ∧
      ∀ rotate hostSize, q.answer st rotate hostSize = some (ngxCpystrn host hostSize, port) := by
  obtain ⟨i₀, hi₀⟩ := hsome
  have hmem₀ := mem_freshOffers.mpr hi₀
  have hne : q.freshOffers st ≠ [] := fun hnil => by
    rw [hnil] at hmem₀
    cases hmem₀
  have hpos : 0 < (((q.freshOffers st).map Prod.fst).take srvSelAffinityMax).length := by
    rw [length_take, length_map]
    exact Nat.lt_min.mpr ⟨by decide, length_pos_of_ne_nil hne⟩
  have hget := getElem?_eq_getElem (Nat.mod_lt (srvSelPathHash q.path).toNat hpos)
  obtain ⟨host, port, hfresh⟩ :=
    mem_freshOffers.mp (mem_of_mem_take (mem_of_getElem? hget))
  refine ⟨_, host, port, hfresh, hget, fun rotate hostSize => ?_⟩
  obtain ⟨e, hcand, -, rfl, rfl⟩ := hfresh
  exact answer_of_best ((best_eq_of_affinity haffinity hne).trans hget) (mem_candidates.mpr hcand)
    hostSize

/-- While the fresh candidates are the same servers in the same slots, and there is one, a path is
answered with the same server. -/
theorem answer_eq_of_affinity {q' : SrvQuery} (haffinity : st.affinity = true)
    (hpath : q'.path = q.path)
    (hfresh : ∀ i host port, q'.Fresh st i host port ↔ q.Fresh st i host port)
    (hsome : ∃ i host port, q.Fresh st i host port) (rotate rotate' : UInt64) (hostSize : ℕ) :
    q'.answer st rotate' hostSize = q.answer st rotate hostSize := by
  have hslots : (q'.freshOffers st).map Prod.fst = (q.freshOffers st).map Prod.fst := by
    refine (freshOffers_pairwise st q').eq_of_mem_iff (freshOffers_pairwise st q) fun i => ?_
    rw [mem_freshOffers, mem_freshOffers]
    simp only [hfresh]
  obtain ⟨i, host, port, hthere, hi, hanswer⟩ := answer_of_affinity haffinity hsome
  obtain ⟨i', host', port', hthere', hi', hanswer'⟩ := answer_of_affinity (q := q') haffinity
    (by simpa only [hfresh] using hsome)
  rw [hslots, hpath, hi] at hi'
  cases hi'
  -- one slot holds one entry
  obtain ⟨e, hcand, -, rfl, rfl⟩ := hthere
  obtain ⟨e', hcand', -, rfl, rfl⟩ := (hfresh _ _ _).mp hthere'
  obtain rfl := Option.some.inj (Option.some.inj (hcand.slot.symm.trans hcand'.slot))
  rw [hanswer', hanswer]

/-- **Selection.** There is an answer exactly when there is a candidate. It is of the first class
that is not empty; without affinity and fuzz the first of the best there, with fuzz alone within the
band of all there; and with affinity it stays the same while the fresh candidates do and there
is one. -/
theorem srv_select_core_spec (st : SrvState) (q : SrvQuery) (rotate : UInt64) (hostSize : ℕ) :
    (q.answer st rotate hostSize = none ↔ ∀ i e, ¬ q.Candidate i e) ∧
      (∀ host port, q.answer st rotate hostSize = some (host, port) →
        ∃ i e, q.Candidate i e ∧ host = ngxCpystrn e.host hostSize ∧ port = e.port ∧
          (∀ j e', q.Candidate j e' → (srvClass st q e).rank ≤ (srvClass st q e').rank) ∧
          (st.affinity = false → st.sched.fuzz = 0 → ∀ j e', q.Candidate j e' →
            srvClass st q e' = srvClass st q e →
              ¬ metricBeats q.forWrite (srvSelMetric st e' q.forWrite)
                (srvSelMetric st e q.forWrite) ∧
              (srvSelMetric st e' q.forWrite = srvSelMetric st e q.forWrite → i ≤ j)) ∧
          (st.affinity = false → st.sched.fuzz ≤ 100 → ∀ j e', q.Candidate j e' →
            srvClass st q e' = srvClass st q e →
              WithinFuzz q.forWrite st.sched.fuzz.toNat (srvSelMetric st e' q.forWrite).toNat
                (srvSelMetric st e q.forWrite).toNat)) ∧
      (st.affinity = true → (∃ i host port, q.Fresh st i host port) →
        ∀ (q' : SrvQuery) (rotate' : UInt64), q'.path = q.path →
          (∀ i host port, q'.Fresh st i host port ↔ q.Fresh st i host port) →
            q'.answer st rotate' hostSize = q.answer st rotate hostSize) := by
  refine ⟨?_, ?_, fun haffinity hsome q' rotate' hpath hfresh =>
    answer_eq_of_affinity haffinity hpath hfresh hsome rotate rotate' hostSize⟩
  · obtain ⟨hnil, hnone⟩ | ⟨i, e, hbest, hchosen⟩ := best_cases st q rotate
    · refine iff_of_true ?_ fun i e hcand => ?_
      · change (q.best st rotate).bind _ = none
        rw [hnone]
        rfl
      · have hmem := mem_candidates.mpr hcand
        rw [hnil] at hmem
        cases hmem
    · rw [answer_of_best hbest hchosen.top.mem]
      exact iff_of_false (fun h => by cases h) fun h => h i e (mem_candidates.mp hchosen.top.mem)
  · intro host port hanswer
    obtain ⟨-, hnone⟩ | ⟨i, e, hbest, hchosen⟩ := best_cases st q rotate
    · change (q.best st rotate).bind _ = _ at hanswer
      rw [hnone] at hanswer
      cases hanswer
    · rw [answer_of_best hbest hchosen.top.mem] at hanswer
      obtain ⟨rfl, rfl⟩ := Prod.mk.inj (Option.some.inj hanswer)
      refine ⟨i, e, mem_candidates.mp hchosen.top.mem, rfl, rfl, fun j e' hcand =>
        hchosen.top.top j e' (mem_candidates.mpr hcand), ?_, ?_⟩
      · intro hoff hzero j e' hcand hclass
        have hbest := hchosen.plain hoff hzero
        have hmem := mem_candidates.mpr hcand
        exact ⟨hbest.best j e' hmem (decide_eq_true hclass),
          hbest.first j e' hmem (decide_eq_true hclass)⟩
      · exact fun hoff hcap j e' hcand hclass =>
          hchosen.band hoff hcap j e' (mem_candidates.mpr hcand) hclass

def sampleAffinity : SrvState where
  staleAfterMs := 10
  loadWeight := 0
  affinity := true
  sched := ⟨0, 0, 0, 0, 0, 0, 0, 0⟩
  enforce := false

/-- Two servers last seen at time 0, asked about at time 100 -/
def sampleStale (utilA utilB : UInt32) : SrvQuery where
  tbl := [some (srvFirstRegister [97] 1094 [47] 0 utilA 0),
    some (srvFirstRegister [98] 1094 [47] 0 utilB 0)]
  now := 100
  path := [47, 102]
  forWrite := false
  allowBlacklisted := false

/-- Without a fresh candidate it is the metric of the stale ones that decides, also with
affinity. -/
theorem stale_server_changes : ¬∀ (st : SrvState) (q q' : SrvQuery) (rotate rotate' : UInt64)
    (hostSize : ℕ), st.affinity = true → q'.path = q.path →
      (∀ i host port, q'.Fresh st i host port ↔ q.Fresh st i host port) →
        q'.answer st rotate' hostSize = q.answer st rotate hostSize := by
  intro h
  have hstale : ∀ c ∈ (sampleStale 1 2).candidates,
      srvClass sampleAffinity (sampleStale 1 2) c.2 = .stale := by decide
  have hstale' : ∀ c ∈ (sampleStale 2 1).candidates,
      srvClass sampleAffinity (sampleStale 2 1) c.2 = .stale := by decide
  have hnone : ∀ i host port, ¬ (sampleStale 1 2).Fresh sampleAffinity i host port := by
    rintro i host port ⟨e, hcand, hclass, -, -⟩
    rw [hstale _ (mem_candidates.mpr hcand)] at hclass
    cases hclass
  have hnone' : ∀ i host port, ¬ (sampleStale 2 1).Fresh sampleAffinity i host port := by
    rintro i host port ⟨e, hcand, hclass, -, -⟩
    rw [hstale' _ (mem_candidates.mpr hcand)] at hclass
    cases hclass
  have hsame := h sampleAffinity (sampleStale 1 2) (sampleStale 2 1) 0 0 256 rfl rfl
    fun i host port => iff_of_false (hnone' i host port) (hnone i host port)
  exact absurd hsame (by decide)

end BrixCache

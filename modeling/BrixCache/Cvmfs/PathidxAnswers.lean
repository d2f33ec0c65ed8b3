import BrixCache.Cvmfs.PathidxRead
import BrixCache.Lib.SortedRuns

/-!
# The index answers like its entries

`PathidxAnswering` is what an index that was written from a sorted list has for its readers: each
entry with its dirent, and a table from which a probe reaches it. A lookup probes up to the first
bucket that is empty or names the path, and a listing finds the run of its directory.
-/

namespace BrixCache

open LinearProbe Segments SortedRuns List

/-! ## What a reader has -/

def pathDir (path : Bytes) : Bytes := (beforeLast slash path).getD []

def leafOf (path : Bytes) : Bytes :=
  (beforeLast slash path).elim [] fun dir => path.drop (dir.length + 1)

/-- How an entry of the file stands for one of the builder -/
structure PathidxReads (ix : Pathidx) (be : PathidxBent) (e : PathidxEnt) : Prop where
  valid : entValid ix e = .ok true
  len : e.pathLen.toNat = be.path.length
  whole : ix.blob e.pathOff be.path.length = .ok be.path
  fill : entFill ix e = .ok (bentDirent be (leafOf be.path))
  cmp : ∀ d, dirCmp ix e d = .ok (compare (pathDir be.path) d)

/-- The entries of a list and a table of `2 ^ k` buckets that finds them -/
structure PathidxAnswering (ix : Pathidx) (v : List PathidxBent) (k : ℕ) (s : ℕ → Option ℕ) :
    Prop where
  count : ix.hdr.count.toNat = v.length
  nbuckets : ix.hdr.nbuckets.toNat = 2 ^ k
  ent : ∀ i be, v[i]? = some be → ∃ e, ix.ent (UInt64.ofNat i) = .ok e ∧ PathidxReads ix be e
  bucket : ∀ slot : UInt64, slot.toNat < 2 ^ k →
    ∃ w, ix.bucket slot = .ok w ∧ bucketIndex w = s slot.toNat
  reachable : Reachable (entHome v (2 ^ k)) (2 ^ k) s
  holds : ∀ i, Holds (2 ^ k) s i ↔ i < v.length
  empty : ∃ z < 2 ^ k, s z = none

namespace PathidxAnswering

variable {ix : Pathidx} {v : List PathidxBent} {k : ℕ} {s : ℕ → Option ℕ}
  (ha : PathidxAnswering ix v k s)

include ha

/-! ## A lookup -/

theorem mask : (ix.hdr.nbuckets - 1).toNat = 2 ^ k - 1 := by
  have hpos := Nat.two_pow_pos k
  have hle : (1 : UInt64) ≤ ix.hdr.nbuckets := by
    rw [UInt64.le_iff_toNat_le, ha.nbuckets]
    exact hpos
  rw [UInt64.toNat_sub_of_le _ _ hle, ha.nbuckets]
  rfl

theorem home (path : Bytes) :
    (pathidxFnv1a path &&& (ix.hdr.nbuckets - 1)).toNat = pathHome (2 ^ k) path := by
  rw [UInt64.toNat_and, ha.mask, pathHome]

variable {slot : UInt64} {i : ℕ} {be : PathidxBent} {path : Bytes}

theorem next (hs : slot.toNat < 2 ^ k) :
    ((slot + 1) &&& (ix.hdr.nbuckets - 1)).toNat = LinearProbe.next (2 ^ k) slot.toNat := by
  rw [UInt64.toNat_and, ha.mask, toNat_add_one_of_lt (y := ix.hdr.nbuckets)
    (by rw [ha.nbuckets]; exact hs), next_two_pow hs]

theorem named (hs : slot.toNat < 2 ^ k) (hi : s slot.toNat = some i) :
    ∃ w e be, ix.bucket slot = .ok w ∧ w ≠ 0 ∧ ¬ix.hdr.count ≤ w.toUInt64 - 1 ∧
      ix.ent (w.toUInt64 - 1) = .ok e ∧ v[i]? = some be ∧ PathidxReads ix be e := by
  obtain ⟨w, hw, hindex⟩ := ha.bucket slot hs
  rw [hi, bucketIndex] at hindex
  have h0 : w ≠ 0 := by
    rintro rfl
    simp at hindex
  rw [if_neg h0] at hindex
  have hlt : i < v.length := (ha.holds i).mp ⟨slot.toNat, hs, hi⟩
  have hi := Option.some.inj hindex
  have hwlt := w.toNat_lt
  have hwpos : 1 ≤ w.toNat := by
    rcases Nat.eq_zero_or_pos w.toNat with h | h
    · exact absurd (UInt32.toNat_inj.mp h) h0
    · exact h
  have hsub : (w.toUInt64 - 1).toNat = i := by
    rw [UInt64.toNat_sub_of_le _ _ (by
      rw [UInt64.le_iff_toNat_le, UInt32.toNat_toUInt64]
      exact hwpos), UInt32.toNat_toUInt64]
    exact hi
  have hidx : w.toUInt64 - 1 = UInt64.ofNat i := by
    rw [← hsub, UInt64.ofNat_toNat]
  obtain ⟨e, he, hreads⟩ := ha.ent i v[i] (getElem?_eq_getElem hlt)
  refine ⟨w, e, v[i], hw, h0, ?_, hidx ▸ he, getElem?_eq_getElem hlt, hreads⟩
  rw [UInt64.le_iff_toNat_le, hsub, ha.count]
  omega

theorem probe_pass (hs : slot.toNat < 2 ^ k) (hi : s slot.toNat = some i) (hbe : v[i]? = some be)
    (hne : be.path ≠ path) (probes : ℕ) :
    pathidxProbe ix path (probes + 1) slot =
      pathidxProbe ix path probes ((slot + 1) &&& (ix.hdr.nbuckets - 1)) := by
  obtain ⟨w, e, be', hw, h0, hcount, he, hbe', hr⟩ := ha.named hs hi
  obtain rfl := Option.some.inj (hbe'.symm.trans hbe)
  by_cases hlen : be'.path.length = path.length
  · have hwhole := hr.whole
    rw [hlen] at hwhole
    simp [pathidxProbe, hw, h0, hcount, he, hr.valid, hr.len, hlen, hwhole, hne, bind, Except.bind]
  · simp [pathidxProbe, hw, h0, hcount, he, hr.valid, hr.len, hlen, bind, Except.bind]

theorem probe_hit (hs : slot.toNat < 2 ^ k) (hi : s slot.toNat = some i) (hbe : v[i]? = some be)
    (heq : be.path = path) (probes : ℕ) :
    pathidxProbe ix path (probes + 1) slot = .ok (.found (bentDirent be (leafOf be.path))) := by
  obtain ⟨w, e, be', hw, h0, hcount, he, hbe', hr⟩ := ha.named hs hi
  obtain rfl := Option.some.inj (hbe'.symm.trans hbe)
  subst heq
  simp [pathidxProbe, hw, h0, hcount, he, hr.valid, hr.len, hr.whole, hr.fill, bind, Except.bind,
    Except.map]

theorem probe_miss (hs : slot.toNat < 2 ^ k) (hnone : s slot.toNat = none) (probes : ℕ) :
    pathidxProbe ix path (probes + 1) slot = .ok .absent := by
  obtain ⟨w, hw, hindex⟩ := ha.bucket slot hs
  rw [hnone, bucketIndex_eq_none] at hindex
  simp [pathidxProbe, hw, hindex, bind, Except.bind]

/-- The buckets that end a lookup -/
def Stops (s : ℕ → Option ℕ) (v : List PathidxBent) (path : Bytes) (i : ℕ) : Prop :=
  ∀ j, s i = some j → ∀ be, v[j]? = some be → be.path = path

theorem probe_reaches {a d : ℕ} (hhome : a < 2 ^ k) (hd : d < 2 ^ k)
    (hpass : ∀ c < d, ¬Stops s v path (ahead (2 ^ k) a c)) {answer : PathidxAnswer}
    (hstop : ∀ (slot : UInt64) (probes : ℕ), slot.toNat = ahead (2 ^ k) a d →
      pathidxProbe ix path (probes + 1) slot = .ok answer)
    {probes c : ℕ} (hslot : slot.toNat = ahead (2 ^ k) a c) (hc : c ≤ d)
    (hprobes : d - c < probes) : pathidxProbe ix path probes slot = .ok answer := by
  induction probes generalizing c slot with
  | zero => omega
  | succ probes ih =>
    rcases Nat.lt_or_ge c d with hlt | hge
    · have hin : slot.toNat < 2 ^ k := by
        rw [hslot]
        exact ahead_lt hhome (by omega)
      have hgo := hpass c hlt
      rw [← hslot, Stops] at hgo
      push Not at hgo
      obtain ⟨i, hi, be, hbe, hne⟩ := hgo
      rw [ha.probe_pass hin hi hbe hne]
      refine ih (c := c + 1) ?_ hlt (by omega)
      rw [ha.next hin, hslot, next_ahead hhome (by omega)]
    · obtain rfl : c = d := by omega
      exact hstop slot probes hslot

theorem exists_stop (path : Bytes) :
    ∃ d < 2 ^ k, Stops s v path (ahead (2 ^ k) (pathHome (2 ^ k) path) d) ∧
      ∀ c < d, ¬Stops s v path (ahead (2 ^ k) (pathHome (2 ^ k) path) c) := by
  obtain ⟨z, hz, hnone⟩ := ha.empty
  refine exists_first (pathHome_lt (Nat.two_pow_pos k) path) ⟨z, hz, ?_⟩
  intro j hj
  rw [hnone] at hj
  cases hj

theorem lookup_stop {d : ℕ} (hd : d < 2 ^ k)
    (hpass : ∀ c < d, ¬Stops s v path (ahead (2 ^ k) (pathHome (2 ^ k) path) c))
    {answer : PathidxAnswer}
    (hstop : ∀ (slot : UInt64) (probes : ℕ),
      slot.toNat = ahead (2 ^ k) (pathHome (2 ^ k) path) d →
        pathidxProbe ix path (probes + 1) slot = .ok answer) :
    cvmfsPathidxLookup ix path = .ok answer := by
  have hhome := pathHome_lt (Nat.two_pow_pos k) path
  refine ha.probe_reaches hhome hd hpass hstop (c := 0) ?_ (Nat.zero_le d) ?_
  · rw [ha.home, ahead_zero hhome]
  · rw [ha.nbuckets]
    exact hd

theorem lookup_mem (hdistinct : (v.map PathidxBent.path).Nodup) (hbe : be ∈ v) :
    cvmfsPathidxLookup ix be.path = .ok (.found (bentDirent be (leafOf be.path))) := by
  obtain ⟨i, hi, hget⟩ := mem_iff_getElem.mp hbe
  have hhome := pathHome_lt (Nat.two_pow_pos k) be.path
  obtain ⟨d, hd, hstop, hpass⟩ := ha.exists_stop be.path
  have hin := ahead_lt hhome hd
  cases hs : s (ahead (2 ^ k) (pathHome (2 ^ k) be.path) d) with
  | none =>
    -- an empty bucket before the entry's own would leave it out of reach
    refine absurd ((ha.holds i).mpr hi) (not_holds_of_empty ha.reachable hhome hin hs ?_ ?_)
    · rw [entHome, getElem?_eq_getElem hi, Option.elim_some, hget]
    · intro j hj hlt hsj
      rw [dist_ahead hhome hd] at hlt
      refine hpass _ hlt fun j' hj' be' hbe' => ?_
      rw [ahead_dist hhome hj, hsj] at hj'
      cases hj'
      rw [getElem?_eq_getElem hi, hget] at hbe'
      rw [Option.some.inj hbe']
  | some j =>
    have hj : j < v.length := (ha.holds j).mp ⟨_, hin, hs⟩
    have hpath := hstop j hs v[j] (getElem?_eq_getElem hj)
    have hij : v[j] = be := by
      have hinj := inj_on_of_nodup_map hdistinct (getElem_mem hj) hbe hpath
      exact hinj
    refine ha.lookup_stop hd hpass fun slot probes hslot => ?_
    refine ha.probe_hit (i := j) (by rw [hslot]; exact hin) (by rw [hslot, hs]) ?_ rfl probes
    rw [getElem?_eq_getElem hj, hij]

theorem lookup_not_mem (hnot : ∀ be ∈ v, be.path ≠ path) :
    cvmfsPathidxLookup ix path = .ok .absent := by
  have hhome := pathHome_lt (Nat.two_pow_pos k) path
  obtain ⟨d, hd, hstop, hpass⟩ := ha.exists_stop path
  have hin := ahead_lt hhome hd
  refine ha.lookup_stop hd hpass fun slot probes hslot => ?_
  refine ha.probe_miss (by rw [hslot]; exact hin) ?_ probes
  rw [hslot]
  cases hs : s (ahead (2 ^ k) (pathHome (2 ^ k) path) d) with
  | none => rfl
  | some j =>
    have hj : j < v.length := (ha.holds j).mp ⟨_, hin, hs⟩
    exact absurd (hstop j hs v[j] (getElem?_eq_getElem hj)) (hnot v[j] (getElem_mem hj))

/-! ## A listing -/

omit ha in
theorem search_end {dir : Bytes} (fuel : ℕ) {lo hi : UInt64} (h : ¬lo < hi) :
    pathidxSearch ix dir fuel lo hi = .ok (some lo) := by
  cases fuel <;> rw [pathidxSearch, if_neg h]

/-- The search stops at the first entry of the directory. -/
theorem search {dir : Bytes} {c : ℕ}
    (hbelow : ∀ i be, v[i]? = some be → (compare (pathDir be.path) dir = .lt ↔ i < c))
    (fuel : ℕ) (lo hi : UInt64) (hlo : lo.toNat ≤ c) (hhi : c ≤ hi.toNat)
    (hend : hi.toNat ≤ v.length) (hfuel : hi.toNat - lo.toNat ≤ fuel) :
    pathidxSearch ix dir fuel lo hi = .ok (some (UInt64.ofNat c)) := by
  have hdone : ∀ {lo hi : UInt64}, lo.toNat ≤ c → c ≤ hi.toNat → ¬lo < hi →
      lo = UInt64.ofNat c := by
    intro lo hi hlo hhi hge
    have hge' := UInt64.lt_iff_toNat_lt.not.mp hge
    have heq : lo.toNat = c := by omega
    rw [← heq, UInt64.ofNat_toNat]
  induction fuel generalizing lo hi with
  | zero =>
    have hge : ¬lo < hi := by
      rw [UInt64.lt_iff_toNat_lt]
      omega
    rw [search_end 0 hge, hdone hlo hhi hge]
  | succ fuel ih =>
    by_cases hlt : lo < hi
    · have hlt' := UInt64.lt_iff_toNat_lt.mp hlt
      have hmax := hi.toNat_lt
      have hmid : (lo + (hi - lo) / 2).toNat = lo.toNat + (hi.toNat - lo.toNat) / 2 := by
        have hsub := UInt64.toNat_sub_of_le hi lo (UInt64.le_iff_toNat_le.mpr (Nat.le_of_lt hlt'))
        simp only [UInt64.toNat_add, UInt64.toNat_div, hsub, UInt64.reduceToNat]
        omega
      have hmid1 := toNat_add_one_of_lt (x := lo + (hi - lo) / 2) (y := hi) (by omega)
      obtain ⟨be, hbe⟩ : ∃ be, v[(lo + (hi - lo) / 2).toNat]? = some be :=
        ⟨_, getElem?_eq_getElem (by omega)⟩
      obtain ⟨e, he, hr⟩ := ha.ent _ _ hbe
      rw [UInt64.ofNat_toNat] at he
      have hiff := hbelow _ _ hbe
      have hcmp := hr.cmp dir
      by_cases hbl : (lo + (hi - lo) / 2).toNat < c
      · have hgo := ih (lo + (hi - lo) / 2 + 1) hi (by omega) hhi hend (by omega)
        simp [pathidxSearch, hlt, he, hr.valid, hcmp, hiff.mpr hbl, hgo, bind, Except.bind]
      · have hgo := ih lo (lo + (hi - lo) / 2) hlo (by omega) (by omega) (by omega)
        simp [pathidxSearch, hlt, he, hr.valid, hcmp, mt hiff.mp hbl, hgo, bind, Except.bind]
    · rw [search_end (fuel + 1) hlt, hdone hlo hhi hlt]

/-- The walk gives the entries of the directory. -/
theorem walk (dir : Bytes) (left : ℕ) {i : UInt64} (hi : i.toNat + left = v.length) :
    pathidxWalk ix dir left i =
      .ok ((((v.drop i.toNat).takeWhile fun be => pathDir be.path = dir).filter
        fun be => be.path ≠ []).map fun be => bentDirent be (leafOf be.path), true) := by
  induction left generalizing i with
  | zero =>
    rw [drop_eq_nil_of_le (by omega)]
    rfl
  | succ left ih =>
    have hin : i.toNat < v.length := by omega
    have hnext := toNat_add_one_of_lt (x := i) (y := ix.hdr.count) (by rw [ha.count]; exact hin)
    have hgo := ih (i := i + 1) (by omega)
    rw [hnext] at hgo
    obtain ⟨be, hbe, hdrop⟩ : ∃ be, v[i.toNat]? = some be ∧
        v.drop i.toNat = be :: v.drop (i.toNat + 1) :=
      ⟨_, getElem?_eq_getElem hin, drop_eq_getElem_cons hin⟩
    obtain ⟨e, he, hr⟩ := ha.ent _ _ hbe
    rw [UInt64.ofNat_toNat] at he
    have hcmp := hr.cmp dir
    rw [hdrop]
    by_cases hdir : pathDir be.path = dir
    · rw [hdir, Std.ReflOrd.compare_self] at hcmp
      rw [takeWhile_cons_of_pos (by simpa using hdir)]
      have h0 : e.pathLen = 0 ↔ be.path = [] := by
        rw [← length_eq_zero_iff, ← hr.len]
        exact ⟨fun h => by rw [h]; rfl, fun h => UInt32.toNat_inj.mp h⟩
      by_cases hroot : be.path = []
      · simp [pathidxWalk, he, hr.valid, hcmp, h0.mpr hroot, hgo, hroot, bind, Except.bind]
      · simp [pathidxWalk, he, hr.valid, hcmp, mt h0.mp hroot, hr.fill, hgo, hroot, bind, Except.bind]
    · have hne : compare (pathDir be.path) dir ≠ .eq := fun h =>
        hdir (Std.LawfulEqOrd.eq_of_compare h)
      simp [pathidxWalk, he, hr.valid, hcmp, hne, hdir, bind, Except.bind]

theorem readdir (hdistinct : (v.map PathidxBent.path).Nodup)
    (hsorted : SortedBy (fun be => pathDir be.path) v) (hbe : be ∈ v)
    (hdir : be.flags &&& 1 ≠ 0) :
    cvmfsPathidxReaddir ix be.path =
      .ok (((v.filter fun x => pathDir x.path = be.path).filter fun x => x.path ≠ []).map
        fun x => bentDirent x (leafOf x.path), true) := by
  have hfound := ha.lookup_mem hdistinct hbe
  have hflags : ¬(bentDirent be (leafOf be.path)).flags &&& 1 = 0 := hdir
  obtain ⟨c, hc, hbelow, hrun⟩ := exists_lowerBound hsorted be.path
  have hcount := ha.count
  have hmax := ix.hdr.count.toNat_lt
  have hsearch := ha.search hbelow ix.hdr.count.toNat 0 ix.hdr.count
    (Nat.zero_le c) (by omega) (by omega) (Nat.sub_le _ _)
  have hcn : (UInt64.ofNat c).toNat = c := by
    rw [UInt64.toNat_ofNat', Nat.mod_eq_of_lt (by omega)]
  have hleft : (ix.hdr.count - UInt64.ofNat c).toNat = v.length - c := by
    rw [UInt64.toNat_sub_of_le _ _ (by rw [UInt64.le_iff_toNat_le]; omega), hcn, hcount]
  have hwalk := ha.walk be.path (ix.hdr.count - UInt64.ofNat c).toNat (i := UInt64.ofNat c)
    (by omega)
  rw [hcn, hrun] at hwalk
  simp only [cvmfsPathidxReaddir, hfound, hflags, hsearch, hwalk, if_false, bind, Except.bind]

end PathidxAnswering

end BrixCache

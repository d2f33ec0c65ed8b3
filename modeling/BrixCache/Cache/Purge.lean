import BrixCache.Cache.DirtyFlush
import Mathlib.Data.List.Sort

/-!
# The purge

`fs/cache/evict_candidates.c`, `fs/cache/evict_policy.c` and
`fs/cache/reap_watermark.c`: the candidate list of a purge, the visitor that
fills it, the order it is sorted in, and the loops that walk it. Which object a
walk of the store comes to next, and the occupancy the file system reports, are
inputs. The state root of a purge is its cache root, so an object's record lies
at the object's own path.
-/

namespace BrixCache

/-- A store key or a path, as bytes. -/
abbrev CachePath : Type := List UInt8

/-- The bytes of an ASCII literal. -/
def cBytes (s : String) : List UInt8 := s.toList.map fun c => UInt8.ofNat c.toNat

/-! ## Candidates -/

def cacheSkipName (name : CachePath) : Bool :=
  name.isEmpty || name == cBytes "." || name == cBytes ".." ||
    name == cBytes ".ngx-xrootd-evict-lock" ||
    (cBytes ".ngx-xrootd-part").isSuffixOf name || (cBytes ".ngx-xrootd-lock").isSuffixOf name ||
    (cBytes ".meta").isSuffixOf name || (cBytes ".cinfo").isSuffixOf name

/-- What follows the last `/`. -/
def cacheBaseName (key : CachePath) : CachePath := (key.reverse.takeWhile (· != 0x2f)).reverse

/-- `brix_sd_stat_t`, of a regular object. -/
structure StoreStat : Type where
  size : ℤ
  mtime : ℤ
  deriving DecidableEq

/-- `brix_cache_evict_candidate_t` -/
structure EvictCandidate : Type where
  path : CachePath
  size : ℤ
  atime : ℤ
  mtime : ℤ
  deriving DecidableEq

/-- `brix_cache_evict_list_t` -/
structure EvictList : Type where
  elts : List EvictCandidate
  cap : ℕ
  protectPath : Option CachePath
  cacheRoot : CachePath

def evictMaxCandidates : ℕ := 4 * 1024 * 1024

def pathMax : ℕ := 4096

/-- `brix_cache_add_candidate`, none when the list may not grow. -/
def cacheAddCandidate (list : EvictList) (path : CachePath) (st : EvictCandidate) :
    Option EvictList :=
  if list.protectPath = some path then some list
  else if list.elts.length = list.cap then
    let newCap := if list.cap ≠ 0 then list.cap * 2 else 128
    if evictMaxCandidates < newCap then none
    else some { list with elts := list.elts ++ [{ st with path := path }], cap := newCap }
  else some { list with elts := list.elts ++ [{ st with path := path }] }

/-- `brix_cache_cinfo_dirty_extent`, from what the load of the record returns. -/
def cinfoDirtyExtentLoad (load : Except XmetaFault Xmeta) :
    Except NgxRc (UInt64 × UInt64 × UInt64) :=
  match load with
  | .ok m => cinfoDirtyExtent (some m)
  | .error .foreign => .error .declined
  | .error (.err _) => .error .error

/-- `evict_collect_visit`, none when the scan stops. -/
def evictCollectVisit (list : EvictList) (key : CachePath) (stx : StoreStat)
    (load : Except XmetaFault Xmeta) : Option EvictList :=
  if cacheSkipName (cacheBaseName key) then some list
  else
    let childpath := list.cacheRoot ++ key
    if pathMax ≤ childpath.length then some list
    else
      match cinfoDirtyExtentLoad load with
      -- dirty: keep
      | .ok _ => some list
      | .error _ => cacheAddCandidate list childpath ⟨childpath, stx.size, stx.mtime, stx.mtime⟩

/-- Oldest access first, then oldest change, then path. -/
def cacheCandidateCmp (a b : EvictCandidate) : Ordering :=
  (compare a.atime b.atime).then ((compare a.mtime b.mtime).then (compare a.path b.path))

/-- `qsort` by it. -/
def cacheSort (elts : List EvictCandidate) : List EvictCandidate :=
  elts.insertionSort fun a b => cacheCandidateCmp a b ≠ .gt

/-! ## The loops -/

/-- What a purge is to come down to -/
inductive PurgeGoal : Type where
  /-- `brix_cache_purge_to_target`: occupancy in ppm, and `cache_max_file_size` -/
  | toTarget (targetPpm : ℕ) (maxFileSize : ℤ) : PurgeGoal
  /-- `brix_cache_purge_to_max_bytes` -/
  | toMaxBytes (maxBytes : ℕ) : PurgeGoal

/-- Which loop runs. -/
inductive PurgePass : Type where
  /-- `brix_cache_purge_large_pass` -/
  | large : PurgePass
  /-- `brix_cache_purge_lru_pass` -/
  | lru : PurgePass
  /-- the loop of `brix_cache_purge_to_max_bytes` -/
  | bytes : PurgePass

/-- How far `brix_cache_evict_one` is with the candidate at the index. -/
inductive EvictStage : Type where
  | whole : EvictStage
  /-- `brix_cstore_evict` has dropped its record -/
  | recordDropped : EvictStage
  | unlinked : EvictStage

/-- The state of a purge's loops. -/
structure PurgeLoop : Type where
  goal : PurgeGoal
  pass : PurgePass
  elts : List EvictCandidate
  evicted : List Bool
  i : ℕ
  /-- `usage->occupancy_ppm` -/
  occupancy : ℕ
  owned : ℕ
  evictedBytes : ℕ
  stage : EvictStage

/-- The bytes the candidates hold. -/
def purgeOwned (elts : List EvictCandidate) : ℕ :=
  (elts.map fun c => if 0 < c.size then c.size.toNat else 0).sum

/-- The loops of a purge over the collected candidates. -/
def purgeBegin (goal : PurgeGoal) (occupancy : ℕ) (list : EvictList) : PurgeLoop :=
  let elts := cacheSort list.elts
  { goal
    pass := match goal with
      | .toTarget _ _ => .large
      | .toMaxBytes _ => .bytes
    elts
    evicted := List.replicate elts.length false
    i := 0
    occupancy
    owned := purgeOwned elts
    evictedBytes := 0
    stage := .whole }

/-- What the loop does with a candidate -/
inductive PurgeNext : Type where
  | evict : EvictCandidate → PurgeNext
  /-- go on, there or in the next pass -/
  | skip : PurgeLoop → PurgeNext
  | done : PurgeNext

/-- The head of the loops: their conditions, and the candidates they pass over. -/
def purgeNext (l : PurgeLoop) : PurgeNext :=
  match l.goal, l.pass with
  | .toTarget target maxFileSize, .large =>
    if maxFileSize = 0 ∨ l.occupancy ≤ target then .skip { l with pass := .lru, i := 0 }
    else
      match l.elts[l.i]? with
      | none => .skip { l with pass := .lru, i := 0 }
      | some c => if c.size ≤ maxFileSize then .skip { l with i := l.i + 1 } else .evict c
  | .toTarget target _, _ =>
    if l.occupancy ≤ target then .done
    else
      match l.elts[l.i]? with
      | none => .done
      | some c => if l.evicted.getD l.i false then .skip { l with i := l.i + 1 } else .evict c
  | .toMaxBytes maxBytes, _ =>
    if l.owned - l.evictedBytes ≤ maxBytes then .done
    else
      match l.elts[l.i]? with
      | none => .done
      | some c => if l.evicted.getD l.i false then .skip { l with i := l.i + 1 } else .evict c

/-- `brix_cache_evict_one` behind the removals: the accounting, and the
occupancy `usage` measured, which an owned-bytes purge does not ask for. None
when the measurement failed and the purge ends. -/
def purgeEvicted (l : PurgeLoop) (c : EvictCandidate) (usage : Option ℕ) : Option PurgeLoop :=
  let l' : PurgeLoop := { l with
    evicted := l.evicted.set l.i true
    evictedBytes := if 0 < c.size then l.evictedBytes + c.size.toNat else l.evictedBytes
    i := l.i + 1
    stage := .whole }
  match l.goal, usage with
  | .toMaxBytes _, _ => some l'
  | .toTarget _ _, some ppm => some { l' with occupancy := ppm }
  | .toTarget _ _, none => none

/-! ## What a visit adds -/

/-- The path below the cache's root. -/
def EvictCandidate.key (root : CachePath) (c : EvictCandidate) : CachePath :=
  c.path.drop root.length

theorem cacheAddCandidate_eq_some {list list' : EvictList} {path : CachePath} {st : EvictCandidate}
    (h : cacheAddCandidate list path st = some list') :
    list'.cacheRoot = list.cacheRoot ∧
      (list'.elts = list.elts ∨ list'.elts = list.elts ++ [{ st with path := path }]) := by
  rw [cacheAddCandidate] at h
  split at h
  · cases h
    exact ⟨rfl, .inl rfl⟩
  · split at h
    · simp only at h
      generalize (if list.cap ≠ 0 then list.cap * 2 else 128) = newCap at h
      split at h
      · cases h
      · cases h
        exact ⟨rfl, .inr rfl⟩
    · cases h
      exact ⟨rfl, .inr rfl⟩

theorem evictCollectVisit_eq_some {list list' : EvictList} {key : CachePath} {stx : StoreStat}
    {load : Except XmetaFault Xmeta} (h : evictCollectVisit list key stx load = some list') :
    list'.cacheRoot = list.cacheRoot ∧
      (list'.elts = list.elts ∨ ∃ c rc, list'.elts = list.elts ++ [c] ∧
        c.key list.cacheRoot = key ∧ cinfoDirtyExtentLoad load = .error rc) := by
  rw [evictCollectVisit] at h
  split at h
  · cases h
    exact ⟨rfl, .inl rfl⟩
  · simp only at h
    split at h
    · cases h
      exact ⟨rfl, .inl rfl⟩
    · rcases hext : cinfoDirtyExtentLoad load with rc | ext
      · rw [hext] at h
        obtain ⟨hroot, hsame | hadd⟩ := cacheAddCandidate_eq_some h
        · exact ⟨hroot, .inl hsame⟩
        · refine ⟨hroot, .inr ⟨_, rc, hadd, ?_, rfl⟩⟩
          rw [EvictCandidate.key, List.drop_left]
      · rw [hext] at h
        cases h
        exact ⟨rfl, .inl rfl⟩

theorem cinfoDirtyExtentLoad_declined {load : Except XmetaFault Xmeta}
    (h : cinfoDirtyExtentLoad load = .error .declined) :
    load.toOption.bind Xmeta.extent = none := by
  rcases load with fault | m
  · rfl
  · change m.extent = none
    simp only [cinfoDirtyExtentLoad, cinfoDirtyExtent, cinfoLoad] at h
    split at h
    · rename_i hclean
      refine Xmeta.extent_of_le ?_
      rcases hclean with hflag | hle
      · have hdirty : (cinfoFromXmeta m).flags.dirty = decide (m.dirtyLo < m.dirtyHi) :=
          cinfoRefreshFlags_dirty _ _ _
        rw [hdirty, decide_eq_false_iff_not] at hflag
        exact UInt64.le_iff_toNat_le.mp (UInt64.not_lt.mp hflag)
      · exact UInt64.le_iff_toNat_le.mp hle
    · cases h

/-! ## What the loops walk -/

theorem mem_cacheSort {c : EvictCandidate} {elts : List EvictCandidate} :
    c ∈ cacheSort elts ↔ c ∈ elts := List.mem_insertionSort _

theorem purgeNext_evict {l : PurgeLoop} {c : EvictCandidate} (h : purgeNext l = .evict c) :
    c ∈ l.elts := by
  unfold purgeNext at h
  split at h
  all_goals
    split at h
    · cases h
    · split at h
      · cases h
      · rename_i hc
        split at h
        · cases h
        · obtain rfl := PurgeNext.evict.inj h
          exact List.mem_of_getElem? hc

theorem purgeNext_skip {l l' : PurgeLoop} (h : purgeNext l = .skip l') : l'.elts = l.elts := by
  unfold purgeNext at h
  split at h
  all_goals
    split at h
    · cases h <;> rfl
    · split at h
      · cases h <;> rfl
      · split at h <;> cases h
        rfl

theorem purgeEvicted_elts {l l' : PurgeLoop} {c : EvictCandidate} {usage : Option ℕ}
    (h : purgeEvicted l c usage = some l') : l'.elts = l.elts := by
  unfold purgeEvicted at h
  generalize (if 0 < c.size then l.evictedBytes + c.size.toNat else l.evictedBytes) = n at h
  simp only at h
  split at h
  · cases h
    rfl
  · cases h
    rfl
  · cases h

end BrixCache

/-!
## Purging under writers

One purge and writers that mark objects dirty, step by step in any order. A log keeps, for every
removal, what was recorded of the object and whether the purge had failed to read its record.
-/

namespace BrixCache

open List

/-- What was known of an object when it was removed. -/
structure Removal : Type where
  key : CachePath
  extent : Option Extent
  /-- the load of its record by the scan returned an error -/
  unread : Bool

/-- Where the purge is -/
inductive PurgePhase : Type where
  | idle : PurgePhase
  | collecting : PurgeGoal → ℕ → EvictList → PurgePhase
  | evicting : PurgeLoop → PurgePhase

/-- The store, the purge, and what happened beside it -/
structure PurgeState : Type where
  objects : CachePath → Option StoreStat
  /-- what a load of the object's record returns -/
  record : CachePath → Except XmetaFault Xmeta
  phase : PurgePhase
  /-- visited by this purge with a load that failed -/
  unread : List CachePath
  /-- marked dirty since this purge put them on its list -/
  marked : List CachePath
  log : List Removal

def PurgePhase.elts : PurgePhase → List EvictCandidate
  | .idle => []
  | .collecting _ _ list => list.elts
  | .evicting l => l.elts

def PurgeState.extent (s : PurgeState) (k : CachePath) : Option Extent :=
  recordedExtent (s.record k).toOption

/-- The record of an object is replaced. -/
def PurgeState.setRecord (s : PurgeState) (k : CachePath) (r : Except XmetaFault Xmeta) :
    PurgeState :=
  { s with record := Function.update s.record k r }

/-- A removal of the object is logged. -/
def PurgeState.logRemoval (s : PurgeState) (k : CachePath) : PurgeState :=
  { s with log := ⟨k, s.extent k, s.unread.contains k⟩ :: s.log }

/-- A call of a writer or a step of the purge. -/
inductive PurgeAct : Type where
  /-- `brix_cache_cinfo_mark_dirty` that returns OK -/
  | markDirty (k : CachePath) (now : Int64) (key : CinfoKey) (off len : UInt64) : PurgeAct
  /-- the setup of a purge, over its target at the occupancy measured -/
  | start (goal : PurgeGoal) (occupancy : ℕ) (protectPath : Option CachePath) : PurgeAct
  /-- the scan comes to an object; the load of its record may fail for want of
  memory or of a descriptor -/
  | visit (k : CachePath) (fault : Option Errno) : PurgeAct
  | collected : PurgeAct
  /-- a candidate is passed over, or a loop ends -/
  | next : PurgeAct
  /-- `brix_xmeta_remove` of the candidate, behind its demotion -/
  | dropRecord : PurgeAct
  /-- the `unlink` of the object; a record made in between goes with it when it
  is `carried` in the object's xattr -/
  | unlink (carried : Bool) : PurgeAct
  /-- `brix_cache_evict_remove_sidecars`, and the occupancy measured -/
  | unlinkSidecar (carried : Bool) (usage : Option ℕ) : PurgeAct

def PurgeState.load (s : PurgeState) (k : CachePath) : Option Errno → Except XmetaFault Xmeta
  | some e => .error (.err e)
  | none => s.record k

/-- The load returned an error rather than no record. -/
def loadFailed (load : Except XmetaFault Xmeta) : Bool :=
  match cinfoDirtyExtentLoad load with
  | .error .error => true
  | _ => false

def purgePhaseAfter : Option PurgeLoop → PurgePhase
  | some l => .evicting l
  | none => .idle

/-- One step, of a purge of the store under `root`. -/
inductive PurgeStep (root : CachePath) : PurgeState → PurgeAct → PurgeState → Prop where
  | markDirty {s : PurgeState} {k : CachePath} {now : Int64} {key : CinfoKey} {off len : UInt64}
      {m : Xmeta} (hsave : cinfoMarkDirty now (s.record k).toOption key off len = .ok m) :
      PurgeStep root s (.markDirty k now key off len)
        { s.setRecord k (.ok m.persisted) with
          marked := if k ∈ s.phase.elts.map (·.key root) then k :: s.marked else s.marked }
  | start {s : PurgeState} {goal : PurgeGoal} {occupancy : ℕ} {protectPath : Option CachePath}
      (hidle : s.phase = .idle) :
      PurgeStep root s (.start goal occupancy protectPath)
        { s with
          phase := .collecting goal occupancy ⟨[], 0, protectPath, root⟩
          unread := []
          marked := [] }
  | visit {s : PurgeState} {k : CachePath} {stx : StoreStat} {fault : Option Errno}
      {goal : PurgeGoal} {occupancy : ℕ} {list list' : EvictList}
      (hphase : s.phase = .collecting goal occupancy list) (hobj : s.objects k = some stx)
      (hvisit : evictCollectVisit list k stx (s.load k fault) = some list') :
      PurgeStep root s (.visit k fault)
        { s with
          phase := .collecting goal occupancy list'
          unread := if loadFailed (s.load k fault) then k :: s.unread else s.unread }
  /-- the list may not grow: the scan stops -/
  | visitFull {s : PurgeState} {k : CachePath} {stx : StoreStat} {fault : Option Errno}
      {goal : PurgeGoal} {occupancy : ℕ} {list : EvictList}
      (hphase : s.phase = .collecting goal occupancy list) (hobj : s.objects k = some stx)
      (hvisit : evictCollectVisit list k stx (s.load k fault) = none) :
      PurgeStep root s (.visit k fault)
        { s with phase := .evicting (purgeBegin goal occupancy list) }
  | collected {s : PurgeState} {goal : PurgeGoal} {occupancy : ℕ} {list : EvictList}
      (hphase : s.phase = .collecting goal occupancy list) :
      PurgeStep root s .collected { s with phase := .evicting (purgeBegin goal occupancy list) }
  | skip {s : PurgeState} {l l' : PurgeLoop} (hphase : s.phase = .evicting l)
      (hstage : l.stage = .whole) (hnext : purgeNext l = .skip l') :
      PurgeStep root s .next { s with phase := .evicting l' }
  | done {s : PurgeState} {l : PurgeLoop} (hphase : s.phase = .evicting l)
      (hstage : l.stage = .whole) (hnext : purgeNext l = .done) :
      PurgeStep root s .next { s with phase := .idle }
  | dropRecord {s : PurgeState} {l : PurgeLoop} {c : EvictCandidate}
      (hphase : s.phase = .evicting l) (hstage : l.stage = .whole)
      (hnext : purgeNext l = .evict c) :
      PurgeStep root s .dropRecord
        { (s.logRemoval (c.key root)).setRecord (c.key root) (.error .foreign) with
          phase := .evicting { l with stage := .recordDropped } }
  | unlink {s : PurgeState} {l : PurgeLoop} {c : EvictCandidate} {carried : Bool}
      (hphase : s.phase = .evicting l) (hstage : l.stage = .recordDropped)
      (hnext : purgeNext l = .evict c) :
      PurgeStep root s (.unlink carried)
        { (s.logRemoval (c.key root)).setRecord (c.key root)
            (if carried then .error .foreign else s.record (c.key root)) with
          objects := Function.update s.objects (c.key root) none
          phase := .evicting { l with stage := .unlinked } }
  | unlinkSidecar {s : PurgeState} {l : PurgeLoop} {c : EvictCandidate} {carried : Bool}
      {usage : Option ℕ} (hphase : s.phase = .evicting l) (hstage : l.stage = .unlinked)
      (hnext : purgeNext l = .evict c) :
      PurgeStep root s (.unlinkSidecar carried usage)
        { s.setRecord (c.key root) (if carried then s.record (c.key root) else .error .foreign) with
          phase := purgePhaseAfter (purgeEvicted l c usage) }

/-- **Un-flushed data stays**: whatever was removed was clean at that moment, and
its record had been read. -/
def PurgeKept (s : PurgeState) : Prop := ∀ r ∈ s.log, r.extent = none ∧ r.unread = false

/-- What a removal goes right on: the object was not marked dirty since the scan
listed it, and the load of its record did not fail then. -/
def RemovalGood (root : CachePath) (s : PurgeState) : Prop :=
  ∀ l c, s.phase = .evicting l → purgeNext l = .evict c →
    c.key root ∉ s.marked ∧ c.key root ∉ s.unread

/-- The steps that go right. -/
def PurgeGood (root : CachePath) (s : PurgeState) : PurgeAct → Prop
  | .dropRecord => RemovalGood root s
  | .unlink _ => RemovalGood root s
  | _ => True

/-- No purge runs and nothing was removed yet; the store and its records are
any. -/
structure PurgeState.Init (s : PurgeState) : Prop where
  idle : s.phase = .idle
  log : s.log = []

/-! ### The invariant -/

/-- What good steps keep. -/
structure PurgeInv (root : CachePath) (s : PurgeState) : Prop where
  kept : PurgeKept s
  root_eq : ∀ goal occupancy list, s.phase = .collecting goal occupancy list →
    list.cacheRoot = root
  /-- a candidate not marked since and whose record was read is clean -/
  clean : ∀ c ∈ s.phase.elts, c.key root ∉ s.marked → c.key root ∉ s.unread →
    s.extent (c.key root) = none

variable {root : CachePath} {s s' : PurgeState} {a : PurgeAct}

theorem PurgeState.Init.inv (h : s.Init) : PurgeInv root s where
  kept r hr := by
    rw [h.log] at hr
    cases hr
  root_eq goal occupancy list hphase := by
    rw [h.idle] at hphase
    cases hphase
  clean c hc := by
    rw [h.idle] at hc
    cases hc

theorem PurgeState.extent_setRecord_of_ne {k k' : CachePath} {r : Except XmetaFault Xmeta}
    (hne : k' ≠ k) : (s.setRecord k r).extent k' = s.extent k' := by
  simp [PurgeState.extent, PurgeState.setRecord, hne]

theorem PurgeState.extent_setRecord_clean {k : CachePath} {r : Except XmetaFault Xmeta}
    (hr : recordedExtent r.toOption = none) (k' : CachePath) (h : k' ≠ k → s.extent k' = none) :
    (s.setRecord k r).extent k' = none := by
  rcases eq_or_ne k' k with rfl | hne
  · simpa [PurgeState.extent, PurgeState.setRecord] using hr
  · rw [PurgeState.extent_setRecord_of_ne hne]
    exact h hne

theorem visit_clean {k : CachePath} {fault : Option Errno} {rc : NgxRc}
    (hload : cinfoDirtyExtentLoad (s.load k fault) = .error rc)
    (hread : loadFailed (s.load k fault) = false) : s.extent k = none := by
  have hrc : rc = .declined := by
    rw [loadFailed, hload] at hread
    cases rc with
    | declined => rfl
    | error => cases hread
  rw [hrc] at hload
  cases fault with
  | none => exact cinfoDirtyExtentLoad_declined hload
  | some e => cases hload

theorem PurgeInv.begin (h : PurgeInv root s) {goal : PurgeGoal} {occupancy : ℕ} {list : EvictList}
    (hphase : s.phase = .collecting goal occupancy list) :
    PurgeInv root { s with phase := .evicting (purgeBegin goal occupancy list) } where
  kept := h.kept
  root_eq goal occupancy list hcol := by cases hcol
  clean c hc := by
    have hmem : c ∈ list.elts := mem_cacheSort.mp hc
    refine h.clean c ?_
    rw [hphase]
    exact hmem

theorem PurgeInv.logRemoval (h : PurgeInv root s) {l : PurgeLoop} {c : EvictCandidate}
    (hphase : s.phase = .evicting l) (hnext : purgeNext l = .evict c)
    (hgood : RemovalGood root s) : PurgeKept (s.logRemoval (c.key root)) := by
  obtain ⟨hmarked, hunread⟩ := hgood l c hphase hnext
  have hc : c ∈ s.phase.elts := by
    rw [hphase]
    exact purgeNext_evict hnext
  intro r hr
  rcases mem_cons.mp hr with rfl | hr
  · exact ⟨h.clean c hc hmarked hunread, by simpa using hunread⟩
  · exact h.kept r hr

/-- **One step** that meets the condition keeps the invariant. -/
theorem PurgeInv.step (h : PurgeInv root s) (hstep : PurgeStep root s a s')
    (hgood : PurgeGood root s a) : PurgeInv root s' := by
  cases hstep with
  | @markDirty k now key off len m hsave =>
    refine ⟨h.kept, h.root_eq, ?_⟩
    intro c hc hmarked hunread
    have hkey : k ∈ s.phase.elts.map (·.key root) → k ≠ c.key root := by
      intro hlisted heq
      refine hmarked ?_
      simp only [if_pos hlisted]
      rw [← heq]
      exact mem_cons_self
    have hne : c.key root ≠ k := by
      intro heq
      exact hkey (heq ▸ mem_map_of_mem hc) heq.symm
    refine (PurgeState.extent_setRecord_of_ne hne).trans (h.clean c hc ?_ hunread)
    intro hm
    refine hmarked ?_
    simp only
    split
    · exact mem_cons_of_mem _ hm
    · exact hm
  | start hidle =>
    refine ⟨h.kept, ?_, ?_⟩
    · intro goal occupancy list hcol
      obtain ⟨-, -, rfl⟩ := PurgePhase.collecting.inj hcol
      rfl
    · intro c hc
      cases hc
  | @visit k stx fault goal occupancy list list' hphase hobj hvisit =>
    obtain ⟨hroot, helts⟩ := evictCollectVisit_eq_some hvisit
    have hlist := h.root_eq _ _ _ hphase
    refine ⟨h.kept, ?_, ?_⟩
    · intro goal' occupancy' list'' hcol
      obtain ⟨-, -, rfl⟩ := PurgePhase.collecting.inj hcol
      exact hroot.trans hlist
    · intro c hc hmarked hunread
      have hunread' : c.key root ∉ s.unread := by
        intro hm
        refine hunread ?_
        simp only
        split
        · exact mem_cons_of_mem _ hm
        · exact hm
      have hold : c ∈ list.elts → s.extent (c.key root) = none := by
        intro hmem
        refine h.clean c ?_ hmarked hunread'
        rw [hphase]
        exact hmem
      rcases helts with hsame | ⟨c', rc, hadd, hkey, hload⟩
      · exact hold (hsame ▸ hc)
      · have hc' : c ∈ list.elts ++ [c'] := hadd ▸ hc
        rcases mem_append.mp hc' with hmem | hnew
        · exact hold hmem
        · -- the object of this visit
          obtain rfl := mem_singleton.mp hnew
          rw [hlist] at hkey
          rw [hkey]
          have hread : loadFailed (s.load k fault) = false := by
            refine Bool.not_eq_true _ ▸ fun hfail => hunread ?_
            simp only [hfail, if_true, hkey]
            exact mem_cons_self
          exact visit_clean hload hread
  | visitFull hphase hobj hvisit | collected hphase => exact h.begin hphase
  | skip hphase hstage hnext =>
    refine ⟨h.kept, ?_, ?_⟩
    · intro goal occupancy list hcol
      cases hcol
    · intro c hc
      refine h.clean c ?_
      rw [hphase, PurgePhase.elts, ← purgeNext_skip hnext]
      exact hc
  | done hphase hstage hnext =>
    refine ⟨h.kept, ?_, ?_⟩
    · intro goal occupancy list hcol
      cases hcol
    · intro c hc
      cases hc
  | @dropRecord l c hphase hstage hnext =>
    refine ⟨h.logRemoval hphase hnext hgood, ?_, ?_⟩
    · intro goal occupancy list hcol
      cases hcol
    · intro c' hc' hmarked hunread
      refine PurgeState.extent_setRecord_clean rfl _ fun _ => h.clean c' ?_ hmarked hunread
      rw [hphase]
      exact hc'
  | @unlink l c carried hphase hstage hnext =>
    obtain ⟨hm, hu⟩ := hgood l c hphase hnext
    have hc : c ∈ s.phase.elts := by
      rw [hphase]
      exact purgeNext_evict hnext
    refine ⟨h.logRemoval hphase hnext hgood, ?_, ?_⟩
    · intro goal occupancy list hcol
      cases hcol
    · intro c' hc' hmarked hunread
      refine PurgeState.extent_setRecord_clean ?_ _ fun _ => h.clean c' ?_ hmarked hunread
      · cases carried
        · exact h.clean c hc hm hu
        · rfl
      · rw [hphase]
        exact hc'
  | @unlinkSidecar l c carried usage hphase hstage hnext =>
    have helts : ∀ c', c' ∈ (purgePhaseAfter (purgeEvicted l c usage)).elts →
        c' ∈ s.phase.elts := by
      intro c' hc'
      rcases hafter : purgeEvicted l c usage with _ | l'
      · rw [hafter] at hc'
        cases hc'
      · rw [hafter] at hc'
        rw [hphase, PurgePhase.elts, ← purgeEvicted_elts hafter]
        exact hc'
    refine ⟨h.kept, ?_, ?_⟩
    · intro goal occupancy list hcol
      rcases hafter : purgeEvicted l c usage with _ | l'
      · rw [hafter] at hcol
        cases hcol
      · rw [hafter] at hcol
        cases hcol
    · intro c' hc' hmarked hunread
      have hclean := h.clean c' (helts c' hc') hmarked hunread
      cases carried
      · exact PurgeState.extent_setRecord_clean rfl _ fun _ => hclean
      · simpa [PurgeState.extent, PurgeState.setRecord] using hclean

/-- **The removal that goes wrong** takes a dirty object, if the mark was
recorded, or one whose record was not read. -/
theorem not_purgeKept_of_bad (hstep : PurgeStep root s a s') (hbad : ¬ PurgeGood root s a)
    (hmarks : ∀ k ∈ s.marked, s.extent k ≠ none) : ¬ PurgeKept s' := by
  -- the log's newest entry is the offending one
  have hlogged : ∀ {l : PurgeLoop} {c : EvictCandidate}, s.phase = .evicting l →
      purgeNext l = .evict c → ¬ RemovalGood root s → ¬ PurgeKept (s.logRemoval (c.key root)) := by
    intro l c hphase hnext hwrong hkept
    obtain ⟨hext, hread⟩ := hkept _ mem_cons_self
    refine hwrong ?_
    intro l' c' hphase' hnext'
    obtain rfl := PurgePhase.evicting.inj (hphase.symm.trans hphase')
    obtain rfl := PurgeNext.evict.inj (hnext.symm.trans hnext')
    exact ⟨fun hm => hmarks _ hm hext, by simpa using hread⟩
  cases hstep with
  | dropRecord hphase hstage hnext | unlink hphase hstage hnext => exact hlogged hphase hnext hbad
  | markDirty | start | visit | visitFull | collected | skip | done | unlinkSidecar =>
    exact absurd trivial hbad

/-! ### Runs -/

/-- The system restricted to good steps. -/
def PurgeGoodStep (root : CachePath) (s : PurgeState) (a : PurgeAct) (s' : PurgeState) : Prop :=
  PurgeStep root s a s' ∧ PurgeGood root s a

theorem purgeInv_run {s₀ : PurgeState} {as : List PurgeAct} (hinit : s₀.Init)
    (hrun : Run (PurgeGoodStep root) s₀ as s) : PurgeInv root s :=
  hrun.invariant (fun _ _ _ h hstep => h.step hstep.1 hstep.2) hinit.inv

/-- **When a purge keeps un-flushed data.** In every run in which each object
removed was not marked dirty after the scan listed it, and its record was read
then, whatever is removed is clean at that moment and readable; and the first
removal that is not so takes a dirty or an unread object. -/
theorem purgeKept_of_good {s₀ : PurgeState} {as : List PurgeAct} (hinit : s₀.Init)
    (hrun : Run (PurgeGoodStep root) s₀ as s) :
    PurgeKept s ∧ ∀ a s', PurgeStep root s a s' → ¬ PurgeGood root s a →
      (∀ k ∈ s.marked, s.extent k ≠ none) → ¬ PurgeKept s' :=
  ⟨(purgeInv_run hinit hrun).kept, fun _ _ hstep hbad hmarks =>
    not_purgeKept_of_bad hstep hbad hmarks⟩

/-- Two objects of ten bytes: one without a record, one with a torn one. -/
def samplePurgeState : PurgeState where
  objects k :=
    if k = cBytes "/a" then some ⟨10, 1⟩ else if k = cBytes "/b" then some ⟨10, 2⟩ else none
  record k := if k = cBytes "/b" then .error xmetaTorn else .error .foreign
  phase := .idle
  unread := []
  marked := []
  log := []

theorem samplePurgeState_init : samplePurgeState.Init := ⟨rfl, rfl⟩

/-- A purge to five bytes of the first object. -/
theorem purgeKept_of_good_sample :
    ∃ s, Run (PurgeGoodStep (cBytes "/c")) samplePurgeState
        [.start (.toMaxBytes 5) 0 none, .visit (cBytes "/a") none, .collected, .dropRecord,
          .unlink true] s ∧ PurgeKept s := by
  have hrun : ∃ s, Run (PurgeGoodStep (cBytes "/c")) samplePurgeState
      [.start (.toMaxBytes 5) 0 none, .visit (cBytes "/a") none, .collected, .dropRecord,
        .unlink true] s := by
    refine ⟨_, .cons ⟨.start rfl, trivial⟩ (.cons ⟨.visit rfl rfl rfl, trivial⟩
      (.cons ⟨.collected rfl, trivial⟩ (.cons ⟨.dropRecord rfl rfl rfl, ?_⟩
        (.cons ⟨.unlink rfl rfl rfl, ?_⟩ (.nil _)))))⟩
    all_goals
      intro l c _ _
      exact ⟨not_mem_nil, not_mem_nil⟩
  obtain ⟨s, hs⟩ := hrun
  exact ⟨s, hs, (purgeKept_of_good samplePurgeState_init hs).1⟩

/-- An object marked dirty after the scan listed it, and one whose record is
torn, are both removed. -/
theorem purge_removes_dirty_and_torn :
    ∃ s, Run (PurgeStep (cBytes "/c")) samplePurgeState
        [.start (.toMaxBytes 5) 0 none, .visit (cBytes "/a") none, .visit (cBytes "/b") none,
          .collected, .markDirty (cBytes "/a") 0 sampleCinfoKey 0 10, .dropRecord, .unlink true,
          .unlinkSidecar true none, .dropRecord, .unlink true] s ∧
      s.objects (cBytes "/a") = none ∧ s.objects (cBytes "/b") = none ∧
      (∃ r ∈ s.log, r.key = cBytes "/a" ∧ r.extent = some ⟨0, 10, by decide⟩) ∧
      (∃ r ∈ s.log, r.key = cBytes "/b" ∧ r.unread = true) ∧ ¬ PurgeKept s := by
  refine ⟨_, .cons (.start rfl) (.cons (.visit rfl rfl rfl) (.cons (.visit rfl rfl rfl)
    (.cons (.collected rfl) (.cons (.markDirty rfl) (.cons (.dropRecord rfl rfl rfl)
      (.cons (.unlink rfl rfl rfl) (.cons (.unlinkSidecar rfl rfl rfl)
        (.cons (.dropRecord rfl rfl rfl) (.cons (.unlink rfl rfl rfl) (.nil _)))))))))),
    rfl, rfl, ?_, ?_, ?_⟩
  · exact ⟨_, .tail _ (.tail _ (.tail _ (.head _))), rfl, rfl⟩
  · exact ⟨_, .head _, rfl, rfl⟩
  · intro hkept
    obtain ⟨-, hread⟩ := hkept _ (.head _)
    cases hread

end BrixCache

import BrixCache.SdCache.ServeHit
import BrixCache.Core.Ascii

/-!
# Write invalidation

`sd_cache_open_common` of `fs/backend/cache/sd_cache.c` through one decorator, one
key of it: write-opens that go to the source and evict the cached copy, writes and
closes on their handles, and read-opens that hit or fill. A fill pumps the source
chunk by chunk, publishes the staged object and then stores its header
(`sd_cache_fill.c`); writes, evictions and other fills happen in between.
-/

namespace BrixCache

open List

/-! ## The fill -/

/-- How far a fill is -/
inductive FillStage : Type where
  | pumping : FillStage
  | full : FillStage
  /-- the staged object is the key's, its header not stored yet -/
  | published : FillStage
  /-- `cache_fill_commit` is over, the object not opened yet -/
  | recorded : FillStage
  deriving DecidableEq

/-- `sd_cache_fill_state_t`; its `off` is the length of what is staged. -/
structure CacheFill : Type where
  snap : SourceSnap
  staged : Bytes
  stage : FillStage

def sdCacheChunk : ℕ := 1024 * 1024

/-- One turn of `cache_fill_pump` with what the source answered, `none` when it
gives up. -/
def cacheFillTurn (f : CacheFill) (bytes : Bytes) : Option CacheFill :=
  if bytes = [] then
    -- an end of file short of the size the source declared
    if 0 < f.snap.size ∧ f.staged.length < f.snap.size then none
    else some { f with stage := .full }
  else
    let staged := f.staged ++ bytes
    some { f with
      staged := staged
      stage := if 0 < f.snap.size ∧ f.snap.size ≤ staged.length then .full else .pumping }

/-! ## The system -/

/-- What a write handle does to the source. -/
inductive SourceOp : Type where
  | pwrite (off : ℕ) (cells : Bytes) : SourceOp
  | ftruncate (n : ℕ) : SourceOp

/-- What the call leaves of the source. -/
def SourceOp.apply (op : SourceOp) (src : Bytes) : Bytes :=
  match op with
  | .pwrite off cells => File.pwrite 0 src off cells
  | .ftruncate n => File.ftruncate 0 src n

/-- A read-open that fills, and what the source has been since -/
structure ReadOpen : Type where
  fill : CacheFill
  /-- issued while no write handle was open -/
  clean : Bool
  /-- what the source held since it was issued, the latest first -/
  seen : List Bytes

/-- A read-open that returned. -/
structure ServedOpen : Type where
  bytes : Bytes
  clean : Bool
  seen : List Bytes

/-- The source, the write handles, the key's part of the store, the worker's
header cache, and the read-opens by number. -/
structure CoherenceState (K : Type) : Type where
  source : Bytes
  /-- write-opens between the source's open and the eviction -/
  opening : ℕ
  /-- write handles -/
  writers : ℕ
  object : Option Bytes
  record : Option Xmeta
  l1 : CinfoL1 K
  reads : ℕ → Option ReadOpen
  served : List ServedOpen

section

variable {K : Type}

/-- No write handle is open, nor being opened. -/
def CoherenceState.clean (s : CoherenceState K) : Bool :=
  decide (s.opening = 0 ∧ s.writers = 0)

/-- The source changes under the read-opens in flight. -/
def CoherenceState.setSource (s : CoherenceState K) (src : Bytes) : CoherenceState K :=
  { s with
    source := src
    reads := fun id => (s.reads id).map fun r => { r with seen := src :: r.seen } }

/-- A read-open in flight moves on. -/
def CoherenceState.setRead (s : CoherenceState K) (id : ℕ) (r : Option ReadOpen) :
    CoherenceState K := { s with reads := Function.update s.reads id r }

/-- A read-open in flight returns these bytes. -/
def CoherenceState.serve (s : CoherenceState K) (id : ℕ) (r : ReadOpen) (bytes : Bytes) :
    CoherenceState K :=
  { s.setRead id none with served := ⟨bytes, r.clean, r.seen⟩ :: s.served }

end

/-- The steps of writers and readers of one key -/
inductive CoherenceAct (K : Type) : Type where
  /-- the source's part of a write-open -/
  | writeOpen (trunc : Bool) : CoherenceAct K
  /-- `brix_cstore_evict`, after which the write-open returns -/
  | evict : CoherenceAct K
  | write (op : SourceOp) : CoherenceAct K
  | close : CoherenceAct K
  | readHit (now : Int64) : CoherenceAct K
  /-- a read-open that starts a fill -/
  | readMiss (id : ℕ) (now : Int64) (snap : SourceSnap) : CoherenceAct K
  /-- a turn of the pump that reads up to `n` bytes -/
  | turn (id n : ℕ) : CoherenceAct K
  /-- `brix_cstore_fill_commit` -/
  | publish (id : ℕ) : CoherenceAct K
  /-- the rest of `cache_fill_commit` -/
  | record (id : ℕ) (now : Int64) (fv : FillVerify) (ttl : Int64) (manifest : Bool)
      (save : RecordSave) : CoherenceAct K
  /-- `brix_cstore_serve_open` of what was filled -/
  | serve (id : ℕ) : CoherenceAct K
  /-- the fill failed, or its object is gone: the source itself is served -/
  | degrade (id : ℕ) : CoherenceAct K
  /-- another key's header is loaded, stored or dropped -/
  | otherLoad (k : K) (rec : Option Xmeta) : CoherenceAct K
  | otherPut (k : K) (hdr : Cinfo) : CoherenceAct K
  | otherDrop (k : K) : CoherenceAct K

section

variable {K : Type} [DecidableEq K]

/-- One step on `key`. -/
inductive CoherenceStep (uvkeep : Int64) (key : K) :
    CoherenceState K → CoherenceAct K → CoherenceState K → Prop where
  | writeOpen (s : CoherenceState K) (trunc : Bool) :
      CoherenceStep uvkeep key s (.writeOpen trunc)
        { s.setSource (if trunc then [] else s.source) with opening := s.opening + 1 }
  | evict {s : CoherenceState K} (hopening : 0 < s.opening) :
      CoherenceStep uvkeep key s .evict
        { s with
          opening := s.opening - 1
          writers := s.writers + 1
          object := none
          record := none
          l1 := cinfoL1Drop s.l1 key }
  | write {s : CoherenceState K} (hwriter : 0 < s.writers) (op : SourceOp) :
      CoherenceStep uvkeep key s (.write op) (s.setSource (op.apply s.source))
  | close {s : CoherenceState K} (hwriter : 0 < s.writers) :
      CoherenceStep uvkeep key s .close { s with writers := s.writers - 1 }
  | readHit {s : CoherenceState K} {now : Int64} {ci : Cinfo} {b : Bytes}
      (hload : (cstoreCinfoLoad s.l1 key s.record).1 = .ok ci)
      (husable : cacheHitUsable uvkeep now ci = true) (hobject : s.object = some b) :
      CoherenceStep uvkeep key s (.readHit now)
        { s with
          l1 := (cstoreCinfoLoad s.l1 key s.record).2
          served := ⟨b, s.clean, [s.source]⟩ :: s.served }
  | readMiss {s : CoherenceState K} {id : ℕ} {now : Int64} {snap : SourceSnap}
      (hfree : s.reads id = none)
      (hmiss : ∀ ci, (cstoreCinfoLoad s.l1 key s.record).1 = .ok ci →
        cacheHitUsable uvkeep now ci = true → s.object = none)
      (hsnap : snap.size = 0 ∨ snap.size = s.source.length) :
      CoherenceStep uvkeep key s (.readMiss id now snap)
        ({ s with l1 := (cstoreCinfoLoad s.l1 key s.record).2 }.setRead id
          (some ⟨⟨snap, [], .pumping⟩, s.clean, [s.source]⟩))
  | turn {s : CoherenceState K} {id n : ℕ} {r : ReadOpen} {f : CacheFill}
      (hread : s.reads id = some r) (hstage : r.fill.stage = .pumping) (hpos : 0 < n)
      (hchunk : n ≤ sdCacheChunk)
      (hturn : cacheFillTurn r.fill (File.pread s.source r.fill.staged.length n) = some f) :
      CoherenceStep uvkeep key s (.turn id n) (s.setRead id (some { r with fill := f }))
  | publish {s : CoherenceState K} {id : ℕ} {r : ReadOpen} (hread : s.reads id = some r)
      (hstage : r.fill.stage = .full) :
      CoherenceStep uvkeep key s (.publish id)
        { s.setRead id (some { r with fill := { r.fill with stage := .published } }) with
          object := some r.fill.staged }
  | record {s : CoherenceState K} {id : ℕ} {now : Int64} {fv : FillVerify} {ttl : Int64}
      {manifest : Bool} {save : RecordSave} {r : ReadOpen} {rec : Option Xmeta} {l1 : CinfoL1 K}
      (hread : s.reads id = some r) (hstage : r.fill.stage = .published)
      (hstore : cstoreCinfoStore now save s.l1 key s.record
        (cacheFillCinfo now r.fill.snap r.fill.staged.length fv ttl manifest) = (rec, l1)) :
      CoherenceStep uvkeep key s (.record id now fv ttl manifest save)
        { s.setRead id (some { r with fill := { r.fill with stage := .recorded } }) with
          record := rec
          l1 := l1 }
  | serve {s : CoherenceState K} {id : ℕ} {r : ReadOpen} {b : Bytes}
      (hread : s.reads id = some r) (hstage : r.fill.stage = .recorded)
      (hobject : s.object = some b) :
      CoherenceStep uvkeep key s (.serve id) (s.serve id r b)
  | degrade {s : CoherenceState K} {id : ℕ} {r : ReadOpen} (hread : s.reads id = some r)
      (hstage : r.fill.stage = .pumping ∨ r.fill.stage = .full ∨
        (r.fill.stage = .recorded ∧ s.object = none)) :
      CoherenceStep uvkeep key s (.degrade id) (s.serve id r s.source)
  | otherLoad {s : CoherenceState K} {k : K} (hother : k ≠ key) (rec : Option Xmeta) :
      CoherenceStep uvkeep key s (.otherLoad k rec)
        { s with l1 := (cstoreCinfoLoad s.l1 k rec).2 }
  | otherPut {s : CoherenceState K} {k : K} (hother : k ≠ key) (hdr : Cinfo) :
      CoherenceStep uvkeep key s (.otherPut k hdr) { s with l1 := cinfoL1Put s.l1 k hdr }
  | otherDrop {s : CoherenceState K} {k : K} (hother : k ≠ key) :
      CoherenceStep uvkeep key s (.otherDrop k) { s with l1 := cinfoL1Drop s.l1 k }

/-- A COMPLETE header of the key is in the header cache or in the store. -/
def CoherenceState.complete (key : K) (s : CoherenceState K) : Prop :=
  (∃ ci, s.l1.find key = some ci ∧ ci.flags.complete = true) ∨
    ∃ m, s.record = some m ∧ (cinfoFromXmeta m).flags.complete = true

/-- Write invalidation is effective. -/
structure CoherenceKept (key : K) (s : CoherenceState K) : Prop where
  /-- a read-open issued without a write handle returns what the source holds, or
  held while it was in flight -/
  served : ∀ r ∈ s.served, r.clean = true → r.bytes ∈ r.seen
  /-- without a write handle what is COMPLETE is the source -/
  cached : s.clean = true → s.complete key → ∀ b, s.object = some b → b = s.source

/-! ## What must agree with the source -/

/-- What a fill has read so far is the start of this source, all of it when the
pump is done, and the size it stops at is not short of it. -/
def CacheFill.Follows (f : CacheFill) (src : Bytes) : Prop :=
  match f.stage with
  | .pumping => f.staged <+: src ∧ (0 < f.snap.size → src.length ≤ f.snap.size)
  | .full => f.staged = src
  | .published | .recorded => True

/-- A COMPLETE header of the key, or one about to be stored. -/
def CoherenceState.claimed (key : K) (s : CoherenceState K) : Prop :=
  s.complete key ∨ ∃ id r, s.reads id = some r ∧ r.fill.stage = .published

/-- Nothing cached or on its way there is out of date for this source. -/
structure CoherenceState.Settled (key : K) (s : CoherenceState K) (src : Bytes) : Prop where
  fills : ∀ id r, s.reads id = some r → r.fill.Follows src
  /-- unless an eviction is coming -/
  copy : s.opening = 0 → s.claimed key → ∀ b, s.object = some b → b = src

/-- The steps that go right: a change of the source makes nothing out of date. A
write-open's own change leaves only the fills in flight to go wrong. -/
def CoherenceGood (key : K) (s : CoherenceState K) : CoherenceAct K → Prop
  | .writeOpen trunc => ∀ id r, s.reads id = some r →
      r.fill.Follows (if trunc then [] else s.source)
  | .write op => s.Settled key (op.apply s.source)
  | _ => True

/-- The start: nothing cached, no read-open in flight. -/
structure CoherenceState.Init (s : CoherenceState K) : Prop where
  object : s.object = none
  reads : ∀ id, s.reads id = none
  served : s.served = []

/-! ## The invariant -/

/-- What good steps keep. -/
structure CoherenceInv (key : K) (s : CoherenceState K) : Prop where
  settled : s.Settled key s.source
  seen : ∀ id r, s.reads id = some r → s.source ∈ r.seen
  object : ∀ id r, s.reads id = some r →
    r.fill.stage = .published ∨ r.fill.stage = .recorded → ∀ b, s.object = some b → b ∈ r.seen
  served : ∀ r ∈ s.served, r.clean = true → r.bytes ∈ r.seen

variable {uvkeep : Int64} {key : K} {s s' : CoherenceState K} {a : CoherenceAct K}

theorem CoherenceState.Init.inv (h : s.Init) : CoherenceInv key s := by
  have hreads : ∀ id r, s.reads id ≠ some r := by
    intro id r hr
    rw [h.reads id] at hr
    cases hr
  refine ⟨⟨fun id r hr => absurd hr (hreads id r), ?_⟩, fun id r hr => absurd hr (hreads id r),
    fun id r hr => absurd hr (hreads id r), ?_⟩
  · intro _ _ b hb
    rw [h.object] at hb
    cases hb
  · intro r hr
    rw [h.served] at hr
    cases hr

theorem CoherenceInv.kept (h : CoherenceInv key s) : CoherenceKept key s := by
  refine ⟨h.served, ?_⟩
  intro hclean hcomplete
  exact h.settled.copy (of_decide_eq_true hclean).1 (.inl hcomplete)

/-! ### The parts of a step -/

/-- One piece more of the source as it is -/
theorem CacheFill.Follows.turn {f f' : CacheFill} {src : Bytes} {n : ℕ}
    (h : f.Follows src) (hstage : f.stage = .pumping) (hpos : 0 < n)
    (hturn : cacheFillTurn f (File.pread src f.staged.length n) = some f') :
    f'.Follows src ∧ (f'.stage = .pumping ∨ f'.stage = .full) := by
  rw [CacheFill.Follows, hstage] at h
  obtain ⟨⟨rest, rfl⟩, hsize⟩ := h
  have hbytes : File.pread (f.staged ++ rest) f.staged.length n = rest.take n := by
    rw [File.pread, drop_left]
  rw [hbytes, cacheFillTurn] at hturn
  by_cases hnil : rest.take n = []
  · rw [if_pos hnil] at hturn
    have hrest : rest = [] := by
      rcases take_eq_nil_iff.mp hnil with hz | hz
      · omega
      · exact hz
    split at hturn
    · cases hturn
    · cases hturn
      refine ⟨?_, .inr rfl⟩
      rw [hrest, append_nil]
      exact rfl
  · rw [if_neg hnil] at hturn
    have hgrown : f.staged ++ rest.take n <+: f.staged ++ rest :=
      (prefix_append_right_inj _).mpr (List.take_prefix n rest)
    cases hturn
    by_cases hdone : 0 < f.snap.size ∧ f.snap.size ≤ (f.staged ++ rest.take n).length
    · -- the size it noted is all the source has
      refine ⟨?_, .inr (if_pos hdone)⟩
      have hle := hsize hdone.1
      simp only [CacheFill.Follows, if_pos hdone]
      exact hgrown.eq_of_length_le (Nat.le_trans hle hdone.2)
    · refine ⟨?_, .inl (if_neg hdone)⟩
      simp only [CacheFill.Follows, if_neg hdone]
      exact ⟨hgrown, hsize⟩

theorem complete_of_l1 {l1 : CinfoL1 K}
    (hl1 : ∀ ci, l1.find key = some ci → s.l1.find key = some ci ∨
      ∃ m, s.record = some m ∧ ci = cinfoFromXmeta m)
    (h : CoherenceState.complete key { s with l1 := l1 }) : s.complete key := by
  rcases h with ⟨ci, hci, hcomplete⟩ | hrec
  · rcases hl1 ci hci with hold | ⟨m, hm, rfl⟩
    · exact .inl ⟨ci, hold, hcomplete⟩
    · exact .inr ⟨m, hm, hcomplete⟩
  · exact .inr hrec

section

variable (h : CoherenceInv key s)
include h

theorem CoherenceInv.withL1 {l1 : CinfoL1 K}
    (hl1 : ∀ ci, l1.find key = some ci → s.l1.find key = some ci ∨
      ∃ m, s.record = some m ∧ ci = cinfoFromXmeta m) :
    CoherenceInv key { s with l1 := l1 } := by
  refine ⟨⟨h.settled.fills, ?_⟩, h.seen, h.object, h.served⟩
  intro hopening hclaimed
  refine h.settled.copy hopening ?_
  exact hclaimed.imp_left (complete_of_l1 hl1)

theorem CoherenceInv.load :
    CoherenceInv key { s with l1 := (cstoreCinfoLoad s.l1 key s.record).2 } := by
  refine h.withL1 fun ci hci => ?_
  rcases of_find_cstoreCinfoLoad hci with hold | ⟨-, hrec⟩
  · exact .inl hold
  · exact .inr hrec

theorem CoherenceInv.withServed {r : ServedOpen}
    (hr : r.clean = true → r.bytes ∈ r.seen) :
    CoherenceInv key { s with served := r :: s.served } := by
  refine ⟨⟨h.settled.fills, h.settled.copy⟩, h.seen, h.object, ?_⟩
  intro x hx
  rcases mem_cons.mp hx with rfl | hold
  · exact hr
  · exact h.served x hold

theorem CoherenceInv.setRead (id : ℕ) {x : Option ReadOpen}
    (hfollows : ∀ r, x = some r → r.fill.Follows s.source)
    (hseen : ∀ r, x = some r → s.source ∈ r.seen)
    (hobject : ∀ r, x = some r → r.fill.stage = .published ∨ r.fill.stage = .recorded →
      ∀ b, s.object = some b → b ∈ r.seen)
    (hclaim : ∀ r, x = some r → r.fill.stage = .published → s.claimed key) :
    CoherenceInv key (s.setRead id x) := by
  refine ⟨⟨?_, ?_⟩, ?_, ?_, h.served⟩
  · intro id' r hr
    rcases of_update_eq_some hr with ⟨-, hx⟩ | ⟨-, hold⟩
    · exact hfollows r hx
    · exact h.settled.fills id' r hold
  · intro hopening hclaimed
    refine h.settled.copy hopening ?_
    rcases hclaimed with hcomplete | ⟨id', r, hr, hstage⟩
    · exact .inl hcomplete
    · rcases of_update_eq_some hr with ⟨-, hx⟩ | ⟨-, hold⟩
      · exact hclaim r hx hstage
      · exact .inr ⟨id', r, hold, hstage⟩
  · intro id' r hr
    rcases of_update_eq_some hr with ⟨-, hx⟩ | ⟨-, hold⟩
    · exact hseen r hx
    · exact h.seen id' r hold
  · intro id' r hr
    rcases of_update_eq_some hr with ⟨-, hx⟩ | ⟨-, hold⟩
    · exact hobject r hx
    · exact h.object id' r hold

theorem CoherenceInv.serve {id : ℕ} {r : ReadOpen} {bytes : Bytes}
    (hbytes : bytes ∈ r.seen) : CoherenceInv key (s.serve id r bytes) := by
  have hgone : CoherenceInv key (s.setRead id none) := by
    refine h.setRead id ?_ ?_ ?_ ?_ <;> rintro r ⟨⟩
  exact hgone.withServed fun _ => hbytes

theorem CoherenceInv.setSource {src : Bytes} {opening : ℕ}
    (hfills : ∀ id r, s.reads id = some r → r.fill.Follows src)
    (hcopy : opening = 0 → s.claimed key → ∀ b, s.object = some b → b = src) :
    CoherenceInv key { s.setSource src with opening := opening } := by
  have hreads : ∀ id r, (s.setSource src).reads id = some r →
      ∃ x, s.reads id = some x ∧ r = { x with seen := src :: x.seen } := by
    intro id r hr
    obtain ⟨x, hx, rfl⟩ := Option.map_eq_some_iff.mp hr
    exact ⟨x, hx, rfl⟩
  refine ⟨⟨?_, ?_⟩, ?_, ?_, h.served⟩
  · intro id r hr
    obtain ⟨x, hx, rfl⟩ := hreads id r hr
    exact hfills id x hx
  · intro hopening hclaimed
    refine hcopy hopening (hclaimed.imp_right ?_)
    rintro ⟨id, r, hr, hstage⟩
    obtain ⟨x, hx, rfl⟩ := hreads id r hr
    exact ⟨id, x, hx, hstage⟩
  · intro id r hr
    obtain ⟨x, hx, rfl⟩ := hreads id r hr
    exact mem_cons_self
  · intro id r hr hstage b hb
    obtain ⟨x, hx, rfl⟩ := hreads id r hr
    exact mem_cons_of_mem _ (h.object id x hx hstage b hb)

theorem CoherenceInv.publish {id : ℕ} {r : ReadOpen}
    (hread : s.reads id = some r) (hstage : r.fill.stage = .full) :
    CoherenceInv key
      { s.setRead id (some { r with fill := { r.fill with stage := .published } }) with
        object := some r.fill.staged } := by
  have hstaged : r.fill.staged = s.source := by
    have hfollows := h.settled.fills id r hread
    rw [CacheFill.Follows, hstage] at hfollows
    exact hfollows
  have hb : ∀ b, some r.fill.staged = some b → b = s.source :=
    fun b hb => (Option.some.inj hb).symm.trans hstaged
  refine ⟨⟨?_, ?_⟩, ?_, ?_, h.served⟩
  · intro id' x hx
    rcases of_update_eq_some hx with ⟨-, hnew⟩ | ⟨-, hold⟩
    · cases hnew
      exact trivial
    · exact h.settled.fills id' x hold
  · exact fun _ _ => hb
  · intro id' x hx
    rcases of_update_eq_some hx with ⟨-, hnew⟩ | ⟨-, hold⟩
    · cases hnew
      exact h.seen id r hread
    · exact h.seen id' x hold
  · intro id' x hx _ b hobj
    rw [hb b hobj]
    rcases of_update_eq_some hx with ⟨-, hnew⟩ | ⟨-, hold⟩
    · cases hnew
      exact h.seen id r hread
    · exact h.seen id' x hold

/-- **One step** that meets the condition keeps the invariant. -/
theorem CoherenceInv.step (hstep : CoherenceStep uvkeep key s a s')
    (hgood : CoherenceGood key s a) : CoherenceInv key s' := by
  cases hstep with
  | writeOpen trunc =>
    refine h.setSource hgood ?_
    -- the eviction is coming
    intro hopening
    cases hopening
  | evict =>
    refine ⟨⟨h.settled.fills, ?_⟩, h.seen, ?_, h.served⟩
    · rintro - - b ⟨⟩
    · rintro id r - - b ⟨⟩
  | write hwriter op => exact h.setSource hgood.fills hgood.copy
  | close =>
    exact ⟨⟨h.settled.fills, h.settled.copy⟩, h.seen, h.object, h.served⟩
  | @readHit now ci b hload husable hobject =>
    refine h.load.withServed ?_
    intro hclean
    have hcomplete : s.complete key := by
      have hflag := cacheHitUsable_complete husable
      rcases cstoreCinfoLoad_eq_ok hload with hci | ⟨-, m, hm, rfl⟩
      · exact .inl ⟨ci, hci, hflag⟩
      · exact .inr ⟨m, hm, hflag⟩
    exact mem_singleton.mpr (h.kept.cached hclean hcomplete b hobject)
  | @readMiss id now snap hfree hmiss hsnap =>
    refine h.load.setRead id ?_ ?_ ?_ ?_
    · rintro r ⟨⟩
      refine ⟨List.nil_prefix, ?_⟩
      intro hsize
      rcases hsnap with hz | hlen
      · exact absurd hsize (Nat.not_lt.mpr (Nat.le_of_eq hz))
      · exact Nat.le_of_eq hlen.symm
    · rintro r ⟨⟩
      exact mem_singleton_self _
    · rintro r ⟨⟩ (hstage | hstage) <;> cases hstage
    · rintro r ⟨⟩ hstage
      cases hstage
  | @turn id n r f hread hstage hpos hchunk hturn =>
    obtain ⟨hfollows, hnext⟩ := (h.settled.fills id r hread).turn hstage hpos hturn
    refine h.setRead id ?_ ?_ ?_ ?_
    · rintro x ⟨⟩
      exact hfollows
    · rintro x ⟨⟩
      exact h.seen id r hread
    · rintro x ⟨⟩ hlate
      rcases hnext with hp | hf
      · simp [hp] at hlate
      · simp [hf] at hlate
    · rintro x ⟨⟩ hlate
      rcases hnext with hp | hf
      · simp [hp] at hlate
      · simp [hf] at hlate
  | publish hread hstage => exact h.publish hread hstage
  | @record id now fv ttl manifest save r rec l1 hread hstage hstore =>
    have hclaimed : s.claimed key := .inr ⟨id, r, hread, hstage⟩
    have hnext : CoherenceInv key
        (s.setRead id (some { r with fill := { r.fill with stage := .recorded } })) := by
      refine h.setRead id ?_ ?_ ?_ ?_
      · rintro x ⟨⟩
        exact trivial
      · rintro x ⟨⟩
        exact h.seen id r hread
      · rintro x ⟨⟩ -
        exact h.object id r hread (.inl hstage)
      · rintro x ⟨⟩ hlate
        cases hlate
    -- whatever became of the header, the copy it is for was claimed before
    refine ⟨⟨hnext.settled.fills, ?_⟩, hnext.seen, hnext.object, hnext.served⟩
    intro hopening _
    exact h.settled.copy hopening hclaimed
  | @serve id r b hread hstage hobject =>
    exact h.serve (h.object id r hread (.inr hstage) b hobject)
  | @degrade id r hread hstage => exact h.serve (h.seen id r hread)
  | @otherLoad k hother rec =>
    refine h.withL1 fun ci hci => ?_
    rcases of_find_cstoreCinfoLoad hci with hold | ⟨heq, -⟩
    · exact .inl hold
    · exact absurd heq.symm hother
  | @otherPut k hother hdr =>
    refine h.withL1 fun ci hci => ?_
    rcases of_find_cinfoL1Put hci with ⟨heq, -⟩ | ⟨-, hold⟩
    · exact absurd heq.symm hother
    · exact .inl hold
  | otherDrop hother =>
    exact h.withL1 fun ci hci => .inl (of_find_cinfoL1Drop hci).2

end

/-! ### What goes wrong -/

theorem close_all (s : CoherenceState K) :
    Run (CoherenceStep uvkeep key) s (replicate s.writers .close) { s with writers := 0 } := by
  rcases s with ⟨source, opening, writers, object, record, l1, reads, served⟩
  induction writers with
  | zero => exact .nil _
  | succ n ih => exact .cons (.close (Nat.succ_pos n)) ih

theorem write_leaves_stale {op : SourceOp} {b : Bytes}
    (hstep : CoherenceStep uvkeep key s (.write op) s') (hopening : s.opening = 0)
    (hcomplete : s.complete key) (hobject : s.object = some b) (hstale : b ≠ op.apply s.source) :
    ∃ s'', Run (CoherenceStep uvkeep key) s' (replicate s'.writers .close) s'' ∧
      ¬ CoherenceKept key s'' := by
  refine ⟨_, close_all s', fun hkept => ?_⟩
  cases hstep with
  | write hwriter =>
    exact hstale (hkept.cached (decide_eq_true ⟨hopening, rfl⟩) hcomplete b hobject)

/-! ## Runs -/

/-- The system restricted to good steps. -/
def CoherenceGoodStep (uvkeep : Int64) (key : K) (s : CoherenceState K) (a : CoherenceAct K)
    (s' : CoherenceState K) : Prop := CoherenceStep uvkeep key s a s' ∧ CoherenceGood key s a

theorem coherenceInv_run {s₀ : CoherenceState K} {as : List (CoherenceAct K)} (hinit : s₀.Init)
    (hrun : Run (CoherenceGoodStep uvkeep key) s₀ as s) : CoherenceInv key s :=
  hrun.invariant (fun _ _ _ h hstep => h.step hstep.1 hstep.2) hinit.inv

/-- **When write invalidation is effective.** In every run of good steps a
read-open issued without a write handle returns the source, and without a write
handle every COMPLETE copy is the source. A write that changes what is cached as
COMPLETE leaves a stale copy behind once the handles are closed. -/
theorem coherenceKept_of_good {s₀ : CoherenceState K} {as : List (CoherenceAct K)}
    (hinit : s₀.Init) (hrun : Run (CoherenceGoodStep uvkeep key) s₀ as s) :
    CoherenceKept key s ∧
      ∀ op s' b, CoherenceStep uvkeep key s (.write op) s' → s.opening = 0 → s.complete key →
        s.object = some b → b ≠ op.apply s.source →
        ∃ s'', Run (CoherenceStep uvkeep key) s' (replicate s'.writers .close) s'' ∧
          ¬ CoherenceKept key s'' :=
  ⟨(coherenceInv_run hinit hrun).kept,
    fun _ _ _ hstep hopening hcomplete hobject hstale =>
      write_leaves_stale hstep hopening hcomplete hobject hstale⟩

end

/-- Two bytes, nothing cached. -/
def sampleCoherenceState : CoherenceState ℕ :=
  ⟨[1, 2], 0, 0, none, none, cinfoL1Create ℕ 0, fun _ => none, []⟩

theorem sampleCoherenceState_init : sampleCoherenceState.Init := ⟨rfl, fun _ => rfl, rfl⟩

/-- A read-open of the source's bytes, all of which it fills. -/
def fillRun : List (CoherenceAct ℕ) :=
  [.readMiss 0 5 ⟨2, 7, 0o644⟩, .turn 0 9, .publish 0, .record 0 5 ⟨false, [], []⟩ 0 false .saved,
    .serve 0]

theorem coherenceKept_of_good_sample :
    ∃ s, Run (CoherenceGoodStep 0 0) sampleCoherenceState
        ([.writeOpen false, .evict, .write (.pwrite 0 [3])] ++ fillRun ++
          [.close, .readHit 6]) s ∧
      CoherenceKept 0 s ∧
      ∀ op s' b, CoherenceStep 0 0 s (.write op) s' → s.opening = 0 → s.complete 0 →
        s.object = some b → b ≠ op.apply s.source →
        ∃ s'', Run (CoherenceStep 0 0) s' (replicate s'.writers .close) s'' ∧
          ¬ CoherenceKept 0 s'' := by
  have hrun : ∃ s, Run (CoherenceGoodStep 0 0) sampleCoherenceState
      ([.writeOpen false, .evict, .write (.pwrite 0 [3])] ++ fillRun ++
        [.close, .readHit 6]) s := by
    refine ⟨_, .cons ⟨.writeOpen _ false, ?_⟩ (.cons ⟨.evict (by decide), trivial⟩
      (.cons ⟨.write (by decide) _, ?_⟩ (.cons ⟨.readMiss rfl ?_ (.inr rfl), trivial⟩
        (.cons ⟨.turn rfl rfl (by decide) (by decide) rfl, trivial⟩
          (.cons ⟨.publish rfl rfl, trivial⟩ (.cons ⟨.record rfl rfl rfl, trivial⟩
            (.cons ⟨.serve rfl rfl rfl, trivial⟩ (.cons ⟨.close (by decide), trivial⟩
              (.cons ⟨.readHit rfl rfl rfl, trivial⟩ (.nil _))))))))))⟩
    · rintro id r ⟨⟩
    · refine ⟨?_, ?_⟩
      · rintro id r ⟨⟩
      · rintro - - b ⟨⟩
    · rintro ci ⟨⟩
  obtain ⟨s, hs⟩ := hrun
  exact ⟨s, hs, coherenceKept_of_good sampleCoherenceState_init hs⟩

/-- A fill between a write-open and its write: after the close its bytes are a
hit. -/
theorem fill_before_write_survives :
    ∃ s, Run (CoherenceStep 0 0) sampleCoherenceState
        ([.writeOpen false, .evict] ++ fillRun ++
          [.write (.pwrite 0 [3]), .close, .readHit 6]) s ∧
      (∃ rs, s.served = ⟨[1, 2], true, [[3, 2]]⟩ :: rs) ∧ s.source = [3, 2] ∧
      ¬ CoherenceKept 0 s := by
  refine ⟨_, .cons (.writeOpen _ false) (.cons (.evict (by decide))
    (.cons (.readMiss rfl (fun ci h => by cases h) (.inr rfl))
      (.cons (.turn rfl rfl (by decide) (by decide) rfl) (.cons (.publish rfl rfl)
        (.cons (.record rfl rfl rfl) (.cons (.serve rfl rfl rfl) (.cons (.write (by decide) _)
          (.cons (.close (by decide)) (.cons (.readHit rfl rfl rfl) (.nil _)))))))))),
    ⟨_, rfl⟩, rfl, ?_⟩
  intro hkept
  have hbytes := hkept.served _ mem_cons_self rfl
  exact absurd hbytes (by decide)

end BrixCache

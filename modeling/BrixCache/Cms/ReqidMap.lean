import BrixCache.Manager.RedirCache
import BrixCache.Core.Ascii

/-!
# The request-id map

`net/cms/reqid_map.c`: a table in shared memory that maps the manager's id of a prepare request to
the id of the staging engine. A prepare puts a mapping and its cancellation takes it. The table is
probed from the slot of the id's hash on, all the way around, and entries expire in place.
-/

namespace BrixCache

open Function

/-- `brix_cms_reqid_entry_t` -/
structure ReqidEntry : Type where
  keyHash : UInt32
  cmsReqid : Bytes
  engineReqid : Bytes
  notify : Bytes
  prty : Bytes
  expires : UInt64
  deriving DecidableEq

/-- The slots of `brix_cms_reqid_table_t`; one that was never used is `none`. -/
abbrev ReqidTable : Type := ℕ → Option ReqidEntry

/-- `BRIX_CMS_REQID_MAP_SLOTS` -/
def reqidMapSlots : ℕ := 512

/-- `BRIX_CMS_REQID_KEY_MAX` -/
def reqidKeyMax : ℕ := 64

/-- `BRIX_CMS_REQID_ENGINE_MAX` -/
def reqidEngineMax : ℕ := 64

/-- `BRIX_CMS_REQID_MAP_TTL_MS` -/
def reqidMapTtlMs : UInt64 := 24 * 60 * 60 * 1000

/-- FNV-1a over the request id. -/
def reqidHash (key : Bytes) : UInt32 :=
  key.foldl (fun h b => (h ^^^ b.toUInt32) * 16777619) 2166136261

/-- The slot at a place in the probe order of an id -/
def reqidSlot (key : Bytes) (i : ℕ) : ℕ := ((reqidHash key).toNat + i) % reqidMapSlots

/-- The first place in the probe order whose slot passes a test -/
def reqidProbe (t : ReqidTable) (key : Bytes) (test : Option ReqidEntry → Bool) : Option ℕ :=
  (List.range reqidMapSlots).find? fun i => test (t (reqidSlot key i))

/-- The entry records the id. -/
def ReqidEntry.isFor (e : ReqidEntry) (key : Bytes) : Bool :=
  e.keyHash = reqidHash key && e.cmsReqid = key

/-- Free, expired, or of the same id -/
def claimsReqid (now : UInt64) (key : Bytes) (slot : Option ReqidEntry) : Bool :=
  slot.all fun e => e.expires ≤ now || e.isFor key

/-- Where the search of `take` ends: a slot never used, or a live one of the id -/
def endsReqid (now : UInt64) (key : Bytes) (slot : Option ReqidEntry) : Bool :=
  slot.all fun e => !(e.expires ≤ now) && e.isFor key

def brixCmsReqidMapPut (t : ReqidTable) (now : UInt64) (cmsReqid engineReqid : Bytes)
    (notify prty : Option Bytes) : ReqidTable :=
  if cmsReqid = [] ∨ reqidKeyMax ≤ cmsReqid.length ∨ reqidEngineMax ≤ engineReqid.length then t
  else
    let victim := (reqidProbe t cmsReqid (claimsReqid now cmsReqid)).getD 0
    update t (reqidSlot cmsReqid victim) (some
      { keyHash := reqidHash cmsReqid
        cmsReqid := cmsReqid
        engineReqid := engineReqid
        notify := (notify.getD []).take 255
        prty := (prty.getD []).take 15
        expires := now + reqidMapTtlMs })

/-- `brix_cms_reqid_map_take`: the engine's id, as far as the caller's buffer holds it -/
def brixCmsReqidMapTake (t : ReqidTable) (now : UInt64) (cmsReqid : Bytes)
    (engineReqidSz : ℕ) : Option Bytes × ReqidTable :=
  if cmsReqid = [] ∨ reqidKeyMax ≤ cmsReqid.length then (none, t)
  else
    match reqidProbe t cmsReqid (endsReqid now cmsReqid) with
    | none => (none, t)
    | some i =>
      match t (reqidSlot cmsReqid i) with
      | none => (none, t)
      | some e =>
        -- expired in place, so that the probe chain over the slot stays
        (some (e.engineReqid.take (engineReqidSz - 1)),
          update t (reqidSlot cmsReqid i) (some { e with expires := now }))

/-! ## Calls -/

/-- The two calls on the map -/
inductive ReqidCall : Type where
  | put (cmsReqid engineReqid : Bytes) (notify prty : Option Bytes)
  | take (cmsReqid : Bytes) (engineReqidSz : ℕ)

/-- One call of the map's interface at time `now`. -/
def reqidCall (t : ReqidTable) (now : UInt64) : ReqidCall → ReqidTable
  | .put cmsReqid engineReqid notify prty =>
    brixCmsReqidMapPut t now cmsReqid engineReqid notify prty
  | .take cmsReqid engineReqidSz => (brixCmsReqidMapTake t now cmsReqid engineReqidSz).2

/-! ## The map it stands for -/

/-- A put: the engine's id, and until when it holds -/
structure ReqidPut : Type where
  engineReqid : Bytes
  expires : ℕ

/-- For each id the last put, unless it was consumed since -/
abbrev ReqidPuts : Type := Bytes → Option ReqidPut

/-- A put binds its id, a take that answers frees it. -/
def reqidMeans (t : ReqidTable) (m : ReqidPuts) (now : UInt64) : ReqidCall → ReqidPuts
  | .put cmsReqid engineReqid _ _ =>
    update m cmsReqid (some ⟨engineReqid, now.toNat + reqidMapTtlMs.toNat⟩)
  | .take cmsReqid engineReqidSz =>
    if (brixCmsReqidMapTake t now cmsReqid engineReqidSz).1.isSome then
      update m cmsReqid none
    else m

/-- The table, the map it stands for, and the clock -/
structure ReqidSystem : Type where
  table : ReqidTable
  means : ReqidPuts
  now : UInt64

/-- The zone is fresh. -/
def ReqidSystem.init : ReqidSystem := ⟨fun _ => none, fun _ => none, 0⟩

def ReqidSystem.after (s : ReqidSystem) (c : UInt64 × ReqidCall) : ReqidSystem :=
  ⟨reqidCall s.table c.1 c.2, reqidMeans s.table s.means c.1 c.2, c.1⟩

/-- A call at a time the clock has not passed yet -/
def ReqidStep (s : ReqidSystem) (c : UInt64 × ReqidCall) (s' : ReqidSystem) : Prop :=
  s.now ≤ c.1 ∧ s' = s.after c

/-- What a take may answer: a miss, or what was put last for the id, which is not expired and was
not consumed since. -/
def ReqidSystem.Allows (s : ReqidSystem) (now : UInt64) (key : Bytes) (size : ℕ) : Prop :=
  ∀ out, (brixCmsReqidMapTake s.table now key size).1 = some out →
    ∃ l, s.means key = some l ∧ now.toNat < l.expires ∧ out = l.engineReqid.take (size - 1)

/-- What a put must find: where a slot of its id is live, its engine's id fits, and no slot before
it in the probe order is expired. -/
def ReqidCall.Lands (t : ReqidTable) (now : UInt64) : ReqidCall → Prop
  | .put key engineReqid _ _ =>
    ∀ i < reqidMapSlots, ∀ e, t (reqidSlot key i) = some e → now < e.expires → e.cmsReqid = key →
      engineReqid.length < reqidEngineMax ∧
        ∀ j < i, ∀ f, t (reqidSlot key j) = some f → now < f.expires
  | .take _ _ => True

/-- A step whose put lands on the slot of its id -/
def ReqidLands (s : ReqidSystem) (c : UInt64 × ReqidCall) (s' : ReqidSystem) : Prop :=
  ReqidStep s c s' ∧ c.2.Lands s.table c.1

end BrixCache

/-!
## A prepare request is consumed once

Every put keeps this that does not pass an expired slot of another id on its way to the live slot
of its own.
-/

namespace BrixCache

open Function

variable {t : ReqidTable} {m : ReqidPuts} {now : UInt64} {key : Bytes} {i j : ℕ}
  {e f : ReqidEntry}

theorem reqidProbe_eq_some {test : Option ReqidEntry → Bool} :
    reqidProbe t key test = some i ↔
      test (t (reqidSlot key i)) = true ∧ i < reqidMapSlots ∧
        ∀ j < i, test (t (reqidSlot key j)) = false := by
  simp [reqidProbe]

theorem reqidProbe_eq_none {test : Option ReqidEntry → Bool} :
    reqidProbe t key test = none ↔
      ∀ i < reqidMapSlots, test (t (reqidSlot key i)) = false := by
  simp [reqidProbe]

theorem claimsReqid_eq_false {slot : Option ReqidEntry} (h : claimsReqid now key slot = false) :
    ∃ e, slot = some e ∧ now < e.expires ∧ e.isFor key = false := by
  cases slot with
  | none => cases h
  | some e =>
    simp only [claimsReqid, Option.all_some, Bool.or_eq_false_iff, decide_eq_false_iff_not,
      UInt64.not_le] at h
    exact ⟨e, rfl, h.1, h.2⟩

/-! ### The invariant -/

/-- The table against the last put of each id -/
structure ReqidInv (t : ReqidTable) (m : ReqidPuts) (now : UInt64) : Prop where
  hashed : ∀ i e, t i = some e → e.keyHash = reqidHash e.cmsReqid
  recorded : ∀ i e, t i = some e → e.cmsReqid ≠ [] ∧ e.cmsReqid.length < reqidKeyMax
  /-- The probe order of an entry's id reaches it through slots that were used. -/
  chain : ∀ i e, t i = some e → ∃ k < reqidMapSlots, i = reqidSlot e.cmsReqid k ∧
    ∀ j < k, t (reqidSlot e.cmsReqid j) ≠ none
  mapped : ∀ i e, t i = some e → now < e.expires →
    m e.cmsReqid = some ⟨e.engineReqid, e.expires.toNat⟩
  once : ∀ i j e f, t i = some e → t j = some f → now < e.expires → now < f.expires →
    e.cmsReqid = f.cmsReqid → i = j

theorem ReqidInv.init : ReqidInv (fun _ => none) (fun _ => none) now := by
  constructor <;> simp

section

variable (h : ReqidInv t m now)
include h

theorem ReqidInv.later {now' : UInt64} (hnow : now ≤ now') :
    ReqidInv t m now' where
  hashed := h.hashed
  recorded := h.recorded
  chain := h.chain
  mapped i e he hlive := h.mapped i e he (UInt64.lt_of_le_of_lt hnow hlive)
  once i j e f he hf hlive hlive' :=
    h.once i j e f he hf (UInt64.lt_of_le_of_lt hnow hlive) (UInt64.lt_of_le_of_lt hnow hlive')

theorem ReqidInv.isFor (he : t i = some e) :
    e.isFor key = true ↔ e.cmsReqid = key := by
  have hhash := h.hashed i e he
  constructor
  · intro hfor
    simpa using (Bool.and_eq_true_iff.mp hfor).2
  · rintro rfl
    simp [ReqidEntry.isFor, hhash]

theorem ReqidInv.map (v : Option ReqidPut)
    (hgone : ∀ i e, t i = some e → now < e.expires → e.cmsReqid ≠ key) :
    ReqidInv t (update m key v) now where
  hashed := h.hashed
  recorded := h.recorded
  chain := h.chain
  mapped i e he hlive := by
    rw [update_of_ne (hgone i e he hlive)]
    exact h.mapped i e he hlive
  once := h.once

/-- An entry in the first slot of its probe order that can be claimed -/
theorem ReqidInv.write {v : Option ReqidPut} (hi : i < reqidMapSlots)
    (hhash : e.keyHash = reqidHash e.cmsReqid)
    (hkey : e.cmsReqid ≠ [] ∧ e.cmsReqid.length < reqidKeyMax)
    (hchain : ∀ j < i, t (reqidSlot e.cmsReqid j) ≠ none)
    (hv : now < e.expires → v = some ⟨e.engineReqid, e.expires.toNat⟩)
    (hother : ∀ j f, j ≠ reqidSlot e.cmsReqid i → t j = some f → now < f.expires →
      f.cmsReqid ≠ e.cmsReqid) :
    ReqidInv (update t (reqidSlot e.cmsReqid i) (some e))
      (update m e.cmsReqid v) now where
  hashed j f hf := by
    obtain ⟨rfl, heq⟩ | ⟨-, hold⟩ := of_update_eq_some hf
    · exact Option.some.inj heq ▸ hhash
    · exact h.hashed j f hold
  recorded j f hf := by
    obtain ⟨rfl, heq⟩ | ⟨-, hold⟩ := of_update_eq_some hf
    · exact Option.some.inj heq ▸ hkey
    · exact h.recorded j f hold
  chain j f hf := by
    -- a slot in use stays in use
    have hused : ∀ p, t p ≠ none →
        update t (reqidSlot e.cmsReqid i) (some e) p ≠ none := by
      intro p hp
      rw [update_apply]
      split
      · simp
      · exact hp
    obtain ⟨rfl, heq⟩ | ⟨-, hold⟩ := of_update_eq_some hf
    · cases heq
      exact ⟨i, hi, rfl, fun j hj => hused _ (hchain j hj)⟩
    · obtain ⟨k, hk, hslot, hbefore⟩ := h.chain j f hold
      exact ⟨k, hk, hslot, fun j hj => hused _ (hbefore j hj)⟩
  mapped j f hf hlive := by
    obtain ⟨rfl, heq⟩ | ⟨hne, hold⟩ := of_update_eq_some hf
    · cases heq
      rw [update_self, hv hlive]
    · rw [update_of_ne (hother j f hne hold hlive)]
      exact h.mapped j f hold hlive
  once j k f g hf hg hlive hlive' hsame := by
    obtain ⟨rfl, heq⟩ | ⟨hne, hold⟩ := of_update_eq_some hf
    · cases heq
      obtain ⟨rfl, -⟩ | ⟨hne', hold'⟩ := of_update_eq_some hg
      · rfl
      · exact absurd hsame.symm (hother k g hne' hold' hlive')
    · obtain ⟨rfl, heq'⟩ | ⟨-, hold'⟩ := of_update_eq_some hg
      · cases heq'
        exact absurd hsame (hother j f hne hold hlive)
      · exact h.once j k f g hold hold' hlive hlive' hsame

/-! ### Calls -/

/-- A put that lands right leaves no other live entry of its id. -/
theorem ReqidInv.other {engine : Bytes}
    {notify prty : Option Bytes}
    (hlands : (ReqidCall.put key engine notify prty).Lands t now)
    (hj : j ≠ reqidSlot key ((reqidProbe t key (claimsReqid now key)).getD 0))
    (hf : t j = some f) (hlive : now < f.expires) : f.cmsReqid ≠ key := by
  rintro rfl
  obtain ⟨k, hk, rfl, hused⟩ := h.chain j f hf
  obtain ⟨-, hbefore⟩ := hlands k hk f hf hlive rfl
  have hclaims : claimsReqid now f.cmsReqid (t (reqidSlot f.cmsReqid k)) = true := by
    simp [hf, claimsReqid, (h.isFor hf).mpr rfl]
  cases hprobe : reqidProbe t f.cmsReqid (claimsReqid now f.cmsReqid) with
  | none =>
    have hno := reqidProbe_eq_none.mp hprobe k hk
    rw [hclaims] at hno
    cases hno
  | some p =>
    rw [hprobe, Option.getD_some] at hj
    obtain ⟨hp, hlt, hpass⟩ := reqidProbe_eq_some.mp hprobe
    rcases Nat.lt_trichotomy p k with hpk | rfl | hkp
    · -- the slot claimed is used and live, so it is one of the id
      obtain ⟨g, hg⟩ := Option.ne_none_iff_exists'.mp (hused p hpk)
      have hglive := hbefore p hpk g hg
      have hgkey : g.cmsReqid = f.cmsReqid := by
        rw [hg, claimsReqid, Option.all_some, Bool.or_eq_true, decide_eq_true_eq] at hp
        exact (h.isFor hg).mp (hp.resolve_left (UInt64.not_le.mpr hglive))
      exact hj (h.once _ _ f g hf hg hlive hglive hgkey.symm)
    · exact hj rfl
    · have hno := hpass k hkp
      rw [hclaims] at hno
      cases hno

/-- **A put** that lands right is what the id means from then on. -/
theorem ReqidInv.put {engine : Bytes}
    {notify prty : Option Bytes}
    (hlands : (ReqidCall.put key engine notify prty).Lands t now) :
    ReqidInv (brixCmsReqidMapPut t now key engine notify prty)
      (reqidMeans t m now (.put key engine notify prty)) now := by
  rw [brixCmsReqidMapPut, reqidMeans]
  split
  · next href =>
    -- refused: no entry of the id is live
    refine h.map _ fun i e he hlive hkey => ?_
    subst hkey
    obtain ⟨hne, hlen⟩ := h.recorded i e he
    obtain ⟨k, hk, rfl, -⟩ := h.chain i e he
    obtain ⟨hengine, -⟩ := hlands k hk e he hlive rfl
    obtain hnil | hlong | hlong := href
    · exact hne hnil
    · exact Nat.not_le.mpr hlen hlong
    · exact Nat.not_le.mpr hengine hlong
  · next htaken =>
    rw [not_or, not_or, Nat.not_le] at htaken
    refine h.write (e := ⟨reqidHash key, key, engine, _, _, now + reqidMapTtlMs⟩) ?_ rfl
      ⟨htaken.1, htaken.2.1⟩ ?_ (fun hlive => by rw [toNat_add_of_lt hlive])
      fun j f hj hf hlive => h.other hlands hj hf hlive
    · cases hprobe : reqidProbe t key (claimsReqid now key) with
      | none => decide
      | some p => exact (reqidProbe_eq_some.mp hprobe).2.1
    · intro j hj
      cases hprobe : reqidProbe t key (claimsReqid now key) with
      | none =>
        rw [hprobe] at hj
        exact absurd hj (Nat.not_lt_zero j)
      | some p =>
        rw [hprobe] at hj
        obtain ⟨f, hf, -⟩ := claimsReqid_eq_false ((reqidProbe_eq_some.mp hprobe).2.2 j hj)
        rw [hf]
        simp

end

theorem brixCmsReqidMapTake_eq_some {size : ℕ} {out : Bytes}
    (h : (brixCmsReqidMapTake t now key size).1 = some out) :
    ∃ i e, t (reqidSlot key i) = some e ∧ i < reqidMapSlots ∧ now < e.expires ∧
      e.isFor key = true ∧ (∀ j < i, t (reqidSlot key j) ≠ none) ∧
      out = e.engineReqid.take (size - 1) ∧
      (brixCmsReqidMapTake t now key size).2 =
        update t (reqidSlot key i) (some { e with expires := now }) := by
  rw [brixCmsReqidMapTake] at h ⊢
  split at h
  · cases h
  rw [if_neg ‹_›]
  cases hprobe : reqidProbe t key (endsReqid now key) with
  | none =>
    rw [hprobe] at h
    cases h
  | some i =>
    rw [hprobe] at h
    obtain ⟨hends, hi, hbefore⟩ := reqidProbe_eq_some.mp hprobe
    cases hslot : t (reqidSlot key i) with
    | none => simp [hslot] at h
    | some e =>
      simp only [hslot, Option.some.injEq] at h
      simp only [hslot, endsReqid, Option.all_some, Bool.and_eq_true, Bool.not_eq_true',
        decide_eq_false_iff_not, UInt64.not_le] at hends
      refine ⟨i, e, hslot, hi, hends.1, hends.2, fun j hj hnone => ?_, h.symm, by simp [hslot]⟩
      have hno := hbefore j hj
      rw [hnone] at hno
      cases hno

theorem brixCmsReqidMapTake_eq_none {size : ℕ}
    (h : (brixCmsReqidMapTake t now key size).1 = none) :
    (brixCmsReqidMapTake t now key size).2 = t := by
  rw [brixCmsReqidMapTake] at h ⊢
  split
  · rfl
  · split
    · rfl
    · split
      · rfl
      · simp_all

theorem ReqidInv.take (h : ReqidInv t m now) (key : Bytes) (size : ℕ) :
    ReqidInv (brixCmsReqidMapTake t now key size).2 (reqidMeans t m now (.take key size)) now := by
  rw [reqidMeans]
  cases hout : (brixCmsReqidMapTake t now key size).1 with
  | none =>
    rw [brixCmsReqidMapTake_eq_none hout]
    exact h
  | some out =>
    obtain ⟨i, e, he, hi, hlive, hfor, hused, -, htable⟩ := brixCmsReqidMapTake_eq_some hout
    obtain rfl := (h.isFor he).mp hfor
    rw [htable, if_pos (by simp)]
    refine h.write (e := { e with expires := now }) hi (h.hashed _ e he) (h.recorded _ e he) hused
      (fun hnow => absurd hnow (UInt64.lt_irrefl now)) fun j f hj hf hlive' hsame => ?_
    exact hj (h.once _ _ f e hf he hlive' hlive hsame)

theorem ReqidInv.allows {s : ReqidSystem} (h : ReqidInv s.table s.means now) (key : Bytes)
    (size : ℕ) : s.Allows now key size := by
  intro out hout
  obtain ⟨i, e, he, -, hlive, hfor, -, rfl, -⟩ := brixCmsReqidMapTake_eq_some hout
  obtain rfl := (h.isFor he).mp hfor
  exact ⟨_, h.mapped _ e he hlive, UInt64.lt_iff_toNat_lt.mp hlive, rfl⟩

/-! ### Runs -/

theorem ReqidInv.step {s s' : ReqidSystem} {c : UInt64 × ReqidCall}
    (h : ReqidInv s.table s.means s.now) (hstep : ReqidLands s c s') :
    ReqidInv s'.table s'.means s'.now := by
  obtain ⟨⟨hnow, rfl⟩, hlands⟩ := hstep
  obtain ⟨now, call⟩ := c
  have hlater := h.later hnow
  cases call with
  | put key engine notify prty => exact hlater.put hlands
  | take key size => exact hlater.take key size

/-- **A prepare request is consumed once.** In every run whose puts land, a take that succeeds
answers what was put last for its id, which is not expired, and the id is consumed with it. -/
theorem reqid_consumed_once {calls : List (UInt64 × ReqidCall)} {s : ReqidSystem}
    (h : Run ReqidLands .init calls s) {now : UInt64} (hnow : s.now ≤ now) (key : Bytes)
    (size : ℕ) : s.Allows now key size :=
  have hinv : ReqidInv s.table s.means s.now :=
    Run.invariant (I := fun s => ReqidInv s.table s.means s.now)
      (fun _ _ _ hs hstep => hs.step hstep) h .init
  (hinv.later hnow).allows key size

/-- Two ids of one home slot: `do` is put behind `ja`, and once more while both are live. -/
def sampleReqidCalls : List (UInt64 × ReqidCall) :=
  [(0, .put [106, 97] [48] none none), (0, .put [100, 111] [65] none none),
    (1, .put [100, 111] [66] none none)]

def sampleReqid : ReqidSystem := sampleReqidCalls.foldl ReqidSystem.after .init

theorem reqidLands_of_live {s : ReqidSystem} {c : UInt64 × ReqidCall} (hnow : s.now ≤ c.1)
    (hfits : ∀ key engineReqid notify prty, c.2 = .put key engineReqid notify prty →
      engineReqid.length < reqidEngineMax ∧ ∀ j < reqidMapSlots,
        (s.table (reqidSlot key j)).all fun f => decide (c.1 < f.expires)) :
    ReqidLands s c (s.after c) := by
  obtain ⟨now, call⟩ := c
  refine ⟨⟨hnow, rfl⟩, ?_⟩
  cases call with
  | take key size => trivial
  | put key engineReqid notify prty =>
    obtain ⟨hlen, hlive⟩ := hfits _ _ _ _ rfl
    intro i hi e _ _ _
    refine ⟨hlen, fun j hj f hf => ?_⟩
    have hslot := hlive j (Nat.lt_trans hj hi)
    rw [hf] at hslot
    exact of_decide_eq_true hslot

/-- The take answers the second put. -/
theorem reqid_consumed_once_sample :
    (brixCmsReqidMapTake sampleReqid.table 2 [100, 111] 64).1 = some [66] ∧
      sampleReqid.Allows 2 [100, 111] 64 := by
  have hrun : Run ReqidLands .init sampleReqidCalls sampleReqid := by
    refine .cons (reqidLands_of_live (by decide) ?_) (.cons (reqidLands_of_live (by decide) ?_)
      (.one (reqidLands_of_live (by decide) ?_)))
    all_goals
      rintro _ _ _ _ ⟨⟩
      decide +kernel
  exact ⟨by decide +kernel, reqid_consumed_once hrun (by decide : (1 : UInt64) ≤ 2) [100, 111] 64⟩

/-- Here `do` is put once more over the expired slot of `ja`. -/
def clashReqidCalls : List (UInt64 × ReqidCall) :=
  [(0, .put [106, 97] [48] none none), (0, .put [100, 111] [65] none none),
    (1, .take [106, 97] 64), (2, .put [100, 111] [66] none none), (3, .take [100, 111] 64)]

/-- The first mapping of `do` is answered after the second one was consumed. -/
theorem old_reqid_surfaces : ¬∀ (calls : List (UInt64 × ReqidCall)) (s : ReqidSystem)
    (now : UInt64) (key : Bytes) (size : ℕ), Run ReqidStep .init calls s → s.now ≤ now →
      s.Allows now key size := by
  intro h
  have hrun : Run ReqidStep .init clashReqidCalls (clashReqidCalls.foldl ReqidSystem.after .init) :=
    .cons ⟨by decide, rfl⟩ (.cons ⟨by decide, rfl⟩ (.cons ⟨by decide, rfl⟩
      (.cons ⟨by decide, rfl⟩ (.one ⟨by decide, rfl⟩))))
  have hold : (brixCmsReqidMapTake (clashReqidCalls.foldl ReqidSystem.after .init).table 4
      [100, 111] 64).1 = some [65] := by
    decide +kernel
  have hgone : ((clashReqidCalls.foldl ReqidSystem.after .init).means [100, 111]).isNone = true := by
    decide +kernel
  obtain ⟨l, hl, -⟩ := h _ _ 4 _ _ hrun (by decide : (3 : UInt64) ≤ 4) _ hold
  rw [hl] at hgone
  cases hgone

end BrixCache

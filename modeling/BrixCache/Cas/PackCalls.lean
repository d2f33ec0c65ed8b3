import BrixCache.Cas.PackRefine
import BrixCache.Core.Ascii

/-!
# What the calls of the packed store promise

The store seen from outside is a map from keys to bytes: what a `get` would
answer. `CasStep` says what each call may do to it — a reap, and the quota after
a put, may drop keys — and `CasPack.Rep.call` that the store does no other thing,
whatever part of a write fails, as long as no journal record is written behind one
that was cut short.
-/

namespace BrixCache

open Function

variable {cfg : PackCfg}

/-! ## The promise -/

abbrev CasMap : Type := Bytes → Option Bytes

/-- Some keys may be gone. -/
def CasMap.Evicts (m m' : CasMap) : Prop := ∀ key, m' key = none ∨ m' key = m key

/-- The calls on an open store, and closing it to open it again. -/
inductive PackCall : Type where
  | put (key data : Bytes) : PackCall
  | get (key : Bytes) : PackCall
  | del (key : Bytes) : PackCall
  | reap (target : ℤ) : PackCall
  | enforceQuota : PackCall
  | fsck : PackCall
  | reopen : PackCall
  deriving DecidableEq

/-- A call, what happens to its writes, and what it returns. -/
structure PackAct : Type where
  call : PackCall
  io : PackIo
  rc : ℤ

/-- What a call does to the live map. -/
inductive CasStep (cfg : PackCfg) : CasMap → PackAct → CasMap → Prop where
  /-- the quota may drop keys -/
  | put {m m' : CasMap} {key data : Bytes} {io : PackIo} (habsent : m key = none)
      (hevicts : CasMap.Evicts (update m key (some data)) m')
      (hunbounded : cfg.quota ≤ 0 → m' = update m key (some data)) :
      CasStep cfg m ⟨.put key data, io, 0⟩ m'
  /-- a live key is stored already -/
  | putLive {m : CasMap} {key data : Bytes} {io : PackIo} (hlive : m key ≠ none) :
      CasStep cfg m ⟨.put key data, io, 0⟩ m
  | putFails {m : CasMap} {key data : Bytes} {io : PackIo} :
      CasStep cfg m ⟨.put key data, io, -1⟩ m
  | get {m : CasMap} {key : Bytes} {io : PackIo} {rc : ℤ} : CasStep cfg m ⟨.get key, io, rc⟩ m
  | del {m : CasMap} {key : Bytes} {io : PackIo} (hlive : m key ≠ none) :
      CasStep cfg m ⟨.del key, io, 0⟩ (update m key none)
  | delAbsent {m : CasMap} {key : Bytes} {io : PackIo} (habsent : m key = none) :
      CasStep cfg m ⟨.del key, io, -1⟩ m
  | reap {m m' : CasMap} {target : ℤ} {io : PackIo} {rc : ℤ} (hevicts : m.Evicts m') :
      CasStep cfg m ⟨.reap target, io, rc⟩ m'
  | enforceQuota {m m' : CasMap} {io : PackIo} {rc : ℤ} (hevicts : m.Evicts m') :
      CasStep cfg m ⟨.enforceQuota, io, rc⟩ m'
  | fsck {m : CasMap} {io : PackIo} {rc : ℤ} : CasStep cfg m ⟨.fsck, io, rc⟩ m
  | reopen {m : CasMap} {io : PackIo} {rc : ℤ} : CasStep cfg m ⟨.reopen, io, rc⟩ m

/-! ## The calls -/

namespace CasPack

def call (cfg : PackCfg) (io : PackIo) (p : CasPack) : PackCall → CasPack × ℤ
  | .put key data => p.put cfg io key data
  | .get key => (p.get cfg io key, if (p.getBytes cfg key).isSome then 0 else -1)
  | .del key => p.del cfg io key
  | .reap target => (p.reap cfg io target, 0)
  | .enforceQuota => (p.enforceQuota cfg io, 0)
  | .fsck => (p.fsck cfg io, 0)
  | .reopen => (p.reopen cfg, 0)

end CasPack

/-- An object fits in memory. -/
def PackCall.Bounded : PackCall → Prop
  | .put _ data => data.length < 2 ^ 63
  | _ => True

/-- A call takes the store from one state to another. -/
structure PackStep (cfg : PackCfg) (p : CasPack) (a : PackAct) (p' : CasPack) : Prop where
  call : p.call cfg a.io a.call = (p', a.rc)
  scans : a.io.Scans
  bounded : a.call.Bounded

/-- Decompressing gives back what was compressed. -/
def PackCfg.Zips (cfg : PackCfg) : Prop :=
  ∀ data bytes, cfg.compress data = some bytes → cfg.decompress data.length bytes = some data

theorem payloadPrepare_key (cfg : PackCfg) (key data : Bytes) :
    (CasPack.payloadPrepare cfg key data).key = key := by
  simp only [CasPack.payloadPrepare]
  split
  · split
    · rfl
    · split <;> rfl
  · rfl

theorem payloadPrepare_of (hzips : cfg.Zips) {hist : Bytes → Bytes → Prop}
    {key data : Bytes} (hkey : PackKey key) (hdata : data.length < 2 ^ 63)
    (hhist : hist key data) : (CasPack.payloadPrepare cfg key data).Of cfg hist data := by
  have hplain : (⟨key, 0, data.length, data⟩ : SegRec).Of cfg hist data :=
    ⟨⟨hkey, UInt8.zero_le, hdata, hdata⟩, rfl, rfl, hhist⟩
  simp only [CasPack.payloadPrepare]
  split
  · split
    · exact hplain
    · rename_i bytes hcompress
      split
      · rename_i hsmall
        refine ⟨⟨hkey, UInt8.le_refl 1, Nat.lt_trans hsmall hdata, hdata⟩, ?_, rfl, hhist⟩
        have hone : ¬(1 : UInt8) = 0 := by decide
        rw [SegRec.content, if_neg hone, CasPack.storedPayloadExpand, SegRec.loc,
          hzips data bytes hcompress]
        exact if_pos rfl
      · exact hplain
  · exact hplain

namespace CasPack.Rep

variable {hist : Bytes → Bytes → Prop} {lossy : Bool} {p p' : CasPack}
  {s s' : RecStore} {torn torn' : Bytes}

theorem evicts (hrep' : p'.Rep cfg s' torn') (hinv' : s'.Inv cfg hist) {m : CasMap}
    (h : ∀ key d, s'.Reads cfg key d → m key = some d) : m.Evicts (p'.getBytes cfg) := by
  intro key
  cases hget : p'.getBytes cfg key with
  | none => exact .inl rfl
  | some d => exact .inr (h key d ((hrep'.getBytes_iff hinv').mp hget)).symm

variable {data key : Bytes} {io : PackIo}

theorem getBytes_stored (hrep : p.Rep cfg s torn) (hinv : s.Inv cfg hist)
    (hrep' : p'.Rep cfg s' torn') (hinv' : s'.Inv cfg hist)
    (h : ∀ key' d', s'.Reads cfg key' d' ↔
      (key' = key ∧ d' = data) ∨ (key' ≠ key ∧ s.Reads cfg key' d')) :
    p'.getBytes cfg = update (p.getBytes cfg) key (some data) := by
  funext key'
  apply Option.ext
  intro d'
  rw [hrep'.getBytes_iff hinv', h]
  by_cases hkey : key' = key
  · subst hkey
    rw [update_self, Option.some.injEq]
    exact ⟨fun h => h.elim (fun h => h.2.symm) fun h => absurd rfl h.1, fun h => .inl ⟨rfl, h.symm⟩⟩
  · rw [update_of_ne hkey, hrep.getBytes_iff hinv]
    exact ⟨fun h => h.elim (fun h => absurd h.1 hkey) fun h => h.2, fun h => .inr ⟨hkey, h⟩⟩

theorem putCommit_segHi (p : CasPack) (io : PackIo) (r : SegRec) :
    (p.appendRecord cfg io r).1.segHi ≤ (p.putCommit cfg io r).1.segHi := by
  rw [putCommit]
  split
  · rename_i q heq
    rw [heq]
  · rename_i q loc heq
    have hidx : (q.idxAppend cfg io opPut r.key loc).1.segHi = q.segHi := by
      rw [idxAppend]
      cases io.idxFail <;> rfl
    rw [heq]
    split
    · rename_i q' heq'
      rw [heq'] at hidx
      exact Nat.le_of_eq hidx.symm
    · rename_i q' heq'
      rw [heq'] at hidx
      let q'' : CasPack :=
        { q' with tab := q'.tab.insert r.key (loc, 0), liveBytes := q'.liveBytes + r.data.length }
      have hle : q''.segHi ≤ (q''.enforceQuota cfg io).segHi := enforceQuota_segHi q'' io
      exact Nat.le_trans (Nat.le_of_eq hidx.symm) hle

section

variable (hrep : p.Rep cfg s torn)
include hrep

/-- The record of a put, in a segment and in the journal as far as its writes come -/
theorem putCommit (hinv : s.Inv cfg hist)
    (hscans : io.Scans) {r : SegRec} (hr : r.Of cfg hist data)
    (habsent : s.tab r.key = none) (hidx : torn = [] ∨ io.idxFail = some 0)
    (hlossy : lossy = true ∨ io.idxFail = none)
    (hhi : (p.putCommit cfg io r).1.segHi < 100000000) :
    ∃ s' torn', io.Tears torn torn' ∧ (p.putCommit cfg io r).1.Rep cfg s' torn' ∧
      RecStore.Moves cfg hist lossy s s' ∧
      CasStep cfg (p.getBytes cfg) ⟨.put r.key data, io, (p.putCommit cfg io r).2⟩
        ((p.putCommit cfg io r).1.getBytes cfg) := by
  have hnoreads : ∀ d', s.Reads cfg r.key d' → d' = data := by
    rintro d' ⟨loc, rec, hloc, -⟩
    rw [habsent] at hloc
    cases hloc
  have hnone : p.getBytes cfg r.key = none := by
    rw [getBytes]
    cases hlookup : p.tab.lookup r.key with
    | none => rfl
    | some slot =>
      have hsome := hrep.lookup_fst hlookup
      rw [habsent] at hsome
      cases hsome
  have hsegHi := Nat.lt_of_le_of_lt (putCommit_segHi p io r) hhi
  obtain ⟨s₁, torn₁, htears, hmoves, hcases⟩ := hrep.storing hinv io hr hnoreads hidx hlossy hsegHi
  have hinv₁ := hmoves.inv hinv
  obtain ⟨q, heq, hq, hreads⟩ | ⟨q, loc, heq, ⟨q', heq', hq', hreads⟩ | ⟨q', heq', hq', hreads⟩⟩ := hcases
  · rw [CasPack.putCommit, heq]
    refine ⟨s₁, torn₁, htears, hq, hmoves, ?_⟩
    rw [show q.getBytes cfg = p.getBytes cfg from
      funext fun key => hrep.getBytes_congr hinv hq hinv₁ (hreads key)]
    exact .putFails
  · rw [CasPack.putCommit, heq]
    simp only [heq']
    refine ⟨s₁, torn₁, htears, hq', hmoves, ?_⟩
    rw [show q'.getBytes cfg = p.getBytes cfg from
      funext fun key => hrep.getBytes_congr hinv hq' hinv₁ (hreads key)]
    exact .putFails
  · rw [CasPack.putCommit, heq] at hhi ⊢
    simp only [heq'] at hhi ⊢
    have hq'' := hq' 0 (q'.liveBytes + r.data.length)
    have hmap := getBytes_stored hrep hinv hq'' hinv₁ hreads
    obtain ⟨s₂, torn₂, htears₂, hmoves₂, hrep₂, hsub, hsame⟩ :=
      hq''.enforceQuota lossy hinv₁ hscans hhi
    have hinv₂ := hmoves₂.inv hinv₁
    refine ⟨s₂, torn₂, htears.trans htears₂, hrep₂, hmoves.trans hmoves₂, .put hnone ?_ ?_⟩
    · apply hrep₂.evicts hinv₂
      intro key d hd
      rw [← hmap, hq''.getBytes_iff hinv₁]
      exact hsub key d hd
    · intro hquota
      rw [← hmap]
      exact funext fun key => hq''.getBytes_congr hinv₁ hrep₂ hinv₂
        fun d => ⟨hsub key d, hsame hquota key d⟩

/-- **A put**, whatever its writes come to -/
theorem put (hinv : s.Inv cfg hist) (hzips : cfg.Zips)
    (hscans : io.Scans) (hdata : data.length < 2 ^ 63)
    (hhist : hist key data) (hidx : torn = [] ∨ io.idxFail = some 0)
    (hlossy : lossy = true ∨ io.idxFail = none)
    (hhi : (p.put cfg io key data).1.segHi < 100000000) :
    ∃ s' torn', io.Tears torn torn' ∧ (p.put cfg io key data).1.Rep cfg s' torn' ∧
      RecStore.Moves cfg hist lossy s s' ∧
      CasStep cfg (p.getBytes cfg) ⟨.put key data, io, (p.put cfg io key data).2⟩
        ((p.put cfg io key data).1.getBytes cfg) := by
  rw [CasPack.put] at hhi ⊢
  split
  · exact ⟨s, torn, .keeps, hrep, .refl, .putFails⟩
  · rename_i hkey
    rw [if_neg hkey] at hhi
    split
    · rename_i hlive
      refine ⟨s, torn, .keeps, hrep, .refl, .putLive ?_⟩
      have hhas := hrep.has_eq hinv key
      rw [has, hlive] at hhas
      intro hnone
      rw [hnone] at hhas
      cases hhas
    · rename_i hdead
      rw [if_neg hdead] at hhi
      have hof : (payloadPrepare cfg key data).Of cfg hist data :=
        payloadPrepare_of hzips ⟨by omega, by omega⟩ hdata hhist
      have hrkey := payloadPrepare_key cfg key data
      have habsent : s.tab (payloadPrepare cfg key data).key = none := by
        rw [hrkey]
        exact hrep.lookup_none (by simpa using hdead)
      have hput := hrep.putCommit hinv hscans hof habsent hidx hlossy hhi
      rw [hrkey] at hput
      exact hput

/-! ### Getting -/

theorem counted {loc : PackLoc} (hits : UInt32)
    (hlive : s.tab key = some loc) :
    CasPack.Rep cfg { p with tab := p.tab.insert key (loc, hits) } s torn := by
  refine ⟨hrep.idx, hrep.torn, hrep.segs, hrep.gone, ?_, hrep.lo, hrep.hi, hrep.off⟩
  intro key'
  change ((p.tab.insert key (loc, hits)).lookup key').map Prod.fst = s.tab key'
  rw [hrep.tab_insert key key' loc hits, ← hlive, update_eq_self]

/-- A get that moves the record to the active segment changes no answer. -/
theorem promote (hinv : s.Inv cfg hist)
    {loc : PackLoc} (hits : UInt32) {raw : Bytes} (hlive : s.tab key = some loc)
    (hread : p.readVerified cfg key loc = some raw) (hidx : torn = [] ∨ io.idxFail = some 0)
    (hlossy : lossy = true ∨ io.idxFail = none)
    (hhi : (p.promote cfg io key loc hits raw).segHi < 100000000) :
    ∃ s' torn', io.Tears torn torn' ∧ (p.promote cfg io key loc hits raw).Rep cfg s' torn' ∧
      RecStore.Moves cfg hist lossy s s' ∧ ∀ key' d, s'.Reads cfg key' d ↔ s.Reads cfg key' d := by
  obtain ⟨r, d, hr, hd, hreads, hread', htake⟩ := hrep.live hinv hlive
  rw [hread', Option.some.injEq] at hread
  subst hread
  have hkey : PackKey key := hr.key ▸ hd.fits.key
  have hraw : d.length = loc.raw := by
    rw [hd.raw, ← hr.loc]
    rfl
  have hlen : d.length < 2 ^ 63 := hd.raw ▸ hd.fits.raw
  have hof : (⟨key, 0, loc.raw, d.take loc.raw⟩ : SegRec).Of cfg hist d := by
    rw [htake, ← hraw]
    exact ⟨⟨hkey, UInt8.zero_le, hlen, hlen⟩, rfl, rfl, hinv.reads_hist hreads⟩
  have hsame : ∀ d', s.Reads cfg key d' → d' = d := fun d' h => hinv.reads_unique h hreads
  have hsegHi : (p.appendRecord cfg io ⟨key, 0, loc.raw, d.take loc.raw⟩).1.segHi < 100000000 := by
    refine Nat.lt_of_le_of_lt ?_ hhi
    rw [CasPack.promote]
    split
    · rename_i q heq
      rw [heq]
    · rename_i q loc' heq
      have hseg : (q.idxAppend cfg io opPut key loc').1.segHi = q.segHi := by
        rw [idxAppend]
        cases io.idxFail <;> rfl
      rw [heq]
      split
      · rename_i q' heq'
        rw [heq'] at hseg
        exact Nat.le_of_eq hseg.symm
      · rename_i q' heq'
        rw [heq'] at hseg
        exact Nat.le_of_eq hseg.symm
  obtain ⟨s₁, torn₁, htears, hmoves, hcases⟩ := hrep.storing hinv io hof hsame hidx hlossy hsegHi
  obtain ⟨q, heq, hq, hreads₁⟩ | ⟨q, loc', heq, ⟨q', heq', hq', hreads₁⟩ | ⟨q', heq', hq', hreads₁⟩⟩ :=
    hcases
  · rw [CasPack.promote, heq]
    exact ⟨s₁, torn₁, htears, hq, hmoves, hreads₁⟩
  · rw [CasPack.promote, heq]
    simp only [heq']
    exact ⟨s₁, torn₁, htears, hq', hmoves, hreads₁⟩
  · rw [CasPack.promote, heq]
    simp only [heq']
    refine ⟨s₁, torn₁, htears, hq' hits _, hmoves, fun key' d' => ?_⟩
    rw [hreads₁]
    by_cases hkey' : key' = key
    · subst hkey'
      exact ⟨fun h => h.elim (fun h => h.2 ▸ hreads) fun h => h.2, fun h => .inl ⟨rfl, hsame d' h⟩⟩
    · exact ⟨fun h => h.elim (fun h => absurd h.1 hkey') fun h => h.2, fun h => .inr ⟨hkey', h⟩⟩

theorem get (hinv : s.Inv cfg hist)
    (hidx : torn = [] ∨ io.idxFail = some 0) (hlossy : lossy = true ∨ io.idxFail = none)
    (hhi : (p.get cfg io key).segHi < 100000000) :
    ∃ s' torn', io.Tears torn torn' ∧ (p.get cfg io key).Rep cfg s' torn' ∧
      RecStore.Moves cfg hist lossy s s' ∧
      ∀ key' d, s'.Reads cfg key' d ↔ s.Reads cfg key' d := by
  rw [CasPack.get] at hhi ⊢
  cases hlookup : p.tab.lookup key with
  | none => exact ⟨s, torn, .keeps, hrep, .refl, fun key' d => Iff.rfl⟩
  | some slot =>
    obtain ⟨loc, hits⟩ := slot
    have hlive := hrep.lookup_fst hlookup
    obtain ⟨r, d, -, -, -, hread, -⟩ := hrep.live hinv hlive
    simp only [hlookup, hread] at hhi ⊢
    have hcounted := hrep.counted (hits + 1) hlive
    split
    · rename_i hpromote
      rw [if_pos hpromote] at hhi
      exact hcounted.promote hinv (hits + 1) hlive hread hidx hlossy hhi
    · exact ⟨s, torn, .keeps, hcounted, .refl, fun key' d => Iff.rfl⟩

/-! ### The others -/

/-- **A delete** -/
theorem del (hinv : s.Inv cfg hist) (key : Bytes)
    (hidx : torn = [] ∨ io.idxFail = some 0) (hlossy : lossy = true ∨ io.idxFail = none) :
    ∃ s' torn', io.Tears torn torn' ∧ (p.del cfg io key).1.Rep cfg s' torn' ∧
      RecStore.Moves cfg hist lossy s s' ∧
      CasStep cfg (p.getBytes cfg) ⟨.del key, io, (p.del cfg io key).2⟩
        ((p.del cfg io key).1.getBytes cfg) := by
  rw [CasPack.del]
  cases hlookup : p.tab.lookup key with
  | none =>
    refine ⟨s, torn, .keeps, hrep, .refl, .delAbsent ?_⟩
    rw [getBytes, hlookup]
  | some slot =>
    obtain ⟨loc, hits⟩ := slot
    obtain ⟨s', torn', htears, hmove, hrep', hreads⟩ :=
      hrep.drop hinv (hrep.lookup_fst hlookup) hidx hlossy
    have hinv' := hmove.inv hinv
    have hmap : (p.drop cfg io key loc).getBytes cfg = update (p.getBytes cfg) key none := by
      funext key'
      apply Option.ext
      intro d
      rw [hrep'.getBytes_iff hinv', hreads]
      by_cases hkey : key' = key
      · subst hkey
        rw [update_self]
        exact iff_of_false (fun h => h.1 rfl) (fun h => by cases h)
      · rw [update_of_ne hkey, hrep.getBytes_iff hinv]
        exact and_iff_right hkey
    refine ⟨s', torn', htears, hrep', .single hmove, ?_⟩
    have hlive : p.getBytes cfg key ≠ none := by
      have hhas := hrep.has_eq hinv key
      rw [has, hlookup] at hhas
      intro hnone
      rw [hnone] at hhas
      cases hhas
    simp only [hmap]
    exact .del hlive

theorem fsck_eq (hinv : s.Inv cfg hist)
    (hscans : io.Scans) : p.fsck cfg io = p := by
  have hreads : ∀ slot ∈ io.order p.tab.entries, ∃ d, p.readVerified cfg slot.1 slot.2.1 = some d := by
    intro slot hslot
    have hlookup : p.tab.lookup slot.1 = some slot.2 :=
      AList.mem_lookup_iff.mpr ((hscans _).mem_iff.mp hslot)
    obtain ⟨r, d, -, -, -, hread, -⟩ :=
      hrep.live hinv (hrep.lookup_fst hlookup)
    exact ⟨d, hread⟩
  rw [fsck]
  generalize io.order p.tab.entries = slots at hreads
  induction slots with
  | nil => rfl
  | cons slot slots ih =>
    obtain ⟨d, hread⟩ := hreads slot List.mem_cons_self
    rw [List.foldl_cons]
    simp only [hread]
    exact ih fun slot' hslot' => hreads slot' (List.mem_cons_of_mem _ hslot')

end

theorem call (lossy : Bool) (hrep : p.Rep cfg s torn) (hinv : s.Inv cfg hist) (hzips : cfg.Zips)
    {a : PackAct}
    (hstep : PackStep cfg p a p') (hcall : a.call ≠ .reopen)
    (hhist : ∀ key data, a.call = .put key data → hist key data)
    (hidx : torn = [] ∨ a.io.idxFail = some 0) (hlossy : lossy = true ∨ a.io.idxFail = none)
    (hhi : p'.segHi < 100000000) :
    ∃ s' torn', a.io.Tears torn torn' ∧ p'.Rep cfg s' torn' ∧
      RecStore.Moves cfg hist lossy s s' ∧
      CasStep cfg (p.getBytes cfg) a (p'.getBytes cfg) := by
  obtain ⟨call, io, rc⟩ := a
  have hrun := hstep.call
  have hscans := hstep.scans
  cases call with
  | put key data =>
    have heq : p.put cfg io key data = (p', rc) := hrun
    have hput := hrep.put hinv hzips hscans hstep.bounded (hhist key data rfl) hidx hlossy
      (by rw [heq]; exact hhi)
    rw [heq] at hput
    exact hput
  | get key =>
    have heq : p.get cfg io key = p' := congrArg Prod.fst hrun
    subst heq
    obtain ⟨s', torn', htears, hrep', hmoves, hreads⟩ := hrep.get hinv hidx hlossy hhi
    refine ⟨s', torn', htears, hrep', hmoves, ?_⟩
    rw [show (p.get cfg io key).getBytes cfg = p.getBytes cfg from
      funext fun key' => hrep.getBytes_congr hinv hrep' (hmoves.inv hinv) (hreads key')]
    exact .get
  | del key =>
    have heq : p.del cfg io key = (p', rc) := hrun
    have hdel := hrep.del hinv key hidx hlossy
    rw [heq] at hdel
    exact hdel
  | reap target =>
    have heq : p.reapLocked cfg io target = p' := congrArg Prod.fst hrun
    subst heq
    obtain ⟨s', torn', htears, hmoves, hrep', hreads⟩ :=
      hrep.reapLocked lossy hinv hscans hhi
    exact ⟨s', torn', htears, hrep', hmoves, .reap (hrep'.evicts (hmoves.inv hinv) fun key d hd =>
      (hrep.getBytes_iff hinv).mpr (hreads key d hd))⟩
  | enforceQuota =>
    have heq : p.enforceQuota cfg io = p' := congrArg Prod.fst hrun
    subst heq
    obtain ⟨s', torn', htears, hmoves, hrep', hreads, -⟩ :=
      hrep.enforceQuota lossy hinv hscans hhi
    exact ⟨s', torn', htears, hrep', hmoves, .enforceQuota (hrep'.evicts (hmoves.inv hinv)
      fun key d hd => (hrep.getBytes_iff hinv).mpr (hreads key d hd))⟩
  | fsck =>
    have heq : p.fsck cfg io = p' := congrArg Prod.fst hrun
    rw [hrep.fsck_eq hinv hscans] at heq
    subst heq
    exact ⟨s, torn, .keeps, hrep, .refl, .fsck⟩
  | reopen => exact absurd rfl hcall

end CasPack.Rep

end BrixCache

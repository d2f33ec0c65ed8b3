import BrixCache.Cas.PackOpen
import BrixCache.Lib.Run
import BrixCache.Core.Ascii

/-!
# Closing the packed store and opening it again

A store whose writes went well is opened again as it was closed — except for the
records at the end of the active segment that the journal does not name. They are
taken for objects whose journal record a crash prevented, and adopted. A record
can be there because its key was deleted and the delete's own journal record went
with a compaction: the key comes back.
-/

namespace BrixCache

open Function List

variable {cfg : PackCfg}

/-- The journal names the record that ends where the active segment ends. -/
def CasPack.TailNamed (cfg : PackCfg) (p : CasPack) : Prop :=
  p.segOff = 0 ∨
    ∃ r ∈ ((idxFraming cfg.crc).scan p.idx).1, r.loc.seg = p.segHi ∧ r.fin = p.segOff

instance (cfg : PackCfg) (p : CasPack) : Decidable (p.TailNamed cfg) :=
  inferInstanceAs (Decidable (_ ∨ _))

/-- A step none of whose writes fails. -/
structure PackSmooth (cfg : PackCfg) (p : CasPack) (a : PackAct) (p' : CasPack) : Prop where
  step : PackStep cfg p a p'
  seg : a.io.segFail = none
  idx : a.io.idxFail = none
  compact : a.io.compactFail = false

/-- A store in a new directory. -/
def CasPack.fresh (cfg : PackCfg) : CasPack := PackDisk.empty.openPack cfg

/-- A step that goes right: journal records are written, segment numbers stay
within the eight digits the directory scan reads, and the store is closed and
opened again only with the end of its active segment named by the journal. -/
structure PackClean (cfg : PackCfg) (p : CasPack) (a : PackAct) (p' : CasPack) : Prop where
  step : PackStep cfg p a p'
  journaled : a.io.idxFail = none
  visible : p'.segHi < 100000000
  named : a.call = .reopen → p.TailNamed cfg

/-- A call of the run puts these bytes under the key. -/
def PackPut (as : List PackAct) (key data : Bytes) : Prop :=
  ∃ a ∈ as, a.call = .put key data

namespace CasPack

variable {hist : Bytes → Bytes → Prop} {p p' : CasPack} {s : RecStore}
  {torn : Bytes}

/-! ## A store closed -/

section

variable (hrep : p.Rep cfg s torn)
include hrep

theorem Rep.left (hinv : s.Inv cfg hist) :
    p.toPackDisk.Left cfg s s.journal torn (s.segs s.hi) [] where
  idx := hrep.idx
  idx_torn := hrep.torn.decode
  front r hr := hr
  segs n hlo hhi := hrep.segs n hlo (Nat.le_of_lt hhi)
  active := by
    rw [append_nil]
    exact hrep.segs s.hi hinv.lo_le (Nat.le_refl _)
  seg_torn := (segFraming cfg.crc).decode_nil
  rs := by
    refine ⟨[], (append_nil _).symm, ?_⟩
    rintro r back' heq
    cases heq
  gone := hrep.gone

theorem Rep.applies_eq (hinv : s.Inv cfg hist) {j : IdxRec}
    (hj : j ∈ s.journal) :
    Replay.applies s.lo s.hi (fun seg => (p.toPackDisk.segBytes seg).length) j =
      segFrom s.lo j := by
  obtain ⟨r, hr⟩ := hinv.placed j hj
  have hhi := hinv.stands_le hr
  by_cases hlo : s.lo ≤ j.loc.seg
  · have hend : j.loc.off + (r.encode cfg.crc).length ≤
        ((segFraming cfg.crc).encodeAll (s.segs j.loc.seg)).length := hr.at_off.end_le
    have hfin : j.fin ≤ (p.toPackDisk.segBytes j.loc.seg).length := by
      rw [PackDisk.segBytes, hrep.segs _ hlo hhi, IdxRec.fin,
        show j.loc.stored = r.data.length from congrArg PackLoc.stored hr.loc.symm]
      rw [SegRec.encode_length, hr.key] at hend
      change _ ≤ ((segFraming cfg.crc).encodeAll (s.segs j.loc.seg)).length
      omega
    simp [Replay.applies, segFrom, hlo, hhi, hfin]
  · simp [Replay.applies, segFrom, hlo, Nat.lt_of_not_le hlo]

theorem Rep.highWater (hinv : s.Inv cfg hist) :
    ∃ pre post, s.segs s.hi = pre ++ post ∧
      (Replay.ofJournal s.lo s.hi (fun seg => (p.toPackDisk.segBytes seg).length)
        s.journal).highWater = ((segFraming cfg.crc).encodeAll pre).length :=
  (hrep.left hinv).highWater_split hinv

theorem Rep.tailNamed_iff (hinv : s.Inv cfg hist) :
    p.TailNamed cfg ↔
      s.off cfg = 0 ∨ ∃ j ∈ s.journal, j.loc.seg = s.hi ∧ j.fin = s.off cfg := by
  have hscan : (idxFraming cfg.crc).scan p.idx = (s.journal, torn) := by
    rw [hrep.idx]
    exact Framing.scan_encodeAll (fun j hj => (hrep.left hinv).front_fits hinv hj)
      hrep.torn.decode
  rw [TailNamed, hscan, hrep.off, hrep.hi]

/-- A store whose tail is named opens as it was. -/
theorem Rep.reopen (hinv : s.Inv cfg hist) (hexact : s.Exact cfg)
    (hnamed : p.TailNamed cfg) : (p.reopen cfg).Rep cfg s [] := by
  obtain ⟨pre, post, hrs, hhwm⟩ := hrep.highWater hinv
  have hpost : post = [] := by
    have hoff : s.off cfg = ((segFraming cfg.crc).encodeAll pre).length +
        ((segFraming cfg.crc).encodeAll post).length := by
      rw [RecStore.off, hrs, Framing.encodeAll_append, length_append]
    have hle : s.off cfg ≤ ((segFraming cfg.crc).encodeAll pre).length := by
      obtain hzero | ⟨j, hj, hseg, hfin⟩ := (hrep.tailNamed_iff hinv).mp hnamed
      · omega
      · obtain ⟨-, hall⟩ := Replay.ofJournal_highWater s.lo s.hi
          (fun seg => (p.toPackDisk.segBytes seg).length) s.journal
        have hok : segFrom s.lo j = true := decide_eq_true (hseg ▸ hinv.lo_le)
        rw [← hfin, ← hhwm]
        exact hall j hj ((hrep.applies_eq hinv hj).trans hok) hseg
    cases post with
    | nil => rfl
    | cons r post =>
      have hr : r ∈ s.segs s.hi := by
        rw [hrs]
        exact mem_append_right _ mem_cons_self
      have hpos := Framing.encode_pos (F := segFraming cfg.crc) (hinv.fits hr)
      rw [Framing.encodeAll_cons, length_append] at hoff
      omega
  subst hpost
  have hopen := ((hrep.left hinv).opened hinv hrs hhwm).2
  have htab : replayed (Replay.applies s.lo s.hi fun seg => (p.toPackDisk.segBytes seg).length)
      s.journal = s.tab := by
    rw [replayed_congr fun j hj => hrep.applies_eq hinv hj]
    funext key
    rw [hexact.replays s.lo (Nat.le_refl _) key]
    cases hloc : s.tab key with
    | none => rfl
    | some loc => exact if_pos (decide_eq_true (hinv.live_lo key loc hloc))
  rw [PackDisk.adopted, append_nil, htab, update_eq_self] at hopen
  exact hopen

/-- A tail that is not named is adopted, though its key was deleted. -/
theorem Rep.reopen_resurrects (hinv : s.Inv cfg hist)
    (hexact : s.Exact cfg) (hunnamed : ¬p.TailNamed cfg) :
    ∃ key d, p.getBytes cfg key = none ∧ (p.reopen cfg).getBytes cfg key = some d := by
  rw [hrep.tailNamed_iff hinv] at hunnamed
  have hoff : s.off cfg ≠ 0 := fun h => hunnamed (.inl h)
  have hjournal : ∀ j ∈ s.journal, j.loc.seg = s.hi → j.fin ≠ s.off cfg :=
    fun j hj hseg hfin => hunnamed (.inr ⟨j, hj, hseg, hfin⟩)
  obtain ⟨pre, post, hrs, hhwm⟩ := hrep.highWater hinv
  -- the mark is short of the end
  obtain rfl | ⟨post', r, rfl⟩ := eq_nil_or_concat post
  · exfalso
    rw [append_nil] at hrs
    obtain ⟨hfrom, -⟩ := Replay.ofJournal_highWater s.lo s.hi
      (fun seg => (p.toPackDisk.segBytes seg).length) s.journal
    rw [hhwm, ← hrs] at hfrom
    obtain hzero | ⟨j, hj, -, hseg, hfin⟩ := hfrom
    · exact hoff hzero
    · exact hjournal j hj hseg hfin
  rw [concat_eq_append] at hrs
  have hlast : s.segs s.hi = (pre ++ post') ++ [r] := by
    rw [hrs, append_assoc]
  have hmem : r ∈ s.segs s.hi := by
    rw [hlast]
    exact mem_append_right _ mem_cons_self
  obtain ⟨d, hd⟩ := hinv.records _ r hmem
  obtain ⟨off, hstart⟩ : ∃ off, ((segFraming cfg.crc).encodeAll (pre ++ post')).length = off :=
    ⟨_, rfl⟩
  have hend : s.off cfg = off + (r.encode cfg.crc).length := by
    rw [RecStore.off, hlast, Framing.encodeAll_append, length_append, hstart,
      Framing.encodeAll_cons, Framing.encodeAll_nil, append_nil]
    rfl
  have hat : (segFraming cfg.crc).At (s.segs s.hi) off r := ⟨pre ++ post', [], hlast, hstart⟩
  refine ⟨r.key, d, ?_, ?_⟩
  · -- a live key's record is named, and none comes after it
    rw [getBytes]
    cases hlookup : p.tab.lookup r.key with
    | none => rfl
    | some slot =>
      exfalso
      have hlive := hrep.lookup_fst hlookup
      obtain ⟨hseg, hle⟩ := hexact.newest r.key slot.1 hlive off r hat rfl
      have hrep' := hinv.replays s.lo (Nat.le_refl _) r.key slot.1 hlive
        (hinv.live_lo _ _ hlive)
      have hput := (replayed_mem hrep').1
      obtain ⟨r', hr'⟩ := hinv.placed _ hput
      have hat' := hr'.at_off
      rw [hseg, hlast] at hat'
      have hfin : (IdxRec.mk opPut r.key slot.1).fin =
          slot.1.off + (r'.encode cfg.crc).length := by
        have hstored : slot.1.stored = r'.data.length := congrArg PackLoc.stored hr'.loc.symm
        have hkey : r'.key = r.key := hr'.key
        rw [IdxRec.fin, SegRec.encode_length, hkey]
        simp only
        omega
      obtain hold | ⟨hoff', rfl⟩ := hat'.of_concat
      · have hle' := hold.end_le
        rw [hstart] at hle'
        have hoff' : (IdxRec.mk opPut r.key slot.1).loc.off = slot.1.off := rfl
        have hpos := Framing.encode_pos (F := segFraming cfg.crc) (hinv.fits hr'.at_off.mem)
        omega
      · refine hjournal _ hput hseg ?_
        rw [hfin, hend, hoff', hstart]
  · obtain ⟨hputs, hopen⟩ := (hrep.left hinv).opened hinv hrs hhwm
    have hadopt := adopted_concat cfg s.hi ((segFraming cfg.crc).encodeAll pre).length post' r
    have hoff' : ((segFraming cfg.crc).encodeAll pre).length +
        ((segFraming cfg.crc).encodeAll post').length = off := by
      rw [← length_append, ← Framing.encodeAll_append, hstart]
    rw [hoff'] at hadopt
    rw [hadopt] at hputs hopen
    have hok := (hputs _ (mem_append_right _ mem_cons_self)).2
    have hlive := replayStep_put (m := replayed
      (Replay.applies s.lo s.hi fun seg => (p.toPackDisk.segBytes seg).length) (s.journal ++
        PackDisk.adopted cfg s.hi ((segFraming cfg.crc).encodeAll pre).length post')) hok
    rw [← replayed_concat, append_assoc] at hlive
    refine hopen.getBytes_stands hlive hinv.lo_le (Nat.le_refl _) ⟨?_, rfl, rfl⟩ hd
    change (segFraming cfg.crc).At (update s.segs s.hi _ s.hi) off r
    rw [update_self]
    exact hat

end

/-! ## Runs -/

theorem fresh_rep (cfg : PackCfg) :
    (fresh cfg).Rep cfg ⟨fun _ => [], [], fun _ => none, 0, 0⟩ [] := by
  have hidx : (idxFraming cfg.crc).scan PackDisk.empty.idx = ([], []) :=
    (idxFraming cfg.crc).scan_of_none (idxFraming cfg.crc).decode_nil
  have hseg : (segFraming cfg.crc).scan [] = ([], []) :=
    (segFraming cfg.crc).scan_of_none (segFraming cfg.crc).decode_nil
  have hbytes : ∀ n, PackDisk.empty.segBytes n = [] := fun n => rfl
  have hscan : scanSegments PackDisk.empty.segs.keys = (0, 0) := rfl
  have hfresh : fresh cfg =
      { segs := AList.insert 0 [] ∅, idx := [], tab := ∅, segLo := 0, segHi := 0, segOff := 0,
        liveBytes := 0, lo_le := Nat.le_refl 0 } := by
    simp [fresh, PackDisk.openPack, PackDisk.replay, hidx, hseg, hbytes, hscan, Replay.ofJournal,
      PackDisk.adopted]
    exact ⟨rfl, rfl⟩
  rw [hfresh]
  refine ⟨rfl, Framing.Torn.nil, ?_, ?_, fun key => rfl, rfl, rfl, rfl⟩
  · intro n _ hhi
    obtain rfl := Nat.le_zero.mp hhi
    exact AList.lookup_insert ∅
  · intro n hn
    have hne : n ≠ 0 := by
      have h : n < 0 ∨ 0 < n := hn
      omega
    exact AList.lookup_insert_ne hne

theorem fresh_inv (cfg : PackCfg) (hist : Bytes → Bytes → Prop) :
    (⟨fun _ => [], [], fun _ => none, 0, 0⟩ : RecStore).Inv cfg hist where
  lo_le := Nat.le_refl 0
  hi_lt := by decide
  records n r hr := nomatch hr
  size n := Nat.two_pow_pos 64
  beyond n hn := rfl
  placed r hr := nomatch hr
  live_lo key loc h := nomatch h
  replays lo hlo key loc h := nomatch h
  newest key loc d h := nomatch h

theorem fresh_exact (cfg : PackCfg) :
    (⟨fun _ => [], [], fun _ => none, 0, 0⟩ : RecStore).Exact cfg where
  replays _ _ _ := rfl
  newest _ _ h := nomatch h

theorem Rep.clean (hrep : p.Rep cfg s []) (hinv : s.Inv cfg hist) (hexact : s.Exact cfg)
    (hzips : cfg.Zips) {a : PackAct} (hstep : PackClean cfg p a p')
    (hhist : ∀ key data, a.call = .put key data → hist key data) :
    ∃ s', p'.Rep cfg s' [] ∧ s'.Inv cfg hist ∧ s'.Exact cfg ∧
      CasStep cfg (p.getBytes cfg) a (p'.getBytes cfg) := by
  by_cases hcall : a.call = .reopen
  · obtain ⟨call, io, rc⟩ := a
    cases hcall
    have heq : p.reopen cfg = p' := congrArg Prod.fst hstep.step.call
    have hrep' := hrep.reopen hinv hexact (hstep.named rfl)
    rw [heq] at hrep'
    have hsame : p'.getBytes cfg = p.getBytes cfg :=
      funext fun key => hrep.getBytes_congr hinv hrep' hinv fun d => Iff.rfl
    refine ⟨s, hrep', hinv, hexact, ?_⟩
    rw [hsame]
    exact .reopen
  · obtain ⟨s', torn', htears, hrep', hmoves, hspec⟩ := hrep.call false hinv hzips
      hstep.step hcall hhist (.inl rfl) (.inr hstep.journaled) hstep.visible
    obtain rfl := htears.eq_nil hstep.journaled
    exact ⟨s', hrep', hmoves.inv hinv, hmoves.exact hinv hexact, hspec⟩

theorem Rep.cleanRun (hrep : p.Rep cfg s []) (hinv : s.Inv cfg hist) (hexact : s.Exact cfg)
    (hzips : cfg.Zips) {as : List PackAct} (hrun : Run (PackClean cfg) p as p')
    (hhist : ∀ key data, PackPut as key data → hist key data) :
    ∃ s', p'.Rep cfg s' [] ∧ s'.Inv cfg hist ∧ s'.Exact cfg ∧
      Run (CasStep cfg) (p.getBytes cfg) as (p'.getBytes cfg) := by
  induction hrun generalizing s with
  | nil p => exact ⟨s, hrep, hinv, hexact, .nil _⟩
  | cons hstep hrest ih =>
    obtain ⟨s₁, hrep₁, hinv₁, hexact₁, hspec⟩ := hrep.clean hinv hexact hzips hstep
      fun key data hput => hhist key data ⟨_, mem_cons_self, hput⟩
    obtain ⟨s', hrep', hinv', hexact', hruns⟩ := ih hrep₁ hinv₁ hexact₁
      fun key data ⟨a, ha, hput⟩ => hhist key data ⟨a, mem_cons_of_mem _ ha, hput⟩
    exact ⟨s', hrep', hinv', hexact', .cons hspec hruns⟩

end CasPack

/-! ## A tiny store -/

/-- A store of tiny segments, without quota or tiering. -/
def tinyCfg : PackCfg where
  quota := 0
  segMax := 64
  segMax_lt := by decide
  tiering := false
  crc := crc32
  compress _ := none
  decompress _ _ := none

/-- All writes succeed, and a scan goes by age. -/
def smoothIo : PackIo := ⟨none, none, false, id⟩

theorem smoothIo_scans : smoothIo.Scans := fun slots => List.Perm.refl slots

theorem tinyCfg_zips : tinyCfg.Zips := fun _ _ h => nomatch h

theorem smooth_step (p : CasPack) (c : PackCall) (hbounded : c.Bounded) :
    PackSmooth tinyCfg p ⟨c, smoothIo, (p.call tinyCfg smoothIo c).2⟩
      (p.call tinyCfg smoothIo c).1 :=
  ⟨⟨rfl, smoothIo_scans, hbounded⟩, rfl, rfl, rfl⟩

/-- The store after calls without failing writes. -/
def tinyAfter (calls : List PackCall) : CasPack :=
  calls.foldl (fun p c => (p.call tinyCfg smoothIo c).1) (CasPack.fresh tinyCfg)

/-- **Reopen equivalence.** Over any clean run the live map is what the calls
promise, a reopen changing nothing; and closed and opened again after it, the
store shows the same map exactly when the journal names the end of the active
segment. -/
theorem casPack_reopen (hzips : cfg.Zips) {as : List PackAct} {p : CasPack}
    (hrun : Run (PackClean cfg) (CasPack.fresh cfg) as p) :
    Run (CasStep cfg) (fun _ => none) as (p.getBytes cfg) ∧
      (∀ key, p.has key = (p.getBytes cfg key).isSome) ∧
      ((p.reopen cfg).getBytes cfg = p.getBytes cfg ↔ p.TailNamed cfg) := by
  have hempty : (CasPack.fresh cfg).getBytes cfg = fun _ => none := by
    funext key
    apply Option.ext
    intro d
    rw [(CasPack.fresh_rep cfg).getBytes_iff (CasPack.fresh_inv cfg (PackPut as))]
    exact iff_of_false (fun ⟨loc, r, hloc, _⟩ => nomatch hloc) fun h => nomatch h
  obtain ⟨s, hrep, hinv, hexact, hspec⟩ := (CasPack.fresh_rep cfg).cleanRun
    (CasPack.fresh_inv cfg (PackPut as)) (CasPack.fresh_exact cfg) hzips hrun fun key data h => h
  refine ⟨hempty ▸ hspec, hrep.has_eq hinv, ?_, ?_⟩
  · intro hsame
    by_contra hunnamed
    obtain ⟨key, d, hdead, hlive⟩ := hrep.reopen_resurrects hinv hexact hunnamed
    rw [hsame, hdead] at hlive
    cases hlive
  · intro hnamed
    have hrep' := hrep.reopen hinv hexact hnamed
    exact funext fun key => hrep.getBytes_congr hinv hrep' hinv fun d => Iff.rfl

/-- Put, close and open, and put again. -/
theorem casPack_reopen_sample :
    (((tinyAfter [.put [0x61] [1], .reopen, .put [0x62] [2, 3]]).reopen tinyCfg).getBytes tinyCfg =
        (tinyAfter [.put [0x61] [1], .reopen, .put [0x62] [2, 3]]).getBytes tinyCfg) ∧
      (tinyAfter [.put [0x61] [1], .reopen, .put [0x62] [2, 3]]).getBytes tinyCfg [0x61] =
        some [1] := by
  have hrun : Run (PackClean tinyCfg) (CasPack.fresh tinyCfg) _
      (tinyAfter [.put [0x61] [1], .reopen, .put [0x62] [2, 3]]) :=
    .cons ⟨(smooth_step _ (.put [0x61] [1]) (by simp [PackCall.Bounded])).step, rfl,
      by decide +kernel, fun h => nomatch h⟩ <|
    .cons ⟨(smooth_step _ .reopen trivial).step, rfl, by decide +kernel,
      fun _ => by decide +kernel⟩ <|
    .cons ⟨(smooth_step _ (.put [0x62] [2, 3]) (by simp [PackCall.Bounded])).step, rfl,
      by decide +kernel, fun h => nomatch h⟩ (.nil _)
  exact ⟨(casPack_reopen tinyCfg_zips hrun).2.2.mpr (by decide +kernel), by decide +kernel⟩

/-- An object in a segment of its own, one in the next, which is deleted; and a
reap of the first segment. -/
def reapedCalls : List PackCall :=
  [.put [0x61] (replicate 40 1), .put [0x62] [2, 3], .del [0x62], .reap 0]

/-- **A deleted key comes back.** The reap's compaction leaves the delete out of
the journal, and the deleted record at the end of the active segment is adopted. -/
theorem reopen_resurrects_deleted :
    ¬∀ (as : List PackAct) (p : CasPack), Run (PackSmooth tinyCfg) (CasPack.fresh tinyCfg) as p →
      (p.reopen tinyCfg).getBytes tinyCfg = p.getBytes tinyCfg := by
  intro h
  have hrun := h _ (tinyAfter reapedCalls) <|
    .cons (smooth_step _ (.put [0x61] (replicate 40 1)) (by simp [PackCall.Bounded])) <|
    .cons (smooth_step _ (.put [0x62] [2, 3]) (by simp [PackCall.Bounded])) <|
    .cons (smooth_step _ (.del [0x62]) trivial) <|
    .cons (smooth_step _ (.reap 0) trivial) (.nil _)
  have hdead : (tinyAfter reapedCalls).getBytes tinyCfg [0x62] = none := by decide +kernel
  have hlive : ((tinyAfter reapedCalls).reopen tinyCfg).getBytes tinyCfg [0x62] = some [2, 3] := by
    decide +kernel
  rw [hrun, hdead] at hlive
  cases hlive

end BrixCache

/-!
## Failed and torn writes of the packed store

Nothing is lost by a write that fails after a part of it as long as nothing is written behind the
torn record it leaves.
-/

namespace BrixCache

open Function List

variable {cfg : PackCfg}

/-- The journal ends with a whole record. -/
def CasPack.Whole (cfg : PackCfg) (p : CasPack) : Prop :=
  ((idxFraming cfg.crc).scan p.idx).2 = []

instance (cfg : PackCfg) (p : CasPack) : Decidable (p.Whole cfg) :=
  inferInstanceAs (Decidable (_ = _))

/-- A step of an open store whose journal record, if it writes any of it, is not
written behind a torn one. -/
structure PackShort (cfg : PackCfg) (p : CasPack) (a : PackAct) (p' : CasPack) : Prop where
  step : PackStep cfg p a p'
  opened : a.call ≠ .reopen
  visible : p'.segHi < 100000000
  whole : p.Whole cfg ∨ a.io.idxFail = some 0

namespace CasPack

variable {hist : Bytes → Bytes → Prop} {p p' : CasPack} {s : RecStore}
  {torn : Bytes}

theorem Rep.whole_iff (hrep : p.Rep cfg s torn) (hinv : s.Inv cfg hist) :
    p.Whole cfg ↔ torn = [] := by
  have hscan : (idxFraming cfg.crc).scan p.idx = (s.journal, torn) := by
    rw [hrep.idx]
    exact Framing.scan_encodeAll (fun j hj => (hrep.left hinv).front_fits hinv hj)
      hrep.torn.decode
  rw [Whole, hscan]

theorem Rep.shortRun (hrep : p.Rep cfg s torn) (hinv : s.Inv cfg hist) (hzips : cfg.Zips)
    {as : List PackAct} (hrun : Run (PackShort cfg) p as p')
    (hhist : ∀ key data, PackPut as key data → hist key data) :
    ∃ s' torn', p'.Rep cfg s' torn' ∧ s'.Inv cfg hist ∧
      Run (CasStep cfg) (p.getBytes cfg) as (p'.getBytes cfg) := by
  induction hrun generalizing s torn with
  | nil p => exact ⟨s, torn, hrep, hinv, .nil _⟩
  | cons hstep hrest ih =>
    obtain ⟨s₁, torn₁, -, hrep₁, hmoves, hspec⟩ := hrep.call true hinv hzips hstep.step
      hstep.opened (fun key data hput => hhist key data ⟨_, mem_cons_self, hput⟩)
      (hstep.whole.imp_left (hrep.whole_iff hinv).mp) (.inl rfl) hstep.visible
    obtain ⟨s', torn', hrep', hinv', hruns⟩ := ih hrep₁ (hmoves.inv hinv)
      fun key data ⟨a, ha, hput⟩ => hhist key data ⟨a, mem_cons_of_mem _ ha, hput⟩
    exact ⟨s', torn', hrep', hinv', .cons hspec hruns⟩

/-! ### What a reopen keeps -/

/-- What was live has its bytes after a reopen. -/
theorem Rep.reopen_live (hrep : p.Rep cfg s torn) (hinv : s.Inv cfg hist) {key d : Bytes}
    (hlive : p.getBytes cfg key = some d) : (p.reopen cfg).getBytes cfg key = some d := by
  have hreads := (hrep.getBytes_iff hinv).mp hlive
  obtain ⟨loc, r, hloc, hr, hcontent⟩ := hreads
  obtain ⟨d', hd'⟩ := hinv.records _ r hr.at_off.mem
  obtain rfl : d' = d := by
    rw [hd'.content] at hcontent
    exact Option.some.inj hcontent
  have hlo := hinv.live_lo key loc hloc
  have hreplayed := hinv.replays s.lo (Nat.le_refl _) key loc hloc hlo
  have hput := (replayed_mem hreplayed).1
  obtain ⟨pre, post, hrs, hhwm⟩ := hrep.highWater hinv
  obtain ⟨hputs, hopen⟩ := (hrep.left hinv).opened hinv hrs hhwm
  rw [update_eq_self] at hopen
  obtain ⟨j, hj, hkey, htab⟩ | ⟨-, htab⟩ := replayed_append_puts s.journal hputs key
  · -- a record of the key after the high-water mark has the key's bytes
    obtain ⟨r', off, hat, hoff, rfl⟩ := mem_adopted hj
    rw [← hrs] at hat
    have hbehind : loc.seg = s.hi → loc.off ≤ off := by
      intro hseg
      obtain ⟨-, hall⟩ := Replay.ofJournal_highWater s.lo s.hi
        (fun seg => (p.toPackDisk.segBytes seg).length) s.journal
      have hok : segFrom s.lo ⟨opPut, key, loc⟩ = true := decide_eq_true hlo
      have hfin := hall _ hput ((hrep.applies_eq hinv hput).trans hok) hseg
      rw [hhwm] at hfin
      simp only [IdxRec.fin] at hfin
      omega
    have hcontent' := hinv.newest key loc d' hloc ⟨loc, r, hloc, hr, hd'.content⟩ off r' hat hkey
      hbehind
    obtain ⟨d'', hd''⟩ := hinv.records _ r' hat.mem
    rw [hd''.content] at hcontent'
    cases hcontent'
    exact hopen.getBytes_stands htab hinv.lo_le (Nat.le_refl _) ⟨hat, hkey, rfl⟩ hd''
  · rw [replayed_congr fun j hj => hrep.applies_eq hinv hj, hreplayed] at htab
    exact hopen.getBytes_stands htab hlo (hinv.stands_le hr) hr hd'

end CasPack

/-! ### What a crash leaves -/

namespace PackDisk.Left

variable {hist : Bytes → Bytes → Prop} {d : PackDisk} {s : RecStore}
  {front : List IdxRec} {torn : Bytes} {rs : List SegRec} {tornSeg : Bytes}

/-- A key that an opened store has reads back bytes that were put under it. -/
theorem served (hleft : d.Left cfg s front torn rs tornSeg) (hinv : s.Inv cfg hist)
    {key : Bytes} (hhas : (d.openPack cfg).has key = true) :
    ∃ data, (d.openPack cfg).getBytes cfg key = some data ∧ hist key data := by
  obtain ⟨pre, post, hrs, hhwm⟩ := hleft.highWater_split hinv
  obtain ⟨-, hopen⟩ := hleft.opened hinv hrs hhwm
  obtain ⟨slot, hslot⟩ := Option.isSome_iff_exists.mp hhas
  have htab := hopen.lookup_fst hslot
  obtain ⟨hmem, hok⟩ := replayed_mem htab
  obtain ⟨back, hback, -⟩ := hleft.rs
  -- the key's record is in place in what is left
  have hplace : ∃ r, s.lo ≤ slot.1.seg ∧ slot.1.seg ≤ s.hi ∧ r.key = key ∧
      r.loc slot.1.seg slot.1.off = slot.1 ∧ r ∈ s.segs slot.1.seg ∧
      (segFraming cfg.crc).At (update s.segs s.hi rs slot.1.seg) slot.1.off r := by
    obtain hfront | hadopted := mem_append.mp hmem
    · obtain ⟨hlo, hhi, r, hr, hlast⟩ := hleft.placed hinv hfront hok
      refine ⟨r, hlo, hhi, hr.key, hr.loc, hr.at_off.mem, ?_⟩
      by_cases hseg : slot.1.seg = s.hi
      · rw [hseg, update_self]
        exact (hlast hseg).1
      · rw [update_of_ne hseg]
        exact hr.at_off
    · obtain ⟨r, off, hat, -, heq⟩ := mem_adopted hadopted
      have hkey : key = r.key := congrArg IdxRec.key heq
      have hloc : slot.1 = r.loc s.hi off := congrArg IdxRec.loc heq
      rw [← hrs] at hat
      rw [hloc]
      refine ⟨r, hinv.lo_le, Nat.le_refl _, hkey.symm, rfl, ?_, ?_⟩
      · exact hback ▸ mem_append_left back hat.mem
      · rw [SegRec.loc, update_self]
        exact hat
  obtain ⟨r, hlo, hhi, hkey, hloc, hrmem, hat⟩ := hplace
  obtain ⟨data, hdata⟩ := hinv.records _ r hrmem
  exact ⟨data, hopen.getBytes_stands htab hlo hhi ⟨hat, hkey, hloc⟩ hdata, hkey ▸ hdata.hist⟩

end PackDisk.Left

namespace CasPack

variable {hist : Bytes → Bytes → Prop} {p : CasPack} {s : RecStore} {torn : Bytes}

theorem Rep.cut (hrep : p.Rep cfg s torn) (hinv : s.Inv cfg hist) (idxLen segLen : ℕ) :
    ∃ front torn' rs tornSeg,
      (p.toPackDisk.cut p.segHi idxLen segLen).Left cfg s front torn' rs tornSeg := by
  have hfits : ∀ j ∈ s.journal, (idxFraming cfg.crc).Fits j :=
    fun j hj => (hrep.left hinv).front_fits hinv hj
  obtain ⟨front, back, torn', hjournal, htorn', hidx⟩ := Framing.take_torn hfits hrep.torn idxLen
  have hfitsSeg : ∀ r ∈ s.segs s.hi, (segFraming cfg.crc).Fits r := fun r hr => hinv.fits hr
  obtain ⟨rs, back', tornSeg, hsegs, htornSeg, hseg, hshort⟩ :=
    Framing.take_encodeAll hfitsSeg segLen
  refine ⟨front, torn', rs, tornSeg, ?_, htorn'.decode, ?_, ?_, ?_, htornSeg.decode,
    ⟨back', hsegs, hshort⟩, ?_⟩
  · rw [PackDisk.cut, hrep.idx, hidx]
  · intro j hj
    rw [hjournal]
    exact mem_append_left _ hj
  · intro n hlo hhi
    rw [PackDisk.cut, hrep.hi, AList.lookup_insert_ne (Nat.ne_of_lt hhi)]
    exact hrep.segs n hlo (Nat.le_of_lt hhi)
  · rw [PackDisk.cut, hrep.hi, AList.lookup_insert, PackDisk.segBytes,
      hrep.segs s.hi hinv.lo_le (Nat.le_refl _)]
    exact congrArg some hseg
  · intro n hn
    rw [PackDisk.cut, AList.lookup_insert_ne (hrep.ne_of_gone hinv hn)]
    exact hrep.gone n hn

end CasPack

/-- **Failed and torn journal writes.** In any run in which nothing is written
behind a torn journal record, the live map is what the calls that succeeded
promise, all of it is there after a reopen, and the store opened after a crash at
any byte of journal and active segment serves only what was put. -/
theorem casPack_torn_journal (hzips : cfg.Zips) {as bs : List PackAct} {p q : CasPack}
    (hclean : Run (PackClean cfg) (CasPack.fresh cfg) as p) (hrun : Run (PackShort cfg) p bs q) :
    Run (CasStep cfg) (p.getBytes cfg) bs (q.getBytes cfg) ∧
      (∀ key data, q.getBytes cfg key = some data →
        (q.reopen cfg).getBytes cfg key = some data) ∧
      ∀ idxLen segLen key,
        ((q.toPackDisk.cut q.segHi idxLen segLen).openPack cfg).has key = true →
          ∃ data, ((q.toPackDisk.cut q.segHi idxLen segLen).openPack cfg).getBytes cfg key =
            some data ∧ PackPut (as ++ bs) key data := by
  obtain ⟨s, hrep, hinv, -, -⟩ := (CasPack.fresh_rep cfg).cleanRun
    (CasPack.fresh_inv cfg (PackPut (as ++ bs))) (CasPack.fresh_exact cfg) hzips hclean
      fun key data ⟨a, ha, hput⟩ => ⟨a, mem_append_left _ ha, hput⟩
  obtain ⟨s', torn', hrep', hinv', hspec⟩ := hrep.shortRun hinv hzips hrun
    fun key data ⟨a, ha, hput⟩ => ⟨a, mem_append_right _ ha, hput⟩
  refine ⟨hspec, fun key data => hrep'.reopen_live hinv', ?_⟩
  intro idxLen segLen key hhas
  obtain ⟨front, torn, rs, tornSeg, hleft⟩ := hrep'.cut hinv' idxLen segLen
  exact hleft.served hinv' hhas

/-! ### Two runs -/

/-- Journal writes stop after `n` bytes. -/
def shortIo (n : ℕ) : PackIo := ⟨none, some n, false, id⟩

theorem shortIo_scans (n : ℕ) : (shortIo n).Scans := fun slots => List.Perm.refl slots

/-- The store after puts, each with what happens to its writes. -/
def tinyPuts (puts : List (Bytes × Bytes × PackIo)) : CasPack :=
  puts.foldl (fun p a => (p.put tinyCfg a.2.2 a.1 a.2.1).1) (CasPack.fresh tinyCfg)

theorem put_step (p : CasPack) {io : PackIo} (hscans : io.Scans) (key : Bytes)
    {data : Bytes} (hdata : data.length < 2 ^ 63) :
    PackStep tinyCfg p ⟨.put key data, io, (p.put tinyCfg io key data).2⟩
      (p.put tinyCfg io key data).1 :=
  ⟨rfl, hscans, hdata⟩

/-- A put, one whose journal record is cut short, and a reopen. -/
theorem casPack_torn_journal_sample :
    ((tinyPuts [([0x61], [1], smoothIo), ([0x62], [2], shortIo 10)]).reopen tinyCfg).getBytes
      tinyCfg [0x61] = some [1] := by
  have hclean : Run (PackClean tinyCfg) (CasPack.fresh tinyCfg) _
      (tinyPuts [([0x61], [1], smoothIo)]) :=
    .cons ⟨put_step _ smoothIo_scans [0x61] (by decide), rfl, by decide +kernel,
      fun h => nomatch h⟩ (.nil _)
  have hrun : Run (PackShort tinyCfg) (tinyPuts [([0x61], [1], smoothIo)]) _
      (tinyPuts [([0x61], [1], smoothIo), ([0x62], [2], shortIo 10)]) :=
    .cons ⟨put_step _ (shortIo_scans 10) [0x62] (by decide), (fun h => nomatch h),
      by decide +kernel, .inl (by decide +kernel)⟩ (.nil _)
  exact (casPack_torn_journal tinyCfg_zips hclean hrun).2.1 [0x61] [1] (by decide +kernel)

/-- Four objects, a segment each; the second one's journal record is cut short. -/
def tornPuts : List (Bytes × Bytes × PackIo) :=
  [([0x61], replicate 40 1, smoothIo), ([0x62], replicate 40 2, shortIo 10),
    ([0x63], replicate 40 3, smoothIo), ([0x64], replicate 40 4, smoothIo)]

/-- **An object stored is lost.** Its journal record stands behind the torn one,
and its segment is not the active one. -/
theorem torn_journal_loses_put :
    ¬∀ (as : List PackAct) (p : CasPack), Run (PackStep tinyCfg) (CasPack.fresh tinyCfg) as p →
      ∀ key data, p.getBytes tinyCfg key = some data →
        (p.reopen tinyCfg).getBytes tinyCfg key = some data := by
  intro h
  have hlive : (tinyPuts tornPuts).getBytes tinyCfg [0x63] = some (replicate 40 3) := by
    decide +kernel
  have hlost : ((tinyPuts tornPuts).reopen tinyCfg).getBytes tinyCfg [0x63] = none := by
    decide +kernel
  have hkept := h _ (tinyPuts tornPuts)
    (.cons (put_step _ smoothIo_scans [0x61] (by simp)) <|
      .cons (put_step _ (shortIo_scans 10) [0x62] (by simp)) <|
      .cons (put_step _ smoothIo_scans [0x63] (by simp)) <|
      .cons (put_step _ smoothIo_scans [0x64] (by simp)) (.nil _)) _ _ hlive
  rw [hlost] at hkept
  cases hkept

end BrixCache

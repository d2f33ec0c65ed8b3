import BrixCache.Cms.Fanout
import BrixCache.Lib.Run

/-!
# Deletes settle once and honestly

A slot stands for one fan-out that has not settled, and no two slots have one stream id. The
pending entry under a slot's id, and the client that waits under it, are those of the request that
started the fan-out. Every event keeps this whose stream id is free.
-/

namespace BrixCache

open List

variable {w w' : FanoutWorker}

/-! ## Slots -/

theorem mem_set_some {α : Type} {xs : List (Option α)} {i : ℕ} {a b : α}
    (h : some b ∈ xs.set i (some a)) : b = a ∨ ∃ j, j ≠ i ∧ xs[j]? = some (some b) := by
  obtain ⟨j, hj⟩ := mem_iff_getElem?.mp h
  by_cases hij : j = i
  · subst hij
    rw [getElem?_set_self'] at hj
    obtain ⟨_, -, heq⟩ := Option.map_eq_some_iff.mp hj
    exact .inl (Option.some.inj heq).symm
  · rw [getElem?_set_ne (Ne.symm hij)] at hj
    exact .inr ⟨j, hij, hj⟩

theorem mem_set_none {α : Type} {xs : List (Option α)} {i : ℕ} {b : α}
    (h : some b ∈ xs.set i none) : ∃ j, j ≠ i ∧ xs[j]? = some (some b) := by
  obtain ⟨j, hj⟩ := mem_iff_getElem?.mp h
  by_cases hij : j = i
  · subst hij
    rw [getElem?_set_self'] at hj
    obtain ⟨_, -, heq⟩ := Option.map_eq_some_iff.mp hj
    cases heq
  · rw [getElem?_set_ne (Ne.symm hij)] at hj
    exact ⟨j, hij, hj⟩

/-! ## The invariant -/

/-- What the slots, flights and parked requests of a worker keep to in every state -/
structure FanoutInv (w : FanoutWorker) : Prop where
  once : ∀ (i j : ℕ) (s s' : FanoutSlot), w.slots[i]? = some (some s) →
    w.slots[j]? = some (some s') → s.sid = s'.sid → i = j
  flying : ∀ s, some s ∈ w.slots → ∃ fl, w.flights[s.flight]? = some fl ∧ fl.sid = s.sid ∧
    fl.settled = false ∧ (s.worstErr = 0 → fl.error = false)
  /-- The entry under a slot's id names the client of its fan-out. -/
  parked : ∀ s fl p, some s ∈ w.slots → w.flights[s.flight]? = some fl → some p ∈ w.pending →
    p.workerPid = w.pid → p.streamid = s.sid →
    p.connNumber = fl.number ∧ p.clientStreamid = fl.clientStreamid
  /-- A client that waits under a slot's id waits with the request of its fan-out. -/
  waits : ∀ s fl fd c, some s ∈ w.slots → w.flights[s.flight]? = some fl →
    w.conns fd = some c → c.number = fl.number → c.state = .waitingCms →
    c.cmsWaitStreamid = s.sid → c.request = fl.request
  told : ∀ r ∈ w.replies, ∃ fl, w.flights[r.flight]? = some fl ∧ fl.settled = true ∧
    r.number = fl.number ∧ r.request = fl.request ∧ r.clientStreamid = fl.clientStreamid ∧
    (r.error = none → fl.error = false)
  single : (w.replies.map (·.flight)).Nodup
  whole : ∀ fl ∈ w.flights, ∀ h ∈ fl.holders, h ∈ fl.forwarded

theorem FanoutInv.init (pid : ℕ) (now : UInt64) (pending : PendingTable) :
    FanoutInv (.init pid now pending) where
  once i j s s' hs := by simpa [FanoutWorker.init] using mem_of_getElem? hs
  flying s hs := by simp [FanoutWorker.init] at hs
  parked s fl p hs := by simp [FanoutWorker.init] at hs
  waits s fl fd c hs := by simp [FanoutWorker.init] at hs
  told r hr := by simp [FanoutWorker.init] at hr
  single := by simp [FanoutWorker.init]
  whole fl hfl := by simp [FanoutWorker.init] at hfl

theorem FanoutInv.honest (h : FanoutInv w) : w.Honest := by
  refine ⟨h.single, fun r hr => ?_⟩
  obtain ⟨fl, hfl, -, hnumber, hrequest, hcid, herr⟩ := h.told r hr
  exact ⟨fl, hfl, hnumber, hrequest, hcid, fun hok =>
    ⟨h.whole fl (mem_of_getElem? hfl), herr hok⟩⟩

/-! ## Events that leave the fan-outs alone -/

/-- No slot is written, and what is newly parked is parked under ids of no slot. -/
structure FanoutFrame (w w' : FanoutWorker) : Prop where
  pid : w'.pid = w.pid
  slots : w'.slots = w.slots
  flights : w'.flights = w.flights
  replies : w'.replies = w.replies
  pending : ∀ p, some p ∈ w'.pending → p.workerPid = w.pid →
    some p ∈ w.pending ∨ ∀ s, some s ∈ w.slots → s.sid ≠ p.streamid
  conns : ∀ fd c', w'.conns fd = some c' → c'.state = .waitingCms →
    (∃ c, w.conns fd = some c ∧ c.state = .waitingCms ∧ c.number = c'.number ∧
      c.request = c'.request ∧ c.cmsWaitStreamid = c'.cmsWaitStreamid) ∨
    ∀ s, some s ∈ w.slots → s.sid ≠ c'.cmsWaitStreamid

theorem FanoutFrame.refl (w : FanoutWorker) : FanoutFrame w w where
  pid := rfl
  slots := rfl
  flights := rfl
  replies := rfl
  pending _ hp _ := .inl hp
  conns _ c hc hwait := .inl ⟨c, hc, hwait, rfl, rfl, rfl⟩

theorem FanoutInv.frame (h : FanoutInv w) (hf : FanoutFrame w w') : FanoutInv w' where
  once := hf.slots ▸ h.once
  flying := hf.slots ▸ hf.flights ▸ h.flying
  parked s fl p hs hfl hp hpid hsid := by
    rw [hf.slots] at hs
    rw [hf.flights] at hfl
    rw [hf.pid] at hpid
    obtain hold | hnew := hf.pending p hp hpid
    · exact h.parked s fl p hs hfl hold hpid hsid
    · exact absurd hsid.symm (hnew s hs)
  waits s fl fd c hs hfl hc hnumber hwait hsid := by
    rw [hf.slots] at hs
    rw [hf.flights] at hfl
    obtain ⟨c₀, hc₀, hwait₀, hnumber₀, hrequest₀, hsid₀⟩ | hnew := hf.conns fd c hc hwait
    · rw [← hrequest₀]
      exact h.waits s fl fd c₀ hs hfl hc₀ (hnumber₀.trans hnumber) hwait₀ (hsid₀.trans hsid)
    · exact absurd hsid.symm (hnew s hs)
  told := hf.replies ▸ hf.flights ▸ h.told
  single := hf.replies ▸ h.single
  whole := hf.flights ▸ h.whole

variable {pending : PendingTable} {seq : UInt32} {s : FanoutSlot}

theorem FanoutFrame.update {fd : ℕ} {v : Option FanoutConn}
    (hv : ∀ c, v = some c → c.state = .reqHeader)
    (hp : ∀ p, some p ∈ pending → p.workerPid = w.pid → some p ∈ w.pending) {now : UInt64}
    {connCounter requests : ℕ} :
    FanoutFrame w { w with
      now := now, seq := seq, connCounter := connCounter, requests := requests,
      pending := pending, conns := Function.update w.conns fd v } where
  pid := rfl
  slots := rfl
  flights := rfl
  replies := rfl
  pending p hmem hpid := .inl (hp p hmem hpid)
  conns fd' c hc hwait := by
    obtain ⟨rfl, heq⟩ | ⟨-, hold⟩ := of_update_eq_some hc
    · rw [hv c heq] at hwait
      cases hwait
    · exact .inl ⟨c, hold, hwait, rfl, rfl, rfl⟩

/-! ## Settling -/

variable {i : ℕ} {slot : FanoutSlot}

/-- A slot is given up with its pending entry, and its fan-out has settled. -/
def FanoutWorker.settle (w : FanoutWorker) (i : ℕ) (slot : FanoutSlot) : FanoutWorker :=
  { w with
    slots := w.slots.set i none
    pending := brixPendingRemove w.pending slot.sid w.pid
    flights := w.flights.modify slot.flight fun fl => { fl with settled := true } }

theorem FanoutWorker.settle_flights {k : ℕ} (hk : k ≠ slot.flight) :
    (w.settle i slot).flights[k]? = w.flights[k]? :=
  getElem?_modify_ne _ w.flights hk.symm

theorem FanoutInv.flight_ne (h : FanoutInv w) (hs : w.slots[i]? = some (some slot)) {j : ℕ}
    (hj : j ≠ i) (hs' : w.slots[j]? = some (some s)) :
    s.flight ≠ slot.flight := by
  intro hsame
  obtain ⟨fl, hfl, hsid, -⟩ := h.flying slot (mem_of_getElem? hs)
  obtain ⟨fl', hfl', hsid', -⟩ := h.flying s (mem_of_getElem? hs')
  rw [hsame, hfl] at hfl'
  cases hfl'
  exact hj (h.once j i s slot hs' hs (hsid'.symm.trans hsid))

/-- A fan-out is settled once, and its slot is free then. -/
theorem FanoutInv.settle (h : FanoutInv w) (hs : w.slots[i]? = some (some slot)) :
    FanoutInv (w.settle i slot) where
  once j k s s' hj hk hsid := by
    have hat : ∀ (j : ℕ) (s : FanoutSlot), (w.slots.set i none)[j]? = some (some s) →
        w.slots[j]? = some (some s) := by
      intro j s hj
      by_cases hij : j = i
      · subst hij
        rw [getElem?_set_self'] at hj
        simp at hj
      · rwa [getElem?_set_ne (Ne.symm hij)] at hj
    exact h.once j k s s' (hat j s hj) (hat k s' hk) hsid
  flying s hmem := by
    obtain ⟨j, hj, hs'⟩ := mem_set_none hmem
    have hne := h.flight_ne hs hj hs'
    obtain ⟨fl, hfl, hrest⟩ := h.flying s (mem_of_getElem? hs')
    exact ⟨fl, by rw [w.settle_flights hne, hfl], hrest⟩
  parked s fl p hmem hfl hp hpid hsid := by
    obtain ⟨j, hj, hs'⟩ := mem_set_none hmem
    rw [w.settle_flights (h.flight_ne hs hj hs')] at hfl
    exact h.parked s fl p (mem_of_getElem? hs') hfl (mem_of_brixPendingRemove hp) hpid hsid
  waits s fl fd c hmem hfl hc hnumber hwait hsid := by
    obtain ⟨j, hj, hs'⟩ := mem_set_none hmem
    rw [w.settle_flights (h.flight_ne hs hj hs')] at hfl
    exact h.waits s fl fd c (mem_of_getElem? hs') hfl hc hnumber hwait hsid
  told r hr := by
    obtain ⟨fl, hfl, hsettled, hrest⟩ := h.told r hr
    obtain ⟨fl', hfl', -, hopen, -⟩ := h.flying slot (mem_of_getElem? hs)
    have hne : r.flight ≠ slot.flight := by
      intro hsame
      rw [← hsame, hfl] at hfl'
      cases hfl'
      rw [hopen] at hsettled
      cases hsettled
    exact ⟨fl, by rw [w.settle_flights hne, hfl], hsettled, hrest⟩
  single := h.single
  whole fl hfl := by
    obtain ⟨k, hk⟩ := mem_iff_getElem?.mp hfl
    simp only [FanoutWorker.settle, getElem?_modify] at hk
    obtain ⟨fl₀, hfl₀, rfl⟩ := Option.map_eq_some_iff.mp hk
    have hwhole := h.whole fl₀ (mem_of_getElem? hfl₀)
    split <;> exact hwhole

/-- A fan-out at its end -/
theorem FanoutInv.finalize (h : FanoutInv w) (hs : w.slots[i]? = some (some slot)) :
    FanoutInv (brixCmsFanoutFinalize w i slot) := by
  have hsettled := h.settle hs
  rw [brixCmsFanoutFinalize]
  cases hclient : fanoutClient w slot with
  | none => exact hsettled
  | some client =>
    obtain ⟨p, c⟩ := client
    obtain ⟨p', hp, hclient⟩ := Option.bind_eq_some_iff.mp hclient
    obtain ⟨c', hc, heq⟩ := Option.map_eq_some_iff.mp hclient
    obtain ⟨rfl, rfl⟩ := Prod.mk.inj heq
    obtain ⟨hconn, hguard⟩ := Option.filter_eq_some_iff.mp hc
    simp only [Bool.and_eq_true, decide_eq_true_eq] at hguard
    obtain ⟨⟨⟨hnumber, -⟩, hwait⟩, hsid⟩ := hguard
    obtain ⟨hmem, hpsid, hpid⟩ := of_brixPendingLookup hp
    have hslot := mem_of_getElem? hs
    obtain ⟨fl, hfl, hflsid, hopen, herr⟩ := h.flying slot hslot
    obtain ⟨hpnumber, hpcid⟩ := h.parked slot fl p' hslot hfl hmem hpid hpsid
    have hrequest := h.waits slot fl _ c' hslot hfl hconn (hnumber.trans hpnumber) hwait hsid
    -- the client no longer waits, and the reply is the fan-out's first
    have hframe : FanoutInv { w.settle i slot with
        conns := Function.update w.conns p'.connFd (some
          { c' with state := .reqHeader, curStreamid := p'.clientStreamid, readTimer := none }) } :=
      hsettled.frame (.update (fun c hc => by rw [← Option.some.inj hc]) fun p hp _ => hp)
    refine { hframe with told := fun r hr => ?_, single := ?_ }
    · obtain hold | hnew := mem_append.mp hr
      · exact hframe.told r hold
      · obtain rfl := mem_singleton.mp hnew
        refine ⟨{ fl with settled := true }, ?_, rfl, hnumber.trans hpnumber, hrequest, hpcid,
          fun hok => herr ?_⟩
        · simp [hfl]
        · by_contra hworst
          simp [FanoutSlot.answer, hworst] at hok
    · rw [map_append, nodup_append]
      refine ⟨h.single, by simp, fun k hk k' hk' hsame => ?_⟩
      obtain ⟨r, hr, rfl⟩ := mem_map.mp hk
      obtain rfl : k' = slot.flight := by simpa using hk'
      obtain ⟨fl', hfl', hsettled', -⟩ := h.told r hr
      rw [hsame, hfl] at hfl'
      cases hfl'
      rw [hopen] at hsettled'
      cases hsettled'

/-! ## Errors -/

@[simp] theorem FanoutSlot.fold_sid (s : FanoutSlot) (ecode : UInt32) (text : List UInt8) :
    (s.fold ecode text).sid = s.sid := by
  rw [FanoutSlot.fold]
  split <;> rfl

@[simp] theorem FanoutSlot.fold_flight (s : FanoutSlot) (ecode : UInt32) (text : List UInt8) :
    (s.fold ecode text).flight = s.flight := by
  rw [FanoutSlot.fold]
  split <;> rfl

theorem FanoutSlot.fold_worstErr (s : FanoutSlot) (ecode : UInt32) (text : List UInt8) :
    (s.fold ecode text).worstErr ≠ 0 := by
  rw [FanoutSlot.fold]
  split
  · by_cases hcode : ecode = 0 <;> simp [hcode]
  · assumption

theorem FanoutWorker.logError_flights {sid : UInt32} {k : ℕ} {fl : Flight}
    (h : (w.logError sid).flights[k]? = some fl) :
    ∃ fl₀, w.flights[k]? = some fl₀ ∧ fl.sid = fl₀.sid ∧ fl.number = fl₀.number ∧
      fl.request = fl₀.request ∧ fl.clientStreamid = fl₀.clientStreamid ∧
      fl.holders = fl₀.holders ∧ fl.forwarded = fl₀.forwarded := by
  simp only [FanoutWorker.logError, getElem?_map] at h
  obtain ⟨fl₀, hfl₀, rfl⟩ := Option.map_eq_some_iff.mp h
  refine ⟨fl₀, hfl₀, ?_⟩
  split <;> simp

theorem FanoutInv.logError (h : FanoutInv w) {sid : UInt32}
    (hfolded : ∀ s, some s ∈ w.slots → s.sid = sid → s.worstErr ≠ 0) :
    FanoutInv (w.logError sid) where
  once := h.once
  flying s hs := by
    obtain ⟨fl, hfl, hsid, hopen, herr⟩ := h.flying s hs
    by_cases hsame : fl.sid = sid
    · refine ⟨{ fl with error := true }, ?_, hsid, hopen, fun hworst =>
        absurd hworst (hfolded s hs (hsid.symm.trans hsame))⟩
      simp [FanoutWorker.logError, hfl, hsame, hopen]
    · exact ⟨fl, by simp [FanoutWorker.logError, hfl, hsame], hsid, hopen, herr⟩
  parked s fl p hs hfl hp hpid hpsid := by
    obtain ⟨fl₀, hfl₀, -, hnumber, -, hcid, -⟩ := w.logError_flights hfl
    rw [hnumber, hcid]
    exact h.parked s fl₀ p hs hfl₀ hp hpid hpsid
  waits s fl fd c hs hfl hc hnumber hwait hsid := by
    obtain ⟨fl₀, hfl₀, -, hnumber₀, hrequest₀, -⟩ := w.logError_flights hfl
    rw [hrequest₀]
    exact h.waits s fl₀ fd c hs hfl₀ hc (hnumber.trans hnumber₀) hwait hsid
  told r hr := by
    obtain ⟨fl, hfl, hsettled, hrest⟩ := h.told r hr
    exact ⟨fl, by simp [FanoutWorker.logError, hfl, hsettled], hsettled, hrest⟩
  single := h.single
  whole fl hmem := by
    obtain ⟨k, hk⟩ := mem_iff_getElem?.mp hmem
    obtain ⟨fl₀, hfl₀, -, -, -, -, hholders, hforwarded⟩ := w.logError_flights hk
    rw [hholders, hforwarded]
    exact h.whole fl₀ (mem_of_getElem? hfl₀)

theorem getElem?_set_fold {ecode : UInt32} {text : List UInt8} {j : ℕ}
    (hs : w.slots[i]? = some (some slot))
    (h : (w.slots.set i (some (slot.fold ecode text)))[j]? = some (some s)) :
    ∃ s₀, w.slots[j]? = some (some s₀) ∧ s.sid = s₀.sid ∧ s.flight = s₀.flight ∧
      (s.worstErr = 0 → s₀.worstErr = 0) ∧ (j = i → s.worstErr ≠ 0) := by
  by_cases hij : j = i
  · subst hij
    rw [getElem?_set_self', hs] at h
    obtain rfl := Option.some.inj (Option.some.inj h)
    have hworst := slot.fold_worstErr ecode text
    exact ⟨slot, hs, by simp, by simp, fun hzero => absurd hzero hworst, fun _ => hworst⟩
  · rw [getElem?_set_ne (Ne.symm hij)] at h
    exact ⟨s, h, rfl, rfl, id, fun heq => absurd heq hij⟩

theorem FanoutInv.fold (h : FanoutInv w) (hs : w.slots[i]? = some (some slot)) (ecode : UInt32)
    (text : List UInt8) :
    FanoutInv { w with slots := w.slots.set i (some (slot.fold ecode text)) } where
  once j k s s' hj hk hsame := by
    obtain ⟨s₀, hs₀, hsid₀, -⟩ := getElem?_set_fold hs hj
    obtain ⟨s₁, hs₁, hsid₁, -⟩ := getElem?_set_fold hs hk
    exact h.once j k s₀ s₁ hs₀ hs₁ (hsid₀.symm.trans (hsame.trans hsid₁))
  flying s hmem := by
    obtain ⟨j, hj⟩ := mem_iff_getElem?.mp hmem
    obtain ⟨s₀, hs₀, hsid₀, hflight₀, hworst, -⟩ := getElem?_set_fold hs hj
    obtain ⟨fl, hfl, hsid, hopen, herr⟩ := h.flying s₀ (mem_of_getElem? hs₀)
    rw [hflight₀]
    exact ⟨fl, hfl, hsid.trans hsid₀.symm, hopen, fun hzero => herr (hworst hzero)⟩
  parked s fl p hmem hfl hp hpid hpsid := by
    obtain ⟨j, hj⟩ := mem_iff_getElem?.mp hmem
    obtain ⟨s₀, hs₀, hsid₀, hflight₀, -⟩ := getElem?_set_fold hs hj
    rw [hflight₀] at hfl
    exact h.parked s₀ fl p (mem_of_getElem? hs₀) hfl hp hpid (hpsid.trans hsid₀)
  waits s fl fd c hmem hfl hc hnumber hwait hsid := by
    obtain ⟨j, hj⟩ := mem_iff_getElem?.mp hmem
    obtain ⟨s₀, hs₀, hsid₀, hflight₀, -⟩ := getElem?_set_fold hs hj
    rw [hflight₀] at hfl
    exact h.waits s₀ fl fd c (mem_of_getElem? hs₀) hfl hc hnumber hwait (hsid.trans hsid₀)
  told := h.told
  single := h.single
  whole := h.whole

theorem FanoutInv.noteError (h : FanoutInv w) (sid ecode : UInt32) (text : List UInt8) :
    FanoutInv (brixCmsFanoutNoteError (w.logError sid) sid ecode text) := by
  rw [brixCmsFanoutNoteError]
  cases hfind : (w.logError sid).slots.findIdx? fun slot => slot.any (·.sid = sid) with
  | none =>
    refine h.logError fun s hs hsid => ?_
    have hno := findIdx?_eq_none_iff.mp hfind (some s) hs
    simp [hsid] at hno
  | some i =>
    obtain ⟨hi, hfound, -⟩ := findIdx?_eq_some_iff_getElem.mp hfind
    obtain ⟨slot, hslot, hsid⟩ := (Option.any_eq_true _ _).mp hfound
    have hsid : slot.sid = sid := by simpa using hsid
    have hs : w.slots[i]? = some (some slot) :=
      (getElem?_eq_getElem hi).trans (congrArg some hslot)
    have hget : (w.logError sid).slots.getD i none = some slot := by
      rw [getD_eq_getElem?_getD]
      exact congrArg (Option.getD · none) hs
    have hfolded : FanoutInv (FanoutWorker.logError
        { w with slots := w.slots.set i (some (slot.fold ecode text)) } sid) := by
      refine (h.fold hs ecode text).logError fun s hmem hssid => ?_
      obtain ⟨j, hj⟩ := mem_iff_getElem?.mp hmem
      obtain ⟨s₀, hs₀, hsid₀, -, -, hworst⟩ := getElem?_set_fold hs hj
      exact hworst (h.once j i s₀ slot hs₀ hs (hsid₀.symm.trans (hssid.trans hsid.symm)))
    simp only [hget]
    split
    · refine hfolded.finalize ?_
      simp [FanoutWorker.logError, (List.getElem?_eq_some_iff.mp hs).1]
    · exact hfolded

/-! ## Starting -/

variable {fd : ℕ} {c : FanoutConn} {r : FanoutRequest} {sid : UInt32} {p : PendingLocate}

theorem FanoutInv.flight_append (h : FanoutInv w) (hs : some s ∈ w.slots)
    {fl fl' : Flight} (hfl : (w.flights ++ [fl'])[s.flight]? = some fl) :
    w.flights[s.flight]? = some fl := by
  obtain ⟨fl₀, hfl₀, -⟩ := h.flying s hs
  rwa [getElem?_append_left (List.getElem?_eq_some_iff.mp hfl₀).1] at hfl

/-- A new fan-out in a free slot, with an id that no other has -/
theorem FanoutInv.start (h : FanoutInv w) (hi : w.slots[i]? = some none)
    (hfree : w.SidFree sid) {cid : UInt8 × UInt8}
    (hp : ∀ p, some p ∈ pending → some p ∈ w.pending ∨
      p.streamid = sid ∧ p.connNumber = c.number ∧ p.clientStreamid = cid)
    {expected : ℕ} {deadline readTimer : UInt64}
    {holders forwarded : List (List UInt8 × UInt16)} (hwhole : ∀ x ∈ holders, x ∈ forwarded) :
    FanoutInv { w with
      seq := seq
      pending := pending
      slots := w.slots.set i (some ⟨sid, expected, 0, 0, [], deadline, w.flights.length⟩)
      conns := Function.update w.conns fd (some (c.park sid readTimer))
      flights := w.flights ++
        [⟨sid, c.number, c.request, cid, holders, forwarded, false, false⟩] } where
  once j k s s' hj hk hsame := by
    have hlt := (List.getElem?_eq_some_iff.mp hi).1
    simp only [getElem?_set, hlt, if_true] at hj hk
    split at hj <;> split at hk
    · simp_all
    · obtain rfl := Option.some.inj (Option.some.inj hj)
      exact absurd hsame.symm (hfree.slots s' (mem_of_getElem? hk))
    · obtain rfl := Option.some.inj (Option.some.inj hk)
      exact absurd hsame (hfree.slots s (mem_of_getElem? hj))
    · exact h.once j k s s' hj hk hsame
  flying s hmem := by
    obtain rfl | ⟨j, -, hs⟩ := mem_set_some hmem
    · exact ⟨_, getElem?_concat_length, rfl, rfl, fun _ => rfl⟩
    · obtain ⟨fl, hfl, hrest⟩ := h.flying s (mem_of_getElem? hs)
      refine ⟨fl, ?_, hrest⟩
      rw [getElem?_append_left (List.getElem?_eq_some_iff.mp hfl).1, hfl]
  parked s fl p hmem hfl hpmem hpid hsid := by
    obtain rfl | ⟨j, -, hs⟩ := mem_set_some hmem
    · obtain rfl := Option.some.inj (getElem?_concat_length.symm.trans hfl)
      obtain hold | ⟨-, hnew⟩ := hp p hpmem
      · exact absurd hsid (hfree.pending p hold hpid)
      · exact hnew
    · have hs := mem_of_getElem? hs
      obtain hold | ⟨hpsid, -⟩ := hp p hpmem
      · exact h.parked s fl p hs (h.flight_append hs hfl) hold hpid hsid
      · exact absurd (hsid.symm.trans hpsid) (hfree.slots s hs)
  waits s fl fd' c' hmem hfl hc hnumber hwait hsid := by
    obtain rfl | ⟨j, -, hs⟩ := mem_set_some hmem
    · obtain rfl := Option.some.inj (getElem?_concat_length.symm.trans hfl)
      obtain ⟨-, heq⟩ | ⟨-, hold⟩ := of_update_eq_some hc
      · rw [← Option.some.inj heq]
        rfl
      · exact absurd hsid (hfree.conns fd' c' hold hwait)
    · have hs := mem_of_getElem? hs
      obtain ⟨-, heq⟩ | ⟨-, hold⟩ := of_update_eq_some hc
      · cases heq
        exact absurd hsid.symm (hfree.slots s hs)
      · exact h.waits s fl fd' c' hs (h.flight_append hs hfl) hold hnumber hwait hsid
  told r hr := by
    obtain ⟨fl, hfl, hrest⟩ := h.told r hr
    refine ⟨fl, ?_, hrest⟩
    rw [getElem?_append_left (List.getElem?_eq_some_iff.mp hfl).1, hfl]
  single := h.single
  whole fl hmem := by
    obtain hold | hnew := mem_append.mp hmem
    · exact h.whole fl hold
    · obtain rfl := mem_singleton.mp hnew
      exact hwhole

theorem FanoutFrame.park {conns : ℕ → Option FanoutConn}
    {now : UInt64} (hfree : ∀ s, some s ∈ w.slots → s.sid ≠ sid)
    (hp : ∀ p, some p ∈ pending → some p ∈ w.pending ∨ p.streamid = sid)
    (hc : ∀ fd c, conns fd = some c → w.conns fd = some c ∨ c.cmsWaitStreamid = sid) :
    FanoutFrame w { w with now := now, seq := seq, pending := pending, conns := conns } where
  pid := rfl
  slots := rfl
  flights := rfl
  replies := rfl
  pending p hmem _ := by
    obtain hold | rfl := hp p hmem
    · exact .inl hold
    · exact .inr hfree
  conns fd c hconn hwait := by
    obtain hold | rfl := hc fd c hconn
    · exact .inl ⟨c, hold, hwait, rfl, rfl, rfl⟩
    · exact .inr hfree

/-- A request to all holders, whichever way it starts -/
theorem FanoutInv.mutation (h : FanoutInv w) (hmeets : (FanoutEvent.fanout fd r).Meets w) :
    FanoutInv (brixCmsFanoutMutation w fd c r) := by
  rw [brixCmsFanoutMutation]
  by_cases hengages : fanoutEngages w.now r = true
  · obtain ⟨hfree, hsends, hcovered⟩ := hmeets hengages
    rw [if_neg (by simp [hengages])]
    cases hslot : w.slots.findIdx? Option.isNone with
    | none => exact h
    | some i =>
      obtain ⟨hlt, hnone, -⟩ := findIdx?_eq_some_iff_getElem.mp hslot
      have hi : w.slots[i]? = some none := by
        rw [getElem?_eq_getElem hlt, Option.isNone_iff_eq_none.mp hnone]
      have hins : ∀ p, some p ∈ (brixPendingInsert w.now w.pending (brixCmsSrvNextStreamid w.seq)
          w.pid fd c.number r.clientStreamid (r.window * 2)).2 →
          some p ∈ w.pending ∨ p.streamid = brixCmsSrvNextStreamid w.seq ∧
            p.connNumber = c.number ∧ p.clientStreamid = r.clientStreamid := by
        intro p hp
        obtain hold | ⟨rfl, -⟩ := mem_of_brixPendingInsert hp
        · exact .inl hold
        · exact .inr ⟨rfl, rfl, rfl⟩
      simp only
      split
      · exact h.frame (.park hfree.slots (fun p hp => (hins p hp).imp_right And.left)
          fun _ _ hc => .inl hc)
      · split
        · exact h.frame (.park hfree.slots
            (fun p hp => (hins p (mem_of_brixPendingRemove hp)).imp_right And.left)
            fun _ _ hc => .inl hc)
        · refine h.start hi hfree hins fun x hx => ?_
          obtain ⟨node, hnode, rfl⟩ := hcovered x hx
          exact mem_map.mpr ⟨node, mem_filter.mpr ⟨hnode, hsends node hnode⟩, rfl⟩
  · rw [if_pos (by simp [hengages])]
    exact h

/-! ## Runs -/

theorem FanoutWorker.idle_eq_some (h : w.idle fd = some c) :
    w.conns fd = some c ∧ c.state = .reqHeader := by
  obtain ⟨hconn, hguard⟩ := Option.filter_eq_some_iff.mp h
  exact ⟨hconn, by simpa using (Bool.and_eq_true_iff.mp hguard).2⟩

theorem FanoutFrame.read (hc : c.state = .reqHeader) (cid : UInt8 × UInt8) :
    FanoutFrame w (w.read fd (w.next c cid)) :=
  .update (fun c' heq => by rw [← Option.some.inj heq]; exact hc) fun _ hp _ => hp

theorem FanoutWorker.SidFree.read (h : w.SidFree sid) (hc : c.state = .reqHeader)
    (cid : UInt8 × UInt8) : (w.read fd (w.next c cid)).SidFree sid where
  slots := h.slots
  pending := h.pending
  conns fd' c' hconn hwait := by
    obtain ⟨-, heq⟩ | ⟨-, hold⟩ := of_update_eq_some hconn
    · cases heq
      rw [FanoutWorker.next, hc] at hwait
      cases hwait
    · exact h.conns fd' c' hold hwait

/-- **One event** keeps the invariant. -/
theorem FanoutInv.step (h : FanoutInv w) {ev : FanoutEvent} (hev : ev.Meets w) :
    FanoutInv (w.step ev) := by
  cases ev with
  | fanout fd r =>
    simp only [FanoutWorker.step]
    split
    · exact h
    · rename_i c hidle
      obtain ⟨-, hstate⟩ := w.idle_eq_some hidle
      refine (h.frame (.read hstate r.clientStreamid)).mutation fun hengages => ?_
      obtain ⟨hfree, hrest⟩ := hev hengages
      exact ⟨hfree.read hstate _, hrest⟩
  | error sid ecode text => exact h.noteError sid ecode text
  | deadline i =>
    simp only [FanoutWorker.step]
    split
    · exact h
    · rename_i slot hslot
      split
      · refine h.finalize ?_
        rw [getD_eq_getElem?_getD] at hslot
        cases hat : w.slots[i]? with
        | none => simp [hat] at hslot
        | some x => simpa [hat] using hslot
      · exact h
  | connect fd hasCtx =>
    simp only [FanoutWorker.step]
    split
    · exact h
    · exact h.frame (.update (fun c heq => by rw [← Option.some.inj heq]) fun _ hp _ => hp)
  | disconnect fd => exact h.frame (.update (fun c heq => by cases heq) fun _ hp _ => hp)
  | tick now | draw => exact h.frame { FanoutFrame.refl w with }
  | request fd cid =>
    simp only [FanoutWorker.step]
    split
    · exact h
    · rename_i c hidle
      exact h.frame (.read (w.idle_eq_some hidle).2 cid)
  | locate fd cid sid timeout =>
    simp only [FanoutWorker.step]
    split
    · exact h
    · rename_i c hidle
      have hread : FanoutInv (w.read fd (w.next c cid)) :=
        h.frame (.read (w.idle_eq_some hidle).2 cid)
      have hins : ∀ p, some p ∈ (brixPendingInsert w.now w.pending sid w.pid fd c.number cid
          timeout).2 → some p ∈ w.pending ∨ p.streamid = sid := by
        intro p hp
        obtain hold | ⟨rfl, -⟩ := mem_of_brixPendingInsert hp
        · exact .inl hold
        · exact .inr rfl
      split
      · exact hread.frame (.park hev hins fun _ _ hc => .inl hc)
      · refine hread.frame (.park hev hins fun fd' c' hc => ?_)
        obtain ⟨-, heq⟩ | ⟨-, hold⟩ := of_update_eq_some hc
        · exact .inr (by rw [← Option.some.inj heq]; rfl)
        · exact .inl hold
  | wake sid hostOk =>
    simp only [FanoutWorker.step]
    split
    · exact h
    · split
      · exact h.frame { FanoutFrame.refl w with
          pending := fun p hp _ => .inl (mem_of_brixPendingRemove hp) }
      · split
        · exact h.frame (.update (fun c heq => by rw [← Option.some.inj heq])
            fun p hp _ => mem_of_brixPendingRemove hp)
        · exact h.frame { FanoutFrame.refl w with
            pending := fun p hp _ => .inl (mem_of_brixPendingRemove hp) }
  | readTimeout fd =>
    simp only [FanoutWorker.step]
    split
    · exact h
    · exact h.frame (.update (fun c heq => by rw [← Option.some.inj heq])
        fun p hp _ => mem_of_brixPendingRemove hp)
  | reap =>
    exact h.frame { FanoutFrame.refl w with
      pending := fun p hp _ => .inl (mem_of_brixPendingReapExpired hp) }
  | foreignInsert pid sid fd number cid timeout =>
    simp only [FanoutWorker.step]
    split
    · exact h
    · rename_i hpid
      refine h.frame { FanoutFrame.refl w with pending := fun p hp hown => ?_ }
      obtain hold | ⟨rfl, -⟩ := mem_of_brixPendingInsert hp
      · exact .inl hold
      · exact absurd hown hpid
  | foreignRemove pid sid =>
    simp only [FanoutWorker.step]
    split
    · exact h
    · exact h.frame { FanoutFrame.refl w with
        pending := fun p hp _ => .inl (mem_of_brixPendingRemove hp) }

/-- **Deletes settle once and honestly** in every run whose fan-outs are whole and drawn under free
stream ids. -/
theorem fanout_honest (pid : ℕ) (now : UInt64) (pending : PendingTable) (evs : List FanoutEvent)
    (hevs : ∀ pre ev, pre ++ [ev] <+: evs →
      ev.Meets (pre.foldl FanoutWorker.step (.init pid now pending))) :
    ∀ pre, pre <+: evs → (pre.foldl FanoutWorker.step (.init pid now pending)).Honest := by
  intro pre hpre
  suffices hinv : FanoutInv (pre.foldl FanoutWorker.step (.init pid now pending)) from hinv.honest
  induction pre using reverseRecOn with
  | nil => exact .init pid now pending
  | append_singleton pre ev ih =>
    rw [foldl_append]
    exact (ih ((prefix_append pre [ev]).trans hpre)).step (hevs pre ev hpre)

/-- A delete of `/f`, which two registered servers export. The second one's connection gets the
operation out or not. -/
def sampleFanout (sends : Bool) : FanoutRequest where
  reqid := 3014
  path := [47, 102]
  clientStreamid := (1, 2)
  enabled := true
  window := 500
  registry := [some { SrvEntry.zero with host := [97], port := 1, paths := [47] },
    some { SrvEntry.zero with host := [98], port := 1, paths := [47] }]
  nodes := [⟨[97], 1, [47], true, true, true⟩, ⟨[98], 1, [47], true, true, sends⟩]

/-- A client connects and deletes, and the window passes. -/
def sampleFanoutRun (sends : Bool) : List FanoutEvent :=
  [.connect 5 true, .fanout 5 (sampleFanout sends), .tick 500, .deadline 0]

theorem fanout_honest_delete :
    ((sampleFanoutRun true).foldl FanoutWorker.step (.init 7 0 pendingInit)).replies =
        [⟨0, 0, 0, (1, 2), none⟩] ∧
      ∀ pre, pre <+: sampleFanoutRun true →
        (pre.foldl FanoutWorker.step (.init 7 0 pendingInit)).Honest := by
  have hevs : ∀ pre ev, pre ++ [ev] <+: sampleFanoutRun true →
      ev.Meets (pre.foldl FanoutWorker.step (.init 7 0 pendingInit)) := by
    intro pre ev hpre
    obtain _ | ⟨_, _ | ⟨_, _ | ⟨_, _ | ⟨_, pre⟩⟩⟩⟩ := pre
    · obtain rfl : ev = _ := by simpa [sampleFanoutRun] using hpre
      trivial
    · obtain ⟨rfl, rfl⟩ : _ ∧ ev = _ := by simpa [sampleFanoutRun] using hpre
      refine fun _ => ⟨⟨fun s hs => ?_, fun p hp => ?_, fun fd c hc hwait => ?_⟩, by decide, by decide⟩
      · simp [FanoutWorker.step, FanoutWorker.init] at hs
      · simp [FanoutWorker.step, FanoutWorker.init, pendingInit] at hp
      · obtain ⟨-, heq⟩ | ⟨-, hold⟩ := of_update_eq_some hc
        · rw [← Option.some.inj heq] at hwait
          cases hwait
        · cases hold
    · obtain ⟨rfl, rfl, rfl⟩ : _ ∧ _ ∧ ev = _ := by simpa [sampleFanoutRun] using hpre
      trivial
    · obtain ⟨rfl, rfl, rfl, rfl⟩ : _ ∧ _ ∧ _ ∧ ev = _ := by
        simpa [sampleFanoutRun] using hpre
      trivial
    · simp [sampleFanoutRun] at hpre
  exact ⟨by decide, fanout_honest 7 0 pendingInit (sampleFanoutRun true) hevs⟩

/-- The operation goes out to one of two holders, and the client is told that it succeeded. -/
theorem partial_fanout_succeeds : ¬∀ (pid : ℕ) (now : UInt64) (pending : PendingTable)
    (evs : List FanoutEvent), (evs.foldl FanoutWorker.step (.init pid now pending)).Honest := by
  intro h
  obtain ⟨-, hreplies⟩ := h 7 0 pendingInit (sampleFanoutRun false)
  have hreply : (⟨0, 0, 0, (1, 2), none⟩ : FanoutReply) ∈
      ((sampleFanoutRun false).foldl FanoutWorker.step (.init 7 0 pendingInit)).replies := by
    decide
  obtain ⟨fl, hfl, -, -, -, hok⟩ := hreplies _ hreply
  obtain ⟨hall, -⟩ := hok rfl
  have hflight : ((sampleFanoutRun false).foldl FanoutWorker.step
      (.init 7 0 pendingInit)).flights[0]? = some ⟨0x80000001, 0, 0, (1, 2), [([97], 1), ([98], 1)],
        [([97], 1)], false, true⟩ := by
    decide
  obtain rfl := Option.some.inj (hflight.symm.trans hfl)
  exact absurd (hall ([98], 1) (by decide)) (by decide)

end BrixCache

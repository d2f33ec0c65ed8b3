import BrixCache.Root.Sigver

/-!
# What a signed session lets through

Every dispatched frame ends the record of the signature frame before it, so a record is always
that of the frame just received. The exception are writes the header phase answers by itself:
they leave a pending record in place.
-/

namespace BrixCache

open List

variable {C : Type} (crypto : SigCrypto C) (conf : SigningConf)

/-! ## The two checks -/

/-- What `brix_verify_pending_sigver` finds out about a request -/
structure PendingVerifies (s : Sigver) (f : Frame) : Prop where
  pending : s.pending = true
  opcode : s.expectrid = f.requestid
  stream : s.sid = f.streamid
  hash : brixVerifySigverSig crypto s f = none

theorem brixVerifyPendingSigver_spec (s : Sigver) (f : Frame) :
    ∃ b, (brixVerifyPendingSigver crypto s f).1 = { s with pending := false, verified := b } ∧
      (b = true → PendingVerifies crypto s f) := by
  have hforget : ∀ t : Sigver, t.pending = false → t = { t with pending := false } := by
    rintro ⟨⟩ rfl
    rfl
  unfold brixVerifyPendingSigver
  simp only
  split
  · next hp =>
    split
    · split
      · exact ⟨false, rfl, nofun⟩
      · next hop =>
        split
        · exact ⟨false, rfl, nofun⟩
        · next hsid =>
          split
          · exact ⟨false, rfl, nofun⟩
          · next hsig =>
            exact ⟨true, rfl, fun _ =>
              ⟨hp.1, Decidable.not_not.mp hop, Decidable.not_not.mp hsid, hsig⟩⟩
    · exact ⟨false, rfl, nofun⟩
  · next hp =>
    split
    · exact ⟨false, rfl, nofun⟩
    · next hop =>
      have hnot : s.pending = false := by simpa [hop] using hp
      exact ⟨false, hforget { s with verified := false } hnot, nofun⟩

variable {f : Frame} {a : Arrival} {frames : List Arrival} {i : ℕ}

theorem brixSigningEnforceLevel_none {s : Sigver} (hactive : s.signingActive = true)
    (hreq : brixGsiSigverRequired f.requestid conf.securityLevel = true)
    (h : brixSigningEnforceLevel conf s f = none) :
    s.verified = true ∧ (4 ≤ conf.securityLevel → s.nodata = true → f.dlen = 0) := by
  have hlevel : conf.securityLevel ≠ 0 := by
    intro h0
    rw [h0] at hreq
    simp [brixGsiSigverRequired] at hreq
  by_cases hv : s.verified = true
  · refine ⟨hv, fun h4 hn => ?_⟩
    by_contra hd
    have hpos := Nat.pos_of_ne_zero hd
    simp [brixSigningEnforceLevel, hlevel, hactive, hreq, hv, h4, hn, hpos] at h
  · simp [brixSigningEnforceLevel, hlevel, hactive, hreq, hv] at h

/-- A record made from a signature frame -/
structure SigRecorded (s : Sigver) (f : Frame) : Prop where
  opcode : f.Is .sigver
  expectrid : s.expectrid = (xrdwSigverReqUnpack f.body).expectrid
  sid : s.sid = f.streamid
  seqno : s.lastSeqno = (xrdwSigverReqUnpack f.body).seqno
  same : s.seqno = (xrdwSigverReqUnpack f.body).seqno
  nodata : s.nodata = decide ((xrdwSigverReqUnpack f.body).flags % 2 = 1)
  blob : s.blob = f.payload

theorem brixHandleSigver_spec (s : Sigver) (hop : f.Is .sigver) :
    s.lastSeqno ≤ (brixHandleSigver s f).1.lastSeqno ∧
      ((brixHandleSigver s f).1.pending = s.pending ∨
        (SigRecorded (brixHandleSigver s f).1 f ∧
          s.lastSeqno < (xrdwSigverReqUnpack f.body).seqno)) := by
  unfold brixHandleSigver
  simp only
  split
  · split
    · exact ⟨Nat.le_refl _, .inl rfl⟩
    · split
      · exact ⟨Nat.le_refl _, .inl rfl⟩
      · next hfresh =>
        have hlt := Nat.lt_of_not_le hfresh
        split
        · split
          · exact ⟨Nat.le_of_lt hlt, .inl rfl⟩
          · exact ⟨Nat.le_of_lt hlt, .inr ⟨⟨hop, rfl, rfl, rfl, rfl, rfl, rfl⟩, hlt⟩⟩
        · exact ⟨Nat.le_of_lt hlt, .inl rfl⟩
  · exact ⟨Nat.le_refl _, .inl rfl⟩

/-! ## One frame -/

theorem dispatchOnward_spec (x : SignedConn) (a : Arrival) :
    x.sigver.lastSeqno ≤ (dispatchOnward x a).1.sigver.lastSeqno ∧
      ((dispatchOnward x a).1.sigver.pending = x.sigver.pending ∨
        (SigRecorded (dispatchOnward x a).1.sigver a.frame ∧
          x.sigver.lastSeqno < (xrdwSigverReqUnpack a.frame.body).seqno)) := by
  unfold dispatchOnward
  cases a.onward with
  | answered => exact ⟨Nat.le_refl _, .inl rfl⟩
  | signing =>
    dsimp only
    split
    · next hop => exact brixHandleSigver_spec x.sigver hop
    · exact ⟨Nat.le_refl _, .inl rfl⟩
  | armed k | bound b | ended =>
    dsimp only
    split <;> exact ⟨Nat.le_refl _, .inl rfl⟩

theorem brixDispatch_spec (x : SignedConn) (a : Arrival) :
    x.sigver.lastSeqno ≤ (brixDispatch crypto conf x a).1.sigver.lastSeqno ∧
      ((brixDispatch crypto conf x a).1.sigver.pending = true →
        SigRecorded (brixDispatch crypto conf x a).1.sigver a.frame ∧
          x.sigver.lastSeqno < (xrdwSigverReqUnpack a.frame.body).seqno) := by
  obtain ⟨b, hb, -⟩ := brixVerifyPendingSigver_spec crypto x.sigver a.frame
  unfold brixDispatch
  simp only [hb]
  split
  · exact ⟨Nat.le_refl _, nofun⟩
  · split
    · exact ⟨Nat.le_refl _, nofun⟩
    · have honward := dispatchOnward_spec
        { x with sigver := { x.sigver with pending := false, verified := b } } a
      refine ⟨honward.1, fun hp => ?_⟩
      rcases honward.2 with hsame | hrec
      · rw [hsame] at hp
        cases hp
      · exact hrec

/-- A write the header phase answers by itself -/
def HeaderWrite (x : SignedConn) (a : Arrival) : Prop :=
  writeHdrRefused x a.frame ∨ writeStreamed conf a

/-- The frame does not come between a pending signature and its request. -/
def Undisturbed (x : SignedConn) (a : Arrival) : Prop :=
  x.sigver.pending = true → ¬ HeaderWrite conf x a

instance (x : SignedConn) (a : Arrival) : Decidable (HeaderWrite conf x a) :=
  inferInstanceAs (Decidable (_ ∨ _))

instance (x : SignedConn) (a : Arrival) : Decidable (Undisturbed conf x a) :=
  inferInstanceAs (Decidable (_ → _))

theorem recvFrame_spec {x : SignedConn} (hund : Undisturbed conf x a) :
    x.sigver.lastSeqno ≤ (recvFrame crypto conf x a).1.sigver.lastSeqno ∧
      ((recvFrame crypto conf x a).1.sigver.pending = true →
        (recvFrame crypto conf x a).1.closed = true ∨
          SigRecorded (recvFrame crypto conf x a).1.sigver a.frame ∧
            x.sigver.lastSeqno < (xrdwSigverReqUnpack a.frame.body).seqno) := by
  unfold recvFrame
  split
  · next hclosed => exact ⟨Nat.le_refl _, fun _ => .inl hclosed⟩
  · split
    · next hhdr => exact ⟨Nat.le_refl _, fun hp => absurd (.inl hhdr) (hund hp)⟩
    · split
      · exact ⟨Nat.le_refl _, fun _ => .inl rfl⟩
      · split
        · next hstream => exact ⟨Nat.le_refl _, fun hp => absurd (.inr hstream) (hund hp)⟩
        · split
          · exact ⟨Nat.le_refl _, fun _ => .inl rfl⟩
          · have hdispatch := brixDispatch_spec crypto conf x a
            exact ⟨hdispatch.1, fun hp => .inr (hdispatch.2 hp)⟩

/-- The frame is a request the level requires signed, on a session that signs, and it passes
both checks. -/
structure Authorised (x : SignedConn) (a : Arrival) : Prop where
  active : x.sigver.signingActive = true
  required : brixGsiSigverRequired a.frame.requestid conf.securityLevel = true
  passed : ∃ e, (recvFrame crypto conf x a).2 = .passed e

theorem Authorised.verifies {x : SignedConn} (h : Authorised crypto conf x a) :
    x.closed = false ∧ PendingVerifies crypto x.sigver a.frame ∧
      (4 ≤ conf.securityLevel → x.sigver.nodata = true → a.frame.dlen = 0) := by
  obtain ⟨hactive, hreq, e, he⟩ := h
  obtain ⟨b, hb, hverifies⟩ := brixVerifyPendingSigver_spec crypto x.sigver a.frame
  unfold recvFrame at he
  split at he
  · cases he
  · next hopen =>
    split at he
    · cases he
    · split at he
      · cases he
      · split at he
        · cases he
        · split at he
          · cases he
          · unfold brixDispatch at he
            simp only [hb] at he
            split at he
            · cases he
            · split at he
              · cases he
              · next henf =>
                have hpass := brixSigningEnforceLevel_none conf (f := a.frame) (by exact hactive)
                  hreq henf
                exact ⟨by simpa using hopen, hverifies hpass.1, hpass.2⟩

/-! ## Signed requests -/

/-- `sf` is the signature frame of the request `f` under the session key. -/
structure SignedBy (k : SigKey) (sf f : Frame) : Prop where
  opcode : sf.Is .sigver
  expects : (xrdwSigverReqUnpack sf.body).expectrid = f.requestid
  stream : sf.streamid = f.streamid
  /-- the decrypted hash is that of this header, and of this payload unless `nodata` -/
  hash : ∃ c plain, crypto.lookup k.cipher = some c ∧
    crypto.decrypt c k.key k.useIv sf.payload = some plain ∧
    crypto.sha256 (sigverCovered (xrdwSigverReqUnpack sf.body).seqno f.hdr f.payload
      (decide ((xrdwSigverReqUnpack sf.body).flags % 2 = 1))) = some plain
  /-- no `nodata` with a payload in pedantic mode -/
  pedantic : 4 ≤ conf.securityLevel → (xrdwSigverReqUnpack sf.body).flags % 2 = 1 →
    f.payload = []

theorem SigRecorded.signedBy {s : Sigver} {sf : Frame} (hrec : SigRecorded s sf)
    (hver : PendingVerifies crypto s f)
    (hped : 4 ≤ conf.securityLevel → s.nodata = true → f.dlen = 0) :
    SignedBy crypto conf s.armed sf f := by
  have hsig := hver.hash
  unfold brixVerifySigverSig at hsig
  split at hsig
  · cases hsig
  · next c hc =>
    split at hsig
    · next hv =>
      unfold brixGsiSigverVerify at hv
      split at hv
      · cases hv
      · split at hv
        · cases hv
        · next plain hplain =>
          have hsha := (of_decide_eq_true hv).2
          rw [hrec.same, hrec.nodata] at hsha
          rw [hrec.blob] at hplain
          refine ⟨hrec.opcode, hrec.expectrid.symm.trans hver.opcode,
            hrec.sid.symm.trans hver.stream, ⟨c, plain, hc, hplain, hsha⟩, fun h4 hn => ?_⟩
          have hdlen := hped h4 (by simpa [hrec.nodata] using hn)
          exact eq_nil_of_length_eq_zero (f.payload_length.trans hdlen)
    · cases hsig

/-! ## Sessions -/

/-- A connection as it is accepted -/
def SignedConn.fresh : SignedConn where
  sigver :=
    { armed := ⟨[], [], false⟩, signingActive := false, inheritedRequired := false
      lastSeqno := 0, pending := false, verified := false, expectrid := 0, sid := [0, 0]
      seqno := 0, nodata := false, blob := [] }
  isBound := false
  closed := false

/-- The connection after the first `i` frames -/
def connAt (frames : List Arrival) (i : ℕ) : SignedConn :=
  (frames.take i).foldl (fun x a => (recvFrame crypto conf x a).1) .fresh

theorem connAt_succ (h : frames[i]? = some a) :
    connAt crypto conf frames (i + 1) =
      (recvFrame crypto conf (connAt crypto conf frames i) a).1 := by
  unfold connAt
  rw [take_add_one, h, foldl_append]
  rfl

/-- No write that the header phase answers comes between a signature frame and the next
dispatched request. -/
def UndisturbedRun (frames : List Arrival) : Prop :=
  ∀ i a, frames[i]? = some a → Undisturbed conf (connAt crypto conf frames i) a

/-- What signing promises of a session's frames. -/
structure SigningEnforced (frames : List Arrival) : Prop where
  /-- a request that must be signed and passes follows its own signature frame directly -/
  preceded : ∀ i a, frames[i]? = some a → Authorised crypto conf (connAt crypto conf frames i) a →
    ∃ j sf, i = j + 1 ∧ frames[j]? = some sf ∧
      SignedBy crypto conf (connAt crypto conf frames i).sigver.armed sf.frame a.frame
  /-- the sequence numbers of the requests that pass strictly increase -/
  increasing : ∀ i j a b sa sb, i < j → frames[i]? = some sa → frames[j]? = some sb →
    frames[i + 1]? = some a → frames[j + 1]? = some b →
    Authorised crypto conf (connAt crypto conf frames (i + 1)) a →
    Authorised crypto conf (connAt crypto conf frames (j + 1)) b →
    (xrdwSigverReqUnpack sa.frame.body).seqno < (xrdwSigverReqUnpack sb.frame.body).seqno

theorem pending_recorded (hund : UndisturbedRun crypto conf frames)
    (hi : i ≤ frames.length) (hpending : (connAt crypto conf frames i).sigver.pending = true)
    (hopen : (connAt crypto conf frames i).closed = false) :
    ∃ j sf, i = j + 1 ∧ frames[j]? = some sf ∧
      SigRecorded (connAt crypto conf frames i).sigver sf.frame ∧
      (connAt crypto conf frames j).sigver.lastSeqno <
        (xrdwSigverReqUnpack sf.frame.body).seqno := by
  cases i with
  | zero => cases hpending
  | succ j =>
    obtain ⟨sf, hsf⟩ : ∃ sf, frames[j]? = some sf := ⟨frames.get ⟨j, hi⟩, getElem?_eq_getElem hi⟩
    have hstep := recvFrame_spec crypto conf (hund j sf hsf)
    rw [connAt_succ crypto conf hsf] at hpending hopen ⊢
    rcases hstep.2 hpending with hclosed | ⟨hrec, hlt⟩
    · rw [hclosed] at hopen
      cases hopen
    · exact ⟨j, sf, rfl, hsf, hrec, hlt⟩

theorem lastSeqno_mono (hund : UndisturbedRun crypto conf frames)
    {j : ℕ} (hij : i ≤ j) (hj : j ≤ frames.length) :
    (connAt crypto conf frames i).sigver.lastSeqno ≤
      (connAt crypto conf frames j).sigver.lastSeqno := by
  induction hij with
  | refl => exact Nat.le_refl _
  | @step k _ ih =>
    have ih := ih (Nat.le_of_succ_le hj)
    have hk : frames[k]? = some (frames.get ⟨k, hj⟩) := getElem?_eq_getElem hj
    rw [Nat.succ_eq_add_one, connAt_succ crypto conf hk]
    exact Nat.le_trans ih (recvFrame_spec crypto conf (hund k _ hk)).1

/-- **Signing is enforced** in every session in which no write that the header phase answers
comes between a signature frame and its request. -/
theorem signing_enforced {frames : List Arrival} (hund : UndisturbedRun crypto conf frames) :
    SigningEnforced crypto conf frames := by
  have hlen : ∀ {i : ℕ} {a : Arrival}, frames[i]? = some a → i < frames.length := by
    intro i a h
    exact (List.getElem?_eq_some_iff.mp h).1
  constructor
  · intro i a ha hauth
    obtain ⟨hopen, hver, hped⟩ := hauth.verifies
    obtain ⟨j, sf, hj, hsf, hrec, -⟩ := pending_recorded crypto conf hund (Nat.le_of_lt (hlen ha))
      hver.pending hopen
    exact ⟨j, sf, hj, hsf, hrec.signedBy crypto conf hver hped⟩
  · intro i j a b sa sb hij hsa hsb ha hb hautha hauthb
    obtain ⟨hopena, hvera, -⟩ := hautha.verifies
    obtain ⟨hopenb, hverb, -⟩ := hauthb.verifies
    obtain ⟨i', sa', hi', hsa', hreca, -⟩ := pending_recorded crypto conf hund
      (Nat.le_of_lt (hlen ha)) hvera.pending hopena
    obtain ⟨j', sb', hj', hsb', -, hltb⟩ := pending_recorded crypto conf hund
      (Nat.le_of_lt (hlen hb)) hverb.pending hopenb
    obtain rfl : i = i' := Nat.succ.inj hi'
    obtain rfl : j = j' := Nat.succ.inj hj'
    obtain rfl : sa = sa' := Option.some.inj (hsa.symm.trans hsa')
    obtain rfl : sb = sb' := Option.some.inj (hsb.symm.trans hsb')
    calc (xrdwSigverReqUnpack sa.frame.body).seqno
        = (connAt crypto conf frames (i + 1)).sigver.lastSeqno := hreca.seqno.symm
      _ ≤ (connAt crypto conf frames j).sigver.lastSeqno :=
          lastSeqno_mono crypto conf hund hij (Nat.le_of_lt (hlen hsb))
      _ < (xrdwSigverReqUnpack sb.frame.body).seqno := hltb

/-! ## Two sessions -/

/-- A key, the hash of the signed `kXR_rm` below with sequence number 1, and its encryption -/
def sampleSigKey : SigKey where
  cipher := (beBytes 11 0x6165732d3132382d636263)
  key := [1, 2, 3, 4, 5, 6, 7, 8, 9, 10, 11, 12, 13, 14, 15, 16]
  useIv := false

@[inherit_doc sampleSigKey]
def sampleHash : List UInt8 :=
  [149, 9, 28, 146, 128, 229, 91, 240, 51, 107, 96, 135, 99, 242, 130, 224, 144, 227, 18,
    213, 215, 241, 103, 251, 76, 235, 215, 134, 179, 62, 139, 128]

@[inherit_doc sampleSigKey]
def sampleBlob : List UInt8 :=
  [40, 201, 234, 21, 15, 200, 140, 146, 23, 85, 60, 112, 217, 218, 14, 168, 142, 83, 222,
    198, 129, 98, 221, 35, 176, 64, 254, 73, 177, 236, 21, 81, 137, 197, 48, 181, 171, 121,
    242, 63, 150, 25, 112, 22, 76, 54, 207, 140]

/-- AES-128-CBC and SHA-256 at the one point the sample needs -/
def sampleSigCrypto : SigCrypto Unit where
  lookup name := if name = sampleSigKey.cipher then some () else none
  decrypt _ key useIv blob :=
    if key = sampleSigKey.key ∧ useIv = false ∧ blob = sampleBlob then some sampleHash else none
  sha256 m :=
    if m = [0, 0, 0, 0, 0, 0, 0, 1, 0, 5, 11, 198, 0, 0, 0, 0, 0, 0, 0, 0, 0, 0, 0, 0, 0, 0, 0,
        0, 0, 0, 0, 2, 47, 102] then some sampleHash else none

/-- Security level `standard` -/
def sampleSigningConf : SigningConf := ⟨2, false, false⟩

/-- The end of an authentication that arms the key -/
def sampleAuth : Arrival where
  frame :=
    { hdr := [0, 4, 11, 184, 0, 0, 0, 0, 0, 0, 0, 0, 0, 0, 0, 0, 103, 115, 105, 0, 0, 0, 0, 8]
      payload := [103, 115, 105, 0, 0, 0, 3, 233]
      trailing := []
      hdr_length := rfl
      payload_length := by decide }
  special := false
  onward := .armed sampleSigKey

def sampleSigver : Arrival where
  frame :=
    { hdr := [0, 5, 11, 213, 11, 198, 0, 0, 0, 0, 0, 0, 0, 0, 0, 1, 1, 0, 0, 0, 0, 0, 0, 48]
      payload := sampleBlob
      trailing := []
      hdr_length := rfl
      payload_length := by decide }
  special := false
  onward := .signing

/-- A `kXR_write` without data that names another data path -/
def sampleWrite : Arrival where
  frame :=
    { hdr := [0, 6, 11, 203, 0, 0, 0, 0, 0, 0, 0, 0, 0, 0, 0, 0, 1, 0, 0, 0, 0, 0, 0, 0]
      payload := []
      trailing := []
      hdr_length := rfl
      payload_length := by decide }
  special := false
  onward := .answered

/-- `kXR_rm` of `/f` -/
def sampleRm : Arrival where
  frame :=
    { hdr := [0, 5, 11, 198, 0, 0, 0, 0, 0, 0, 0, 0, 0, 0, 0, 0, 0, 0, 0, 0, 0, 0, 0, 2]
      payload := [47, 102]
      trailing := []
      hdr_length := rfl
      payload_length := by decide }
  special := false
  onward := .answered

/-- A signed removal passes, and its session is one of those the theorem is about. -/
theorem signing_enforced_sample :
    Authorised sampleSigCrypto sampleSigningConf
        (connAt sampleSigCrypto sampleSigningConf [sampleAuth, sampleSigver, sampleRm] 2) sampleRm ∧
      SigningEnforced sampleSigCrypto sampleSigningConf [sampleAuth, sampleSigver, sampleRm] := by
  refine ⟨⟨by decide, by decide, none, by decide⟩, signing_enforced _ _ fun i a ha => ?_⟩
  match i, ha with
  | 0, ha =>
    cases ha
    decide
  | 1, ha =>
    cases ha
    decide
  | 2, ha =>
    cases ha
    decide

/-- A write put between the signature frame and its request does not spend the signature. -/
theorem write_between_passes : ¬ ∀ frames : List Arrival,
    SigningEnforced sampleSigCrypto sampleSigningConf frames := by
  intro h
  obtain ⟨j, sf, hj, hsf, hsigned⟩ :=
    (h [sampleAuth, sampleSigver, sampleWrite, sampleRm]).preceded 3 sampleRm rfl
      ⟨by decide, by decide, none, by decide⟩
  obtain rfl : 2 = j := Nat.succ.inj hj
  obtain rfl : sampleWrite = sf := Option.some.inj hsf
  exact absurd hsigned.opcode (by decide)

end BrixCache

import BrixCache.Manager.Pending
import BrixCache.Manager.Select
import BrixCache.Core.Ascii

/-!
# Deletes at every holder

`net/cms/fanout.c`: a worker of the manager forwards a client's delete to every node that exports
the path, parks the client, and answers it when the window is over or every node has sent an
error. A node is silent on success, so a window without an error is the success. The parked client
is found again through the pending table, by its descriptor and the number of its connection.
-/

namespace BrixCache

open Function

/-! ## The worker -/

/-- `brix_cms_fanout_slot_t` of a slot in use. The number of the fan-out is not kept by the code. -/
structure FanoutSlot : Type where
  sid : UInt32
  expected : ℕ
  gotErr : ℕ
  worstErr : UInt32
  errtext : Bytes
  /-- when the window is over -/
  deadline : UInt64
  flight : ℕ
  deriving DecidableEq

/-- Where a client's session stands, as far as it matters here -/
inductive XrdState : Type where
  | reqHeader
  | waitingCms
  deriving DecidableEq

/-- A client's connection with its session. The number of its request is not kept by the code. -/
structure FanoutConn : Type where
  /-- `c->number` -/
  number : ℕ
  /-- a session of this module, not of another one -/
  hasCtx : Bool
  state : XrdState
  cmsWaitStreamid : UInt32
  curStreamid : UInt8 × UInt8
  readTimer : Option UInt64
  request : ℕ
  deriving DecidableEq

/-- A fan-out, as the log knows it: the request that started it, the registered holders of the path,
the nodes it was forwarded to, and whether an error for it came before it settled. -/
structure Flight : Type where
  sid : UInt32
  number : ℕ
  request : ℕ
  clientStreamid : UInt8 × UInt8
  holders : List (Bytes × UInt16)
  forwarded : List (Bytes × UInt16)
  error : Bool
  settled : Bool
  deriving DecidableEq

/-- A reply of a fan-out: to whom it went, and the text of an error -/
structure FanoutReply : Type where
  flight : ℕ
  number : ℕ
  request : ℕ
  clientStreamid : UInt8 × UInt8
  error : Option Bytes
  deriving DecidableEq

/-- A worker, with the table it shares, and the log of its fan-outs -/
structure FanoutWorker : Type where
  pid : ℕ
  now : UInt64
  /-- `brix_cms_srv_streamid_seq` -/
  seq : UInt32
  slots : List (Option FanoutSlot)
  pending : PendingTable
  conns : ℕ → Option FanoutConn
  connCounter : ℕ
  requests : ℕ
  flights : List Flight
  replies : List FanoutReply

/-- A worker that has just started -/
def FanoutWorker.init (pid : ℕ) (now : UInt64) (pending : PendingTable) : FanoutWorker where
  pid := pid
  now := now
  seq := 0
  slots := List.replicate 16 none
  pending := pending
  conns _ := none
  connCounter := 0
  requests := 0
  flights := []
  replies := []

/-! ## Settling -/

/-- The client that a fan-out's answer goes to, if it is still parked for it -/
def fanoutClient (w : FanoutWorker) (slot : FanoutSlot) : Option (PendingLocate × FanoutConn) :=
  (brixPendingLookup w.pending slot.sid w.pid).bind fun p =>
    ((w.conns p.connFd).filter fun c => c.number = p.connNumber && c.hasCtx &&
      c.state = .waitingCms && c.cmsWaitStreamid = slot.sid).map fun c => (p, c)

/-- `forwarded operation failed` -/
def fanoutFailed : Bytes :=
  [102, 111, 114, 119, 97, 114, 100, 101, 100, 32, 111, 112, 101, 114, 97, 116, 105, 111, 110, 32,
    102, 97, 105, 108, 101, 100]

/-- What a fan-out answers -/
def FanoutSlot.answer (slot : FanoutSlot) : Option Bytes :=
  if slot.worstErr = 0 then none
  else some (if slot.errtext ≠ [] then slot.errtext else fanoutFailed)

/-- `brix_cms_fanout_finalize` of the slot at a place -/
def brixCmsFanoutFinalize (w : FanoutWorker) (i : ℕ) (slot : FanoutSlot) : FanoutWorker :=
  let settled : FanoutWorker :=
    { w with
      slots := w.slots.set i none
      pending := brixPendingRemove w.pending slot.sid w.pid
      flights := w.flights.modify slot.flight fun fl => { fl with settled := true } }
  match fanoutClient w slot with
  | none => settled
  | some (p, c) =>
    { settled with
      conns := update w.conns p.connFd (some
        { c with state := .reqHeader, curStreamid := p.clientStreamid, readTimer := none })
      replies := w.replies ++
        [⟨slot.flight, c.number, c.request, p.clientStreamid, slot.answer⟩] }

/-! ## Starting -/

/-- A node's connection to this worker: what `brix_cms_srv_ctx_t` says of it, and whether what is
sent to it goes out -/
structure FanoutNode : Type where
  host : Bytes
  port : UInt16
  paths : Bytes
  loggedIn : Bool
  connected : Bool
  sends : Bool
  deriving DecidableEq

/-- A request to delete: what the configuration, the registry and the nodes are when it comes -/
structure FanoutRequest : Type where
  /-- `cur_reqid` -/
  reqid : UInt16
  path : Bytes
  clientStreamid : UInt8 × UInt8
  /-- `conf->cms.fanout` -/
  enabled : Bool
  /-- `conf->cms.fanout_window` -/
  window : UInt64
  registry : SrvTable
  nodes : List FanoutNode

/-- The server is registered and its blacklist time lies ahead. -/
def brixSrvIsBlacklisted (now : UInt64) (tbl : SrvTable) (host : Bytes) (port : UInt16) :
    Bool :=
  match srvFindLocked tbl host port with
  | none => false
  | some i => (tbl.getD i none).any fun e => e.blacklistedUntil ≠ 0 && now < e.blacklistedUntil

/-- `brix_cms_fanout_op_code`: `kXR_rm` and `kXR_rmdir` -/
def brixCmsFanoutOpCode (reqid : UInt16) : Bool := reqid = 3014 || reqid = 3015

def brixCmsFanoutCollectEligible (now : UInt64) (r : FanoutRequest) : List FanoutNode :=
  (r.nodes.filter fun node => node.loggedIn && node.connected &&
    srvPathMatches node.paths r.path &&
    !brixSrvIsBlacklisted now r.registry node.host node.port).take 32

/-- The nodes that `brix_cms_fanout_send_all` gets the operation out to -/
def brixCmsFanoutSendAll (elig : List FanoutNode) : List FanoutNode := elig.filter (·.sends)

/-- The registered holders of the path -/
def FanoutRequest.holders (r : FanoutRequest) : List (Bytes × UInt16) :=
  r.registry.filterMap fun slot =>
    (slot.filter fun e => srvPathMatches e.paths r.path).map fun e => (e.host, e.port)

/-- The fan-out is tried: what `brix_cms_fanout_mutation` checks before it draws a stream id. -/
def fanoutEngages (now : UInt64) (r : FanoutRequest) : Bool :=
  let elig := brixCmsFanoutCollectEligible now r
  r.enabled && brixCmsFanoutOpCode r.reqid && 2 ≤ elig.length &&
    elig.length = brixSrvCountMatching r.registry r.path

/-- Forwarded requests carry ids with the top bit set. -/
def brixCmsSrvNextStreamid (seq : UInt32) : UInt32 := 0x80000000 ||| (seq + 1)

/-- A client parks under a stream id. -/
def FanoutConn.park (c : FanoutConn) (sid : UInt32) (readTimer : UInt64) : FanoutConn :=
  { c with state := .waitingCms, cmsWaitStreamid := sid, readTimer := some readTimer }

/-- `brix_cms_fanout_mutation` for the client at a descriptor. Where it declines, the client is
redirected. -/
def brixCmsFanoutMutation (w : FanoutWorker) (fd : ℕ) (c : FanoutConn) (r : FanoutRequest) :
    FanoutWorker :=
  if !fanoutEngages w.now r then w
  else
    match w.slots.findIdx? Option.isNone with
    | none => w
    | some i =>
      let sid := brixCmsSrvNextStreamid w.seq
      let ins := brixPendingInsert w.now w.pending sid w.pid fd c.number r.clientStreamid
        (r.window * 2)
      let w := { w with seq := w.seq + 1, pending := ins.2 }
      if !ins.1 then w
      else
        let sent := brixCmsFanoutSendAll (brixCmsFanoutCollectEligible w.now r)
        if sent.length = 0 then { w with pending := brixPendingRemove w.pending sid w.pid }
        else
          { w with
            slots := w.slots.set i
              (some ⟨sid, sent.length, 0, 0, [], w.now + r.window, w.flights.length⟩)
            conns := update w.conns fd (some (c.park sid (w.now + r.window * 2)))
            flights := w.flights ++ [{
              sid := sid
              number := c.number
              request := c.request
              clientStreamid := r.clientStreamid
              holders := r.holders
              forwarded := sent.map fun node => (node.host, node.port)
              error := false
              settled := false }] }

/-! ## Errors -/

/-- The text of an error as it is relayed: printable ASCII, the rest squashed -/
def fanoutText (text : Bytes) : Bytes :=
  ((text.takeWhile (· ≠ 0)).take 127).map fun b => if 0x20 ≤ b ∧ b < 0x7f then b else 63

/-- What `brix_cms_fanout_note_error` folds into a slot -/
def FanoutSlot.fold (slot : FanoutSlot) (ecode : UInt32) (text : Bytes) : FanoutSlot :=
  if slot.worstErr = 0 then
    { slot with
      gotErr := slot.gotErr + 1
      worstErr := if ecode ≠ 0 then ecode else 1
      errtext := fanoutText text }
  else { slot with gotErr := slot.gotErr + 1 }

/-- An error is folded into the slot of its stream id. -/
def brixCmsFanoutNoteError (w : FanoutWorker) (sid ecode : UInt32) (text : Bytes) :
    FanoutWorker :=
  match w.slots.findIdx? fun slot => slot.any (·.sid = sid) with
  | none => w
  | some i =>
    match w.slots.getD i none with
    | none => w
    | some slot =>
      let slot := slot.fold ecode text
      let w := { w with slots := w.slots.set i (some slot) }
      if slot.expected ≤ slot.gotErr then brixCmsFanoutFinalize w i slot else w

/-- An error has come for the fan-outs in flight under its stream id. -/
def FanoutWorker.logError (w : FanoutWorker) (sid : UInt32) : FanoutWorker :=
  { w with
    flights := w.flights.map fun fl =>
      if fl.sid = sid ∧ fl.settled = false then { fl with error := true } else fl }

/-! ## Events -/

/-- What happens to a worker. The others are what else touches the pending table or a client. -/
inductive FanoutEvent : Type where
  | fanout (fd : ℕ) (r : FanoutRequest)
  | error (sid ecode : UInt32) (text : Bytes)
  | deadline (i : ℕ)
  | connect (fd : ℕ) (hasCtx : Bool)
  | disconnect (fd : ℕ)
  | tick (now : UInt64)
  | request (fd : ℕ) (clientStreamid : UInt8 × UInt8)
  | locate (fd : ℕ) (clientStreamid : UInt8 × UInt8) (sid : UInt32) (timeout : UInt64)
  /-- `brix_cms_wake_pending_session`, with whether the host can be sent to the client -/
  | wake (sid : UInt32) (hostOk : Bool)
  /-- the read timer of a parked client fires -/
  | readTimeout (fd : ℕ)
  | draw
  | reap
  /-- another worker's entry -/
  | foreignInsert (pid : ℕ) (sid : UInt32) (fd number : ℕ) (clientStreamid : UInt8 × UInt8)
    (timeout : UInt64)
  | foreignRemove (pid : ℕ) (sid : UInt32)

/-- The client at a descriptor, if it can send a request: one that is parked is not read from. -/
def FanoutWorker.idle (w : FanoutWorker) (fd : ℕ) : Option FanoutConn :=
  (w.conns fd).filter fun c => c.hasCtx && c.state = .reqHeader

def FanoutWorker.next (w : FanoutWorker) (c : FanoutConn) (cid : UInt8 × UInt8) : FanoutConn :=
  { c with request := w.requests, curStreamid := cid }

def FanoutWorker.read (w : FanoutWorker) (fd : ℕ) (c : FanoutConn) : FanoutWorker :=
  { w with requests := w.requests + 1, conns := update w.conns fd (some c) }

/-- A client's wait is over. -/
def FanoutWorker.unpark (w : FanoutWorker) (fd : ℕ) (c : FanoutConn) : FanoutWorker :=
  { w with
    conns := update w.conns fd (some { c with state := .reqHeader, readTimer := none }) }

def FanoutWorker.step (w : FanoutWorker) : FanoutEvent → FanoutWorker
  | .fanout fd r =>
    match w.idle fd with
    | none => w
    | some c =>
      let c := w.next c r.clientStreamid
      brixCmsFanoutMutation (w.read fd c) fd c r
  | .error sid ecode text => brixCmsFanoutNoteError (w.logError sid) sid ecode text
  | .deadline i =>
    match w.slots.getD i none with
    | none => w
    | some slot => if slot.deadline ≤ w.now then brixCmsFanoutFinalize w i slot else w
  | .connect fd hasCtx =>
    match w.conns fd with
    | some _ => w
    | none =>
      { w with
        connCounter := w.connCounter + 1
        conns := update w.conns fd
          (some ⟨w.connCounter, hasCtx, .reqHeader, 0, (0, 0), none, 0⟩) }
  | .disconnect fd => { w with conns := update w.conns fd none }
  | .tick now => { w with now := max w.now now }
  | .request fd cid =>
    match w.idle fd with
    | none => w
    | some c => w.read fd (w.next c cid)
  | .locate fd cid sid timeout =>
    match w.idle fd with
    | none => w
    | some c =>
      let c := w.next c cid
      let w := w.read fd c
      let ins := brixPendingInsert w.now w.pending sid w.pid fd c.number cid timeout
      let w := { w with pending := ins.2 }
      if !ins.1 then w
      else { w with conns := update w.conns fd (some (c.park sid (w.now + timeout))) }
  | .wake sid hostOk =>
    match brixPendingLookup w.pending sid w.pid with
    | none => w
    | some p =>
      let w := { w with pending := brixPendingRemove w.pending sid w.pid }
      match (w.conns p.connFd).filter fun c => c.number = p.connNumber && c.hasCtx &&
        c.state = .waitingCms with
      | none => w
      | some c => if hostOk then w.unpark p.connFd { c with curStreamid := p.clientStreamid } else w
  | .readTimeout fd =>
    match (w.conns fd).filter fun c => c.state = .waitingCms && c.readTimer.any (· ≤ w.now) with
    | none => w
    | some c =>
      { w with pending := brixPendingRemove w.pending c.cmsWaitStreamid w.pid }.unpark fd c
  | .draw => { w with seq := w.seq + 1 }
  | .reap => { w with pending := brixPendingReapExpired w.now w.pending }
  | .foreignInsert pid sid fd number cid timeout =>
    if pid = w.pid then w
    else { w with pending := (brixPendingInsert w.now w.pending sid pid fd number cid timeout).2 }
  | .foreignRemove pid sid =>
    if pid = w.pid then w else { w with pending := brixPendingRemove w.pending sid pid }

/-! ## What is promised -/

/-- Each fan-out replies at most once, to the request that started it, and with success only if it
was forwarded to every holder and no error for it came before it settled. -/
def FanoutWorker.Honest (w : FanoutWorker) : Prop :=
  (w.replies.map (·.flight)).Nodup ∧
    ∀ r ∈ w.replies, ∃ fl, w.flights[r.flight]? = some fl ∧ r.number = fl.number ∧
      r.request = fl.request ∧ r.clientStreamid = fl.clientStreamid ∧
      (r.error = none → (∀ h ∈ fl.holders, h ∈ fl.forwarded) ∧ fl.error = false)

/-- A stream id is in use neither by a fan-out nor in the pending table nor by a parked client. -/
structure FanoutWorker.SidFree (w : FanoutWorker) (sid : UInt32) : Prop where
  slots : ∀ s, some s ∈ w.slots → s.sid ≠ sid
  pending : ∀ p, some p ∈ w.pending → p.workerPid = w.pid → p.streamid ≠ sid
  conns : ∀ fd c, w.conns fd = some c → c.state = .waitingCms → c.cmsWaitStreamid ≠ sid

/-- What an event must meet: a fan-out draws a free stream id, has a connection to every holder and
gets the operation out on each of them, and no locate is parked under the id of a fan-out. -/
def FanoutEvent.Meets (w : FanoutWorker) : FanoutEvent → Prop
  | .fanout _ r => fanoutEngages w.now r = true →
      w.SidFree (brixCmsSrvNextStreamid w.seq) ∧
      (∀ node ∈ brixCmsFanoutCollectEligible w.now r, node.sends = true) ∧
      ∀ h ∈ r.holders, ∃ node ∈ brixCmsFanoutCollectEligible w.now r, (node.host, node.port) = h
  | .locate _ _ sid _ => ∀ s, some s ∈ w.slots → s.sid ≠ sid
  | _ => True

end BrixCache

import BrixCache.Lib.Atomic
import BrixCache.Vfs.LockGate

/-!
# Taking and giving back locks

The `LOCK` and `UNLOCK` handlers (`lock.c`, `lock_discovery.c`) and the compare and exchange of a
lock record (`vfs_lock_store.c`, `lock_store.c`), as programs of atomic actions on a tree: a record
is read, or exchanged on its inode, and between two actions everybody else may act.
-/

namespace BrixCache

open Words

/-! ## The tree -/

/-- A file of a size, or a directory, and its lock attribute -/
structure LockNode : Type where
  size : Option ℕ
  value : Option Bytes
  deriving DecidableEq

/-- The resources with their locks, and the clock -/
structure LockTree : Type where
  now : ℤ
  node : Resource → Option LockNode

def LockTree.value (s : LockTree) (p : Resource) : Option Bytes :=
  (s.node p).bind LockNode.value

def LockTree.put (s : LockTree) (p : Resource) (n : Option LockNode) : LockTree :=
  { s with node := Function.update s.node p n }

/-! ## Actions -/

/-- The actions of a request on the tree -/
inductive LockAct : Type where
  | read (path : Bytes)
  /-- `brix_posix_lock_store_update_fd` -/
  | swap (path : Bytes) (expected replacement : Option Bytes)
  | probe (path : Bytes)
  | create (path : Bytes)
  /-- an open and what it says of the file: a regular one without content -/
  | isEmpty (path : Bytes)
  | unlink (path : Bytes)
  deriving DecidableEq

/-- Done; nothing there (`ENOENT`, `ENODATA`); anything else -/
inductive SwapResult : Type where
  | ok | absent | refused
  deriving DecidableEq

abbrev LockReply : LockAct → Type
  | .read _ => ℤ × XattrRead
  | .swap _ _ _ => SwapResult
  | .probe _ => Bool
  | .create _ => Bool
  | .isEmpty _ => Bool
  | .unlink _ => Unit

/-- What is up to the surroundings: how far a worker's cached clock is behind, and whether a
system call fails (a file lock held by another is one reason). -/
structure LockChance : Type where
  lag : ℕ
  fails : Bool

/-- `lock_store_compare` and `lock_store_apply`, once the inode is open and locked -/
def lockStoreApply (s : LockTree) (p : Resource) (n : LockNode)
    (expected replacement : Option Bytes) : SwapResult × LockTree :=
  if n.value = expected then (.ok, s.put p (some { n with value := replacement }))
  else if n.value = none then (.absent, s)
  else (.refused, s)

/-- One action on the tree. A new file needs its directory. -/
def LockTree.perform (s : LockTree) (a : LockAct) (c : LockChance) :
    Option (LockReply a × LockTree) :=
  match a with
  | .read path =>
    let answer : XattrRead :=
      if c.fails then .fault
      else match s.value (words slash path) with
        | none => .absent
        | some raw => .value raw
    some ((s.now - c.lag, answer), s)
  | .swap path expected replacement =>
    if c.fails then some (.refused, s)
    else match s.node (words slash path) with
      | none => some (.absent, s)
      | some n => some (lockStoreApply s (words slash path) n expected replacement)
  | .probe path => some ((s.node (words slash path)).isSome, s)
  | .create path =>
    match s.node (words slash path), s.node (words slash path).dropLast with
    | some _, _ => some (false, s)
    | none, some ⟨none, _⟩ => some (true, s.put (words slash path) (some ⟨some 0, none⟩))
    | none, _ => none
  | .isEmpty path =>
    match s.node (words slash path) with
    | some ⟨some 0, _⟩ => some (!c.fails, s)
    | _ => some (false, s)
  | .unlink path =>
    match s.node (words slash path) with
    | some ⟨some _, _⟩ => if c.fails then some ((), s) else some ((), s.put (words slash path) none)
    | _ => some ((), s)

/-- The clock goes on. -/
def LockTree.tick (s : LockTree) (n : ℕ) : Option LockTree := some { s with now := s.now + n }

/-! ## Requests -/

/-- What a new lock is made from: `webdav_lock_new_t`, the subject of the client, the random part
of the token and the time the lock is asked for -/
structure LockNew : Type where
  owner : Bytes
  dn : Bytes
  exclusive : Bool
  depthInfinity : Bool
  uuid : Bytes
  timeout : ℤ

/-- A handler that reads past an expired record cleans it up: `cleanup` is that part of it. -/
inductive LockMethod : Type where
  | lock (n : LockNew)
  | unlock
  | cleanup

/-- A LOCK or UNLOCK request -/
structure LockRequest (root : ExportRoot) : Type where
  method : LockMethod
  target : ConfinedPath root
  ifHeader : Option Bytes
  lockTokenHeader : Option Bytes

variable {root : ExportRoot} (q : LockRequest root)

abbrev LockRequest.path : Bytes := q.target.path

/-- `webdav_lock_token_header` -/
def LockRequest.tokenHeader : Option Bytes := q.ifHeader <|> q.lockTokenHeader

def LockRequest.ctx (now : ℤ) : LockCtx := ⟨root, now, q.tokenHeader, fun _ => false⟩

abbrev LockProg : Type → Type := Prog LockAct LockReply

def act (a : LockAct) : LockProg (LockReply a) := Prog.does a

/-! ## The gate and the store -/

/-- `brix_vfs_require_unlocked`, reading level by level -/
def requireUnlocked : List Bytes → LockProg GateResult
  | [] => pure .ok
  | check :: above => do
    let (now, answer) ← act (.read check)
    match brixVfsLockProbeLevel (q.ctx now) (fun _ => answer) check q.path with
    | .ok => requireUnlocked above
    | bad => pure bad

/-- The levels above and at the target -/
def LockRequest.levels : List Bytes :=
  lockLevels root.canon.length (q.path.take (PATH_MAX - 1))

/-- `brix_vfs_lock_store_update` of a local export -/
def brixVfsLockStoreUpdate (expected replacement : Option Bytes) :
    LockProg SwapResult := do
  match ← requireUnlocked q q.levels with
  | .ok => act (.swap q.path expected replacement)
  | _ => pure .refused

/-- Swap a record in for the value read before. -/
def webdavLockXattrWrite (e : LockRecord) (expected : Option Bytes) : LockProg Bool :=
  match brixLockRecordEncode e with
  | none => pure false
  | some raw => do
    let result ← brixVfsLockStoreUpdate q expected (some raw)
    pure (result = .ok)

/-- `webdav_lock_xattr_delete`: a record that is gone already counts as deleted. -/
def webdavLockXattrDelete (e : LockRecord) : LockProg Bool := do
  let result ← brixVfsLockStoreUpdate q (some e.observed) none
  pure (result ≠ .refused)

/-- `webdav_lock_reap_null`: the placeholder of a lock on a new name goes with the lock. -/
def webdavLockReapNull (e : LockRecord) : LockProg Unit :=
  if e.isNull then do
    match ← requireUnlocked q q.levels with
    | .ok =>
      if ← act (.isEmpty q.path) then
        match ← requireUnlocked q q.levels with
        | .ok => act (.unlink q.path)
        | _ => pure ()
      else pure ()
    | _ => pure ()
  else pure ()

/-- `webdav_lock_expired_cleanup` of a writable export -/
def webdavLockExpiredCleanup (e : LockRecord) (reapNull : Bool) : LockProg Unit := do
  if ← webdavLockXattrDelete q e then
    if reapNull then webdavLockReapNull q e else pure ()
  else pure ()

/-- `webdav_lock_xattr_read_mutation`: nothing for a failed read -/
def webdavLockXattrRead : LockProg (Option (ℤ × Option LockRecord)) := do
  match ← act (.read q.path) with
  | (_, .fault) => pure none
  | (now, .absent) => pure (some (now, none))
  | (now, .value raw) => pure (some (now, brixLockRecordDecode raw))

/-! ## The handlers -/

/-- `webdav_lock_create_null`: whether the handler goes on, and made a placeholder -/
def webdavLockCreateNull : LockProg (Option Bool) := do
  if ← act (.probe q.path) then pure (some false)
  else
    match ← requireUnlocked q q.levels with
    | .ok =>
      let created ← act (.create q.path)
      pure (some created)
    | _ => pure none

def webdavLockOwnerSet (n : LockNew) : Bytes :=
  (if n.owner ≠ [] then n.owner else if n.dn ≠ [] then n.dn else ascii "anonymous").take 255

/-- The record of `webdav_lock_create` -/
def LockNew.record (n : LockNew) (now : ℤ) (createdNull : Bool) : LockRecord where
  token := (ascii "opaquelocktoken:" ++ n.uuid).take 63
  owner := webdavLockOwnerSet n
  expires := now + n.timeout
  exclusive := n.exclusive
  depthInfinity := n.depthInfinity
  isNull := createdNull
  observed := []

/-- `webdav_lock_refresh`, at the time the record was read -/
def webdavLockRefresh (n : LockNew) (now : ℤ) (e : LockRecord) : LockProg Unit :=
  if (q.ctx now).presents e.token then do
    let _ ← webdavLockXattrWrite q { e with expires := now + n.timeout } (some e.observed)
    pure ()
  else pure ()

def webdavLockCreate (n : LockNew) (now : ℤ) (createdNull : Bool) : LockProg Unit := do
  let _ ← webdavLockXattrWrite q (n.record now createdNull) none
  pure ()

/-- The request that takes a lock. -/
def webdavHandleLock (n : LockNew) : LockProg Unit := do
  match ← webdavLockCreateNull q with
  | none => pure ()
  | some createdNull =>
    match ← webdavLockXattrRead q with
    | none => pure ()
    | some (now, none) => webdavLockCreate q n now createdNull
    | some (now, some e) =>
      if e.expires ≤ now then do
        webdavLockExpiredCleanup q e false
        webdavLockCreate q n now createdNull
      else webdavLockRefresh q n now e

/-- The `Lock-Token` header without its angle brackets -/
def stripAngles (h : Bytes) : Bytes :=
  match h with
  | 60 :: rest => if rest.getLast? = some 62 then rest.dropLast else rest
  | _ => h

/-- The request that gives a lock back. -/
def webdavHandleUnlock : LockProg Unit :=
  match q.lockTokenHeader with
  | none => pure ()
  | some header => do
    match ← webdavLockXattrRead q with
    | some (now, some e) =>
      if e.expires ≤ now then webdavLockExpiredCleanup q e true
      else if stripAngles header = e.token then do
        if ← webdavLockXattrDelete q e then webdavLockReapNull q e else pure ()
      else pure ()
    | _ => pure ()

/-- An expired record is met by a walk, a scan or a listing. -/
def webdavCleanup : LockProg Unit := do
  match ← webdavLockXattrRead q with
  | some (now, some e) => if e.expires ≤ now then webdavLockExpiredCleanup q e true else pure ()
  | _ => pure ()

def lockHandler : LockProg Unit :=
  match q.method with
  | .lock n => webdavHandleLock q n
  | .unlock => webdavHandleUnlock q
  | .cleanup => webdavCleanup q

end BrixCache

/-! ## The owner in a lock record -/

namespace BrixCache

open Words

/-- Two records of one lock -/
structure SameLock (d e : LockRecord) : Prop where
  token : d.token = e.token
  owner : d.owner = e.owner
  expires : d.expires = e.expires
  exclusive : d.exclusive = e.exclusive
  depthInfinity : d.depthInfinity = e.depthInfinity
  isNull : d.isNull = e.isNull

/-- The texts of a record as C strings in its fields -/
structure CTexts (e : LockRecord) : Prop where
  token : 0 ∉ e.token ∧ e.token.length ≤ 63
  owner : 0 ∉ e.owner ∧ e.owner.length ≤ 255
  expires : -2 ^ 63 ≤ e.expires ∧ e.expires < 2 ^ 63

theorem decode_sameLock_iff {e : LockRecord} (he : CTexts e) {raw : Bytes}
    (henc : brixLockRecordEncode e = some raw) :
    (∃ d, brixLockRecordDecode raw = some d ∧ SameLock d e) ↔
      e.token ≠ [] ∧ 124 ∉ e.token ∧ 124 ∉ e.owner := by
  constructor
  · rintro ⟨d, hd, hsame⟩
    -- what was read has no bar in it, and is what was written
    obtain ⟨hfits, htoken, -⟩ := brixLockRecordDecode_fits hd
    rw [hsame.token] at htoken
    have htokenText := hfits.token.1.1
    have hownerText := hfits.owner.1.1
    rw [hsame.token] at htokenText
    rw [hsame.owner] at hownerText
    exact ⟨htoken, htokenText, hownerText⟩
  · rintro ⟨hne, htoken, howner⟩
    have hfits : Fits e :=
      ⟨⟨⟨htoken, he.token.1⟩, he.token.2⟩, ⟨⟨howner, he.owner.1⟩, he.owner.2⟩⟩
    have hread := brixLockRecordDecode_encode hfits hne henc
    rw [strtoll_formatLld he.expires.1 he.expires.2] at hread
    exact ⟨_, hread, ⟨rfl, rfl, rfl, rfl, rfl, rfl⟩⟩

/-! ### The owner of a new lock -/

theorem bar_notMem_owner_iff (n : LockNew) :
    124 ∉ webdavLockOwnerSet n ↔
      124 ∉ n.owner.take 255 ∧ (n.owner = [] → 124 ∉ n.dn.take 255) := by
  by_cases howner : n.owner = []
  · by_cases hdn : n.dn = []
    · simp [webdavLockOwnerSet, howner, hdn]
      decide
    · simp [webdavLockOwnerSet, howner, hdn]
  · simp [webdavLockOwnerSet, howner]

theorem zero_notMem_owner {n : LockNew} (howner : 0 ∉ n.owner) (hdn : 0 ∉ n.dn) :
    0 ∉ webdavLockOwnerSet n := by
  intro h
  have h := List.mem_of_mem_take h
  split at h
  · exact howner h
  · split at h
    · exact hdn h
    · exact absurd h (by decide)

/-- **Round trip of a lock.** A lock the handler makes is read as it was written when its token is
a text without bars, and so is what the owner is taken from. -/
theorem lock_round_trip_iff {n : LockNew} {now : ℤ} {createdNull : Bool} {token raw : Bytes}
    (howner : 0 ∉ n.owner) (hdn : 0 ∉ n.dn) (htoken : 0 ∉ token ∧ token.length ≤ 63)
    (hexpires : -2 ^ 63 ≤ now + n.timeout ∧ now + n.timeout < 2 ^ 63)
    (henc : brixLockRecordEncode { n.record now createdNull with token } = some raw) :
    (∃ d, brixLockRecordDecode raw = some d ∧
        SameLock d { n.record now createdNull with token }) ↔
      (token ≠ [] ∧ 124 ∉ token) ∧
        124 ∉ n.owner.take 255 ∧ (n.owner = [] → 124 ∉ n.dn.take 255) := by
  have htexts : CTexts { n.record now createdNull with token } :=
    ⟨htoken, ⟨zero_notMem_owner howner hdn, List.length_take_le 255 _⟩, hexpires⟩
  rw [decode_sameLock_iff htexts henc, ← bar_notMem_owner_iff, and_assoc]
  rfl

theorem lock_round_trip_sample :
    ∃ d, brixLockRecordDecode (ascii "v=2|token=opaquelocktoken:a|owner=x=y|expires=60|" ++
        ascii "scope=exclusive|depth=0|null=0") = some d ∧
      SameLock d ⟨ascii "opaquelocktoken:a", ascii "x=y", 60, true, false, false, []⟩ :=
  (@lock_round_trip_iff ⟨ascii "x=y", [], true, false, ascii "a", 60⟩ 0 false
    (ascii "opaquelocktoken:a") _ (by decide) (by decide) (by decide) (by decide)
    (by decide)).mpr (by decide)

/-- A lock whose owner is `x|token=y` -/
theorem owner_changes_token :
    ¬∀ raw, brixLockRecordEncode
        (LockNew.record ⟨ascii "x|token=y", [], true, false, ascii "a", 60⟩ 0 false) = some raw →
      ∃ d, brixLockRecordDecode raw = some d ∧
        SameLock d (LockNew.record ⟨ascii "x|token=y", [], true, false, ascii "a", 60⟩ 0 false) := by
  intro h
  obtain ⟨d, hd, hsame⟩ := h _ rfl
  have htoken := congrArg (Option.map LockRecord.token) hd
  rw [Option.map_some, hsame.token] at htoken
  exact absurd htoken (by decide)

end BrixCache

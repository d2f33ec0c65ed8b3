import BrixCache.SdCache.ServeHit

/-!
# Hits across workers

Any number of workers over one local store: objects by path, their records, and a
header cache for each worker, which only that worker drops from. Read-opens hit,
fill whole files or open slices; an eviction, also a write-open's, unlinks the
object and removes the record.

A read-open is two steps, the load of the header and the open of the object, a
commit two, the rename and the header's store, a block's fill two, the copy and
its record, and an eviction three; the other workers' steps come in between. An
object is a file of cells, `none` where it has a hole; a handle keeps the file it
was opened on, whatever becomes of its path.
-/

namespace BrixCache

open Sparse Function

/-! ## The system -/

/-- A read-open between its header and its object. -/
structure PendingOpen (K : Type) : Type where
  key : K
  ci : Cinfo

/-- A whole-file fill between its rename and its header's store. -/
structure PublishedFill (W K : Type) : Type where
  worker : W
  key : K
  snap : SourceSnap
  /-- bytes filled -/
  off : ℕ

/-- An open slice file of a worker -/
structure SliceOpen (K : Type) : Type where
  key : K
  /-- the file its descriptor is of -/
  ino : ℕ
  obj : PartialObj
  /-- the block copied and not recorded yet -/
  copied : Option ℕ

/-- An open of a complete object -/
structure HitOpen : Type where
  ci : Cinfo
  cells : List (Option UInt8)

/-- The store's files by number, and the objects among them. -/
structure StoreFiles (K : Type) : Type where
  inodes : ℕ → List (Option UInt8)
  /-- the next file's number -/
  next : ℕ
  path : K → Option ℕ

/-- The store, the workers' header caches, and the calls in progress by number. -/
structure WorkersState (W K : Type) : Type where
  files : StoreFiles K
  record : K → Option Xmeta
  l1 : W → CinfoL1 K
  opens : ℕ → Option (PendingOpen K)
  fills : ℕ → Option (PublishedFill W K)
  handles : ℕ → Option (SliceOpen K)
  hits : List HitOpen

/-- The steps of the workers, an open under the number `id` -/
inductive WorkersAct (W K : Type) : Type where
  /-- `brix_cstore_cinfo_load` of a read-open -/
  | load (id : ℕ) (w : W) (k : K) : WorkersAct W K
  /-- the rest of `cache_open_serve_hit` -/
  | serve (id : ℕ) (now : Int64) : WorkersAct W K
  /-- `brix_cstore_fill_commit` of these bytes -/
  | publish (id : ℕ) (w : W) (k : K) (snap : SourceSnap) (bytes : List UInt8) : WorkersAct W K
  /-- the rest of `cache_fill_commit` -/
  | store (id : ℕ) (now : Int64) (fv : FillVerify) (ttl : Int64) (manifest : Bool)
      (save : RecordSave) : WorkersAct W K
  /-- `sd_cache_partial_open` while the source is `v` -/
  | partialOpen (id : ℕ) (k : K) (policy : SlicePolicy) (hint : UInt64) (v : OriginVersion) :
      WorkersAct W K
  /-- `partial_block_copy` of what the source had of the block, to its end or
  not -/
  | copy (id blk : ℕ) (bytes : List UInt8) (done : Bool) : WorkersAct W K
  /-- `brix_cache_cinfo_record_block` of the block copied -/
  | record (id : ℕ) (now : Int64) (save : RecordSave) : WorkersAct W K
  | close (id : ℕ) : WorkersAct W K
  /-- the three parts of `brix_cstore_evict` -/
  | evictL1 (w : W) (k : K) : WorkersAct W K
  | evictRecord (k : K) : WorkersAct W K
  | evictObject (k : K) : WorkersAct W K

section

variable {W K : Type}

/-- A file changed in place. -/
def StoreFiles.write (c : StoreFiles K) (ino : ℕ) (file : List (Option UInt8)) : StoreFiles K :=
  { c with inodes := update c.inodes ino file }

@[simp] theorem StoreFiles.inodes_write_self (c : StoreFiles K) (ino : ℕ)
    (file : List (Option UInt8)) : (c.write ino file).inodes ino = file :=
  update_self _ _ _

theorem StoreFiles.inodes_write_of_ne (c : StoreFiles K) {ino ino' : ℕ} (h : ino' ≠ ino)
    (file : List (Option UInt8)) : (c.write ino file).inodes ino' = c.inodes ino' :=
  update_of_ne h _ _

variable [DecidableEq K]

/-- A new file at a path. -/
def StoreFiles.put (c : StoreFiles K) (k : K) (file : List (Option UInt8)) : StoreFiles K :=
  { inodes := update c.inodes c.next file
    next := c.next + 1
    path := update c.path k (some c.next) }

@[simp] theorem StoreFiles.inodes_put_next (c : StoreFiles K) (k : K)
    (file : List (Option UInt8)) : (c.put k file).inodes c.next = file :=
  update_self _ _ _

theorem StoreFiles.inodes_put_of_lt {c : StoreFiles K} {ino : ℕ} (h : ino < c.next) (k : K)
    (file : List (Option UInt8)) : (c.put k file).inodes ino = c.inodes ino :=
  update_of_ne (Nat.ne_of_lt h) _ _

@[simp] theorem StoreFiles.path_put_self (c : StoreFiles K) (k : K) (file : List (Option UInt8)) :
    (c.put k file).path k = some c.next := update_self _ _ _

/-- The path goes, its file stays with its handles. -/
def StoreFiles.unlink (c : StoreFiles K) (k : K) : StoreFiles K :=
  { c with path := update c.path k none }

/-- One step of one worker -/
inductive WorkersStep [DecidableEq W] (uvkeep : Int64) :
    WorkersState W K → WorkersAct W K → WorkersState W K → Prop where
  | load {s : WorkersState W K} {id : ℕ} {w : W} {k : K} {ci : Cinfo} {l1 : CinfoL1 K}
      (hfree : s.opens id = none)
      (hload : cstoreCinfoLoad (s.l1 w) k (s.record k) = (.ok ci, l1)) :
      WorkersStep uvkeep s (.load id w k)
        { s with
          l1 := update s.l1 w l1
          opens := update s.opens id (some ⟨k, ci⟩) }
  | loadMiss {s : WorkersState W K} {id : ℕ} {w : W} {k : K} {e : NgxRc} {l1 : CinfoL1 K}
      (hload : cstoreCinfoLoad (s.l1 w) k (s.record k) = (.error e, l1)) :
      WorkersStep uvkeep s (.load id w k) { s with l1 := update s.l1 w l1 }
  | hit {s : WorkersState W K} {id ino : ℕ} {now : Int64} {x : PendingOpen K}
      (hopen : s.opens id = some x) (husable : cacheHitUsable uvkeep now x.ci = true)
      (hobject : s.files.path x.key = some ino) :
      WorkersStep uvkeep s (.serve id now)
        { s with
          opens := update s.opens id none
          hits := ⟨x.ci, s.files.inodes ino⟩ :: s.hits }
  | miss {s : WorkersState W K} {id : ℕ} {now : Int64} {x : PendingOpen K}
      (hopen : s.opens id = some x)
      (hmiss : cacheHitUsable uvkeep now x.ci = false ∨ s.files.path x.key = none) :
      WorkersStep uvkeep s (.serve id now)
        { s with opens := update s.opens id none }
  | publish {s : WorkersState W K} {id : ℕ} (hfree : s.fills id = none) (w : W) (k : K)
      (snap : SourceSnap) {bytes : List UInt8} (hfits : bytes.length < 2 ^ 63) :
      WorkersStep uvkeep s (.publish id w k snap bytes)
        { s with
          files := s.files.put k (bytes.map some)
          fills := update s.fills id (some ⟨w, k, snap, bytes.length⟩) }
  | store {s : WorkersState W K} {id : ℕ} {now : Int64} {fv : FillVerify} {ttl : Int64}
      {manifest : Bool} {save : RecordSave} {x : PublishedFill W K} {rec : Option Xmeta}
      {l1 : CinfoL1 K} (hfill : s.fills id = some x)
      (hstore : cstoreCinfoStore now save (s.l1 x.worker) x.key (s.record x.key)
        (cacheFillCinfo now x.snap x.off fv ttl manifest) = (rec, l1)) :
      WorkersStep uvkeep s (.store id now fv ttl manifest save)
        { s with
          record := update s.record x.key rec
          l1 := update s.l1 x.worker l1
          fills := update s.fills id none }
  | createSlice {s : WorkersState W K} {id : ℕ} {k : K} (hfree : s.handles id = none)
      (hobject : s.files.path k = none) (policy : SlicePolicy) (hint : UInt64) (v : OriginVersion) :
      WorkersStep uvkeep s (.partialOpen id k policy hint v)
        { s with
          files := s.files.put k (cstorePartialOpen none none v.content.length)
          handles := update s.handles id (some ⟨k, s.files.next,
            partialAdoptBitmap (s.record k) (partialObjInit policy hint v), none⟩) }
  | openSlice {s : WorkersState W K} {id ino : ℕ} {k : K} (hfree : s.handles id = none)
      (hobject : s.files.path k = some ino) (policy : SlicePolicy) (hint : UInt64)
      (v : OriginVersion) :
      WorkersStep uvkeep s (.partialOpen id k policy hint v)
        { s with
          files := s.files.write ino
            (cstorePartialOpen none (some (s.files.inodes ino)) v.content.length)
          handles := update s.handles id (some ⟨k, ino,
            partialAdoptBitmap (s.record k) (partialObjInit policy hint v), none⟩) }
  | copy {s : WorkersState W K} {id blk : ℕ} {bytes : List UInt8} {done : Bool}
      {x : SliceOpen K} (hopen : s.handles id = some x) (hidle : x.copied = none)
      (hblk : blk < 2 ^ 64) (hstart : blk * x.obj.blockSize.toNat < x.obj.size.toNat)
      (hlen : bytes.length ≤ x.obj.blockLen blk) :
      WorkersStep uvkeep s (.copy id blk bytes done)
        { s with
          files := s.files.write x.ino (File.pwrite none (s.files.inodes x.ino)
            (blk * x.obj.blockSize.toNat) (bytes.map some))
          handles := update s.handles id
            (some { x with copied := if done then some blk else none }) }
  | record {s : WorkersState W K} {id blk : ℕ} {now : Int64} {save : RecordSave}
      {x : SliceOpen K} (hopen : s.handles id = some x) (hcopied : x.copied = some blk) :
      WorkersStep uvkeep s (.record id now save)
        { s with
          record := update s.record x.key
            (x.obj.record (s.record x.key) blk now save)
          handles := update s.handles id
            (some { x with obj := x.obj.mark blk, copied := none }) }
  | close {s : WorkersState W K} {id : ℕ} {x : SliceOpen K} (hopen : s.handles id = some x) :
      WorkersStep uvkeep s (.close id)
        { s with handles := update s.handles id none }
  | evictL1 (s : WorkersState W K) (w : W) (k : K) :
      WorkersStep uvkeep s (.evictL1 w k)
        { s with l1 := update s.l1 w (cinfoL1Drop (s.l1 w) k) }
  | evictRecord (s : WorkersState W K) (k : K) :
      WorkersStep uvkeep s (.evictRecord k) { s with record := update s.record k none }
  | evictObject (s : WorkersState W K) (k : K) :
      WorkersStep uvkeep s (.evictObject k) { s with files := s.files.unlink k }

end

section

variable {W K : Type}

/-- **A hit is complete**: the object it opened holds every byte of the size its
header records. -/
def WorkersKept (s : WorkersState W K) : Prop :=
  ∀ x ∈ s.hits, WrittenTo x.cells x.ci.size.toNat

/-- The step puts a new object at a key, of which the first `n` bytes are
written: a fill's, or the empty one of a slice open that finds none. -/
def WorkersState.Puts (s : WorkersState W K) : WorkersAct W K → K → ℕ → Prop
  | .publish _ _ k' _ bytes, k, n => k' = k ∧ bytes.length = n
  | .partialOpen _ k' _ _ _, k, n => k' = k ∧ s.files.path k = none ∧ n = 0
  | _, _, _ => False

/-- The start: nothing stored, nothing in progress. -/
structure WorkersState.Init (s : WorkersState W K) : Prop where
  path : ∀ k, s.files.path k = none
  record : ∀ k, s.record k = none
  opens : ∀ id, s.opens id = none
  fills : ∀ id, s.fills id = none
  handles : ∀ id, s.handles id = none
  hits : s.hits = []

/-! ## What an object holds -/

/-- If a key has an object, these positions of it are written. -/
def StoreFiles.Holds (c : StoreFiles K) (k : K) (P : ℕ → Prop) : Prop :=
  ∀ ino, c.path k = some ino → ∀ i, P i → Written (c.inodes ino) i

/-- A key's file has the blocks that the record names. -/
structure StoreFiles.Records (c : StoreFiles K) (k : K) (m : Xmeta) : Prop where
  geometry : BlockRecord m
  blocks : ∀ b, Bitmap.test m.bitmap b = true → c.Holds k (InBlock m.granule m.size b)

/-- A slice handle: it has the object of its key, or that object is whole
already; and its descriptor has the block it copied. -/
structure StoreFiles.Serves (c : StoreFiles K) (x : SliceOpen K) : Prop where
  ino : x.ino < c.next
  object : c.path x.key = some x.ino ∨ c.Holds x.key (· < x.obj.size.toNat)
  copied : ∀ blk, x.copied = some blk → blk < 2 ^ 64 ∧
    ∀ i, InBlock x.obj.blockSize.toNat x.obj.size.toNat blk i → Written (c.inodes x.ino) i

variable {c : StoreFiles K} {k k' : K} {n ino : ℕ} {P Q : ℕ → Prop} {file : List (Option UInt8)}
  {x : SliceOpen K} {m : Xmeta}

theorem StoreFiles.Holds.imp (h : c.Holds k P) (hQ : ∀ i, Q i → P i) : c.Holds k Q :=
  fun ino hino i hi => h ino hino i (hQ i hi)

theorem StoreFiles.Records.whole (h : c.Records k m)
    (hcomplete : (cinfoFromXmeta m).flags.complete = true) :
    c.Holds k (· < (cinfoFromXmeta m).size.toNat) := by
  have hsize : (cinfoFromXmeta m).size.toNat = m.size := h.geometry.toNat_size
  rw [hsize]
  intro ino hino i hi
  obtain ⟨b, hb, hblock⟩ := h.geometry.exists_block hi
  exact h.blocks b ((cinfoFromXmeta_complete_iff m).mp hcomplete b hb) ino hino i hblock

/-! ### Writing a file -/

section

variable (hmono : ∀ i, Written (c.inodes ino) i → Written file i)
include hmono

theorem StoreFiles.written_write {ino' i : ℕ} (h : Written (c.inodes ino') i) :
    Written ((c.write ino file).inodes ino') i := by
  by_cases heq : ino' = ino
  · subst heq
    rw [c.inodes_write_self]
    exact hmono i h
  · rw [c.inodes_write_of_ne heq]
    exact h

theorem StoreFiles.Holds.write (h : c.Holds k P) : (c.write ino file).Holds k P :=
  fun ino' hino' i hi => StoreFiles.written_write hmono (h ino' hino' i hi)

theorem StoreFiles.Records.write (h : c.Records k m) : (c.write ino file).Records k m :=
  ⟨h.geometry, fun b hb => (h.blocks b hb).write hmono⟩

theorem StoreFiles.Serves.write (h : c.Serves x) : (c.write ino file).Serves x := by
  refine ⟨h.ino, h.object.imp_right fun hwhole => hwhole.write hmono, ?_⟩
  intro blk hblk
  obtain ⟨hlt, hwritten⟩ := h.copied blk hblk
  exact ⟨hlt, fun i hi => StoreFiles.written_write hmono (hwritten i hi)⟩

end

variable [DecidableEq K]

/-! ### Losing an object -/

theorem StoreFiles.path_unlink (h : (c.unlink k).path k' = some ino) :
    k' ≠ k ∧ c.path k' = some ino := by
  rcases of_update_eq_some h with ⟨-, hnone⟩ | hold
  · cases hnone
  · exact hold

theorem StoreFiles.Holds.unlink (h : c.Holds k' P) (k : K) : (c.unlink k).Holds k' P :=
  fun ino hino => h ino (StoreFiles.path_unlink hino).2

theorem StoreFiles.Records.unlink (h : c.Records k' m) (k : K) : (c.unlink k).Records k' m :=
  ⟨h.geometry, fun b hb => (h.blocks b hb).unlink k⟩

theorem StoreFiles.Serves.unlink (h : c.Serves x) (k : K) : (c.unlink k).Serves x := by
  refine ⟨h.ino, ?_, h.copied⟩
  by_cases hk : x.key = k
  · -- without an object there is nothing to hold
    refine .inr fun ino hino => ?_
    exact absurd hk (StoreFiles.path_unlink hino).1
  · exact h.object.imp (fun hpath => (update_of_ne hk _ _).trans hpath)
      fun hwhole => hwhole.unlink k

/-! ### Getting a new object -/

theorem StoreFiles.Holds.put (h : c.Holds k' P) (hnext : ∀ ino, c.path k' = some ino →
    ino < c.next) (hfile : WrittenTo file n) (hP : k' = k → ∀ i, P i → i < n) :
    (c.put k file).Holds k' P := by
  intro ino hino i hi
  rcases of_update_eq_some hino with ⟨hk, hnew⟩ | ⟨-, hold⟩
  · cases hnew
    rw [c.inodes_put_next]
    exact hfile i (hP hk i hi)
  · rw [StoreFiles.inodes_put_of_lt (hnext ino hold)]
    exact h ino hold i hi

theorem StoreFiles.holds_put (c : StoreFiles K) (k : K) (hfile : WrittenTo file n) :
    (c.put k file).Holds k (· < n) := by
  intro ino hino i hi
  obtain rfl := Option.some.inj ((c.path_put_self k file).symm.trans hino)
  rw [c.inodes_put_next]
  exact hfile i hi

theorem StoreFiles.Serves.put (h : c.Serves x) (hnext : ∀ ino, c.path x.key = some ino →
    ino < c.next) (hfile : WrittenTo file n) (hsize : x.key = k → x.obj.size.toNat ≤ n) :
    (c.put k file).Serves x := by
  refine ⟨Nat.lt_succ_of_lt h.ino, ?_, ?_⟩
  · by_cases hk : x.key = k
    · -- the handle lost its object, and the new one has all it could record
      refine .inr ?_
      rw [hk]
      exact (c.holds_put k hfile).imp fun i hi => Nat.lt_of_lt_of_le hi (hsize hk)
    · refine h.object.imp (fun hpath => (update_of_ne hk _ _).trans hpath) ?_
      intro hwhole
      exact hwhole.put hnext hfile fun heq => absurd heq hk
  · intro blk hblk
    obtain ⟨hlt, hwritten⟩ := h.copied blk hblk
    refine ⟨hlt, fun i hi => ?_⟩
    rw [StoreFiles.inodes_put_of_lt h.ino]
    exact hwritten i hi

/-! ## What is claimed of a key -/

/-- Everything that speaks for the object of a key speaks for `n` bytes at most:
the blocks its record has present, COMPLETE headers in the header caches and in
read-opens in progress, fills whose header is still to come, and slice handles. -/
structure WorkersState.Claims (s : WorkersState W K) (k : K) (n : ℕ) : Prop where
  record : ∀ m, s.record k = some m → ∀ b, Bitmap.test m.bitmap b = true →
    ∀ i, InBlock m.granule m.size b i → i < n
  l1 : ∀ w ci, (s.l1 w).find k = some ci → ci.flags.complete = true → ci.size.toNat ≤ n
  opens : ∀ id x, s.opens id = some x → x.key = k → x.ci.flags.complete = true →
    x.ci.size.toNat ≤ n
  fills : ∀ id x, s.fills id = some x → x.key = k → x.off ≤ n
  handles : ∀ id x, s.handles id = some x → x.key = k → x.obj.size.toNat ≤ n

/-- The steps that go right: a new object is put at a key only when nothing
claims more of the key than it holds, and a block is copied whole. -/
structure WorkersGood (s : WorkersState W K) (a : WorkersAct W K) : Prop where
  puts : ∀ k n, s.Puts a k n → s.Claims k n
  copies : ∀ id blk bytes x, a = .copy id blk bytes true → s.handles id = some x →
    bytes.length = x.obj.blockLen blk

/-! ## The invariant -/

/-- What good steps keep: whatever is claimed of a key, its object holds. -/
structure WorkersInv (s : WorkersState W K) : Prop where
  next : ∀ k ino, s.files.path k = some ino → ino < s.files.next
  record : ∀ k m, s.record k = some m → s.files.Records k m
  l1 : ∀ w k ci, (s.l1 w).find k = some ci → ci.flags.complete = true →
    s.files.Holds k (· < ci.size.toNat)
  opens : ∀ id x, s.opens id = some x → x.ci.flags.complete = true →
    s.files.Holds x.key (· < x.ci.size.toNat)
  fills : ∀ id x, s.fills id = some x → x.off < 2 ^ 63 ∧ s.files.Holds x.key (· < x.off)
  handles : ∀ id x, s.handles id = some x → s.files.Serves x
  hits : WorkersKept s

variable {s s' : WorkersState W K}

theorem WorkersState.Init.inv (h : s.Init) : WorkersInv s := by
  have hnone : ∀ k P, s.files.Holds k P := by
    intro k P ino hino
    rw [h.path k] at hino
    cases hino
  refine ⟨?_, ?_, fun w k ci _ _ => hnone _ _, fun id x _ _ => hnone _ _, ?_, ?_, ?_⟩
  · intro k ino hino
    rw [h.path k] at hino
    cases hino
  · intro k m hm
    rw [h.record k] at hm
    cases hm
  · intro id x hx
    rw [h.fills id] at hx
    cases hx
  · intro id x hx
    rw [h.handles id] at hx
    cases hx
  · intro x hx
    rw [h.hits] at hx
    cases hx

theorem WorkersState.Init.claims (h : s.Init) (hl1 : ∀ w k, (s.l1 w).find k = none) (k : K)
    (n : ℕ) : s.Claims k n := by
  refine ⟨?_, ?_, ?_, ?_, ?_⟩
  · intro m hm
    rw [h.record k] at hm
    cases hm
  · intro w ci hci
    rw [hl1 w k] at hci
    cases hci
  · intro id x hx
    rw [h.opens id] at hx
    cases hx
  · intro id x hx
    rw [h.fills id] at hx
    cases hx
  · intro id x hx
    rw [h.handles id] at hx
    cases hx

/-! ### The parts of a step -/

section

variable (h : WorkersInv s)
include h

theorem WorkersInv.withL1 [DecidableEq W] (w : W) {l1 : CinfoL1 K}
    (hl1 : ∀ k ci, l1.find k = some ci → ci.flags.complete = true →
      s.files.Holds k (· < ci.size.toNat)) :
    WorkersInv { s with l1 := update s.l1 w l1 } := by
  refine ⟨h.next, h.record, ?_, h.opens, h.fills, h.handles, h.hits⟩
  intro w' k ci hci
  by_cases hw : w' = w
  · subst hw
    simp only [update_self] at hci
    exact hl1 k ci hci
  · simp only [update_of_ne hw] at hci
    exact h.l1 w' k ci hci

theorem WorkersInv.withRecord (k : K) {rec : Option Xmeta}
    (hrec : ∀ m, rec = some m → s.files.Records k m) :
    WorkersInv { s with record := update s.record k rec } := by
  refine ⟨h.next, ?_, h.l1, h.opens, h.fills, h.handles, h.hits⟩
  intro k' m hm
  rcases of_update_eq_some hm with ⟨rfl, hnew⟩ | ⟨-, hold⟩
  · exact hrec m hnew
  · exact h.record k' m hold

theorem WorkersInv.setOpen (id : ℕ) {x : Option (PendingOpen K)}
    (hx : ∀ y, x = some y → y.ci.flags.complete = true →
      s.files.Holds y.key (· < y.ci.size.toNat)) :
    WorkersInv { s with opens := update s.opens id x } := by
  refine ⟨h.next, h.record, h.l1, ?_, h.fills, h.handles, h.hits⟩
  intro id' y hy
  rcases of_update_eq_some hy with ⟨-, hnew⟩ | ⟨-, hold⟩
  · exact hx y hnew
  · exact h.opens id' y hold

theorem WorkersInv.setFill (id : ℕ) {x : Option (PublishedFill W K)}
    (hx : ∀ y, x = some y → y.off < 2 ^ 63 ∧ s.files.Holds y.key (· < y.off)) :
    WorkersInv { s with fills := update s.fills id x } := by
  refine ⟨h.next, h.record, h.l1, h.opens, ?_, h.handles, h.hits⟩
  intro id' y hy
  rcases of_update_eq_some hy with ⟨-, hnew⟩ | ⟨-, hold⟩
  · exact hx y hnew
  · exact h.fills id' y hold

theorem WorkersInv.setHandle (id : ℕ) {x : Option (SliceOpen K)}
    (hx : ∀ y, x = some y → s.files.Serves y) :
    WorkersInv { s with handles := update s.handles id x } := by
  refine ⟨h.next, h.record, h.l1, h.opens, h.fills, ?_, h.hits⟩
  intro id' y hy
  rcases of_update_eq_some hy with ⟨-, hnew⟩ | ⟨-, hold⟩
  · exact hx y hnew
  · exact h.handles id' y hold

theorem WorkersInv.write
    (hmono : ∀ i, Written (s.files.inodes ino) i → Written file i) :
    WorkersInv { s with files := s.files.write ino file } :=
  ⟨h.next, fun k m hm => (h.record k m hm).write hmono,
    fun w k ci hci hcomplete => (h.l1 w k ci hci hcomplete).write hmono,
    fun id x hx hcomplete => (h.opens id x hx hcomplete).write hmono,
    fun id x hx => (h.fills id x hx).imp_right fun hh => hh.write hmono,
    fun id x hx => (h.handles id x hx).write hmono, h.hits⟩

theorem WorkersInv.unlink (k : K) :
    WorkersInv { s with files := s.files.unlink k } :=
  ⟨fun k' ino hino => h.next k' ino (StoreFiles.path_unlink hino).2,
    fun k' m hm => (h.record k' m hm).unlink k,
    fun w k' ci hci hcomplete => (h.l1 w k' ci hci hcomplete).unlink k,
    fun id x hx hcomplete => (h.opens id x hx hcomplete).unlink k,
    fun id x hx => (h.fills id x hx).imp_right fun hh => hh.unlink k,
    fun id x hx => (h.handles id x hx).unlink k, h.hits⟩

theorem WorkersInv.put (hfile : WrittenTo file n) (hclaims : s.Claims k n) :
    WorkersInv { s with files := s.files.put k file } := by
  refine ⟨?_, ?_, ?_, ?_, ?_, ?_, h.hits⟩
  · intro k' ino hino
    rcases of_update_eq_some hino with ⟨-, hnew⟩ | ⟨-, hold⟩
    · cases hnew
      exact Nat.lt_succ_self _
    · exact Nat.lt_succ_of_lt (h.next k' ino hold)
  · intro k' m hm
    refine ⟨(h.record k' m hm).geometry, fun b hb => ?_⟩
    refine ((h.record k' m hm).blocks b hb).put (h.next k') hfile ?_
    rintro rfl
    exact hclaims.record m hm b hb
  · intro w k' ci hci hcomplete
    refine (h.l1 w k' ci hci hcomplete).put (h.next k') hfile ?_
    rintro rfl i hi
    exact Nat.lt_of_lt_of_le hi (hclaims.l1 w ci hci hcomplete)
  · intro id x hx hcomplete
    refine (h.opens id x hx hcomplete).put (h.next x.key) hfile ?_
    intro hk i hi
    exact Nat.lt_of_lt_of_le hi (hclaims.opens id x hx hk hcomplete)
  · intro id x hx
    refine (h.fills id x hx).imp_right fun hh => hh.put (h.next x.key) hfile ?_
    intro hk i hi
    exact Nat.lt_of_lt_of_le hi (hclaims.fills id x hx hk)
  · intro id x hx
    exact (h.handles id x hx).put (h.next x.key) hfile (hclaims.handles id x hx)

/-! ### The store's calls -/

theorem WorkersInv.load_holds {w : W} {ci : Cinfo}
    (hload : (cstoreCinfoLoad (s.l1 w) k (s.record k)).1 = .ok ci)
    (hcomplete : ci.flags.complete = true) : s.files.Holds k (· < ci.size.toNat) := by
  rcases cstoreCinfoLoad_eq_ok hload with hl1 | ⟨-, m, hm, rfl⟩
  · exact h.l1 w k ci hl1 hcomplete
  · exact (h.record k m hm).whole hcomplete

theorem WorkersInv.load [DecidableEq W] (w : W) (k : K) :
    WorkersInv { s with
      l1 := update s.l1 w (cstoreCinfoLoad (s.l1 w) k (s.record k)).2 } := by
  refine h.withL1 w fun k' ci hci hcomplete => ?_
  rcases of_find_cstoreCinfoLoad hci with hold | ⟨rfl, m, hm, rfl⟩
  · exact h.l1 w k' ci hold hcomplete
  · exact (h.record k' m hm).whole hcomplete

/-- A header is stored behind a publish. -/
theorem WorkersInv.store [DecidableEq W] {id : ℕ} {now : Int64}
    {fv : FillVerify} {ttl : Int64} {manifest : Bool} {save : RecordSave}
    {x : PublishedFill W K} {rec : Option Xmeta} {l1 : CinfoL1 K} (hfill : s.fills id = some x)
    (hstore : cstoreCinfoStore now save (s.l1 x.worker) x.key (s.record x.key)
      (cacheFillCinfo now x.snap x.off fv ttl manifest) = (rec, l1)) :
    WorkersInv { s with
      record := update s.record x.key rec
      l1 := update s.l1 x.worker l1
      fills := update s.fills id none } := by
  obtain ⟨hfits, hholds⟩ := h.fills id x hfill
  obtain ⟨hsize, -, -⟩ := cacheFillCinfo_geometry now x.snap x.off fv ttl manifest
  have hoff : (cacheFillCinfo now x.snap x.off fv ttl manifest).size.toNat = x.off := by
    rw [hsize]
    exact UInt64.toNat_ofNat_of_lt' (Nat.lt_trans hfits (by decide))
  have hboth : (∀ m, rec = some m → s.files.Records x.key m) ∧
      ∀ k ci, l1.find k = some ci → ci.flags.complete = true →
        s.files.Holds k (· < ci.size.toNat) := by
    rcases cstoreCinfoStore_cases now save (s.l1 x.worker) x.key (s.record x.key)
      (cacheFillCinfo now x.snap x.off fv ttl manifest) with ⟨m, hmap, heq⟩ | heq | heq
    · obtain ⟨rfl, rfl⟩ := Prod.mk.inj (hstore.symm.trans heq)
      obtain ⟨hblock, hmsize⟩ := cinfoToXmeta_blockRecord hmap
      refine ⟨?_, ?_⟩
      · rintro m' ⟨⟩
        refine ⟨hblock.persisted, fun b _ => hholds.imp ?_⟩
        -- whatever bitmap it got, the whole file is there
        rintro i ⟨-, -, hi⟩
        exact Nat.lt_of_lt_of_eq hi (hmsize.trans hoff)
      · intro k ci hci hcomplete
        rcases of_find_cinfoL1Put hci with ⟨rfl, rfl⟩ | ⟨-, hold⟩
        · rw [hoff]
          exact hholds
        · exact h.l1 x.worker k ci hold hcomplete
    · obtain ⟨rfl, rfl⟩ := Prod.mk.inj (hstore.symm.trans heq)
      exact ⟨h.record x.key, h.l1 x.worker⟩
    · obtain ⟨rfl, rfl⟩ := Prod.mk.inj (hstore.symm.trans heq)
      exact ⟨(fun m hm => by cases hm), h.l1 x.worker⟩
  have hcached := (h.withRecord x.key hboth.1).withL1 x.worker hboth.2
  exact hcached.setFill id fun y hy => by cases hy

theorem WorkersInv.record_block (hx : s.files.Serves x) {blk : ℕ}
    (hcopied : x.copied = some blk) {now : Int64} {save : RecordSave} :
    ∀ m, x.obj.record (s.record x.key) blk now save = some m → s.files.Records x.key m := by
  intro m hm
  obtain ⟨hblk, hwritten⟩ := hx.copied blk hcopied
  rcases PartialObj.record_eq_some (fun y hy => (h.record x.key y hy).geometry) hblk hm with
    hold | ⟨hslice, hmatch, hblocks⟩
  · exact h.record x.key m hold
  · have hsize : m.size = x.obj.size.toNat := hslice.toBlockRecord.size_of_matches hmatch
    have hgran : m.granule = x.obj.blockSize.toNat := granule_of_matches hmatch
    refine ⟨hslice.toBlockRecord, fun b hb => ?_⟩
    rw [hgran, hsize]
    rcases hblocks b hb with rfl | ⟨y, hy, hymatch, hyb⟩
    · rcases hx.object with hpath | hwhole
      · intro ino hino i hi
        obtain rfl := Option.some.inj (hpath.symm.trans hino)
        exact hwritten i hi
      · exact hwhole.imp fun i hi => hi.2.2
    · have hyrec := h.record x.key y hy
      have hold := hyrec.blocks b hyb
      rw [granule_of_matches hymatch, hyrec.geometry.size_of_matches hymatch] at hold
      exact hold

end

theorem written_copy {obj : PartialObj} {blk i : ℕ} {bytes : List UInt8}
    (hlen : bytes.length = obj.blockLen blk)
    (hi : InBlock obj.blockSize.toNat obj.size.toNat blk i) :
    Written (File.pwrite none file (blk * obj.blockSize.toNat) (bytes.map some)) i := by
  obtain ⟨h₁, h₂, h₃⟩ := hi
  refine written_pwrite file h₁ ?_
  rw [hlen, PartialObj.blockLen]
  split <;> omega

theorem written_cstorePartialOpen {size i : ℕ} (h : Written file i) :
    Written (cstorePartialOpen none (some file) size) i := by
  rw [cstorePartialOpen]
  dsimp only [Option.getD_some]
  split
  · rename_i hlt
    exact h.ftruncate (Nat.le_of_lt hlt)
  · exact h

variable [DecidableEq W] {uvkeep : Int64} {a : WorkersAct W K}

/-- **One step** that meets the condition keeps the invariant. -/
theorem WorkersInv.step (h : WorkersInv s) (hstep : WorkersStep uvkeep s a s')
    (hgood : WorkersGood s a) : WorkersInv s' := by
  cases hstep with
  | @load id w k ci l1 hfree hload =>
    have hl1 : l1 = (cstoreCinfoLoad (s.l1 w) k (s.record k)).2 := (congrArg Prod.snd hload).symm
    rw [hl1]
    refine (h.load w k).setOpen id ?_
    rintro y ⟨⟩ hcomplete
    exact h.load_holds (congrArg Prod.fst hload) hcomplete
  | @loadMiss id w k e l1 hload =>
    have hl1 : l1 = (cstoreCinfoLoad (s.l1 w) k (s.record k)).2 := (congrArg Prod.snd hload).symm
    rw [hl1]
    exact h.load w k
  | @hit id ino now x hopen husable hobject =>
    have hclosed := h.setOpen id (fun y (hy : none = some y) => by cases hy)
    refine ⟨hclosed.next, hclosed.record, hclosed.l1, hclosed.opens, hclosed.fills,
      hclosed.handles, ?_⟩
    intro y hy
    rcases List.mem_cons.mp hy with rfl | hold
    · exact h.opens id x hopen (cacheHitUsable_complete husable) ino hobject
    · exact h.hits y hold
  | @miss id now x hopen hmiss => exact h.setOpen id fun y hy => by cases hy
  | @publish id hfree w k snap bytes hfits =>
    have hfile : WrittenTo (bytes.map some) bytes.length :=
      fun i hi => written_map_some_iff.mpr hi
    refine (h.put hfile (hgood.puts k _ ⟨rfl, rfl⟩)).setFill id ?_
    rintro y ⟨⟩
    exact ⟨hfits, s.files.holds_put k hfile⟩
  | store hfill hstore => exact h.store hfill hstore
  | @createSlice id k hfree hobject policy hint v =>
    have hfile : WrittenTo (cstorePartialOpen (none : Option UInt8) none v.content.length) 0 :=
      fun i hi => absurd hi (Nat.not_lt_zero i)
    refine (h.put hfile (hgood.puts k 0 ⟨rfl, hobject, rfl⟩)).setHandle id ?_
    rintro y ⟨⟩
    refine ⟨Nat.lt_succ_self _, .inl (s.files.path_put_self k _), ?_⟩
    rintro blk ⟨⟩
  | @openSlice id ino k hfree hobject policy hint v =>
    refine (h.write fun i hi => written_cstorePartialOpen hi).setHandle id ?_
    rintro y ⟨⟩
    refine ⟨h.next k ino hobject, .inl hobject, ?_⟩
    rintro blk ⟨⟩
  | @copy id blk bytes done x hopen hidle hblk hstart hlen =>
    have hmono : ∀ i, Written (s.files.inodes x.ino) i →
        Written (File.pwrite none (s.files.inodes x.ino) (blk * x.obj.blockSize.toNat)
          (bytes.map some)) i := fun i hi => hi.pwrite _ bytes
    have hserves := (h.handles id x hopen).write hmono
    refine (h.write hmono).setHandle id ?_
    rintro y ⟨⟩
    refine ⟨hserves.ino, hserves.object, ?_⟩
    intro blk' hblk'
    cases done with
    | false => cases hblk'
    | true =>
      cases hblk'
      refine ⟨hblk, fun i hi => ?_⟩
      rw [StoreFiles.inodes_write_self]
      exact written_copy (hgood.copies id blk bytes x rfl hopen) hi
  | @record id blk now save x hopen hcopied =>
    have hserves := h.handles id x hopen
    refine (h.withRecord x.key (h.record_block hserves hcopied)).setHandle id ?_
    rintro y ⟨⟩
    refine ⟨hserves.ino, ?_, fun blk' hblk' => by cases hblk'⟩
    rw [x.obj.mark_size]
    exact hserves.object
  | close hopen => exact h.setHandle _ fun y hy => by cases hy
  | evictL1 w k =>
    exact h.withL1 w fun k' ci hci hcomplete =>
      h.l1 w k' ci (of_find_cinfoL1Drop hci).2 hcomplete
  | evictRecord k => exact h.withRecord k fun m hm => by cases hm
  | evictObject k => exact h.unlink k

/-! ### What goes wrong -/

theorem WorkersStep.puts (hstep : WorkersStep uvkeep s a s') (hputs : s.Puts a k n) :
    ∃ file, s'.files = s.files.put k file ∧ ¬ Written file n ∧ s'.l1 = s.l1 ∧
      s'.record = s.record := by
  cases hstep with
  | publish hfree w k' snap hfits =>
    obtain ⟨rfl, rfl⟩ := hputs
    refine ⟨_, rfl, fun hw => ?_, rfl, rfl⟩
    exact absurd (written_map_some_iff.mp hw) (Nat.lt_irrefl _)
  | createSlice hfree hobject policy hint v =>
    obtain ⟨rfl, -, rfl⟩ := hputs
    refine ⟨_, rfl, fun hw => ?_, rfl, rfl⟩
    rw [cstorePartialOpen] at hw
    split at hw
    · exact not_written_holes _ _ hw
    · exact absurd hw.lt_length (Nat.not_lt_zero 0)
  | openSlice hfree hobject policy hint v =>
    obtain ⟨rfl, hnone, -⟩ := hputs
    rw [hobject] at hnone
    cases hnone
  | _ => exact hputs.elim

/-- **A new object under a longer COMPLETE header**: the next read-open of a
worker that loads the header is a hit on it. -/
theorem put_under_header (hstep : WorkersStep uvkeep s a s') (hputs : s.Puts a k n) {w : W}
    {ci : Cinfo} {now : Int64} {id : ℕ}
    (hload : (cstoreCinfoLoad (s.l1 w) k (s.record k)).1 = .ok ci)
    (husable : cacheHitUsable uvkeep now ci = true) (hlonger : n < ci.size.toNat)
    (hfree : s'.opens id = none) :
    ∃ s'', Run (WorkersStep uvkeep) s' [.load id w k, .serve id now] s'' ∧
      ¬ WorkersKept s'' := by
  obtain ⟨file, hfiles, hshort, hl1, hrec⟩ := hstep.puts hputs
  rw [← hl1, ← hrec] at hload
  have hpath : s'.files.path k = some s.files.next := by
    rw [hfiles]
    exact s.files.path_put_self k file
  refine ⟨_, .cons (.load hfree (Prod.ext hload rfl))
    (.cons (.hit (update_self _ _ _) husable hpath) (.nil _)), fun hkept => ?_⟩
  have hwritten := hkept _ List.mem_cons_self n hlonger
  simp only [hfiles, StoreFiles.inodes_put_next] at hwritten
  exact hshort hwritten

/-! ## Runs -/

/-- The system restricted to good steps. -/
def WorkersGoodStep (uvkeep : Int64) (s : WorkersState W K) (a : WorkersAct W K)
    (s' : WorkersState W K) : Prop := WorkersStep uvkeep s a s' ∧ WorkersGood s a

theorem workersInv_run {s₀ : WorkersState W K} {as : List (WorkersAct W K)} (hinit : s₀.Init)
    (hrun : Run (WorkersGoodStep uvkeep) s₀ as s) : WorkersInv s :=
  hrun.invariant (fun _ _ _ h hstep => h.step hstep.1 hstep.2) hinit.inv

/-- **When hits are complete.** In every run of good steps the object of every hit
has every byte of the size its header records. A new object put at a key for
which a worker still loads a usable header of a larger size is that worker's next
hit. -/
theorem workersKept_of_good {s₀ : WorkersState W K} {as : List (WorkersAct W K)}
    (hinit : s₀.Init) (hrun : Run (WorkersGoodStep uvkeep) s₀ as s) :
    WorkersKept s ∧
      ∀ a s' k n w ci now id, WorkersStep uvkeep s a s' → s.Puts a k n →
        (cstoreCinfoLoad (s.l1 w) k (s.record k)).1 = .ok ci →
        cacheHitUsable uvkeep now ci = true → n < ci.size.toNat → s'.opens id = none →
        ∃ s'', Run (WorkersStep uvkeep) s' [.load id w k, .serve id now] s'' ∧
          ¬ WorkersKept s'' :=
  ⟨(workersInv_run hinit hrun).hits,
    fun _ _ _ _ _ _ _ _ hstep hputs hload husable hlonger hfree =>
      put_under_header hstep hputs hload husable hlonger hfree⟩

end

/-- Two workers, nothing stored. -/
def sampleWorkersState : WorkersState Bool ℕ :=
  ⟨⟨fun _ => [], 0, fun _ => none⟩, fun _ => none, fun _ => cinfoL1Create ℕ 0, fun _ => none,
    fun _ => none, fun _ => none, []⟩

theorem sampleWorkersState_init : sampleWorkersState.Init :=
  ⟨fun _ => rfl, fun _ => rfl, fun _ => rfl, fun _ => rfl, fun _ => rfl, rfl⟩

/-- A source of two bytes. -/
def sampleWorkersVersion : OriginVersion := ⟨[1, 2], 7, 0o644, by decide⟩

theorem workersKept_of_good_sample :
    ∃ s, Run (WorkersGoodStep 0) sampleWorkersState
        [.partialOpen 0 0 ⟨1048576, 0, 0⟩ 0 sampleWorkersVersion, .copy 0 0 [1, 2] true,
          .record 0 5 .saved, .load 0 false 0, .serve 0 6] s ∧
      WorkersKept s ∧
      ∀ a s' k n w ci now id, WorkersStep 0 s a s' → s.Puts a k n →
        (cstoreCinfoLoad (s.l1 w) k (s.record k)).1 = .ok ci →
        cacheHitUsable 0 now ci = true → n < ci.size.toNat → s'.opens id = none →
        ∃ s'', Run (WorkersStep 0) s' [.load id w k, .serve id now] s'' ∧
          ¬ WorkersKept s'' := by
  have hrun : ∃ s, Run (WorkersGoodStep 0) sampleWorkersState
      [.partialOpen 0 0 ⟨1048576, 0, 0⟩ 0 sampleWorkersVersion, .copy 0 0 [1, 2] true,
        .record 0 5 .saved, .load 0 false 0, .serve 0 6] s := by
    refine ⟨_, .cons ⟨.createSlice rfl rfl _ _ _, ?_, ?_⟩
      (.cons ⟨.copy rfl rfl (by decide) (by decide) (by decide), ?_, ?_⟩
        (.cons ⟨.record rfl rfl, ?_, ?_⟩ (.cons ⟨.load rfl rfl, ?_, ?_⟩
          (.cons ⟨.hit rfl rfl rfl, ?_, ?_⟩ (.nil _)))))⟩
    · exact fun k n _ => sampleWorkersState_init.claims (fun _ _ => rfl) k n
    · rintro id blk bytes x ⟨⟩
    · exact fun k n hputs => hputs.elim
    · rintro id blk bytes x ⟨⟩ ⟨⟩
      rfl
    · exact fun k n hputs => hputs.elim
    · rintro id blk bytes x ⟨⟩
    · exact fun k n hputs => hputs.elim
    · rintro id blk bytes x ⟨⟩
    · exact fun k n hputs => hputs.elim
    · rintro id blk bytes x ⟨⟩
  obtain ⟨s, hs⟩ := hrun
  exact ⟨s, hs, workersKept_of_good sampleWorkersState_init hs⟩

/-- One worker fills an object; the other evicts it and opens it in slices, so
that it is there again and all holes. The first one's header cache still has it
COMPLETE. -/
theorem hit_on_sparse_object :
    ∃ s, Run (WorkersStep 0) sampleWorkersState
        [.publish 0 false 0 ⟨2, 7, 0o644⟩ [1, 2], .store 0 5 ⟨false, [], []⟩ 0 false .saved,
          .evictL1 true 0, .evictRecord 0, .evictObject 0,
          .partialOpen 0 0 ⟨1048576, 0, 0⟩ 0 sampleWorkersVersion, .load 0 false 0,
          .serve 0 6] s ∧
      (∃ x xs, s.hits = x :: xs ∧ x.ci.size = 2 ∧ x.cells = [none, none]) ∧
      ¬ WorkersKept s := by
  refine ⟨_, .cons (.publish rfl false 0 _ (by decide)) (.cons (.store rfl rfl)
    (.cons (.evictL1 _ true 0) (.cons (.evictRecord _ 0) (.cons (.evictObject _ 0)
      (.cons (.createSlice rfl rfl _ _ _) (.cons (.load rfl rfl)
        (.cons (.hit rfl rfl rfl) (.nil _)))))))), ⟨_, _, rfl, rfl, rfl⟩, fun hkept => ?_⟩
  obtain ⟨x, hx⟩ := hkept _ List.mem_cons_self 0 (by decide)
  cases hx

end BrixCache

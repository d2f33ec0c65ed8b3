import BrixCache.Lib.Run
import BrixCache.Pblock.Catalog
import Mathlib.Algebra.Group.Nat.Defs

/-!
# The name cache

The table of `sd_pblock_catalog.c` that answers lookups without the database, over
threads that share one connection. A lookup that misses takes the generation, reads
the row and stores it, in three steps; a change of a row is a statement first and a
change of the table after it; and one thread's statements fall into the transaction
that another has open.

The table is the worker's own, in its heap.
-/

namespace BrixCache

open Segments

/-! ## The table -/

def pblockNscachePathmax : ℕ := 256

/-- An entry that is valid. -/
structure PblockNscacheEnt : Type where
  path : PblockPath
  info : CatMeta
  deriving DecidableEq

/-- `cache` and `cache_gen`, the count of the bumps before it is cut to 64 bits -/
structure Nscache : Type where
  ents : UInt32 → Option PblockNscacheEnt
  gen : ℕ

/-- FNV-1a over the path, cut to 8192 slots. -/
def nscacheHash (path : PblockPath) : UInt32 :=
  path.foldl (fun h c => (h ^^^ c.toUInt32) * 0x01000193) 0x811c9dc5 &&& 8191

/-- A path that an entry can hold -/
def NscacheOk (path : PblockPath) : Prop := path.length < pblockNscachePathmax

instance (path : PblockPath) : Decidable (NscacheOk path) := inferInstanceAs (Decidable (_ < _))

namespace Nscache

/-- `nscache_get` -/
def get (c : Nscache) (path : PblockPath) : Option CatMeta :=
  if NscacheOk path then
    match c.ents (nscacheHash path) with
    | some e => if e.path = path then some e.info else none
    | none => none
  else none

/-- `nscache_store` -/
def store (c : Nscache) (path : PblockPath) (m : CatMeta) (gen : ℕ) : Nscache :=
  if NscacheOk path ∧ c.gen % 2 ^ 64 = gen % 2 ^ 64 then
    { c with ents := Function.update c.ents (nscacheHash path) (some ⟨path, m⟩) }
  else c

/-- `nscache_put` -/
def put (c : Nscache) (path : PblockPath) (m : CatMeta) : Nscache :=
  if NscacheOk path then
    { ents := Function.update c.ents (nscacheHash path) (some ⟨path, m⟩), gen := c.gen + 1 }
  else { c with gen := c.gen + 1 }

/-- `nscache_inval` -/
def inval (c : Nscache) (path : PblockPath) : Nscache :=
  if NscacheOk path then
    match c.ents (nscacheHash path) with
    | some e =>
      if e.path = path then
        { ents := Function.update c.ents (nscacheHash path) none, gen := c.gen + 1 }
      else { c with gen := c.gen + 1 }
    | none => { c with gen := c.gen + 1 }
  else c

/-- `nscache_clear` -/
def clear (c : Nscache) : Nscache := { ents := fun _ => none, gen := c.gen + 1 }

/-- A bucket holds the path with these attributes. -/
def Has (c : Nscache) (path : PblockPath) (m : CatMeta) : Prop :=
  ∃ b, c.ents b = some ⟨path, m⟩

/-- Entries stand in their buckets. -/
def Placed (c : Nscache) : Prop :=
  ∀ b e, c.ents b = some e → b = nscacheHash e.path ∧ NscacheOk e.path

variable {c : Nscache} {path p : PblockPath} {m m' : CatMeta} {gen : ℕ}

theorem has_of_get (h : c.get path = some m) : c.Has path m := by
  rw [get] at h
  split at h
  · split at h
    · next e he =>
      split at h
      · next hpath =>
        cases h
        exact ⟨nscacheHash path, by rw [he, ← hpath]⟩
      · cases h
    · cases h
  · cases h

theorem get_put (h : NscacheOk path) : (c.put path m).get path = some m := by
  simp [get, put, h]

theorem placed_update (h : c.Placed) (hok : NscacheOk path) (g : ℕ) :
    Placed ⟨Function.update c.ents (nscacheHash path) (some ⟨path, m⟩), g⟩ := by
  intro b e he
  obtain ⟨rfl, heq⟩ | ⟨-, he⟩ := of_update_eq_some he
  · cases heq
    exact ⟨rfl, hok⟩
  · exact h b e he

theorem has_update {g : ℕ}
    (h : Has ⟨Function.update c.ents (nscacheHash path) (some ⟨path, m⟩), g⟩ p m')
    (hc : c.Placed) : (p = path ∧ m' = m) ∨ (p ≠ path ∧ c.Has p m') := by
  obtain ⟨b, hb⟩ := h
  obtain ⟨-, heq⟩ | ⟨hne, hold⟩ := of_update_eq_some hb
  · obtain ⟨rfl, rfl⟩ := PblockNscacheEnt.mk.inj (Option.some.inj heq)
    exact .inl ⟨rfl, rfl⟩
  · refine .inr ⟨?_, b, hold⟩
    rintro rfl
    exact hne (hc b _ hold).1

theorem store_placed (h : c.Placed) : (c.store path m gen).Placed := by
  rw [store]
  split
  · next hok => exact placed_update h hok.1 c.gen
  · exact h

@[simp] theorem gen_store : (c.store path m gen).gen = c.gen := by
  rw [store]
  split <;> rfl

theorem has_store (h : (c.store path m gen).Has p m') (hc : c.Placed) :
    (p = path ∧ m' = m ∧ NscacheOk path ∧ c.gen % 2 ^ 64 = gen % 2 ^ 64) ∨ c.Has p m' := by
  rw [store] at h
  split at h
  · next hok =>
    obtain ⟨hp, hm⟩ | ⟨-, h⟩ := has_update h hc
    · exact .inl ⟨hp, hm, hok.1, hok.2⟩
    · exact .inr h
  · exact .inr h

@[simp] theorem gen_put : (c.put path m).gen = c.gen + 1 := by
  rw [put]
  split <;> rfl

theorem put_placed (h : c.Placed) : (c.put path m).Placed := by
  rw [put]
  split
  · next hok => exact placed_update h hok _
  · exact h

theorem has_put (h : (c.put path m).Has p m') (hc : c.Placed) :
    (p = path ∧ m' = m) ∨ (p ≠ path ∧ c.Has p m') := by
  rw [put] at h
  split at h
  · exact has_update h hc
  · next hlong =>
    obtain ⟨b, hb⟩ := h
    refine .inr ⟨?_, b, hb⟩
    rintro rfl
    exact hlong (hc b _ hb).2

theorem inval_placed (h : c.Placed) : (c.inval path).Placed := by
  rw [inval]
  split
  · split
    · split
      · intro b e he
        obtain ⟨-, hnone⟩ | ⟨-, he⟩ := of_update_eq_some he
        · cases hnone
        · exact h b e he
      · exact h
    · exact h
  · exact h

theorem gen_inval : (c.inval path).gen = if NscacheOk path then c.gen + 1 else c.gen := by
  rw [inval]
  split
  · split
    · split <;> rfl
    · rfl
  · rfl

/-- What an invalidation leaves -/
theorem has_inval (h : (c.inval path).Has p m') (hc : c.Placed) : p ≠ path ∧ c.Has p m' := by
  rw [inval] at h
  split at h
  · split at h
    · next e he =>
      split at h
      · obtain ⟨b, hb⟩ := h
        obtain ⟨-, hnone⟩ | ⟨hne, hold⟩ := of_update_eq_some hb
        · cases hnone
        · refine ⟨?_, b, hold⟩
          rintro rfl
          exact hne (hc b _ hold).1
      · next hpath =>
        obtain ⟨b, hb⟩ := h
        refine ⟨?_, b, hb⟩
        rintro rfl
        obtain rfl := (hc b _ hb).1
        have hb : c.ents (nscacheHash p) = some ⟨p, m'⟩ := hb
        rw [he] at hb
        exact hpath (by rw [Option.some.inj hb])
    · next hnone =>
      obtain ⟨b, hb⟩ := h
      refine ⟨?_, b, hb⟩
      rintro rfl
      obtain rfl := (hc b _ hb).1
      have hb : c.ents (nscacheHash p) = some ⟨p, m'⟩ := hb
      rw [hnone] at hb
      cases hb
  · next hlong =>
    obtain ⟨b, hb⟩ := h
    refine ⟨?_, b, hb⟩
    rintro rfl
    exact hlong (hc b _ hb).2

end Nscache

/-! ## The rows -/

/-- `SELECT … FROM objects WHERE path = ?1` -/
def objectsRow (objects : List CatRow) (path : PblockPath) : Option CatMeta :=
  (Keyed.find CatRow.path path objects).map (·.info)

/-- The UPDATEs of `pblock_catalog_touch` and `pblock_catalog_setattr`. -/
inductive RowUpdate : Type where
  | touch (size mtime : ℤ) : RowUpdate
  /-- none where a part is not set -/
  | setattr (now : ℤ) (perm : Option UInt32) (owner : Option (ℤ × ℤ)) (mtime : Option ℤ) :
      RowUpdate
  deriving DecidableEq

/-- The rest of the `WHERE`. -/
def RowUpdate.hits : RowUpdate → CatMeta → Bool
  | touch _ _, m => !m.isDir
  | setattr _ _ _ _, _ => true

/-- An owner's half; a negative one keeps what there is. -/
def RowUpdate.chown (x : ℤ) (id : UInt32) : UInt32 :=
  if 0 ≤ x then UInt32.ofNat x.toNat else id

/-- The `SET`. -/
def RowUpdate.set : RowUpdate → CatMeta → CatMeta
  | touch size mtime, m => { m with size, mtime }
  | setattr now perm owner mtime, m =>
    { m with
      ctime := now
      mode := match perm with
        | some perm => (m.mode &&& 61440) ||| (perm &&& 511)
        | none => m.mode
      mtime := mtime.getD m.mtime
      uid := match owner with
        | some (uid, _) => RowUpdate.chown uid m.uid
        | none => m.uid
      gid := match owner with
        | some (_, gid) => RowUpdate.chown gid m.gid
        | none => m.gid }

/-- The rows that a statement of `pblock_catalog_touch` or `pblock_catalog_setattr` changes. -/
def RowUpdate.at (u : RowUpdate) (path : PblockPath) (r : CatRow) : Bool :=
  r.path = path && u.hits r.info

/-- The update statement over the rows it selects. -/
def RowUpdate.run (u : RowUpdate) (path : PblockPath) (objects : List CatRow) : List CatRow :=
  objects.map fun r => if u.at path r then { r with info := u.set r.info } else r

/-! ## Calls -/

/-- A call that reads or changes one row -/
inductive NsOp : Type where
  | lookup (path : PblockPath) : NsOp
  /-- `pblock_catalog_put`, or `pblock_catalog_create` where it does not replace -/
  | insert (path : PblockPath) (m : CatMeta) (replace : Bool) : NsOp
  | update (path : PblockPath) (u : RowUpdate) : NsOp
  | remove (path : PblockPath) : NsOp
  deriving DecidableEq

/-- The calls of a thread -/
inductive CacheCall : Type where
  | op (o : NsOp) : CacheCall
  | rename (src dst : PblockPath) : CacheCall
  /-- calls between `BEGIN IMMEDIATE` and its `COMMIT` or `ROLLBACK`, as in
  `sd_pblock_staged_commit` -/
  | transaction (body : List NsOp) : CacheCall
  deriving DecidableEq

/-- The paths whose row the statement may change. -/
def NsOp.Changes : NsOp → PblockPath → Prop
  | lookup _, _ => False
  | insert path _ _, q => q = path
  | update path _, q => q = path
  | remove path, q => q = path

/-- The paths whose row the call may change. -/
def CacheCall.Changes : CacheCall → PblockPath → Prop
  | op o, q => o.Changes q
  | rename src dst, q => AtOrBelow slash src q ∨ AtOrBelow slash dst q
  | transaction body, q => ∃ o ∈ body, o.Changes q

/-- What a lookup is made for -/
inductive NsAfter : Type where
  | done : NsAfter
  /-- the parent gate of `cat_insert_step` -/
  | insert (path : PblockPath) (m : CatMeta) (replace : Bool) : NsAfter
  /-- the parent gate of `pblock_catalog_rename` -/
  | move (src dst : PblockPath) : NsAfter
  deriving DecidableEq

/-- What a thread does next. -/
inductive NsPc : Type where
  /-- the four parts of `pblock_catalog_lookup` -/
  | get (path : PblockPath) (k : NsAfter) : NsPc
  | gen (path : PblockPath) (k : NsAfter) : NsPc
  | select (path : PblockPath) (g : ℕ) (k : NsAfter) : NsPc
  | store (path : PblockPath) (m : CatMeta) (g : ℕ) (k : NsAfter) : NsPc
  /-- the statement of `cat_insert_step`, and `nscache_put` -/
  | insert (path : PblockPath) (m : CatMeta) (replace : Bool) : NsPc
  | put (path : PblockPath) (m : CatMeta) : NsPc
  /-- the UPDATE, and `sqlite3_changes` after one that did change a row or not -/
  | update (path : PblockPath) (u : RowUpdate) : NsPc
  | changes (path : PblockPath) (hit : Bool) : NsPc
  /-- the DELETE of `pblock_catalog_remove` -/
  | delete (path : PblockPath) : NsPc
  | inval (path : PblockPath) : NsPc
  /-- the parts of `pblock_catalog_rename` -/
  | beginMove (src dst : PblockPath) : NsPc
  | collect (src dst : PblockPath) : NsPc
  | moveRow (src dst : PblockPath) (todo : List PblockPath) : NsPc
  | moveXattrs (src dst : PblockPath) (todo : List PblockPath) : NsPc
  | commitMove : NsPc
  | rollbackMove : NsPc
  | clear : NsPc
  /-- the statements around the calls of a transaction -/
  | begin : NsPc
  | commit : NsPc
  | rollback : NsPc
  /-- a call is over -/
  | ret : NsPc
  deriving DecidableEq

/-- What is done when the gate is open. -/
def NsAfter.next : NsAfter → NsPc
  | done => .ret
  | insert path m replace => .insert path m replace
  | move src dst => .beginMove src dst

def NsAfter.found (k : NsAfter) (m : CatMeta) : NsPc := if m.isDir then k.next else .ret

/-- `cat_parent_gate` -/
def NsAfter.gate (k : NsAfter) (path : PblockPath) : NsPc :=
  let parent := parentOf 1024 path
  if parent = [] ∨ parent = [slash] then k.next else .get parent k

def NsOp.start : NsOp → NsPc
  | lookup path => .get path .done
  | insert path m replace => NsAfter.gate (.insert path m replace) path
  | update path u => .update path u
  | remove path => .delete path

def CacheCall.start : CacheCall → NsPc
  | op o => o.start
  | rename src dst => NsAfter.gate (.move src dst) dst
  | transaction _ => .begin

/-! ## Steps -/

/-- What the threads share: the connection and the table. -/
structure NsShared : Type where
  objects : List CatRow
  /-- the rows that a `ROLLBACK` goes back to, in a transaction -/
  saved : Option (List CatRow)
  /-- the rows that the connection's last statement changed -/
  changes : ℕ
  cache : Nscache

/-- The rows of a transaction taken back. -/
def NsShared.undo (s : NsShared) : NsShared :=
  match s.saved with
  | some objects => { s with objects, saved := none }
  | none => s

/-- The paths of `rename_collect`. -/
def objectsBelow (src : PblockPath) (objects : List CatRow) : List PblockPath :=
  (objects.map (·.path)).filter fun p => p = src ∨ p.take (src.length + 1) = src ++ [slash]

/-- One access to the shared state -/
inductive NsAccess : NsShared → NsPc → NsShared → NsPc → Prop where
  | hit {s : NsShared} {path : PblockPath} {m : CatMeta} (hhit : s.cache.get path = some m)
      (k : NsAfter) : NsAccess s (.get path k) s (k.found m)
  | miss {s : NsShared} {path : PblockPath} (hmiss : s.cache.get path = none) (k : NsAfter) :
      NsAccess s (.get path k) s (.gen path k)
  | gen (s : NsShared) (path : PblockPath) (k : NsAfter) :
      NsAccess s (.gen path k) s (.select path s.cache.gen k)
  | selectRow {s : NsShared} {path : PblockPath} {m : CatMeta}
      (hrow : objectsRow s.objects path = some m) (g : ℕ) (k : NsAfter) :
      NsAccess s (.select path g k) s (.store path m g k)
  /-- no row, or a SELECT that fails -/
  | selectNone (s : NsShared) (path : PblockPath) (g : ℕ) (k : NsAfter) :
      NsAccess s (.select path g k) s .ret
  | store (s : NsShared) (path : PblockPath) (m : CatMeta) (g : ℕ) (k : NsAfter) :
      NsAccess s (.store path m g k) { s with cache := s.cache.store path m g } (k.found m)
  | replace (s : NsShared) (path : PblockPath) (m : CatMeta) :
      NsAccess s (.insert path m true)
        { s with
          objects := Keyed.replace CatRow.path ⟨path, parentOf 1024 path, m⟩ s.objects
          changes := 1 }
        (.put path m)
  | insert {s : NsShared} {path : PblockPath} {m : CatMeta} {objects : List CatRow}
      (hfree : Keyed.insert CatRow.path ⟨path, parentOf 1024 path, m⟩ s.objects = some objects) :
      NsAccess s (.insert path m false) { s with objects, changes := 1 } (.put path m)
  | insertFails (s : NsShared) (path : PblockPath) (m : CatMeta) (replace : Bool) :
      NsAccess s (.insert path m replace) s .ret
  | put (s : NsShared) (path : PblockPath) (m : CatMeta) :
      NsAccess s (.put path m) { s with cache := s.cache.put path m } .ret
  | update (s : NsShared) (path : PblockPath) (u : RowUpdate) :
      NsAccess s (.update path u)
        { s with
          objects := u.run path s.objects
          changes := s.objects.countP (u.at path) }
        (.changes path (s.objects.any (u.at path)))
  | updateFails (s : NsShared) (path : PblockPath) (u : RowUpdate) :
      NsAccess s (.update path u) s .ret
  | changed {s : NsShared} (hchanges : 0 < s.changes) (path : PblockPath) (hit : Bool) :
      NsAccess s (.changes path hit) s (.inval path)
  | unchanged {s : NsShared} (hchanges : s.changes = 0) (path : PblockPath) (hit : Bool) :
      NsAccess s (.changes path hit) s .ret
  | delete (s : NsShared) (path : PblockPath) :
      NsAccess s (.delete path)
        { s with
          objects := Keyed.erase CatRow.path path s.objects
          changes := s.objects.countP fun r => r.path = path }
        (.inval path)
  | deleteFails (s : NsShared) (path : PblockPath) : NsAccess s (.delete path) s .ret
  | inval (s : NsShared) (path : PblockPath) :
      NsAccess s (.inval path) { s with cache := s.cache.inval path } .ret
  | beginMove {s : NsShared} (hidle : s.saved = none) (src dst : PblockPath) :
      NsAccess s (.beginMove src dst) { s with saved := some s.objects } (.collect src dst)
  | beginMoveFails (s : NsShared) (src dst : PblockPath) :
      NsAccess s (.beginMove src dst) s .ret
  | collect (s : NsShared) {src : PblockPath} {todo : List PblockPath}
      (htodo : todo.Perm (objectsBelow src s.objects)) (hsome : todo ≠ []) (dst : PblockPath) :
      NsAccess s (.collect src dst) s (.moveRow src dst todo)
  | collectFails (s : NsShared) (src dst : PblockPath) :
      NsAccess s (.collect src dst) s .rollbackMove
  | moveRow {s : NsShared} {src dst old : PblockPath} {objects : List CatRow}
      (hshort : (refront src dst old).length < 2048)
      (hmove : Keyed.update CatRow.path (fun r => r.path = old) (CatRow.moved src dst) s.objects =
        some objects) (todo : List PblockPath) :
      NsAccess s (.moveRow src dst (old :: todo))
        { s with objects, changes := s.objects.countP fun r => r.path = old }
        (.moveXattrs src dst todo)
  /-- a name too long, one that is taken, or a statement that fails -/
  | moveRowFails (s : NsShared) (src dst : PblockPath) (todo : List PblockPath) :
      NsAccess s (.moveRow src dst todo) s .rollbackMove
  | moveXattrs (s : NsShared) (src dst : PblockPath) (todo : List PblockPath) (changes : ℕ) :
      NsAccess s (.moveXattrs src dst todo) { s with changes } (.moveRow src dst todo)
  | moveXattrsFails (s : NsShared) (src dst : PblockPath) (todo : List PblockPath) :
      NsAccess s (.moveXattrs src dst todo) s .rollbackMove
  | moved (s : NsShared) (src dst : PblockPath) : NsAccess s (.moveRow src dst []) s .commitMove
  | commitMove (s : NsShared) : NsAccess s .commitMove { s with saved := none } .clear
  /-- the transaction stays open -/
  | commitMoveFails (s : NsShared) : NsAccess s .commitMove s .ret
  | rollbackMove (s : NsShared) : NsAccess s .rollbackMove s.undo .ret
  | clear (s : NsShared) : NsAccess s .clear { s with cache := s.cache.clear } .ret

/-- A thread in a call, and where it is -/
structure NsThread : Type where
  call : CacheCall
  pc : NsPc
  /-- the calls still to come, in a transaction -/
  rest : Option (List NsOp)
  deriving DecidableEq

/-- The shared state and the threads -/
structure NsState (ι : Type) : Type where
  shared : NsShared
  threads : ι → Option NsThread

/-- What can happen next -/
inductive NsAct (ι : Type) : Type where
  | call (i : ι) (c : CacheCall) : NsAct ι
  /-- the thread goes on -/
  | run (i : ι) : NsAct ι
  /-- the `COMMIT` of a rename fails and takes the transaction back -/
  | undo (i : ι) : NsAct ι
  /-- a statement on another table of the connection -/
  | other (changes : ℕ) : NsAct ι

/-- One step. A call starts when no other one changes a path of it. -/
inductive NsStepTo {ι : Type} [DecidableEq ι] : NsState ι → NsAct ι → NsState ι → Prop where
  | call {s : NsState ι} {i : ι} {c : CacheCall} (hidle : s.threads i = none)
      (hserial : ∀ j th, s.threads j = some th → ∀ q, c.Changes q → ¬th.call.Changes q) :
      NsStepTo s (.call i c)
        { s with threads := Function.update s.threads i (some ⟨c, c.start, none⟩) }
  | access {s : NsState ι} {i : ι} {th : NsThread} {shared : NsShared} {pc : NsPc}
      (hth : s.threads i = some th) (haccess : NsAccess s.shared th.pc shared pc) :
      NsStepTo s (.run i) ⟨shared, Function.update s.threads i (some { th with pc })⟩
  | finish {s : NsState ι} {i : ι} {c : CacheCall} (hth : s.threads i = some ⟨c, .ret, none⟩) :
      NsStepTo s (.run i) { s with threads := Function.update s.threads i none }
  | begin {s : NsState ι} {i : ι} {body : List NsOp}
      (hth : s.threads i = some ⟨.transaction body, .begin, none⟩) (hidle : s.shared.saved = none) :
      NsStepTo s (.run i)
        ⟨{ s.shared with saved := some s.shared.objects },
          Function.update s.threads i (some ⟨.transaction body, .ret, some body⟩)⟩
  | beginFails {s : NsState ι} {i : ι} {body : List NsOp}
      (hth : s.threads i = some ⟨.transaction body, .begin, none⟩) :
      NsStepTo s (.run i)
        { s with threads := Function.update s.threads i (some ⟨.transaction body, .ret, none⟩) }
  | next {s : NsState ι} {i : ι} {c : CacheCall} {o : NsOp} {rest : List NsOp}
      (hth : s.threads i = some ⟨c, .ret, some (o :: rest)⟩) :
      NsStepTo s (.run i)
        { s with threads := Function.update s.threads i (some ⟨c, o.start, some rest⟩) }
  | done {s : NsState ι} {i : ι} {c : CacheCall} (hth : s.threads i = some ⟨c, .ret, some []⟩) :
      NsStepTo s (.run i)
        { s with threads := Function.update s.threads i (some ⟨c, .commit, some []⟩) }
  /-- a call that failed, a precondition, a lease or a quota -/
  | giveUp {s : NsState ι} {i : ι} {c : CacheCall} {rest : List NsOp}
      (hth : s.threads i = some ⟨c, .ret, some rest⟩) :
      NsStepTo s (.run i)
        { s with threads := Function.update s.threads i (some ⟨c, .rollback, some rest⟩) }
  | commit {s : NsState ι} {i : ι} {c : CacheCall} {rest : List NsOp}
      (hth : s.threads i = some ⟨c, .commit, some rest⟩) :
      NsStepTo s (.run i)
        ⟨{ s.shared with saved := none }, Function.update s.threads i (some ⟨c, .ret, none⟩)⟩
  | commitFails {s : NsState ι} {i : ι} {c : CacheCall} {rest : List NsOp}
      (hth : s.threads i = some ⟨c, .commit, some rest⟩) :
      NsStepTo s (.run i)
        { s with threads := Function.update s.threads i (some ⟨c, .rollback, some rest⟩) }
  | rollback {s : NsState ι} {i : ι} {c : CacheCall} {rest : List NsOp}
      (hth : s.threads i = some ⟨c, .rollback, some rest⟩) :
      NsStepTo s (.run i)
        ⟨s.shared.undo, Function.update s.threads i (some ⟨c, .ret, none⟩)⟩
  | undo {s : NsState ι} {i : ι} {c : CacheCall}
      (hth : s.threads i = some ⟨c, .commitMove, none⟩) :
      NsStepTo s (.undo i) ⟨s.shared.undo, Function.update s.threads i (some ⟨c, .ret, none⟩)⟩
  | other (s : NsState ι) (changes : ℕ) :
      NsStepTo s (.other changes) { s with shared := { s.shared with changes } }

/-- An empty table over these rows. -/
def NsState.init (ι : Type) (objects : List CatRow) : NsState ι :=
  ⟨⟨objects, none, 0, fun _ => none, 0⟩, fun _ => none⟩

/-- No call and no transaction in progress. -/
def NsState.Quiet {ι : Type} (s : NsState ι) : Prop :=
  (∀ i, s.threads i = none) ∧ s.shared.saved = none

/-- Each hit gives what the row of the path says. -/
def NsState.Coherent {ι : Type} (s : NsState ι) : Prop :=
  ∀ path m, s.shared.cache.get path = some m → objectsRow s.shared.objects path = some m

/-- What a fill or a put is about to leave in the table, at this generation. -/
def NsPc.Leaves (gen : ℕ) : NsPc → PblockPath → CatMeta → Prop
  | store path m g _, p, m' => p = path ∧ m' = m ∧ gen % 2 ^ 64 = g % 2 ^ 64
  | put path m, p, m' => p = path ∧ m' = m
  | _, _, _ => False

/-- The cache gives this of a path, or a thread is about to put it there. -/
def NsState.Shown {ι : Type} (s : NsState ι) (path : PblockPath) (m : CatMeta) : Prop :=
  s.shared.cache.Has path m ∨
    (NscacheOk path ∧ ∃ i th, s.threads i = some th ∧ th.pc.Leaves s.shared.cache.gen path m)

/-- No row that the transaction wrote is shown. -/
def NsState.Hidden {ι : Type} (s : NsState ι) : Prop :=
  ∀ rows, s.shared.saved = some rows → ∀ path m,
    objectsRow s.shared.objects path = some m → s.Shown path m → objectsRow rows path = some m

/-- What a rollback, a count of changes and a fill have to meet. -/
def NsPc.Clean {ι : Type} (s : NsState ι) : NsPc → Prop
  | rollback => s.Hidden
  | rollbackMove => s.Hidden
  -- no other statement of the connection came in between and changed nothing
  | changes _ true => 0 < s.shared.changes
  -- the generation did not come round since the snapshot
  | store _ _ g _ => s.shared.cache.gen < g + 2 ^ 64
  | _ => True

def NsState.Clean {ι : Type} (s : NsState ι) : NsAct ι → Prop
  | .run i => ∀ th, s.threads i = some th → th.pc.Clean s
  | .undo _ => s.Hidden
  | _ => True

/-- A step that meets the conditions. -/
def NsCleanStep {ι : Type} [DecidableEq ι] (s : NsState ι) (a : NsAct ι) (s' : NsState ι) : Prop :=
  NsStepTo s a s' ∧ s.Clean a

end BrixCache

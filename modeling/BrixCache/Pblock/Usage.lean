import BrixCache.Lib.Rollup
import BrixCache.Pblock.TreeRuns

/-!
# The usage of a catalog

The triggers of `pblock_quota.c` over the statements of `sd_pblock_catalog_objects.c`
and `sd_pblock_catalog_ns.c`. Each statement fires the triggers of the rows it
inserts, deletes or updates; but the row that `INSERT OR REPLACE` displaces fires
none, for SQLite does not take it for deleted while `recursive_triggers` is off. Its
bytes and its inode stay in the totals.
-/

namespace BrixCache

open Segments List

/-! ## The columns the triggers read -/

/-- `scope` and `id` of a row of `usage` -/
inductive UsageScope : Type where
  | total
  | uid : UInt32 → UsageScope
  | gid : UInt32 → UsageScope
  deriving DecidableEq

/-- `CASE WHEN is_dir=0 THEN size ELSE 0 END` -/
def CatMeta.usageBytes (m : CatMeta) : ℤ := if m.isDir then 0 else m.size

/-- The three statements of a trigger, in their order. -/
def CatMeta.usageScopes (m : CatMeta) : List UsageScope := [.total, .uid m.uid, .gid m.gid]

/-- The rows of `objects` in the totals. -/
def catWeighing : Rollup.Weighing CatMeta UsageScope where
  scopes := CatMeta.usageScopes
  weight := CatMeta.usageBytes
  nodup m := by simp [CatMeta.usageScopes]

/-- The columns that count, of every row. -/
def Catalog.infos (cat : Catalog) : List CatMeta := cat.objects.map (·.info)

/-- The tables `objects`, `xattrs` and `usage`. -/
structure QuotaDb : Type where
  cat : Catalog
  usage : Rollup UsageScope

/-- The trigger after an insert. -/
def usageAi (new : CatMeta) (usage : Rollup UsageScope) : Rollup UsageScope :=
  catWeighing.add new usage

/-- The trigger after a delete. -/
def usageAd (old : CatMeta) (usage : Rollup UsageScope) : Rollup UsageScope :=
  catWeighing.remove old usage

/-- The trigger after an update. -/
def usageAu (old new : CatMeta) (usage : Rollup UsageScope) : Rollup UsageScope :=
  catWeighing.add new (catWeighing.remove old usage)

/-- `pblock_quota_init`, with the rebuilt rows; none where the transaction is taken back. -/
def pblockQuotaInit (cat : Catalog) (execs : Bool) : Option QuotaDb :=
  if execs then (catWeighing.rebuild .total cat.infos).map (⟨cat, ·⟩) else none

def pblockQuotaUsage (db : QuotaDb) (scope : UsageScope) : Tally := db.usage.read scope

/-! ## The statements -/

/-- An `UPDATE` of one row, as it fires `usage_au`. -/
def updateRow (io : CatIo) (db : QuotaDb) (p : CatRow → Bool) (f : CatMeta → CatMeta) :
    QuotaDb × Option CatErr :=
  if !io.row then (db, some .eio)
  else if db.cat.objects.any p then
    (⟨{ db.cat with
          objects := db.cat.objects.map fun r => if p r then { r with info := f r.info } else r },
        (db.cat.objects.filter p).foldl (fun t r => usageAu r.info (f r.info) t) db.usage⟩, none)
  else (db, some .enoent)

/-- The columns that `pblock_catalog_setattr` sets. An owner or a group that is kept is none. -/
structure CatSetattr : Type where
  /-- `set_mode` and `perm` -/
  perm : Option UInt32
  /-- `set_owner`, and the ids that are not negative -/
  uid : Option UInt32
  gid : Option UInt32
  /-- `set_mtime` and `mtime` -/
  mtime : Option ℤ
  now : ℤ

/-- The SET of `pblock_catalog_setattr` -/
def CatMeta.setattr (m : CatMeta) (a : CatSetattr) : CatMeta :=
  { m with
    ctime := a.now
    mode := match a.perm with
      | none => m.mode
      | some perm => (m.mode &&& 61440) ||| (perm &&& 511)
    mtime := a.mtime.getD m.mtime
    uid := a.uid.getD m.uid
    gid := a.gid.getD m.gid }

/-- The statements that fire the quota triggers -/
inductive QuotaCall : Type where
  | put : PblockPath → CatMeta → QuotaCall
  | create : PblockPath → CatMeta → QuotaCall
  | touch : PblockPath → (size mtime : ℤ) → QuotaCall
  | setattr : PblockPath → CatSetattr → QuotaCall
  | remove : PblockPath → QuotaCall
  | rename : (src dst : PblockPath) → QuotaCall

/-- An INSERT of a row that fires `usage_ai`, if it is made. -/
def insertFires (r : CatResult) (m : CatMeta) (db : QuotaDb) : QuotaDb × Option CatErr :=
  match r with
  | (cat, none) => (⟨cat, usageAi m db.usage⟩, none)
  | (_, some e) => (db, some e)

/-- `pblock_catalog_put`, `_create`, `_touch`, `_setattr`, `_remove` and `_rename`, with what their
statements fire. A rename updates no column that a trigger waits for. -/
def QuotaCall.exec (io : CatIo) (db : QuotaDb) : QuotaCall → QuotaDb × Option CatErr
  | .put path m => insertFires (pblockCatalogPut io db.cat path m) m db
  | .create path m => insertFires (pblockCatalogCreate io db.cat path m) m db
  | .touch path size mtime =>
    updateRow io db (fun r => r.path = path && !r.info.isDir) fun m => { m with size, mtime }
  | .setattr path a => updateRow io db (fun r => r.path = path) fun m => m.setattr a
  | .remove path =>
    (⟨(pblockCatalogRemoveRow io db.cat path).1,
        if io.row then
          (db.cat.objects.filter fun r => r.path = path).foldl (fun t r => usageAd r.info t)
            db.usage
        else db.usage⟩,
      (pblockCatalogRemoveRow io db.cat path).2)
  | .rename src dst =>
    (⟨(pblockCatalogRename io db.cat src dst).1, db.usage⟩,
      (pblockCatalogRename io db.cat src dst).2)

/-- The totals are those of the rows. -/
def QuotaDb.Exact (db : QuotaDb) : Prop := catWeighing.Exact db.usage db.cat.infos

/-- The sizes of the rows, and of the row a call would write, stay within 64 bits in all; and a
put meets no row. -/
def QuotaCall.Meets (db : QuotaDb) : QuotaCall → Prop
  | .put path m => (∀ r ∈ db.cat.objects, r.path ≠ path) ∧ catWeighing.Room (m :: db.cat.infos)
  | .create _ m => catWeighing.Room (m :: db.cat.infos)
  | .touch path size mtime => ∀ r ∈ db.cat.objects, r.path = path →
    catWeighing.Room ({ r.info with size, mtime } :: db.cat.infos)
  | .setattr _ _ => catWeighing.Room db.cat.infos
  | .remove _ => catWeighing.Room db.cat.infos
  | .rename _ _ => True

instance (db : QuotaDb) (call : QuotaCall) : Decidable (call.Meets db) :=
  match call with
  | .put path m => inferInstanceAs (Decidable ((∀ r ∈ db.cat.objects, r.path ≠ path) ∧
      catWeighing.Room (m :: db.cat.infos)))
  | .create _ m => inferInstanceAs (Decidable (catWeighing.Room (m :: db.cat.infos)))
  | .touch path size mtime => inferInstanceAs (Decidable (∀ r ∈ db.cat.objects, r.path = path →
      catWeighing.Room ({ r.info with size, mtime } :: db.cat.infos)))
  | .setattr _ _ => inferInstanceAs (Decidable (catWeighing.Room db.cat.infos))
  | .remove _ => inferInstanceAs (Decidable (catWeighing.Room db.cat.infos))
  | .rename _ _ => inferInstanceAs (Decidable True)

/-- A statement that ran, with its triggers -/
def QuotaStep (db : QuotaDb) (c : CatIo × QuotaCall) (db' : QuotaDb) : Prop :=
  c.2.Meets db ∧ db' = (c.2.exec c.1 db).1

/-! ## Rows -/

variable {io : CatIo} {db db' : QuotaDb} {path : PblockPath} {m : CatMeta}

/-- The rows have different paths and the totals are theirs. -/
structure QuotaInv (db : QuotaDb) : Prop where
  unique : Keyed.Unique CatRow.path db.cat.objects
  exact : db.Exact

theorem insertFires_cases (io : CatIo) (db : QuotaDb) (path : PblockPath)
    (statement : CatRow → List CatRow → Option (List CatRow)) (m : CatMeta) :
    (insertFires (catInsertStep io db.cat path statement m) m db).1 = db ∨
      ∃ objects, statement ⟨path, parentOf 1024 path, m⟩ db.cat.objects = some objects ∧
        (insertFires (catInsertStep io db.cat path statement m) m db).1 =
          ⟨{ db.cat with objects }, usageAi m db.usage⟩ := by
  rw [catInsertStep]
  cases db.cat.parentGate path with
  | some e => exact .inl rfl
  | none =>
    cases io.row with
    | false => exact .inl rfl
    | true =>
      cases hst : statement ⟨path, parentOf 1024 path, m⟩ db.cat.objects with
      | none => exact .inl rfl
      | some objects => exact .inr ⟨objects, rfl, rfl⟩

theorem QuotaInv.insert (h : QuotaInv db) (hnone : ∀ r ∈ db.cat.objects, r.path ≠ path)
    (hroom : catWeighing.Room (m :: db.cat.infos)) (parent : PblockPath) :
    QuotaInv ⟨{ db.cat with objects := ⟨path, parent, m⟩ :: db.cat.objects },
      usageAi m db.usage⟩ :=
  ⟨h.unique.cons hnone, Rollup.Weighing.Exact.add h.exact hroom⟩

variable {p : CatRow → Bool} {cat : Catalog} {dst src : PblockPath}

theorem infos_perm {rows : List CatRow} {r : CatRow} (h : rows.filter p = [r]) :
    (rows.map (·.info)).Perm (r.info :: (rows.filter fun r => !p r).map (·.info)) := by
  have hperm := (filter_append_perm p rows).symm.map (·.info)
  rw [h] at hperm
  exact hperm

theorem infos_map_perm {rows : List CatRow} {r : CatRow} {f : CatMeta → CatMeta}
    (h : rows.filter p = [r]) (hr : p r = true) :
    ((rows.map fun r => if p r then { r with info := f r.info } else r).map (·.info)).Perm
      (f r.info :: (rows.filter fun r => !p r).map (·.info)) := by
  rw [map_map]
  have hperm := (filter_append_perm p rows).symm.map
    ((·.info) ∘ fun r => if p r then { r with info := f r.info } else r)
  have hrest : (rows.filter fun r => !p r).map
      ((·.info) ∘ fun r => if p r then { r with info := f r.info } else r) =
      (rows.filter fun r => !p r).map (·.info) := by
    apply map_congr_left
    intro r' hr'
    have hno : p r' = false := by simpa using (mem_filter.mp hr').2
    simp [hno]
  rw [h, map_append, hrest] at hperm
  simpa [hr] using hperm

/-- An update of a row, as its trigger counts it -/
theorem QuotaInv.updateRow (h : QuotaInv db) (path : PblockPath)
    {f : CatMeta → CatMeta} (hp : ∀ r ∈ db.cat.objects, p r = true → r.path = path)
    (hroom : ∀ r ∈ db.cat.objects, p r = true → ∀ rest, db.cat.infos.Perm (r.info :: rest) →
      catWeighing.Room (f r.info :: rest)) :
    QuotaInv (updateRow io db p f).1 := by
  rw [BrixCache.updateRow]
  cases io.row with
  | false => exact h
  | true =>
    by_cases hany : db.cat.objects.any p = true
    · obtain ⟨r, hr, hpr⟩ := any_eq_true.mp hany
      have hfilter : db.cat.objects.filter p = [r] := by
        refine h.unique.filter_eq ?_ hr hpr
        intro r' hr' hpr'
        rw [hp r' hr' hpr', hp r hr hpr]
      simp only [Bool.not_true, Bool.false_eq_true, if_false, hany, if_true, hfilter]
      constructor
      · have hkeys : (db.cat.objects.map fun r => if p r then { r with info := f r.info } else r).map
            CatRow.path = db.cat.objects.map CatRow.path := by
          rw [map_map]
          apply map_congr_left
          intro r' _
          cases hpr' : p r' <;> simp [hpr']
        rw [Keyed.Unique, hkeys]
        exact h.unique
      · have hold := infos_perm hfilter
        have hexact : catWeighing.Exact db.usage _ := h.exact.perm hold
        exact (hexact.replace (hroom r hr hpr _ hold)).perm (infos_map_perm hfilter hpr).symm
    · simp only [Bool.not_true, Bool.false_eq_true, if_false, hany]
      exact h

theorem QuotaInv.remove (h : QuotaInv db) (hroom : catWeighing.Room db.cat.infos) :
    QuotaInv ((QuotaCall.remove path).exec io db).1 := by
  have hxattrs : ∀ xattrs, QuotaInv
      ⟨⟨Keyed.erase CatRow.path path db.cat.objects, xattrs⟩,
        (db.cat.objects.filter fun r => r.path = path).foldl (fun t r => usageAd r.info t)
          db.usage⟩ := by
    intro xattrs
    refine ⟨h.unique.erase path, ?_⟩
    have hrest : Keyed.erase CatRow.path path db.cat.objects =
        db.cat.objects.filter fun r => !decide (r.path = path) := by
      simp [Keyed.erase]
    cases hfilter : db.cat.objects.filter fun r => r.path = path with
    | nil =>
      have hsame : Keyed.erase CatRow.path path db.cat.objects = db.cat.objects := by
        rw [hrest, filter_eq_self]
        intro r hr
        have hno := filter_eq_nil_iff.mp hfilter r hr
        simpa using hno
      rw [hsame]
      exact h.exact
    | cons r rs =>
      have hmem : r ∈ db.cat.objects.filter fun r => r.path = path :=
        hfilter ▸ mem_cons_self
      obtain ⟨hr, hpr⟩ := mem_filter.mp hmem
      have hone : (db.cat.objects.filter fun r => r.path = path) = [r] := by
        refine h.unique.filter_eq ?_ hr hpr
        intro r' _ hr'
        rw [of_decide_eq_true hr', of_decide_eq_true hpr]
      have hold := infos_perm hone
      have hexact : catWeighing.Exact db.usage _ := h.exact.perm hold
      rw [← hfilter, hone, hrest]
      exact hexact.remove (hroom.perm hold).of_cons
  rw [QuotaCall.exec, pblockCatalogRemoveRow]
  cases io.row with
  | false => exact h
  | true =>
    cases io.xattrs with
    | false => exact hxattrs db.cat.xattrs
    | true => exact hxattrs _

/-! ## A rename -/

theorem renameOne_infos {old : PblockPath} {cat' : Catalog}
    (h : renameOne src dst old cat = .ok cat') :
    Keyed.Unique CatRow.path cat'.objects ∧ cat'.infos = cat.infos := by
  rw [renameOne] at h
  split at h
  · cases h
  · split at h
    · cases h
    · next objects hobjects =>
      split at h
      · cases h
      · cases h
        obtain ⟨rfl, hunique⟩ := Keyed.update_eq_some hobjects
        refine ⟨hunique, ?_⟩
        rw [Catalog.infos, map_map]
        apply map_congr_left
        intro r _
        by_cases hr : r.path = old <;> simp [hr, CatRow.moved]

theorem renameEach_infos {pl : List PblockPath} {cat' : Catalog}
    (hunique : Keyed.Unique CatRow.path cat.objects) (h : renameEach src dst pl cat = .ok cat') :
    Keyed.Unique CatRow.path cat'.objects ∧ cat'.infos = cat.infos := by
  induction pl generalizing cat with
  | nil =>
    cases h
    exact ⟨hunique, rfl⟩
  | cons old pl ih =>
    rw [renameEach] at h
    split at h
    · cases h
    · next mid hmid =>
      obtain ⟨hmidUnique, hinfos⟩ := renameOne_infos hmid
      rw [← hinfos]
      exact ih hmidUnique h

theorem QuotaInv.rename (h : QuotaInv db) :
    QuotaInv ((QuotaCall.rename src dst).exec io db).1 := by
  have hmoved : ∀ cat', exchangeMove io db.cat src dst = .ok cat' →
      QuotaInv ⟨cat', db.usage⟩ := by
    intro cat' hcat'
    rw [exchangeMove] at hcat'
    split at hcat'
    · cases hcat'
    · split at hcat'
      · cases hcat'
      · obtain ⟨hunique, hinfos⟩ := renameEach_infos h.unique hcat'
        refine ⟨hunique, ?_⟩
        rw [QuotaDb.Exact, hinfos]
        exact h.exact
  rw [QuotaCall.exec, pblockCatalogRename]
  cases db.cat.parentGate dst with
  | some e => exact h
  | none =>
    simp only [catTransaction]
    cases io.begins with
    | false => exact h
    | true =>
      cases hbody : exchangeMove io db.cat src dst with
      | error e => exact h
      | ok cat' =>
        -- a failed COMMIT leaves the moved rows where the transaction stays open
        cases io.commits <;> cases io.stays
        · exact h
        · exact hmoved cat' hbody
        · exact hmoved cat' hbody
        · exact hmoved cat' hbody

/-! ## Runs -/

/-- **One statement** keeps the usage exact. -/
theorem QuotaInv.step (h : QuotaInv db) {call : QuotaCall} (hmeets : call.Meets db) :
    QuotaInv (call.exec io db).1 := by
  cases call with
  | put path m =>
    rw [QuotaCall.exec, pblockCatalogPut]
    obtain hsame | ⟨objects, hobjects, heq⟩ := insertFires_cases io db path
      (fun r rows => some (Keyed.replace CatRow.path r rows)) m
    · rw [hsame]
      exact h
    · obtain ⟨hnone, hroom⟩ := hmeets
      -- there is nothing to replace
      have herase : Keyed.erase CatRow.path path db.cat.objects = db.cat.objects := by
        rw [Keyed.erase, filter_eq_self]
        intro r hr
        exact decide_eq_true (hnone r hr)
      cases hobjects
      rw [heq, Keyed.replace, herase]
      exact h.insert hnone hroom _
  | create path m =>
    rw [QuotaCall.exec, pblockCatalogCreate]
    obtain hsame | ⟨objects, hobjects, heq⟩ := insertFires_cases io db path
      (Keyed.insert CatRow.path) m
    · rw [hsame]
      exact h
    · obtain ⟨hnone, rfl⟩ := Keyed.insert_eq_some.mp hobjects
      rw [heq]
      exact h.insert hnone hmeets _
  | touch path size mtime =>
    refine h.updateRow path ?_ ?_
    · intro r _ hr
      exact of_decide_eq_true (Bool.and_eq_true_iff.mp hr).1
    · intro r hr hpr rest hrest
      have hpath : r.path = path := of_decide_eq_true (Bool.and_eq_true_iff.mp hpr).1
      have hroom := (hmeets r hr hpath).perm (hrest.cons _)
      exact (hroom.perm (List.Perm.swap _ _ rest)).of_cons
  | setattr path a =>
    refine h.updateRow path ?_ ?_
    · intro r _ hr
      exact of_decide_eq_true hr
    · intro r _ _ rest hrest
      exact (Rollup.Weighing.Room.perm hmeets hrest).congr_head rfl
  | remove path => exact h.remove hmeets
  | rename src dst => exact h.rename

theorem QuotaInv.init {execs : Bool} {db : QuotaDb}
    (hunique : Keyed.Unique CatRow.path cat.objects) (hinit : pblockQuotaInit cat execs = some db) :
    QuotaInv db := by
  rw [pblockQuotaInit] at hinit
  split at hinit
  · obtain ⟨usage, husage, rfl⟩ := Option.map_eq_some_iff.mp hinit
    exact ⟨hunique, Rollup.Weighing.rebuild_exact husage⟩
  · cases hinit

/-- The rows that a scope is about. -/
def UsageScope.owns : UsageScope → CatMeta → Bool
  | .total, _ => true
  | .uid n, m => m.uid = n
  | .gid n, m => m.gid = n

theorem mem_usageScopes {scope : UsageScope} : scope ∈ m.usageScopes ↔ scope.owns m = true := by
  cases scope <;> simp [CatMeta.usageScopes, UsageScope.owns, eq_comm]

theorem weights_eq (scope : UsageScope) (infos : List CatMeta) :
    catWeighing.weights scope infos = (infos.filter scope.owns).map (·.usageBytes) := by
  rw [Rollup.Weighing.weights]
  congr 1
  apply filter_congr
  intro m _
  rw [Bool.eq_iff_iff, decide_eq_true_iff]
  exact mem_usageScopes

/-- **The totals are exact.** From the rebuilt totals of any catalog, over calls of which no put
meets a row: the total's and every owner's and group's entry is the bytes of their files and the
number of their rows. -/
theorem usage_exact {cat : Catalog} {execs : Bool} {db₀ db : QuotaDb}
    {calls : List (CatIo × QuotaCall)} (hunique : Keyed.Unique CatRow.path cat.objects)
    (hinit : pblockQuotaInit cat execs = some db₀) (hrun : Run QuotaStep db₀ calls db) :
    ∀ scope : UsageScope, pblockQuotaUsage db scope =
      ⟨some ((db.cat.infos.filter scope.owns).map (·.usageBytes)).sum,
        some (db.cat.infos.filter scope.owns).length⟩ := by
  have hinv : QuotaInv db := by
    refine hrun.invariant ?_ (QuotaInv.init hunique hinit)
    rintro db c db' h ⟨hmeets, rfl⟩
    exact h.step hmeets
  intro scope
  have hread := hinv.exact scope
  rw [weights_eq, length_map] at hread
  exact hread

/-- A file of five bytes put, made larger, given to a user and renamed. -/
theorem usage_exact_sample :
    ∃ db, (pblockQuotaInit freshCatalog true).isSome = true ∧
      pblockQuotaUsage db (.uid 7) = ⟨some 9, some 1⟩ ∧
      pblockQuotaUsage db .total = ⟨some 9, some 2⟩ := by
  let file : CatMeta := ⟨false, [], 5, 4096, 0, 0, 0o100644, 0, 0, []⟩
  let db₀ : QuotaDb := (pblockQuotaInit freshCatalog true).getD ⟨freshCatalog, fun _ => none⟩
  let calls : List QuotaCall :=
    [.put [47, 97] file, .touch [47, 97] 9 1, .setattr [47, 97] ⟨none, some 7, none, none, 2⟩,
      .rename [47, 97] [47, 98]]
  let db := calls.foldl (fun db c => (c.exec smoothCat db).1) db₀
  have hrun : Run QuotaStep db₀ (calls.map fun c => (smoothCat, c)) db :=
    .cons ⟨by decide, rfl⟩ (.cons ⟨by decide, rfl⟩ (.cons ⟨by decide, rfl⟩
      (.one ⟨trivial, rfl⟩)))
  have hinit : pblockQuotaInit freshCatalog true = some db₀ := rfl
  have husage := usage_exact (by decide) hinit hrun
  refine ⟨db, rfl, (husage (.uid 7)).trans ?_, (husage .total).trans ?_⟩ <;> decide

/-! ## A put over a row -/

/-- A file of five bytes put, and one of seven over it: twelve bytes in three rows. -/
theorem put_over_row_counts_twice :
    ¬∀ (cat : Catalog) (execs : Bool) (db₀ db : QuotaDb) (calls : List (CatIo × QuotaCall)),
      Keyed.Unique CatRow.path cat.objects → pblockQuotaInit cat execs = some db₀ →
      Run (fun db c db' => db' = (QuotaCall.exec c.1 db c.2).1) db₀ calls db →
      ∀ scope : UsageScope, pblockQuotaUsage db scope =
        ⟨some ((db.cat.infos.filter scope.owns).map (·.usageBytes)).sum,
          some (db.cat.infos.filter scope.owns).length⟩ := by
  intro h
  let five : CatMeta := ⟨false, [], 5, 4096, 0, 0, 0o100644, 0, 0, []⟩
  let seven : CatMeta := { five with size := 7 }
  have htotal := h freshCatalog true _ _
    [(smoothCat, .put [47, 97] five), (smoothCat, .put [47, 97] seven)] (by decide) rfl
    (.cons rfl (.one rfl)) .total
  revert htotal
  decide

end BrixCache

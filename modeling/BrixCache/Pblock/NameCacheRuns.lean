import BrixCache.Pblock.NameCache

/-!
# Hits of the name cache

Over any interleaving the table has only rows: each entry is its path's row, or a call
is under way that will drop it or put its row back. The invariant fails by a
rollback of a row that is already in the table, by a count of changes that another
statement overwrote, and by a generation that came round.
-/

namespace BrixCache

open Segments List

variable {objects objects' : List CatRow} {path p q src dst old : PblockPath} {m m' : CatMeta}
  {u : RowUpdate}

/-! ## Rows -/

theorem objectsRow_cons_self (parent : PblockPath) :
    objectsRow (⟨path, parent, m⟩ :: objects) path = some m := by
  have h : Keyed.find CatRow.path path (⟨path, parent, m⟩ :: objects) = some ⟨path, parent, m⟩ :=
    Keyed.find_cons_self
  rw [objectsRow, h]
  rfl

theorem objectsRow_cons_of_ne (parent : PblockPath) (h : q ≠ path) :
    objectsRow (⟨path, parent, m⟩ :: objects) q = objectsRow objects q := by
  rw [objectsRow, Keyed.find_cons_of_ne (Ne.symm h), objectsRow]

theorem objectsRow_erase (h : q ≠ path) :
    objectsRow (Keyed.erase CatRow.path path objects) q = objectsRow objects q := by
  rw [objectsRow, Keyed.find_erase_of_ne h, objectsRow]

theorem objectsRow_map {f : CatRow → CatRow}
    (h : ∀ r ∈ objects, ((f r).path = q ↔ r.path = q) ∧ (r.path = q → (f r).info = r.info)) :
    objectsRow (objects.map f) q = objectsRow objects q := by
  rw [objectsRow, Keyed.find_map fun r hr => (h r hr).1, objectsRow, Option.map_map]
  cases hfind : Keyed.find CatRow.path q objects with
  | none => rfl
  | some r =>
    have hmem := mem_of_find?_eq_some hfind
    have hkey : r.path = q := by simpa using find?_some hfind
    rw [Option.map_some, Option.map_some, Function.comp_apply, (h r hmem).2 hkey]

theorem objectsRow_run (h : q ≠ path) :
    objectsRow (u.run path objects) q = objectsRow objects q := by
  apply objectsRow_map
  intro r _
  constructor
  · split <;> rfl
  · rintro rfl
    have hat : u.at path r = false := by simp [RowUpdate.at, h]
    simp [hat]

theorem run_of_not_any (h : objects.any (u.at path) = false) : u.run path objects = objects := by
  rw [RowUpdate.run]
  conv_rhs => rw [← map_id objects]
  apply map_congr_left
  intro r hr
  have hat : u.at path r = false := by simpa using (any_eq_false.mp h) r hr
  simp [hat]

theorem run_unique (h : Keyed.Unique CatRow.path objects) :
    Keyed.Unique CatRow.path (u.run path objects) := by
  have hpaths : (u.run path objects).map CatRow.path = objects.map CatRow.path := by
    rw [RowUpdate.run, map_map]
    apply map_congr_left
    intro r _
    simp only [Function.comp_apply]
    split <;> rfl
  rw [Keyed.Unique, hpaths]
  exact h

theorem objectsRow_moved (h : Keyed.update CatRow.path (fun r => r.path = old)
    (CatRow.moved src dst) objects = some objects') (hold : q ≠ old)
    (hnew : q ≠ refront src dst old) : objectsRow objects' q = objectsRow objects q := by
  obtain ⟨rfl, -⟩ := Keyed.update_eq_some h
  apply objectsRow_map
  intro r _
  by_cases hr : r.path = old
  · have hmoved : (r.moved src dst).path = refront src dst old := by rw [← hr]; rfl
    simp [hr, hmoved, hold.symm, hnew.symm]
  · simp [hr]

theorem objectsRow_moved_new (h : Keyed.update CatRow.path (fun r => r.path = old)
    (CatRow.moved src dst) objects = some objects') (hold : objectsRow objects old ≠ none)
    (hne : refront src dst old ≠ old) : objectsRow objects (refront src dst old) = none := by
  obtain ⟨hobjects, hunique⟩ := Keyed.update_eq_some h
  rw [objectsRow, Option.map_eq_none_iff]
  by_contra hsome
  obtain ⟨r', hr'⟩ := Option.ne_none_iff_exists'.mp hsome
  have hfound : Keyed.find CatRow.path old objects ≠ none := by
    intro hnone
    exact hold (by rw [objectsRow, hnone]; rfl)
  obtain ⟨r, hr⟩ := Option.ne_none_iff_exists'.mp hfound
  have hrmem := mem_of_find?_eq_some hr
  have hrpath : r.path = old := by simpa using find?_some hr
  have hr'mem := mem_of_find?_eq_some hr'
  have hr'path : r'.path = refront src dst old := by simpa using find?_some hr'
  rw [Keyed.Unique, hobjects, map_map] at hunique
  have hmoved : (r.moved src dst).path = refront src dst old := by rw [← hrpath]; rfl
  have hsame : r = r' := by
    apply inj_on_of_nodup_map hunique hrmem hr'mem
    simp [hrpath, hr'path, hne, hmoved]
  apply hne
  rw [← hr'path, ← hsame, hrpath]

theorem objectsBelow_spec (h : Keyed.Unique CatRow.path objects) (src : PblockPath) :
    (objectsBelow src objects).Nodup ∧ ∀ q ∈ objectsBelow src objects,
      AtOrBelow slash src q ∧ objectsRow objects q ≠ none := by
  refine ⟨List.Nodup.filter _ h, ?_⟩
  intro q hq
  obtain ⟨hmem, hbelow⟩ := mem_filter.mp hq
  obtain ⟨r, hr, rfl⟩ := mem_map.mp hmem
  constructor
  · obtain heq | htake := of_decide_eq_true hbelow
    · exact .inl heq
    · exact .inr ⟨_, by rw [← htake, take_append_drop]⟩
  · intro hnone
    rw [objectsRow, Option.map_eq_none_iff, Keyed.find_eq_none] at hnone
    exact hnone r hr rfl

/-! ## The invariant -/

/-- In the transaction of a rename. -/
def NsPc.moving : NsPc → Bool
  | collect _ _ => true
  | moveRow _ _ _ => true
  | moveXattrs _ _ _ => true
  | commitMove => true
  | rollbackMove => true
  | _ => false

/-- The row may have changed, and the table has not been told. -/
def NsPc.Owes : NsPc → PblockPath → Prop
  | put path _, q => q = path
  | changes path hit, q => q = path ∧ hit = true
  | inval path, q => q = path
  | clear, _ => True
  | _, _ => False

def NsAfter.Fits (c : CacheCall) : NsAfter → Prop
  | done => True
  | insert path _ _ => c.Changes path
  | move src dst => c = .rename src dst

/-- A thread changes what its call may change. -/
def NsPc.Fits (c : CacheCall) : NsPc → Prop
  | get _ k => k.Fits c
  | gen _ k => k.Fits c
  | select _ _ k => k.Fits c
  | store _ _ _ k => k.Fits c
  | insert path _ _ => c.Changes path
  | put path _ => c.Changes path
  | update path _ => c.Changes path
  | changes path _ => c.Changes path
  | delete path => c.Changes path
  | inval path => c.Changes path
  | beginMove src dst => c = .rename src dst
  | collect src dst => c = .rename src dst
  | moveRow src dst _ => c = .rename src dst
  | moveXattrs src dst _ => c = .rename src dst
  | commitMove => ∃ src dst, c = .rename src dst
  | rollbackMove => ∃ src dst, c = .rename src dst
  | _ => True

/-- Where a thread is agrees with its call. -/
structure NsThread.Fits (th : NsThread) : Prop where
  pc : th.pc.Fits th.call
  rest : ∀ rest, th.rest = some rest → ∀ o ∈ rest, ∀ q, o.Changes q → th.call.Changes q
  /-- a rename is not in another's transaction -/
  alone : ∀ src dst, th.call = .rename src dst → th.rest = none

/-- The thread has a transaction open. -/
def NsThread.InTx (th : NsThread) : Prop := th.rest.isSome = true ∨ th.pc.moving = true

/-- An entry that the thread will drop, or whose row it will put back or drop. -/
def NsThread.Excuses (th : NsThread) (saved : Option (List CatRow)) (p : PblockPath)
    (m : CatMeta) : Prop :=
  th.call.Changes p ∧ (th.pc.Owes p ∨
    (th.pc.moving = true ∧ ∃ rows, saved = some rows ∧ objectsRow rows p = some m))

/-- The paths that a rename has still to move are as they were. -/
def NsShared.Todo (s : NsShared) (src : PblockPath) (todo : List PblockPath) : Prop :=
  todo.Nodup ∧ ∀ q ∈ todo, AtOrBelow slash src q ∧ ∃ rows m,
    s.saved = some rows ∧ objectsRow rows q = some m ∧ objectsRow s.objects q = some m

/-- The rows at and below `src` are those from before the transaction. -/
def NsShared.Kept (s : NsShared) (src : PblockPath) : Prop :=
  ∀ q m, AtOrBelow slash src q → objectsRow s.objects q = some m →
    ∃ rows, s.saved = some rows ∧ objectsRow rows q = some m

variable {ι : Type}

namespace NsState

/-- What the table may have at a path. -/
def Good (s : NsState ι) (p : PblockPath) (m : CatMeta) : Prop :=
  objectsRow s.shared.objects p = some m ∨
    ∃ i th, s.threads i = some th ∧ th.Excuses s.shared.saved p m

/-- The thread is in a transaction. -/
def Tx (s : NsState ι) (i : ι) : Prop := ∃ th, s.threads i = some th ∧ th.InTx

/-- A transaction is open exactly if one thread has it. -/
structure Owned (s : NsState ι) : Prop where
  opened : ∀ i, s.Tx i → s.shared.saved ≠ none
  owner : ∀ i j, s.Tx i → s.Tx j → i = j
  held : s.shared.saved ≠ none → ∃ i, s.Tx i

end NsState

/-- What a thread knows of the rows and the table. -/
def NsPc.Ok (s : NsState ι) : NsPc → Prop
  | select _ g _ => g ≤ s.shared.cache.gen
  | store path m g _ => g ≤ s.shared.cache.gen ∧
      (g = s.shared.cache.gen → NscacheOk path → s.Good path m)
  | put path m => NscacheOk path → objectsRow s.shared.objects path = some m
  | collect src _ => s.shared.Kept src
  | moveRow src _ todo => s.shared.Todo src todo
  | moveXattrs src _ todo => s.shared.Todo src todo
  | _ => True

/-- What the cache, the rows and the threads keep to in every state -/
structure NsInv (s : NsState ι) : Prop where
  unique : Keyed.Unique CatRow.path s.shared.objects
  savedUnique : ∀ rows, s.shared.saved = some rows → Keyed.Unique CatRow.path rows
  placed : s.shared.cache.Placed
  owned : s.Owned
  serial : ∀ i j th th', s.threads i = some th → s.threads j = some th' → i ≠ j →
    ∀ q, th.call.Changes q → ¬th'.call.Changes q
  fits : ∀ i th, s.threads i = some th → th.Fits
  ok : ∀ i th, s.threads i = some th → th.pc.Ok s
  cached : ∀ p m, s.shared.cache.Has p m → s.Good p m

/-- A transaction that no thread will end. -/
def NsState.Stuck (s : NsState ι) : Prop := s.shared.saved ≠ none ∧ ∀ i, ¬s.Tx i

/-! ## What a thread starts with -/

/-- Nothing of the thread is in the way of another. -/
structure NsPc.Idle (pc : NsPc) : Prop where
  owes : ∀ q, ¬pc.Owes q
  moving : pc.moving = false
  ok : ∀ {ι : Type} (s : NsState ι), pc.Ok s

variable {c : CacheCall} {k : NsAfter} {pc : NsPc} {rest : Option (List NsOp)}

theorem NsPc.ret_idle : NsPc.Idle .ret := ⟨nofun, rfl, fun _ => trivial⟩

theorem NsAfter.next_idle (k : NsAfter) : k.next.Idle := by
  cases k <;> exact ⟨nofun, rfl, fun _ => trivial⟩

theorem NsAfter.found_idle (k : NsAfter) (m : CatMeta) : (k.found m).Idle := by
  rw [found]
  split
  · exact k.next_idle
  · exact NsPc.ret_idle

theorem NsAfter.gate_cases (k : NsAfter) (path : PblockPath) :
    k.gate path = k.next ∨ ∃ parent, k.gate path = .get parent k := by
  by_cases h : parentOf 1024 path = [] ∨ parentOf 1024 path = [slash]
  · exact .inl (if_pos h)
  · exact .inr ⟨_, if_neg h⟩

theorem NsAfter.gate_idle (k : NsAfter) (path : PblockPath) : (k.gate path).Idle := by
  obtain heq | ⟨parent, heq⟩ := k.gate_cases path
  · rw [heq]
    exact k.next_idle
  · rw [heq]
    exact ⟨nofun, rfl, fun _ => trivial⟩

theorem NsOp.start_idle (o : NsOp) : o.start.Idle := by
  cases o with
  | insert path m replace => exact NsAfter.gate_idle _ path
  | lookup path | update path u | remove path => exact ⟨nofun, rfl, fun _ => trivial⟩

theorem CacheCall.start_idle (c : CacheCall) : c.start.Idle := by
  cases c with
  | op o => exact o.start_idle
  | rename src dst => exact NsAfter.gate_idle _ dst
  | transaction body => exact ⟨nofun, rfl, fun _ => trivial⟩

theorem NsAfter.Fits.next (h : k.Fits c) : k.next.Fits c := by
  cases k <;> exact h

theorem NsAfter.Fits.found (h : k.Fits c) (m : CatMeta) : (k.found m).Fits c := by
  rw [NsAfter.found]
  split
  · exact h.next
  · trivial

theorem NsAfter.Fits.gate (h : k.Fits c) (path : PblockPath) : (k.gate path).Fits c := by
  obtain heq | ⟨parent, heq⟩ := k.gate_cases path
  · rw [heq]
    exact h.next
  · rw [heq]
    exact h

theorem NsOp.start_fits {o : NsOp} (h : ∀ q, o.Changes q → c.Changes q) : o.start.Fits c := by
  cases o with
  | lookup path => trivial
  | insert path m replace =>
    have hfits : NsAfter.Fits c (.insert path m replace) := h path rfl
    exact hfits.gate path
  | update path u | remove path => exact h path rfl

theorem CacheCall.start_fits (c : CacheCall) : c.start.Fits c := by
  cases c with
  | op o => exact NsOp.start_fits fun _ h => h
  | rename src dst =>
    have hfits : NsAfter.Fits (.rename src dst) (.move src dst) := rfl
    exact hfits.gate dst
  | transaction body => trivial

theorem NsThread.Fits.to {pc' : NsPc} (h : NsThread.Fits ⟨c, pc, rest⟩) (hpc : pc'.Fits c) :
    NsThread.Fits ⟨c, pc', rest⟩ := ⟨hpc, h.rest, h.alone⟩

theorem inTx_iff {pc' : NsPc} (h : pc'.moving = pc.moving) :
    NsThread.InTx ⟨c, pc', rest⟩ ↔ NsThread.InTx ⟨c, pc, rest⟩ := by
  rw [NsThread.InTx, NsThread.InTx, h]

theorem not_inTx (hrest : rest = none) (hpc : pc.moving = false) :
    ¬NsThread.InTx ⟨c, pc, rest⟩ := by
  simp [NsThread.InTx, hrest, hpc]

/-! ## Steps of one thread -/

section

variable [DecidableEq ι] {s : NsState ι} {i : ι} {th th' : NsThread} {x y : Option NsThread}
  {shared : NsShared}

def NsState.after (s : NsState ι) (shared : NsShared) (i : ι) (y : Option NsThread) : NsState ι :=
  ⟨shared, Function.update s.threads i y⟩

theorem forall_after {P : ι → NsThread → Prop} (hi : ∀ th, y = some th → P i th)
    (hothers : ∀ j th, j ≠ i → s.threads j = some th → P j th) :
    ∀ j th, (s.after shared i y).threads j = some th → P j th := by
  intro j th hj
  obtain ⟨rfl, hy⟩ | ⟨hne, hj⟩ := of_update_eq_some hj
  · exact hi th hy
  · exact hothers j th hne hj

theorem after_threads_self : (s.after shared i y).threads i = y := Function.update_self _ _ _

theorem after_threads_of_ne {j : ι} (h : j ≠ i) :
    (s.after shared i y).threads j = s.threads j := Function.update_of_ne h _ _

omit [DecidableEq ι] in
theorem NsState.Good.of_excuses {j : ι} (hj : s.threads j = some th)
    (h : th.Excuses s.shared.saved p m) : s.Good p m := .inr ⟨j, th, hj, h⟩

theorem NsState.Good.after (h : s.Good p m)
    (hrow : objectsRow s.shared.objects p = some m → (s.after shared i y).Good p m)
    (hi : ∀ th, s.threads i = some th → th.Excuses s.shared.saved p m →
      (s.after shared i y).Good p m)
    (hothers : ∀ j th, j ≠ i → s.threads j = some th → th.Excuses s.shared.saved p m →
      th.Excuses shared.saved p m) : (s.after shared i y).Good p m := by
  obtain hrows | ⟨j, th, hj, hex⟩ := h
  · exact hrow hrows
  · by_cases hne : j = i
    · subst hne
      exact hi th hj hex
    · exact NsState.Good.of_excuses ((after_threads_of_ne hne).trans hj) (hothers j th hne hj hex)

theorem tx_after {j : ι} : (s.after shared i y).Tx j ↔
    (j = i ∧ ∃ th, y = some th ∧ th.InTx) ∨ (j ≠ i ∧ s.Tx j) := by
  by_cases hne : j = i
  · subst hne
    simp [NsState.Tx, after_threads_self]
  · simp [NsState.Tx, after_threads_of_ne hne, hne]

theorem NsState.Owned.keep (h : s.Owned) (hsaved : shared.saved = s.shared.saved)
    (htx : (∃ th, y = some th ∧ th.InTx) ↔ s.Tx i) : (s.after shared i y).Owned := by
  have hsame : ∀ j, (s.after shared i y).Tx j ↔ s.Tx j := by
    intro j
    rw [tx_after]
    by_cases hne : j = i
    · subst hne
      simp [htx]
    · simp [hne]
  have hsaved' : (s.after shared i y).shared.saved = s.shared.saved := hsaved
  refine ⟨?_, ?_, ?_⟩
  · intro j hj
    rw [hsaved']
    exact h.opened j ((hsame j).mp hj)
  · intro j k hj hk
    exact h.owner j k ((hsame j).mp hj) ((hsame k).mp hk)
  · intro hopen
    rw [hsaved'] at hopen
    obtain ⟨j, hj⟩ := h.held hopen
    exact ⟨j, (hsame j).mpr hj⟩

theorem NsState.Owned.begin (h : s.Owned) (hidle : s.shared.saved = none)
    (hopen : shared.saved ≠ none) (htx : th'.InTx) : (s.after shared i (some th')).Owned := by
  have hnone : ∀ j, ¬s.Tx j := fun j hj => h.opened j hj hidle
  refine ⟨fun _ _ => hopen, ?_, fun _ => ⟨i, tx_after.mpr (.inl ⟨rfl, th', rfl, htx⟩)⟩⟩
  intro j k hj hk
  obtain ⟨rfl, -⟩ | ⟨-, hj⟩ := tx_after.mp hj
  · obtain ⟨rfl, -⟩ | ⟨-, hk⟩ := tx_after.mp hk
    · rfl
    · exact absurd hk (hnone k)
  · exact absurd hj (hnone j)

theorem NsState.Owned.ended (h : s.Owned) (hi : s.Tx i) (hclosed : shared.saved = none)
    (htx : ¬th'.InTx) : (s.after shared i (some th')).Owned := by
  have hnone : ∀ j, ¬(s.after shared i (some th')).Tx j := by
    intro j hj
    obtain ⟨-, th, hth, hin⟩ | ⟨hne, hj⟩ := tx_after.mp hj
    · cases hth
      exact htx hin
    · exact hne (h.owner j i hj hi)
  exact ⟨fun j hj => absurd hj (hnone j), fun j _ hj => absurd hj (hnone j),
    fun hopen => absurd hclosed hopen⟩

omit [DecidableEq ι] in
/-- Another thread's step leaves what a thread knows. -/
theorem NsPc.Ok.frame {s' : NsState ι} (hok : th.pc.Ok s) (hfits : th.Fits)
    (hgen : s.shared.cache.gen ≤ s'.shared.cache.gen)
    (hgood : s'.shared.cache.gen = s.shared.cache.gen → ∀ p m, NscacheOk p → s.Good p m →
      s'.Good p m)
    (hrows : ∀ q, th.call.Changes q →
      objectsRow s'.shared.objects q = objectsRow s.shared.objects q)
    (hsaved : th.pc.moving = true → s'.shared.saved = s.shared.saved) : th.pc.Ok s' := by
  have htodo : ∀ {src dst todo}, th.call = .rename src dst → th.pc.moving = true →
      s.shared.Todo src todo → s'.shared.Todo src todo := by
    intro src dst todo hcall hmoving ⟨hnodup, hq⟩
    refine ⟨hnodup, ?_⟩
    intro q hmem
    obtain ⟨hat, rows, m, hrows', hold, hnew⟩ := hq q hmem
    refine ⟨hat, rows, m, (hsaved hmoving).trans hrows', hold, ?_⟩
    rw [hrows q (by rw [hcall]; exact .inl hat)]
    exact hnew
  have hpc := hfits.pc
  cases hcase : th.pc <;> rw [hcase] at hok hpc <;> try trivial
  case select => exact Nat.le_trans hok hgen
  case store path m g k =>
    obtain ⟨hle, hg⟩ := hok
    refine ⟨Nat.le_trans hle hgen, ?_⟩
    intro heq hlen
    have hsame : s'.shared.cache.gen = s.shared.cache.gen := by
      apply Nat.le_antisymm _ hgen
      rw [← heq]
      exact hle
    exact hgood hsame path m hlen (hg (heq.trans hsame) hlen)
  case put path m => exact fun hlen => (hrows path hpc).trans (hok hlen)
  case collect src dst =>
    intro q m hat hrow
    have hcall : th.call = .rename src dst := hpc
    rw [hrows q (by rw [hcall]; exact .inl hat)] at hrow
    rw [hsaved (by rw [hcase]; rfl)]
    exact hok q m hat hrow
  case moveRow src dst todo => exact htodo hpc (by rw [hcase]; rfl) hok
  case moveXattrs src dst todo => exact htodo hpc (by rw [hcase]; rfl) hok

theorem NsInv.others (h : NsInv s) (hth : s.threads i = some th) (hcall : th'.call = th.call) :
    ∀ j k tj tk, (s.after shared i (some th')).threads j = some tj →
      (s.after shared i (some th')).threads k = some tk → j ≠ k →
      ∀ q, tj.call.Changes q → ¬tk.call.Changes q := by
  -- each thread's call is the one it had
  have hcalls : ∀ j tj, (s.after shared i (some th')).threads j = some tj →
      ∃ t, s.threads j = some t ∧ t.call = tj.call := by
    apply forall_after
    · rintro _ ⟨⟩
      exact ⟨th, hth, hcall.symm⟩
    · intro j tj _ hj
      exact ⟨tj, hj, rfl⟩
  intro j k tj tk hj hk hne q hq
  obtain ⟨t, ht, htj⟩ := hcalls j tj hj
  obtain ⟨t', ht', htk⟩ := hcalls k tk hk
  rw [← htj] at hq
  rw [← htk]
  exact h.serial j k t t' ht ht' hne q hq

theorem NsInv.fits_after (h : NsInv s) (hfits : th'.Fits) :
    ∀ j t, (s.after shared i (some th')).threads j = some t → t.Fits :=
  forall_after (by rintro _ ⟨⟩; exact hfits) fun j t _ hj => h.fits j t hj

theorem NsInv.rows (h : NsInv s) (hth : s.threads i = some th) (hcall : th'.call = th.call)
    (hfits : th'.Fits) (htx : th'.InTx ↔ th.InTx) {n : ℕ}
    (hunique : Keyed.Unique CatRow.path objects)
    (hrows : ∀ j t, j ≠ i → s.threads j = some t → ∀ q, t.call.Changes q →
      objectsRow objects q = objectsRow s.shared.objects q)
    (hgood : ∀ p m, s.Good p m →
      (s.after { s.shared with objects, changes := n } i (some th')).Good p m)
    (hok : th'.pc.Ok (s.after { s.shared with objects, changes := n } i (some th'))) :
    NsInv (s.after { s.shared with objects, changes := n } i (some th')) := by
  refine ⟨hunique, h.savedUnique, h.placed, h.owned.keep rfl ?_, h.others hth hcall, ?_, ?_, ?_⟩
  · simp [NsState.Tx, hth, htx]
  · exact h.fits_after hfits
  · refine forall_after (by rintro _ ⟨⟩; exact hok) ?_
    intro j t hne hj
    exact (h.ok j t hj).frame (h.fits j t hj) (Nat.le_refl _) (fun _ p m _ => hgood p m)
      (hrows j t hne hj) fun _ => rfl
  · intro p m hhas
    exact hgood p m (h.cached p m hhas)

theorem NsInv.table (h : NsInv s) (hth : s.threads i = some th) (hcall : th'.call = th.call)
    (hfits : th'.Fits) (htx : th'.InTx ↔ th.InTx) {cache : Nscache}
    (hgen : s.shared.cache.gen ≤ cache.gen) (hplaced : cache.Placed)
    (hgood : cache.gen = s.shared.cache.gen → ∀ p m, NscacheOk p → s.Good p m →
      (s.after { s.shared with cache } i (some th')).Good p m)
    (hcached : ∀ p m, cache.Has p m → (s.after { s.shared with cache } i (some th')).Good p m)
    (hok : th'.pc.Ok (s.after { s.shared with cache } i (some th'))) :
    NsInv (s.after { s.shared with cache } i (some th')) := by
  refine ⟨h.unique, h.savedUnique, hplaced, h.owned.keep rfl ?_, h.others hth hcall, ?_, ?_,
    hcached⟩
  · simp [NsState.Tx, hth, htx]
  · exact h.fits_after hfits
  · refine forall_after (by rintro _ ⟨⟩; exact hok) ?_
    intro j t _ hj
    exact (h.ok j t hj).frame (h.fits j t hj) hgen hgood (fun _ _ => rfl) fun _ => rfl

theorem NsState.Good.step (h : s.Good p m) (hth : s.threads i = some th)
    (hcall : th'.call = th.call) (hsaved : shared.saved = s.shared.saved)
    (hrow : objectsRow s.shared.objects p = some m → (s.after shared i (some th')).Good p m)
    (howes : th.pc.Owes p → th'.pc.Owes p) (hmoving : th'.pc.moving = th.pc.moving) :
    (s.after shared i (some th')).Good p m := by
  apply h.after hrow
  · rintro t ht ⟨hch, hex⟩
    rw [hth] at ht
    cases ht
    refine .of_excuses after_threads_self ⟨hcall.symm ▸ hch, ?_⟩
    rw [hmoving]
    obtain howe | ⟨hm, hrows⟩ := hex
    · exact .inl (howes howe)
    · exact .inr ⟨hm, by rw [← hsaved] at hrows; exact hrows⟩
  · rintro j t - - hex
    rw [hsaved]
    exact hex

section

variable (h : NsInv s)
include h

theorem NsInv.quiet (hth : s.threads i = some ⟨c, pc, rest⟩) (pc' : NsPc)
    (hfits : pc'.Fits c) (hok : pc'.Ok s) (howes : ∀ q, pc.Owes q → pc'.Owes q)
    (hmoving : pc'.moving = pc.moving) (n : ℕ) :
    NsInv (s.after { s.shared with changes := n } i (some ⟨c, pc', rest⟩)) := by
  have hfits' : NsThread.Fits ⟨c, pc', rest⟩ := (h.fits i _ hth).to hfits
  have hgood : ∀ p m, s.Good p m →
      (s.after { s.shared with changes := n } i (some ⟨c, pc', rest⟩)).Good p m := by
    intro p m hg
    exact hg.step hth rfl rfl .inl (howes p) hmoving
  refine h.rows hth (by rfl) hfits' (inTx_iff hmoving) h.unique (fun _ _ _ _ _ _ => rfl) hgood ?_
  exact NsPc.Ok.frame hok hfits' (Nat.le_refl _) (fun _ p m _ => hgood p m) (fun _ _ => rfl)
    fun _ => rfl

theorem NsInv.write (hth : s.threads i = some ⟨c, pc, rest⟩) (pc' : NsPc)
    (hfits : pc'.Fits c) (hpath : c.Changes path) (hold : ∀ q, ¬pc.Owes q)
    (howes : pc'.Owes path) (hmoving : pc'.moving = pc.moving) (n : ℕ)
    (hunique : Keyed.Unique CatRow.path objects)
    (hrows : ∀ q, q ≠ path → objectsRow objects q = objectsRow s.shared.objects q)
    (hok : pc'.Ok (s.after { s.shared with objects, changes := n } i (some ⟨c, pc', rest⟩))) :
    NsInv (s.after { s.shared with objects, changes := n } i (some ⟨c, pc', rest⟩)) := by
  have hfits' : NsThread.Fits ⟨c, pc', rest⟩ := (h.fits i _ hth).to hfits
  refine h.rows hth (by rfl) hfits' (inTx_iff hmoving) hunique ?_ ?_ hok
  · intro j t hne hj q hq
    apply hrows q
    rintro rfl
    exact h.serial i j _ t hth hj hne.symm q hpath hq
  · intro p m hg
    refine hg.step hth rfl rfl ?_ (fun howe => absurd howe (hold p)) hmoving
    intro hrow
    by_cases hp : p = path
    · subst hp
      exact .of_excuses after_threads_self ⟨hpath, .inl howes⟩
    · exact .inl ((hrows p hp).trans hrow)

theorem NsInv.fill {g : ℕ} (hth : s.threads i = some ⟨c, .store path m g k, rest⟩)
    (hclean : s.shared.cache.gen < g + 2 ^ 64) :
    NsInv (s.after { s.shared with cache := s.shared.cache.store path m g } i
      (some ⟨c, k.found m, rest⟩)) := by
  obtain ⟨hle, hg⟩ := h.ok i _ hth
  have hidle := k.found_idle m
  have hfits := (h.fits i _ hth).to (NsAfter.Fits.found (h.fits i _ hth).pc m)
  have hgood : ∀ p m', s.Good p m' →
      (s.after { s.shared with cache := s.shared.cache.store path m g } i
        (some ⟨c, k.found m, rest⟩)).Good p m' := by
    intro p m' hp
    exact hp.step hth rfl rfl .inl (fun howe => howe.elim) hidle.moving
  refine h.table hth (by rfl) hfits (inTx_iff hidle.moving) (by simp)
    (Nscache.store_placed h.placed) (fun _ p m' _ => hgood p m') ?_ (hidle.ok _)
  intro p m' hhas
  obtain ⟨rfl, rfl, hlen, hgen⟩ | hold := Nscache.has_store hhas h.placed
  · -- the counter did not come round, so no bump came since the snapshot
    have heq : g = s.shared.cache.gen := by omega
    exact hgood _ _ (hg heq hlen)
  · exact hgood p m' (h.cached p m' hold)

theorem NsInv.put (hth : s.threads i = some ⟨c, .put path m, rest⟩) :
    NsInv (s.after { s.shared with cache := s.shared.cache.put path m } i
      (some ⟨c, .ret, rest⟩)) := by
  have hfits : NsThread.Fits ⟨c, .ret, rest⟩ := (h.fits i _ hth).to trivial
  have hrow : NscacheOk path → objectsRow s.shared.objects path = some m := h.ok i _ hth
  have hplaced : (s.shared.cache.put path m).Placed := Nscache.put_placed h.placed
  refine h.table hth (by rfl) hfits (inTx_iff rfl) (by simp) hplaced ?_ ?_ trivial
  · intro heq
    simp at heq
  · intro p m' hhas
    obtain ⟨rfl, rfl⟩ | ⟨hne, hold⟩ := Nscache.has_put hhas h.placed
    · obtain ⟨b, hb⟩ := hhas
      exact .inl (hrow (hplaced b _ hb).2)
    · exact (h.cached p m' hold).step hth rfl rfl .inl (fun howe => absurd howe hne) rfl

theorem NsInv.inval (hth : s.threads i = some ⟨c, .inval path, rest⟩) :
    NsInv (s.after { s.shared with cache := s.shared.cache.inval path } i
      (some ⟨c, .ret, rest⟩)) := by
  have hfits : NsThread.Fits ⟨c, .ret, rest⟩ := (h.fits i _ hth).to trivial
  have hgood : ∀ p m', p ≠ path → s.Good p m' →
      (s.after { s.shared with cache := s.shared.cache.inval path } i
        (some ⟨c, .ret, rest⟩)).Good p m' := by
    intro p m' hne hp
    exact hp.step hth rfl rfl .inl (fun howe => absurd howe hne) rfl
  refine h.table hth (by rfl) hfits (inTx_iff rfl) ?_ (Nscache.inval_placed h.placed) ?_ ?_ trivial
  · rw [Nscache.gen_inval]
    split <;> omega
  · intro heq p m' hlen hp
    rw [Nscache.gen_inval] at heq
    refine hgood p m' ?_ hp
    -- a path that is too long has no entry
    rintro rfl
    rw [if_pos hlen] at heq
    omega
  · intro p m' hhas
    obtain ⟨hne, hold⟩ := Nscache.has_inval hhas h.placed
    exact hgood p m' hne (h.cached p m' hold)

theorem NsInv.clear (hth : s.threads i = some ⟨c, .clear, rest⟩) :
    NsInv (s.after { s.shared with cache := s.shared.cache.clear } i
      (some ⟨c, .ret, rest⟩)) := by
  have hfits : NsThread.Fits ⟨c, .ret, rest⟩ := (h.fits i _ hth).to trivial
  refine h.table hth (by rfl) hfits (inTx_iff rfl) (Nat.le_succ _) ?_ ?_ ?_ trivial
  · intro b e he
    cases he
  · intro heq
    simp [Nscache.clear] at heq
  · rintro p m' ⟨b, hb⟩
    cases hb

/-- A transaction begins. -/
theorem NsInv.begin (hth : s.threads i = some th) (hcall : th'.call = th.call)
    (hfits : th'.Fits) (hpc : th.pc.Idle) (hclosed : s.shared.saved = none) (htx : th'.InTx)
    (hok : ∀ s' : NsState ι, s'.shared.saved = some s'.shared.objects → th'.pc.Ok s') :
    NsInv (s.after { s.shared with saved := some s.shared.objects } i (some th')) := by
  have hgood : ∀ p m, s.Good p m →
      (s.after { s.shared with saved := some s.shared.objects } i (some th')).Good p m := by
    intro p m hp
    refine hp.after .inl ?_ ?_
    · rintro t ht ⟨-, hex⟩
      rw [hth] at ht
      cases ht
      obtain howe | ⟨hm, -⟩ := hex
      · exact absurd howe (hpc.owes p)
      · rw [hpc.moving] at hm
        cases hm
    · rintro j t - - ⟨hch, howe | ⟨-, rows, hrows, -⟩⟩
      · exact ⟨hch, .inl howe⟩
      · rw [hclosed] at hrows
        cases hrows
  refine ⟨h.unique, ?_, h.placed, h.owned.begin hclosed (by simp) htx, h.others hth hcall, ?_, ?_,
    fun p m hhas => hgood p m (h.cached p m hhas)⟩
  · rintro rows ⟨⟩
    exact h.unique
  · exact h.fits_after hfits
  · refine forall_after (by rintro _ ⟨⟩; exact hok _ rfl) ?_
    intro j t _ hj
    refine (h.ok j t hj).frame (h.fits j t hj) (Nat.le_refl _) (fun _ p m _ => hgood p m)
      (fun _ _ => rfl) ?_
    intro hm
    exact absurd hclosed (h.owned.opened j ⟨t, hj, .inr hm⟩)

omit [DecidableEq ι] in
theorem NsInv.not_moving (hi : s.Tx i) {j : ι} (hne : j ≠ i)
    (hj : s.threads j = some th) : th.pc.moving ≠ true :=
  fun hm => hne (h.owned.owner j i ⟨th, hj, .inr hm⟩ hi)

theorem NsInv.commit (hth : s.threads i = some th) (hcall : th'.call = th.call)
    (hfits : th'.Fits) (htx : th.InTx) (htx' : ¬th'.InTx)
    (hex : ∀ p m, th.Excuses s.shared.saved p m → th'.pc.Owes p)
    (hok : ∀ s' : NsState ι, th'.pc.Ok s') :
    NsInv (s.after { s.shared with saved := none } i (some th')) := by
  have hi : s.Tx i := ⟨th, hth, htx⟩
  have hgood : ∀ p m, s.Good p m →
      (s.after { s.shared with saved := none } i (some th')).Good p m := by
    intro p m hp
    refine hp.after .inl ?_ ?_
    · intro t ht hexc
      rw [hth] at ht
      cases ht
      exact .of_excuses after_threads_self ⟨by rw [hcall]; exact hexc.1, .inl (hex p m hexc)⟩
    · rintro j t hne hj ⟨hch, howe | ⟨hm, -⟩⟩
      · exact ⟨hch, .inl howe⟩
      · exact absurd hm (h.not_moving hi hne hj)
  refine ⟨h.unique, nofun, h.placed, h.owned.ended hi rfl htx', h.others hth hcall, ?_, ?_,
    fun p m hhas => hgood p m (h.cached p m hhas)⟩
  · exact h.fits_after hfits
  · refine forall_after (by rintro _ ⟨⟩; exact hok _) ?_
    intro j t hne hj
    refine (h.ok j t hj).frame (h.fits j t hj) (Nat.le_refl _) (fun _ p m _ => hgood p m)
      (fun _ _ => rfl) ?_
    intro hm
    exact absurd hm (h.not_moving hi hne hj)

/-- A transaction is taken back, with the entries that it hid. -/
theorem NsInv.undo (hth : s.threads i = some th) (hcall : th'.call = th.call)
    (hfits : th'.Fits) (htx : th.InTx) (htx' : ¬th'.InTx) (hhidden : s.Hidden)
    (hpc : ∀ q, ¬th.pc.Owes q) (hok : ∀ s' : NsState ι, th'.pc.Ok s') :
    NsInv (s.after s.shared.undo i (some th')) := by
  have hi : s.Tx i := ⟨th, hth, htx⟩
  obtain ⟨rows, hrows⟩ := Option.ne_none_iff_exists'.mp (h.owned.opened i hi)
  have hundo : s.shared.undo = { s.shared with objects := rows, saved := none } := by
    simp [NsShared.undo, hrows]
  rw [hundo]
  -- what is shown has the row of before, or its thread still owes the table
  have hgood : ∀ p m, s.Good p m → s.Shown p m →
      (s.after { s.shared with objects := rows, saved := none } i (some th')).Good p m := by
    intro p m hp hshown
    apply hp.after
    · intro hrow
      exact .inl (hhidden rows hrows p m hrow hshown)
    · rintro t ht ⟨-, hex⟩
      rw [hth] at ht
      cases ht
      obtain howe | ⟨-, rows', hrows', hp'⟩ := hex
      · exact absurd howe (hpc p)
      · rw [hrows] at hrows'
        cases hrows'
        exact .inl hp'
    · rintro j t hne hj ⟨hch, howe | ⟨hm, -⟩⟩
      · exact ⟨hch, .inl howe⟩
      · exact absurd hm (h.not_moving hi hne hj)
  refine ⟨h.savedUnique rows hrows, nofun, h.placed, h.owned.ended hi rfl htx',
    h.others hth hcall, ?_, ?_, fun p m hhas => hgood p m (h.cached p m hhas) (.inl hhas)⟩
  · exact h.fits_after hfits
  · refine forall_after (by rintro _ ⟨⟩; exact hok _) ?_
    intro j t hne hj
    have hokj := h.ok j t hj
    have hm := h.not_moving hi hne hj
    cases hcase : t.pc <;> rw [hcase] at hokj hm <;> try trivial
    case store path m g k =>
      refine ⟨hokj.1, ?_⟩
      intro heq hlen
      have hgen : g = s.shared.cache.gen := heq
      exact hgood path m (hokj.2 hgen hlen)
        (.inr ⟨hlen, j, t, hj, by rw [hcase]; exact ⟨rfl, rfl, by rw [hgen]⟩⟩)
    case put path m =>
      intro hlen
      exact hhidden rows hrows path m (hokj hlen)
        (.inr ⟨hlen, j, t, hj, by rw [hcase]; exact ⟨rfl, rfl⟩⟩)

/-- A row moves below the destination. -/
theorem NsInv.move {todo : List PblockPath}
    (hth : s.threads i = some ⟨c, .moveRow src dst (old :: todo), rest⟩)
    (hmove : Keyed.update CatRow.path (fun r => r.path = old) (CatRow.moved src dst)
      s.shared.objects = some objects) (n : ℕ) :
    NsInv (s.after { s.shared with objects, changes := n } i
      (some ⟨c, .moveXattrs src dst todo, rest⟩)) := by
  have hfits := h.fits i _ hth
  have hc : c = .rename src dst := hfits.pc
  obtain ⟨hnodup, htodo⟩ : s.shared.Todo src (old :: todo) := h.ok i _ hth
  obtain ⟨hout, hnodup⟩ := nodup_cons.mp hnodup
  obtain ⟨hat, rows, m₀, hrows, hold₀, hnow⟩ := htodo old mem_cons_self
  have hchOld : c.Changes old := by rw [hc]; exact .inl hat
  have hchNew : c.Changes (refront src dst old) := by
    rw [hc]
    exact .inr (refront_atOrBelow hat dst)
  -- no row stood where the row goes, but the row itself
  have hvacant : ∀ {q m}, q = refront src dst old → objectsRow s.shared.objects q = some m →
      q = old := by
    rintro q m rfl hrow
    by_contra hne
    rw [objectsRow_moved_new hmove (by simp [hnow]) hne] at hrow
    cases hrow
  have hsame : ∀ {q m}, q ≠ old → objectsRow s.shared.objects q = some m →
      objectsRow objects q = some m := by
    intro q m hne hrow
    rw [objectsRow_moved hmove hne fun heq => hne (hvacant heq hrow)]
    exact hrow
  have hfits' : NsThread.Fits ⟨c, .moveXattrs src dst todo, rest⟩ := hfits.to hc
  refine h.rows hth (by rfl) hfits' (inTx_iff rfl) (Keyed.update_eq_some hmove).2 ?_ ?_ ?_
  · intro j t hne hj q hq
    apply objectsRow_moved hmove
    · rintro rfl
      exact h.serial i j _ t hth hj hne.symm _ hchOld hq
    · rintro rfl
      exact h.serial i j _ t hth hj hne.symm _ hchNew hq
  · intro p m hp
    refine hp.step hth rfl rfl ?_ (fun howe => howe.elim) rfl
    intro hrow
    by_cases hpo : p = old
    · subst hpo
      rw [hnow] at hrow
      cases hrow
      exact .of_excuses after_threads_self ⟨hchOld, .inr ⟨rfl, rows, hrows, hold₀⟩⟩
    · exact .inl (hsame hpo hrow)
  · refine ⟨hnodup, ?_⟩
    intro q hq
    obtain ⟨hatq, rows', m', hrows', holdq, hnowq⟩ := htodo q (mem_cons_of_mem old hq)
    refine ⟨hatq, rows', m', hrows', holdq, hsame ?_ hnowq⟩
    rintro rfl
    exact hout hq

/-- One access of a thread keeps the invariant, or leaves an entry stuck. -/
theorem NsInv.access {pc' : NsPc} (hth : s.threads i = some ⟨c, pc, rest⟩)
    (hclean : pc.Clean s) (hstep : NsAccess s.shared pc shared pc') :
    NsInv (s.after shared i (some ⟨c, pc', rest⟩)) ∨
      (s.after shared i (some ⟨c, pc', rest⟩)).Stuck := by
  have hfits := h.fits i _ hth
  have hpc := hfits.pc
  have hok := h.ok i _ hth
  -- a step that only goes on
  have hgoes : ∀ pc'' : NsPc, pc''.Fits c → pc''.Ok s → (∀ q, pc.Owes q → pc''.Owes q) →
      pc''.moving = pc.moving → NsInv (s.after s.shared i (some ⟨c, pc'', rest⟩)) := by
    intro pc'' hfits'' hok'' howes hmoving
    exact h.quiet hth pc'' hfits'' hok'' howes hmoving s.shared.changes
  have hidle : ∀ pc'' : NsPc, pc''.Idle → pc''.Fits c → (∀ q, ¬pc.Owes q) → pc.moving = false →
      NsInv (s.after s.shared i (some ⟨c, pc'', rest⟩)) := by
    intro pc'' hid hfits'' howes hmoving
    exact hgoes pc'' hfits'' (hid.ok s) (fun q hq => absurd hq (howes q))
      (hid.moving.trans hmoving.symm)
  have hret : (∀ q, ¬pc.Owes q) → pc.moving = false →
      NsInv (s.after s.shared i (some ⟨c, .ret, rest⟩)) := hidle _ NsPc.ret_idle trivial
  cases hstep with
  | hit hhit k =>
    exact .inl (hidle _ (k.found_idle _) (NsAfter.Fits.found hpc _) (fun _ h => by cases h) rfl)
  | miss hmiss k => exact .inl (hgoes _ hpc trivial (fun _ h => by cases h) rfl)
  | gen path k => exact .inl (hgoes _ hpc (Nat.le_refl _) (fun _ h => by cases h) rfl)
  | selectRow hrow g k =>
    exact .inl (hgoes _ hpc ⟨hok, fun _ _ => .inl hrow⟩ (fun _ h => by cases h) rfl)
  | selectNone path g k | insertFails path m replace | updateFails path u | deleteFails path
  | beginMoveFails src dst => exact .inl (hret (fun _ h => by cases h) rfl)
  | store path m g k => exact .inl (h.fill hth hclean)
  | replace path m =>
    refine .inl (h.write hth (.put path m) hpc hpc (fun _ h => by cases h) rfl rfl 1
      (h.unique.replace _) ?_ ?_)
    · intro q hne
      rw [Keyed.replace, objectsRow_cons_of_ne _ hne, objectsRow_erase hne]
    · exact fun _ => objectsRow_cons_self _
  | @insert path m objects hfree =>
    obtain ⟨hout, rfl⟩ := Keyed.insert_eq_some.mp hfree
    refine .inl (h.write hth (.put path m) hpc hpc (fun _ h => by cases h) rfl rfl 1
      (h.unique.cons hout) ?_ ?_)
    · exact fun q hne => objectsRow_cons_of_ne _ hne
    · exact fun _ => objectsRow_cons_self _
  | put path m => exact .inl (h.put hth)
  | update path u =>
    cases hany : s.shared.objects.any (u.at path) with
    | true =>
      exact .inl (h.write hth (.changes path true) hpc hpc (fun _ h => by cases h) ⟨rfl, rfl⟩ rfl _
        (run_unique h.unique) (fun q hne => objectsRow_run hne) trivial)
    | false =>
      rw [run_of_not_any hany]
      exact .inl (h.quiet hth (.changes path false) hpc trivial (fun _ h => by cases h) rfl _)
  | changed hchanges path hit => exact .inl (hgoes _ hpc trivial (fun q hq => hq.1) rfl)
  | unchanged hchanges path hit =>
    cases hit with
    | true => exact absurd hchanges (Nat.ne_of_gt hclean)
    | false => exact .inl (hret (fun q hq => by cases hq.2) rfl)
  | delete path =>
    exact .inl (h.write hth (.inval path) hpc hpc (fun _ h => by cases h) rfl rfl _
      (h.unique.erase path) (fun q hne => objectsRow_erase hne) trivial)
  | inval path => exact .inl (h.inval hth)
  | beginMove hclosed src dst =>
    have hfits' : NsThread.Fits ⟨c, .collect src dst, rest⟩ := hfits.to hpc
    refine .inl (h.begin hth (by rfl) hfits' ⟨(fun _ h => by cases h), rfl, fun _ => trivial⟩ hclosed
      (.inr rfl) ?_)
    exact fun s' hsaved q m _ hrow => ⟨_, hsaved, hrow⟩
  | @collect src todo htodo hsome dst =>
    obtain ⟨hnodup, hbelow⟩ := objectsBelow_spec h.unique src
    refine .inl (hgoes _ hpc ⟨htodo.nodup_iff.mpr hnodup, ?_⟩ (fun _ h => by cases h) rfl)
    intro q hq
    obtain ⟨hat, hrow⟩ := hbelow q (htodo.mem_iff.mp hq)
    obtain ⟨m, hm⟩ := Option.ne_none_iff_exists'.mp hrow
    obtain ⟨rows, hrows, hold⟩ := hok q m hat hm
    exact ⟨hat, rows, m, hrows, hold, hm⟩
  | collectFails src dst | moveRowFails src dst todo | moveXattrsFails src dst todo
  | moved src dst => exact .inl (hgoes _ ⟨src, dst, hpc⟩ trivial (fun _ h => by cases h) rfl)
  | moveRow hshort hmove todo => exact .inl (h.move hth hmove _)
  | moveXattrs src dst todo changes =>
    exact .inl (h.quiet hth (.moveRow src dst todo) hpc hok (fun _ h => by cases h) rfl changes)
  | commitMove =>
    obtain ⟨src, dst, hc⟩ := hpc
    have hfits' : NsThread.Fits ⟨c, .clear, rest⟩ := hfits.to trivial
    refine .inl (h.commit hth (by rfl) hfits' (.inr rfl) ?_ (fun _ _ _ => trivial)
      fun _ => trivial)
    exact not_inTx (hfits.alone src dst hc) rfl
  | commitMoveFails =>
    obtain ⟨src, dst, hc⟩ := hpc
    refine .inr ⟨h.owned.opened i ⟨_, hth, .inr rfl⟩, ?_⟩
    intro j hj
    obtain ⟨-, th, hth', hin⟩ | ⟨hne, hj⟩ := tx_after.mp hj
    · cases hth'
      exact not_inTx (hfits.alone src dst hc) rfl hin
    · exact hne (h.owned.owner j i hj ⟨_, hth, .inr rfl⟩)
  | rollbackMove =>
    obtain ⟨src, dst, hc⟩ := hpc
    have hfits' : NsThread.Fits ⟨c, .ret, rest⟩ := hfits.to trivial
    refine .inl (h.undo hth (by rfl) hfits' (.inr rfl) ?_ hclean (fun _ h => by cases h) fun _ => trivial)
    exact not_inTx (hfits.alone src dst hc) rfl
  | clear => exact .inl (h.clear hth)

end

theorem NsAccess.outside {sh sh' : NsShared} {pc' : NsPc} (h : NsAccess sh pc sh' pc')
    (hmoving : pc.moving = false) (hopen : sh.saved ≠ none) :
    sh'.saved = sh.saved ∧ pc'.moving = false := by
  cases h with
  | hit hhit k => exact ⟨rfl, (k.found_idle _).moving⟩
  | store path m g k => exact ⟨rfl, (k.found_idle m).moving⟩
  | beginMove hclosed => exact absurd hclosed hopen
  | _ => first | exact ⟨rfl, rfl⟩ | cases hmoving

theorem NsState.Stuck.after (h : s.Stuck) (hsaved : shared.saved = s.shared.saved)
    (hy : ∀ th, y = some th → ¬th.InTx) : (s.after shared i y).Stuck := by
  refine ⟨fun hnone => h.1 (hsaved.symm.trans hnone), ?_⟩
  intro j hj
  obtain ⟨-, th, hth, hin⟩ | ⟨-, hj⟩ := tx_after.mp hj
  · exact hy th hth hin
  · exact h.2 j hj

/-! ## Steps -/

/-- A thread begins a call. -/
theorem NsInv.call (h : NsInv s) (hold : ∀ th, s.threads i = some th → th.pc = .ret)
    (htx : ¬s.Tx i) (hy : ∀ th, y = some th → th.Fits ∧ th.pc.Idle ∧ ¬th.InTx ∧
      ∀ j t, j ≠ i → s.threads j = some t → ∀ q, th.call.Changes q → ¬t.call.Changes q) :
    NsInv (s.after s.shared i y) := by
  have hgood : ∀ p m, s.Good p m → (s.after s.shared i y).Good p m := by
    intro p m hp
    refine hp.after .inl ?_ fun _ _ _ _ hex => hex
    rintro t ht ⟨-, hex⟩
    rw [hold t ht] at hex
    obtain howe | ⟨hm, -⟩ := hex
    · exact howe.elim
    · cases hm
  refine ⟨h.unique, h.savedUnique, h.placed, h.owned.keep rfl ?_, ?_, ?_, ?_,
    fun p m hhas => hgood p m (h.cached p m hhas)⟩
  · constructor
    · rintro ⟨th, hth, hin⟩
      exact absurd hin (hy th hth).2.2.1
    · exact fun hin => absurd hin htx
  · intro j k tj tk hj hk hne q hq hq'
    obtain ⟨rfl, hyj⟩ | ⟨hji, hsj⟩ := of_update_eq_some hj
    · obtain ⟨rfl, -⟩ | ⟨hki, hsk⟩ := of_update_eq_some hk
      · exact hne rfl
      · exact (hy tj hyj).2.2.2 k tk hki hsk q hq hq'
    · obtain ⟨rfl, hyk⟩ | ⟨-, hsk⟩ := of_update_eq_some hk
      · exact (hy tk hyk).2.2.2 j tj hji hsj q hq' hq
      · exact h.serial j k tj tk hsj hsk hne q hq hq'
  · exact forall_after (fun th hth => (hy th hth).1) fun j t _ hj => h.fits j t hj
  · refine forall_after (fun th hth => (hy th hth).2.1.ok _) ?_
    intro j t _ hj
    exact (h.ok j t hj).frame (h.fits j t hj) (Nat.le_refl _) (fun _ p m _ => hgood p m)
      (fun _ _ => rfl) fun _ => rfl

end

/-! ## Runs -/

variable [DecidableEq ι] {s s' : NsState ι} {a : NsAct ι}

/-- **One step** -/
theorem NsInv.step (h : NsInv s) (hstep : NsCleanStep s a s') : NsInv s' ∨ s'.Stuck := by
  obtain ⟨hstep, hclean⟩ := hstep
  cases hstep with
  | @call i c hfree hserial =>
    refine .inl (h.call (by simp [hfree]) (by simp [NsState.Tx, hfree]) ?_)
    rintro th ⟨⟩
    refine ⟨⟨c.start_fits, nofun, fun _ _ _ => rfl⟩, c.start_idle, not_inTx rfl c.start_idle.moving,
      ?_⟩
    exact fun j t _ hj q hq => hserial j t hj q hq
  | @access i th shared pc hth haccess =>
    obtain ⟨c, pc₀, rest⟩ := th
    exact h.access hth (hclean _ hth) haccess
  | finish hth =>
    refine .inl (h.call (y := none) ?_ ?_ ?_)
    · intro t ht
      rw [hth] at ht
      rw [← Option.some.inj ht]
    · rintro ⟨t, ht, hin⟩
      rw [hth] at ht
      cases ht
      exact not_inTx rfl rfl hin
    · intro t ht
      cases ht
  | @begin i body hth hclosed =>
    have hfits := h.fits i _ hth
    have hfits' : NsThread.Fits ⟨.transaction body, .ret, some body⟩ := by
      refine ⟨trivial, ?_, nofun⟩
      rintro _ ⟨⟩ o ho q hq
      exact ⟨o, ho, hq⟩
    exact .inl (h.begin hth (by rfl) hfits' ⟨nofun, rfl, fun _ => trivial⟩ hclosed (.inl rfl)
      fun _ _ => trivial)
  | @beginFails i body hth =>
    exact .inl (h.quiet hth .ret trivial trivial nofun rfl s.shared.changes)
  | @next i c o rest hth =>
    have hfits := h.fits i _ hth
    have hfits' : NsThread.Fits ⟨c, o.start, some rest⟩ := by
      refine ⟨NsOp.start_fits (hfits.rest _ rfl o mem_cons_self), ?_, ?_⟩
      · rintro _ ⟨⟩ o' ho'
        exact hfits.rest _ rfl o' (mem_cons_of_mem o ho')
      · intro src dst hc
        cases hfits.alone src dst hc
    refine .inl (h.rows hth (by rfl) hfits' ⟨fun _ => .inl rfl, fun _ => .inl rfl⟩ h.unique
      (fun _ _ _ _ _ _ => rfl) ?_ (o.start_idle.ok _))
    exact fun p m hp => hp.step hth rfl rfl .inl (fun howe => howe.elim) o.start_idle.moving
  | done hth => exact .inl (h.quiet hth .commit trivial trivial nofun rfl s.shared.changes)
  | giveUp hth => exact .inl (h.quiet hth .rollback trivial trivial nofun rfl s.shared.changes)
  | @commit i c rest hth =>
    have hfits' : NsThread.Fits ⟨c, .ret, none⟩ := ⟨trivial, nofun, fun _ _ _ => rfl⟩
    exact .inl (h.commit hth (by rfl) hfits' (.inl rfl) (not_inTx rfl rfl)
      (fun p m hex => by obtain ⟨-, howe | ⟨hm, -⟩⟩ := hex; exacts [howe, nomatch hm]) fun _ => trivial)
  | commitFails hth =>
    exact .inl (h.quiet hth .rollback trivial trivial nofun rfl s.shared.changes)
  | @rollback i c rest hth =>
    have hfits' : NsThread.Fits ⟨c, .ret, none⟩ := ⟨trivial, nofun, fun _ _ _ => rfl⟩
    exact .inl (h.undo hth (by rfl) hfits' (.inl rfl) (not_inTx rfl rfl) (hclean _ hth) nofun
      fun _ => trivial)
  | @undo i c hth =>
    have hfits' : NsThread.Fits ⟨c, .ret, none⟩ := ⟨trivial, nofun, fun _ _ _ => rfl⟩
    exact .inl (h.undo hth (by rfl) hfits' (.inr rfl) (not_inTx rfl rfl) hclean nofun
      fun _ => trivial)
  | other changes =>
    exact .inl ⟨h.unique, h.savedUnique, h.placed, ⟨h.owned.opened, h.owned.owner, h.owned.held⟩,
      h.serial, h.fits, h.ok, h.cached⟩

/-- An entry that is stuck stays so. -/
theorem NsState.Stuck.step (h : s.Stuck) (hstep : NsStepTo s a s') : s'.Stuck := by
  have hnot : ∀ {i th}, s.threads i = some th → ¬th.InTx := fun hth hin => h.2 _ ⟨_, hth, hin⟩
  cases hstep with
  | @call i c hfree hserial =>
    refine h.after rfl ?_
    rintro th ⟨⟩
    exact not_inTx rfl c.start_idle.moving
  | @access i th shared pc hth haccess =>
    have hmoving : th.pc.moving = false := by
      by_contra hm
      exact hnot hth (.inr (by simpa using hm))
    obtain ⟨hsaved, hmoving'⟩ := haccess.outside hmoving h.1
    refine h.after hsaved ?_
    rintro _ ⟨⟩ (hin | hin)
    · exact hnot hth (.inl hin)
    · rw [hmoving'] at hin
      cases hin
  | finish hth =>
    refine h.after (y := none) rfl ?_
    intro t ht
    cases ht
  | begin hth hclosed => exact absurd hclosed h.1
  | beginFails hth =>
    refine h.after rfl ?_
    rintro _ ⟨⟩
    exact not_inTx rfl rfl
  | next hth | done hth | giveUp hth | commit hth | commitFails hth | rollback hth =>
    exact absurd (.inl rfl) (hnot hth)
  | undo hth => exact absurd (.inr rfl) (hnot hth)
  | other changes => exact h

omit [DecidableEq ι] in
theorem NsInv.init (h : Keyed.Unique CatRow.path objects) : NsInv (NsState.init ι objects) := by
  have hidle : ∀ i, ¬(NsState.init ι objects).Tx i := by
    rintro i ⟨th, hth, -⟩
    cases hth
  refine ⟨h, ?_, ?_, ⟨fun i hi => absurd hi (hidle i), fun i _ hi => absurd hi (hidle i), ?_⟩, ?_,
    ?_, ?_, ?_⟩
  · intro rows hrows
    cases hrows
  · intro b e he
    cases he
  · intro hopen
    exact absurd rfl hopen
  · intro i j th th' hth
    cases hth
  · intro i th hth
    cases hth
  · intro i th hth
    cases hth
  · rintro p m ⟨b, hb⟩
    cases hb

def NsState.solo (shared : NsShared) (th : Option NsThread) : NsState Unit := ⟨shared, fun _ => th⟩

theorem NsStepTo.solo {s : NsState Unit} {a : NsAct Unit} {shared : NsShared}
    {threads : Unit → Option NsThread} {y : Option NsThread}
    (h : NsStepTo s a ⟨shared, Function.update threads () y⟩) :
    NsStepTo s a (NsState.solo shared y) := by
  have hone : Function.update threads () y = fun _ => y :=
    funext fun _ => Function.update_self _ _ _
  rwa [hone] at h

theorem NsAccess.solo {shared shared' : NsShared} {pc' : NsPc}
    (h : NsAccess shared pc shared' pc') :
    NsStepTo (NsState.solo shared (some ⟨c, pc, rest⟩)) (.run ())
      (NsState.solo shared' (some ⟨c, pc', rest⟩)) :=
  .solo (@NsStepTo.access _ _ _ _ ⟨c, pc, rest⟩ _ _ rfl h)

theorem NsStepTo.solo_call (c : CacheCall) (shared : NsShared) :
    NsStepTo (NsState.solo shared none) (.call () c)
      (NsState.solo shared (some ⟨c, c.start, none⟩)) := by
  refine .solo (.call rfl ?_)
  intro j th hth
  cases hth

theorem NsStepTo.solo_next (c : CacheCall) (o : NsOp) (os : List NsOp) (shared : NsShared) :
    NsStepTo (NsState.solo shared (some ⟨c, .ret, some (o :: os)⟩)) (.run ())
      (NsState.solo shared (some ⟨c, o.start, some os⟩)) := .solo (.next rfl)

def emptyFile : CatMeta := ⟨false, [], 0, 0, 0, 0, 0, 0, 0, []⟩

theorem put_steps (c : CacheCall) (rest : Option (List NsOp)) (saved : Option (List CatRow)) :
    ∃ shared : NsShared, shared.saved = saved ∧ shared.cache.get [47, 97] = some emptyFile ∧
      Run NsCleanStep
        (NsState.solo ⟨[], saved, 0, fun _ => none, 0⟩
          (some ⟨c, .insert [47, 97] emptyFile true, rest⟩))
        [.run (), .run ()] (NsState.solo shared (some ⟨c, .ret, rest⟩)) := by
  let row : CatRow := ⟨[47, 97], parentOf 1024 [47, 97], emptyFile⟩
  let shared : NsShared := ⟨[row], saved, 1, fun _ => none, 0⟩
  have hrow : NsStepTo (NsState.solo ⟨[], saved, 0, fun _ => none, 0⟩
      (some ⟨c, .insert [47, 97] emptyFile true, rest⟩)) (.run ())
      (NsState.solo shared (some ⟨c, .put [47, 97] emptyFile, rest⟩)) :=
    NsAccess.solo (.replace _ [47, 97] emptyFile)
  have hput : NsStepTo (NsState.solo shared (some ⟨c, .put [47, 97] emptyFile, rest⟩)) (.run ())
      (NsState.solo { shared with cache := shared.cache.put [47, 97] emptyFile }
        (some ⟨c, .ret, rest⟩)) :=
    NsAccess.solo (.put shared [47, 97] emptyFile)
  refine ⟨{ shared with cache := shared.cache.put [47, 97] emptyFile }, rfl,
    Nscache.get_put (by decide), .cons ⟨hrow, ?_⟩ (.one ⟨hput, ?_⟩)⟩
  · rintro _ ⟨⟩
    trivial
  · rintro _ ⟨⟩
    trivial

end BrixCache

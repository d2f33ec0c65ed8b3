import BrixCache.Cvmfs.Publish
import BrixCache.Lib.Mounts

/-!
# What the operations of a catalog do to its rows

Deleting a subtree takes rows at and below a path alone. Copying a subtree writes the rows below a
path of one catalog into another (`Copied`).
-/

namespace BrixCache.Publish

open Mounts List

variable {c dst dst' rd : Catalog} {p q : Path} {r r' : Row}

/-- The primary keys of the three tables -/
structure Catalog.Keys (c : Catalog) : Prop where
  rows : Keyed.Unique Row.path c.rows
  chunks : Keyed.Unique Chunk.key c.chunks
  nested : Keyed.Unique Prod.fst c.nested

theorem Catalog.Keys.row (hk : c.Keys) : c.row p = some r ↔ r ∈ c.rows ∧ r.path = p :=
  Keyed.find_eq_some hk.rows

theorem Catalog.Keys.eq (hk : c.Keys) (h : r ∈ c.rows) (h' : r' ∈ c.rows)
    (hp : r.path = r'.path) : r = r' := inj_on_of_nodup_map hk.rows h h' hp

theorem Catalog.row_eq_none : c.row p = none ↔ ∀ r ∈ c.rows, r.path ≠ p := Keyed.find_eq_none

@[simp] theorem Row.path_stored (r : Row) : r.stored.path = r.path := rfl

@[simp] theorem Row.path_dirent (r : Row) : r.dirent.path = r.path := rfl

theorem Catalog.Keys.upsert (hk : c.Keys) (r : Row) : (c.upsert r).Keys :=
  ⟨hk.rows.replace _, hk.chunks, hk.nested⟩

theorem Catalog.Keys.setNested (hk : c.Keys) (p : Path) (n : Catalog) : (c.setNested p n).Keys :=
  ⟨hk.rows, hk.chunks, hk.nested.replace _⟩

/-! ## Copying -/

def Row.copied (r : Row) : Row :=
  { r.dirent with xattr := if r.xattr.length ≤ dtXattrCap then r.xattr else [] }

@[simp] theorem Row.path_copied (r : Row) : r.copied.path = r.path := rfl

@[simp] theorem Row.isDir_dirent (r : Row) : r.dirent.isDir = r.isDir := rfl

@[simp] theorem Row.isMount_dirent (r : Row) : r.dirent.isMount = r.isMount := rfl

@[simp] theorem Row.isChunked_dirent (r : Row) : r.dirent.isChunked = r.isChunked := rfl

@[simp] theorem Row.isFile_dirent (r : Row) : r.dirent.isFile = r.isFile := rfl

theorem Row.stored_copied (r : Row) : r.copied.stored = r.copied := by
  simp only [Row.stored, Row.copied, Row.dirent]
  split <;> simp

/-- The rows of one catalog whose paths are in a set are copied into another. -/
structure Copied (rd : Catalog) (S : Path → Prop) (dst dst' : Catalog) : Prop where
  row : ∀ r, S r.path → rd.row r.path = some r → dst'.row r.path = some r.copied
  other : ∀ q, (S q → rd.row q = none) → dst'.row q = dst.row q
  chunks : ∀ ch, ch ∈ dst'.chunks ↔ ch ∈ dst.chunks ∨
    ch ∈ rd.chunks ∧ S ch.path ∧ (rd.row ch.path).any Row.isChunked = true
  nested : dst'.nested = dst.nested
  keys : dst.Keys → dst'.Keys

theorem Copied.refl (rd dst : Catalog) : Copied rd (fun _ => False) dst dst :=
  ⟨fun _ h => h.elim, fun _ _ => rfl, by simp, rfl, id⟩

theorem Copied.congr {S T : Path → Prop} (h : Copied rd S dst dst')
    (hST : ∀ q, (rd.row q).isSome = true → (S q ↔ T q)) : Copied rd T dst dst' where
  row := fun r ht hr => h.row r ((hST _ (by simp [hr])).mpr ht) hr
  other := fun q hq => h.other q fun hs => by
    by_contra hne
    exact hne (hq ((hST q (Option.isSome_iff_ne_none.mpr hne)).mp hs))
  chunks := fun ch => by
    rw [h.chunks]
    refine or_congr Iff.rfl (and_congr Iff.rfl (and_congr_left fun hany => hST _ ?_))
    cases hrow : rd.row ch.path with
    | none => simp [hrow] at hany
    | some r => rfl
  nested := h.nested
  keys := h.keys

theorem Copied.trans {S T : Path → Prop} {mid : Catalog} (h : Copied rd S dst mid)
    (h' : Copied rd T mid dst') : Copied rd (fun q => S q ∨ T q) dst dst' where
  row := fun r hst hr => by
    by_cases ht : T r.path
    · exact h'.row r ht hr
    · rw [h'.other r.path fun ht' => absurd ht' ht]
      exact h.row r (hst.resolve_right ht) hr
  other := fun q hq => by
    rw [h'.other q fun ht => hq (.inr ht), h.other q fun hs => hq (.inl hs)]
  chunks := fun ch => by
    rw [h'.chunks, h.chunks, or_assoc, ← and_or_left, ← or_and_right]
  nested := h'.nested.trans h.nested
  keys := fun hkd => h'.keys (h.keys hkd)

theorem row_upsert : (c.upsert r).row q = if q = r.path then some r.stored else c.row q := by
  rw [Catalog.row, Catalog.upsert, Keyed.replace]
  by_cases he : q = r.path
  · rw [if_pos he, he]
    exact Keyed.find_cons_self
  · rw [if_neg he]
    have hne : r.stored.path ≠ q := Ne.symm he
    exact (Keyed.find_cons_of_ne hne).trans (Keyed.find_erase_of_ne he)

theorem foldlM_addChunk {chs : List Chunk} (h : chs.foldlM Catalog.addChunk dst = some dst') :
    dst'.rows = dst.rows ∧ dst'.nested = dst.nested ∧
      (∀ ch, ch ∈ dst'.chunks ↔ ch ∈ dst.chunks ∨ ch ∈ chs) ∧ (dst.Keys → dst'.Keys) := by
  induction chs generalizing dst with
  | nil =>
    cases h
    simp
  | cons x chs ih =>
    rw [foldlM_cons] at h
    obtain ⟨mid, hmid, h⟩ := Option.bind_eq_some_iff.mp h
    obtain ⟨chunks, hins, rfl⟩ := Option.map_eq_some_iff.mp hmid
    obtain ⟨hfree, rfl⟩ := Keyed.insert_eq_some.mp hins
    obtain ⟨hrows, hnested, hchunks, hkeys⟩ := ih h
    refine ⟨hrows, hnested, fun ch => ?_, fun hk => hkeys ⟨hk.rows, hk.chunks.cons hfree, hk.nested⟩⟩
    rw [hchunks, mem_cons, mem_cons, or_comm (a := ch = x), or_assoc]

theorem copied_eq (hr : rd.row r.path = some r) :
    { r.dirent with path := r.path, xattr := rd.xattr r.path dtXattrCap } = r.copied := by
  simp only [Catalog.xattr, hr, Row.copied]
  rfl

theorem dtCopyEntry_copied (hr : rd.row r.path = some r)
    (h : dtCopyEntry rd r.path dst r.dirent = some dst') : Copied rd (· = r.path) dst dst' := by
  rw [dtCopyEntry] at h
  split at h
  · cases h
  · rw [copied_eq hr] at h
    dsimp only at h
    have hrow : ∀ q, (dst.upsert r.copied).row q = if q = r.path then some r.copied else dst.row q :=
      fun q => by rw [row_upsert, Row.stored_copied, Row.path_copied]
    have hfirst : ∀ r', r'.path = r.path → rd.row r'.path = some r' → r' = r := fun r' hp hr' => by
      rw [hp, hr] at hr'
      exact (Option.some.inj hr').symm
    split at h
    · next hchunked =>
      obtain ⟨hrows, hnested, hchunks, hkeys⟩ := foldlM_addChunk h
      refine ⟨fun r' hp hr' => ?_, fun q hq => ?_, fun ch => ?_, hnested, fun hk =>
        hkeys (hk.upsert _)⟩
      · obtain rfl := hfirst r' hp hr'
        rw [Catalog.row, hrows]
        exact (hrow _).trans (if_pos rfl)
      · have hne : q ≠ r.path := fun he => by
          rw [he, hr] at hq
          cases hq rfl
        rw [Catalog.row, hrows]
        exact (hrow q).trans (if_neg hne)
      · rw [hchunks]
        have hflag : (Option.any Row.isChunked (some r)) = true := hchunked
        simp only [Catalog.chunksOf, mem_mergeSort, mem_filter, decide_eq_true_eq]
        refine or_congr Iff.rfl (and_congr Iff.rfl ⟨fun he => ⟨he, ?_⟩, And.left⟩)
        rw [he, hr, hflag]
    · next hchunked =>
      cases h
      refine ⟨fun r' hp hr' => ?_, fun q hq => ?_, fun ch => ?_, rfl, fun hk => hk.upsert _⟩
      · obtain rfl := hfirst r' hp hr'
        rw [hrow, if_pos rfl]
      · rw [hrow, if_neg]
        intro he
        rw [he, hr] at hq
        cases hq rfl
      · have hno : ¬(ch.path = r.path ∧ (rd.row ch.path).any Row.isChunked = true) := by
          rintro ⟨he, hany⟩
          rw [he, hr] at hany
          exact hchunked hany
        constructor
        · exact .inl
        · rintro (hch | ⟨-, hand⟩)
          · exact hch
          · exact absurd hand hno

/-- Below a path the rows have their keys, and what is above a row is a directory and no mount
point. -/
structure Catalog.PlainBelow (c : Catalog) (p : Path) : Prop where
  keys : c.Keys
  parent : ∀ r ∈ c.rows, Under p r.path → r.path.dropLast = p ∨
    ∃ d ∈ c.rows, d.path = r.path.dropLast ∧ d.isDir = true ∧ d.isMount = false

namespace Catalog.PlainBelow

theorem mono (h : c.PlainBelow p) (hpq : p <+: q) : c.PlainBelow q where
  keys := h.keys
  parent := fun r hr hu => by
    rcases h.parent r hr (Under.prefix_trans hpq hu) with hp | hd
    · refine .inl ?_
      have hq : q <+: r.path.dropLast := by
        have hne : r.path ≠ [] := fun he => not_under_nil (he ▸ hu)
        rw [← dropLast_concat_getLast hne] at hu
        exact under_snoc_iff.mp hu
      rw [hp] at hq ⊢
      exact hpq.eq_of_length_le hq.length_le
    · exact .inr hd

theorem between (h : c.PlainBelow p) (hr : r ∈ c.rows) (hp : Under p q) (hu : Under q r.path) :
    ∃ d ∈ c.rows, d.path = q ∧ d.isDir = true ∧ d.isMount = false := by
  induction hlen : r.path.length generalizing r with
  | zero => exact absurd hu.length (by omega)
  | succ n ih =>
    have hne : r.path ≠ [] := fun he => not_under_nil (he ▸ hu)
    have hpre : q <+: r.path.dropLast := by
      rw [← dropLast_concat_getLast hne] at hu
      exact under_snoc_iff.mp hu
    rcases h.parent r hr (hp.mono hu.1) with hpath | ⟨d, hd, hpath, hdir, hmount⟩
    · have := hp.length
      have := hpre.length_le
      rw [hpath] at this
      omega
    · by_cases he : q = d.path
      · exact ⟨d, hd, he.symm, hdir, hmount⟩
      · exact ih hd ⟨hpath ▸ hpre, he⟩ (by rw [hpath, length_dropLast]; omega)

end Catalog.PlainBelow

theorem mem_readdir {e : Row} : e ∈ c.readdir p ↔
    ∃ r ∈ c.rows, e = r.dirent ∧ r.path = p ++ [r.path.getLastD []] := by
  simp only [Catalog.readdir, mem_map, mem_filter, decide_eq_true_eq]
  constructor
  · rintro ⟨r, ⟨hr, hne, hp⟩, rfl⟩
    refine ⟨r, hr, rfl, ?_⟩
    rw [← hp, getLastD_eq_getLast?, getLast?_eq_getLast_of_ne_nil hne, Option.getD_some,
      dropLast_concat_getLast]
  · rintro ⟨r, hr, rfl, hp⟩
    refine ⟨r, ⟨hr, ?_, ?_⟩, rfl⟩ <;> rw [hp] <;> simp

/-- A subtree is copied row by row. -/
theorem dtCopySubtree_copied {levels : ℕ} (hrd : rd.PlainBelow p)
    (h : dtCopySubtree rd levels p dst = some dst') : Copied rd (Under p) dst dst' := by
  induction levels generalizing p dst dst' with
  | zero => cases h
  | succ levels ih =>
    have hfold : ∀ (es : List Row) (dst dst' : Catalog), (∀ e ∈ es, e ∈ rd.readdir p) →
        es.foldlM (fun dst e =>
          let sub := p ++ [e.path.getLastD []]
          (dtCopyEntry rd sub dst e).bind fun dst =>
            if e.isDir ∧ ¬e.isMount then dtCopySubtree rd levels sub dst else some dst) dst =
          some dst' → Copied rd (fun q => ∃ e ∈ es, e.path <+: q) dst dst' := by
      intro es
      induction es with
      | nil =>
        intro dst dst' _ h
        cases h
        exact (Copied.refl rd dst).congr fun q _ => by simp
      | cons e es ihe =>
        intro dst dst' hes h
        rw [foldlM_cons] at h
        obtain ⟨mid, hmid, hrest⟩ := Option.bind_eq_some_iff.mp h
        obtain ⟨r, hr, rfl, hpath⟩ := mem_readdir.mp (hes e mem_cons_self)
        have hrow : rd.row r.path = some r := hrd.keys.row.mpr ⟨hr, rfl⟩
        dsimp only [Row.path_dirent] at hmid
        rw [← hpath] at hmid
        obtain ⟨one, hone, hbelow⟩ := Option.bind_eq_some_iff.mp hmid
        have hcone := dtCopyEntry_copied hrow hone
        have hunder : Under p r.path := by
          rw [hpath]
          exact under_snoc _ _
        -- an entry that is not entered has nothing below it
        have hhead : Copied rd (fun q => r.path <+: q) dst mid := by
          split at hbelow
          · refine (hcone.trans (ih (hrd.mono hunder.1) hbelow)).congr fun q _ => ?_
            constructor
            · rintro (he | hu)
              · exact he ▸ prefix_refl _
              · exact hu.1
            · intro hpre
              by_cases he : q = r.path
              · exact .inl he
              · exact .inr ⟨hpre, fun he' => he he'.symm⟩
          · next hplain =>
            cases hbelow
            refine hcone.congr fun q hq => ⟨fun he => he ▸ prefix_refl _, fun hpre => ?_⟩
            by_contra he
            obtain ⟨r', hr'⟩ := Option.isSome_iff_exists.mp hq
            obtain ⟨hmem, rfl⟩ := hrd.keys.row.mp hr'
            obtain ⟨d, hd, hdp, hdir, hmount⟩ :=
              hrd.between hmem hunder ⟨hpre, fun he' => he he'.symm⟩
            obtain rfl := hrd.keys.eq hd hr hdp
            exact hplain ⟨hdir, by simp [hmount]⟩
        refine (hhead.trans (ihe mid dst' (fun e he => hes e (mem_cons_of_mem _ he))
          hrest)).congr fun q _ => ?_
        simp
    refine (hfold _ dst dst' (fun _ he => he) h).congr fun q hq => ?_
    obtain ⟨r, hr⟩ := Option.isSome_iff_exists.mp hq
    obtain ⟨hmem, rfl⟩ := hrd.keys.row.mp hr
    constructor
    · rintro ⟨e, he, hpre⟩
      obtain ⟨r', -, rfl, hpath⟩ := mem_readdir.mp he
      rw [Row.path_dirent, hpath] at hpre
      exact (under_snoc p _).mono hpre
    · intro hu
      obtain ⟨name, hpre⟩ := exists_child_of_under hu
      by_cases he : p ++ [name] = r.path
      · exact ⟨r.dirent, mem_readdir.mpr ⟨r, hmem, rfl, by rw [← he]; simp⟩, prefix_refl _⟩
      · obtain ⟨d, hd, hdp, -⟩ := hrd.between hmem (under_snoc p name) ⟨hpre, he⟩
        refine ⟨d.dirent, mem_readdir.mpr ⟨d, hd, rfl, by rw [hdp]; simp⟩, ?_⟩
        rw [Row.path_dirent, hdp]
        exact hpre

end BrixCache.Publish

/-!
## The tree of catalogs

A catalog holds the rows below its mount point that no catalog below it holds, and with them the
mount points of those (`Catalog.Layer`). `EachCatalog` speaks of a whole tree.
-/

namespace BrixCache.Publish

open Mounts

variable {c : Catalog} {m p q : Path} {r : Row}

/-! ### Every catalog of a tree -/

/-- A property of a catalog with its mount point holds of every catalog of a tree. -/
inductive EachCatalog (Q : Path → Catalog → Prop) : Path → Catalog → Prop
  | mk {m : Path} {c : Catalog} :
      Q m c → (∀ n ∈ c.nested, EachCatalog Q n.1 n.2) → EachCatalog Q m c

namespace EachCatalog

variable {Q Q' : Path → Catalog → Prop}

theorem here (h : EachCatalog Q m c) : Q m c := by
  cases h with
  | mk hc _ => exact hc

theorem children (h : EachCatalog Q m c) : ∀ n ∈ c.nested, EachCatalog Q n.1 n.2 := by
  cases h with
  | mk _ hn => exact hn

theorem imp (h : EachCatalog Q m c) (himp : ∀ m c, Q m c → Q' m c) : EachCatalog Q' m c := by
  induction h with
  | mk hc _ ih => exact .mk (himp _ _ hc) ih

theorem and (h : EachCatalog Q m c) (h' : EachCatalog Q' m c) :
    EachCatalog (fun m c => Q m c ∧ Q' m c) m c := by
  induction h with
  | mk hc _ ih => exact .mk ⟨hc, h'.here⟩ fun n hn => ih n hn (h'.children n hn)

end EachCatalog

/-! ### One catalog of a well-formed tree -/

/-- A catalog mounted at `m`: its rows have their keys and their parents, which are directories and
no mount points, its chunks are those of chunked files, and it names a catalog for each of its mount
points and for nothing else. -/
structure Catalog.Layer (m : Path) (c : Catalog) : Prop where
  keys : c.Keys
  root : ∃ r ∈ c.rows, r.path = m ∧ r.isDir = true
  within : ∀ r ∈ c.rows, m <+: r.path
  parent : ∀ r ∈ c.rows, Under m r.path → ∃ d ∈ c.rows,
    d.path = r.path.dropLast ∧ d.isDir = true ∧ (Under m d.path → d.isMount = false)
  chunk : ∀ ch ∈ c.chunks, ∃ r ∈ c.rows, r.path = ch.path ∧ r.isChunked = true
  dir : ∀ r ∈ c.rows, r.isMount = true → r.isDir = true
  mount : ∀ r ∈ c.rows, Under m r.path → r.isMount = true → ∃ n ∈ c.nested, n.1 = r.path
  nested : ∀ n ∈ c.nested, Under m n.1 ∧ ∃ r ∈ c.rows, r.path = n.1 ∧ r.isMount = true

namespace Catalog.Layer

theorem plainBelow (h : c.Layer m) (hp : m <+: p) : c.PlainBelow p where
  keys := h.keys
  parent := fun r hr hu => by
    obtain ⟨d, hd, hpath, hdir, hmount⟩ := h.parent r hr (Under.prefix_trans hp hu)
    by_cases he : r.path.dropLast = p
    · exact .inl he
    · refine .inr ⟨d, hd, hpath, hdir, hmount ?_⟩
      have hne : r.path ≠ [] := fun he => not_under_nil (he ▸ hu)
      rw [← List.dropLast_concat_getLast hne] at hu
      rw [hpath]
      exact Under.prefix_trans hp ⟨under_snoc_iff.mp hu, fun he' => he he'.symm⟩

theorem between (h : c.Layer m) (hr : r ∈ c.rows) (hp : Under m p) (hu : Under p r.path) :
    ∃ d ∈ c.rows, d.path = p ∧ d.isDir = true ∧ d.isMount = false :=
  (h.plainBelow (List.prefix_refl m)).between hr hp hu

theorem apart (h : c.Layer m) {n n' : Path × Catalog} (hn : n ∈ c.nested) (hn' : n' ∈ c.nested) :
    ¬Under n'.1 n.1 := by
  intro hu
  obtain ⟨-, r, hr, hpath, -⟩ := h.nested n hn
  obtain ⟨hbelow, r', hr', hpath', hmount⟩ := h.nested n' hn'
  obtain ⟨d, hd, hdp, -, hnot⟩ := h.between hr hbelow (hpath ▸ hu)
  rw [h.keys.eq hd hr' (hdp.trans hpath'.symm), hmount] at hnot
  cases hnot

end Catalog.Layer

/-! ### Counters -/

def Catalog.selfSum (c : Catalog) (k : Counter) : ℤ :=
  c.self k + (c.nested.attach.map fun n => n.1.2.selfSum k).sum
termination_by sizeOf c
decreasing_by
  obtain ⟨⟨p, n⟩, hn⟩ := n
  have hlt := List.sizeOf_lt_of_mem hn
  cases c
  simp only [Prod.mk.sizeOf_spec, Catalog.mk.sizeOf_spec] at hlt ⊢
  omega

theorem Catalog.selfSum_eq (c : Catalog) (k : Counter) :
    c.selfSum k = c.self k + (c.nested.map fun n => n.2.selfSum k).sum := by
  rw [Catalog.selfSum]
  have hval := List.attach_map_val (l := c.nested) (f := fun n : Path × Catalog => n.2.selfSum k)
  rw [hval]

/-- The counters `self_*` count the catalog's own rows, and the counters `subtree_*` are the sum of
these over the catalogs below it. -/
def Catalog.Counted (c : Catalog) : Prop :=
  c.self = c.count ∧ ∀ k, c.subtree k = (c.nested.map fun n => n.2.selfSum k).sum

theorem Catalog.Counted.casTotals (h : c.Counted) (k : Counter) : pcCasTotals c k = c.selfSum k := by
  rw [pcCasTotals, h.2, selfSum_eq]

end BrixCache.Publish

import BrixCache.Pblock.Pack

/-!
# Runs over the arena

Blobs are made, written while a staged or a write handle is open on them, admitted
to the arena, materialised by the opens that mean to write, and dropped; an
admission, a materialisation or a drop ends wherever it is stopped. The bytes of a
blob are what its writes made of them.
-/

namespace BrixCache

open Function List

/-- The store, the blobs in it, and those a staged or write handle is open on. -/
structure ArenaState : Type where
  store : PblockStore
  objs : BlobId → Option PackObj
  writable : BlobId → Bool

/-- The calls on a store with packed records -/
inductive ArenaCall : Type where
  | create : BlobId → ℕ+ → ArenaCall
  /-- `pblock_write_blocks`, of which so many bytes get through -/
  | write : BlobId → List UInt8 → ℕ → ℕ → ArenaCall
  | packAdmit : BlobId → PackFaults → ArenaCall
  /-- `pblock_pack_materialize`, stopped or not -/
  | materialize : BlobId → PackFaults → ArenaCall
  /-- a write open: `pblock_pack_materialize` returned 0 -/
  | openWrite : BlobId → PackFaults → ArenaCall
  /-- `refs_remove` -/
  | remove : BlobId → PackFaults → ArenaCall

namespace ArenaState

/-- An armed export with nothing in it. -/
def fresh : ArenaState := ⟨⟨fun _ _ => none, [], []⟩, fun _ => none, fun _ => false⟩

/-- The blob has a row in the `pack` table. -/
def Packed (s : ArenaState) (blob : BlobId) : Prop := Mru.find s.store.pack blob ≠ none

def write (s : ArenaState) (blob : BlobId) (o : PackObj) (data : List UInt8) (off : ℕ) : ArenaState :=
  { s with
    store := s.store.setBlocks blob (pblockWriteBlocks (s.store.blocks blob) o.bs data off)
    objs := update s.objs blob (some { o with bytes := File.pwrite 0 o.bytes off data }) }

end ArenaState

open Proc

/-- `refs_remove` -/
def pblockRefsRemove (io : PackFaults) (blob : BlobId) (size : ℕ) (bs : ℕ+) :
    Proc PblockStore Unit := do
  pblockRemoveBlocks io blob size bs
  pblockPackDel io blob

/-- One call, and when it can be made -/
inductive ArenaStep (crc : List UInt8 → UInt32) : ArenaState → ArenaCall → ArenaState → Prop where
  /-- the id is fresh: nothing in the store is under it -/
  | create {s : ArenaState} {blob : BlobId} {bs : ℕ+} (hobj : s.objs blob = none)
      (hblocks : ∀ i, s.store.blocks blob i = none) (hrow : ¬s.Packed blob) :
      ArenaStep crc s (.create blob bs)
        { s with
          objs := update s.objs blob (some ⟨[], bs⟩)
          writable := update s.writable blob true }
  /-- offsets fit `off_t` -/
  | write {s : ArenaState} {blob : BlobId} {o : PackObj} {data : List UInt8} {off accepted : ℕ}
      (hobj : s.objs blob = some o) (hopen : s.writable blob = true)
      (hoff : off + data.length < 2 ^ 63) :
      ArenaStep crc s (.write blob data off accepted) (s.write blob o (data.take accepted) off)
  /-- the blob is striped, and its staged handle ends -/
  | packAdmit {s : ArenaState} {blob : BlobId} {o : PackObj} {io : PackFaults} {store : PblockStore}
      (hobj : s.objs blob = some o) (hrow : ¬s.Packed blob)
      (hstop : (pblockPackAdmit crc io blob o.bytes.length o.bs).Stops s.store store) :
      ArenaStep crc s (.packAdmit blob io)
        { s with store := store, writable := update s.writable blob false }
  | materialize {s : ArenaState} {blob : BlobId} {o : PackObj} {io : PackFaults}
      {store : PblockStore} (hobj : s.objs blob = some o)
      (hstop : (pblockPackMaterialize crc io blob o.bytes.length o.bs).Stops s.store store) :
      ArenaStep crc s (.materialize blob io) { s with store := store }
  | openWrite {s : ArenaState} {blob : BlobId} {o : PackObj} {io : PackFaults}
      (hobj : s.objs blob = some o)
      (hdone : (pblockPackMaterialize crc io blob o.bytes.length o.bs s.store).value = true) :
      ArenaStep crc s (.openWrite blob io)
        { s with
          store := (pblockPackMaterialize crc io blob o.bytes.length o.bs s.store).last s.store
          writable := update s.writable blob true }
  | remove {s : ArenaState} {blob : BlobId} {o : PackObj} {io : PackFaults} {store : PblockStore}
      (hobj : s.objs blob = some o)
      (hstop : (pblockRefsRemove io blob o.bytes.length o.bs).Stops s.store store) :
      ArenaStep crc s (.remove blob io)
        { store := store
          objs := update s.objs blob none
          writable := update s.writable blob false }

/-- What keeps packed and striped alike: a blob is not written while its row is
there, or the write changes nothing. -/
def ArenaCall.Good (s : ArenaState) : ArenaCall → Prop
  | .write blob data off accepted =>
    s.Packed blob → ∀ o, s.objs blob = some o →
      File.pwrite 0 o.bytes off (data.take accepted) = o.bytes
  | _ => True

instance (s : ArenaState) (blob : BlobId) : Decidable (s.Packed blob) :=
  inferInstanceAs (Decidable (Mru.find s.store.pack blob ≠ none))

/-- A read gives the bytes of the object. -/
def ArenaState.ReadsAt (s : ArenaState) (blob : BlobId) (o : PackObj) (len off : ℕ) : Prop :=
  pblockPackOrBlockRead s.store blob o.bs len off = some (File.pread o.bytes off len)

instance (s : ArenaState) (blob : BlobId) (o : PackObj) (len off : ℕ) :
    Decidable (s.ReadsAt blob o len off) :=
  inferInstanceAs (Decidable (pblockPackOrBlockRead s.store blob o.bs len off = some _))

variable {crc : List UInt8 → UInt32} {s s' : ArenaState}

namespace PackInv

variable {objs : BlobId → Option PackObj} {st : PblockStore} {blob : BlobId}

theorem forget (h : PackInv crc objs st) (blob : BlobId) :
    PackInv crc (update objs blob none) st where
  striped := by
    intro blob' o' ho' hrow
    obtain ⟨-, ho⟩ | ⟨-, ho⟩ := of_update_eq_some ho'
    · cases ho
    · exact h.striped blob' o' ho hrow
  record := by
    intro blob' o' loc ho' hrow
    obtain ⟨-, ho⟩ | ⟨-, ho⟩ := of_update_eq_some ho'
    · cases ho
    · exact h.record blob' o' loc ho hrow
  zeros := by
    intro blob' o' ho'
    obtain ⟨-, ho⟩ | ⟨-, ho⟩ := of_update_eq_some ho'
    · cases ho
    · exact h.zeros blob' o' ho
  sized := by
    intro blob' o' ho'
    obtain ⟨-, ho⟩ | ⟨-, ho⟩ := of_update_eq_some ho'
    · cases ho
    · exact h.sized blob' o' ho

theorem withObj (h : PackInv crc objs st) {o : PackObj} (hsized : o.bytes.length < 2 ^ 63)
    (hnone : Mru.find st.pack blob = none) (hstripes : Stripes (st.blocks blob) o.bs o.bytes) :
    PackInv crc (update objs blob (some o)) st where
  striped := by
    intro blob' o' ho' hrow
    obtain ⟨rfl, ho⟩ | ⟨-, ho⟩ := of_update_eq_some ho'
    · cases ho
      exact hstripes
    · exact h.striped blob' o' ho hrow
  record := by
    intro blob' o' loc ho' hrow
    obtain ⟨rfl, -⟩ | ⟨-, ho⟩ := of_update_eq_some ho'
    · rw [hnone] at hrow
      cases hrow
    · exact h.record blob' o' loc ho hrow
  zeros := by
    intro blob' o' ho' i hi
    obtain ⟨rfl, ho⟩ | ⟨-, ho⟩ := of_update_eq_some ho'
    · cases ho
      rw [hstripes i, getD_eq_getElem?_getD, getElem?_eq_none hi]
      rfl
    · exact h.zeros blob' o' ho i hi
  sized := by
    intro blob' o' ho'
    obtain ⟨rfl, ho⟩ | ⟨-, ho⟩ := of_update_eq_some ho'
    · cases ho
      exact hsized
    · exact h.sized blob' o' ho

theorem write (h : PackInv crc objs st) {o : PackObj} (ho : objs blob = some o)
    (hnone : Mru.find st.pack blob = none) {data : List UInt8} {off : ℕ}
    (hoff : off + data.length < 2 ^ 63) :
    PackInv crc (update objs blob (some { o with bytes := File.pwrite 0 o.bytes off data }))
      (st.setBlocks blob (pblockWriteBlocks (st.blocks blob) o.bs data off)) := by
  have hbare := (h.forget blob).setBlocks blob
    (pblockWriteBlocks (st.blocks blob) o.bs data off)
    (fun hne => absurd (update_self _ _ _) hne)
    (fun o' ho' => by
      rw [update_self] at ho'
      cases ho')
  have hlen : (File.pwrite 0 o.bytes off data).length < 2 ^ 63 := by
    have hold := h.sized blob o ho
    by_cases hne : data = []
    · rw [hne, File.pwrite_nil]
      exact hold
    · rw [File.length_pwrite 0 o.bytes off hne]
      omega
  have hstripes : Stripes ((st.setBlocks blob (pblockWriteBlocks (st.blocks blob) o.bs data off)).blocks
      blob) o.bs (File.pwrite 0 o.bytes off data) := by
    rw [PblockStore.setBlocks_self]
    exact (h.striped blob o ho hnone).write data off
  have hnew := hbare.withObj (o := { o with bytes := File.pwrite 0 o.bytes off data }) hlen hnone
    hstripes
  rwa [update_idem] at hnew

theorem rewrite (h : PackInv crc objs st) {o : PackObj} (ho : objs blob = some o)
    (hrow : Mru.find st.pack blob ≠ none) {data : List UInt8} {off : ℕ}
    (hsame : File.pwrite 0 o.bytes off data = o.bytes) :
    PackInv crc objs (st.setBlocks blob (pblockWriteBlocks (st.blocks blob) o.bs data off)) := by
  apply h.setBlocks _ _ fun _ => hrow
  intro o' ho' i hi
  rw [ho] at ho'
  cases ho'
  have hout : ¬(off ≤ i ∧ i < off + data.length) := by
    rintro ⟨hlow, hhigh⟩
    have hne : data ≠ [] := by
      rintro rfl
      rw [length_nil] at hhigh
      omega
    have hlen := File.length_pwrite 0 o.bytes off hne
    rw [hsame] at hlen
    omega
  rw [blockByte_write, if_neg hout]
  exact h.zeros blob o ho i hi

theorem remove (h : PackInv crc objs st) (hnone : objs blob = none) (io : PackFaults) (size : ℕ)
    (bs : ℕ+) :
    wp (PackInv crc objs) (pblockRefsRemove io blob size bs) (fun _ => PackInv crc objs) st := by
  rw [pblockRefsRemove, wp_bind]
  refine wp_mono (h.removeBlocks (fun hne => absurd hnone hne) io size bs) (fun _ h => h) ?_
  rintro - st' ⟨h', -⟩
  exact h'.del hnone io

end PackInv

/-! ## Steps and runs -/

theorem PackInv.step (h : PackInv crc s.objs s.store) {c : ArenaCall}
    (hstep : ArenaStep crc s c s') (hgood : c.Good s) : PackInv crc s'.objs s'.store := by
  cases hstep with
  | @create blob bs hobj hblocks hrow =>
    apply h.withObj (o := ⟨[], bs⟩) (Nat.two_pow_pos 63) (not_not.mp hrow)
    intro i
    rw [blockByte, hblocks]
    rfl
  | @write blob o data off accepted hobj hopen hoff =>
    have htake : (data.take accepted).length ≤ data.length := length_take_le' _ _
    by_cases hrow : s.Packed blob
    · have hsame := hgood hrow o hobj
      have hkeep := h.rewrite hobj hrow hsame
      simp only [ArenaState.write, hsame]
      rwa [update_eq_self_iff.mpr hobj.symm]
    · exact h.write hobj (not_not.mp hrow) (by omega)
  | packAdmit hobj hrow hstop => exact wp_stops (h.packAdmit hobj (not_not.mp hrow) _) h hstop
  | materialize hobj hstop => exact wp_stops (h.materialize hobj _) h hstop
  | openWrite hobj hdone => exact (h.materialize hobj _).2
  | @remove blob o io store hobj hstop =>
    exact wp_stops ((h.forget blob).remove (update_self _ _ _) io _ _) (h.forget blob) hstop

theorem packInv_run {calls : List ArenaCall}
    (h : Run (fun s c s' => ArenaStep crc s c s' ∧ c.Good s) ArenaState.fresh calls s) :
    PackInv crc s.objs s.store :=
  h.invariant (I := fun s => PackInv crc s.objs s.store)
    (fun _ _ _ hinv hstep => hinv.step hstep.1 hstep.2)
    ⟨nofun, nofun, nofun, nofun⟩

theorem PackInv.not_reads_of_bad (h : PackInv crc s.objs s.store) {c : ArenaCall}
    (hstep : ArenaStep crc s c s') (hbad : ¬c.Good s) :
    ∃ blob o, s'.objs blob = some o ∧ ¬s'.ReadsAt blob o o.bytes.length 0 := by
  cases hstep with
  | @write blob o data off accepted hobj hopen hoff =>
    simp only [ArenaCall.Good, hobj, Option.some.injEq, forall_eq', not_forall] at hbad
    obtain ⟨hrow, hdiff⟩ := hbad
    refine ⟨blob, _, update_self _ _ _, ?_⟩
    intro hread
    have hlen := File.length_le_length_pwrite 0 o.bytes off (data.take accepted)
    have hold := (h.read hobj (File.pwrite 0 o.bytes off (data.take accepted)).length 0).mpr
      (.inl hrow)
    -- the block files are not looked at
    have hsame : pblockPackOrBlockRead
        (s.store.setBlocks blob
          (pblockWriteBlocks (s.store.blocks blob) o.bs (data.take accepted) off)) blob o.bs
        (File.pwrite 0 o.bytes off (data.take accepted)).length 0 =
        pblockPackOrBlockRead s.store blob o.bs
          (File.pwrite 0 o.bytes off (data.take accepted)).length 0 := by
      obtain ⟨loc, hloc⟩ := Option.ne_none_iff_exists'.mp hrow
      rw [pblockPackOrBlockRead, pblockPackOrBlockRead]
      simp only [PblockStore.setBlocks, hloc]
    have heq := hsame.symm.trans hread
    rw [hold, Option.some.injEq, File.pread, File.pread, drop_zero, drop_zero,
      take_of_length_le hlen, take_length] at heq
    exact hdiff heq.symm
  | create | packAdmit | materialize | openWrite | remove => exact absurd trivial hbad

/-- **Packed and striped blobs read alike.** In every run in which no blob is
written under the row a materialisation left behind, a read gives the bytes of the
blob, at any offset and length while it is packed, and inside its size while it is
striped; and the first write under a row is not read. -/
theorem packReads_iff_good {calls : List ArenaCall}
    (h : Run (fun s c s' => ArenaStep crc s c s' ∧ c.Good s) ArenaState.fresh calls s) :
    (∀ blob o, s.objs blob = some o → ∀ len off,
      (s.ReadsAt blob o len off ↔
        s.Packed blob ∨ len = 0 ∨ off + len ≤ o.bytes.length)) ∧
    (∀ c s', ArenaStep crc s c s' →
      ((∀ blob o, s'.objs blob = some o → ∀ len off, off + len ≤ o.bytes.length →
        s'.ReadsAt blob o len off) ↔ c.Good s)) := by
  have hinv := packInv_run h
  refine ⟨fun blob o ho len off => hinv.read ho len off, ?_⟩
  intro c s' hstep
  constructor
  · intro hreads
    by_contra hbad
    obtain ⟨blob, o, ho, hread⟩ := hinv.not_reads_of_bad hstep hbad
    exact hread (hreads blob o ho _ 0 (by omega))
  · intro hgood blob o ho len off hin
    exact ((hinv.step hstep hgood).read ho len off).mpr (.inr (.inr hin))

/-! ## A blob of three bytes -/

/-- Nothing fails, but maybe the `DELETE` of a row. -/
def tinyFaults (deletes : Bool) : PackFaults where
  finds := true
  reads := true
  locks := true
  opens := true
  rolls := true
  headWritten := 100
  dataWritten := 100
  synced := true
  retracts := true
  inserts := true
  mkdirs := true
  deletes := deletes
  reaps := true
  unlinks _ := true

attribute [local instance] neZero_four

/-- The blob `a` is made, ... -/
def tinyMade : ArenaState :=
  { ArenaState.fresh with
    objs := update ArenaState.fresh.objs [97] (some ⟨[], 4⟩)
    writable := update ArenaState.fresh.writable [97] true }

def tinyFilled : ArenaState := tinyMade.write [97] ⟨[], 4⟩ ([1, 2, 3].take 3) 0

def tinyAdmitted : ArenaState :=
  { tinyFilled with
    store := (pblockPackAdmit crc32 (tinyFaults true) [97] 3 4 tinyFilled.store).last tinyFilled.store
    writable := update tinyFilled.writable [97] false }

def tinyOpened (deletes : Bool) : ArenaState :=
  { tinyAdmitted with
    store := (pblockPackMaterialize crc32 (tinyFaults deletes) [97] 3 4 tinyAdmitted.store).last
      tinyAdmitted.store
    writable := update tinyAdmitted.writable [97] true }

def tinyWritten (deletes : Bool) : ArenaState :=
  (tinyOpened deletes).write [97] ⟨[1, 2, 3], 4⟩ ([9].take 1) 1

def tinyCalls (deletes : Bool) : List ArenaCall :=
  [.create [97] 4, .write [97] [1, 2, 3] 0 3, .packAdmit [97] (tinyFaults true),
    .openWrite [97] (tinyFaults deletes), .write [97] [9] 1 1]

theorem tinyCalls_run {P : ArenaState → ArenaCall → Prop} {deletes : Bool}
    (hP : ∀ s c, c.Good s → P s c)
    (hlast : P (tinyOpened deletes) (.write [97] [9] 1 1))
    (hdone : (pblockPackMaterialize crc32 (tinyFaults deletes) [97] 3 4 tinyAdmitted.store).value =
      true) :
    Run (fun s c s' => ArenaStep crc32 s c s' ∧ P s c) ArenaState.fresh (tinyCalls deletes)
      (tinyWritten deletes) := by
  have hcreate : ArenaStep crc32 ArenaState.fresh (.create [97] 4) tinyMade :=
    .create rfl (fun _ => rfl) (by decide)
  have hfill : ArenaStep crc32 tinyMade (.write [97] [1, 2, 3] 0 3) tinyFilled :=
    .write rfl rfl (by decide)
  have hpack : ArenaStep crc32 tinyFilled (.packAdmit [97] (tinyFaults true)) tinyAdmitted :=
    .packAdmit (o := ⟨[1, 2, 3], 4⟩) rfl (by decide) (stops_last _ _)
  have hopen : ArenaStep crc32 tinyAdmitted (.openWrite [97] (tinyFaults deletes))
      (tinyOpened deletes) := .openWrite (o := ⟨[1, 2, 3], 4⟩) rfl hdone
  have hwrite : ArenaStep crc32 (tinyOpened deletes) (.write [97] [9] 1 1) (tinyWritten deletes) :=
    .write rfl rfl (by decide)
  have hbare : ¬tinyMade.Packed [97] := by decide
  refine .cons ⟨hcreate, hP _ _ trivial⟩ ?_
  refine .cons ⟨hfill, hP _ _ fun hrow => absurd hrow hbare⟩ ?_
  refine .cons ⟨hpack, hP _ _ trivial⟩ ?_
  refine .cons ⟨hopen, hP _ _ trivial⟩ ?_
  exact .cons ⟨hwrite, hlast⟩ (.nil _)

theorem packReads_iff_good_sample : (tinyWritten true).ReadsAt [97] ⟨[1, 9, 3], 4⟩ 3 0 := by
  have hbare : ¬(tinyOpened true).Packed [97] := by decide +kernel
  have hrun := tinyCalls_run (P := fun s c => c.Good s) (fun _ _ hgood => hgood)
    (fun hrow => absurd hrow hbare) (by decide +kernel)
  exact ((packReads_iff_good hrun).1 [97] ⟨[1, 9, 3], 4⟩ rfl 3 0).mpr (.inr (.inr (by decide)))

/-- A `DELETE` that fails: the write after the open is not read. -/
theorem kept_row_hides_write :
    ¬∀ calls s, Run (ArenaStep crc32) ArenaState.fresh calls s →
      ∀ blob o, s.objs blob = some o → ∀ len off, off + len ≤ o.bytes.length →
        s.ReadsAt blob o len off := by
  intro h
  have hopened : (pblockPackMaterialize crc32 (tinyFaults false) [97] 3 4 tinyAdmitted.store).value =
      true := by decide +kernel
  have hrun := (tinyCalls_run (P := fun _ _ => True) (fun _ _ _ => trivial) trivial hopened).mono
    fun _ _ _ hstep => hstep.1
  have hread := h _ _ hrun [97] ⟨[1, 9, 3], 4⟩ rfl 3 0 (by decide)
  revert hread
  decide +kernel

end BrixCache

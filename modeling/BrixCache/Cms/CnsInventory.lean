import BrixCache.Core.Ascii
import BrixCache.Lib.Segments
import BrixCache.Lib.Run
import Mathlib.Data.Set.Card

/-!
# The cluster inventory

`cns_inventory.c`: the manager's table of the files and directories of the whole cluster. The data
servers report every change of the namespace as an event, and a rename of a directory carries over
what is recorded below it.
-/

namespace BrixCache

open Segments

def cnsPathMax : ℕ := 512

/-- What `brix_cns_inv_stat` tells of a path -/
structure CnsMeta : Type where
  size : UInt64
  mtime : UInt64
  isDir : Bool
  deriving DecidableEq

/-- `brix_cns_entry_t` of a slot in use -/
structure CnsEntry : Type where
  path : Bytes
  stat : CnsMeta
  serverId : UInt32
  deriving DecidableEq

/-- `brix_cns_inv_t`. What an unused slot holds is never read. -/
structure CnsInv : Type where
  slots : List (Option CnsEntry)
  count : ℕ
  deriving DecidableEq

/-- The block as it is allocated: `brix_cns_inv_init` -/
def brixCnsInvInit (capacity : ℕ) : CnsInv := ⟨List.replicate capacity none, 0⟩

def isCnsAt (path : Bytes) (slot : Option CnsEntry) : Bool := slot.any (·.path = path)

/-- The slot of the record under `path`. -/
def invFind (slots : List (Option CnsEntry)) (path : Bytes) : Option ℕ :=
  slots.findIdx? (isCnsAt path)

/-- The first unused slot. -/
def invFreeSlot (slots : List (Option CnsEntry)) : Option ℕ := slots.findIdx? Option.isNone

/-- Empty slot `i` and count it off. -/
def CnsInv.retire (inv : CnsInv) (i : ℕ) : CnsInv := ⟨inv.slots.set i none, inv.count - 1⟩

def CnsInv.write (inv : CnsInv) (i : ℕ) (e : CnsEntry) : CnsInv :=
  { inv with slots := inv.slots.set i (some e) }

/-- The operations of `brix_cns_inv_apply` -/
inductive CnsOp : Type where
  | add
  | del
  | mkdir
  | rmdir
  deriving DecidableEq

/-- The opcodes. Another one is refused. -/
def cnsOp (op : UInt8) : Option CnsOp :=
  if op = 1 then some .add else if op = 2 then some .del else if op = 3 then some .mkdir
  else if op = 4 then some .rmdir else none

/-- A path that can be recorded -/
def cnsPathOk (path : Bytes) : Bool := path ≠ [] && path.length ≤ cnsPathMax

/-- `brix_cns_inv_apply`: whether the event was taken, and the inventory after it -/
def brixCnsInvApply (inv : CnsInv) (op : UInt8) (path : Bytes) (size mtime : UInt64)
    (serverId : UInt32) : Bool × CnsInv :=
  if !cnsPathOk path then (false, inv)
  else
    let e (isDir : Bool) : CnsEntry := ⟨path, ⟨size, mtime, isDir⟩, serverId⟩
    let upsert (isDir : Bool) : Bool × CnsInv :=
      match invFind inv.slots path with
      | some i => (true, inv.write i (e isDir))
      | none =>
        match invFreeSlot inv.slots with
        | some i => (true, { inv with count := inv.count + 1 }.write i (e isDir))
        | none => (false, inv)
    let remove : Bool × CnsInv :=
      match invFind inv.slots path with
      | some i => (true, inv.retire i)
      | none => (true, inv)
    match cnsOp op with
    | some .del => remove
    | some .rmdir => remove
    | some .add => upsert false
    | some .mkdir => upsert true
    | none => (false, inv)

/-- `path` lies below `dir` at a component boundary. -/
def invIsUnder (path dir : Bytes) : Bool := (dir ++ [slash]).isPrefixOf path

/-- The record moved from below `oldp` to below `newp`, unless its path overflows. -/
def invReprefix (e : CnsEntry) (oldp newp : Bytes) : Option CnsEntry :=
  let tail := e.path.drop oldp.length
  if cnsPathMax < newp.length + tail.length then none else some { e with path := newp ++ tail }

/-- `inv_rename_subtree`, slot by slot -/
def invRenameSubtree (oldp newp : Bytes) :
    List (Option CnsEntry) → ℕ → List (Option CnsEntry) × ℕ
  | [], count => ([], count)
  | none :: slots, count =>
    let (slots, count) := invRenameSubtree oldp newp slots count
    (none :: slots, count)
  | some e :: slots, count =>
    if !invIsUnder e.path oldp then
      let (slots, count) := invRenameSubtree oldp newp slots count
      (some e :: slots, count)
    else
      match invReprefix e oldp newp with
      | some e =>
        let (slots, count) := invRenameSubtree oldp newp slots count
        (some e :: slots, count)
      | none =>
        let (slots, count) := invRenameSubtree oldp newp slots (count - 1)
        (none :: slots, count)

def invRenameDestSlot (inv : CnsInv) (oldp newp : Bytes) : Option (ℕ × CnsInv) :=
  match invFind inv.slots newp, invFind inv.slots oldp with
  | some dst, some src => some (dst, if src ≠ dst then inv.retire src else inv)
  | some dst, none => some (dst, inv)
  | none, some src => some (src, inv)
  | none, none =>
    match invFreeSlot inv.slots with
    | some i => some (i, { inv with count := inv.count + 1 })
    | none => none

def brixCnsInvRename (inv : CnsInv) (oldp newp : Bytes) (size mtime : UInt64) (isDir : Bool)
    (serverId : UInt32) : Bool × CnsInv :=
  if !cnsPathOk oldp || !cnsPathOk newp then (false, inv)
  else
    let (slots, count) := invRenameSubtree oldp newp inv.slots inv.count
    let inv : CnsInv := ⟨slots, count⟩
    match invRenameDestSlot inv oldp newp with
    | none => (false, inv)
    | some (i, inv) => (true, inv.write i ⟨newp, ⟨size, mtime, isDir⟩, serverId⟩)

/-- The metadata recorded under `path`. -/
def brixCnsInvStat (inv : CnsInv) (path : Bytes) : Option CnsMeta :=
  match invFind inv.slots path with
  | some i => (inv.slots.getD i none).map (·.stat)
  | none => none

/-! ## Events -/

/-- A decoded event of a data server -/
inductive CnsEvent : Type where
  | apply (op : UInt8) (path : Bytes) (size mtime : UInt64) (serverId : UInt32)
  | rename (oldp newp : Bytes) (size mtime : UInt64) (isDir : Bool) (serverId : UInt32)

def CnsInv.step (inv : CnsInv) : CnsEvent → CnsInv
  | .apply op path size mtime serverId => (brixCnsInvApply inv op path size mtime serverId).2
  | .rename oldp newp size mtime isDir serverId =>
    (brixCnsInvRename inv oldp newp size mtime isDir serverId).2

end BrixCache

/-!
## The cluster inventory is a map

Every event keeps this but a rename that carries an entry over to a path where another one is
recorded.
-/

namespace BrixCache

open Segments Function List

/-! ### The map -/

abbrev CnsMap : Type := Bytes → Option CnsMeta

namespace CnsMap

/-- The recorded paths -/
def support (m : CnsMap) : Set Bytes := {p | m p ≠ none}

noncomputable def put (capacity : ℕ) (m : CnsMap) (path : Bytes) (v : CnsMeta) : CnsMap :=
  open Classical in
  if m path ≠ none ∨ m.support.ncard < capacity then update m path (some v) else m

def erase (m : CnsMap) (path : Bytes) : CnsMap := update m path none

/-- What is below `oldp` stands below `newp`, as far as the paths are not too long, and the rest of
what is not in `gone` stays. -/
def rebase (m : CnsMap) (oldp newp : Bytes) (gone : Bytes → Bool) : CnsMap := fun p =>
  if Below slash newp p ∧ p.length ≤ cnsPathMax ∧ m (refront newp oldp p) ≠ none then
    m (refront newp oldp p)
  else if gone p then none
  else m p

/-- An event. One that names a path that cannot be recorded, or an opcode that is none, is
ignored. -/
noncomputable def step (capacity : ℕ) (m : CnsMap) : CnsEvent → CnsMap
  | .apply op path size mtime _ =>
    if cnsPathOk path then
      match cnsOp op with
      | some .add => m.put capacity path ⟨size, mtime, false⟩
      | some .mkdir => m.put capacity path ⟨size, mtime, true⟩
      | some .del => m.erase path
      | some .rmdir => m.erase path
      | none => m
    else m
  | .rename oldp newp size mtime isDir _ =>
    if cnsPathOk oldp && cnsPathOk newp then
      (m.rebase oldp newp fun p => AtOrBelow slash oldp p).put capacity newp ⟨size, mtime, isDir⟩
    else m

end CnsMap

/-! ### Slots -/

variable {slots : List (Option CnsEntry)} {m : CnsMap} {i : ℕ} {e : CnsEntry}
  {path oldp newp : Bytes}

/-- Slots record what a map says, every path once. -/
structure CnsSays (slots : List (Option CnsEntry)) (m : CnsMap) : Prop where
  distinct : ∀ (i j : ℕ) (e f : CnsEntry), slots[i]? = some (some e) →
    slots[j]? = some (some f) → e.path = f.path → i = j
  mapped : ∀ p v, m p = some v ↔
    ∃ (i : ℕ) (e : CnsEntry), slots[i]? = some (some e) ∧ e.path = p ∧ e.stat = v

theorem invFind_eq_some (h : invFind slots path = some i) :
    ∃ e, slots[i]? = some (some e) ∧ e.path = path := by
  obtain ⟨hi, hat, -⟩ := findIdx?_eq_some_iff_getElem.mp h
  obtain ⟨e, he, hpath⟩ := (Option.any_eq_true _ _).mp hat
  exact ⟨e, by rw [getElem?_eq_getElem hi, he], by simpa using hpath⟩

theorem invFind_eq_none (h : invFind slots path = none) {i : ℕ} {e : CnsEntry}
    (he : slots[i]? = some (some e)) : e.path ≠ path := by
  have hnot := findIdx?_eq_none_iff.mp h _ (mem_of_getElem? he)
  simpa [isCnsAt] using hnot

theorem invFreeSlot_eq_some (h : invFreeSlot slots = some i) : slots[i]? = some none := by
  obtain ⟨hi, hfree, -⟩ := findIdx?_eq_some_iff_getElem.mp h
  rw [getElem?_eq_getElem hi, Option.isNone_iff_eq_none.mp hfree]

theorem getElem?_set_slot {old new : Option CnsEntry} (hi : slots[i]? = some old) {j : ℕ} :
    (slots.set i new)[j]? = some (some e) ↔
      (j = i ∧ new = some e) ∨ (j ≠ i ∧ slots[j]? = some (some e)) := by
  by_cases hj : j = i
  · subst hj
    have hlt := (List.getElem?_eq_some_iff.mp hi).1
    simp [hlt]
  · simp [hj, getElem?_set_ne (Ne.symm hj)]

theorem CnsSays.retire (h : CnsSays slots m) (hi : slots[i]? = some (some e)) :
    CnsSays (slots.set i none) (m.erase e.path) where
  distinct j k f g hf hg hpath := by
    rw [getElem?_set_slot hi] at hf hg
    obtain ⟨-, hf⟩ | ⟨-, hf⟩ := hf
    · cases hf
    · obtain ⟨-, hg⟩ | ⟨-, hg⟩ := hg
      · cases hg
      · exact h.distinct j k f g hf hg hpath
  mapped p v := by
    rw [CnsMap.erase]
    constructor
    · intro hv
      obtain ⟨-, hv⟩ | ⟨hp, hv⟩ := of_update_eq_some hv
      · cases hv
      · obtain ⟨j, f, hf, rfl, rfl⟩ := (h.mapped p v).mp hv
        refine ⟨j, f, (getElem?_set_slot hi).mpr (.inr ⟨?_, hf⟩), rfl, rfl⟩
        rintro rfl
        rw [hi] at hf
        cases hf
        exact hp rfl
    · rintro ⟨j, f, hf, rfl, rfl⟩
      obtain ⟨-, hf⟩ | ⟨hj, hf⟩ := (getElem?_set_slot hi).mp hf
      · cases hf
      · have hne : f.path ≠ e.path := fun hpath => hj (h.distinct j i f e hf hi hpath)
        rw [update_of_ne hne]
        exact (h.mapped _ _).mpr ⟨j, f, hf, rfl, rfl⟩

/-- A new entry in a free slot -/
theorem CnsSays.fill (h : CnsSays slots m) (hi : slots[i]? = some none)
    (hnew : m e.path = none) :
    CnsSays (slots.set i (some e)) (update m e.path (some e.stat)) := by
  -- no other slot records the path
  have hother : ∀ (j : ℕ) (f : CnsEntry), slots[j]? = some (some f) → f.path ≠ e.path := by
    intro j f hf hpath
    have hsome := (h.mapped _ _).mpr ⟨j, f, hf, hpath, rfl⟩
    rw [hnew] at hsome
    cases hsome
  constructor
  · intro j k f g hf hg hpath
    rw [getElem?_set_slot hi] at hf hg
    obtain ⟨rfl, hf⟩ | ⟨-, hf⟩ := hf
    · cases hf
      obtain ⟨rfl, -⟩ | ⟨-, hg⟩ := hg
      · rfl
      · exact absurd hpath.symm (hother k g hg)
    · obtain ⟨rfl, hg⟩ | ⟨-, hg⟩ := hg
      · cases hg
        exact absurd hpath (hother j f hf)
      · exact h.distinct j k f g hf hg hpath
  · intro p v
    constructor
    · intro hv
      obtain ⟨rfl, hnow⟩ | ⟨hp, hv⟩ := of_update_eq_some hv
      · exact ⟨i, e, (getElem?_set_slot hi).mpr (.inl ⟨rfl, rfl⟩), rfl, Option.some.inj hnow⟩
      · obtain ⟨j, f, hf, rfl, rfl⟩ := (h.mapped p v).mp hv
        refine ⟨j, f, (getElem?_set_slot hi).mpr (.inr ⟨?_, hf⟩), rfl, rfl⟩
        rintro rfl
        rw [hi] at hf
        cases hf
    · rintro ⟨j, f, hf, rfl, rfl⟩
      obtain ⟨-, hf⟩ | ⟨-, hf⟩ := (getElem?_set_slot hi).mp hf
      · cases hf
        exact update_self _ _ _
      · rw [update_of_ne (hother j f hf)]
        exact (h.mapped _ _).mpr ⟨j, f, hf, rfl, rfl⟩

/-! ### The count -/

theorem countP_set_none (hi : slots[i]? = some (some e)) :
    (slots.set i none).countP Option.isSome = slots.countP Option.isSome - 1 := by
  obtain ⟨hlt, he⟩ := List.getElem?_eq_some_iff.mp hi
  rw [countP_set hlt, he]
  simp

theorem countP_set_some (hi : slots[i]? = some none) :
    (slots.set i (some e)).countP Option.isSome = slots.countP Option.isSome + 1 := by
  obtain ⟨hlt, he⟩ := List.getElem?_eq_some_iff.mp hi
  rw [countP_set hlt, he]
  simp

theorem countP_pos_of_slot (hi : slots[i]? = some (some e)) :
    0 < slots.countP Option.isSome :=
  countP_pos_iff.mpr ⟨_, mem_of_getElem? hi, rfl⟩

theorem CnsSays.ncard (h : CnsSays slots m) : m.support.ncard = slots.countP Option.isSome := by
  have hpaths : m.support = ((slots.filterMap id).map (·.path)).toFinset := by
    ext p
    rw [Finset.mem_coe, mem_toFinset, mem_map]
    constructor
    · intro hp
      obtain ⟨v, hv⟩ := Option.ne_none_iff_exists'.mp hp
      obtain ⟨i, e, he, hpath, -⟩ := (h.mapped p v).mp hv
      exact ⟨e, mem_filterMap.mpr ⟨_, mem_of_getElem? he, rfl⟩, hpath⟩
    · rintro ⟨e, he, rfl⟩
      obtain ⟨slot, hslot, hid⟩ := mem_filterMap.mp he
      obtain rfl : slot = some e := hid
      obtain ⟨i, hi⟩ := mem_iff_getElem?.mp hslot
      have hsome := (h.mapped _ _).mpr ⟨i, e, hi, rfl, rfl⟩
      simp [CnsMap.support, hsome]
  have hnodup : ((slots.filterMap id).map (·.path)).Nodup := by
    rw [List.Nodup, pairwise_map, pairwise_filterMap, pairwise_iff_getElem]
    intro i j hi hj hij e he f hf hpath
    have hsame := h.distinct i j e f (by rw [getElem?_eq_getElem hi]; exact congrArg some he)
      (by rw [getElem?_eq_getElem hj]; exact congrArg some hf) hpath
    omega
  rw [hpaths, Set.ncard_coe_finset, toFinset_card_of_nodup hnodup, length_map,
    length_filterMap_eq_countP]
  rfl

theorem CnsSays.full_iff (h : CnsSays slots m) :
    m.support.ncard < slots.length ↔ invFreeSlot slots ≠ none := by
  rw [h.ncard, invFreeSlot, Ne, findIdx?_eq_none_iff]
  have hle := countP_le_length (p := Option.isSome) (l := slots)
  constructor
  · intro hlt hall
    have hcount : slots.countP Option.isSome = slots.length :=
      countP_eq_length.mpr fun x hx => by simpa using hall x hx
    omega
  · intro hfree
    by_contra hlt
    refine hfree fun x hx => ?_
    have hcount : slots.countP Option.isSome = slots.length := by omega
    simpa using countP_eq_length.mp hcount x hx

/-- **The inventory and the map.** -/
structure CnsInv.Maps (inv : CnsInv) (m : CnsMap) : Prop where
  agree : CnsSays inv.slots m
  counted : inv.count = inv.slots.countP Option.isSome

namespace CnsInv.Maps

variable {inv : CnsInv}

theorem init (capacity : ℕ) : (brixCnsInvInit capacity).Maps fun _ => none := by
  have hempty : ∀ (i : ℕ) (e : CnsEntry), ¬(replicate capacity none)[i]? = some (some e) := by
    intro i e h
    cases (mem_replicate.mp (mem_of_getElem? h)).2
  refine ⟨⟨fun i j e f he => absurd he (hempty i e), fun p v => ?_⟩, ?_⟩
  · simp only [brixCnsInvInit, reduceCtorEq, false_iff]
    rintro ⟨i, e, he, -⟩
    exact hempty i e he
  · simp [brixCnsInvInit, countP_replicate]

theorem stat (h : inv.Maps m) (path : Bytes) : brixCnsInvStat inv path = m path := by
  rw [brixCnsInvStat]
  cases hfind : invFind inv.slots path with
  | some i =>
    obtain ⟨e, he, hpath⟩ := invFind_eq_some hfind
    have hsays := (h.agree.mapped path e.stat).mpr ⟨i, e, he, hpath, rfl⟩
    simp [getD_eq_getElem?_getD, he, hsays]
  | none =>
    cases hm : m path with
    | none => rfl
    | some v =>
      obtain ⟨i, e, he, hpath, -⟩ := (h.agree.mapped path v).mp hm
      exact absurd hpath (invFind_eq_none hfind he)

theorem eq_none_iff (h : inv.Maps m) : m path = none ↔ invFind inv.slots path = none := by
  rw [← h.stat, brixCnsInvStat]
  cases hfind : invFind inv.slots path with
  | none => simp
  | some i =>
    obtain ⟨e, he, -⟩ := invFind_eq_some hfind
    simp [getD_eq_getElem?_getD, he]

theorem retire (h : inv.Maps m) (hi : inv.slots[i]? = some (some e)) :
    (inv.retire i).Maps (m.erase e.path) where
  agree := h.agree.retire hi
  counted := by rw [CnsInv.retire, countP_set_none hi, h.counted]

theorem getElem?_retire (hi : inv.slots[i]? = some (some e)) :
    (inv.retire i).slots[i]? = some none :=
  getElem?_set_self (List.getElem?_eq_some_iff.mp hi).1

theorem invFreeSlot_retire (hi : inv.slots[i]? = some (some e)) :
    invFreeSlot (inv.retire i).slots ≠ none := by
  intro hfull
  cases findIdx?_eq_none_iff.mp hfull none (mem_of_getElem? (getElem?_retire hi))

theorem fill (h : inv.Maps m) (hi : inv.slots[i]? = some none) (hnew : m e.path = none) :
    ({ inv with count := inv.count + 1 }.write i e).Maps
      (update m e.path (some e.stat)) where
  agree := h.agree.fill hi hnew
  counted := by rw [CnsInv.write, countP_set_some hi, h.counted]

theorem write {f : CnsEntry} (h : inv.Maps m) (hi : inv.slots[i]? = some (some f))
    (hnew : m.erase f.path e.path = none) :
    (inv.write i e).Maps (update (m.erase f.path) e.path (some e.stat)) := by
  have hfill := (h.retire hi).fill (getElem?_retire hi) hnew
  have hpos := countP_pos_of_slot hi
  have hsame : { inv.retire i with count := (inv.retire i).count + 1 }.write i e = inv.write i e := by
    simp only [CnsInv.retire, CnsInv.write, set_set, CnsInv.mk.injEq, true_and, h.counted]
    omega
  rwa [hsame] at hfill

end CnsInv.Maps

/-! ### Carrying a directory over -/

theorem invIsUnder_iff : invIsUnder path oldp = true ↔ Below slash oldp path :=
  isPrefixOf_iff_prefix

def moveSlot (oldp newp : Bytes) (slot : Option CnsEntry) : Option CnsEntry :=
  slot.bind fun e => if invIsUnder e.path oldp then invReprefix e oldp newp else some e

theorem invRenameSubtree_fst (slots : List (Option CnsEntry)) (count : ℕ) :
    (invRenameSubtree oldp newp slots count).1 = slots.map (moveSlot oldp newp) := by
  fun_induction invRenameSubtree oldp newp slots count <;> simp_all [moveSlot]

theorem invRenameSubtree_snd (slots : List (Option CnsEntry)) (count : ℕ) :
    (invRenameSubtree oldp newp slots (slots.countP Option.isSome + count)).2 =
      (slots.map (moveSlot oldp newp)).countP Option.isSome + count := by
  induction slots generalizing count with
  | nil => simp [invRenameSubtree]
  | cons slot slots ih =>
    cases slot with
    | none => simpa [invRenameSubtree, moveSlot] using ih count
    | some e =>
      have hcons := ih (count + 1)
      have hswap : slots.countP Option.isSome + 1 + count =
          slots.countP Option.isSome + (count + 1) := by omega
      by_cases hunder : invIsUnder e.path oldp = true
      · cases hfit : invReprefix e oldp newp with
        | some e' =>
          simp [invRenameSubtree, moveSlot, hunder, hfit, hswap, hcons]
          omega
        | none =>
          have hless : slots.countP Option.isSome + 1 + count - 1 =
              slots.countP Option.isSome + count := by omega
          simp [invRenameSubtree, moveSlot, hunder, hfit, hless, ih count]
      · simp [invRenameSubtree, moveSlot, hunder, hswap, hcons]
        omega

/-- What a rename leaves of a slot -/
theorem moveSlot_eq_some {slot : Option CnsEntry} :
    moveSlot oldp newp slot = some e ↔
      (∃ f, slot = some f ∧ Below slash oldp f.path ∧
        (refront oldp newp f.path).length ≤ cnsPathMax ∧
        e = { f with path := refront oldp newp f.path }) ∨
      slot = some e ∧ ¬Below slash oldp e.path := by
  cases slot with
  | none => simp [moveSlot]
  | some f =>
    have hlen :
        (refront oldp newp f.path).length = newp.length + (f.path.length - oldp.length) := by
      rw [refront, length_append, length_drop]
    by_cases hunder : invIsUnder f.path oldp = true
    · have hbelow := invIsUnder_iff.mp hunder
      have hmove : moveSlot oldp newp (some f) = invReprefix f oldp newp := by
        simp [moveSlot, hunder]
      rw [hmove, invReprefix, length_drop, ← hlen]
      constructor
      · intro h
        obtain ⟨hfit, heq⟩ := Option.ite_none_left_eq_some.mp h
        exact .inl ⟨f, rfl, hbelow, Nat.not_lt.mp hfit, (Option.some.inj heq).symm⟩
      · rintro (⟨g, hg, -, hfit, rfl⟩ | ⟨hg, hnot⟩)
        · cases hg
          rw [if_neg (Nat.not_lt.mpr hfit)]
          rfl
        · cases hg
          exact absurd hbelow hnot
    · have hnot : ¬Below slash oldp f.path := fun h => hunder (invIsUnder_iff.mpr h)
      have hstay : moveSlot oldp newp (some f) = some f := by
        simp [moveSlot, hunder]
      rw [hstay]
      constructor
      · intro h
        cases h
        exact .inr ⟨rfl, hnot⟩
      · rintro (⟨g, hg, hbelow, -⟩ | ⟨hg, -⟩)
        · cases hg
          exact absurd hbelow hnot
        · exact hg

/-- No entry that is carried over gets the path of the source, or of an entry that stays. -/
def NoClash (slots : List (Option CnsEntry)) (oldp newp : Bytes) : Prop :=
  ∀ (i j : ℕ) (e f : CnsEntry), slots[i]? = some (some e) → slots[j]? = some (some f) →
    Below slash oldp e.path → (refront oldp newp e.path).length ≤ cnsPathMax →
    refront oldp newp e.path ≠ oldp ∧
      (¬Below slash oldp f.path → f.path ≠ refront oldp newp e.path)

/-- A rename moves the entries below, and what they say with them. -/
theorem CnsSays.move (h : CnsSays slots m) (hclash : NoClash slots oldp newp) :
    CnsSays (slots.map (moveSlot oldp newp))
      (m.rebase oldp newp fun p => Below slash oldp p) := by
  have hslot : ∀ (i : ℕ) (e : CnsEntry),
      (slots.map (moveSlot oldp newp))[i]? = some (some e) →
        (∃ f, slots[i]? = some (some f) ∧ Below slash oldp f.path ∧
          (refront oldp newp f.path).length ≤ cnsPathMax ∧
          e = { f with path := refront oldp newp f.path }) ∨
        slots[i]? = some (some e) ∧ ¬Below slash oldp e.path := by
    intro i e hi
    rw [getElem?_map] at hi
    obtain ⟨slot, hat, hmove⟩ := Option.map_eq_some_iff.mp hi
    obtain ⟨f, rfl, hf⟩ | ⟨rfl, hnot⟩ := moveSlot_eq_some.mp hmove
    · exact .inl ⟨f, hat, hf⟩
    · exact .inr ⟨hat, hnot⟩
  constructor
  · intro i j e f he hf hpath
    obtain ⟨e', he', hbelow, hfit, rfl⟩ | ⟨he', hnot⟩ := hslot i e he
    · obtain ⟨f', hf', hbelow', hfit', rfl⟩ | ⟨hf', hnot'⟩ := hslot j f hf
      · refine h.distinct i j e' f' he' hf' ?_
        have hback := congrArg (refront newp oldp) hpath
        rwa [refront_refront, refront_refront, refront_eq_self (.inr hbelow),
          refront_eq_self (.inr hbelow')] at hback
      · exact absurd hpath.symm ((hclash i j e' f he' hf' hbelow hfit).2 hnot')
    · obtain ⟨f', hf', hbelow', hfit', rfl⟩ | ⟨hf', -⟩ := hslot j f hf
      · exact absurd hpath ((hclash j i f' e hf' he' hbelow' hfit').2 hnot)
      · exact h.distinct i j e f he' hf' hpath
  · intro p v
    rw [CnsMap.rebase]
    constructor
    · intro hv
      split at hv
      · next hmoved =>
        obtain ⟨hbelow, hfit, -⟩ := hmoved
        obtain ⟨i, e, he, hpath, rfl⟩ := (h.mapped _ v).mp hv
        have hto : refront oldp newp e.path = p := by
          rw [hpath, refront_refront, refront_eq_self (.inr hbelow)]
        have hfrom : Below slash oldp e.path := hpath ▸ refront_below hbelow oldp
        refine ⟨i, { e with path := p }, ?_, rfl, rfl⟩
        rw [getElem?_map, he, Option.map_some]
        exact congrArg some (moveSlot_eq_some.mpr (.inl ⟨e, rfl, hfrom, hto ▸ hfit, by rw [hto]⟩))
      · split at hv
        · cases hv
        · next hstay =>
          obtain ⟨i, e, he, rfl, rfl⟩ := (h.mapped p v).mp hv
          refine ⟨i, e, ?_, rfl, rfl⟩
          rw [getElem?_map, he, Option.map_some]
          exact congrArg some (moveSlot_eq_some.mpr (.inr ⟨rfl, by simpa using hstay⟩))
    · rintro ⟨i, e, he, rfl, rfl⟩
      obtain ⟨f, hf, hbelow, hfit, rfl⟩ | ⟨hf, hnot⟩ := hslot i e he
      · have hsome := (h.mapped _ _).mpr ⟨i, f, hf, rfl, rfl⟩
        have hback : refront newp oldp (refront oldp newp f.path) = f.path := by
          rw [refront_refront, refront_eq_self (.inr hbelow)]
        rw [if_pos ⟨refront_below hbelow newp, hfit, by simp [hback, hsome]⟩, hback, hsome]
      · have hsome := (h.mapped _ _).mpr ⟨i, e, hf, rfl, rfl⟩
        rw [if_neg, if_neg (by simpa using hnot), hsome]
        rintro ⟨hbelow, hfit, hne⟩
        -- the entry that would be carried over to the path of one that stays
        obtain ⟨w, hw⟩ := Option.ne_none_iff_exists'.mp hne
        obtain ⟨j, g, hg, hpath, -⟩ := (h.mapped _ w).mp hw
        have hto : refront oldp newp g.path = e.path := by
          rw [hpath, refront_refront, refront_eq_self (.inr hbelow)]
        have hfrom : Below slash oldp g.path := hpath ▸ refront_below hbelow oldp
        exact (hclash j i g e hg hf hfrom (hto ▸ hfit)).2 hnot hto.symm

theorem CnsSays.erase_rebase (h : CnsSays slots m) (hclash : NoClash slots oldp newp) :
    (m.rebase oldp newp fun p => Below slash oldp p).erase oldp =
      m.rebase oldp newp fun p => AtOrBelow slash oldp p := by
  funext p
  by_cases hp : p = oldp
  · subst hp
    rw [CnsMap.erase, update_self, CnsMap.rebase, if_neg, if_pos (by simp [AtOrBelow])]
    rintro ⟨hbelow, hfit, hne⟩
    obtain ⟨v, hv⟩ := Option.ne_none_iff_exists'.mp hne
    obtain ⟨i, e, he, hpath, -⟩ := (h.mapped _ v).mp hv
    have hto : refront p newp e.path = p := by
      rw [hpath, refront_refront, refront_eq_self (.inr hbelow)]
    have hfrom : Below slash p e.path := hpath ▸ refront_below hbelow p
    exact (hclash i i e e he he hfrom (hto.symm ▸ hfit)).1 hto
  · simp [CnsMap.erase, CnsMap.rebase, AtOrBelow, hp]

/-! ### Events -/

namespace CnsInv.Maps

variable {inv : CnsInv} {capacity : ℕ} {v : CnsMeta}

theorem put_eq_update (h : inv.Maps m) (hcap : inv.slots.length = capacity)
    (hroom : m path ≠ none ∨ invFreeSlot inv.slots ≠ none) :
    m.put capacity path v = update m path (some v) := by
  rw [← h.agree.full_iff, hcap] at hroom
  rw [CnsMap.put, if_pos hroom]

theorem put_eq_self (h : inv.Maps m) (hcap : inv.slots.length = capacity) (hnew : m path = none)
    (hfull : invFreeSlot inv.slots = none) : m.put capacity path v = m := by
  rw [CnsMap.put, if_neg]
  rintro (hne | hroom)
  · exact hne hnew
  · rw [← hcap, h.agree.full_iff] at hroom
    exact hroom hfull

theorem overwrite (h : inv.Maps m) (hcap : inv.slots.length = capacity)
    (hfind : invFind inv.slots e.path = some i) :
    (inv.write i e).Maps (m.put capacity e.path e.stat) := by
  obtain ⟨f, hf, hpath⟩ := invFind_eq_some hfind
  have hsome := (h.agree.mapped _ _).mpr ⟨i, f, hf, hpath, rfl⟩
  have hwrite := h.write (e := e) hf (by rw [CnsMap.erase, hpath, update_self])
  rw [CnsMap.erase, hpath, update_idem] at hwrite
  rwa [h.put_eq_update hcap (.inl (by simp [hsome]))]

theorem insert (h : inv.Maps m) (hcap : inv.slots.length = capacity)
    (hfind : invFind inv.slots e.path = none) :
    (match invFreeSlot inv.slots with
      | some i => { inv with count := inv.count + 1 }.write i e
      | none => inv).Maps (m.put capacity e.path e.stat) := by
  have hnew := h.eq_none_iff.mpr hfind
  cases hfree : invFreeSlot inv.slots with
  | some i =>
    rw [h.put_eq_update hcap (.inr (by simp [hfree]))]
    exact h.fill (invFreeSlot_eq_some hfree) hnew
  | none =>
    rw [h.put_eq_self hcap hnew hfree]
    exact h

theorem remove (h : inv.Maps m) (path : Bytes) :
    (match invFind inv.slots path with
      | some i => inv.retire i
      | none => inv).Maps (m.erase path) := by
  cases hfind : invFind inv.slots path with
  | some i =>
    obtain ⟨e, he, rfl⟩ := invFind_eq_some hfind
    exact h.retire he
  | none =>
    have hnone := h.eq_none_iff.mpr hfind
    rw [CnsMap.erase, ← hnone, update_eq_self]
    exact h

/-- One event from a data server, applied -/
theorem applied (h : inv.Maps m) (hcap : inv.slots.length = capacity) (op : UInt8)
    (path : Bytes) (size mtime : UInt64) (serverId : UInt32) :
    (brixCnsInvApply inv op path size mtime serverId).2.Maps
      (m.step capacity (.apply op path size mtime serverId)) := by
  have hupsert (isDir : Bool) :
      (match invFind inv.slots path with
        | some i => (true, inv.write i ⟨path, ⟨size, mtime, isDir⟩, serverId⟩)
        | none =>
          match invFreeSlot inv.slots with
          | some i =>
            (true, { inv with count := inv.count + 1 }.write i
              ⟨path, ⟨size, mtime, isDir⟩, serverId⟩)
          | none => (false, inv)).2.Maps (m.put capacity path ⟨size, mtime, isDir⟩) := by
    cases hfind : invFind inv.slots path with
    | some i =>
      have hover := h.overwrite (e := ⟨path, ⟨size, mtime, isDir⟩, serverId⟩) hcap hfind
      exact hover
    | none =>
      have hins := h.insert (e := ⟨path, ⟨size, mtime, isDir⟩, serverId⟩) hcap hfind
      cases hfree : invFreeSlot inv.slots with
      | some i | none => simpa [hfree] using hins
  have hremove :
      (match invFind inv.slots path with
        | some i => (true, inv.retire i)
        | none => (true, inv)).2.Maps (m.erase path) := by
    have hrem := h.remove path
    cases hfind : invFind inv.slots path with
    | some i | none => simpa [hfind] using hrem
  rw [brixCnsInvApply, CnsMap.step]
  by_cases hok : cnsPathOk path = true
  · rw [if_neg (by simp [hok]), if_pos hok]
    cases cnsOp op with
    | none => exact h
    | some op =>
      cases op with
      | add => exact hupsert false
      | mkdir => exact hupsert true
      | del | rmdir => exact hremove
  · rw [if_pos (by simp [hok]), if_neg hok]
    exact h

/-- The renamed entry itself lands where the destination was, or is dropped. -/
theorem landed (oldp : Bytes) (e : CnsEntry) (h : inv.Maps m) (hcap : inv.slots.length = capacity) :
    (match invRenameDestSlot inv oldp e.path with
      | none => inv
      | some (i, inv) => inv.write i e).Maps ((m.erase oldp).put capacity e.path e.stat) := by
  rw [invRenameDestSlot]
  cases hsrc : invFind inv.slots oldp with
  | none =>
    have hgone : m.erase oldp = m := by
      rw [CnsMap.erase, ← h.eq_none_iff.mpr hsrc, update_eq_self]
    rw [hgone]
    cases hdst : invFind inv.slots e.path with
    | some dst => exact h.overwrite hcap hdst
    | none =>
      have hins := h.insert hcap hdst
      cases hfree : invFreeSlot inv.slots with
      | some i | none => simpa [hfree] using hins
  | some src =>
    obtain ⟨f, hf, rfl⟩ := invFind_eq_some hsrc
    have hretired := h.retire hf
    have hlen : (inv.retire src).slots.length = capacity := by
      rw [CnsInv.retire, length_set, hcap]
    cases hdst : invFind inv.slots e.path with
    | some dst =>
      obtain ⟨g, hg, hpath⟩ := invFind_eq_some hdst
      by_cases hsame : src = dst
      · -- the destination is the source
        subst hsame
        rw [hf] at hg
        cases hg
        have hwrite := h.write (e := e) hf (by rw [CnsMap.erase, hpath, update_self])
        rw [hretired.put_eq_update hlen (.inr (invFreeSlot_retire hf))]
        simpa using hwrite
      · have hfind : (inv.retire src).slots[dst]? = some (some g) :=
          (getElem?_set_slot hf).mpr (.inr ⟨Ne.symm hsame, hg⟩)
        have hsome := (hretired.agree.mapped _ _).mpr ⟨dst, g, hfind, hpath, rfl⟩
        have hwrite := hretired.write (e := e) hfind
          (by rw [CnsMap.erase, hpath, update_self])
        rw [CnsMap.erase, hpath, update_idem] at hwrite
        rw [hretired.put_eq_update hlen (.inl (by simp [hsome]))]
        simpa [hsame] using hwrite
    | none =>
      have hnew : m.erase f.path e.path = none := by
        rw [CnsMap.erase]
        by_cases hpath : e.path = f.path
        · rw [hpath, update_self]
        · rw [update_of_ne hpath, h.eq_none_iff.mpr hdst]
      rw [hretired.put_eq_update hlen (.inr (invFreeSlot_retire hf))]
      exact h.write hf hnew

end CnsInv.Maps

@[simp]
theorem CnsInv.length_write (inv : CnsInv) (i : ℕ) (e : CnsEntry) :
    (inv.write i e).slots.length = inv.slots.length := length_set

@[simp]
theorem CnsInv.length_retire (inv : CnsInv) (i : ℕ) :
    (inv.retire i).slots.length = inv.slots.length := length_set

theorem invRenameDestSlot_length {inv inv' : CnsInv}
    (h : invRenameDestSlot inv oldp newp = some (i, inv')) :
    inv'.slots.length = inv.slots.length := by
  rw [invRenameDestSlot] at h
  split at h
  · next dst src _ _ =>
    obtain ⟨-, rfl⟩ := Prod.mk.inj (Option.some.inj h)
    split <;> simp
  · obtain ⟨-, rfl⟩ := Prod.mk.inj (Option.some.inj h)
    rfl
  · obtain ⟨-, rfl⟩ := Prod.mk.inj (Option.some.inj h)
    rfl
  · split at h
    · obtain ⟨-, rfl⟩ := Prod.mk.inj (Option.some.inj h)
      rfl
    · cases h

theorem CnsInv.length_step (inv : CnsInv) (ev : CnsEvent) :
    (inv.step ev).slots.length = inv.slots.length := by
  cases ev with
  | apply op path size mtime serverId =>
    simp only [CnsInv.step, brixCnsInvApply]
    repeat' split
    all_goals simp
  | rename oldp newp size mtime isDir serverId =>
    have hpass : (invRenameSubtree oldp newp inv.slots inv.count).1.length = inv.slots.length := by
      rw [invRenameSubtree_fst, length_map]
    simp only [CnsInv.step, brixCnsInvRename]
    split
    · rfl
    · cases hdest : invRenameDestSlot ⟨(invRenameSubtree oldp newp inv.slots inv.count).1,
          (invRenameSubtree oldp newp inv.slots inv.count).2⟩ oldp newp with
      | none => simp [hpass]
      | some dest =>
        have hlen := invRenameDestSlot_length hdest
        simp [hlen, hpass]

/-- The events after which the inventory is a map: all but the renames that make two entries
clash. -/
def CnsInv.Admits (inv : CnsInv) : CnsEvent → Prop
  | .apply .. => True
  | .rename oldp newp .. =>
    cnsPathOk oldp = true → cnsPathOk newp = true → NoClash inv.slots oldp newp

/-- **One event** keeps the inventory in step with its map. -/
theorem CnsInv.Maps.step {inv : CnsInv} {capacity : ℕ} (h : inv.Maps m)
    (hcap : inv.slots.length = capacity) {ev : CnsEvent} (hev : inv.Admits ev) :
    (inv.step ev).Maps (m.step capacity ev) := by
  cases ev with
  | apply op path size mtime serverId => exact h.applied hcap op path size mtime serverId
  | rename oldp newp size mtime isDir serverId =>
    rw [CnsInv.step, brixCnsInvRename, CnsMap.step]
    by_cases hok : (cnsPathOk oldp && cnsPathOk newp) = true
    · obtain ⟨hold, hnew⟩ := Bool.and_eq_true_iff.mp hok
      have hclash := hev hold hnew
      have hcount := @invRenameSubtree_snd oldp newp inv.slots 0
      rw [Nat.add_zero, Nat.add_zero, ← h.counted] at hcount
      have hpass : (CnsInv.mk (inv.slots.map (moveSlot oldp newp))
          ((inv.slots.map (moveSlot oldp newp)).countP Option.isSome)).Maps _ :=
        ⟨h.agree.move hclash, rfl⟩
      have hland := hpass.landed oldp ⟨newp, ⟨size, mtime, isDir⟩, serverId⟩
        (by rw [length_map, hcap])
      rw [h.agree.erase_rebase hclash] at hland
      rw [if_neg (by simp [hold, hnew]), if_pos hok]
      simp only [invRenameSubtree_fst, hcount]
      cases hdest : invRenameDestSlot ⟨inv.slots.map (moveSlot oldp newp),
          (inv.slots.map (moveSlot oldp newp)).countP Option.isSome⟩ oldp newp with
      | none =>
        rw [hdest] at hland
        exact hland
      | some dest =>
        rw [hdest] at hland
        exact hland
    · rw [if_pos, if_neg hok]
      · exact h
      · cases hold : cnsPathOk oldp <;> simp_all

/-- **The inventory is a map** through every run without a clash: in every state reached no two
slots record one path, the count is the number of slots in use, and what is told of a path is what
the map of the same events says. -/
theorem cns_inventory_maps (capacity : ℕ) (evs : List CnsEvent)
    (hevs : ∀ pre ev, pre ++ [ev] <+: evs →
      (pre.foldl CnsInv.step (brixCnsInvInit capacity)).Admits ev) :
    ∀ pre, pre <+: evs →
      let inv := pre.foldl CnsInv.step (brixCnsInvInit capacity)
      (∀ (i j : ℕ) (e f : CnsEntry), inv.slots[i]? = some (some e) →
        inv.slots[j]? = some (some f) → e.path = f.path → i = j) ∧
      inv.count = inv.slots.countP Option.isSome ∧
      ∀ path, brixCnsInvStat inv path =
        pre.foldl (CnsMap.step capacity) (fun _ => none) path := by
  have hmaps : ∀ pre, pre <+: evs →
      (pre.foldl CnsInv.step (brixCnsInvInit capacity)).Maps
        (pre.foldl (CnsMap.step capacity) fun _ => none) ∧
      (pre.foldl CnsInv.step (brixCnsInvInit capacity)).slots.length = capacity := by
    intro pre hpre
    induction pre using reverseRecOn with
    | nil => exact ⟨CnsInv.Maps.init capacity, length_replicate⟩
    | append_singleton pre ev ih =>
      obtain ⟨hm, hcap⟩ := ih ((prefix_append pre [ev]).trans hpre)
      rw [foldl_append, foldl_append]
      exact ⟨hm.step hcap (hevs pre ev hpre), (CnsInv.length_step _ ev).trans hcap⟩
  intro pre hpre
  obtain ⟨hm, -⟩ := hmaps pre hpre
  exact ⟨hm.agree.distinct, hm.counted, hm.stat⟩

/-- `/a/x` is carried over to `/b/x`, which is not recorded. -/
theorem cns_inventory_maps_rename :
    let evs : List CnsEvent := [.apply 3 [47, 97] 0 0 1, .apply 1 [47, 97, 47, 120] 5 0 1,
      .rename [47, 97] [47, 98] 0 0 true 1]
    (∀ pre ev, pre ++ [ev] <+: evs →
      (pre.foldl CnsInv.step (brixCnsInvInit 4)).Admits ev) ∧
    ∀ pre, pre <+: evs →
      let inv := pre.foldl CnsInv.step (brixCnsInvInit 4)
      (∀ (i j : ℕ) (e f : CnsEntry), inv.slots[i]? = some (some e) →
        inv.slots[j]? = some (some f) → e.path = f.path → i = j) ∧
      inv.count = inv.slots.countP Option.isSome ∧
      ∀ path, brixCnsInvStat inv path = pre.foldl (CnsMap.step 4) (fun _ => none) path := by
  intro evs
  have hevs : ∀ pre ev, pre ++ [ev] <+: evs →
      (pre.foldl CnsInv.step (brixCnsInvInit 4)).Admits ev := by
    intro pre ev hpre
    obtain _ | ⟨_, _ | ⟨_, _ | ⟨_, pre⟩⟩⟩ := pre
    · obtain rfl : ev = _ := by simpa [evs] using hpre
      trivial
    · obtain ⟨rfl, rfl⟩ : _ ∧ ev = _ := by simpa [evs] using hpre
      trivial
    · obtain ⟨rfl, rfl, rfl⟩ : _ ∧ _ ∧ ev = _ := by simpa [evs] using hpre
      intro _ _ i j e f he hf hbelow _
      have hslots : ([CnsEvent.apply 3 [47, 97] 0 0 1, .apply 1 [47, 97, 47, 120] 5 0 1].foldl
          CnsInv.step (brixCnsInvInit 4)).slots =
            [some ⟨[47, 97], ⟨0, 0, true⟩, 1⟩, some ⟨[47, 97, 47, 120], ⟨5, 0, false⟩, 1⟩,
              none, none] := by decide
      rw [hslots] at he hf
      have he := mem_of_getElem? he
      have hf := mem_of_getElem? hf
      simp only [mem_cons, Option.some.injEq, reduceCtorEq, not_mem_nil,
        or_false] at he hf
      obtain rfl | rfl := he
      · exact absurd hbelow (by decide)
      · obtain rfl | rfl := hf <;> decide
    · simp [evs] at hpre
  exact ⟨hevs, cns_inventory_maps 4 evs hevs⟩

/-- `/a` is renamed to `/b` where both have an `x`: two slots record `/b/x`. -/
theorem rename_records_twice :
    ¬∀ (capacity : ℕ) (evs : List CnsEvent) (i j : ℕ) (e f : CnsEntry),
      (evs.foldl CnsInv.step (brixCnsInvInit capacity)).slots[i]? = some (some e) →
      (evs.foldl CnsInv.step (brixCnsInvInit capacity)).slots[j]? = some (some f) →
      e.path = f.path → i = j := by
  intro h
  have htwice := h 4 [.apply 3 [47, 97] 0 0 1, .apply 1 [47, 97, 47, 120] 5 0 1,
    .apply 3 [47, 98] 0 0 1, .apply 1 [47, 98, 47, 120] 7 0 1,
    .rename [47, 97] [47, 98] 0 0 true 1] 1 3 ⟨[47, 98, 47, 120], ⟨5, 0, false⟩, 1⟩
    ⟨[47, 98, 47, 120], ⟨7, 0, false⟩, 1⟩ (by decide) (by decide) rfl
  simp at htwice

end BrixCache

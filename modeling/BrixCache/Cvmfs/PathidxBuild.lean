import BrixCache.Cvmfs.Pathidx
import BrixCache.Lib.LinearProbe

/-!
# Building a path index

The other half of `shared/cvmfs/index/pathidx.c`: the builder gathers the entries of a revision,
sorts them by directory and name, and lays out the file. Memory and the file system do not fail
here, and what `qsort` leaves is a sorted permutation; counts and offsets are numbers until they are
stored in a field.
-/

namespace BrixCache

open Segments List

/-! ## The builder -/

/-- `cvmfs_pathidx_bent_t` -/
structure PathidxBent : Type where
  path : Bytes
  link : Option Bytes
  size : UInt64
  mtime : Int64
  mode : UInt32
  flags : UInt32
  uid : UInt32
  gid : UInt32
  linkcount : UInt32
  hasHash : UInt32
  hash : PathidxHash

/-- The entry `cvmfs_pathidx_build_add` makes of a path and a dirent; the hash of a dirent without
one is zero. -/
def pathidxBent (path : Bytes) (e : PathidxDirent) : PathidxBent where
  path := path
  -- `CVMFS_FLAG_LINK`
  link := if e.flags &&& 8 ≠ 0 ∧ e.symlink ≠ [] then some e.symlink else none
  size := e.size
  mtime := e.mtime
  mode := e.mode
  flags := e.flags
  uid := e.uid
  gid := e.gid
  linkcount := e.linkcount
  hasHash := if e.hash.isSome then 1 else 0
  hash := e.hash.getD ⟨0, .replicate 20 0, 0⟩

def cvmfsPathidxBuildAdd (b : List PathidxBent) (path : Bytes) (e : PathidxDirent) :
    List PathidxBent := b ++ [pathidxBent path e]

/-- Adding one entry after the other -/
def pathidxBuild (entries : List (Bytes × PathidxDirent)) : List PathidxBent :=
  entries.foldl (fun b p => cvmfsPathidxBuildAdd b p.1 p.2) []

theorem pathidxBuild_eq (entries : List (Bytes × PathidxDirent)) :
    pathidxBuild entries = entries.map fun p => pathidxBent p.1 p.2 := by
  have hfold : ∀ b : List PathidxBent,
      entries.foldl (fun b p => cvmfsPathidxBuildAdd b p.1 p.2) b =
        b ++ entries.map fun p => pathidxBent p.1 p.2 := by
    induction entries with
    | nil => simp
    | cons p rest ih =>
      intro b
      rw [foldl_cons, ih, cvmfsPathidxBuildAdd, map_cons, append_assoc,
        singleton_append]
  exact hfold []

/-! ## The order -/

def bentDlen (e : PathidxBent) : UInt32 := UInt32.ofNat ((beforeLast slash e.path).getD []).length

/-- The name `bent_cmp` compares -/
def bentName (e : PathidxBent) : Bytes :=
  if e.path = [] then [] else e.path.drop ((bentDlen e).toNat + 1)

/-- Directory first, then leaf. -/
def bentCmp (a b : PathidxBent) : Ordering :=
  let da := (bentDlen a).toNat
  let db := (bentDlen b).toNat
  let m := min da db
  ((compare (a.path.take m) (b.path.take m)).then (compare da db)).then
    (compare (bentName a) (bentName b))

/-- The directory an entry is sorted under -/
def bentDir (e : PathidxBent) : Bytes := e.path.take (bentDlen e).toNat

theorem length_bentDir (e : PathidxBent) : (bentDir e).length = (bentDlen e).toNat := by
  have hle : ((beforeLast slash e.path).getD []).length ≤ e.path.length := by
    cases h : beforeLast slash e.path with
    | none => exact Nat.zero_le _
    | some d => exact Nat.le_of_lt (length_beforeLast h)
  have hmod : (bentDlen e).toNat ≤ ((beforeLast slash e.path).getD []).length := by
    rw [bentDlen, UInt32.toNat_ofNat']
    exact Nat.mod_le _ _
  rw [bentDir, length_take]
  omega

theorem compare_take_then (x y : Bytes) :
    (compare (x.take (min x.length y.length)) (y.take (min x.length y.length))).then
      (compare x.length y.length) = compare x y := by
  induction x generalizing y with
  | nil => cases y <;> rfl
  | cons a x ih =>
    cases y with
    | nil => rfl
    | cons b y =>
      have hlen : compare (a :: x).length (b :: y).length = compare x.length y.length := by
        simp [Nat.compare_eq_ite_lt]
      have hcons : ∀ u v : Bytes,
          compare (a :: u) (b :: v) = (compare a b).then (compare u v) :=
        fun _ _ => List.compareLex_cons_cons
      rw [hlen, length_cons, length_cons, Nat.add_min_add_right, take_succ_cons,
        take_succ_cons, hcons, hcons, Ordering.then_assoc, ih]

theorem bentCmp_eq (a b : PathidxBent) :
    bentCmp a b = (compare (bentDir a) (bentDir b)).then (compare (bentName a) (bentName b)) := by
  have ha := length_bentDir a
  have hb := length_bentDir b
  have htake : ∀ e : PathidxBent, ∀ m ≤ (bentDlen e).toNat, e.path.take m = (bentDir e).take m := by
    intro e m hm
    rw [bentDir, take_take, Nat.min_eq_left hm]
  rw [bentCmp, ← compare_take_then (bentDir a) (bentDir b), ha, hb,
    htake a _ (Nat.min_le_left _ _), htake b _ (Nat.min_le_right _ _)]

/-! ## The image -/

/-- The strings of an entry, as they come into the blob -/
def bentText (be : PathidxBent) : Bytes :=
  be.path ++ 0 :: be.link.elim [] fun l => l ++ [0]

/-- The doubling of `image_alloc`, at most so often -/
def doubleUntil (want : ℕ) : ℕ → ℕ → ℕ
  | 0, n => n
  | fuel + 1, n => if n < want then doubleUntil want fuel (2 * n) else n

/-- `image->nbuckets` -/
def imageBuckets (n : ℕ) : ℕ := doubleUntil (2 * n) n 8

/-- `pathidx_image_t`, without the sizes it is allocated with -/
structure PathidxImage : Type where
  ents : List PathidxEnt
  buckets : List UInt32
  blob : Bytes

/-- The entry `image_add_entry` fills, at an offset of the blob -/
def imageEntry (be : PathidxBent) (off : ℕ) : PathidxEnt where
  pathOff := UInt64.ofNat off
  pathLen := UInt32.ofNat be.path.length
  dlen := bentDlen be
  size := be.size
  mtime := be.mtime
  mode := be.mode
  flags := be.flags
  linkOff := be.link.elim 0 fun _ => UInt64.ofNat (off + be.path.length + 1)
  linkLen := be.link.elim 0 fun l => UInt32.ofNat l.length
  hasHash := be.hasHash
  uid := be.uid
  gid := be.gid
  linkcount := be.linkcount
  rsvd := 0
  hash := be.hash

/-- The loop of `image_add_entry` over the buckets from a slot on; none is a loop without end. -/
def freeBucket (buckets : List UInt32) (mask : ℕ) : ℕ → ℕ → Option ℕ
  | 0, _ => none
  | fuel + 1, slot =>
    if buckets.getD slot 0 ≠ 0 then freeBucket buckets mask fuel ((slot + 1) &&& mask)
    else some slot

/-- `image_add_entry`, of the next index -/
def imageAddEntry (nbuckets : ℕ) (image : PathidxImage) (be : PathidxBent) :
    Option PathidxImage := do
  let home := (pathidxFnv1a be.path).toNat &&& (nbuckets - 1)
  let slot ← freeBucket image.buckets (nbuckets - 1) nbuckets home
  some
    { ents := image.ents ++ [imageEntry be image.blob.length]
      buckets := image.buckets.set slot (UInt32.ofNat image.ents.length + 1)
      blob := image.blob ++ bentText be }

/-- `image_alloc` and `image_fill` -/
def imageFill (v : List PathidxBent) : Option PathidxImage :=
  v.foldlM (imageAddEntry (imageBuckets v.length))
    ⟨[], replicate (imageBuckets v.length) 0, []⟩

def headerBuild (crc32 : Bytes → UInt32) (n : ℕ) (root : PathidxHash) (nbuckets blobLen : ℕ) :
    PathidxHdr :=
  let bucketsOff : UInt64 := 112 + UInt64.ofNat n * 104
  let blobOff := bucketsOff + UInt64.ofNat nbuckets * 4
  let h : PathidxHdr :=
    { magic := 0x49505842
      version := 1
      hashSz := 32
      entSz := 104
      root := root
      count := UInt64.ofNat n
      nbuckets := UInt64.ofNat nbuckets
      entsOff := 112
      bucketsOff := bucketsOff
      blobOff := blobOff
      blobLen := UInt64.ofNat blobLen
      fileLen := blobOff + UInt64.ofNat blobLen
      hdrCrc := 0
      rsvd := 0 }
  { h with hdrCrc := hdrCrc crc32 h }

/-- `cvmfs_pathidx_write`: the bytes of the file -/
def cvmfsPathidxWrite (crc32 : Bytes → UInt32) (b : List PathidxBent) (root : PathidxHash) :
    Option Bytes :=
  if b = [] then none
  else do
    let v := b.mergeSort fun x y => (bentCmp x y).isLE
    let image ← imageFill v
    let h := headerBuild crc32 v.length root (imageBuckets v.length) image.blob.length
    some (Wire.put h ++ (Wire.putAll image.ents ++ (Wire.putAll image.buckets ++ image.blob)))

end BrixCache

/-!
## What the image holds

The table is at most half full, so that the loop for a free bucket ends.
-/

namespace BrixCache

open LinearProbe List

/-! ### The size of the table -/

theorem doubleUntil_pow (want fuel j : ℕ) : ∃ k, doubleUntil want fuel (2 ^ j) = 2 ^ k := by
  induction fuel generalizing j with
  | zero => exact ⟨j, rfl⟩
  | succ fuel ih =>
    rw [doubleUntil]
    split
    · rw [← Nat.pow_succ']
      exact ih (j + 1)
    · exact ⟨j, rfl⟩

theorem le_doubleUntil {want fuel n : ℕ} (h : want ≤ 2 ^ fuel * n) :
    want ≤ doubleUntil want fuel n := by
  induction fuel generalizing n with
  | zero =>
    rw [Nat.pow_zero, Nat.one_mul] at h
    exact h
  | succ fuel ih =>
    rw [doubleUntil]
    split
    · refine ih ?_
      rw [← Nat.mul_assoc, ← Nat.pow_succ]
      exact h
    · omega

theorem imageBuckets_spec (n : ℕ) : (∃ k, imageBuckets n = 2 ^ k) ∧ 2 * n ≤ imageBuckets n := by
  refine ⟨doubleUntil_pow (2 * n) n 3, le_doubleUntil ?_⟩
  have hlt : n < 2 ^ n := Nat.lt_two_pow_self
  omega

/-! ### The table -/

def bucketIndex (w : UInt32) : Option ℕ := if w = 0 then none else some (w.toNat - 1)

/-- The buckets as a table of indices -/
def bucketSlots (buckets : List UInt32) (i : ℕ) : Option ℕ := bucketIndex (buckets.getD i 0)

/-- The slot a path hashes to -/
def pathHome (nbuckets : ℕ) (path : Bytes) : ℕ :=
  (pathidxFnv1a path).toNat &&& (nbuckets - 1)

/-- The slot the path of an entry hashes to -/
def entHome (v : List PathidxBent) (nbuckets i : ℕ) : ℕ :=
  pathHome nbuckets (v[i]?.elim [] PathidxBent.path)

theorem bucketIndex_eq_none {w : UInt32} : bucketIndex w = none ↔ w = 0 := by
  rw [bucketIndex]
  split <;> simp [*]

theorem pathHome_lt {nbuckets : ℕ} (hpos : 0 < nbuckets) (path : Bytes) :
    pathHome nbuckets path < nbuckets := by
  have hle : (pathidxFnv1a path).toNat &&& (nbuckets - 1) ≤ nbuckets - 1 := Nat.and_le_right
  rw [pathHome]
  omega

theorem bucketSlots_set {buckets : List UInt32} {i idx : ℕ} (hi : i < buckets.length)
    (hidx : idx + 1 < 2 ^ 32) :
    bucketSlots (buckets.set i (UInt32.ofNat idx + 1)) = put (bucketSlots buckets) i (some idx) := by
  have hw : (UInt32.ofNat idx + 1).toNat = idx + 1 := by
    simp only [UInt32.toNat_add, UInt32.toNat_ofNat', UInt32.reduceToNat]
    omega
  funext j
  rcases eq_or_ne j i with rfl | hne
  · have hz : UInt32.ofNat idx + 1 ≠ 0 := by
      intro h
      rw [h] at hw
      simp at hw
    rw [put_self, bucketSlots, getD_eq_getElem?_getD, getElem?_set_self hi,
      Option.getD_some, bucketIndex, if_neg hz, hw, Nat.add_sub_cancel]
  · rw [put_of_ne _ _ hne, bucketSlots, bucketSlots, getD_eq_getElem?_getD,
      getElem?_set_ne hne.symm, getD_eq_getElem?_getD]

variable {k : ℕ} {image : PathidxImage} {v : List PathidxBent}

theorem freeBucket_eq {buckets : List UInt32} {a d : ℕ} (ha : a < 2 ^ k) (hd : d < 2 ^ k)
    (hfree : bucketSlots buckets (ahead (2 ^ k) a d) = none)
    (hfull : ∀ c < d, bucketSlots buckets (ahead (2 ^ k) a c) ≠ none) {fuel c : ℕ} (hc : c ≤ d)
    (hfuel : d - c < fuel) :
    freeBucket buckets (2 ^ k - 1) fuel (ahead (2 ^ k) a c) = some (ahead (2 ^ k) a d) := by
  induction fuel generalizing c with
  | zero => omega
  | succ fuel ih =>
    rw [freeBucket]
    rcases Nat.lt_or_ge c d with hlt | hge
    · have hne : buckets.getD (ahead (2 ^ k) a c) 0 ≠ 0 := fun h =>
        hfull c hlt (bucketIndex_eq_none.mpr h)
      rw [if_pos hne, next_two_pow (ahead_lt ha (by omega)), next_ahead ha (by omega)]
      exact ih hlt (by omega)
    · obtain rfl : c = d := by omega
      rw [if_neg (not_not.mpr (bucketIndex_eq_none.mp hfree))]

/-! ### Filling -/

/-- The image after the entries `front`, of a list `v` of entries that begins with them -/
structure Filled (v : List PathidxBent) (nbuckets : ℕ) (front : List PathidxBent)
    (image : PathidxImage) : Prop where
  blob : image.blob = front.flatMap bentText
  ents : image.ents.length = front.length
  ent : ∀ i be, front[i]? = some be →
    image.ents[i]? = some (imageEntry be ((front.take i).flatMap bentText).length)
  buckets : image.buckets.length = nbuckets
  reachable : Reachable (entHome v nbuckets) nbuckets (bucketSlots image.buckets)
  holds : ∀ i, Holds nbuckets (bucketSlots image.buckets) i ↔ i < front.length
  card : (occupied nbuckets (bucketSlots image.buckets)).card = front.length

theorem bucketSlots_replicate (n i : ℕ) : bucketSlots (replicate n 0) i = none := by
  have hzero : (replicate n (0 : UInt32)).getD i 0 = 0 := by
    rw [getD_eq_getElem?_getD, getElem?_replicate]
    split <;> rfl
  rw [bucketSlots, hzero, bucketIndex, if_pos rfl]

theorem filled_nil (v : List PathidxBent) (nbuckets : ℕ) :
    Filled v nbuckets [] ⟨[], replicate nbuckets 0, []⟩ where
  blob := rfl
  ents := rfl
  ent i be h := by simp at h
  buckets := length_replicate
  reachable i hi e he := by simp [bucketSlots_replicate] at he
  holds i := by simp [Holds, bucketSlots_replicate]
  card := by
    have hempty : occupied nbuckets (bucketSlots (replicate nbuckets 0)) = ∅ := by
      refine Finset.eq_empty_of_forall_notMem fun i hi => ?_
      have hsome := (mem_occupied.mp hi).2
      simp [bucketSlots_replicate] at hsome
    rw [hempty, Finset.card_empty, length_nil]

/-- One more entry finds a free slot of its probe. -/
theorem Filled.step {front rest : List PathidxBent} {be : PathidxBent}
    (hf : Filled v (2 ^ k) front image) (hv : v = front ++ be :: rest)
    (hroom : 2 * v.length ≤ 2 ^ k) (hsmall : v.length < 2 ^ 32) :
    ∃ image', imageAddEntry (2 ^ k) image be = some image' ∧
      Filled v (2 ^ k) (front ++ [be]) image' := by
  have hlen : front.length < v.length := by rw [hv]; simp
  have hhome : entHome v (2 ^ k) front.length = pathHome (2 ^ k) be.path := by
    rw [entHome, hv]
    simp
  have ha : pathHome (2 ^ k) be.path < 2 ^ k := pathHome_lt (Nat.two_pow_pos k) be.path
  -- at most half of the buckets are taken
  obtain ⟨z, hz, hempty⟩ := exists_empty (s := bucketSlots image.buckets) (n := 2 ^ k) (by
    rw [hf.card]
    omega)
  have hex : ∃ z < 2 ^ k, bucketSlots image.buckets z = none := ⟨z, hz, hempty⟩
  obtain ⟨d, hd, hfree, hfull⟩ := exists_first ha hex
  have hslot := @freeBucket_eq _ _ _ _ ha hd hfree hfull (2 ^ k) 0 (Nat.zero_le d) (by omega)
  rw [ahead_zero ha] at hslot
  have hin := ahead_lt ha hd
  have hset := @bucketSlots_set image.buckets (ahead (2 ^ k) (pathHome (2 ^ k) be.path) d)
    image.ents.length (by rw [hf.buckets]; exact hin) (by rw [hf.ents]; omega)
  refine ⟨_, by rw [imageAddEntry, ← pathHome, hslot]; rfl, ?_⟩
  constructor
  · simp [hf.blob]
  · simp [hf.ents]
  · intro i be' hbe'
    rcases Nat.lt_or_ge i front.length with hi | hi
    · rw [getElem?_append_left hi] at hbe'
      rw [getElem?_append_left (by rw [hf.ents]; exact hi), hf.ent i be' hbe',
        take_append_of_le_length (Nat.le_of_lt hi)]
    · have hi' : i = front.length := by
        have hlt := (List.getElem?_eq_some_iff.mp hbe').1
        simp at hlt
        omega
      subst hi'
      obtain rfl : be = be' := by simpa using hbe'
      have hlast : (image.ents ++ [imageEntry be image.blob.length])[front.length]? =
          some (imageEntry be image.blob.length) := by
        rw [← hf.ents]
        simp
      rw [hlast, take_left, hf.blob]
  · simp [hf.buckets]
  · rw [hset]
    refine reachable_put hf.reachable ?_
    rw [hf.ents, hhome]
    exact unbroken_ahead ha hd hfull
  · intro i
    rw [hset, holds_put_some hin, length_append, length_singleton, hf.ents]
    have hold := hf.holds i
    constructor
    · rintro (rfl | ⟨j, hj, -, he⟩)
      · omega
      · have := hold.mp ⟨j, hj, he⟩
        omega
    · intro hi
      rcases Nat.lt_or_ge i front.length with hi | hi
      · obtain ⟨j, hj, he⟩ := hold.mpr hi
        refine .inr ⟨j, hj, ?_, he⟩
        rintro rfl
        rw [hfree] at he
        cases he
      · exact .inl (by omega)
  · rw [hset, card_put_some hin hfree, hf.card]
    simp

theorem Filled.run {front rest : List PathidxBent}
    (hf : Filled v (2 ^ k) front image) (hv : v = front ++ rest)
    (hroom : 2 * v.length ≤ 2 ^ k) (hsmall : v.length < 2 ^ 32) :
    ∃ image', rest.foldlM (imageAddEntry (2 ^ k)) image = some image' ∧
      Filled v (2 ^ k) v image' := by
  induction rest generalizing front image with
  | nil =>
    rw [append_nil] at hv
    exact ⟨image, rfl, hv ▸ hf⟩
  | cons be rest ih =>
    obtain ⟨image₁, hadd, hf₁⟩ := hf.step hv hroom hsmall
    obtain ⟨image', hfold, hf'⟩ := ih hf₁ (by rw [hv]; simp)
    exact ⟨image', by rw [foldlM_cons, hadd]; exact hfold, hf'⟩

theorem imageFill_filled (hsmall : v.length < 2 ^ 32) :
    ∃ image, imageFill v = some image ∧ Filled v (imageBuckets v.length) v image := by
  obtain ⟨⟨k, hk⟩, hroom⟩ := imageBuckets_spec v.length
  rw [imageFill, hk]
  rw [hk] at hroom
  exact (filled_nil v (2 ^ k)).run rfl hroom hsmall

theorem length_imageFill (h : imageFill v = some image) :
    image.ents.length = v.length ∧ image.buckets.length = imageBuckets v.length := by
  have hfold : ∀ (nb : ℕ) (v : List PathidxBent) (start image : PathidxImage),
      v.foldlM (imageAddEntry nb) start = some image →
        image.ents.length = start.ents.length + v.length ∧
          image.buckets.length = start.buckets.length := by
    intro nb v
    induction v with
    | nil =>
      intro start image h
      cases h
      exact ⟨rfl, rfl⟩
    | cons be rest ih =>
      intro start image h
      rw [foldlM_cons, Option.bind_eq_bind, Option.bind_eq_some_iff] at h
      obtain ⟨next, hadd, h⟩ := h
      rw [imageAddEntry, Option.bind_eq_bind, Option.bind_eq_some_iff] at hadd
      obtain ⟨slot, -, hadd⟩ := hadd
      cases hadd
      obtain ⟨hents, hbuckets⟩ := ih _ _ h
      simp only [length_append, length_singleton] at hents
      simp only [length_set] at hbuckets
      refine ⟨?_, hbuckets⟩
      rw [hents, length_cons]
      omega
  obtain ⟨hents, hbuckets⟩ := hfold _ _ _ _ h
  simp only [length_nil, Nat.zero_add] at hents
  simp only [length_replicate] at hbuckets
  exact ⟨hents, hbuckets⟩

end BrixCache

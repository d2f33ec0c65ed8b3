import BrixCache.Cvmfs.PathidxAnswers

/-!
# From the entries to the file and back

The file that is written of a set of entries is opened unless it is too large, and what is opened
answers for the entries it was written from.
-/

namespace BrixCache

open LinearProbe Segments SortedRuns List

/-! ## From the file -/

variable {image : PathidxImage} {ix : Pathidx}

theorem PathidxWritten.reads {be : PathidxBent}
    {front back : Bytes} (hw : PathidxWritten ix image be front back)
    (hl : PathidxListed be (pathDir be.path) (leafOf be.path)) :
    PathidxReads ix be (imageEntry be front.length) :=
  ⟨hw.entValid hl, hw.pathLen, hw.whole, hw.entFill hl, hw.dirCmp hl.named⟩

theorem PathidxWritten.of_filled {v : List PathidxBent} {nbuckets : ℕ}
    (hf : Filled v nbuckets v image) (hp : PathidxParts ix image) {i : ℕ}
    {be : PathidxBent} (hbe : v[i]? = some be) :
    PathidxWritten ix image be ((v.take i).flatMap bentText)
      ((v.drop (i + 1)).flatMap bentText) := by
  refine ⟨hp, ?_⟩
  rw [hf.blob]
  conv => lhs; rw [(exists_split hbe).1]
  rw [flatMap_append, flatMap_cons]

theorem PathidxAnswering.of_filled {v : List PathidxBent} {k : ℕ} (hf : Filled v (2 ^ k) v image)
    (hp : PathidxParts ix image)
    (hroom : 2 * v.length ≤ 2 ^ k)
    (hl : ∀ be ∈ v, PathidxListed be (pathDir be.path) (leafOf be.path)) :
    PathidxAnswering ix v k (bucketSlots image.buckets) where
  count := by rw [hp.count, hf.ents]
  nbuckets := by rw [hp.nbuckets, hf.buckets]
  ent i be hbe := ⟨_, hp.ent (hf.ent i be hbe),
    (PathidxWritten.of_filled hf hp hbe).reads (hl be (mem_of_getElem? hbe))⟩
  bucket slot hs := by
    have hget : image.buckets[slot.toNat]? = some (image.buckets.getD slot.toNat 0) := by
      rw [getD_eq_getElem?_getD, getElem?_eq_getElem (by rw [hf.buckets]; exact hs)]
      rfl
    exact ⟨_, hp.bucket hget rfl, rfl⟩
  reachable := hf.reachable
  holds := hf.holds
  empty := by
    refine exists_empty ?_
    rw [hf.card]
    have := Nat.two_pow_pos k
    omega

/-- The size of the file that is written -/
def pathidxSize (b : List PathidxBent) : ℕ :=
  112 + 104 * b.length + 4 * imageBuckets b.length + (b.flatMap bentText).length

section File

variable (crc32 : Bytes → UInt32) (root : PathidxHash)

def imageHdr (image : PathidxImage) : PathidxHdr :=
  headerBuild crc32 image.ents.length root image.buckets.length image.blob.length

/-- The file the build writes, opened. -/
def imageFile (image : PathidxImage) : Pathidx where
  map := Wire.put (imageHdr crc32 root image) ++
    (Wire.putAll image.ents ++ (Wire.putAll image.buckets ++ image.blob))
  hdr := imageHdr crc32 root image

theorem length_sections (image : PathidxImage) :
    (Wire.putAll image.ents ++ (Wire.putAll image.buckets ++ image.blob)).length =
      104 * image.ents.length + 4 * image.buckets.length + image.blob.length := by
  rw [length_append, length_append, length_ents, length_buckets]
  omega

theorem length_imageHdr (image : PathidxImage) :
    (Wire.put (imageHdr crc32 root image)).length = pathidxHdrSize := Wire.put_length _

variable {image : PathidxImage}

theorem imageFile_parts
    (hsmall : 112 + 104 * image.ents.length + 4 * image.buckets.length + image.blob.length ≤
      2 ^ 30) : PathidxParts (imageFile crc32 root image) image := by
  have hput := length_imageHdr crc32 root image
  have hsections := length_sections image
  constructor
  · rfl
  · rw [imageFile, length_append, hput, hsections, pathidxHdrSize]
    omega
  all_goals
    simp only [imageFile, imageHdr, headerBuild, UInt64.toNat_add, UInt64.toNat_mul,
      UInt64.toNat_ofNat', UInt64.reduceToNat]
  all_goals omega

theorem open_imageFile {ix : Pathidx}
    (h : cvmfsPathidxOpen crc32 (imageFile crc32 root image).map = some ix) :
    ix = imageFile crc32 root image ∧
      112 + 104 * image.ents.length + 4 * image.buckets.length + image.blob.length ≤ 2 ^ 30 := by
  have hput := length_imageHdr crc32 root image
  have hsections := length_sections image
  have hlen := (open_eq_some h).2.1
  have hget : (Wire.get ((imageFile crc32 root image).map.take pathidxHdrSize) : PathidxHdr) =
      imageHdr crc32 root image := by
    rw [imageFile, take_left' hput, Wire.get_put]
  constructor
  · rw [cvmfsPathidxOpen] at h
    split at h
    · simp at h
    · dsimp only at h
      split at h
      · have heq := Option.some.inj h
        rw [← heq, hget]
        rfl
      · simp at h
  · rw [imageFile, length_append, hput, hsections, pathidxHdrSize] at hlen
    omega

/-- A file that was built is accepted. -/
theorem imageFile_opens {k : ℕ} (hk : image.buckets.length = 2 ^ k) (hpos : 0 < image.ents.length)
    (hsmall : 112 + 104 * image.ents.length + 4 * image.buckets.length + image.blob.length ≤
      2 ^ 30) :
    cvmfsPathidxOpen crc32 (imageFile crc32 root image).map =
      some (imageFile crc32 root image) := by
  have hsections := length_sections image
  have hparts := imageFile_parts crc32 root hsmall
  have hcrc : hdrCrc crc32 (imageHdr crc32 root image) = (imageHdr crc32 root image).hdrCrc :=
    hdrCrc_set crc32 _ _
  have hkpos := Nat.two_pow_pos k
  have hcount : (imageHdr crc32 root image).count.toNat = image.ents.length := hparts.count
  have hblobOff : (imageHdr crc32 root image).blobOff.toNat =
    112 + 104 * image.ents.length + 4 * image.buckets.length := hparts.blobOff
  have hblobLen : (imageHdr crc32 root image).blobLen.toNat = image.blob.length := hparts.blobLen
  have hnb : (imageHdr crc32 root image).nbuckets.toNat = 2 ^ k := hparts.nbuckets.trans hk
  have hlen : (UInt64.ofNat (pathidxHdrSize + (Wire.putAll image.ents ++
      (Wire.putAll image.buckets ++ image.blob)).length)).toNat =
      112 + 104 * image.ents.length + 4 * image.buckets.length + image.blob.length := by
    rw [hsections, pathidxHdrSize, UInt64.toNat_ofNat']
    omega
  have hfile : (imageHdr crc32 root image).blobOff + (imageHdr crc32 root image).blobLen =
      UInt64.ofNat (pathidxHdrSize + (Wire.putAll image.ents ++
        (Wire.putAll image.buckets ++ image.blob)).length) := by
    refine UInt64.toNat_inj.mp ?_
    rw [hlen, UInt64.toNat_add, hblobOff, hblobLen]
    omega
  refine open_put (by rw [hsections, pathidxHdrSize, pidxMaxBytes]; omega) ?_ ?_ ?_
  · have hfileLen : (imageHdr crc32 root image).fileLen =
      (imageHdr crc32 root image).blobOff + (imageHdr crc32 root image).blobLen := rfl
    rw [headerIdentityValid, hcrc, hfileLen, hfile]
    simp [imageHdr, headerBuild]
  · have hle : (1 : UInt64) ≤ (imageHdr crc32 root image).nbuckets := by
      rw [UInt64.le_iff_toNat_le, hnb]
      exact hkpos
    have hpow : (imageHdr crc32 root image).nbuckets &&&
        ((imageHdr crc32 root image).nbuckets - 1) = 0 := by
      refine UInt64.toNat_inj.mp ?_
      rw [UInt64.toNat_and, UInt64.toNat_sub_of_le _ _ hle, hnb]
      exact (Nat.and_two_pow_sub_one_eq_mod _ k).trans (Nat.mod_self _)
    simp only [headerCountsValid, hpow, Bool.and_eq_true, decide_eq_true_eq,
      UInt64.le_iff_toNat_le, UInt64.lt_iff_toNat_lt, UInt64.toNat_div, hlen, hcount, hnb,
      UInt64.reduceToNat]
    refine ⟨⟨⟨⟨hpos, ?_⟩, hkpos⟩, trivial⟩, ?_⟩ <;> omega
  · simp only [headerLayoutValid, Bool.and_eq_true, decide_eq_true_eq]
    exact ⟨⟨⟨rfl, rfl⟩, rfl⟩, hfile⟩

end File

/-! ## The entries -/

/-- A path as the catalogs have it: empty for the root, a slash before each name -/
inductive CatalogPath : Bytes → Prop where
  | root : CatalogPath []
  | child {dir name : Bytes} (hdir : CatalogPath dir) (hname : name ≠ [])
      (hslash : slash ∉ name) (hnul : 0 ∉ name) : CatalogPath (dir ++ slash :: name)

theorem CatalogPath.named {path : Bytes} (h : CatalogPath path) :
    PathidxNamed path (pathDir path) (leafOf path) := by
  cases h with
  | root => exact ⟨.inl ⟨rfl, rfl, rfl⟩, by simp [leafOf, beforeLast]⟩
  | child hdir hname hslash hnul =>
    rename_i dir name
    have hlast : beforeLast slash (dir ++ slash :: name) = some dir :=
      beforeLast_eq_some.mpr ⟨name, rfl, hslash⟩
    have hcut : dir ++ slash :: name = (dir ++ [slash]) ++ name := by simp
    have hlen : (dir ++ [slash]).length = dir.length + 1 := by simp
    have hleaf : leafOf (dir ++ slash :: name) = name := by
      rw [leafOf, hlast, Option.elim_some, hcut, ← hlen, drop_left]
    have hpathDir : pathDir (dir ++ slash :: name) = dir := by
      rw [pathDir, hlast, Option.getD_some]
    rw [hleaf, hpathDir]
    exact ⟨.inr ⟨rfl, hname⟩, hslash⟩

/-- An entry in catalog form and within the limits; a hash has no more than its 20 bytes. -/
structure PathidxEntry (path : Bytes) (e : PathidxDirent) : Prop where
  form : CatalogPath path
  name : (leafOf path).length < 256
  link : e.symlink.length < 1024
  hash : ∀ h, e.hash = some h → h.len ≤ 20

theorem PathidxEntry.listed {path : Bytes} {e : PathidxDirent} (h : PathidxEntry path e) :
    PathidxListed (pathidxBent path e) (pathDir path) (leafOf path) where
  named := h.form.named
  short := h.name
  link l hl := by
    rw [pathidxBent] at hl
    dsimp only at hl
    split at hl
    · rw [← Option.some.inj hl]
      exact h.link
    · simp at hl
  hash := by
    rw [pathidxBent]
    cases he : e.hash with
    | none => simp
    | some hash => exact h.hash hash he

/-- What the index has of an entry: its dirent under the last name of its path, a link only where
the flags say so -/
def indexed (path : Bytes) (e : PathidxDirent) : PathidxDirent :=
  { e with
    name := leafOf path
    symlink := if e.flags &&& 8 ≠ 0 then e.symlink else [] }

theorem bentDirent_pathidxBent (path : Bytes) (e : PathidxDirent) :
    bentDirent (pathidxBent path e) (leafOf path) = indexed path e := by
  have hlink : (pathidxBent path e).link.getD [] =
      if e.flags &&& 8 ≠ 0 then e.symlink else [] := by
    rw [pathidxBent]
    by_cases hflag : e.flags &&& 8 = 0
    · simp [hflag]
    · by_cases hempty : e.symlink = []
      · simp [hempty]
      · simp [hflag, hempty]
  have hhash : (if (pathidxBent path e).hasHash = 0 then none
      else some (pathidxBent path e).hash) = e.hash := by
    rw [pathidxBent]
    cases e.hash <;> simp
  rw [bentDirent, hlink, hhash]
  rfl

/-! ## The order of the entries -/

instance : Std.TransCmp bentCmp := by
  have heq : bentCmp = compareLex (compareOn bentDir) (compareOn bentName) := by
    funext a b
    exact bentCmp_eq a b
  rw [heq]
  infer_instance

/-- The builder's list as it is written -/
def sortedBents (b : List PathidxBent) : List PathidxBent :=
  b.mergeSort fun x y => (bentCmp x y).isLE

theorem bentCmp_listed {a b : PathidxBent} (ha : PathidxListed a (pathDir a.path) (leafOf a.path))
    (hb : PathidxListed b (pathDir b.path) (leafOf b.path))
    (hsa : a.path.length < 2 ^ 32) (hsb : b.path.length < 2 ^ 32) :
    bentCmp a b = (compare (pathDir a.path) (pathDir b.path)).then
      (compare (leafOf a.path) (leafOf b.path)) := by
  rw [bentCmp_eq, ha.named.bentDir hsa, hb.named.bentDir hsb, ha.named.bentName hsa,
    hb.named.bentName hsb]

theorem PathidxNamed.unique {p q dir name : Bytes} (hp : PathidxNamed p dir name)
    (hq : PathidxNamed q dir name) : p = q := by
  rcases hp.parts with ⟨hp, -, hname⟩ | ⟨hp, hname⟩ <;>
    rcases hq.parts with ⟨hq, -, hname'⟩ | ⟨hq, hname'⟩
  · rw [hp, hq]
  · exact absurd hname hname'
  · exact absurd hname' hname
  · rw [hp, hq]

section Sorted

variable {b : List PathidxBent}
  (hl : ∀ be ∈ b, PathidxListed be (pathDir be.path) (leafOf be.path))
  (hshort : ∀ be ∈ b, be.path.length < 2 ^ 32)

include hl hshort

theorem sortedBents_dirs : SortedBy (fun be => pathDir be.path) (sortedBents b) := by
  refine (pairwise_mergeSort b).imp_of_mem fun {x y} hx hy hle => ?_
  rw [sortedBents, mem_mergeSort] at hx hy
  rw [bentCmp_listed (hl x hx) (hl y hy) (hshort x hx) (hshort y hy)] at hle
  cases h : compare (pathDir x.path) (pathDir y.path) with
  | lt | eq => rfl
  | gt =>
    rw [h] at hle
    cases hle

theorem sortedBents_names (hdistinct : (b.map PathidxBent.path).Nodup) (dir : Bytes) :
    ((sortedBents b).filter fun be => pathDir be.path = dir).Pairwise fun x y =>
      compare (leafOf x.path) (leafOf y.path) = .lt := by
  have hnodup : (sortedBents b).Pairwise fun x y => x.path ≠ y.path := by
    have hperm : ((sortedBents b).map PathidxBent.path).Nodup :=
      ((mergeSort_perm b _).map _).nodup_iff.mpr hdistinct
    exact pairwise_map.mp hperm
  have hsorted : (sortedBents b).Pairwise fun x y => (bentCmp x y).isLE := pairwise_mergeSort b
  have hboth := hsorted.and hnodup
  refine (hboth.filter _).imp_of_mem fun {x y} hx hy h => ?_
  obtain ⟨hx, hdx⟩ := mem_filter.mp hx
  obtain ⟨hy, hdy⟩ := mem_filter.mp hy
  rw [sortedBents, mem_mergeSort] at hx hy
  have hdx : pathDir x.path = dir := by simpa using hdx
  have hdy : pathDir y.path = dir := by simpa using hdy
  obtain ⟨hle, hne⟩ := h
  rw [bentCmp_listed (hl x hx) (hl y hy) (hshort x hx) (hshort y hy), hdx, hdy,
    Std.ReflOrd.compare_self, Ordering.eq_then] at hle
  cases hc : compare (leafOf x.path) (leafOf y.path) with
  | lt => rfl
  | eq =>
    have hleaf : leafOf x.path = leafOf y.path := Std.LawfulEqOrd.eq_of_compare hc
    have hnx := (hl x hx).named
    rw [hdx, hleaf, ← hdy] at hnx
    exact absurd (hnx.unique (hl y hy).named) hne
  | gt =>
    rw [hc] at hle
    cases hle

end Sorted

/-! ## The whole way -/

section Whole

variable {crc32 : Bytes → UInt32} {root : PathidxHash} {b : List PathidxBent}

theorem write_eq_some {img : Bytes} :
    cvmfsPathidxWrite crc32 b root = some img ↔ b ≠ [] ∧
      ∃ image, imageFill (sortedBents b) = some image ∧
        img = (imageFile crc32 root image).map := by
  have hfile : ∀ image, imageFill (sortedBents b) = some image →
      (imageFile crc32 root image).map =
        Wire.put (headerBuild crc32 (sortedBents b).length root
          (imageBuckets (sortedBents b).length) image.blob.length) ++
            (Wire.putAll image.ents ++ (Wire.putAll image.buckets ++ image.blob)) := by
    intro image h
    obtain ⟨hents, hbuckets⟩ := length_imageFill h
    rw [imageFile, imageHdr, hents, hbuckets]
  rw [cvmfsPathidxWrite]
  by_cases hb : b = []
  · simp [hb]
  · rw [if_neg hb, ← sortedBents, Option.bind_eq_bind, Option.bind_eq_some_iff]
    constructor
    · rintro ⟨image, hfill, himg⟩
      exact ⟨hb, image, hfill, by rw [hfile image hfill]; exact (Option.some.inj himg).symm⟩
    · rintro ⟨-, image, hfill, rfl⟩
      exact ⟨image, hfill, by rw [hfile image hfill]⟩

theorem answering_of_open {img : Bytes} {ix : Pathidx}
    (hl : ∀ be ∈ b, PathidxListed be (pathDir be.path) (leafOf be.path))
    (hwrite : cvmfsPathidxWrite crc32 b root = some img)
    (hopen : cvmfsPathidxOpen crc32 img = some ix) :
    (∃ k s, PathidxAnswering ix (sortedBents b) k s) ∧ ∀ be ∈ b, be.path.length < 2 ^ 32 := by
  obtain ⟨-, image, hfill, rfl⟩ := write_eq_some.mp hwrite
  obtain ⟨rfl, hsmall⟩ := open_imageFile crc32 root hopen
  obtain ⟨hents, -⟩ := length_imageFill hfill
  obtain ⟨image', hfill', hf⟩ := imageFill_filled (v := sortedBents b) (by omega)
  obtain rfl := Option.some.inj (hfill.symm.trans hfill')
  obtain ⟨⟨k, hk⟩, hroom⟩ := imageBuckets_spec (sortedBents b).length
  rw [hk] at hf hroom
  have hp := imageFile_parts crc32 root hsmall
  refine ⟨⟨k, _, .of_filled hf hp hroom fun be hbe => hl be (mem_mergeSort.mp hbe)⟩, ?_⟩
  intro be hbe
  obtain ⟨i, hi⟩ := getElem?_of_mem (mem_mergeSort.mpr hbe)
  exact (PathidxWritten.of_filled hf hp hi).short

theorem write_opens (hb : b ≠ []) (hsize : pathidxSize b ≤ pidxMaxBytes) :
    ∃ img ix, cvmfsPathidxWrite crc32 b root = some img ∧
      cvmfsPathidxOpen crc32 img = some ix := by
  have hlen : (sortedBents b).length = b.length := length_mergeSort b
  rw [pathidxSize, pidxMaxBytes] at hsize
  obtain ⟨image, hfill, hf⟩ := imageFill_filled (v := sortedBents b) (by omega)
  obtain ⟨⟨k, hk⟩, -⟩ := imageBuckets_spec (sortedBents b).length
  have hpos : 0 < b.length := length_pos_iff.mpr hb
  have hblob : image.blob.length = (b.flatMap bentText).length := by
    rw [hf.blob]
    exact ((mergeSort_perm b _).flatMap_right bentText).length_eq
  refine ⟨_, _, write_eq_some.mpr ⟨hb, image, hfill, rfl⟩,
    imageFile_opens crc32 root (hf.buckets.trans hk) (by rw [hf.ents]; omega) ?_⟩
  rw [hf.ents, hf.buckets, hlen, hblob]
  exact hsize

end Whole

/-- **The index answers like the entries it was written from.** Of entries with different paths,
the file that was written and opened finds each path with its entry and no other path, and lists
of a directory its children, by their names and each once; and the file of any entries is written,
and opened unless it is too large. -/
theorem pathidx_answers (crc32 : Bytes → UInt32) (root : PathidxHash)
    (entries : List (Bytes × PathidxDirent))
    (hentries : ∀ p ∈ entries, PathidxEntry p.1 p.2)
    (hdistinct : (entries.map Prod.fst).Nodup) :
    (∀ img ix, cvmfsPathidxWrite crc32 (pathidxBuild entries) root = some img →
      cvmfsPathidxOpen crc32 img = some ix →
        (∀ p ∈ entries, cvmfsPathidxLookup ix p.1 = .ok (.found (indexed p.1 p.2))) ∧
        (∀ path, path ∉ entries.map Prod.fst → cvmfsPathidxLookup ix path = .ok .absent) ∧
        ∀ p ∈ entries, p.2.flags &&& 1 ≠ 0 →
          ∃ out, cvmfsPathidxReaddir ix p.1 = .ok (out, true) ∧
            (out.Pairwise fun x y => compare x.name y.name = .lt) ∧
            ∀ d, d ∈ out ↔ ∃ q ∈ entries,
              (∃ name, name ≠ [] ∧ slash ∉ name ∧ q.1 = p.1 ++ slash :: name) ∧
                d = indexed q.1 q.2) ∧
    (entries ≠ [] → pathidxSize (pathidxBuild entries) ≤ pidxMaxBytes →
      ∃ img ix, cvmfsPathidxWrite crc32 (pathidxBuild entries) root = some img ∧
        cvmfsPathidxOpen crc32 img = some ix) := by
  have hbuild := pathidxBuild_eq entries
  have hpaths : (pathidxBuild entries).map PathidxBent.path = entries.map Prod.fst := by
    rw [hbuild, map_map]
    rfl
  have hl : ∀ be ∈ pathidxBuild entries,
      PathidxListed be (pathDir be.path) (leafOf be.path) := by
    intro be hbe
    rw [hbuild] at hbe
    obtain ⟨p, hp, rfl⟩ := mem_map.mp hbe
    exact (hentries p hp).listed
  have hmem : ∀ p ∈ entries, pathidxBent p.1 p.2 ∈ sortedBents (pathidxBuild entries) := by
    intro p hp
    rw [sortedBents, mem_mergeSort, hbuild]
    exact mem_map.mpr ⟨p, hp, rfl⟩
  refine ⟨fun img ix hwrite hopen => ?_, fun hne hsize => write_opens ?_ hsize⟩
  · obtain ⟨⟨k, s, ha⟩, hshort⟩ := answering_of_open hl hwrite hopen
    have hnodup : ((sortedBents (pathidxBuild entries)).map PathidxBent.path).Nodup := by
      refine ((mergeSort_perm _ _).map _).nodup_iff.mpr ?_
      rw [hpaths]
      exact hdistinct
    refine ⟨fun p hp => ?_, fun path hpath => ?_, fun p hp hdir => ?_⟩
    · rw [← bentDirent_pathidxBent]
      exact ha.lookup_mem hnodup (hmem p hp)
    · refine ha.lookup_not_mem fun be hbe heq => hpath ?_
      rw [← hpaths]
      exact mem_map.mpr ⟨be, mem_mergeSort.mp hbe, heq⟩
    · refine ⟨_, ha.readdir hnodup (sortedBents_dirs hl hshort) (hmem p hp) hdir, ?_, ?_⟩
      · refine pairwise_map.mpr (List.Pairwise.filter _ ?_)
        exact sortedBents_names hl hshort (by rw [hpaths]; exact hdistinct) p.1
      · intro d
        simp only [mem_map, mem_filter, decide_eq_true_eq]
        constructor
        · rintro ⟨be, ⟨⟨hbe, hpathDir⟩, hroot⟩, rfl⟩
          rw [sortedBents, mem_mergeSort, hbuild] at hbe
          obtain ⟨q, hq, rfl⟩ := mem_map.mp hbe
          have hn := (hentries q hq).form.named
          refine ⟨q, hq, ⟨leafOf q.1, ?_⟩, bentDirent_pathidxBent q.1 q.2⟩
          rcases hn.parts with ⟨hempty, -⟩ | ⟨hpath, hname⟩
          · exact absurd hempty hroot
          · refine ⟨hname, hn.leaf, ?_⟩
            have hpathDir : pathDir q.1 = p.1 := hpathDir
            rw [← hpathDir]
            exact hpath
        · rintro ⟨q, hq, ⟨name, -, hslash, hpath⟩, rfl⟩
          have hlast : beforeLast slash q.1 = some p.1 :=
            beforeLast_eq_some.mpr ⟨name, hpath, hslash⟩
          refine ⟨pathidxBent q.1 q.2, ⟨⟨hmem q hq, ?_⟩, ?_⟩, bentDirent_pathidxBent q.1 q.2⟩
          · change pathDir q.1 = p.1
            rw [pathDir, hlast, Option.getD_some]
          · change q.1 ≠ []
            rw [hpath]
            simp
  · rw [hbuild]
    simpa using hne

def linkEntries : List (Bytes × PathidxDirent) :=
  [([], ⟨[], 1, 0x41ED, 0, 0, 0, 0, 1, [], none⟩),
    (ascii "/a", ⟨ascii "a", 8, 0xA1FF, 1, 0, 0, 0, 1, ascii "b", none⟩)]

theorem pathidx_answers_link :
    ∃ img ix, cvmfsPathidxWrite crc32 (pathidxBuild linkEntries) ⟨0, .replicate 20 0, 20⟩ =
        some img ∧ cvmfsPathidxOpen crc32 img = some ix ∧
      cvmfsPathidxLookup ix (ascii "/a") =
        .ok (.found ⟨ascii "a", 8, 0xA1FF, 1, 0, 0, 0, 1, ascii "b", none⟩) ∧
      cvmfsPathidxLookup ix (ascii "/b") = .ok .absent ∧
      ∃ out, cvmfsPathidxReaddir ix [] = .ok (out, true) ∧
        ⟨ascii "a", 8, 0xA1FF, 1, 0, 0, 0, 1, ascii "b", none⟩ ∈ out := by
  have hentries : ∀ p ∈ linkEntries, PathidxEntry p.1 p.2 := by
    intro p hp
    simp only [linkEntries, mem_cons, not_mem_nil, or_false] at hp
    rcases hp with rfl | rfl
    · exact ⟨.root, by decide, by decide, by simp⟩
    · exact ⟨@CatalogPath.child [] (ascii "a") .root (by decide) (by decide) (by decide), by decide,
        by decide, by simp⟩
  obtain ⟨hanswers, hopens⟩ := pathidx_answers crc32 ⟨0, .replicate 20 0, 20⟩ linkEntries hentries
    (by decide)
  obtain ⟨img, ix, hwrite, hopen⟩ := hopens (by decide) (by decide)
  obtain ⟨hfound, habsent, hlists⟩ := hanswers img ix hwrite hopen
  obtain ⟨out, hout, -, hmem⟩ := hlists _ mem_cons_self (by decide)
  exact ⟨img, ix, hwrite, hopen, hfound _ (mem_cons_of_mem _ mem_cons_self),
    habsent _ (by decide), out, hout, (hmem _).mpr ⟨_, mem_cons_of_mem _ mem_cons_self,
      ⟨ascii "a", by decide, by decide, rfl⟩, rfl⟩⟩

end BrixCache

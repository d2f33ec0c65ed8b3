import BrixCache.Cas.PackFormat
import BrixCache.Cvmfs.Pathidx
import BrixCache.Lib.BoundedLoop
import BrixCache.Lib.MarkSweep

/-!
# Reading an untrusted index

What the checks of an open prove of the sections: each starts where it should, but their sums may
have gone around `2 ^ 64`, so that they pass the end of the file. Behind sections that fit, an
entry is read inside the mapping unless its `dlen` goes around at `dlen + 1`, or its path is empty
and its `dlen`, which is then not looked at, leads a comparison past the blob.
-/

namespace BrixCache

open Segments

/-! ## The sections -/

/-- The sections of an index follow each other and end with the mapping. -/
structure PathidxLaid (ix : Pathidx) : Prop where
  small : ix.map.length ≤ 2 ^ 30
  ents : ix.hdr.entsOff.toNat = 112
  buckets : ix.hdr.bucketsOff.toNat = 112 + 104 * ix.hdr.count.toNat
  blob : ix.hdr.blobOff.toNat = ix.hdr.bucketsOff.toNat + 4 * ix.hdr.nbuckets.toNat
  last : ix.hdr.blobOff.toNat + ix.hdr.blobLen.toNat = ix.map.length
  some_bucket : 0 < ix.hdr.nbuckets.toNat

variable {bytes path : Bytes} {ix : Pathidx} {off : UInt64}

theorem open_eq_some {crc32 : Bytes → UInt32} (h : cvmfsPathidxOpen crc32 bytes = some ix) :
    ix.map = bytes ∧ bytes.length ≤ 2 ^ 30 ∧
      headerCountsValid ix.hdr (UInt64.ofNat bytes.length) = true ∧
      headerLayoutValid ix.hdr (UInt64.ofNat bytes.length) = true := by
  rw [cvmfsPathidxOpen] at h
  split at h
  · simp at h
  · rename_i hlen
    dsimp only at h
    split at h
    · rename_i hok
      simp only [Bool.and_eq_true] at hok
      cases h
      exact ⟨rfl, Nat.le_of_not_lt fun hlt => hlen (.inr hlt), hok.1.2, hok.2⟩
    · simp at h

theorem counts_of_valid {h : PathidxHdr} {len : ℕ} (hlen : len ≤ 2 ^ 30)
    (hok : headerCountsValid h (UInt64.ofNat len) = true) :
    h.count.toNat ≤ 2 ^ 30 ∧ h.nbuckets.toNat ≤ 2 ^ 30 ∧ 0 < h.nbuckets.toNat := by
  simp only [headerCountsValid, Bool.and_eq_true, decide_eq_true_eq, UInt64.le_iff_toNat_le,
    UInt64.lt_iff_toNat_lt, UInt64.toNat_div, UInt64.toNat_ofNat'] at hok
  obtain ⟨⟨⟨⟨-, hc⟩, hb⟩, -⟩, hn⟩ := hok
  have hmod : len % 2 ^ 64 = len := Nat.mod_eq_of_lt (by omega)
  simp only [hmod, UInt64.reduceToNat] at hc hb hn
  omega

/-- The sections of an index that was opened follow each other, as numbers without a bound; only
the last sum may have gone around. -/
theorem sections_of_open {crc32 : Bytes → UInt32}
    (h : cvmfsPathidxOpen crc32 bytes = some ix) :
    ix.hdr.entsOff.toNat = 112 ∧
      ix.hdr.bucketsOff.toNat = 112 + 104 * ix.hdr.count.toNat ∧
      ix.hdr.blobOff.toNat = ix.hdr.bucketsOff.toNat + 4 * ix.hdr.nbuckets.toNat ∧
      (ix.hdr.blobOff.toNat + ix.hdr.blobLen.toNat) % 2 ^ 64 = bytes.length := by
  obtain ⟨-, hlen, hcounts, hlayout⟩ := open_eq_some h
  obtain ⟨hc, hn, -⟩ := counts_of_valid hlen hcounts
  simp only [headerLayoutValid, Bool.and_eq_true, decide_eq_true_eq] at hlayout
  obtain ⟨⟨⟨hents, hbuckets⟩, hblob⟩, hlast⟩ := hlayout
  have hbuckets := congrArg UInt64.toNat hbuckets
  have hblob := congrArg UInt64.toNat hblob
  have hlast := congrArg UInt64.toNat hlast
  simp only [hents, UInt64.toNat_add, UInt64.toNat_mul, UInt64.reduceToNat, UInt64.toNat_ofNat']
    at hbuckets hblob hlast
  have hb1 : ix.hdr.bucketsOff.toNat = 112 + 104 * ix.hdr.count.toNat := by
    clear hlast hblob
    omega
  refine ⟨by rw [hents]; rfl, hb1, ?_, ?_⟩
  · clear hlast hbuckets
    omega
  · rw [hlast, Nat.mod_eq_of_lt (by omega)]

theorem laid_of_open {crc32 : Bytes → UInt32}
    (h : cvmfsPathidxOpen crc32 bytes = some ix) (hfit : ix.hdr.blobOff.toNat ≤ bytes.length) :
    PathidxLaid ix := by
  obtain ⟨hmap, hlen, hcounts, -⟩ := open_eq_some h
  obtain ⟨hents, hbuckets, hblob, hlast⟩ := sections_of_open h
  obtain ⟨-, -, hpos⟩ := counts_of_valid hlen hcounts
  have hbl := ix.hdr.blobLen.toNat_lt
  have hlast : ix.hdr.blobOff.toNat + ix.hdr.blobLen.toNat = bytes.length := by
    clear hblob hbuckets
    omega
  exact ⟨hmap ▸ hlen, hents, hbuckets, hblob, hmap ▸ hlast, hpos⟩

/-! ## Accesses -/

theorem bytesAt_ok {n : ℕ} (h : off.toNat + n ≤ ix.map.length) :
    ix.bytesAt off n = .ok ((ix.map.drop off.toNat).take n) := if_pos h

theorem le_of_bytesAt {n : ℕ} {bs : Bytes}
    (h : ix.bytesAt off n = .ok bs) : off.toNat + n ≤ ix.map.length := by
  rw [Pathidx.bytesAt] at h
  split at h
  · assumption
  · simp at h

namespace PathidxLaid

variable {ix : Pathidx} (hl : PathidxLaid ix)

include hl

theorem ent {i : UInt64} (hi : i.toNat < ix.hdr.count.toNat) : ∃ e, ix.ent i = .ok e := by
  have hlast := hl.last
  have hblob := hl.blob
  have hbuckets := hl.buckets
  have hsmall := hl.small
  have hoff : (ix.hdr.entsOff + i * 104).toNat = 112 + 104 * i.toNat := by
    simp only [UInt64.toNat_add, UInt64.toNat_mul, hl.ents, UInt64.reduceToNat]
    omega
  rw [Pathidx.ent, bytesAt_ok (by rw [hoff, pathidxEntSize]; omega)]
  exact ⟨_, rfl⟩

theorem bucket {slot : UInt64} (hs : slot.toNat < ix.hdr.nbuckets.toNat) :
    ∃ v, ix.bucket slot = .ok v := by
  have hlast := hl.last
  have hblob := hl.blob
  have hsmall := hl.small
  have hoff : (ix.hdr.bucketsOff + slot * 4).toNat = ix.hdr.bucketsOff.toNat + 4 * slot.toNat := by
    simp only [UInt64.toNat_add, UInt64.toNat_mul, UInt64.reduceToNat]
    omega
  rw [Pathidx.bucket, bytesAt_ok (by rw [hoff]; omega)]
  exact ⟨_, rfl⟩

theorem blob_ok {off : UInt64} {n : ℕ} (h : off.toNat + n ≤ ix.hdr.blobLen.toNat) :
    ∃ bs, ix.blob off n = .ok bs := by
  have hlast := hl.last
  have hsmall := hl.small
  rw [Pathidx.blob]
  split
  · exact ⟨_, rfl⟩
  · have hoff : (ix.hdr.blobOff + off).toNat = ix.hdr.blobOff.toNat + off.toNat := by
      rw [UInt64.toNat_add]
      omega
    rw [bytesAt_ok (by rw [hoff]; omega)]
    exact ⟨_, rfl⟩

theorem blobLen_le : ix.hdr.blobLen.toNat ≤ 2 ^ 30 := by
  have hlast := hl.last
  have hsmall := hl.small
  omega

end PathidxLaid

/-! ## Entries -/

theorem passesBlob_eq_false {bl : UInt64} {len : UInt32} :
    passesBlob bl off len = false ↔ off.toNat + len.toNat < bl.toNat := by
  simp only [passesBlob, Bool.or_eq_false_iff, decide_eq_false_iff_not, UInt64.not_le,
    UInt64.lt_iff_toNat_lt, UInt32.toNat_toUInt64]
  constructor
  · rintro ⟨hoff, hlen⟩
    rw [UInt64.toNat_sub_of_le _ _ (UInt64.le_iff_toNat_le.mpr (Nat.le_of_lt hoff))] at hlen
    omega
  · intro h
    have hoff : off.toNat < bl.toNat := by omega
    rw [UInt64.toNat_sub_of_le _ _ (UInt64.le_iff_toNat_le.mpr (Nat.le_of_lt hoff))]
    omega

/-- Where the path of an entry ends in the blob as it should, its `dlen` does not go around. -/
def DlenKept (ix : Pathidx) (e : PathidxEnt) : Prop :=
  passesBlob ix.hdr.blobLen e.pathOff e.pathLen = false →
    ix.blob (e.pathOff + e.pathLen.toUInt64) 1 = .ok [0] → e.pathLen ≠ 0 → e.dlen ≠ 0xFFFFFFFF

/-- Where a valid entry has the empty path, its comparison with a directory does not pass the
blob. -/
def RootKept (ix : Pathidx) (dir : Bytes) (e : PathidxEnt) : Prop :=
  entValid ix e = .ok true → e.pathLen = 0 →
    e.pathOff.toNat + min e.dlen.toNat dir.length ≤ ix.hdr.blobLen.toNat

/-- What is copied out of an entry that was found valid lies in the blob. -/
structure EntInside (ix : Pathidx) (e : PathidxEnt) : Prop where
  ends : e.pathOff.toNat + e.pathLen.toNat < ix.hdr.blobLen.toNat
  leaf : e.pathLen ≠ 0 → e.dlen.toNat + 1 < e.pathLen.toNat
  link : e.linkLen ≠ 0 → e.linkOff.toNat + e.linkLen.toNat < ix.hdr.blobLen.toNat

section Entries

variable {ix : Pathidx} {path : Bytes} {e : PathidxEnt} (hl : PathidxLaid ix)

include hl

theorem blob_byte {off : UInt64} {n : UInt32} (h : off.toNat + n.toNat < ix.hdr.blobLen.toNat) :
    ∃ bs, ix.blob (off + n.toUInt64) 1 = .ok bs := by
  have hbl := hl.blobLen_le
  refine hl.blob_ok ?_
  rw [UInt64.toNat_add, UInt32.toNat_toUInt64]
  omega

/-- An entry in range is checked without a read outside. -/
theorem entPathValid_ok (hk : DlenKept ix e) :
    ∃ b, entPathValid ix e = .ok b ∧ (b = true →
      e.pathOff.toNat + e.pathLen.toNat < ix.hdr.blobLen.toNat ∧
      (e.pathLen ≠ 0 → e.dlen.toNat + 1 < e.pathLen.toNat)) := by
  rw [entPathValid]
  cases hp : passesBlob ix.hdr.blobLen e.pathOff e.pathLen with
  | true => exact ⟨false, by simp, by simp⟩
  | false =>
    have hpath := passesBlob_eq_false.mp hp
    obtain ⟨nul, hnul⟩ := blob_byte hl hpath
    by_cases hz : nul = [0]
    · by_cases hl0 : e.pathLen = 0
      · refine ⟨true, ?_, fun _ => ⟨hpath, fun h => absurd hl0 h⟩⟩
        rw [if_neg (by simp), hnul]
        simp [hz, hl0, bind, Except.bind]
      · have hk := hk hp (by rw [hnul, hz]) hl0
        have hdlen : (e.dlen + 1).toNat = e.dlen.toNat + 1 := by
          have hlt := e.dlen.toNat_lt
          have hne : e.dlen.toNat ≠ 0xFFFFFFFF := fun h => hk (UInt32.toNat_inj.mp h)
          simp only [UInt32.toNat_add, UInt32.reduceToNat]
          omega
        by_cases hd : e.pathLen ≤ e.dlen + 1
        · exact ⟨false, by simp [hnul, hz, hl0, hd, bind, Except.bind], by simp⟩
        · have hd' := Nat.lt_of_not_le (UInt32.le_iff_toNat_le.not.mp hd)
          rw [hdlen] at hd'
          have hsep : e.pathOff.toNat + e.dlen.toNat < ix.hdr.blobLen.toNat := by omega
          obtain ⟨sep, hs⟩ := blob_byte hl hsep
          exact ⟨sep = [slash] && e.pathLen - e.dlen - 1 < 256,
            by simp [hnul, hz, hl0, hd, hs, bind, Except.bind], fun _ => ⟨hpath, fun _ => hd'⟩⟩
    · exact ⟨false, by simp [hnul, hz, bind, Except.bind], by simp⟩

theorem entLinkValid_ok :
    ∃ b, entLinkValid ix e = .ok b ∧ (b = true → e.linkLen ≠ 0 →
      e.linkOff.toNat + e.linkLen.toNat < ix.hdr.blobLen.toNat) := by
  rw [entLinkValid]
  by_cases hl0 : e.linkLen = 0
  · exact ⟨true, by simp [hl0], fun _ h => absurd hl0 h⟩
  · cases hp : passesBlob ix.hdr.blobLen e.linkOff e.linkLen with
    | true => exact ⟨false, by simp [hl0], by simp⟩
    | false =>
      have hlink := passesBlob_eq_false.mp hp
      obtain ⟨nul, hnul⟩ := blob_byte hl hlink
      exact ⟨_, by simp [hl0, hnul, bind, Except.bind]; rfl, fun _ _ => hlink⟩

theorem entValid_ok (hk : DlenKept ix e) :
    ∃ b, entValid ix e = .ok b ∧ (b = true → EntInside ix e) := by
  obtain ⟨p, hp, hpath⟩ := entPathValid_ok hl hk
  obtain ⟨k, hlk, hlink⟩ := entLinkValid_ok (e := e) hl
  cases p with
  | false => exact ⟨false, by simp [entValid, hp, bind, Except.bind], by simp⟩
  | true =>
    obtain ⟨hin, hleaf⟩ := hpath rfl
    cases k with
    | false => exact ⟨false, by simp [entValid, hp, hlk, bind, Except.bind], by simp⟩
    | true =>
      have hvalid : entValid ix e = .ok (decide (e.hash.len ≤ 20)) := by
        simp [entValid, hp, hlk, bind, Except.bind]
      exact ⟨_, hvalid, fun _ => ⟨hin, hleaf, hlink rfl⟩⟩

/-- An entry whose `dlen` goes around is not checked inside: the byte behind its directory is sought
at the end of the address space. -/
theorem dlenKept_of_entValid {b : Bool} (hb : entValid ix e = .ok b) : DlenKept ix e := by
  have hlast := hl.last
  have hsmall := hl.small
  intro hp hnul h0 hmax
  have hpath := passesBlob_eq_false.mp hp
  have hoff : (ix.hdr.blobOff + (e.pathOff + e.dlen.toUInt64)).toNat =
      ix.hdr.blobOff.toNat + e.pathOff.toNat + 0xFFFFFFFF := by
    simp only [hmax, UInt64.toNat_add, UInt32.toNat_toUInt64, UInt32.reduceToNat]
    omega
  have hsep : ix.blob (e.pathOff + e.dlen.toUInt64) 1 = .error .outside := by
    rw [Pathidx.blob, if_neg (by simp), Pathidx.bytesAt, if_neg (by rw [hoff]; omega)]
  have hle : ¬e.pathLen ≤ e.dlen + 1 := by
    have hz : e.pathLen.toNat ≠ 0 := fun h => h0 (UInt32.toNat_inj.mp h)
    rw [hmax, UInt32.le_iff_toNat_le]
    exact fun h => hz (Nat.le_zero.mp h)
  have hfault : entPathValid ix e = .error .outside := by
    simp [entPathValid, hp, hnul, h0, hle, hsep, bind, Except.bind]
  simp [entValid, hfault, bind, Except.bind] at hb

theorem entFill_ok (hin : EntInside ix e) : ∃ d, entFill ix e = .ok d := by
  have hlink : ∃ link, ix.blob e.linkOff e.linkLen.toNat = .ok link := by
    by_cases h0 : e.linkLen = 0
    · exact ⟨[], by rw [Pathidx.blob, h0]; rfl⟩
    · exact hl.blob_ok (Nat.le_of_lt (hin.link h0))
  obtain ⟨link, hlink⟩ := hlink
  by_cases h0 : e.pathLen = 0
  · exact ⟨_, by simp only [entFill, h0, hlink, if_true, bind, Except.bind]; rfl⟩
  · have hbl := hl.blobLen_le
    have hpath := hin.ends
    have hleaf := hin.leaf h0
    have hlen := e.pathLen.toNat_lt
    have hname : (e.pathOff + e.dlen.toUInt64 + 1).toNat + (e.pathLen - e.dlen - 1).toNat ≤
        ix.hdr.blobLen.toNat := by
      simp only [UInt64.toNat_add, UInt32.toNat_toUInt64, UInt64.reduceToNat, UInt32.toNat_sub,
        UInt32.reduceToNat]
      omega
    obtain ⟨name, hname⟩ := hl.blob_ok hname
    exact ⟨_, by simp only [entFill, h0, hname, hlink, if_false, bind, Except.bind]; rfl⟩

theorem dirCmp_ok_iff (hv : entValid ix e = .ok true) :
    (∃ o, dirCmp ix e path = .ok o) ↔ RootKept ix path e := by
  obtain ⟨b, hb, hin⟩ := entValid_ok hl (dlenKept_of_entValid hl hv)
  obtain rfl := Except.ok.inj (hv.symm.trans hb)
  have hin := hin rfl
  have hends := hin.ends
  constructor
  · rintro ⟨o, ho⟩ - -
    cases hbs : ix.blob e.pathOff (min e.dlen.toNat path.length) with
    | error f => simp [dirCmp, hbs, bind, Except.bind] at ho
    | ok bs =>
      have hlast := hl.last
      have hsmall := hl.small
      rw [Pathidx.blob] at hbs
      split at hbs
      · omega
      · have hle := le_of_bytesAt hbs
        rw [UInt64.toNat_add, Nat.mod_eq_of_lt (by omega)] at hle
        omega
  · intro hroot
    have hdir : e.pathOff.toNat + min e.dlen.toNat path.length ≤ ix.hdr.blobLen.toNat := by
      by_cases h0 : e.pathLen = 0
      · exact hroot hv h0
      · have hleaf := hin.leaf h0
        omega
    obtain ⟨bs, hbs⟩ := hl.blob_ok hdir
    exact ⟨_, by simp only [dirCmp, hbs, bind, Except.bind]; rfl⟩

end Entries

/-! ## A lookup and a listing -/

theorem toNat_add_one_of_lt {x y : UInt64} (h : x.toNat < y.toNat) : (x + 1).toNat = x.toNat + 1 := by
  have hy := y.toNat_lt
  simp only [UInt64.toNat_add, UInt64.reduceToNat]
  omega

/-- What a lookup reads at a slot, and the slot it goes on at -/
def pathidxSlot (ix : Pathidx) (path : Bytes) (slot : UInt64) :
    Except PathidxFault (Option UInt64) := do
  let v ← ix.bucket slot
  if v = 0 then .ok none
  else if ix.hdr.count ≤ v.toUInt64 - 1 then .ok none
  else do
    let e ← ix.ent (v.toUInt64 - 1)
    if ← entValid ix e then
      if e.pathLen.toNat = path.length then do
        if (← ix.blob e.pathOff path.length) = path then (entFill ix e).map fun _ => none
        else .ok (some ((slot + 1) &&& (ix.hdr.nbuckets - 1)))
      else .ok (some ((slot + 1) &&& (ix.hdr.nbuckets - 1)))
    else .ok none

/-- What the search reads between two entries, and between which it goes on -/
def pathidxSeek (ix : Pathidx) (dir : Bytes) (s : UInt64 × UInt64) :
    Except PathidxFault (Option (UInt64 × UInt64)) :=
  if s.1 < s.2 then do
    let mid := s.1 + (s.2 - s.1) / 2
    let e ← ix.ent mid
    if ← entValid ix e then
      .ok (some (if (← dirCmp ix e dir) = .lt then (mid + 1, s.2) else (s.1, mid)))
    else .ok none
  else .ok none

/-- What the walk reads of an entry, and the entry it goes on at -/
def pathidxMeet (ix : Pathidx) (dir : Bytes) (i : UInt64) :
    Except PathidxFault (Option UInt64) := do
  let e ← ix.ent i
  if ← entValid ix e then
    if (← dirCmp ix e dir) ≠ .eq then .ok none
    else if e.pathLen = 0 then .ok (some (i + 1))
    else (entFill ix e).map fun _ => some (i + 1)
  else .ok none

section Loops

variable {ix : Pathidx} {path : Bytes}

theorem masked (hpos : 0 < ix.hdr.nbuckets.toNat) (slot : UInt64) :
    (slot &&& (ix.hdr.nbuckets - 1)).toNat < ix.hdr.nbuckets.toNat := by
  have hand : (slot.toNat &&& (ix.hdr.nbuckets - 1).toNat) ≤ (ix.hdr.nbuckets - 1).toNat :=
    Nat.and_le_right
  have hsub : (ix.hdr.nbuckets - 1).toNat = ix.hdr.nbuckets.toNat - 1 :=
    UInt64.toNat_sub_of_le _ _ (UInt64.le_iff_toNat_le.mpr hpos)
  rw [UInt64.toNat_and]
  omega

theorem pathidxSlot_next {slot mid : UInt64} (h : pathidxSlot ix path slot = .ok (some mid)) :
    mid = (slot + 1) &&& (ix.hdr.nbuckets - 1) := by
  rw [pathidxSlot] at h
  obtain ⟨v, -, h⟩ := MarkSweep.bind_eq_ok h
  split at h
  · cases h
  split at h
  · cases h
  obtain ⟨e, -, h⟩ := MarkSweep.bind_eq_ok h
  obtain ⟨b, -, h⟩ := MarkSweep.bind_eq_ok h
  split at h
  · split at h
    · obtain ⟨bs, -, h⟩ := MarkSweep.bind_eq_ok h
      split at h
      · cases hd : entFill ix e <;> simp [hd, Except.map] at h
      · exact (Option.some.inj (Except.ok.inj h)).symm
    · exact (Option.some.inj (Except.ok.inj h)).symm
  · cases h

theorem pathidxMeet_next {i mid : UInt64} (h : pathidxMeet ix path i = .ok (some mid)) :
    mid = i + 1 := by
  rw [pathidxMeet] at h
  obtain ⟨e, -, h⟩ := MarkSweep.bind_eq_ok h
  obtain ⟨b, -, h⟩ := MarkSweep.bind_eq_ok h
  split at h
  · obtain ⟨o, -, h⟩ := MarkSweep.bind_eq_ok h
    split at h
    · cases h
    split at h
    · exact (Option.some.inj (Except.ok.inj h)).symm
    · cases hd : entFill ix e <;> simp [hd, Except.map] at h
      exact h.symm
  · cases h

theorem pathidxProbe_succ (probes : ℕ) (slot : UInt64) :
    (∃ a, pathidxProbe ix path (probes + 1) slot = .ok a) ↔
      ∃ r, pathidxSlot ix path slot = .ok r ∧
        ∀ mid, r = some mid → ∃ a, pathidxProbe ix path probes mid = .ok a := by
  rw [pathidxProbe, pathidxSlot]
  cases ix.bucket slot with
  | error f => simp [bind, Except.bind]
  | ok v =>
    by_cases h0 : v = 0
    · simp [h0, bind, Except.bind]
    by_cases hc : ix.hdr.count ≤ v.toUInt64 - 1
    · simp [h0, hc, bind, Except.bind]
    cases he : ix.ent (v.toUInt64 - 1) with
    | error f => simp [h0, hc, he, bind, Except.bind]
    | ok e =>
      cases hb : entValid ix e with
      | error f => simp [h0, hc, he, hb, bind, Except.bind]
      | ok b =>
        cases b with
        | false => simp [h0, hc, he, hb, bind, Except.bind]
        | true =>
          by_cases hlen : e.pathLen.toNat = path.length
          · cases hbs : ix.blob e.pathOff path.length with
            | error f => simp [h0, hc, he, hb, hlen, hbs, bind, Except.bind]
            | ok bs =>
              by_cases heq : bs = path
              · cases hd : entFill ix e with
                | error f => simp [h0, hc, he, hb, hlen, hbs, heq, hd, bind, Except.bind, Except.map]
                | ok d => simp [h0, hc, he, hb, hlen, hbs, heq, hd, bind, Except.bind, Except.map]
              · simp [h0, hc, he, hb, hlen, hbs, heq, bind, Except.bind]
          · simp [h0, hc, he, hb, hlen, bind, Except.bind]

theorem pathidxSearch_succ (fuel : ℕ) (s : UInt64 × UInt64) :
    (∃ r, pathidxSearch ix path (fuel + 1) s.1 s.2 = .ok r) ↔
      ∃ r, pathidxSeek ix path s = .ok r ∧
        ∀ mid, r = some mid → ∃ r, pathidxSearch ix path fuel mid.1 mid.2 = .ok r := by
  rw [pathidxSearch, pathidxSeek]
  by_cases hlt : s.1 < s.2
  · cases he : ix.ent (s.1 + (s.2 - s.1) / 2) with
    | error f => simp [hlt, he, bind, Except.bind]
    | ok e =>
      cases hb : entValid ix e with
      | error f => simp [hlt, he, hb, bind, Except.bind]
      | ok b =>
        cases b with
        | false => simp [hlt, he, hb, bind, Except.bind]
        | true =>
          cases ho : dirCmp ix e path with
          | error f => simp [hlt, he, hb, ho, bind, Except.bind]
          | ok o => by_cases hcmp : o = .lt <;> simp [hlt, he, hb, ho, hcmp, bind, Except.bind]
  · simp [hlt]

theorem pathidxWalk_succ (left : ℕ) (i : UInt64) :
    (∃ r, pathidxWalk ix path (left + 1) i = .ok r) ↔
      ∃ r, pathidxMeet ix path i = .ok r ∧
        ∀ mid, r = some mid → ∃ r, pathidxWalk ix path left mid = .ok r := by
  rw [pathidxWalk, pathidxMeet]
  cases he : ix.ent i with
  | error f => simp [bind, Except.bind]
  | ok e =>
    cases hb : entValid ix e with
    | error f => simp [hb, bind, Except.bind]
    | ok b =>
      cases b with
      | false => simp [hb, bind, Except.bind]
      | true =>
        cases ho : dirCmp ix e path with
        | error f => simp [hb, ho, bind, Except.bind]
        | ok o =>
          by_cases hcmp : o = .eq
          · by_cases h0 : e.pathLen = 0
            · simp [hb, ho, hcmp, h0, bind, Except.bind]
            · cases hd : entFill ix e with
              | error f => simp [hb, ho, hcmp, h0, hd, bind, Except.bind, Except.map]
              | ok d =>
                cases hw : pathidxWalk ix path left (i + 1) with
                | error f => simp [hb, ho, hcmp, h0, hd, hw, bind, Except.bind, Except.map]
                | ok rest =>
                  refine iff_of_true ⟨(d :: rest.1, rest.2), ?_⟩ ⟨some (i + 1), ?_, ?_⟩
                  · simp [hb, ho, hcmp, h0, hd, bind, Except.bind]
                  · simp [hb, ho, hcmp, h0, hd, bind, Except.bind, Except.map]
                  · rintro mid ⟨⟩
                    exact ⟨rest, hw⟩
          · simp [hb, ho, hcmp, bind, Except.bind]

theorem pathidxProbe_ok_iff (probes : ℕ) (slot : UInt64) :
    (∃ a, pathidxProbe ix path probes slot = .ok a) ↔
      ∀ t, Visits (pathidxSlot ix path) probes slot t → ∃ r, pathidxSlot ix path t = .ok r :=
  Visits.ok_iff (P := fun _ _ => True) (fun _ _ _ _ _ => trivial) (fun _ _ => ⟨_, rfl⟩)
    pathidxProbe_succ trivial

theorem pathidxWalk_ok_iff (left : ℕ) (i : UInt64) :
    (∃ r, pathidxWalk ix path left i = .ok r) ↔
      ∀ t, Visits (pathidxMeet ix path) left i t → ∃ r, pathidxMeet ix path t = .ok r :=
  Visits.ok_iff (P := fun _ _ => True) (fun _ _ _ _ _ => trivial) (fun _ _ => ⟨_, rfl⟩)
    pathidxWalk_succ trivial

/-- The search has turns for all entries between its ends, which are entries of the index. -/
structure Sought (ix : Pathidx) (turns : ℕ) (s : UInt64 × UInt64) : Prop where
  ends : s.1.toNat ≤ s.2.toNat
  count : s.2.toNat ≤ ix.hdr.count.toNat
  turns : s.2.toNat - s.1.toNat ≤ turns

theorem toNat_mid {lo hi : UInt64} (h : lo < hi) :
    (lo + (hi - lo) / 2).toNat = lo.toNat + (hi.toNat - lo.toNat) / 2 := by
  have hlt := UInt64.lt_iff_toNat_lt.mp h
  have hlast := hi.toNat_lt
  have hsub := UInt64.toNat_sub_of_le hi lo (UInt64.le_iff_toNat_le.mpr (Nat.le_of_lt hlt))
  simp only [UInt64.toNat_add, UInt64.toNat_div, hsub, UInt64.reduceToNat]
  omega

theorem Sought.next {turns : ℕ} {s mid : UInt64 × UInt64} (hs : Sought ix (turns + 1) s)
    (h : pathidxSeek ix path s = .ok (some mid)) : Sought ix turns mid := by
  obtain ⟨hends, hcount, hturns⟩ := hs
  by_cases hlt : s.1 < s.2
  · have hlt' := UInt64.lt_iff_toNat_lt.mp hlt
    have hmid := toNat_mid hlt
    have hmid1 := toNat_add_one_of_lt (x := s.1 + (s.2 - s.1) / 2) (y := s.2) (by omega)
    rw [pathidxSeek, if_pos hlt] at h
    obtain ⟨e, -, h⟩ := MarkSweep.bind_eq_ok h
    obtain ⟨b, -, h⟩ := MarkSweep.bind_eq_ok h
    cases b with
    | false => cases h
    | true =>
      obtain ⟨o, -, h⟩ := MarkSweep.bind_eq_ok h
      obtain rfl := Option.some.inj (Except.ok.inj h)
      by_cases ho : o = .lt
      · rw [if_pos ho]
        constructor <;> dsimp only <;> omega
      · rw [if_neg ho]
        constructor <;> dsimp only <;> omega
  · rw [pathidxSeek, if_neg hlt] at h
    cases h

theorem Sought.stop {s : UInt64 × UInt64} (hs : Sought ix 0 s) :
    ∃ r, pathidxSearch ix path 0 s.1 s.2 = .ok r := by
  have hturns := hs.turns
  have hlt : ¬s.1 < s.2 := by
    rw [UInt64.lt_iff_toNat_lt]
    omega
  exact ⟨some s.1, by rw [pathidxSearch, if_neg hlt]⟩

theorem pathidxSearch_ok_iff {fuel : ℕ} {s : UInt64 × UInt64} (hs : Sought ix fuel s) :
    (∃ r, pathidxSearch ix path fuel s.1 s.2 = .ok r) ↔
      ∀ t, Visits (pathidxSeek ix path) fuel s t → ∃ r, pathidxSeek ix path t = .ok r :=
  @Visits.ok_iff _ _ _ _ _ _ (fun n s => pathidxSearch ix path n s.1 s.2) _
    (fun _ _ _ hs h => hs.next h) (fun _ hs => hs.stop) pathidxSearch_succ hs

/-- The search ends at or below the count. -/
theorem pathidxSearch_le {fuel : ℕ} {s : UInt64 × UInt64} {l : UInt64} (hs : Sought ix fuel s)
    (h : pathidxSearch ix path fuel s.1 s.2 = .ok (some l)) : l.toNat ≤ ix.hdr.count.toNat := by
  have hends : l = s.1 → l.toNat ≤ ix.hdr.count.toNat := by
    rintro rfl
    exact hs.ends.trans hs.count
  induction fuel generalizing s with
  | zero =>
    rw [pathidxSearch] at h
    split at h
    · cases h
    · exact hends (Option.some.inj (Except.ok.inj h)).symm
  | succ fuel ih =>
    have hnext := fun mid => @Sought.next ix path fuel s mid hs
    rw [pathidxSeek] at hnext
    rw [pathidxSearch] at h
    split at h
    · rename_i hlt
      obtain ⟨e, he, h⟩ := MarkSweep.bind_eq_ok h
      obtain ⟨b, hb, h⟩ := MarkSweep.bind_eq_ok h
      cases b with
      | false => cases h
      | true =>
        obtain ⟨o, ho, h⟩ := MarkSweep.bind_eq_ok h
        simp only [if_pos hlt, he, hb, ho, bind, Except.bind, if_true] at hnext
        by_cases hcmp : o = .lt
        · rw [if_pos hcmp] at h hnext
          have hmid := hnext _ rfl
          exact ih hmid h fun heq => heq ▸ hmid.ends.trans hmid.count
        · rw [if_neg hcmp] at h hnext
          have hmid := hnext _ rfl
          exact ih hmid h fun heq => heq ▸ hmid.ends.trans hmid.count
    · exact hends (Option.some.inj (Except.ok.inj h)).symm

end Loops

/-! ## Sections that fit -/

namespace PathidxLaid

variable {ix : Pathidx} {path : Bytes} (hl : PathidxLaid ix)

include hl

theorem ent_ok_iff {e : PathidxEnt} :
    (∃ b, entValid ix e = .ok b ∧ (b = true → ∃ o, dirCmp ix e path = .ok o)) ↔
      DlenKept ix e ∧ RootKept ix path e := by
  constructor
  · rintro ⟨b, hb, hcmp⟩
    refine ⟨dlenKept_of_entValid hl hb, fun hv => ?_⟩
    obtain rfl := Except.ok.inj (hb.symm.trans hv)
    exact (dirCmp_ok_iff hl hv).mp (hcmp rfl) hv
  · rintro ⟨hdlen, hroot⟩
    obtain ⟨b, hb, -⟩ := entValid_ok hl hdlen
    exact ⟨b, hb, fun htrue => (dirCmp_ok_iff hl (hb.trans (congrArg _ htrue))).mpr hroot⟩

/-- A turn of the probe reads inside exactly if the entry of its slot is kept. -/
theorem slot_ok_iff {slot : UInt64} (hs : slot.toNat < ix.hdr.nbuckets.toNat) :
    (∃ r, pathidxSlot ix path slot = .ok r) ↔ ∀ v e, ix.bucket slot = .ok v → v ≠ 0 →
      v.toUInt64 - 1 < ix.hdr.count → ix.ent (v.toUInt64 - 1) = .ok e → DlenKept ix e := by
  obtain ⟨v, hv⟩ := hl.bucket hs
  rw [pathidxSlot, hv]
  by_cases h0 : v = 0
  · refine iff_of_true ⟨none, by simp [h0, bind, Except.bind]⟩ fun v' e hv' hne => ?_
    exact absurd ((Except.ok.inj hv').symm.trans h0) hne
  by_cases hc : ix.hdr.count ≤ v.toUInt64 - 1
  · refine iff_of_true ⟨none, by simp [h0, hc, bind, Except.bind]⟩ fun v' e hv' _ hlt => ?_
    cases hv'
    exact absurd hc (UInt64.not_le.mpr hlt)
  have hlt := UInt64.not_le.mp hc
  obtain ⟨e, he⟩ := hl.ent (UInt64.lt_iff_toNat_lt.mp hlt)
  constructor
  · rintro ⟨r, hr⟩ v' e' hv' - - he'
    cases hv'
    obtain rfl := Except.ok.inj (he.symm.trans he')
    cases hb : entValid ix e with
    | error f => simp [h0, hc, he, hb, bind, Except.bind] at hr
    | ok b => exact dlenKept_of_entValid hl hb
  · intro hk
    obtain ⟨b, hb, hin⟩ := entValid_ok hl (hk v e rfl h0 hlt he)
    cases b with
    | false => exact ⟨none, by simp [h0, hc, he, hb, bind, Except.bind]⟩
    | true =>
      by_cases hlen : e.pathLen.toNat = path.length
      · have hpath := (hin rfl).ends
        obtain ⟨bs, hbs⟩ := @PathidxLaid.blob_ok _ hl e.pathOff path.length (by omega)
        obtain ⟨d, hd⟩ := entFill_ok hl (hin rfl)
        by_cases heq : bs = path
        · exact ⟨none, by
            simp [h0, hc, he, hb, hlen, hbs, heq, hd, bind, Except.bind, Except.map]⟩
        · exact ⟨some ((slot + 1) &&& (ix.hdr.nbuckets - 1)), by
            simp [h0, hc, he, hb, hlen, hbs, heq, bind, Except.bind]⟩
      · exact ⟨some ((slot + 1) &&& (ix.hdr.nbuckets - 1)), by
          simp [h0, hc, he, hb, hlen, bind, Except.bind]⟩

theorem seek_ok_iff {s : UInt64 × UInt64} (hs : s.2.toNat ≤ ix.hdr.count.toNat) :
    (∃ r, pathidxSeek ix path s = .ok r) ↔ s.1 < s.2 →
      ∀ e, ix.ent (s.1 + (s.2 - s.1) / 2) = .ok e → DlenKept ix e ∧ RootKept ix path e := by
  rw [pathidxSeek]
  by_cases hlt : s.1 < s.2
  · have hmid := toNat_mid hlt
    have hlt' := UInt64.lt_iff_toNat_lt.mp hlt
    obtain ⟨e, he⟩ := hl.ent (i := s.1 + (s.2 - s.1) / 2) (by omega)
    rw [if_pos hlt]
    dsimp only
    rw [he]
    simp only [hlt, forall_const, Except.ok.injEq, forall_eq', ← hl.ent_ok_iff]
    cases hb : entValid ix e with
    | error f => simp [hb, bind, Except.bind]
    | ok b =>
      cases b with
      | false => simp [hb, bind, Except.bind]
      | true => cases ho : dirCmp ix e path <;> simp [hb, ho, bind, Except.bind]
  · simp [hlt]

theorem meet_ok_iff {i : UInt64} (hi : i.toNat < ix.hdr.count.toNat) :
    (∃ r, pathidxMeet ix path i = .ok r) ↔
      ∀ e, ix.ent i = .ok e → DlenKept ix e ∧ RootKept ix path e := by
  obtain ⟨e, he⟩ := hl.ent hi
  rw [pathidxMeet, he]
  simp only [Except.ok.injEq, forall_eq', ← hl.ent_ok_iff]
  cases hb : entValid ix e with
  | error f => simp [hb, bind, Except.bind]
  | ok b =>
    cases b with
    | false => simp [hb, bind, Except.bind]
    | true =>
      obtain ⟨b, hb', hin⟩ := entValid_ok hl (dlenKept_of_entValid hl hb)
      obtain rfl := Except.ok.inj (hb.symm.trans hb')
      obtain ⟨d, hd⟩ := entFill_ok hl (hin rfl)
      cases ho : dirCmp ix e path with
      | error f => simp [hb, ho, bind, Except.bind]
      | ok o =>
        by_cases hcmp : o = .eq
        · by_cases h0 : e.pathLen = 0 <;>
            simp [hb, ho, hcmp, h0, hd, bind, Except.bind, Except.map]
        · simp [hb, ho, hcmp, bind, Except.bind]

end PathidxLaid

/-! ## Every access -/

/-- A slot is read inside: where the sections fit, the entry it names has a `dlen` that does not go
around; where they do not, what is read at the slot happens to lie in the file. -/
def SlotKept (ix : Pathidx) (path : Bytes) (slot : UInt64) : Prop :=
  if ix.hdr.blobOff.toNat ≤ ix.map.length then
    ∀ v e, ix.bucket slot = .ok v → v ≠ 0 → v.toUInt64 - 1 < ix.hdr.count →
      ix.ent (v.toUInt64 - 1) = .ok e → DlenKept ix e
  else ∃ r, pathidxSlot ix path slot = .ok r

/-- The entry in the middle of two of the search is read inside. -/
def SeekKept (ix : Pathidx) (dir : Bytes) (s : UInt64 × UInt64) : Prop :=
  if ix.hdr.blobOff.toNat ≤ ix.map.length then
    s.1 < s.2 → ∀ e, ix.ent (s.1 + (s.2 - s.1) / 2) = .ok e → DlenKept ix e ∧ RootKept ix dir e
  else ∃ r, pathidxSeek ix dir s = .ok r

/-- An entry of the walk is read inside. -/
def MeetKept (ix : Pathidx) (dir : Bytes) (i : UInt64) : Prop :=
  if ix.hdr.blobOff.toNat ≤ ix.map.length then
    ∀ e, ix.ent i = .ok e → DlenKept ix e ∧ RootKept ix dir e
  else ∃ r, pathidxMeet ix dir i = .ok r

/-- What a lookup and a listing of a path come to is read inside: the slots of its probe and, where
it is a directory, what its search and its walk meet. -/
structure PathidxKept (ix : Pathidx) (path : Bytes) : Prop where
  slots : ∀ s, Visits (pathidxSlot ix path) ix.hdr.nbuckets.toNat
    (pathidxFnv1a path &&& (ix.hdr.nbuckets - 1)) s → SlotKept ix path s
  search : ∀ d, cvmfsPathidxLookup ix path = .ok (.found d) → d.flags &&& 1 ≠ 0 →
    ∀ s, Visits (pathidxSeek ix path) ix.hdr.count.toNat (0, ix.hdr.count) s → SeekKept ix path s
  walk : ∀ d, cvmfsPathidxLookup ix path = .ok (.found d) → d.flags &&& 1 ≠ 0 →
    ∀ lo, pathidxSearch ix path ix.hdr.count.toNat 0 ix.hdr.count = .ok (some lo) →
    ∀ i, Visits (pathidxMeet ix path) (ix.hdr.count - lo).toNat lo i → MeetKept ix path i

section

variable {crc32 : Bytes → UInt32} {bytes path : Bytes} {ix : Pathidx}

theorem sought_all : Sought ix ix.hdr.count.toNat (0, ix.hdr.count) :=
  ⟨Nat.zero_le _, Nat.le_refl _, Nat.sub_le _ _⟩

theorem lookup_ok_iff (h : cvmfsPathidxOpen crc32 bytes = some ix) :
    (∃ a, cvmfsPathidxLookup ix path = .ok a) ↔
      ∀ s, Visits (pathidxSlot ix path) ix.hdr.nbuckets.toNat
        (pathidxFnv1a path &&& (ix.hdr.nbuckets - 1)) s → SlotKept ix path s := by
  obtain ⟨hmap, hlen, hcounts, -⟩ := open_eq_some h
  obtain ⟨-, -, hpos⟩ := counts_of_valid hlen hcounts
  rw [cvmfsPathidxLookup, pathidxProbe_ok_iff]
  refine forall_congr' fun t => imp_congr_right fun ht => ?_
  rw [SlotKept]
  split
  · rename_i hfit
    refine (laid_of_open h (hmap ▸ hfit)).slot_ok_iff ?_
    obtain ⟨-, hslot⟩ := ht.inv (P := fun _ s => s.toNat < ix.hdr.nbuckets.toNat)
      (fun _ s mid _ hnext => pathidxSlot_next hnext ▸ masked hpos _) (masked hpos _)
    exact hslot
  · exact Iff.rfl

theorem search_ok_iff (h : cvmfsPathidxOpen crc32 bytes = some ix) :
    (∃ r, pathidxSearch ix path ix.hdr.count.toNat 0 ix.hdr.count = .ok r) ↔
      ∀ s, Visits (pathidxSeek ix path) ix.hdr.count.toNat (0, ix.hdr.count) s →
        SeekKept ix path s := by
  obtain ⟨hmap, -⟩ := open_eq_some h
  rw [pathidxSearch_ok_iff (s := (0, ix.hdr.count)) sought_all]
  refine forall_congr' fun t => imp_congr_right fun ht => ?_
  rw [SeekKept]
  split
  · rename_i hfit
    obtain ⟨n, hs⟩ := ht.inv (P := Sought ix) (fun _ _ _ hs hnext => hs.next hnext) sought_all
    exact (laid_of_open h (hmap ▸ hfit)).seek_ok_iff hs.count
  · exact Iff.rfl

theorem walk_ok_iff (h : cvmfsPathidxOpen crc32 bytes = some ix) {lo : UInt64}
    (hlo : lo.toNat ≤ ix.hdr.count.toNat) :
    (∃ r, pathidxWalk ix path (ix.hdr.count - lo).toNat lo = .ok r) ↔
      ∀ i, Visits (pathidxMeet ix path) (ix.hdr.count - lo).toNat lo i → MeetKept ix path i := by
  obtain ⟨hmap, -⟩ := open_eq_some h
  rw [pathidxWalk_ok_iff]
  refine forall_congr' fun t => imp_congr_right fun ht => ?_
  rw [MeetKept]
  split
  · rename_i hfit
    refine (laid_of_open h (hmap ▸ hfit)).meet_ok_iff ?_
    have hlast : lo.toNat + (ix.hdr.count - lo).toNat ≤ ix.hdr.count.toNat := by
      rw [UInt64.toNat_sub_of_le _ _ (UInt64.le_iff_toNat_le.mpr hlo), Nat.add_sub_of_le hlo]
    obtain ⟨n, hi⟩ := ht.inv (P := fun n i => i.toNat + n ≤ ix.hdr.count.toNat)
      (fun n s mid hs hnext => by
        rw [pathidxMeet_next hnext, toNat_add_one_of_lt (y := ix.hdr.count) (by omega)]
        omega) hlast
    omega
  · exact Iff.rfl

theorem readdir_ok_iff :
    (∃ r, cvmfsPathidxReaddir ix path = .ok r) ↔ (∃ a, cvmfsPathidxLookup ix path = .ok a) ∧
      ∀ d, cvmfsPathidxLookup ix path = .ok (.found d) → d.flags &&& 1 ≠ 0 →
        (∃ r, pathidxSearch ix path ix.hdr.count.toNat 0 ix.hdr.count = .ok r) ∧
        ∀ lo, pathidxSearch ix path ix.hdr.count.toNat 0 ix.hdr.count = .ok (some lo) →
          ∃ r, pathidxWalk ix path (ix.hdr.count - lo).toNat lo = .ok r := by
  rw [cvmfsPathidxReaddir]
  cases ha : cvmfsPathidxLookup ix path with
  | error f => simp [bind, Except.bind]
  | ok a =>
    cases a with
    | corrupt | absent => simp [bind, Except.bind]
    | found d =>
      by_cases hdir : d.flags &&& 1 = 0
      · simp [hdir, bind, Except.bind]
      · cases hr : pathidxSearch ix path ix.hdr.count.toNat 0 ix.hdr.count with
        | error f => simp [hdir, bind, Except.bind]
        | ok r => cases r <;> simp [hdir, bind, Except.bind]

end

/-- **Reading stays inside.** In an index that was opened, a lookup and a listing of a path read
inside and return exactly if what they come to is read inside. -/
theorem pathidx_reads_inside (crc32 : Bytes → UInt32) (bytes path : Bytes) (ix : Pathidx)
    (h : cvmfsPathidxOpen crc32 bytes = some ix) :
    ((∃ a, cvmfsPathidxLookup ix path = .ok a) ∧ ∃ r, cvmfsPathidxReaddir ix path = .ok r) ↔
      PathidxKept ix path := by
  rw [readdir_ok_iff]
  constructor
  · rintro ⟨hlookup, -, hdir⟩
    refine ⟨(lookup_ok_iff h).mp hlookup, fun d hd hflag => ?_, fun d hd hflag lo hlo => ?_⟩
    · exact (search_ok_iff h).mp (hdir d hd hflag).1
    · exact (walk_ok_iff h (pathidxSearch_le (s := (0, ix.hdr.count)) sought_all hlo)).mp
        ((hdir d hd hflag).2 lo hlo)
  · intro hk
    have hlookup := (lookup_ok_iff h).mpr hk.slots
    refine ⟨hlookup, hlookup, fun d hd hflag => ⟨?_, fun lo hlo => ?_⟩⟩
    · exact (search_ok_iff h).mpr (hk.search d hd hflag)
    · exact (walk_ok_iff h (pathidxSearch_le (s := (0, ix.hdr.count)) sought_all hlo)).mpr
        (hk.walk d hd hflag lo hlo)

/-- The header of a file of `len` bytes with so many entries and buckets -/
def hdrFor (crc32 : Bytes → UInt32) (count nbuckets len : UInt64) : PathidxHdr :=
  let blob := 112 + count * 104 + nbuckets * 4
  let h : PathidxHdr :=
    { magic := 0x49505842
      version := 1
      hashSz := 32
      entSz := 104
      root := ⟨0, .replicate 20 0, 20⟩
      count := count
      nbuckets := nbuckets
      entsOff := 112
      bucketsOff := 112 + count * 104
      blobOff := blob
      blobLen := len - blob
      fileLen := len
      hdrCrc := 0
      rsvd := 0 }
  { h with hdrCrc := hdrCrc crc32 h }

theorem hdrFor_identity (crc32 : Bytes → UInt32) (count nbuckets len : UInt64) :
    headerIdentityValid crc32 (hdrFor crc32 count nbuckets len) len = true := by
  have hcrc : hdrCrc crc32 (hdrFor crc32 count nbuckets len) =
    (hdrFor crc32 count nbuckets len).hdrCrc := hdrCrc_set crc32 _ _
  rw [headerIdentityValid, hcrc]
  simp [hdrFor]

/-- The entry of the root directory, without further fields -/
def rootEnt : PathidxEnt := ⟨0, 0, 0, 0, 0, 0, 1, 0, 0, 0, 0, 0, 0, 0, ⟨0, .replicate 20 0, 0⟩⟩

/-- An index of the root alone, which its one bucket names -/
def rootIndex : Pathidx :=
  ⟨Wire.put (hdrFor crc32 1 1 221) ++ (Wire.put rootEnt ++ [1, 0, 0, 0, 0]), hdrFor crc32 1 1 221⟩

theorem pathidx_reads_inside_root :
    cvmfsPathidxOpen crc32 rootIndex.map = some rootIndex ∧
      (∃ a, cvmfsPathidxLookup rootIndex [] = .ok a) ∧
      ∃ r, cvmfsPathidxReaddir rootIndex [] = .ok r := by
  have hopen : cvmfsPathidxOpen crc32 rootIndex.map = some rootIndex :=
    open_put (by decide) (hdrFor_identity crc32 1 1 221) (by decide) (by decide)
  have hfit : rootIndex.hdr.blobOff.toNat ≤ rootIndex.map.length := by decide +kernel
  have hent : rootIndex.ent 0 = .ok rootEnt := by decide +kernel
  have hkept : ∀ e, rootIndex.ent 0 = .ok e → DlenKept rootIndex e ∧ RootKept rootIndex [] e := by
    intro e he
    obtain rfl := Except.ok.inj (hent.symm.trans he)
    exact ⟨fun _ _ h0 => absurd rfl h0, fun _ _ => by decide⟩
  refine ⟨hopen, (pathidx_reads_inside crc32 _ [] rootIndex hopen).2 ⟨?_, ?_, ?_⟩⟩
  · intro s _
    rw [SlotKept, if_pos hfit]
    intro v e _ _ hv he
    have hzero : v.toUInt64 - 1 = 0 :=
      UInt64.toNat_inj.mp (Nat.lt_one_iff.mp (UInt64.lt_iff_toNat_lt.mp hv))
    exact (hkept e (hzero ▸ he)).1
  · intro d _ _ s hs
    rw [hs.one, SeekKept, if_pos hfit]
    exact fun _ => hkept
  · intro d _ _ lo hlo i hi
    have hfirst : pathidxSearch rootIndex [] rootIndex.hdr.count.toNat 0 rootIndex.hdr.count =
        .ok (some 0) := by
      decide +kernel
    obtain rfl := Option.some.inj (Except.ok.inj (hfirst.symm.trans hlo))
    rw [hi.one, MeetKept, if_pos hfit]
    exact hkept

/-- Counts that are each small enough for the file are not together: its buckets begin where it
has ended. -/
theorem buckets_past_the_end :
    ¬∀ (bytes path : Bytes) (ix : Pathidx), cvmfsPathidxOpen crc32 bytes = some ix →
      (∃ a, cvmfsPathidxLookup ix path = .ok a) ∧ ∃ r, cvmfsPathidxReaddir ix path = .ok r := by
  intro hall
  have hopen : cvmfsPathidxOpen crc32 (Wire.put (hdrFor crc32 2 1 216) ++ List.replicate 104 0) =
      some ⟨Wire.put (hdrFor crc32 2 1 216) ++ List.replicate 104 0, hdrFor crc32 2 1 216⟩ :=
    open_put (by decide) (hdrFor_identity crc32 2 1 216) (by decide) (by decide)
  obtain ⟨⟨a, ha⟩, -⟩ := hall _ [] _ hopen
  have hfault : cvmfsPathidxLookup ⟨Wire.put (hdrFor crc32 2 1 216) ++ List.replicate 104 0,
      hdrFor crc32 2 1 216⟩ [] = .error .outside := by
    decide
  rw [hfault] at ha
  cases ha

end BrixCache

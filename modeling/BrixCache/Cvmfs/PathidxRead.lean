import BrixCache.Cvmfs.PathidxBuild
import BrixCache.Cvmfs.PathidxSafe

/-!
# What is read of an index that was written

A mapping that was laid out from an image gives back each of its parts: the entry of an index, the
word of a bucket, and any piece of the blob at the offset where it lies. From this each reading
function on an entry that the writer made: it is valid, it is filled into the dirent it was made
of, and it compares with a directory as the directory it was sorted under.
-/

namespace BrixCache

open Segments List

/-! ## The parts -/

/-- An accepted file is its header and the three sections of an image. -/
structure PathidxParts (ix : Pathidx) (image : PathidxImage) : Prop where
  map : ix.map = Wire.put ix.hdr ++
    (Wire.putAll image.ents ++ (Wire.putAll image.buckets ++ image.blob))
  small : ix.map.length ≤ 2 ^ 30
  count : ix.hdr.count.toNat = image.ents.length
  nbuckets : ix.hdr.nbuckets.toNat = image.buckets.length
  blobLen : ix.hdr.blobLen.toNat = image.blob.length
  entsOff : ix.hdr.entsOff.toNat = 112
  bucketsOff : ix.hdr.bucketsOff.toNat = 112 + 104 * image.ents.length
  blobOff : ix.hdr.blobOff.toNat =
    112 + 104 * image.ents.length + 4 * image.buckets.length

theorem bytesAt_append {ix : Pathidx} {off : UInt64} (front mid back : Bytes)
    (hmap : ix.map = front ++ (mid ++ back)) (hoff : off.toNat = front.length) :
    ix.bytesAt off mid.length = .ok mid := by
  rw [bytesAt_ok (by rw [hoff, hmap]; simp), hoff, hmap, drop_left, take_left]

variable {α : Type} {be : PathidxBent} {dir name : Bytes}

theorem exists_split {xs : List α} {i : ℕ} {x : α} (h : xs[i]? = some x) :
    xs = xs.take i ++ x :: xs.drop (i + 1) ∧ (xs.take i).length = i := by
  obtain ⟨hi, hx⟩ := List.getElem?_eq_some_iff.mp h
  refine ⟨?_, length_take_of_le (Nat.le_of_lt hi)⟩
  rw [← hx, ← drop_eq_getElem_cons hi, take_append_drop]

theorem putAll_append [Wire α] (xs ys : List α) :
    Wire.putAll (xs ++ ys) = Wire.putAll xs ++ Wire.putAll ys := flatMap_append

theorem putAll_cons [Wire α] (x : α) (xs : List α) :
    Wire.putAll (x :: xs) = Wire.put x ++ Wire.putAll xs := flatMap_cons

theorem length_hdr (h : PathidxHdr) : (Wire.put h).length = 112 := Wire.put_length h

theorem length_ents (ents : List PathidxEnt) : (Wire.putAll ents).length = ents.length * 104 :=
  Wire.putAll_length ents

theorem length_buckets (ws : List UInt32) : (Wire.putAll ws).length = ws.length * 4 :=
  Wire.putAll_length ws

namespace PathidxParts

variable {ix : Pathidx} {image : PathidxImage} (hp : PathidxParts ix image)

include hp

theorem length_map : ix.map.length = 112 + 104 * image.ents.length + 4 * image.buckets.length +
    image.blob.length := by
  rw [hp.map, length_append, length_append, length_append, length_hdr, length_ents,
    length_buckets]
  omega

theorem ent {i : ℕ} {e : PathidxEnt} (h : image.ents[i]? = some e) :
    ix.ent (UInt64.ofNat i) = .ok e := by
  obtain ⟨hsplit, hlen⟩ := exists_split h
  have hi := (List.getElem?_eq_some_iff.mp h).1
  have hmap := hp.length_map
  have hsmall := hp.small
  have hoff : (ix.hdr.entsOff + UInt64.ofNat i * 104).toNat =
      (Wire.put ix.hdr ++ Wire.putAll (image.ents.take i)).length := by
    rw [length_append, length_hdr, length_ents, hlen]
    simp only [UInt64.toNat_add, UInt64.toNat_mul, UInt64.toNat_ofNat', hp.entsOff,
      UInt64.reduceToNat]
    omega
  have hread := bytesAt_append (Wire.put ix.hdr ++ Wire.putAll (image.ents.take i)) (Wire.put e)
    (Wire.putAll (image.ents.drop (i + 1)) ++ (Wire.putAll image.buckets ++ image.blob)) (by
      rw [hp.map]
      conv => lhs; rw [hsplit]
      simp only [putAll_append, putAll_cons, append_assoc]) hoff
  have hwidth : (Wire.put e).length = pathidxEntSize := Wire.put_length e
  rw [hwidth] at hread
  rw [Pathidx.ent, hread]
  simp [Except.map]

theorem bucket {i : ℕ} {w : UInt32} (h : image.buckets[i]? = some w) {slot : UInt64}
    (hslot : slot.toNat = i) : ix.bucket slot = .ok w := by
  obtain ⟨hsplit, hlen⟩ := exists_split h
  have hi := (List.getElem?_eq_some_iff.mp h).1
  have hmap := hp.length_map
  have hsmall := hp.small
  have hoff : (ix.hdr.bucketsOff + slot * 4).toNat =
      (Wire.put ix.hdr ++ (Wire.putAll image.ents ++ Wire.putAll (image.buckets.take i))).length := by
    rw [length_append, length_append, length_hdr, length_ents, length_buckets, hlen]
    simp only [UInt64.toNat_add, UInt64.toNat_mul, hslot, hp.bucketsOff, UInt64.reduceToNat]
    omega
  have hread := bytesAt_append (Wire.put ix.hdr ++ (Wire.putAll image.ents ++
    Wire.putAll (image.buckets.take i))) (Wire.put w)
    (Wire.putAll (image.buckets.drop (i + 1)) ++ image.blob) (by
      rw [hp.map]
      conv => lhs; rw [hsplit]
      simp only [putAll_append, putAll_cons, append_assoc]) hoff
  have hwidth : (Wire.put w).length = 4 := Wire.put_length w
  rw [hwidth] at hread
  rw [Pathidx.bucket, hread]
  simp [Except.map]

theorem piece {off : UInt64} (front mid back : Bytes)
    (hblob : image.blob = front ++ (mid ++ back)) (hoff : off.toNat = front.length) :
    ix.blob off mid.length = .ok mid := by
  have hmap := hp.length_map
  have hsmall := hp.small
  rw [Pathidx.blob]
  split
  · rename_i h0
    rw [length_eq_zero_iff.mp h0]
  · refine bytesAt_append (Wire.put ix.hdr ++ (Wire.putAll image.ents ++
      (Wire.putAll image.buckets ++ front))) mid back ?_ ?_
    · rw [hp.map, hblob]
      simp only [append_assoc]
    · have hlen := congrArg List.length hblob
      simp only [length_append] at hlen
      rw [length_append, length_append, length_append, length_hdr, length_ents,
        length_buckets, UInt64.toNat_add, hp.blobOff, hoff]
      omega

end PathidxParts

/-! ## An entry -/

/-- `dir` and `name` make up the path of an entry: it is empty, or the name stands behind the last
slash. -/
structure PathidxNamed (path dir name : Bytes) : Prop where
  parts : path = [] ∧ dir = [] ∧ name = [] ∨ path = dir ++ slash :: name ∧ name ≠ []
  leaf : slash ∉ name

/-- The limits of an entry -/
structure PathidxListed (be : PathidxBent) (dir name : Bytes) : Prop where
  named : PathidxNamed be.path dir name
  short : name.length < 256
  link : ∀ l, be.link = some l → l.length < 1024
  hash : be.hash.len ≤ 20

/-- The dirent an entry of the builder stands for -/
def bentDirent (be : PathidxBent) (name : Bytes) : PathidxDirent where
  name := name
  flags := be.flags
  mode := be.mode
  size := be.size
  mtime := be.mtime
  uid := be.uid
  gid := be.gid
  linkcount := be.linkcount
  symlink := be.link.getD []
  hash := if be.hasHash = 0 then none else some be.hash

theorem PathidxNamed.bentDlen
    (hn : PathidxNamed be.path dir name) (hsmall : be.path.length < 2 ^ 32) :
    (bentDlen be).toNat = dir.length := by
  have hbefore : ((beforeLast slash be.path).getD []).length = dir.length := by
    rcases hn.parts with ⟨hpath, hdir, -⟩ | ⟨hpath, -⟩
    · rw [hpath, hdir]
      rfl
    · have hlast : beforeLast slash be.path = some dir :=
        beforeLast_eq_some.mpr ⟨name, hpath, hn.leaf⟩
      rw [hlast, Option.getD_some]
  have hle : dir.length ≤ be.path.length := by
    rcases hn.parts with ⟨hpath, hdir, -⟩ | ⟨hpath, -⟩
    · rw [hpath, hdir]
    · rw [hpath, length_append]
      exact Nat.le_add_right _ _
  rw [BrixCache.bentDlen, hbefore, UInt32.toNat_ofNat', Nat.mod_eq_of_lt (by omega)]

theorem PathidxNamed.bentDir
    (hn : PathidxNamed be.path dir name) (hsmall : be.path.length < 2 ^ 32) :
    bentDir be = dir := by
  rw [BrixCache.bentDir, hn.bentDlen hsmall]
  rcases hn.parts with ⟨hpath, hdir, -⟩ | ⟨hpath, -⟩
  · rw [hpath, hdir]
    rfl
  · rw [hpath, take_left]

theorem PathidxNamed.bentName
    (hn : PathidxNamed be.path dir name) (hsmall : be.path.length < 2 ^ 32) :
    bentName be = name := by
  rw [BrixCache.bentName, hn.bentDlen hsmall]
  rcases hn.parts with ⟨hpath, -, hname⟩ | ⟨hpath, -⟩
  · rw [if_pos hpath, hname]
  · have hcut : dir ++ slash :: name = (dir ++ [slash]) ++ name := by simp
    have hlen : (dir ++ [slash]).length = dir.length + 1 := by simp
    rw [if_neg (by rw [hpath]; simp), hpath, hcut, ← hlen, drop_left]

/-- An entry as the writer made it, with its strings in the blob -/
structure PathidxWritten (ix : Pathidx) (image : PathidxImage) (be : PathidxBent)
    (front back : Bytes) : Prop where
  parts : PathidxParts ix image
  blob : image.blob = front ++ (bentText be ++ back)

section Written

variable {ix : Pathidx} {image : PathidxImage} {be : PathidxBent} {front back : Bytes}
  {dir name : Bytes}

theorem PathidxWritten.length (hw : PathidxWritten ix image be front back) :
    front.length + (bentText be).length ≤ image.blob.length ∧ image.blob.length ≤ 2 ^ 30 := by
  have hlen := congrArg List.length hw.blob
  have hmap := hw.parts.length_map
  have hsmall := hw.parts.small
  simp only [length_append] at hlen
  omega

theorem length_bentText (be : PathidxBent) :
    (bentText be).length = be.path.length + 1 + be.link.elim 0 fun l => l.length + 1 := by
  cases h : be.link with
  | none => simp [bentText, h]
  | some l =>
    simp [bentText, h]
    omega

section

variable (hw : PathidxWritten ix image be front back)
include hw

theorem PathidxWritten.path (k : ℕ)
    (mid rest : Bytes) (hpath : be.path ++ [0] = be.path.take k ++ (mid ++ rest))
    (hk : k ≤ be.path.length) {off : UInt64} (hoff : off.toNat = front.length + k) :
    ix.blob off mid.length = .ok mid := by
  refine hw.parts.piece (front ++ be.path.take k) mid
    (rest ++ (be.link.elim [] fun l => l ++ [0]) ++ back) ?_ ?_
  · have htext : bentText be = (be.path ++ [0]) ++ be.link.elim [] fun l => l ++ [0] := by
      simp [bentText]
    rw [hw.blob, htext, hpath]
    simp only [append_assoc]
  · rw [length_append, length_take_of_le hk, hoff]

theorem PathidxWritten.pathOff :
    (imageEntry be front.length).pathOff.toNat = front.length := by
  obtain ⟨hlen, hsmall⟩ := hw.length
  rw [imageEntry, UInt64.toNat_ofNat', Nat.mod_eq_of_lt (by omega)]

theorem PathidxWritten.pathLen :
    (imageEntry be front.length).pathLen.toNat = be.path.length := by
  obtain ⟨hlen, hsmall⟩ := hw.length
  have htext := length_bentText be
  rw [imageEntry, UInt32.toNat_ofNat', Nat.mod_eq_of_lt (by omega)]

theorem PathidxWritten.short :
    be.path.length < 2 ^ 32 := by
  obtain ⟨hlen, hsmall⟩ := hw.length
  have htext := length_bentText be
  omega

theorem PathidxWritten.dlen
    (hn : PathidxNamed be.path dir name) :
    (imageEntry be front.length).dlen.toNat = dir.length := hn.bentDlen hw.short

theorem PathidxWritten.whole :
    ix.blob (imageEntry be front.length).pathOff be.path.length = .ok be.path :=
  hw.path 0 be.path [0] (by simp) (Nat.zero_le _) hw.pathOff

theorem PathidxWritten.entPathValid
    (hn : PathidxNamed be.path dir name) (hshort : name.length < 256) :
    entPathValid ix (imageEntry be front.length) = .ok true := by
  have hoff := hw.pathOff
  have hlen := hw.pathLen
  have hdlen := hw.dlen hn
  obtain ⟨hin, hsmall⟩ := hw.length
  have htext := length_bentText be
  generalize imageEntry be front.length = e at hoff hlen hdlen ⊢
  have hpass : passesBlob ix.hdr.blobLen e.pathOff e.pathLen = false := by
    rw [passesBlob_eq_false, hoff, hlen, hw.parts.blobLen]
    omega
  have hnul : ix.blob (e.pathOff + e.pathLen.toUInt64) 1 = .ok [0] := by
    refine hw.path be.path.length [0] [] (by simp) (Nat.le_refl _) ?_
    rw [UInt64.toNat_add, UInt32.toNat_toUInt64, hoff, hlen]
    omega
  rcases hn.parts with ⟨hpath, -, -⟩ | ⟨hpath, hname⟩
  · have h0 : e.pathLen = 0 := UInt32.toNat_inj.mp (by rw [hlen, hpath]; rfl)
    rw [BrixCache.entPathValid, if_neg (by simp [hpass]), hnul]
    simp [h0, bind, Except.bind]
  · have hpl : be.path.length = dir.length + (name.length + 1) := by
      rw [hpath, length_append, length_cons]
    have hnl : 0 < name.length := length_pos_iff.mpr hname
    have h0 : e.pathLen ≠ 0 := by
      intro h
      rw [h] at hlen
      have : (0 : UInt32).toNat = 0 := rfl
      omega
    have hle : ¬e.pathLen ≤ e.dlen + 1 := by
      rw [UInt32.le_iff_toNat_le, UInt32.toNat_add, hdlen, hlen]
      simp only [UInt32.reduceToNat]
      omega
    have hsep : ix.blob (e.pathOff + e.dlen.toUInt64) 1 = .ok [slash] := by
      refine hw.path dir.length [slash] (name ++ [0]) ?_ (by omega) ?_
      · rw [hpath, take_left]
        simp
      · rw [UInt64.toNat_add, UInt32.toNat_toUInt64, hoff, hdlen]
        omega
    have hlt : e.pathLen - e.dlen - 1 < 256 := by
      simp only [UInt32.lt_iff_toNat_lt, UInt32.toNat_sub, hdlen, hlen, UInt32.reduceToNat]
      omega
    simp [BrixCache.entPathValid, hpass, hnul, h0, hle, hsep, hlt, bind, Except.bind]

theorem PathidxWritten.linkAt {l : Bytes}
    (hl : be.link = some l) :
    (imageEntry be front.length).linkOff.toNat = front.length + be.path.length + 1 ∧
      (imageEntry be front.length).linkLen.toNat = l.length := by
  obtain ⟨hin, hsmall⟩ := hw.length
  have htext := length_bentText be
  rw [hl, Option.elim_some] at htext
  simp only [imageEntry, hl, Option.elim_some, UInt64.toNat_ofNat', UInt32.toNat_ofNat']
  omega

theorem PathidxWritten.link {l : Bytes}
    (hl : be.link = some l) (k : ℕ) (mid rest : Bytes) (hcut : l ++ [0] = l.take k ++ (mid ++ rest))
    (hk : k ≤ l.length) {off : UInt64}
    (hoff : off.toNat = front.length + be.path.length + 1 + k) :
    ix.blob off mid.length = .ok mid := by
  refine hw.parts.piece (front ++ (be.path ++ 0 :: l.take k)) mid (rest ++ back) ?_ ?_
  · have htext : bentText be = be.path ++ 0 :: (l ++ [0]) := by simp [bentText, hl]
    rw [hw.blob, htext, hcut]
    simp
  · simp [length_take_of_le hk, hoff]
    omega

theorem PathidxWritten.entLinkValid
    (hshort : ∀ l, be.link = some l → l.length < 1024) :
    entLinkValid ix (imageEntry be front.length) = .ok true := by
  cases hl : be.link with
  | none =>
    have h0 : (imageEntry be front.length).linkLen = 0 := by simp [imageEntry, hl]
    rw [BrixCache.entLinkValid, if_pos h0]
  | some l =>
    obtain ⟨hoff, hlen⟩ := hw.linkAt hl
    have hlt := hshort l hl
    obtain ⟨hin, hsmall⟩ := hw.length
    have htext := length_bentText be
    rw [hl, Option.elim_some] at htext
    generalize imageEntry be front.length = e at hoff hlen ⊢
    have hpass : passesBlob ix.hdr.blobLen e.linkOff e.linkLen = false := by
      rw [passesBlob_eq_false, hoff, hlen, hw.parts.blobLen]
      omega
    have hnul : ix.blob (e.linkOff + e.linkLen.toUInt64) 1 = .ok [0] := by
      refine hw.link hl l.length [0] [] (by simp) (Nat.le_refl _) ?_
      rw [UInt64.toNat_add, UInt32.toNat_toUInt64, hoff, hlen]
      omega
    have hmax : e.linkLen < 1024 := by
      rw [UInt32.lt_iff_toNat_lt, hlen]
      exact hlt
    by_cases h0 : e.linkLen = 0
    · rw [BrixCache.entLinkValid, if_pos h0]
    · simp [BrixCache.entLinkValid, h0, hpass, hnul, hmax, bind, Except.bind]

theorem PathidxWritten.entValid
    (hl : PathidxListed be dir name) : entValid ix (imageEntry be front.length) = .ok true := by
  have hpath := hw.entPathValid hl.named hl.short
  have hlink := hw.entLinkValid hl.link
  have hhash : (imageEntry be front.length).hash.len ≤ 20 := hl.hash
  simp [BrixCache.entValid, hpath, hlink, hhash, bind, Except.bind]

theorem PathidxWritten.entFill
    (hl : PathidxListed be dir name) :
    entFill ix (imageEntry be front.length) = .ok (bentDirent be name) := by
  have hoff := hw.pathOff
  have hlen := hw.pathLen
  have hdlen := hw.dlen hl.named
  obtain ⟨hin, hsmall⟩ := hw.length
  have htext := length_bentText be
  have hlink : ix.blob (imageEntry be front.length).linkOff
      (imageEntry be front.length).linkLen.toNat = .ok (be.link.getD []) := by
    cases hk : be.link with
    | none =>
      have h0 : (imageEntry be front.length).linkLen.toNat = 0 := by simp [imageEntry, hk]
      rw [h0, Pathidx.blob, if_pos rfl, Option.getD_none]
    | some l =>
      obtain ⟨hloff, hllen⟩ := hw.linkAt hk
      rw [hllen, Option.getD_some]
      exact hw.link hk 0 l [0] (by simp) (Nat.zero_le _) hloff
  have hfields : bentDirent be name =
      { name := name
        flags := (imageEntry be front.length).flags
        mode := (imageEntry be front.length).mode
        size := (imageEntry be front.length).size
        mtime := (imageEntry be front.length).mtime
        uid := (imageEntry be front.length).uid
        gid := (imageEntry be front.length).gid
        linkcount := (imageEntry be front.length).linkcount
        symlink := be.link.getD []
        hash := if (imageEntry be front.length).hasHash = 0 then none
          else some (imageEntry be front.length).hash } := rfl
  rw [hfields]
  generalize imageEntry be front.length = e at hoff hlen hdlen hlink ⊢
  rcases hl.named.parts with ⟨hpath, -, hname⟩ | ⟨hpath, hname⟩
  · have h0 : e.pathLen = 0 := UInt32.toNat_inj.mp (by rw [hlen, hpath]; rfl)
    simp [BrixCache.entFill, h0, hlink, hname, bind, Except.bind]
  · have hpl : be.path.length = dir.length + (name.length + 1) := by
      rw [hpath, length_append, length_cons]
    have h0 : e.pathLen ≠ 0 := by
      intro h
      rw [h] at hlen
      have : (0 : UInt32).toNat = 0 := rfl
      omega
    have hnl : (e.pathLen - e.dlen - 1).toNat = name.length := by
      simp only [UInt32.toNat_sub, hdlen, hlen, UInt32.reduceToNat]
      omega
    have hread : ix.blob (e.pathOff + e.dlen.toUInt64 + 1) name.length = .ok name := by
      refine hw.path (dir.length + 1) name [0] ?_ (by omega) ?_
      · have hcut : dir ++ slash :: name = (dir ++ [slash]) ++ name := by simp
        have hdl : (dir ++ [slash]).length = dir.length + 1 := by simp
        rw [hpath, hcut, ← hdl, take_left, append_assoc]
      · simp only [UInt64.toNat_add, UInt32.toNat_toUInt64, hoff, hdlen, UInt64.reduceToNat]
        omega
    simp [BrixCache.entFill, h0, hnl, hread, hlink, bind, Except.bind]

theorem PathidxWritten.dirCmp
    (hn : PathidxNamed be.path dir name) (d : Bytes) :
    dirCmp ix (imageEntry be front.length) d = .ok (compare dir d) := by
  have hle : dir.length ≤ be.path.length := by
    rcases hn.parts with ⟨hpath, hdir, -⟩ | ⟨hpath, -⟩
    · rw [hdir]
      exact Nat.zero_le _
    · rw [hpath, length_append]
      exact Nat.le_add_right _ _
  have htake : be.path.take (min dir.length d.length) = dir.take (min dir.length d.length) := by
    rcases hn.parts with ⟨hpath, hdir, -⟩ | ⟨hpath, -⟩
    · rw [hpath, hdir]
    · rw [hpath, take_append_of_le_length (Nat.min_le_left _ _)]
  have hlen : (be.path.take (min dir.length d.length)).length = min dir.length d.length := by
    rw [length_take]
    omega
  have hread := hw.path 0 (be.path.take (min dir.length d.length))
    (be.path.drop (min dir.length d.length) ++ [0])
    (by rw [take_zero, nil_append, ← append_assoc, take_append_drop])
    (Nat.zero_le _) hw.pathOff
  rw [hlen, htake] at hread
  simp only [BrixCache.dirCmp, hw.dlen hn, hread, bind, Except.bind]
  rw [compare_take_then]

end

end Written

end BrixCache

import BrixCache.Root.Readv
import BrixCache.Core.Ascii
import Mathlib.Data.List.Basic

/-!
# What a vector read gives

Every segment is read through the first segment of its run (`readvLeaders`), so the response
holds the bytes of that segment's file (`readvLoop_eq`). It is the one the segment is owed, for
all contents of the files, exactly when the segments of a run that have any bytes are of one file
(`brixReadvReadSegments_own_iff`).
-/

namespace BrixCache

open List

variable {O : Type} (files : ℕ → OpenHandle O) (segMax : ℕ)

/-! ## The layout -/

theorem memcpy_splice {a b c s : Bytes} (h : b.length = s.length) :
    memcpy (a ++ (b ++ c)) a.length s = a ++ (s ++ c) := by
  have hdrop : (a ++ (b ++ c)).drop (a.length + s.length) = c := by
    rw [← h, ← drop_drop, drop_left, drop_left]
  rw [memcpy, take_left, hdrop, append_assoc]

theorem exists_cut {β : Type} {n : ℕ} {l : List β} (h : n ≤ l.length) :
    ∃ a b, l = a ++ b ∧ a.length = n :=
  ⟨l.take n, l.drop n, (take_append_drop n l).symm, length_take_of_le h⟩

theorem length_beBytes (n x : ℕ) : (beBytes n x).length = n := by
  rw [beBytes, length_reverse, leBytes_length]

/-- The descriptor of a segment whose header is at `cursor`. -/
def readvDesc (cursor : ℕ) (w : ReadaheadList) : ReadvSegDesc O :=
  { fd := (files w.handleIndex).fd
    obj := (files w.handleIndex).sdObj
    handleIndex := w.handleIndex
    offset := w.offset.toInt64.toInt
    readLength := w.readLength segMax
    headerReadLengthPtr := cursor + 4
    payloadPtr := cursor + readvSegSize }

/-- The descriptors of the segments from `cursor` on. -/
def readvDescs : ℕ → List ReadaheadList → List (ReadvSegDesc O)
  | _, [] => []
  | cursor, w :: ws =>
    readvDesc files segMax cursor w :: readvDescs (cursor + (readvSegSize + w.readLength segMax)) ws

/-- A response, or the end of one, with the headers in it and room for the bytes. -/
inductive ReadvLaid : List ReadaheadList → Bytes → Prop where
  | nil : ReadvLaid [] []
  | cons {w : ReadaheadList} {ws : List ReadaheadList} {payload buf : Bytes}
      (hlen : payload.length = w.readLength segMax) (h : ReadvLaid ws buf) :
      ReadvLaid (w :: ws) (readvHeader segMax w ++ (payload ++ buf))

theorem length_readvHeader (w : ReadaheadList) : (readvHeader segMax w).length = readvSegSize := by
  rw [readvHeader, length_append, length_append, w.fhandle_length, length_beBytes,
    length_beBytes]
  rfl

theorem brixReadvBuildDescriptors_eq (wire : List ReadaheadList) (pre buf : Bytes)
    (hlen : buf.length = readvResponseBytes segMax wire) :
    (brixReadvBuildDescriptors files segMax pre.length wire (pre ++ buf)).1 =
        readvDescs files segMax pre.length wire ∧
      ∃ laid, (brixReadvBuildDescriptors files segMax pre.length wire (pre ++ buf)).2 =
        pre ++ laid ∧ ReadvLaid segMax wire laid := by
  induction wire generalizing pre buf with
  | nil =>
    have hnil : buf = [] := length_eq_zero_iff.mp hlen
    exact ⟨rfl, [], by rw [hnil]; rfl, .nil⟩
  | cons w ws ih =>
    have hseg : readvSegSize = 16 := rfl
    rw [readvResponseBytes, map_cons, sum_cons] at hlen
    obtain ⟨b₁, rest₁, rfl, hb₁⟩ := exists_cut (n := 4) (l := buf) (by omega)
    rw [length_append, hb₁] at hlen
    obtain ⟨b₂, rest₂, rfl, hb₂⟩ := exists_cut (n := 4) (l := rest₁) (by omega)
    rw [length_append, hb₂] at hlen
    obtain ⟨b₃, rest₃, rfl, hb₃⟩ := exists_cut (n := 8) (l := rest₂) (by omega)
    rw [length_append, hb₃] at hlen
    obtain ⟨payload, rest, rfl, hpay⟩ :=
      exists_cut (n := w.readLength segMax) (l := rest₃) (by omega)
    rw [length_append, hpay] at hlen
    have h₁ : memcpy (pre ++ (b₁ ++ (b₂ ++ (b₃ ++ (payload ++ rest))))) pre.length w.fhandle =
        pre ++ (w.fhandle ++ (b₂ ++ (b₃ ++ (payload ++ rest)))) :=
      memcpy_splice (hb₁.trans w.fhandle_length.symm)
    have h₂ : memcpy (pre ++ (w.fhandle ++ (b₂ ++ (b₃ ++ (payload ++ rest))))) (pre.length + 4)
          (beBytes 4 (w.readLength segMax)) =
        pre ++ (w.fhandle ++ (beBytes 4 (w.readLength segMax) ++ (b₃ ++ (payload ++ rest)))) := by
      have hput := memcpy_splice (a := pre ++ w.fhandle) (b := b₂) (c := b₃ ++ (payload ++ rest))
        (s := beBytes 4 (w.readLength segMax)) (hb₂.trans (length_beBytes 4 _).symm)
      simp only [length_append, w.fhandle_length, append_assoc] at hput
      exact hput
    have h₃ : memcpy
          (pre ++ (w.fhandle ++ (beBytes 4 (w.readLength segMax) ++ (b₃ ++ (payload ++ rest)))))
          (pre.length + 8) (beBytes 8 w.offset.toNat) =
        pre ++ (readvHeader segMax w ++ (payload ++ rest)) := by
      have hput := memcpy_splice (a := pre ++ w.fhandle ++ beBytes 4 (w.readLength segMax))
        (b := b₃) (c := payload ++ rest) (s := beBytes 8 w.offset.toNat)
        (hb₃.trans (length_beBytes 8 _).symm)
      simp only [length_append, w.fhandle_length, length_beBytes, append_assoc] at hput
      simp only [readvHeader, append_assoc]
      exact hput
    have hcursor : (pre ++ (readvHeader segMax w ++ payload)).length =
        pre.length + (readvSegSize + w.readLength segMax) := by
      rw [length_append, length_append, length_readvHeader, hpay]
    obtain ⟨hdescs, laid, hlaid, hrest⟩ := ih (pre ++ (readvHeader segMax w ++ payload)) rest (by
      rw [readvResponseBytes]
      omega)
    rw [hcursor, append_assoc, append_assoc] at hdescs hlaid
    simp only [brixReadvBuildDescriptors, h₁, h₂, h₃, hdescs, hlaid]
    exact ⟨rfl, readvHeader segMax w ++ (payload ++ laid), by simp only [append_assoc],
      .cons hpay hrest⟩

/-! ## Runs -/

variable {w : ReadaheadList} {ws : List ReadaheadList} {off : ℕ} {buf pre : Bytes}

theorem offset_toInt (h : w.offset.toNat < 2 ^ 63) :
    w.offset.toInt64.toInt = w.offset.toNat := toInt_toInt64 h

def readvRange (w : ReadaheadList) : ByteRange := (readvDesc files segMax 0 w).range

theorem readvRange_start (h : w.offset.toNat + w.readLength segMax < 2 ^ 63) :
    (readvRange files segMax w).start = w.offset.toNat := offset_toInt (by omega)

theorem readvRange_stop (h : w.offset.toNat + w.readLength segMax < 2 ^ 63) :
    (readvRange files segMax w).stop + 1 = w.offset.toNat + w.readLength segMax := by
  have hstop : (readvRange files segMax w).stop =
      if 0 < w.readLength segMax then w.offset.toInt64.toInt + w.readLength segMax - 1
      else w.offset.toInt64.toInt - 1 := rfl
  rw [hstop, offset_toInt (by omega)]
  split <;> omega

theorem brixReadvBuildRanges_eq (i cursor : ℕ)
    (h : ∀ w ∈ ws, w.offset.toNat + w.readLength segMax < 2 ^ 63) :
    brixReadvBuildRanges i (readvDescs files segMax cursor ws) =
      .ok (ws.map (readvRange files segMax)) := by
  induction ws generalizing i cursor with
  | nil => rfl
  | cons w ws ih =>
    have hw := h w mem_cons_self
    have hoff := offset_toInt (w := w) (by omega)
    rw [readvDescs, brixReadvBuildRanges, ih _ _ fun v hv => h v (mem_cons_of_mem w hv)]
    have hnonneg : ¬ (readvDesc files segMax cursor w).offset < 0 := by
      rw [readvDesc]
      dsimp only
      omega
    have hfits : ¬ (0 < (readvDesc files segMax cursor w).readLength ∧
        ngxMaxOffT - (readvDesc files segMax cursor w).offset <
          (readvDesc files segMax cursor w).readLength) := by
      rw [readvDesc, ngxMaxOffT]
      dsimp only
      omega
    rw [if_neg hnonneg, if_neg hfits]
    rfl

/-- The segments lie next to each other from `off` on. -/
def ReadvContiguous : ℕ → List ReadaheadList → Prop
  | _, [] => True
  | off, w :: ws => w.offset.toNat = off ∧ ReadvContiguous (off + w.readLength segMax) ws

/-- How many segments the run has that `ws` starts with. -/
def readvRunLength (ws : List ReadaheadList) : ℕ :=
  brixRangeVectorNextCoalescedRun (ws.map (readvRange files segMax)) 0 readvPreadvMaxIov

theorem coalesceFrom_spec (maxIov count : ℕ) (w : ReadaheadList) (ws : List ReadaheadList)
    (h : ∀ v ∈ w :: ws, v.offset.toNat + v.readLength segMax < 2 ^ 63) :
    ∃ more, coalesceFrom maxIov (readvRange files segMax w) (ws.map (readvRange files segMax))
        count = count + more ∧
      more ≤ ws.length ∧
      ReadvContiguous segMax (w.offset.toNat + w.readLength segMax) (ws.take more) := by
  induction ws generalizing w count with
  | nil => exact ⟨0, rfl, Nat.le_refl 0, trivial⟩
  | cons v ws ih =>
    rw [map_cons, coalesceFrom]
    by_cases hnext : count < maxIov ∧
        (readvRange files segMax v).start = (readvRange files segMax w).stop + 1 ∧
        (readvRange files segMax v).fd = (readvRange files segMax w).fd
    · obtain ⟨more, hcount, hle, hcontig⟩ :=
        ih (count + 1) v fun u hu => h u (mem_cons_of_mem w hu)
      have hstart := hnext.2.1
      rw [readvRange_start files segMax (h v (mem_cons_of_mem w mem_cons_self)),
        readvRange_stop files segMax (h w mem_cons_self)] at hstart
      have hoff : v.offset.toNat = w.offset.toNat + w.readLength segMax := by omega
      refine ⟨more + 1, ?_, Nat.succ_le_succ hle, hoff, hoff ▸ hcontig⟩
      rw [if_pos hnext, hcount]
      omega
    · rw [if_neg hnext]
      exact ⟨0, rfl, Nat.zero_le _, trivial⟩

theorem readvRunLength_spec (h : ∀ v ∈ w :: ws, v.offset.toNat + v.readLength segMax < 2 ^ 63) :
    ∃ more, readvRunLength files segMax (w :: ws) = more + 1 ∧ more ≤ ws.length ∧
      ReadvContiguous segMax w.offset.toNat ((w :: ws).take (more + 1)) := by
  obtain ⟨more, hcount, hle, hcontig⟩ := coalesceFrom_spec files segMax readvPreadvMaxIov 1 w ws h
  refine ⟨more, ?_, hle, rfl, hcontig⟩
  rw [Nat.add_comm]
  exact hcount

/-- The segment through whose object each of the segments is read. -/
def readvLeaders : ℕ → List ReadaheadList → List ReadaheadList
  | 0, _ => []
  | _, [] => []
  | turns + 1, w :: ws =>
    if w.readLength segMax = 0 then w :: readvLeaders turns ws
    else
      replicate (readvRunLength files segMax (w :: ws)) w ++
        readvLeaders turns ((w :: ws).drop (readvRunLength files segMax (w :: ws)))

/-! ## One run -/

def readvRunBytes (ws : List ReadaheadList) : ℕ :=
  (ws.map (ReadaheadList.readLength segMax)).sum

theorem map_readLength_readvDescs (cursor : ℕ) (ws : List ReadaheadList) :
    ((readvDescs files segMax cursor ws).map ReadvSegDesc.readLength).sum =
      readvRunBytes segMax ws := by
  induction ws generalizing cursor with
  | nil => rfl
  | cons w ws ih =>
    rw [readvDescs, map_cons, sum_cons, ih]
    rfl

theorem readvDescs_take (cursor k : ℕ) (ws : List ReadaheadList) :
    (readvDescs files segMax cursor ws).take k = readvDescs files segMax cursor (ws.take k) := by
  induction ws generalizing cursor k with
  | nil => rw [readvDescs, take_nil, take_nil, readvDescs]
  | cons w ws ih =>
    cases k with
    | zero => rfl
    | succ k => rw [readvDescs, take_succ_cons, take_succ_cons, readvDescs, ih]

theorem readvDescs_drop (cursor k : ℕ) (ws : List ReadaheadList) :
    (readvDescs files segMax cursor ws).drop k =
      readvDescs files segMax (cursor + readvResponseBytes segMax (ws.take k)) (ws.drop k) := by
  induction ws generalizing cursor k with
  | nil => rw [readvDescs, drop_nil, drop_nil, readvDescs]
  | cons w ws ih =>
    cases k with
    | zero => rfl
    | succ k =>
      rw [readvDescs, drop_succ_cons, drop_succ_cons, ih, take_succ_cons,
        readvResponseBytes, readvResponseBytes, map_cons, sum_cons, Nat.add_assoc]

variable {segMax} in
theorem readvRunBytes_le {n : ℕ} (hoff : off ≤ n) (hcontig : ReadvContiguous segMax off ws)
    (h : ∀ w ∈ ws, 0 < w.readLength segMax → w.offset.toNat + w.readLength segMax ≤ n) :
    off + readvRunBytes segMax ws ≤ n := by
  induction ws generalizing off with
  | nil => exact hoff
  | cons w ws ih =>
    obtain ⟨hw, hrest⟩ := hcontig
    have hend : off + w.readLength segMax ≤ n := by
      by_cases hpos : 0 < w.readLength segMax
      · rw [← hw]
        exact h w mem_cons_self hpos
      · omega
    have := ih hend hrest fun v hv => h v (mem_cons_of_mem w hv)
    rw [readvRunBytes, map_cons, sum_cons, ← readvRunBytes]
    omega

theorem memcpy_payload {payload bytes : Bytes} (hlen : payload.length = bytes.length) :
    memcpy (pre ++ (readvHeader segMax w ++ (payload ++ buf))) (pre.length + readvSegSize) bytes =
      pre ++ (readvHeader segMax w ++ (bytes ++ buf)) := by
  have hput := memcpy_splice (a := pre ++ readvHeader segMax w) (c := buf) hlen
  rw [length_append, length_readvHeader] at hput
  simp only [append_assoc] at hput
  exact hput

theorem memcpy_header :
    memcpy (pre ++ (readvHeader segMax w ++ buf)) (pre.length + 4)
      (beBytes 4 (w.readLength segMax)) = pre ++ (readvHeader segMax w ++ buf) := by
  have hput := memcpy_splice (a := pre ++ w.fhandle) (b := beBytes 4 (w.readLength segMax))
    (c := beBytes 8 w.offset.toNat ++ buf) (s := beBytes 4 (w.readLength segMax)) rfl
  rw [length_append, w.fhandle_length] at hput
  simp only [append_assoc] at hput
  simp only [readvHeader, append_assoc]
  exact hput

variable {segMax} in
/-- A run that was read is laid out under its headers. -/
theorem readvScatter_eq (f pre : Bytes) {rest : List ReadaheadList}
    (hlaid : ReadvLaid segMax (ws ++ rest) buf)
    (hcontig : ReadvContiguous segMax off ws) (hend : off + readvRunBytes segMax ws ≤ f.length) :
    ∃ buf', readvScatter (readvDescs files segMax pre.length ws)
          (File.pread f off (readvRunBytes segMax ws)) (pre ++ buf) =
        pre ++ ((ws.flatMap fun w => readvHeader segMax w ++
          File.pread f w.offset.toNat (w.readLength segMax)) ++ buf') ∧
      ReadvLaid segMax rest buf' := by
  induction ws generalizing off pre buf with
  | nil => exact ⟨buf, rfl, hlaid⟩
  | cons w ws ih =>
    obtain ⟨hw, hcontig⟩ := hcontig
    rw [readvRunBytes, map_cons, sum_cons, ← readvRunBytes] at hend
    cases hlaid with
    | @cons _ _ payload buf hlen hlaid =>
    have hbytes : File.pread f off (readvRunBytes segMax (w :: ws)) =
        File.pread f off (w.readLength segMax) ++
          File.pread f (off + w.readLength segMax) (readvRunBytes segMax ws) := by
      rw [readvRunBytes, map_cons, sum_cons, ← readvRunBytes, File.pread, File.pread,
        File.pread, take_add, drop_drop]
    have hfirst : (File.pread f off (w.readLength segMax)).length = w.readLength segMax := by
      rw [File.length_pread]
      omega
    have hcursor :
        (pre ++ (readvHeader segMax w ++ File.pread f off (w.readLength segMax))).length =
          pre.length + (readvSegSize + w.readLength segMax) := by
      rw [length_append, length_append, length_readvHeader, hfirst]
    obtain ⟨buf', hrest, hlaid'⟩ :=
      ih (pre ++ (readvHeader segMax w ++ File.pread f off (w.readLength segMax))) hlaid hcontig
        (by omega)
    refine ⟨buf', ?_, hlaid'⟩
    rw [hcursor] at hrest
    rw [hbytes, readvDescs, readvScatter]
    simp only [readvDesc]
    rw [take_left' hfirst, drop_left' hfirst,
      memcpy_payload segMax (hlen.trans hfirst.symm), flatMap_cons, hw]
    simp only [append_assoc] at hrest ⊢
    exact hrest

variable {segMax} in
theorem length_runFrames (f : Bytes)
    (hcontig : ReadvContiguous segMax off ws) (hend : off + readvRunBytes segMax ws ≤ f.length) :
    (ws.flatMap fun w => readvHeader segMax w ++
      File.pread f w.offset.toNat (w.readLength segMax)).length = readvResponseBytes segMax ws := by
  induction ws generalizing off with
  | nil => rfl
  | cons w ws ih =>
    obtain ⟨hw, hcontig⟩ := hcontig
    rw [readvRunBytes, map_cons, sum_cons, ← readvRunBytes] at hend
    have hlen := File.length_pread f w.offset.toNat (w.readLength segMax)
    rw [flatMap_cons, length_append, length_append, length_readvHeader,
      ih hcontig (by omega), readvResponseBytes, readvResponseBytes, map_cons, sum_cons]
    omega

variable {files segMax} in
/-- One coalesced read -/
theorem brixReadvReadOneRun_eq (content : SdObj O → Bytes) {wire : List ReadaheadList}
    {i k : ℕ} (hws : wire.drop i = w :: ws)
    (hk : readvRunLength files segMax (w :: ws) = k)
    (hdescs : (readvDescs files segMax 0 wire).drop i =
      readvDescs files segMax pre.length (w :: ws))
    (hlaid : ReadvLaid segMax (w :: ws) buf)
    (hfits : w.offset.toNat < 2 ^ 63)
    (hcontig : ReadvContiguous segMax w.offset.toNat ((w :: ws).take k))
    (hend : w.offset.toNat + readvRunBytes segMax ((w :: ws).take k) ≤
      (content (ownObj files w)).length) :
    ∃ buf', brixReadvReadOneRun (contentPreadv content) (readvDescs files segMax 0 wire)
          (wire.map (readvRange files segMax)) i (readvDesc files segMax pre.length w)
          (pre ++ buf) =
        .ok (k, readvRunBytes segMax ((w :: ws).take k),
          pre ++ (((w :: ws).take k).flatMap (fun v => readvHeader segMax v ++
            File.pread (content (ownObj files w)) v.offset.toNat (v.readLength segMax)) ++ buf')) ∧
      ReadvLaid segMax ((w :: ws).drop k) buf' := by
  have hcount : brixRangeVectorNextCoalescedRun (wire.map (readvRange files segMax)) i
      readvPreadvMaxIov = k := by
    rw [← hk, readvRunLength, ← hws, map_drop]
    rfl
  have hheader : memcpy (pre ++ buf) (readvDesc files segMax pre.length w).headerReadLengthPtr
      (beBytes 4 (readvDesc files segMax pre.length w).readLength) = pre ++ buf := by
    cases hlaid with
    | cons hlen hlaid => exact memcpy_header segMax
  have hread : (File.pread (content (ownObj files w)) w.offset.toNat
      (readvRunBytes segMax ((w :: ws).take k))).length =
        readvRunBytes segMax ((w :: ws).take k) := by
    rw [File.length_pread]
    omega
  rw [← take_append_drop k (w :: ws)] at hlaid
  obtain ⟨buf', hscatter, hlaid'⟩ := readvScatter_eq files (content (ownObj files w)) pre
    hlaid hcontig hend
  refine ⟨buf', ?_, hlaid'⟩
  rw [brixReadvReadOneRun]
  simp only [hheader, hcount, hdescs, readvDescs_take, map_readLength_readvDescs]
  have hoff : (readvDesc files segMax pre.length w).offset.toNat = w.offset.toNat := by
    rw [readvDesc, offset_toInt hfits]
    rfl
  have hobj : brixVfsEffectiveObj (readvDesc files segMax pre.length w).obj
      (readvDesc files segMax pre.length w).fd = ownObj files w := rfl
  simp only [contentPreadv, hobj, hoff, hread, hscatter]
  simp

/-! ## The loop -/

theorem zip_replicate_append {α β : Type} {l : List α} {k : ℕ} (x : β) (r : List β)
    (h : k ≤ l.length) :
    l.zip (replicate k x ++ r) = (l.take k).map (fun a => (a, x)) ++ (l.drop k).zip r := by
  induction k generalizing l with
  | zero => rfl
  | succ k ih =>
    cases l with
    | nil => cases h
    | cons a l =>
      rw [replicate_succ, cons_append, zip_cons_cons, ih (Nat.le_of_succ_le_succ h),
        take_succ_cons, map_cons, drop_succ_cons, cons_append]

/-- A segment and the one through whose object it is read. -/
abbrev ReadThrough : Type := ReadaheadList × ReadaheadList

/-- What the response gets for a segment. -/
def readThroughFrame (content : SdObj O → Bytes) (p : ReadThrough) : Bytes :=
  readvFrame segMax content (ownObj files p.2) p.1

theorem length_readvLeaders {turns : ℕ} (hturns : ws.length ≤ turns)
    (h : ∀ w ∈ ws, w.offset.toNat + w.readLength segMax < 2 ^ 63) :
    (readvLeaders files segMax turns ws).length = ws.length := by
  induction turns generalizing ws with
  | zero =>
    rw [length_eq_zero_iff.mp (Nat.le_zero.mp hturns)]
    rfl
  | succ turns ih =>
    cases ws with
    | nil => rfl
    | cons w ws =>
      rw [readvLeaders]
      rw [length_cons] at hturns
      by_cases hz : w.readLength segMax = 0
      · rw [if_pos hz, length_cons, length_cons,
          ih (by omega) fun v hv => h v (mem_cons_of_mem w hv)]
      · obtain ⟨more, hmore, hle, -⟩ := readvRunLength_spec files segMax h
        rw [if_neg hz, hmore, length_append, length_replicate, drop_succ_cons,
          ih (by rw [length_drop]; omega) fun v hv =>
            h v (mem_cons_of_mem w (mem_of_mem_drop hv)),
          length_drop, length_cons]
        omega

/-- The loop over the runs -/
theorem readvLoop_eq (content : SdObj O → Bytes) (wire : List ReadaheadList) {turns : ℕ}
    (i total : ℕ) (pre : Bytes)
    (hws : wire.drop i = ws) (hturns : ws.length ≤ turns)
    (hfits : ∀ w ∈ ws, w.offset.toNat + w.readLength segMax < 2 ^ 63)
    (hdescs : (readvDescs files segMax 0 wire).drop i = readvDescs files segMax pre.length ws)
    (hlaid : ReadvLaid segMax ws buf)
    (hin : ∀ p ∈ ws.zip (readvLeaders files segMax turns ws), 0 < p.1.readLength segMax →
      p.1.offset.toNat + p.1.readLength segMax ≤ (content (ownObj files p.2)).length) :
    readvLoop (contentPreadv content) (readvDescs files segMax 0 wire)
        (wire.map (readvRange files segMax)) turns i total (pre ++ buf) =
      .ok (total + readvRunBytes segMax ws,
        pre ++ (ws.zip (readvLeaders files segMax turns ws)).flatMap
          (readThroughFrame files segMax content)) := by
  induction turns generalizing i total ws pre buf with
  | zero =>
    obtain rfl := length_eq_zero_iff.mp (Nat.le_zero.mp hturns)
    cases hlaid
    rfl
  | succ turns ih =>
    have hget : (readvDescs files segMax 0 wire)[i]? =
        (readvDescs files segMax pre.length ws)[0]? := by
      rw [← hdescs, getElem?_drop, Nat.add_zero]
    rw [readvLoop, hget]
    cases hlaid with
    | nil => rfl
    | @cons w ws payload buf hlen hlaid =>
    simp only [readvDescs, getElem?_cons_zero]
    rw [length_cons] at hturns
    by_cases hz : w.readLength segMax = 0
    · -- an empty segment is passed over
      have hnil : payload = [] := length_eq_zero_iff.mp (hlen.trans hz)
      have hcursor : (pre ++ readvHeader segMax w).length = pre.length + (readvSegSize + 0) := by
        rw [length_append, length_readvHeader, Nat.add_zero]
      have hnext : (readvDescs files segMax 0 wire).drop (i + 1) =
          readvDescs files segMax (pre ++ readvHeader segMax w).length ws := by
        rw [← drop_drop, hdescs, readvDescs, drop_succ_cons, drop_zero, hcursor, hz]
      rw [readvLeaders, if_pos hz, zip_cons_cons] at hin ⊢
      have hrest := ih (i + 1) total (pre ++ readvHeader segMax w)
        (by rw [← drop_drop, hws, drop_succ_cons, drop_zero]) (by omega)
        (fun v hv => hfits v (mem_cons_of_mem w hv)) hnext hlaid
        fun p hp => hin p (mem_cons_of_mem _ hp)
      have hframe : readThroughFrame files segMax content (w, w) = readvHeader segMax w := by
        rw [readThroughFrame, readvFrame, hz, File.pread, take_zero, append_nil]
      have hheader : memcpy (pre ++ (readvHeader segMax w ++ (payload ++ buf)))
          (readvDesc files segMax pre.length w).headerReadLengthPtr
          (beBytes 4 (readvDesc files segMax pre.length w).readLength) =
            pre ++ readvHeader segMax w ++ buf := by
        rw [hnil, nil_append, append_assoc]
        exact memcpy_header segMax
      have hz' : (readvDesc files segMax pre.length w).readLength = 0 := hz
      rw [if_pos hz', hheader, hrest, flatMap_cons, hframe, readvRunBytes, readvRunBytes,
        map_cons, sum_cons, hz, Nat.zero_add, append_assoc]
    · obtain ⟨more, hmore, hle, hcontig⟩ := readvRunLength_spec files segMax hfits
      have hz' : ¬ (readvDesc files segMax pre.length w).readLength = 0 := hz
      have hrunlen : ((w :: ws).take (more + 1)).length = more + 1 :=
        length_take_of_le (by rw [length_cons]; omega)
      -- the run and the segments behind it, each with its leader
      have hzip : (w :: ws).zip (readvLeaders files segMax (turns + 1) (w :: ws)) =
          ((w :: ws).take (more + 1)).map (fun v => (v, w)) ++
            ((w :: ws).drop (more + 1)).zip
              (readvLeaders files segMax turns ((w :: ws).drop (more + 1))) := by
        rw [readvLeaders, if_neg hz, hmore]
        exact zip_replicate_append w _ (by rw [length_cons]; omega)
      rw [hzip] at hin ⊢
      have hend : w.offset.toNat + readvRunBytes segMax ((w :: ws).take (more + 1)) ≤
          (content (ownObj files w)).length := by
        have hw := hin (w, w) (mem_append_left _
          (mem_map.mpr ⟨w, by rw [take_succ_cons]; exact mem_cons_self, rfl⟩))
          (Nat.pos_of_ne_zero hz)
        refine readvRunBytes_le (Nat.le_of_add_right_le hw) hcontig ?_
        intro v hv hpos
        exact hin (v, w) (mem_append_left _ (mem_map.mpr ⟨v, hv, rfl⟩)) hpos
      have hw := hfits w mem_cons_self
      obtain ⟨buf', hrun, hlaid'⟩ := brixReadvReadOneRun_eq content hws hmore hdescs
        (.cons hlen hlaid) (by omega) hcontig hend
      -- what the run leaves is the start of the rest
      have hcursor := length_runFrames _ hcontig hend
      have hnext : (readvDescs files segMax 0 wire).drop (i + (more + 1)) =
          readvDescs files segMax (pre ++ ((w :: ws).take (more + 1)).flatMap fun v =>
            readvHeader segMax v ++ File.pread (content (ownObj files w)) v.offset.toNat
              (v.readLength segMax)).length ((w :: ws).drop (more + 1)) := by
        rw [← drop_drop, hdescs, readvDescs_drop, length_append, hcursor]
      have hrest := ih (i + (more + 1))
        (total + readvRunBytes segMax ((w :: ws).take (more + 1)))
        (pre ++ ((w :: ws).take (more + 1)).flatMap fun v => readvHeader segMax v ++
          File.pread (content (ownObj files w)) v.offset.toNat (v.readLength segMax))
        (by rw [← drop_drop, hws])
        (by rw [length_drop, length_cons]; omega)
        (fun v hv => hfits v (mem_of_mem_drop hv)) hnext hlaid'
        fun p hp => hin p (mem_append_right _ hp)
      have hsum : readvRunBytes segMax (w :: ws) =
          readvRunBytes segMax ((w :: ws).take (more + 1)) +
            readvRunBytes segMax ((w :: ws).drop (more + 1)) := by
        rw [readvRunBytes, readvRunBytes, readvRunBytes, ← sum_append, ← map_append,
          take_append_drop]
      rw [if_neg hz', hrun]
      dsimp only
      rw [← append_assoc, hrest, hsum, flatMap_append, flatMap_map]
      simp only [Nat.add_assoc, append_assoc]
      rfl

/-! ## The response -/

variable {files segMax} {wire : List ReadaheadList}

theorem length_readvDescs (cursor : ℕ) (ws : List ReadaheadList) :
    (readvDescs files segMax cursor ws).length = ws.length := by
  induction ws generalizing cursor with
  | nil => rfl
  | cons w ws ih => rw [readvDescs, length_cons, length_cons, ih]

theorem brixReadvReadSegments_eq (content : SdObj O → Bytes) (hadm : ReadvAdmitted segMax wire)
    (hin : ∀ p ∈ wire.zip (readvLeaders files segMax wire.length wire),
      0 < p.1.readLength segMax →
        p.1.offset.toNat + p.1.readLength segMax ≤ (content (ownObj files p.2)).length)
    (hlen : buf.length = readvResponseBytes segMax wire) :
    brixReadvReadSegments (contentPreadv content)
        (brixReadvBuildDescriptors files segMax 0 wire buf).1
        (brixReadvBuildDescriptors files segMax 0 wire buf).2 =
      .ok (readvRunBytes segMax wire,
        (wire.zip (readvLeaders files segMax wire.length wire)).flatMap
          (readThroughFrame files segMax content)) := by
  obtain ⟨hdescs, laid, hbuf, hlaid⟩ := brixReadvBuildDescriptors_eq files segMax wire [] buf hlen
  simp only [nil_append, length_nil] at hdescs hbuf
  rw [hdescs, hbuf, brixReadvReadSegments, length_readvDescs]
  have hcount : ¬ (wire.length = 0 ∨ readvMaxSegs < wire.length) := by
    rintro (h | h)
    · exact hadm.nonempty (length_eq_zero_iff.mp h)
    · exact Nat.not_lt_of_le hadm.count h
  rw [if_neg hcount, brixReadvBuildRanges_eq files segMax 0 0 hadm.fits]
  have hloop := readvLoop_eq files segMax content wire 0 0 [] rfl (Nat.le_refl _) hadm.fits rfl
    hlaid hin
  simp only [nil_append, Nat.zero_add] at hloop
  exact hloop

/-- Every segment that has bytes is read through the object of its own handle: no run joins
such segments of two objects. -/
def ReadThroughOwn (files : ℕ → OpenHandle O) (segMax : ℕ) (wire : List ReadaheadList) : Prop :=
  ∀ p ∈ wire.zip (readvLeaders files segMax wire.length wire), 0 < p.1.readLength segMax →
    ownObj files p.1 = ownObj files p.2

theorem readThroughFrame_own (content : SdObj O → Bytes) {p : ReadThrough}
    (h : 0 < p.1.readLength segMax → ownObj files p.1 = ownObj files p.2) :
    readThroughFrame files segMax content p =
      readvFrame segMax content (ownObj files p.1) p.1 := by
  rw [readThroughFrame]
  by_cases hpos : 0 < p.1.readLength segMax
  · rw [h hpos]
  · rw [readvFrame, readvFrame, Nat.eq_zero_of_not_pos hpos, File.pread, File.pread,
      take_zero, take_zero]

theorem zip_flatMap_fst {ls : List ReadaheadList} (hlen : ls.length = wire.length)
    (g : ReadaheadList → Bytes) :
    (wire.zip ls).flatMap (fun p => g p.1) = wire.flatMap g := by
  have hfst : (wire.zip ls).map Prod.fst = wire := map_fst_zip (Nat.le_of_eq hlen.symm)
  calc (wire.zip ls).flatMap (fun p => g p.1) = ((wire.zip ls).map Prod.fst).flatMap g := by
        rw [flatMap_map]
    _ = wire.flatMap g := by rw [hfst]

theorem eq_of_flatMap_eq {α : Type} {f g : α → Bytes} {l : List α}
    (hlen : ∀ a ∈ l, (f a).length = (g a).length) (h : l.flatMap f = l.flatMap g) :
    ∀ a ∈ l, f a = g a := by
  induction l with
  | nil => intro a ha; cases ha
  | cons b l ih =>
    rw [flatMap_cons, flatMap_cons] at h
    obtain ⟨hb, hrest⟩ := append_inj h (hlen b mem_cons_self)
    intro a ha
    rcases mem_cons.mp ha with rfl | ha
    · exact hb
    · exact ih (fun c hc => hlen c (mem_cons_of_mem b hc)) hrest a ha

/-- **A vector read returns each segment's own file**, whatever the files hold, exactly when no
run joins segments of two files. -/
theorem brixReadvReadSegments_own_iff (hadm : ReadvAdmitted segMax wire) :
    (∀ content, ReadvInside files segMax content wire →
      ReadvServesOwn files segMax content wire) ↔ ReadThroughOwn files segMax wire := by
  have hleaders := length_readvLeaders files segMax (Nat.le_refl wire.length) hadm.fits
  constructor
  · intro hserves p hp hpos
    by_contra hne
    classical
    -- the leader's file is zeros, every other one ones
    let content : SdObj O → Bytes := fun obj =>
      replicate (2 ^ 63 - 1) (if obj = ownObj files p.2 then 0 else 1)
    have hlen : ∀ obj, (content obj).length = 2 ^ 63 - 1 := fun obj => length_replicate
    have hfits : ∀ w ∈ wire, w.offset.toNat + w.readLength segMax ≤ 2 ^ 63 - 1 := by
      intro w hw
      have := hadm.fits w hw
      omega
    have hinside : ReadvInside files segMax content wire :=
      ⟨fun obj => by rw [hlen]; decide, fun w hw => by rw [hlen]; exact hfits w hw⟩
    have hall : ∀ q ∈ wire.zip (readvLeaders files segMax wire.length wire),
        0 < q.1.readLength segMax →
          q.1.offset.toNat + q.1.readLength segMax ≤ (content (ownObj files q.2)).length := by
      intro q hq _
      rw [hlen]
      exact hfits q.1 (of_mem_zip hq).1
    have hbuf : (replicate (readvResponseBytes segMax wire) (0 : UInt8)).length =
        readvResponseBytes segMax wire := length_replicate
    have hright := hserves content hinside _ hbuf
    rw [brixReadvReadSegments_eq content hadm hall hbuf] at hright
    have hframes := (Prod.mk.inj (Except.ok.inj hright)).2
    rw [← zip_flatMap_fst hleaders fun w => readvFrame segMax content (ownObj files w) w] at hframes
    have hframe := eq_of_flatMap_eq (fun q _ => by
      rw [readThroughFrame, readvFrame, readvFrame, length_append, length_append,
        File.length_pread, File.length_pread, hlen, hlen]) hframes p hp
    have hbytes := append_cancel_left hframe
    -- the first byte of the segment
    have hfirst := congrArg (fun bytes => bytes[0]?) hbytes
    have hin := hfits p.1 (of_mem_zip hp).1
    simp only [File.getElem?_pread, if_pos hpos, content, if_true, if_neg hne, Nat.add_zero,
      getElem?_replicate] at hfirst
    rw [if_pos (by omega), if_pos (by omega)] at hfirst
    cases hfirst
  · intro hown content hinside buf hbuf
    have hin : ∀ p ∈ wire.zip (readvLeaders files segMax wire.length wire),
        0 < p.1.readLength segMax →
          p.1.offset.toNat + p.1.readLength segMax ≤ (content (ownObj files p.2)).length := by
      intro p hp hpos
      rw [← hown p hp hpos]
      exact hinside.inside p.1 (of_mem_zip hp).1
    rw [brixReadvReadSegments_eq content hadm hin hbuf]
    have hframes : (wire.zip (readvLeaders files segMax wire.length wire)).flatMap
          (readThroughFrame files segMax content) =
        (wire.zip (readvLeaders files segMax wire.length wire)).flatMap
          (fun p => readvFrame segMax content (ownObj files p.1) p.1) :=
      flatMap_congr fun p hp => readThroughFrame_own content (hown p hp)
    rw [hframes, zip_flatMap_fst hleaders fun w => readvFrame segMax content (ownObj files w) w]
    rfl

/-- Two plain handles of one file each, read side by side. -/
theorem brixReadvReadSegments_own_iff_sample :
    ReadvServesOwn (fun i => (⟨i, none⟩ : OpenHandle ℕ)) 8
      (fun obj => if obj = .posix 1 then [20, 21, 22, 23] else [10, 11, 12, 13])
      [⟨[0, 0, 0, 0], 2, 0, rfl⟩, ⟨[1, 0, 0, 0], 2, 2, rfl⟩] := by
  have hown : ReadThroughOwn (fun i => (⟨i, none⟩ : OpenHandle ℕ)) 8
      [⟨[0, 0, 0, 0], 2, 0, rfl⟩, ⟨[1, 0, 0, 0], 2, 2, rfl⟩] := by
    unfold ReadThroughOwn
    decide
  exact (brixReadvReadSegments_own_iff ⟨by simp, by decide, by decide⟩).mpr hown _
    ⟨fun obj => by split <;> decide, by decide⟩

/-- Two driver-backed handles without a descriptor: the second segment gets the first one's
bytes. -/
theorem invalid_fds_coalesce :
    ¬ ∀ (files : ℕ → OpenHandle ℕ) (segMax : ℕ) (content : SdObj ℕ → Bytes)
      (wire : List ReadaheadList), ReadvAdmitted segMax wire →
        ReadvInside files segMax content wire → ReadvServesOwn files segMax content wire := by
  intro h
  have hserves := h (fun i => ⟨-1, some i⟩) 8
    (fun obj => if obj = .driver 1 then [20, 21, 22, 23] else [10, 11, 12, 13])
    [⟨[0, 0, 0, 0], 2, 0, rfl⟩, ⟨[1, 0, 0, 0], 2, 2, rfl⟩]
    ⟨by simp, by decide, by decide⟩
    ⟨fun obj => by split <;> decide, by decide⟩
    (replicate 36 0) rfl
  have hbytes := congrArg Except.toOption hserves
  revert hbytes
  decide

end BrixCache

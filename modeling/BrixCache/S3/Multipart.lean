import BrixCache.Auth.Issue
import BrixCache.Lib.Inodes
import BrixCache.Lib.Posix
import BrixCache.Lib.Delimited

/-!
# Completing multipart uploads

`protocols/s3/multipart_complete_body.c` joins the parts of an upload in a temporary file beside
the object and renames it onto the object. Uploads to one key have a staging directory each, and
one temporary file between them. Assemblies run on pool threads, in any number of workers.
-/

namespace BrixCache

open Function

/-! ## Names -/

/-- `PATH_MAX` -/
def mpuPathMax : ℕ := 4096

def mpuMaxPartNumber : ℕ := 10000

/-- A path printed into a buffer of `PATH_MAX` bytes -/
def mpuPrint (text : Bytes) : Bytes := text.take (mpuPathMax - 1)

/-- `fs_path` after its last slash -/
def mpuBase (fsPath : Bytes) : Bytes := (fsPath.reverse.takeWhile (· != 47)).reverse

/-- `fs_path` to its last slash -/
def mpuParent (fsPath : Bytes) : Bytes := (fsPath.reverse.dropWhile (· != 47)).reverse

/-- Lower-case hex digits only. -/
def mpuValidateUploadId (id : Bytes) : Bool :=
  !id.isEmpty && id.all fun b => (48 ≤ b && b ≤ 57) || (97 ≤ b && b ≤ 102)

/-- An `uploadId` the handlers accept: it fits `char upload_id[25]` and is hexadecimal. -/
abbrev UploadId : Type := { id : Bytes // mpuValidateUploadId id = true ∧ id.length < 25 }

def s3GetMpuDir (fsPath : Bytes) (id : UploadId) : Bytes :=
  mpuPrint (mpuParent fsPath ++ 46 :: mpuBase fsPath ++ [46, 109, 112, 117, 45] ++ id.1)

/-- `mpu_dir/part.N` -/
def mpuPartPath (fsPath : Bytes) (id : UploadId) (partNum : ℕ) : Bytes :=
  mpuPrint (s3GetMpuDir fsPath id ++ [47, 112, 97, 114, 116, 46] ++ digits partNum)

/-- `final_tmp`: `fs_path.mputmp` -/
def mpuFinalTmp (fsPath : Bytes) : Bytes :=
  mpuPrint (fsPath ++ [46, 109, 112, 117, 116, 109, 112])

/-! ## States -/

/-- `s3_mpu_assemble` in its loop. The flags are history: whether a part has changed after it was
copied, and whether one that was still to be copied has changed after that. -/
structure MpuAssembly : Type where
  finalFd : ℕ
  partNum : ℕ
  dstOff : ℕ
  behind : Bool
  torn : Bool
  deriving DecidableEq

/-- The assembly of an upload -/
inductive MpuRun : Type where
  | idle
  | assembling (a : MpuAssembly)
  /-- renamed onto the object -/
  | committed (torn : Bool)
  /-- returned `NGX_OK` -/
  | ok (torn : Bool)
  | failed
  deriving DecidableEq

/-- `s3_handle_upload_part_copy` between its open and its close -/
structure PartCopy : Type where
  id : UploadId
  partNum : ℕ
  dstFd : ℕ
  dstOff : ℕ
  deriving DecidableEq

/-- The files, the assemblies, and the part copies in progress -/
structure MpuState : Type where
  files : Inodes Bytes UInt8
  runs : UploadId → MpuRun
  copies : ℕ → Option PartCopy

/-- The steps of the parties at one upload directory -/
inductive MpuAct : Type where
  | openTmp (id : UploadId)
  /-- one round of the loop over the parts -/
  | copyPart (id : UploadId)
  /-- an error: the temporary is unlinked -/
  | fail (id : UploadId)
  | rename (id : UploadId)
  /-- `mpu_rmdir_recursive` unlinks a name -/
  | remove (id : UploadId) (name : Bytes)
  | finish (id : UploadId)
  | uploadPart (id : UploadId) (partNum : ℕ) (bytes : Bytes)
  /-- `UploadPartCopy` opens the part itself, truncating, and writes it in place -/
  | copyOpen (call : ℕ) (id : UploadId) (partNum : ℕ)
  | copyWrite (call : ℕ) (bytes : Bytes)
  | copyClose (call : ℕ)
  | copyFail (call : ℕ)

/-! ## Steps -/

section

variable (fsPath : Bytes)

def MpuState.part (s : MpuState) (id : UploadId) (partNum : ℕ) : Option Bytes :=
  s.files.read (mpuPartPath fsPath id partNum)

def MpuState.object (s : MpuState) : Option Bytes := s.files.read fsPath

/-- A part of the upload changes. -/
def MpuRun.touched (partNum : ℕ) : MpuRun → MpuRun
  | .assembling a =>
    if partNum < a.partNum then .assembling { a with behind := true }
    else .assembling { a with torn := a.torn || a.behind }
  | r => r

def MpuState.touch (s : MpuState) (id : UploadId) (partNum : ℕ) : UploadId → MpuRun :=
  update s.runs id ((s.runs id).touched partNum)

/-- A round of the loop: a part that is not there is skipped. -/
def MpuState.copyPart (s : MpuState) (id : UploadId) (a : MpuAssembly) : MpuState :=
  match s.part fsPath id a.partNum with
  | none =>
    { s with runs := update s.runs id (.assembling { a with partNum := a.partNum + 1 }) }
  | some bytes =>
    { s with
      files := s.files.write a.finalFd
        (File.pwrite 0 (s.files.data a.finalFd) a.dstOff bytes)
      runs := update s.runs id
        (.assembling
          { a with partNum := a.partNum + 1, dstOff := a.dstOff + bytes.length }) }

def mpuStep (s : MpuState) : MpuAct → Option MpuState
  | .openTmp id =>
    if s.runs id = .idle then
      let (fd, files) := s.files.openTrunc (mpuFinalTmp fsPath)
      some
        { s with
          files := files
          runs := update s.runs id (.assembling ⟨fd, 1, 0, false, false⟩) }
    else none
  | .copyPart id =>
    match s.runs id with
    | .assembling a => if a.partNum ≤ mpuMaxPartNumber then some (s.copyPart fsPath id a) else none
    | _ => none
  | .fail id =>
    match s.runs id with
    | .assembling _ =>
      some
        { s with
          files := s.files.unlink (mpuFinalTmp fsPath)
          runs := update s.runs id .failed }
    | _ => none
  | .rename id =>
    match s.runs id with
    | .assembling a =>
      if mpuMaxPartNumber < a.partNum ∧ s.files.path (mpuFinalTmp fsPath) ≠ none then
        some
          { s with
            files := s.files.rename (mpuFinalTmp fsPath) fsPath
            runs := update s.runs id (.committed a.torn) }
      else none
    | _ => none
  | .remove id name =>
    match s.runs id with
    | .committed _ =>
      if s3GetMpuDir fsPath id ++ [47] <+: name then
        some { s with files := s.files.unlink name }
      else none
    | _ => none
  | .finish id =>
    match s.runs id with
    | .committed torn => some { s with runs := update s.runs id (.ok torn) }
    | _ => none
  | .uploadPart id partNum bytes =>
    if 1 ≤ partNum ∧ partNum ≤ mpuMaxPartNumber then
      some
        { s with
          files := s.files.put (mpuPartPath fsPath id partNum) bytes
          runs := s.touch id partNum }
    else none
  | .copyOpen call id partNum =>
    if (1 ≤ partNum ∧ partNum ≤ mpuMaxPartNumber) ∧ s.copies call = none then
      let (fd, files) := s.files.openTrunc (mpuPartPath fsPath id partNum)
      some
        { files := files
          runs := s.touch id partNum
          copies := update s.copies call (some ⟨id, partNum, fd, 0⟩) }
    else none
  | .copyWrite call bytes =>
    match s.copies call with
    | some c =>
      some
        { files := s.files.write c.dstFd (File.pwrite 0 (s.files.data c.dstFd) c.dstOff bytes)
          runs := s.touch c.id c.partNum
          copies := update s.copies call
            (some { c with dstOff := c.dstOff + bytes.length }) }
    | none => none
  | .copyClose call => some { s with copies := update s.copies call none }
  | .copyFail call =>
    match s.copies call with
    | some c =>
      some
        { files := s.files.unlink (mpuPartPath fsPath c.id c.partNum)
          runs := s.touch c.id c.partNum
          copies := update s.copies call none }
    | none => none

end

end BrixCache

/-! ## Names of multipart uploads -/

namespace BrixCache

open List

/-- The longest name derived from the object's path fits its buffer. -/
def MpuFits (fsPath : Bytes) : Prop := fsPath.length + 41 < mpuPathMax

instance (fsPath : Bytes) : Decidable (MpuFits fsPath) := inferInstanceAs (Decidable (_ < _))

/-! ### Digits -/

theorem digits_length_le (k : ℕ) {n : ℕ} (h : n < 10 ^ (k + 1)) : (digits n).length ≤ k + 1 := by
  induction k generalizing n with
  | zero => simp [digits_small (by simpa using h)]
  | succ k ih =>
    by_cases hsmall : n < 10
    · simp [digits_small hsmall]
    · rw [digits_more (Nat.le_of_not_lt hsmall), length_append]
      have hrec := ih (n := n / 10) (by rw [Nat.pow_succ] at h; omega)
      simpa using hrec

/-! ### Paths -/

theorem mpuParent_append_mpuBase (fsPath : Bytes) :
    mpuParent fsPath ++ mpuBase fsPath = fsPath := by
  rw [mpuParent, mpuBase, ← reverse_append, takeWhile_append_dropWhile,
    reverse_reverse]

theorem slash_not_mem_mpuBase (fsPath : Bytes) : 47 ∉ mpuBase fsPath := by
  intro h
  have hall := all_eq_true.mp all_takeWhile 47 (mem_reverse.mp h)
  simp at hall

theorem slash_not_mem_uploadId (id : UploadId) : 47 ∉ id.1 := by
  intro h
  have hvalid := id.2.1
  simp only [mpuValidateUploadId, Bool.and_eq_true, all_eq_true] at hvalid
  exact absurd (hvalid.2 47 h) (by decide)

theorem mpuParent_length (fsPath : Bytes) :
    (mpuParent fsPath).length + (mpuBase fsPath).length = fsPath.length := by
  rw [← length_append, mpuParent_append_mpuBase]

section

variable {fsPath : Bytes} (hfit : MpuFits fsPath)

include hfit

theorem s3GetMpuDir_eq (id : UploadId) :
    s3GetMpuDir fsPath id =
      mpuParent fsPath ++ (46 :: mpuBase fsPath ++ [46, 109, 112, 117, 45] ++ id.1) := by
  have hlen := mpuParent_length fsPath
  have hid := id.2.2
  unfold MpuFits at hfit
  rw [s3GetMpuDir, mpuPrint, take_of_length_le]
  · simp
  · simp only [length_append, length_cons, length_nil]
    omega

theorem mpuPartPath_eq (id : UploadId) {n : ℕ} (hn : n ≤ mpuMaxPartNumber) :
    mpuPartPath fsPath id n =
      mpuParent fsPath ++ (46 :: mpuBase fsPath ++ [46, 109, 112, 117, 45] ++ id.1 ++
        47 :: ([112, 97, 114, 116, 46] ++ digits n)) := by
  have hlen := mpuParent_length fsPath
  have hid := id.2.2
  have hdigits := digits_length_le 4 (Nat.lt_of_le_of_lt hn (by decide))
  rw [mpuPartPath, s3GetMpuDir_eq hfit, mpuPrint, take_of_length_le]
  · simp
  · unfold MpuFits at hfit
    simp only [length_append, length_cons, length_nil]
    omega

theorem mpuFinalTmp_eq :
    mpuFinalTmp fsPath =
      mpuParent fsPath ++ (mpuBase fsPath ++ [46, 109, 112, 117, 116, 109, 112]) := by
  unfold MpuFits at hfit
  rw [mpuFinalTmp, mpuPrint, take_of_length_le, ← append_assoc,
    mpuParent_append_mpuBase]
  simp only [length_append, length_cons, length_nil]
  omega

theorem mpuFinalTmp_ne : mpuFinalTmp fsPath ≠ fsPath := by
  intro h
  have hlen := congrArg length h
  rw [mpuFinalTmp_eq hfit, ← append_assoc, mpuParent_append_mpuBase] at hlen
  simp at hlen

theorem mpuDir_prefix_false (id : UploadId) {base : Bytes} (hbase : 47 ∉ base) :
    ¬ s3GetMpuDir fsPath id ++ [47] <+: mpuParent fsPath ++ base := by
  rintro ⟨rest, h⟩
  rw [s3GetMpuDir_eq hfit] at h
  simp only [append_assoc, append_cancel_left_eq] at h
  apply hbase
  rw [← h]
  simp

theorem mpuDir_not_prefix_object (id : UploadId) : ¬ s3GetMpuDir fsPath id ++ [47] <+: fsPath := by
  have hnot := mpuDir_prefix_false hfit id (slash_not_mem_mpuBase fsPath)
  rwa [mpuParent_append_mpuBase] at hnot

theorem mpuDir_not_prefix_tmp (id : UploadId) :
    ¬ s3GetMpuDir fsPath id ++ [47] <+: mpuFinalTmp fsPath := by
  rw [mpuFinalTmp_eq hfit]
  apply mpuDir_prefix_false hfit id
  simp [slash_not_mem_mpuBase]

theorem mpuDir_prefix_part (id : UploadId) {n : ℕ} (hn : n ≤ mpuMaxPartNumber) :
    s3GetMpuDir fsPath id ++ [47] <+: mpuPartPath fsPath id n := by
  rw [s3GetMpuDir_eq hfit, mpuPartPath_eq hfit id hn]
  exact ⟨[112, 97, 114, 116, 46] ++ digits n, by simp⟩

theorem mpuPartPath_ne_object (id : UploadId) {n : ℕ} (hn : n ≤ mpuMaxPartNumber) :
    mpuPartPath fsPath id n ≠ fsPath := by
  intro h
  have hprefix := mpuDir_prefix_part hfit id hn
  rw [h] at hprefix
  exact mpuDir_not_prefix_object hfit id hprefix

theorem mpuPartPath_ne_tmp (id : UploadId) {n : ℕ} (hn : n ≤ mpuMaxPartNumber) :
    mpuPartPath fsPath id n ≠ mpuFinalTmp fsPath := by
  intro h
  have hprefix := mpuDir_prefix_part hfit id hn
  rw [h] at hprefix
  exact mpuDir_not_prefix_tmp hfit id hprefix

theorem mpuDir_prefix_part_eq {id id' : UploadId} {n : ℕ} (hn : n ≤ mpuMaxPartNumber)
    (h : s3GetMpuDir fsPath id ++ [47] <+: mpuPartPath fsPath id' n) : id = id' := by
  obtain ⟨rest, h⟩ := h
  rw [s3GetMpuDir_eq hfit, mpuPartPath_eq hfit id' hn] at h
  simp only [append_assoc, cons_append, nil_append, append_cancel_left_eq,
    cons.injEq, true_and] at h
  exact Subtype.ext (Delimited.eq_of_first (slash_not_mem_uploadId id) (slash_not_mem_uploadId id') h).1

theorem mpuPartPath_inj {id id' : UploadId} {n n' : ℕ} (hn : n ≤ mpuMaxPartNumber)
    (hn' : n' ≤ mpuMaxPartNumber) (h : mpuPartPath fsPath id n = mpuPartPath fsPath id' n') :
    id = id' ∧ n = n' := by
  have hprefix := mpuDir_prefix_part hfit id hn
  rw [h] at hprefix
  obtain rfl := mpuDir_prefix_part_eq hfit hn' hprefix
  rw [mpuPartPath_eq hfit id hn, mpuPartPath_eq hfit id hn'] at h
  simp only [append_cancel_left_eq, cons.injEq, true_and] at h
  exact ⟨rfl, digits_inj h⟩

end

end BrixCache

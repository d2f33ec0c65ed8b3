import BrixCache.Lib.Posix
import BrixCache.Lib.RingLog
import BrixCache.Lib.Run

/-!
# The write-recovery journal

`protocols/root/write/wrts_journal.c`: a client that was cut off repeats the writes it has no answer
to. A handle remembers the ranges of its last writes in a ring; a write of a range that is there is
taken for a repetition and skipped. The ring does not remember what was written.
-/

namespace BrixCache

def brixWrtsJournalSlots : ℕ := 64

/-- A write that is kept in the ring -/
structure WrtsEntry : Type where
  offset : ℕ
  length : UInt32
  gen : UInt32

/-- The journal of a `brix_file_t` -/
structure WrtsJournal : Type where
  enabled : Bool
  head : UInt32
  count : UInt32
  gen : UInt32
  slots : ℕ → WrtsEntry

def brixWrtsOpen : WrtsJournal := ⟨true, 0, 0, 0, fun _ => ⟨0, 0, 0⟩⟩

/-- Record a write in the ring of 64. -/
def brixWrtsRecord (j : WrtsJournal) (offset : ℕ) (length : UInt32) : WrtsJournal :=
  if ¬ j.enabled ∨ length = 0 then j
  else
    { j with
      slots := Function.update j.slots (j.head.toNat % brixWrtsJournalSlots) ⟨offset, length, j.gen⟩
      gen := j.gen + 1
      head := j.head + 1
      count := if j.count.toNat < brixWrtsJournalSlots then j.count + 1 else j.count }

/-- The range was recorded before. -/
def brixWrtsIsReplay (j : WrtsJournal) (offset : ℕ) (length : UInt32) : Bool :=
  if ¬ j.enabled ∨ j.count = 0 ∨ length = 0 then false
  else
    let limit :=
      if j.count.toNat < brixWrtsJournalSlots then j.count.toNat else brixWrtsJournalSlots
    (List.range limit).any fun i =>
      0 < (j.slots i).length ∧ (j.slots i).offset = offset ∧ (j.slots i).length = length

/-- Forget every record. -/
def brixWrtsFlush (j : WrtsJournal) : WrtsJournal :=
  if ¬ j.enabled then j else { j with head := 0, count := 0, gen := 0, slots := fun _ => ⟨0, 0, 0⟩ }

/-- A write request; its length is a 32-bit number on the wire. -/
structure WriteReq : Type where
  offset : ℕ
  data : List UInt8
  fits : data.length < 2 ^ 32

def WriteReq.length (w : WriteReq) : UInt32 := UInt32.ofNat w.data.length

/-- A file open for writing, with its journal -/
structure WrtsHandle : Type where
  file : List UInt8
  journal : WrtsJournal

/-- A write that is done and recorded -/
def WrtsHandle.perform (s : WrtsHandle) (w : WriteReq) : WrtsHandle where
  file := File.pwrite 0 s.file w.offset w.data
  journal := brixWrtsRecord s.journal w.offset w.length

/-- What is acknowledged on a handle -/
inductive WrtsEvent : Type where
  /-- `kXR_write`, a segment of `kXR_writev`, a clean `kXR_pgwrite`: looked up in the journal -/
  | write (w : WriteReq)
  /-- a `kXR_pgwrite` with bad pages or a retry of one, a chunk of a streamed write: not looked up -/
  | rewrite (w : WriteReq)
  /-- `kXR_sync` -/
  | sync

def wrtsStep (s : WrtsHandle) : WrtsEvent → WrtsHandle
  | .write w =>
    -- a replay is answered with kXR_ok and nothing is written
    if brixWrtsIsReplay s.journal w.offset w.length then s else s.perform w
  | .rewrite w => s.perform w
  | .sync => { s with journal := brixWrtsFlush s.journal }

/-! ## What the history says -/

def WriteReq.range (w : WriteReq) : ℕ × UInt32 := (w.offset, w.length)

/-- The bytes at their places, after one more write was acknowledged -/
def putBytes (written : ℕ → Option UInt8) (w : WriteReq) : ℕ → Option UInt8 := fun i =>
  if w.offset ≤ i ∧ i < w.offset + w.data.length then w.data[i - w.offset]? else written i

def recordRange (recorded : List (ℕ × UInt32)) (w : WriteReq) : List (ℕ × UInt32) :=
  if w.length = 0 then recorded else recorded ++ [w.range]

/-- A handle with its history: the ranges recorded since the last sync, and for each place the byte
that was acknowledged last -/
structure WrtsRun : Type where
  handle : WrtsHandle
  recorded : List (ℕ × UInt32)
  written : ℕ → Option UInt8

def WrtsRun.opened (file : List UInt8) : WrtsRun := ⟨⟨file, brixWrtsOpen⟩, [], fun _ => none⟩

def WrtsRun.step (s : WrtsRun) (ev : WrtsEvent) : WrtsRun where
  handle := wrtsStep s.handle ev
  recorded :=
    match ev with
    | .write w =>
      if w.range ∈ lastOf brixWrtsJournalSlots s.recorded then s.recorded
      else recordRange s.recorded w
    | .rewrite w => recordRange s.recorded w
    | .sync => []
  written :=
    match ev with
    | .write w => putBytes s.written w
    | .rewrite w => putBytes s.written w
    | .sync => s.written

/-- A handle with its history after all that was acknowledged since it was opened -/
def wrtsRun (file : List UInt8) (events : List WrtsEvent) : WrtsRun :=
  events.foldl WrtsRun.step (.opened file)

/-- A write repeats what was acknowledged last, byte by byte. -/
def WrtsRun.Repeated (s : WrtsRun) (w : WriteReq) : Prop :=
  ∀ i < w.data.length, s.written (w.offset + i) = w.data[i]?

/-- A write that is taken for a replay leaves the file as doing it would. -/
def WrtsRun.SkipIsWrite (s : WrtsRun) (w : WriteReq) : Prop :=
  brixWrtsIsReplay s.handle.journal w.offset w.length = true →
    File.pwrite 0 s.handle.file w.offset w.data = s.handle.file

end BrixCache

/-!
## What a skipped write leaves behind

A write is skipped when its range is one of the last 64 that were recorded, which is right as long
as it repeats what was acknowledged last at each of its places.
-/

namespace BrixCache

open List

variable {s : WrtsRun} {w : WriteReq}

theorem WriteReq.toNat_length (w : WriteReq) : w.length.toNat = w.data.length :=
  UInt32.toNat_ofNat_of_lt' w.fits

/-! ### The journal is the last ranges -/

/-- What of a journal slot a lookup compares -/
def WrtsEntry.range (e : WrtsEntry) : ℕ × UInt32 := (e.offset, e.length)

/-- The ring stands for the ranges recorded, and what was recorded was written. -/
structure WrtsInv (s : WrtsRun) : Prop where
  enabled : s.handle.journal.enabled = true
  head : s.handle.journal.head.toNat % brixWrtsJournalSlots =
    s.recorded.length % brixWrtsJournalSlots
  count : s.handle.journal.count.toNat = min s.recorded.length brixWrtsJournalSlots
  ring : RingHolds brixWrtsJournalSlots (WrtsEntry.range ∘ s.handle.journal.slots) s.recorded
  nonempty : ∀ r ∈ s.recorded, r.2 ≠ 0
  covered : ∀ r ∈ s.recorded, ∀ i < r.2.toNat, ∃ b, s.written (r.1 + i) = some b

theorem mem_of_mem_lastOf {ε : Type} {n : ℕ} {x : ε} {log : List ε} (h : x ∈ lastOf n log) :
    x ∈ log :=
  mem_of_mem_drop h

theorem WrtsInv.opened (file : List UInt8) : WrtsInv (.opened file) where
  enabled := rfl
  head := rfl
  count := rfl
  ring := .nil
  nonempty _ h := by cases h
  covered _ h := by cases h

/-- A write is a replay exactly if it is among the last that were recorded. -/
theorem WrtsInv.isReplay_iff (h : WrtsInv s) :
    brixWrtsIsReplay s.handle.journal w.offset w.length = true ↔
      w.range ∈ lastOf brixWrtsJournalSlots s.recorded := by
  have hscan := h.ring.exists_iff (p := (· = w.range))
  simp only [exists_eq_right] at hscan
  rw [← hscan, brixWrtsIsReplay]
  split
  · next hoff =>
    refine iff_of_false Bool.false_ne_true ?_
    rintro ⟨i, hi, hsame⟩
    have hmem := mem_of_mem_lastOf (hscan.mp ⟨i, hi, hsame⟩)
    obtain hoff | hzero | hempty := hoff
    · exact hoff h.enabled
    · have hcount := h.count
      rw [hzero] at hcount
      have := Nat.lt_of_lt_of_eq hi hcount.symm
      exact Nat.not_lt_zero _ this
    · exact h.nonempty _ hmem hempty
  · next hon =>
    have hlen : w.length ≠ 0 := fun hzero => hon (.inr (.inr hzero))
    have hlimit : (if s.handle.journal.count.toNat < brixWrtsJournalSlots then
        s.handle.journal.count.toNat else brixWrtsJournalSlots) =
          min s.recorded.length brixWrtsJournalSlots := by
      rw [h.count]
      split <;> omega
    simp only [hlimit, any_eq_true, mem_range, decide_eq_true_eq]
    refine exists_congr fun i => and_congr_right fun _ => ?_
    rw [Function.comp_apply, WrtsEntry.range, WriteReq.range, Prod.mk.injEq]
    refine ⟨fun hentry => hentry.2, fun hentry => ⟨?_, hentry⟩⟩
    rw [hentry.2]
    exact UInt32.pos_iff_ne_zero.mpr hlen

/-! ### One event -/

variable {i : ℕ} {written : ℕ → Option UInt8}

theorem putBytes_some {b : UInt8} (h : putBytes written w i = some b) :
    (w.offset ≤ i ∧ i < w.offset + w.data.length ∧ w.data[i - w.offset]? = some b) ∨
      ¬ (w.offset ≤ i ∧ i < w.offset + w.data.length) ∧ written i = some b := by
  rw [putBytes] at h
  split at h
  · next hin => exact .inl ⟨hin.1, hin.2, h⟩
  · next hout => exact .inr ⟨hout, h⟩

theorem exists_putBytes (h : ∃ b, written i = some b) :
    ∃ b, putBytes written w i = some b := by
  rw [putBytes]
  split
  · next hin => exact ⟨_, getElem?_eq_getElem (by omega)⟩
  · exact h

theorem exists_putBytes_of_lt (hi : i < w.length.toNat) :
    ∃ b, putBytes written w (w.offset + i) = some b := by
  rw [w.toNat_length] at hi
  rw [putBytes, if_pos ⟨Nat.le_add_right _ _, Nat.add_lt_add_left hi _⟩, Nat.add_sub_cancel_left]
  exact ⟨_, getElem?_eq_getElem hi⟩

/-- One more write in the ring -/
theorem WrtsInv.record (h : WrtsInv s) (w : WriteReq) :
    WrtsInv ⟨s.handle.perform w, recordRange s.recorded w, putBytes s.written w⟩ := by
  by_cases hzero : w.length = 0
  · have hj : brixWrtsRecord s.handle.journal w.offset w.length = s.handle.journal := by
      rw [brixWrtsRecord, if_pos (.inr hzero)]
    have hr : recordRange s.recorded w = s.recorded := by rw [recordRange, if_pos hzero]
    simp only [WrtsHandle.perform, hj, hr]
    exact ⟨h.enabled, h.head, h.count, h.ring, h.nonempty,
      fun r hr i hi => exists_putBytes (h.covered r hr i hi)⟩
  have hon : ¬ (¬ s.handle.journal.enabled = true ∨ w.length = 0) := by
    simp [h.enabled, hzero]
  have hr : recordRange s.recorded w = s.recorded ++ [w.range] := by rw [recordRange, if_neg hzero]
  simp only [WrtsHandle.perform, brixWrtsRecord, if_neg hon, hr]
  have hhead := h.head
  have hcount := h.count
  simp only [brixWrtsJournalSlots] at hhead hcount
  constructor
  · exact h.enabled
  · -- 64 divides 2 ^ 32, so the head may wrap
    simp only [UInt32.toNat_add, brixWrtsJournalSlots, length_append, length_singleton]
    change (s.handle.journal.head.toNat + 1) % 2 ^ 32 % 64 = _
    omega
  · simp only [length_append, length_singleton]
    by_cases hroom : s.handle.journal.count.toNat < brixWrtsJournalSlots
    · rw [if_pos hroom, UInt32.toNat_add]
      change (s.handle.journal.count.toNat + 1) % 2 ^ 32 = min _ 64
      simp only [brixWrtsJournalSlots] at hroom
      omega
    · rw [if_neg hroom]
      simp only [brixWrtsJournalSlots] at hroom ⊢
      omega
  · have hpush := h.ring.push w.range
    rw [← h.head] at hpush
    rw [Function.comp_update]
    exact hpush
  · intro r hr
    obtain hold | hnew := mem_append.mp hr
    · exact h.nonempty r hold
    · obtain rfl := mem_singleton.mp hnew
      exact hzero
  · intro r hr i hi
    obtain hold | hnew := mem_append.mp hr
    · exact exists_putBytes (h.covered r hold i hi)
    · obtain rfl := mem_singleton.mp hnew
      exact exists_putBytes_of_lt hi

theorem WrtsInv.skip (h : WrtsInv s) (w : WriteReq) :
    WrtsInv { s with written := putBytes s.written w } where
  enabled := h.enabled
  head := h.head
  count := h.count
  ring := h.ring
  nonempty := h.nonempty
  covered r hr i hi := exists_putBytes (h.covered r hr i hi)

theorem WrtsRun.step_write_of_mem (h : WrtsInv s)
    (hmem : w.range ∈ lastOf brixWrtsJournalSlots s.recorded) :
    s.step (.write w) = { s with written := putBytes s.written w } := by
  rw [WrtsRun.step]
  simp only [wrtsStep, h.isReplay_iff.mpr hmem, hmem, if_true]

theorem WrtsRun.step_write_of_not_mem (h : WrtsInv s)
    (hnot : w.range ∉ lastOf brixWrtsJournalSlots s.recorded) :
    s.step (.write w) =
      ⟨s.handle.perform w, recordRange s.recorded w, putBytes s.written w⟩ := by
  have hno : ¬ brixWrtsIsReplay s.handle.journal w.offset w.length = true := fun hyes =>
    hnot (h.isReplay_iff.mp hyes)
  rw [WrtsRun.step]
  simp only [wrtsStep, if_neg hno, if_neg hnot]

theorem WrtsInv.step (h : WrtsInv s) (ev : WrtsEvent) : WrtsInv (s.step ev) := by
  cases ev with
  | write w =>
    by_cases hmem : w.range ∈ lastOf brixWrtsJournalSlots s.recorded
    · rw [WrtsRun.step_write_of_mem h hmem]
      exact h.skip w
    · rw [WrtsRun.step_write_of_not_mem h hmem]
      exact h.record w
  | rewrite w => exact h.record w
  | sync =>
    rw [WrtsRun.step]
    simp only [wrtsStep, brixWrtsFlush, h.enabled, not_true_eq_false, if_false]
    exact ⟨rfl, rfl, rfl, .nil, fun _ hr => (by cases hr), fun _ hr => (by cases hr)⟩

/-! ### The file -/

/-- The file holds what was acknowledged. -/
def WrtsRun.Agrees (s : WrtsRun) : Prop :=
  ∀ i b, s.written i = some b → s.handle.file[i]? = some b

/-- The file holds the bytes of a write. -/
def WrtsRun.Has (s : WrtsRun) (w : WriteReq) : Prop :=
  ∀ i < w.data.length, s.handle.file[w.offset + i]? = w.data[i]?

theorem skipIsWrite_iff (h : WrtsInv s) :
    s.SkipIsWrite w ↔ (w.range ∈ lastOf brixWrtsJournalSlots s.recorded → s.Has w) := by
  rw [WrtsRun.SkipIsWrite, h.isReplay_iff, File.pwrite_eq_self_iff]
  rfl

theorem repeated_iff_has (h : WrtsInv s) (hagrees : s.Agrees) (hmem : w.range ∈ s.recorded) :
    s.Repeated w ↔ s.Has w := by
  refine forall₂_congr fun i hi => ?_
  obtain ⟨b, hb⟩ : ∃ b, s.written (w.offset + i) = some b :=
    h.covered _ hmem i (w.toNat_length ▸ hi)
  rw [hagrees _ b hb, hb]

theorem WrtsRun.Agrees.perform (h : s.Agrees) (w : WriteReq) (recorded : List (ℕ × UInt32)) :
    WrtsRun.Agrees ⟨s.handle.perform w, recorded, putBytes s.written w⟩ := by
  intro i b hb
  change (File.pwrite 0 s.handle.file w.offset w.data)[i]? = some b
  obtain ⟨hle, hlt, hdata⟩ | ⟨hout, hold⟩ := putBytes_some hb
  · rw [File.getElem?_pwrite_of_mem 0 _ hle hlt, hdata]
  · have hfile := h i b hold
    have hin := (List.getElem?_eq_some_iff.mp hfile).1
    rw [File.getElem?_pwrite_of_not_mem 0 _ (by omega) hin, hfile]

theorem agrees_skip_iff (h : s.Agrees) :
    WrtsRun.Agrees { s with written := putBytes s.written w } ↔ s.Has w := by
  constructor
  · intro hafter i hi
    have hbyte := getElem?_eq_getElem hi
    rw [hbyte]
    refine hafter _ _ ?_
    change putBytes s.written w (w.offset + i) = _
    rw [putBytes, if_pos ⟨Nat.le_add_right _ _, Nat.add_lt_add_left hi _⟩, Nat.add_sub_cancel_left,
      hbyte]
  · intro hhas i b hb
    obtain ⟨hle, hlt, hdata⟩ | ⟨-, hold⟩ := putBytes_some hb
    · have hat := hhas (i - w.offset) (by omega)
      rw [Nat.add_sub_cancel' hle, hdata] at hat
      exact hat
    · exact h i b hold

/-- What an event must meet: a write of a recorded range repeats what stands there. -/
def WrtsRun.Keeps (s : WrtsRun) : WrtsEvent → Prop
  | .write w => w.range ∈ lastOf brixWrtsJournalSlots s.recorded → s.Repeated w
  | .rewrite _ => True
  | .sync => True

/-- What is claimed of an event: a skipped write might have been done. -/
def WrtsRun.Harmless (s : WrtsRun) : WrtsEvent → Prop
  | .write w => s.SkipIsWrite w
  | .rewrite _ => True
  | .sync => True

theorem agrees_step_iff (h : WrtsInv s) (hagrees : s.Agrees) (ev : WrtsEvent) :
    (s.step ev).Agrees ↔ s.Harmless ev := by
  cases ev with
  | write w =>
    rw [WrtsRun.Harmless, skipIsWrite_iff h]
    by_cases hmem : w.range ∈ lastOf brixWrtsJournalSlots s.recorded
    · rw [WrtsRun.step_write_of_mem h hmem, agrees_skip_iff hagrees]
      exact ⟨fun hhas _ => hhas, fun hhas => hhas hmem⟩
    · rw [WrtsRun.step_write_of_not_mem h hmem]
      exact iff_of_true (hagrees.perform w _) fun hin => absurd hin hmem
  | rewrite w => exact iff_of_true (hagrees.perform w _) trivial
  | sync => exact iff_of_true hagrees trivial

theorem harmless_iff_keeps (h : WrtsInv s) (hagrees : s.Agrees) (ev : WrtsEvent) :
    s.Harmless ev ↔ s.Keeps ev := by
  cases ev with
  | write w =>
    rw [WrtsRun.Harmless, skipIsWrite_iff h]
    exact forall_congr' fun hmem => (repeated_iff_has h hagrees (mem_of_mem_lastOf hmem)).symm
  | rewrite _ | sync => exact Iff.rfl

/-! ### Runs -/

/-- **The recovery journal.** In a history of acknowledged writes, skipping what is taken for a
replay is as good as doing it, each time, exactly when every write whose range is one of the last
recorded repeats what was acknowledged last at each of its places. -/
theorem wrts_skip_iff (file : List UInt8) (events : List WrtsEvent) :
    (∀ done w, done ++ [.write w] <+: events → (wrtsRun file done).SkipIsWrite w) ↔
      ∀ done w, done ++ [.write w] <+: events →
        w.range ∈ lastOf brixWrtsJournalSlots (wrtsRun file done).recorded →
          (wrtsRun file done).Repeated w := by
  have hopened : WrtsInv (.opened file) ∧ (WrtsRun.opened file).Agrees :=
    ⟨.opened file, fun _ _ h => by cases h⟩
  have hharmless := Run.foldl_prefixes_iff (I := fun s : WrtsRun => WrtsInv s ∧ s.Agrees)
    (C := WrtsRun.Harmless) (f := WrtsRun.step)
    (fun s ev h => ⟨fun h' => (agrees_step_iff h.1 h.2 ev).mp h'.2, fun h' =>
      ⟨h.1.step ev, (agrees_step_iff h.1 h.2 ev).mpr h'⟩⟩) hopened events
  have hkeeps := Run.foldl_prefixes_iff (I := fun s : WrtsRun => WrtsInv s ∧ s.Agrees)
    (C := WrtsRun.Keeps) (f := WrtsRun.step)
    (fun s ev h => ⟨fun h' => (harmless_iff_keeps h.1 h.2 ev).mp
      ((agrees_step_iff h.1 h.2 ev).mp h'.2), fun h' => ⟨h.1.step ev,
        (agrees_step_iff h.1 h.2 ev).mpr ((harmless_iff_keeps h.1 h.2 ev).mpr h')⟩⟩) hopened events
  have hboth := hharmless.symm.trans hkeeps
  constructor
  · intro h done w hpre
    refine hboth.mp (fun done ev hpre => ?_) done (.write w) hpre
    cases ev with
    | write w => exact h done w hpre
    | _ => trivial
  · intro h done w hpre
    refine hboth.mpr (fun done ev hpre => ?_) done (.write w) hpre
    cases ev with
    | write w => exact h done w hpre
    | _ => trivial

theorem one_byte_fits (b : UInt8) : [b].length < 2 ^ 32 := by simp

/-- One byte at the start of a file -/
def sampleByte (b : UInt8) : WriteReq := ⟨0, [b], one_byte_fits b⟩

/-- A second write of the same range is skipped, whatever it writes. -/
theorem overwrite_is_skipped : ¬∀ (file : List UInt8) (events : List WrtsEvent) (w : WriteReq),
    (wrtsRun file events).SkipIsWrite w := by
  intro h
  have hskip := h [] [.write (sampleByte 1)] (sampleByte 2) (by decide)
  exact absurd hskip (by decide)

end BrixCache

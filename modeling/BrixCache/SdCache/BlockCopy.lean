import BrixCache.Lib.Transfer
import BrixCache.SdCache.WriteInvalidate

/-!
# Copying a block

`partial_block_copy` and `sd_cache_fill_block` of `fs/backend/cache/sd_cache_partial.c`, call by
call: the source may give a block in pieces, be interrupted, fail, or end before the size its
`stat` declared. `cache_fill_pump` of `sd_cache_fill.c` reads the same source for a whole file.

The two part at an early end: the pump gives the fill up, the block copy writes what it has and
the block is marked present.
-/

namespace BrixCache

open List

/-- What the calls of one `sd_cache_fill_block` answer. -/
structure BlockCalls : Type where
  /-- `partial_source_ensure` -/
  source : Except Errno Unit
  /-- is there memory for the block? -/
  alloc : Bool
  reads : List (ReadAnswer UInt8)
  writes : List WriteAnswer
  now : Int64
  save : RecordSave

/-- `partial_block_copy`; `none` while it waits for a call. -/
def partialBlockCopy (f : List UInt8) (bstart blen : ℕ) (calls : BlockCalls) :
    Option (Except Errno Unit) × List UInt8 :=
  if calls.alloc then
    match Transfer.readLoop blen [] calls.reads with
    | none => (none, f)
    | some (.error e) => (some (.error e), f)
    -- short source vs stat: what it gave is written
    | some (.ok got) => Transfer.writeLoop 0 f bstart got calls.writes
  else (some (.error .enomem), f)

/-- `sd_cache_fill_block` with the calls it makes. -/
def sdCacheFillBlockCalls (c : SliceStore) (p : PartialObj) (blk : ℕ) (calls : BlockCalls) :
    Option (Except Errno Unit) × SliceStore × PartialObj :=
  let bstart := blk * p.blockSize.toNat
  if p.size.toNat ≤ bstart then (some (.ok ()), c, p)
  else
    match calls.source with
    | .error e => (some (.error e), c, p)
    | .ok () =>
      match partialBlockCopy c.bytes bstart (p.blockLen blk) calls with
      | (some (.ok ()), f) =>
        (some (.ok ()),
          { file := some f, slot := p.record c.slot blk calls.now calls.save }, p.mark blk)
      | (r, f) => (r, { c with file := some f }, p)

/-! ## What a present bit says -/

/-- Is the block in the record of the handle's key? -/
def SliceStore.Records (c : SliceStore) (p : PartialObj) (blk : ℕ) : Prop :=
  ∃ m, c.slot = some m ∧ cinfoMatches m ⟨p.size, p.blockSize, p.mtime⟩ = true ∧
    Bitmap.test m.bitmap blk = true

/-- The block's bit is set anew, in the handle's bitmap or in the record. -/
def MarksBlock (c : SliceStore) (p : PartialObj) (blk : ℕ) (c' : SliceStore) (p' : PartialObj) :
    Prop :=
  (p.present blk = false ∧ p'.present blk = true) ∨ (¬ c.Records p blk ∧ c'.Records p blk)

/-- Every byte of a range was given by the source and is in the file. -/
def GivenTo (reads : List (ReadAnswer UInt8)) (file : List UInt8) (bstart blen : ℕ) : Prop :=
  ∀ i, i < blen → ∃ x, (Transfer.gave reads)[i]? = some x ∧ file[bstart + i]? = some x

/-- With these answers of the source, a call on a handle of this geometry marks the block only
if all of it was copied: whatever handle and store it is called with, and whatever the other
calls answer. -/
def MarksOnlyCopied (size : UInt64) (blockSize : UInt32) (blk : ℕ)
    (reads : List (ReadAnswer UInt8)) : Prop :=
  ∀ (p : PartialObj) (c : SliceStore) (calls : BlockCalls),
    p.size = size → p.blockSize = blockSize → calls.reads = reads →
    MarksBlock c p blk (sdCacheFillBlockCalls c p blk calls).2.1
      (sdCacheFillBlockCalls c p blk calls).2.2 →
    GivenTo reads (sdCacheFillBlockCalls c p blk calls).2.1.bytes (blk * blockSize.toNat)
      (p.blockLen blk)

variable {c : SliceStore} {p : PartialObj} {blk : ℕ} {calls : BlockCalls}

theorem not_marksBlock {c' : SliceStore} (h : c'.slot = c.slot) : ¬ MarksBlock c p blk c' p := by
  rintro (⟨hno, hyes⟩ | ⟨hno, m, hm, hkey, hbit⟩)
  · rw [hno] at hyes
    cases hyes
  · exact hno ⟨m, h ▸ hm, hkey, hbit⟩

theorem partialBlockCopy_file (f : List UInt8) (bstart blen : ℕ) (calls : BlockCalls) :
    ∃ n, (partialBlockCopy f bstart blen calls).2 =
      File.pwrite 0 f bstart (((Transfer.gave calls.reads).take blen).take n) := by
  rw [partialBlockCopy]
  split
  · rcases hread : Transfer.readLoop blen [] calls.reads with _ | _ | got
    · exact ⟨0, rfl⟩
    · exact ⟨0, rfl⟩
    · obtain ⟨hgot, -⟩ := Transfer.readLoop_eq_ok (Nat.zero_le blen) hread
      obtain ⟨n, hfile, -⟩ := Transfer.writeLoop_spec 0 f bstart got calls.writes
      rw [length_nil, Nat.sub_zero, nil_append] at hgot
      exact ⟨n, hgot ▸ hfile⟩
  · exact ⟨0, rfl⟩

theorem partialBlockCopy_eq_ok {f f' : List UInt8} {bstart blen : ℕ}
    (h : partialBlockCopy f bstart blen calls = (some (.ok ()), f')) :
    f' = File.pwrite 0 f bstart ((Transfer.gave calls.reads).take blen) ∧
      (blen ≤ (Transfer.gave calls.reads).length ∨ Transfer.EndsBefore blen calls.reads) := by
  rw [partialBlockCopy] at h
  split at h
  · rcases hread : Transfer.readLoop blen [] calls.reads with _ | _ | got
    · simp [hread] at h
    · simp [hread] at h
    · simp only [hread] at h
      obtain ⟨hgot, hend⟩ := Transfer.readLoop_eq_ok (Nat.zero_le blen) hread
      rw [length_nil, Nat.sub_zero, nil_append] at hgot
      rw [length_nil, Nat.sub_zero] at hend
      obtain ⟨n, hfile, hall⟩ := Transfer.writeLoop_spec 0 f bstart got calls.writes
      rw [h] at hfile hall
      refine ⟨?_, hend.imp_left fun hlen => ?_⟩
      · rw [← hgot, ← take_of_length_le (hall rfl)]
        exact hfile
      · rw [hgot, length_take] at hlen
        omega
  · simp at h

theorem copied_of_marksBlock
    (h : MarksBlock c p blk (sdCacheFillBlockCalls c p blk calls).2.1
      (sdCacheFillBlockCalls c p blk calls).2.2) :
    ∃ f, partialBlockCopy c.bytes (blk * p.blockSize.toNat) (p.blockLen blk) calls =
        (some (.ok ()), f) ∧
      (sdCacheFillBlockCalls c p blk calls).2.1.bytes = f := by
  rw [sdCacheFillBlockCalls] at h ⊢
  by_cases hend : p.size.toNat ≤ blk * p.blockSize.toNat
  · simp only [if_pos hend] at h
    exact absurd h (not_marksBlock rfl)
  simp only [if_neg hend] at h ⊢
  rcases hsource : calls.source with e | u
  · simp only [hsource] at h
    exact absurd h (not_marksBlock rfl)
  simp only [hsource] at h ⊢
  generalize partialBlockCopy c.bytes (blk * p.blockSize.toNat) (p.blockLen blk) calls =
    copy at h ⊢
  obtain ⟨_ | _ | _, f⟩ := copy
  · exact absurd h (not_marksBlock rfl)
  · exact absurd h (not_marksBlock rfl)
  · exact ⟨f, rfl, rfl⟩

theorem givenTo_of_marksBlock (hend : ¬ Transfer.EndsBefore (p.blockLen blk) calls.reads)
    (h : MarksBlock c p blk (sdCacheFillBlockCalls c p blk calls).2.1
      (sdCacheFillBlockCalls c p blk calls).2.2) :
    GivenTo calls.reads (sdCacheFillBlockCalls c p blk calls).2.1.bytes
      (blk * p.blockSize.toNat) (p.blockLen blk) := by
  obtain ⟨f, hcopy, hbytes⟩ := copied_of_marksBlock h
  obtain ⟨hfile, hall⟩ := partialBlockCopy_eq_ok hcopy
  have hlen := hall.resolve_right hend
  intro i hi
  have hgave : i < (Transfer.gave calls.reads).length := Nat.lt_of_lt_of_le hi hlen
  refine ⟨(Transfer.gave calls.reads)[i], getElem?_eq_getElem hgave, ?_⟩
  rw [hbytes, hfile, File.getElem?_pwrite_of_mem 0 c.bytes (Nat.le_add_right _ i)
    (by rw [length_take]; omega), Nat.add_sub_cancel_left, getElem?_take_of_lt hi,
    getElem?_eq_getElem hgave]

/-! ### An early end -/

/-- A handle of the geometry with no block present, and room for the bit of this one. -/
def absentHandle (size : UInt64) (blockSize : UInt32) (blk : ℕ) : PartialObj :=
  { size := size, blockSize := blockSize, mtime := 0, mode := 0o644,
    nblocks := UInt64.ofNat (blk + 1),
    bitmap := some (replicate (Bitmap.bytes (blk + 1)) 0),
    bitmapLen := Bitmap.bytes (blk + 1) }

/-- The calls of a fill in which only the source falls short. -/
def shortCalls (reads : List (ReadAnswer UInt8)) : BlockCalls :=
  { source := .ok (), alloc := true, reads := reads,
    writes := [.put (Transfer.gave reads).length], now := 0, save := .kept }

theorem absentHandle_mark {size : UInt64} {blockSize : UInt32} (hblk : blk + 1 < 2 ^ 64) :
    (absentHandle size blockSize blk).present blk = false ∧
      ((absentHandle size blockSize blk).mark blk).present blk = true := by
  have hlt : blk < (absentHandle size blockSize blk).nblocks.toNat := by
    rw [absentHandle, UInt64.toNat_ofNat_of_lt' hblk]
    exact Nat.lt_succ_self blk
  have hbyte : blk / 8 < (replicate (Bitmap.bytes (blk + 1)) (0 : UInt8)).length := by
    rw [length_replicate]
    exact Bitmap.div_lt_bytes (Nat.lt_succ_self blk)
  constructor
  · simp only [PartialObj.present, absentHandle, Bitmap.test_replicate_zero, Bool.and_false]
  · rw [PartialObj.mark, if_pos hlt, PartialObj.present]
    simp only [absentHandle, Option.map_some, Bitmap.test_set _ hbyte, decide_true, Bool.or_true,
      Bool.and_true]
    exact decide_eq_true hlt

theorem PartialObj.of_blockLen_pos (h : 0 < p.blockLen blk) :
    blk * p.blockSize.toNat < p.size.toNat ∧ blk + 1 < 2 ^ 64 := by
  have hsize := p.size.toNat_lt
  rw [PartialObj.blockLen] at h
  have hpos : 0 < p.blockSize.toNat ∧ blk * p.blockSize.toNat < p.size.toNat := by
    split at h <;> omega
  have hle : blk * 1 ≤ blk * p.blockSize.toNat := Nat.mul_le_mul_left blk hpos.1
  omega

theorem sdCacheFillBlockCalls_short {reads : List (ReadAnswer UInt8)}
    (h : Transfer.EndsBefore (p.blockLen blk) reads) :
    sdCacheFillBlockCalls c p blk (shortCalls reads) =
      (some (.ok ()),
        { file := some (File.pwrite 0 c.bytes (blk * p.blockSize.toNat) (Transfer.gave reads)),
          slot := p.record c.slot blk 0 .kept },
        p.mark blk) := by
  have hpos : 0 < p.blockLen blk := Nat.lt_of_le_of_lt (Nat.zero_le _) h.gave_lt
  have hin := (PartialObj.of_blockLen_pos hpos).1
  have hread : Transfer.readLoop (p.blockLen blk) [] reads =
      some (.ok ([] ++ Transfer.gave reads)) := Transfer.readLoop_of_endsBefore h
  rw [sdCacheFillBlockCalls]
  simp only [if_neg (Nat.not_le_of_lt hin), shortCalls, partialBlockCopy, if_true, hread,
    nil_append, Transfer.writeLoop_put]

/-- **A block is marked only if it was copied**, exactly when the source does not end before it
gave the block. -/
theorem sdCacheFillBlock_marks_iff (p : PartialObj) (blk : ℕ) (reads : List (ReadAnswer UInt8)) :
    MarksOnlyCopied p.size p.blockSize blk reads ↔
      ¬ Transfer.EndsBefore (p.blockLen blk) reads := by
  constructor
  · intro hmarks hend
    have hpos := Nat.lt_of_le_of_lt (Nat.zero_le _) hend.gave_lt
    obtain ⟨habsent, hmarked⟩ := @absentHandle_mark blk p.size p.blockSize
      (PartialObj.of_blockLen_pos hpos).2
    have hlen : (absentHandle p.size p.blockSize blk).blockLen blk = p.blockLen blk := rfl
    have hcall : sdCacheFillBlockCalls ⟨some [], none⟩ (absentHandle p.size p.blockSize blk) blk
        (shortCalls reads) = _ := sdCacheFillBlockCalls_short (hlen ▸ hend)
    have hgiven := hmarks (absentHandle p.size p.blockSize blk) ⟨some [], none⟩ (shortCalls reads)
      rfl rfl rfl
      (by rw [hcall]; exact .inl ⟨habsent, hmarked⟩)
    -- the byte after the last one that was given
    obtain ⟨x, hx, -⟩ := hgiven _ hend.gave_lt
    rw [getElem?_eq_none (Nat.le_refl _)] at hx
    cases hx
  · rintro hend q c calls hsize hbs rfl hmarks
    have hlen : q.blockLen blk = p.blockLen blk := by
      rw [PartialObj.blockLen, PartialObj.blockLen, hsize, hbs]
    rw [← hbs]
    exact givenTo_of_marksBlock (hlen ▸ hend) hmarks

/-- A source that declares four bytes and ends after two: the block is marked, and its other half
is the hole of the sparse file. -/
theorem short_source_marks_block :
    ¬ ∀ size blockSize blk reads, MarksOnlyCopied size blockSize blk reads := by
  intro h
  have hgiven := h 4 4 0 [.cells [1, 2], .cells []] (absentHandle 4 4 0)
    ⟨some [0, 0, 0, 0], none⟩ (shortCalls [.cells [1, 2], .cells []]) rfl rfl rfl
    (.inl (by decide))
  obtain ⟨x, hx, -⟩ := hgiven 3 (by decide)
  cases hx

/-! ## Whole copies -/

/-- **A source that gives the file's bytes** of the block: the call ends as the fill of a block of
that file, complete or stopped part of the way. -/
theorem sdCacheFillBlockCalls_refines {src f : List UInt8} {r : Except Errno Unit}
    {c' : SliceStore} {p' : PartialObj} (hfile : c.file = some f)
    (hgave : (Transfer.gave calls.reads).take (p.blockLen blk) =
      File.pread src (blk * p.blockSize.toNat) (p.blockLen blk))
    (h : sdCacheFillBlockCalls c p blk calls = (some r, c', p')) :
    ∃ fill, (sdCacheFillBlock src c p blk fill).2 = (c', p') ∧
      ((sdCacheFillBlock src c p blk fill).1 = .ok () ↔ r = .ok ()) := by
  rw [sdCacheFillBlockCalls] at h
  have hstop : (sdCacheFillBlock src c p blk (.stopped 0)).2 = (c, p) := by
    rw [sdCacheFillBlock]
    split
    · rfl
    · obtain ⟨file, slot⟩ := c
      obtain rfl : file = some f := hfile
      simp
  by_cases hend : p.size.toNat ≤ blk * p.blockSize.toNat
  · simp only [if_pos hend, Prod.mk.injEq, Option.some.injEq] at h
    obtain ⟨rfl, rfl, rfl⟩ := h
    refine ⟨.stopped 0, hstop, ?_⟩
    simp [sdCacheFillBlock, hend]
  simp only [if_neg hend] at h
  rcases hsource : calls.source with e | u
  · simp only [hsource, Prod.mk.injEq, Option.some.injEq] at h
    obtain ⟨rfl, rfl, rfl⟩ := h
    refine ⟨.stopped 0, hstop, ?_⟩
    simp [sdCacheFillBlock, hend]
  simp only [hsource] at h
  obtain ⟨n, hcopied⟩ := partialBlockCopy_file c.bytes (blk * p.blockSize.toNat) (p.blockLen blk)
    calls
  rcases hcopy : partialBlockCopy c.bytes (blk * p.blockSize.toNat) (p.blockLen blk) calls
    with ⟨_ | e | _, f'⟩
  · simp [hcopy] at h
  · simp only [hcopy, Prod.mk.injEq, Option.some.injEq] at h
    obtain ⟨rfl, rfl, rfl⟩ := h
    rw [hcopy, hgave] at hcopied
    refine ⟨.stopped n, ?_, ?_⟩
    · have hput : f' = _ := hcopied
      simp only [sdCacheFillBlock, if_neg hend, hput, SliceStore.bytes]
    · simp [sdCacheFillBlock, hend]
  · simp only [hcopy, Prod.mk.injEq, Option.some.injEq] at h
    obtain ⟨rfl, rfl, rfl⟩ := h
    obtain ⟨hwhole, -⟩ := partialBlockCopy_eq_ok hcopy
    rw [hgave] at hwhole
    refine ⟨.copied calls.now calls.save, ?_, ?_⟩
    · simp only [sdCacheFillBlock, if_neg hend, hwhole, SliceStore.bytes]
    · simp [sdCacheFillBlock, hend]

/-- A block of four bytes that comes in two pieces -/
theorem sdCacheFillBlockCalls_refines_two :
    ∃ fill, (sdCacheFillBlock [1, 2, 3, 4] ⟨some [0, 0, 0, 0], none⟩ (absentHandle 4 4 0) 0
        fill).2 = (sdCacheFillBlockCalls ⟨some [0, 0, 0, 0], none⟩ (absentHandle 4 4 0) 0
        (shortCalls [.cells [1, 2], .cells [3, 4]])).2 ∧
      ((sdCacheFillBlock [1, 2, 3, 4] ⟨some [0, 0, 0, 0], none⟩ (absentHandle 4 4 0) 0 fill).1 =
        .ok () ↔ (.ok () : Except Errno Unit) = .ok ()) :=
  @sdCacheFillBlockCalls_refines ⟨some [0, 0, 0, 0], none⟩ (absentHandle 4 4 0) 0
    (shortCalls [.cells [1, 2], .cells [3, 4]]) [1, 2, 3, 4] [0, 0, 0, 0] (.ok ()) _ _ rfl
    (by decide) (by rfl)

/-! ## The whole-file fill -/

/-- What a failed fill is decided by: where it reads from, and whether the cache holds an older copy
that it may still serve (`sd_cache_stale_serve_ok`). -/
structure FillOrigin : Type where
  fromCold : Bool
  fromPeer : Bool
  staleServeOk : Bool

/-- How `cache_fill_pump` ends. -/
inductive PumpEnd : Type where
  /-- `NGX_OK`, with the staged object that is to be committed -/
  | ok (f : CacheFill)
  /-- `NGX_DONE`: the fill is given up and the older copy served -/
  | done
  /-- `NGX_ERROR` -/
  | error (e : Errno)

/-- `cache_fill_fail`; the staged object is gone whatever it returns. -/
def cacheFillFail (o : FillOrigin) (error : Errno) : PumpEnd :=
  if !o.fromCold && !o.fromPeer && o.staleServeOk then .done else .error error

/-- `cache_fill_pump` on what the source and the `brix_cstore_fill_write` of each piece answer;
`none` while it waits for an answer. -/
def cacheFillPump (o : FillOrigin) (f : CacheFill) (writes : List (Except Errno Unit)) :
    List (ReadAnswer UInt8) → Option PumpEnd
  | [] => none
  | .intr :: rest => cacheFillPump o f writes rest
  | .failed e :: _ => some (cacheFillFail o e)
  | .cells xs :: rest =>
    match cacheFillTurn f (xs.take sdCacheChunk) with
    | none => some (cacheFillFail o .eio)
    | some f' =>
      if xs = [] then some (.ok f')
      else
        match writes with
        | [] => none
        -- a piece that cannot be stored: no older copy is looked for
        | .error e :: _ => some (.error e)
        | .ok () :: writes =>
          if f'.stage = .full then some (.ok f') else cacheFillPump o f' writes rest

/-- **The pump at an early end** never goes on to the commit, whatever the writes answer. Where a
block would be marked, the fill is given up: the older copy is served or the error is `EIO`. -/
theorem cacheFillPump_of_endsBefore {o : FillOrigin} {f : CacheFill} {want : ℕ}
    {writes : List (Except Errno Unit)} {answers : List (ReadAnswer UInt8)}
    (h : Transfer.EndsBefore want answers) (hwant : want + f.staged.length ≤ f.snap.size) :
    (∀ f', cacheFillPump o f writes answers ≠ some (.ok f')) ∧
      (answers.length ≤ writes.length → (∀ e, .error e ∉ writes) →
        cacheFillPump o f writes answers = some (cacheFillFail o .eio)) := by
  induction h generalizing f writes with
  | here h =>
    have hshort : 0 < f.snap.size ∧ f.staged.length < f.snap.size := by omega
    rw [cacheFillPump, take_nil, cacheFillTurn, if_pos rfl, if_pos hshort]
    refine ⟨fun f' hok => ?_, fun _ _ => rfl⟩
    rw [Option.some_inj, cacheFillFail] at hok
    split at hok <;> cases hok
  | intr _ ih =>
    rw [cacheFillPump]
    exact ⟨(ih hwant).1, fun hlen => (ih hwant).2 (Nat.le_of_succ_le hlen)⟩
  | @cells want x xs rest h ih =>
    have hlt := h.gave_lt
    have hne : (x :: xs).take sdCacheChunk ≠ [] := by simp [sdCacheChunk]
    have hlen : ((x :: xs).take sdCacheChunk).length ≤ (x :: xs).length :=
      length_take_le' _ _
    have hmore : (f.staged ++ (x :: xs).take sdCacheChunk).length < f.snap.size := by
      rw [length_append]
      omega
    rw [cacheFillPump, cacheFillTurn, if_neg hne]
    simp only [if_neg (fun hfull : 0 < f.snap.size ∧ _ => Nat.not_le_of_lt hmore hfull.2),
      reduceCtorEq, if_false]
    rcases writes with _ | ⟨e | _, writes⟩
    · exact ⟨fun _ hok => (by cases hok), fun hle => (by cases hle)⟩
    · exact ⟨fun _ hok => (by cases hok), fun _ hall => absurd mem_cons_self (hall e)⟩
    · have hnext := @ih { f with staged := f.staged ++ (x :: xs).take sdCacheChunk,
                                 stage := .pumping } writes (by
        dsimp only
        rw [length_append]
        omega)
      exact ⟨hnext.1, fun hle hall => hnext.2 (Nat.le_of_succ_le_succ hle)
        fun e he => hall e (mem_cons_of_mem _ he)⟩

/-- Two of four bytes, from the origin, with an older copy in the cache and without one -/
theorem cacheFillPump_of_endsBefore_two :
    cacheFillPump ⟨false, false, false⟩ ⟨⟨4, 0, 0o644⟩, [], .pumping⟩ [.ok (), .ok (), .ok ()]
        [.cells [1, 2], .intr, .cells []] = some (cacheFillFail ⟨false, false, false⟩ .eio) ∧
      cacheFillPump ⟨false, false, true⟩ ⟨⟨4, 0, 0o644⟩, [], .pumping⟩ [.ok (), .ok (), .ok ()]
        [.cells [1, 2], .intr, .cells []] = some (cacheFillFail ⟨false, false, true⟩ .eio) :=
  have hends : Transfer.EndsBefore 4 [.cells [1, 2], .intr, .cells ([] : List UInt8)] :=
    .cells (.intr (.here (by decide)))
  ⟨(cacheFillPump_of_endsBefore hends (by decide)).2 (by decide) (by simp),
    (cacheFillPump_of_endsBefore hends (by decide)).2 (by decide) (by simp)⟩

end BrixCache

import BrixCache.Meta.Decode

/-!
# Records written by the stock cache

`fs/meta/xmeta_decode.c` also reads the records a stock cache daemon wrote: the Store, the
bitmap and as many access records as the Store counts, with no extension behind them. Only the
first access record is kept, but all of them are checksummed, so the reader goes through all of
them. It counts them with a 16-bit word.
-/

namespace BrixCache

open List

/-- A well-formed stock record. -/
structure StockRecord : Type where
  stock : XmetaStock
  bitmap : List UInt8
  /-- the access records -/
  astats : List XmetaAStat
  bufferSize_pos : 0 < stock.bufferSize
  fileSize_nonneg : 0 ≤ stock.fileSize
  nblocks_le : (xmetaNblocks stock.fileSize stock.bufferSize).toNat ≤ xmetaMaxBlocks
  bitmap_length : bitmap.length = xmetaBitmapLen (xmetaNblocks stock.fileSize stock.bufferSize)
  /-- the Store counts them in a signed 32-bit word -/
  astats_lt : astats.length < 2 ^ 31

namespace StockRecord

variable (r : StockRecord)

def store : XmetaStockStore :=
  { toXmetaStock := r.stock, astatSize := Int32.ofNat r.astats.length }

def head : List UInt8 :=
  Wire.put xmetaStockVersion ++ (Wire.put r.store ++ Wire.put (crc32cValue (Wire.put r.store)))

/-- The bitmap, the access records and the checksum of both. -/
def tail : List UInt8 :=
  r.bitmap ++ (Wire.putAll r.astats ++ Wire.put (crc32cValue (r.bitmap ++ Wire.putAll r.astats)))

/-- The record's bytes. -/
def bytes : List UInt8 := r.head ++ r.tail

/-- The record as the reader keeps it. -/
def kept : Xmeta :=
  { xmetaOfStore r.store with
    bitmap := r.bitmap
    astat := r.astats.headD XmetaAStat.zero }

theorem toInt_astatSize : r.store.astatSize.toInt = r.astats.length :=
  Int32.toInt_ofNat_of_lt r.astats_lt

theorem reads_head : Scanner.Reads xmetaDecodeStockStore r.head (xmetaOfStore r.store) := by
  have hsane : ¬ (r.store.bufferSize ≤ 0 ∨ r.store.fileSize < 0 ∨ r.store.astatSize < 0) := by
    rintro (h | h | h)
    · exact Int64.not_le.mpr r.bufferSize_pos h
    · exact Int64.not_lt.mpr r.fileSize_nonneg h
    · have hneg := Int32.lt_iff_toInt_lt.mp h
      rw [toInt_astatSize, Int32.toInt_zero] at hneg
      omega
  refine (Scanner.reads_word _ xmetaStockVersion).bind ?_
  rw [if_neg (not_not.mpr rfl)]
  refine (Scanner.reads_take_of_length (Wire.put_length r.store)).bind ?_
  refine (Scanner.reads_word _ (crc32cValue (Wire.put r.store))).bind_nil ?_
  rw [if_neg (not_not.mpr rfl)]
  simp only [Wire.get_put]
  have hblocks : ¬ xmetaMaxBlocks < (xmetaOfStore r.store).nblocks.toNat :=
    Nat.not_lt.mpr r.nblocks_le
  rw [if_neg hsane, if_neg hblocks]
  exact Scanner.reads_pure _

end StockRecord

/-! ## The access record loop -/

theorem reads_xmetaDecodeAStats_of_lt {count : Int32} {as : List XmetaAStat} {i : ℕ}
    (want : UInt32) (first : XmetaAStat) (hcount : count.toInt = (i + as.length : ℕ))
    (hlt : i + as.length < 2 ^ 16) :
    Scanner.Reads
      (xmetaDecodeAStats count i want first : Scanner UInt8 XmetaFault (UInt32 × XmetaAStat))
      (Wire.putAll as)
      (crc32cExtend want (Wire.putAll as), if i = 0 then as.headD first else first) := by
  induction as generalizing i want first with
  | nil =>
    intro rest
    have hmod : i % 2 ^ 16 = i := Nat.mod_eq_of_lt (by simpa using hlt)
    have hdone : ¬ ((i % 2 ^ 16 : ℕ) : ℤ) < count.toInt := by
      rw [hmod, hcount]
      simp
    rw [xmetaDecodeAStats, if_neg hdone]
    simp [Wire.putAll, crc32cExtend_nil]
  | cons a as ih =>
    intro rest
    rw [length_cons] at hcount hlt
    have hmod : i % 2 ^ 16 = i := Nat.mod_eq_of_lt (by omega)
    have hgo : ((i % 2 ^ 16 : ℕ) : ℤ) < count.toInt := by
      rw [hmod, hcount]
      omega
    have hlen : (Wire.put a).length = 56 := Wire.put_length a
    have hall : Wire.putAll (a :: as) = Wire.put a ++ Wire.putAll as := rfl
    have hlong : ¬ (Wire.put a ++ (Wire.putAll as ++ rest)).length < 56 := by
      rw [length_append]
      omega
    have hnext := ih (crc32cExtend want (Wire.put a)) (if i = 0 then a else first)
      (i := i + 1) (by rw [hcount]; congr 1; omega) (by omega) rest
    rw [hall, append_assoc, xmetaDecodeAStats, if_pos hgo, if_neg hlong,
      take_left' hlen, drop_left' hlen, hmod]
    simp only [Wire.get_put, hnext, crc32cExtend_append]
    simp

/-- A count it cannot reach is never counted out: the counter starts over until the bytes run
out, whatever they are. -/
theorem xmetaDecodeAStats_of_le {count : Int32} (hcount : 2 ^ 16 ≤ count.toInt) (i : ℕ)
    (want : UInt32) (first : XmetaAStat) (bs : List UInt8) :
    xmetaDecodeAStats count i want first bs = .error .foreign := by
  induction hn : bs.length using Nat.strong_induction_on generalizing bs i want first with
  | _ n ih =>
    have hgo : ((i % 2 ^ 16 : ℕ) : ℤ) < count.toInt := by
      have := Nat.mod_lt i (Nat.two_pow_pos 16)
      omega
    rw [xmetaDecodeAStats, if_pos hgo]
    split
    · rfl
    · refine ih (bs.drop 56).length ?_ _ _ _ _ rfl
      rw [length_drop]
      omega

/-! ## The whole record -/

namespace StockRecord

variable (r : StockRecord)

theorem reads_bytes (h : r.astats.length < 2 ^ 16) :
    Scanner.Reads xmetaDecodeStock r.bytes r.kept := by
  refine r.reads_head.bind ?_
  refine (Scanner.reads_take_of_length r.bitmap_length).bind ?_
  have hcount : (xmetaOfStore r.store).astatCount.toInt = (0 + r.astats.length : ℕ) := by
    rw [Nat.zero_add]
    exact r.toInt_astatSize
  refine (reads_xmetaDecodeAStats_of_lt _ _ hcount (by simpa using h)).bind ?_
  · refine (Scanner.reads_word _ _).bind_nil ?_
    rw [if_neg (by simp [crc32cValue, crc32cExtend_append])]
    exact Scanner.reads_pure _

theorem xmetaDecode_bytes (h : r.astats.length < 2 ^ 16) : xmetaDecode r.bytes = .ok r.kept := by
  rw [xmetaDecode, (r.reads_bytes h).run]
  rfl

theorem xmetaDecode_bytes_of_le (h : 2 ^ 16 ≤ r.astats.length) :
    xmetaDecode r.bytes = .error .foreign := by
  have hcount : 2 ^ 16 ≤ (xmetaOfStore r.store).astatCount.toInt := by
    change 2 ^ 16 ≤ r.store.astatSize.toInt
    rw [toInt_astatSize]
    omega
  have hloop : xmetaDecodeBitmapAStat (xmetaOfStore r.store) r.tail = .error .foreign := by
    refine (Scanner.reads_take_of_length r.bitmap_length).bind_error ?_
    exact Scanner.bind_error (xmetaDecodeAStats_of_le hcount _ _ _ _)
  have hstock : xmetaDecodeStock r.bytes = .error .foreign := r.reads_head.bind_error hloop
  rw [xmetaDecode, hstock]

/-- The record is accepted with its count and its first access record. -/
def Accepted : Prop :=
  ∃ m, xmetaDecode r.bytes = .ok m ∧ m.astatCount.toInt = r.astats.length ∧
    m.astat = r.astats.headD XmetaAStat.zero

/-- **Which stock records are accepted**: those the 16-bit counter can count. -/
theorem accepted_iff_lt : r.Accepted ↔ r.astats.length < 65536 := by
  constructor
  · rintro ⟨m, hm, -⟩
    by_contra hge
    rw [r.xmetaDecode_bytes_of_le (Nat.le_of_not_lt hge)] at hm
    cases hm
  · intro hlt
    exact ⟨r.kept, r.xmetaDecode_bytes hlt, r.toInt_astatSize, rfl⟩

def manyAccesses : StockRecord where
  stock := ⟨1, 0, 0, 0, 0, 0⟩
  bitmap := []
  astats := replicate 65536 XmetaAStat.zero
  bufferSize_pos := by decide
  fileSize_nonneg := by decide
  nblocks_le := by decide
  bitmap_length := rfl
  astats_lt := by
    rw [length_replicate]
    omega

/-- Its counter starts over before the count is reached. -/
theorem manyAccesses_foreign : xmetaDecode manyAccesses.bytes = .error .foreign ∧
    ¬ manyAccesses.Accepted := by
  have hforeign : xmetaDecode manyAccesses.bytes = .error .foreign :=
    manyAccesses.xmetaDecode_bytes_of_le (Nat.le_of_eq length_replicate.symm)
  refine ⟨hforeign, ?_⟩
  rintro ⟨m, hm, -⟩
  rw [hforeign] at hm
  cases hm

end StockRecord

end BrixCache

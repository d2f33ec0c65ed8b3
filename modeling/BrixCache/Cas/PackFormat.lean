import BrixCache.Lib.FrameLog
import BrixCache.Lib.Wire
import BrixCache.Core.Ascii

/-!
# The records of the packed store

The two record formats of `shared/cache/cas_pack.c`: the record of a segment file
(`cas_pack_format.h`) and the record of the journal. Both have a fixed header with
the length of the key in it; a segment record goes on with key and data, a
journal record with the key alone. The checksum is `crc32` of zlib, taken as it
comes: nothing here depends on what it computes.
-/

namespace BrixCache

open List

/-- The `n` bytes at `off`, as a number: `get32`, `get64` and the two bytes of a
key length. -/
def packField (bs : Bytes) (off n : ℕ) : ℕ := leNat ((bs.drop off).take n)

variable {bs rest : Bytes} {n : ℕ} {r : SegRec}

theorem packField_append {off : ℕ} (h : off + n ≤ bs.length) :
    packField (bs ++ rest) off n = packField bs off n := by
  rw [packField, packField, drop_append_of_le_length (by omega),
    take_append_of_le_length (by rw [length_drop]; omega)]

theorem packField_skip {pre : Bytes} {off : ℕ} (h : pre.length ≤ off) :
    packField (pre ++ bs) off n = packField bs (off - pre.length) n := by
  rw [packField, packField, drop_append, drop_eq_nil_of_le h, nil_append]

theorem packField_leBytes {x : ℕ} (rest : Bytes) (h : x < 256 ^ n) :
    packField (leBytes n x ++ rest) 0 n = x := by
  have htake : (leBytes n x ++ rest).take n = leBytes n x := by
    rw [take_append_of_le_length (Nat.le_of_eq (leBytes_length n x).symm),
      take_of_length_le (Nat.le_of_eq (leBytes_length n x))]
  rw [packField, drop_zero, htake, leNat_leBytes_of_lt h]

/-- `crc32` of zlib. -/
def crc32 (bytes : Bytes) : UInt32 :=
  let bit (crc : UInt32) : UInt32 := (crc >>> 1) ^^^ (0xEDB88320 &&& (0 - (crc &&& 1)))
  bytes.foldl (fun crc b => Nat.repeat bit 8 (crc ^^^ b.toUInt32)) 0xFFFFFFFF ^^^ 0xFFFFFFFF

def segMagic : ℕ := 0x31535842

def idxMagic : ℕ := 0x31495842

def segHdr : ℕ := 28

def idxHdr : ℕ := 40

def packKmax : ℕ := 128

def opPut : UInt8 := 1

def opDel : UInt8 := 2

/-- A key that a record can hold -/
def PackKey (key : Bytes) : Prop := 0 < key.length ∧ key.length ≤ packKmax

/-! ## Segment records -/

/-- A record of a segment: one object, stored raw (`fmt` 0) or compressed (1). -/
structure SegRec : Type where
  key : Bytes
  fmt : UInt8
  /-- plaintext length -/
  raw : ℕ
  data : Bytes
  deriving DecidableEq

/-- `brix_pack_seg_encode` up to the key. -/
def segHeader (klen : ℕ) (fmt : UInt8) (crc stored raw : ℕ) : Bytes :=
  leBytes 4 segMagic ++ leBytes 2 klen ++ [fmt, 0] ++ leBytes 4 crc ++ leBytes 8 stored ++
    leBytes 8 raw

/-- The bytes `append_record` writes. -/
def SegRec.encode (crc : Bytes → UInt32) (r : SegRec) : Bytes :=
  segHeader r.key.length r.fmt (crc r.data).toNat r.data.length r.raw ++ (r.key ++ r.data)

/-- The header fields `tail_record_decode` reads. -/
structure TailRecord : Type where
  klen : ℕ
  fmt : UInt8
  crc : ℕ
  stored : ℕ
  raw : ℕ

/-- `tail_record_decode`, on the bytes from the record's position to the end of
the file. -/
def tailRecordDecode (bs : Bytes) : Option TailRecord :=
  if bs.length < segHdr then none
  else
    let record : TailRecord :=
      { klen := packField bs 4 2
        fmt := bs.getD 6 0
        crc := packField bs 8 4
        stored := packField bs 12 8
        raw := packField bs 20 8 }
    if packField bs 0 4 ≠ segMagic ∨ record.klen = 0 ∨ packKmax < record.klen ∨
        1 < record.fmt ∨ bs.length < segHdr + record.klen ∨
        bs.length - (segHdr + record.klen) < record.stored then none
    else some record

/-- The record at the front: `tail_record_decode`, then `tail_payload_valid`. -/
def segDecode (crc : Bytes → UInt32) (bs : Bytes) : Option (SegRec × Bytes) :=
  match tailRecordDecode bs with
  | none => none
  | some record =>
    let data := (bs.drop (segHdr + record.klen)).take record.stored
    if (crc data).toNat = record.crc then
      some (⟨(bs.drop segHdr).take record.klen, record.fmt, record.raw, data⟩,
        bs.drop (segHdr + record.klen + record.stored))
    else none

/-- The fields fit their places in the header. -/
structure SegRec.Fits (r : SegRec) : Prop where
  key : PackKey r.key
  fmt : r.fmt ≤ 1
  data : r.data.length < 2 ^ 63
  raw : r.raw < 2 ^ 63

variable {crc : Bytes → UInt32}

@[simp] theorem segHeader_length (klen : ℕ) (fmt : UInt8) (crc stored raw : ℕ) :
    (segHeader klen fmt crc stored raw).length = segHdr := by
  simp [segHeader, segHdr]

theorem SegRec.encode_length (r : SegRec) :
    (r.encode crc).length = segHdr + r.key.length + r.data.length := by
  rw [SegRec.encode, length_append, segHeader_length, length_append]
  omega

theorem segHeader_fields (hr : r.Fits) (crcv : UInt32) (rest : Bytes) :
    let bs := segHeader r.key.length r.fmt crcv.toNat r.data.length r.raw ++ rest
    packField bs 0 4 = segMagic ∧ packField bs 4 2 = r.key.length ∧ bs.getD 6 0 = r.fmt ∧
      packField bs 8 4 = crcv.toNat ∧ packField bs 12 8 = r.data.length ∧
      packField bs 20 8 = r.raw := by
  have hkey := hr.key.2
  have hdata := hr.data
  have hraw := hr.raw
  have hcrc := crcv.toNat_lt
  rw [packKmax] at hkey
  have hmagic : segMagic < 256 ^ 4 := by decide
  simp only [segHeader, append_assoc]
  refine ⟨packField_leBytes _ hmagic, ?_, ?_, ?_, ?_, ?_⟩
  · rw [packField_skip (by simp), leBytes_length, packField_leBytes _ (by omega)]
  · simp [getElem?_append]
  · simp (disch := simp) only [packField_skip, leBytes_length, length_cons, length_nil]
    exact packField_leBytes _ hcrc
  · simp (disch := simp) only [packField_skip, leBytes_length, length_cons, length_nil]
    exact packField_leBytes _ (by omega)
  · simp (disch := simp) only [packField_skip, leBytes_length, length_cons, length_nil]
    exact packField_leBytes _ (by omega)

theorem segDecode_encode (hr : r.Fits) (rest : Bytes) :
    segDecode crc (r.encode crc ++ rest) = some (r, rest) := by
  obtain ⟨hmagic, hklen, hfmt, hcrc, hstored, hraw⟩ :=
    segHeader_fields hr (crc r.data) (r.key ++ (r.data ++ rest))
  have hbs : r.encode crc ++ rest = segHeader r.key.length r.fmt (crc r.data).toNat
      r.data.length r.raw ++ (r.key ++ (r.data ++ rest)) := by
    simp only [SegRec.encode, append_assoc]
  have hlen : (r.encode crc ++ rest).length = segHdr + r.key.length + r.data.length + rest.length := by
    rw [length_append, SegRec.encode_length]
  rw [← hbs] at hmagic hklen hfmt hcrc hstored hraw
  have htail : tailRecordDecode (r.encode crc ++ rest) =
      some ⟨r.key.length, r.fmt, (crc r.data).toNat, r.data.length, r.raw⟩ := by
    rw [tailRecordDecode, if_neg (by omega)]
    simp only [hmagic, hklen, hfmt, hcrc, hstored, hraw]
    have hpos := hr.key.1
    have hmax := hr.key.2
    have hone : ¬1 < r.fmt := UInt8.not_lt.mpr hr.fmt
    rw [if_neg]
    simp only [not_or]
    exact ⟨fun h => h rfl, by omega, by omega, hone, by omega, by omega⟩
  have hdrop : (r.encode crc ++ rest).drop segHdr = r.key ++ (r.data ++ rest) := by
    rw [hbs, drop_left' (segHeader_length _ _ _ _ _)]
  have hkey : (r.encode crc ++ rest).drop (segHdr + r.key.length) = r.data ++ rest := by
    rw [← drop_drop, hdrop, drop_left]
  have hdata : (r.encode crc ++ rest).drop (segHdr + r.key.length + r.data.length) = rest := by
    rw [← drop_drop, hkey, drop_left]
  rw [segDecode, htail]
  simp only [hdrop, hkey, hdata, take_left, if_true]

theorem segDecode_short (hr : r.Fits) {front back : Bytes}
    (hsplit : r.encode crc = front ++ back) (hback : back ≠ []) : segDecode crc front = none := by
  have hlen := congrArg length hsplit
  rw [SegRec.encode_length, length_append] at hlen
  have hpos := length_pos_iff.mpr hback
  have htail : tailRecordDecode front = none := by
    rw [tailRecordDecode]
    split
    · rfl
    · rename_i hhdr
      obtain ⟨-, hklen, -, -, hstored, -⟩ :=
        segHeader_fields hr (crc r.data) (r.key ++ r.data)
      rw [← SegRec.encode, hsplit, packField_append (by rw [segHdr] at hhdr; omega)] at hklen hstored
      simp only [hklen, hstored]
      rw [if_pos]
      omega
  rw [segDecode, htail]

theorem segDecode_lt (h : segDecode crc bs = some (r, rest)) : rest.length < bs.length := by
  rw [segDecode] at h
  split at h
  · cases h
  · rename_i record htail
    simp only at h
    split at h
    · cases h
      rw [tailRecordDecode] at htail
      split at htail
      · cases htail
      · rename_i hhdr
        rw [length_drop]
        rw [segHdr] at hhdr ⊢
        omega
    · cases h

/-- Segment files as logs. -/
def segFraming (crc : Bytes → UInt32) : Framing SegRec where
  encode := SegRec.encode crc
  decode := segDecode crc
  Fits := SegRec.Fits
  decode_encode _ rest hr := segDecode_encode hr rest
  decode_short _ _ _ hr := segDecode_short hr
  decode_lt _ _ _ := segDecode_lt

/-! ## Journal records -/

/-- Where an object stands. -/
structure PackLoc : Type where
  seg : ℕ
  off : ℕ
  fmt : UInt8
  stored : ℕ
  raw : ℕ
  deriving DecidableEq

/-- A record of the journal: an operation on a key, and the key's place. -/
structure IdxRec : Type where
  op : UInt8
  key : Bytes
  loc : PackLoc
  deriving DecidableEq

/-- Where the record of the object ends in its segment: `replay_record_t`'s `end`. -/
def IdxRec.fin (r : IdxRec) : ℕ := r.loc.off + (segHdr + r.key.length) + r.loc.stored

/-- The header of a journal record with a value in its checksum field. -/
def idxHeader (r : IdxRec) (crc : ℕ) : Bytes :=
  leBytes 4 idxMagic ++ [r.op, r.loc.fmt] ++ leBytes 2 r.key.length ++ leBytes 4 r.loc.seg ++
    leBytes 4 crc ++ leBytes 8 r.loc.off ++ leBytes 8 r.loc.stored ++ leBytes 8 r.loc.raw

/-- `idx_build`: the checksum is taken with its own field zero. -/
def IdxRec.encode (crc : Bytes → UInt32) (r : IdxRec) : Bytes :=
  idxHeader r (crc (idxHeader r 0 ++ r.key)).toNat ++ r.key

/-- `replay_record_decode`, on the bytes from the record's position to the end of
the journal. -/
def idxDecode (crc : Bytes → UInt32) (bs : Bytes) : Option (IdxRec × Bytes) :=
  if bs.length < idxHdr then none
  else
    let klen := packField bs 6 2
    if packField bs 0 4 ≠ idxMagic ∨ klen = 0 ∨ packKmax < klen ∨ bs.length - idxHdr < klen then none
    else
      let zeroed := bs.take 12 ++ leBytes 4 0 ++ (bs.drop 16).take (idxHdr - 16 + klen)
      if (crc zeroed).toNat ≠ packField bs 12 4 then none
      else
        let r : IdxRec :=
          { op := bs.getD 4 0
            key := (bs.drop idxHdr).take klen
            loc :=
              { seg := packField bs 8 4
                off := packField bs 16 8
                fmt := bs.getD 5 0
                stored := packField bs 24 8
                raw := packField bs 32 8 } }
        -- the end must not overflow
        if 2 ^ 64 ≤ r.loc.off + (segHdr + klen) ∨
            2 ^ 64 ≤ r.loc.off + (segHdr + klen) + r.loc.stored then none
        else some (r, bs.drop (idxHdr + klen))

/-- The fields fit their places, and the end does not overflow. -/
structure IdxRec.Fits (r : IdxRec) : Prop where
  key : PackKey r.key
  seg : r.loc.seg < 2 ^ 32
  raw : r.loc.raw < 2 ^ 64
  fin : r.fin < 2 ^ 64

@[simp] theorem idxHeader_length (r : IdxRec) (crc : ℕ) : (idxHeader r crc).length = idxHdr := by
  simp [idxHeader, idxHdr]

theorem IdxRec.encode_length (r : IdxRec) : (r.encode crc).length = idxHdr + r.key.length := by
  rw [IdxRec.encode, length_append, idxHeader_length]

theorem idxHeader_fields {r : IdxRec} (hr : r.Fits) (crcv : UInt32) (rest : Bytes) :
    let bs := idxHeader r crcv.toNat ++ rest
    packField bs 0 4 = idxMagic ∧ bs.getD 4 0 = r.op ∧ bs.getD 5 0 = r.loc.fmt ∧
      packField bs 6 2 = r.key.length ∧ packField bs 8 4 = r.loc.seg ∧
      packField bs 12 4 = crcv.toNat ∧ packField bs 16 8 = r.loc.off ∧
      packField bs 24 8 = r.loc.stored ∧ packField bs 32 8 = r.loc.raw := by
  have hkey := hr.key.2
  have hseg := hr.seg
  have hraw := hr.raw
  have hfin := hr.fin
  have hcrc := crcv.toNat_lt
  rw [packKmax] at hkey
  rw [IdxRec.fin] at hfin
  have hmagic : idxMagic < 256 ^ 4 := by decide
  simp only [idxHeader, append_assoc]
  refine ⟨packField_leBytes _ hmagic, ?_, ?_, ?_, ?_, ?_, ?_, ?_, ?_⟩
  · simp
  · simp [getElem?_append]
  all_goals
    simp (disch := simp) only [packField_skip, leBytes_length, length_cons, length_nil]
    exact packField_leBytes _ (by omega)

theorem idxHeader_zeroed (r : IdxRec) (crcv : ℕ) (rest : Bytes) :
    let bs := idxHeader r crcv ++ (r.key ++ rest)
    bs.take 12 ++ leBytes 4 0 ++ (bs.drop 16).take (idxHdr - 16 + r.key.length) =
      idxHeader r 0 ++ r.key := by
  let head := leBytes 4 idxMagic ++ [r.op, r.loc.fmt] ++ leBytes 2 r.key.length ++
    leBytes 4 r.loc.seg
  let tail := leBytes 8 r.loc.off ++ leBytes 8 r.loc.stored ++ leBytes 8 r.loc.raw ++ r.key
  have hhead : head.length = 12 := by simp [head]
  have htail : tail.length = idxHdr - 16 + r.key.length := by simp [tail, idxHdr]; omega
  have hbs : idxHeader r crcv ++ (r.key ++ rest) = head ++ (leBytes 4 crcv ++ (tail ++ rest)) := by
    simp only [idxHeader, head, tail, append_assoc]
  have hfield : (head ++ leBytes 4 crcv).length = 16 := by
    rw [length_append, hhead, leBytes_length]
  have hdrop : (head ++ (leBytes 4 crcv ++ (tail ++ rest))).drop 16 = tail ++ rest := by
    rw [← append_assoc, drop_left' hfield]
  simp only
  rw [hbs, take_left' hhead, hdrop, take_left' htail]
  simp only [idxHeader, head, tail, append_assoc]

theorem idxDecode_encode {r : IdxRec} (hr : r.Fits) (rest : Bytes) :
    idxDecode crc (r.encode crc ++ rest) = some (r, rest) := by
  have hbs : r.encode crc ++ rest =
      idxHeader r (crc (idxHeader r 0 ++ r.key)).toNat ++ (r.key ++ rest) := by
    rw [IdxRec.encode, append_assoc]
  obtain ⟨hmagic, hop, hfmt, hklen, hseg, hcrc, hoff, hstored, hraw⟩ :=
    idxHeader_fields hr (crc (idxHeader r 0 ++ r.key)) (r.key ++ rest)
  have hzero := idxHeader_zeroed r (crc (idxHeader r 0 ++ r.key)).toNat rest
  have hlen : (r.encode crc ++ rest).length = idxHdr + r.key.length + rest.length := by
    rw [length_append, IdxRec.encode_length]
  simp only at hzero
  rw [← hbs] at hmagic hop hfmt hklen hseg hcrc hoff hstored hraw hzero
  have hkey : (r.encode crc ++ rest).drop idxHdr = r.key ++ rest := by
    rw [hbs, drop_left' (idxHeader_length _ _)]
  have hdrop : (r.encode crc ++ rest).drop (idxHdr + r.key.length) = rest := by
    rw [← drop_drop, hkey, drop_left]
  have hpos := hr.key.1
  have hmax := hr.key.2
  have hfin := hr.fin
  rw [IdxRec.fin] at hfin
  rw [idxDecode, if_neg (by omega)]
  simp only [hmagic, hop, hfmt, hklen, hseg, hcrc, hoff, hstored, hraw, hzero, hkey, hdrop,
    take_left]
  rw [if_neg, if_neg (not_not.mpr rfl), if_neg (by omega)]
  simp only [not_or]
  exact ⟨fun h => h rfl, by omega, by omega, by omega⟩

theorem idxDecode_short {r : IdxRec} (hr : r.Fits) {front back : Bytes}
    (hsplit : r.encode crc = front ++ back) (hback : back ≠ []) : idxDecode crc front = none := by
  have hlen := congrArg length hsplit
  rw [IdxRec.encode_length, length_append] at hlen
  have hpos := length_pos_iff.mpr hback
  rw [idxDecode]
  split
  · rfl
  · rename_i hhdr
    obtain ⟨-, -, -, hklen, -⟩ := idxHeader_fields hr (crc (idxHeader r 0 ++ r.key)) r.key
    rw [← IdxRec.encode, hsplit, packField_append (by rw [idxHdr] at hhdr; omega)] at hklen
    simp only [hklen]
    rw [if_pos]
    omega

theorem idxDecode_lt {r : IdxRec}
    (h : idxDecode crc bs = some (r, rest)) : rest.length < bs.length := by
  rw [idxDecode] at h
  split at h
  · cases h
  · rename_i hhdr
    simp only at h
    split at h
    · cases h
    · split at h
      · cases h
      · split at h
        · cases h
        · cases h
          rw [length_drop]
          rw [idxHdr] at hhdr ⊢
          omega

/-- The journal as a log. -/
def idxFraming (crc : Bytes → UInt32) : Framing IdxRec where
  encode := IdxRec.encode crc
  decode := idxDecode crc
  Fits := IdxRec.Fits
  decode_encode _ rest hr := idxDecode_encode hr rest
  decode_short _ _ _ hr := idxDecode_short hr
  decode_lt _ _ _ := idxDecode_lt

end BrixCache

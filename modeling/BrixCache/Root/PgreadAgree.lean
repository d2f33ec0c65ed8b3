import BrixCache.Core.Pgio
import BrixCache.Lib.Memory
import BrixCache.Core.Ascii
import Mathlib.Algebra.Ring.Nat

/-!
# Reading pages into the wire buffer

`protocols/root/read/pgread_encode.c`: a page-mode read goes straight into the buffer that is sent,
each page behind a gap for its CRC-32c, which is computed in place. The buffer is a memory, a
vectored read names addresses of it, and a driver's read gives the bytes that it delivers to them.
Offsets are as large as they need to be; an `off_t` that would pass its end is a request that no
driver serves.
-/

namespace BrixCache

open Memory

/-! ## A batch of pages -/

def pgreadMaxIov : ℕ := 512

/-- `struct iovec`, with an address of the buffer -/
structure PgIovec : Type where
  base : ℕ
  len : ℕ
  deriving DecidableEq

/-- The bytes that a list of targets takes -/
def iovBytes (iov : List PgIovec) : ℕ := (iov.map PgIovec.len).sum

/-- The length of the page at `cur`, with so many bytes left -/
def pgreadPageLen (cur remaining : ℕ) : ℕ :=
  let len := pgPageSZ - cur % pgPageSZ
  if remaining < len then remaining else len

/-- `brix_pgread_layout_batch` with room for so many more pages: the targets, each behind the gap
for its checksum, and the cursor behind them -/
def pgreadLayout (offset rlen : ℕ) : ℕ → ℕ → ℕ → List PgIovec × ℕ
  | 0, _, o => ([], o)
  | room + 1, remaining, o =>
    if remaining = 0 then ([], o)
    else
      let len := pgreadPageLen (offset + (rlen - remaining)) remaining
      let rest := pgreadLayout offset rlen room (remaining - len) (o + pgCksz + len)
      (⟨o + pgCksz, len⟩ :: rest.1, rest.2)

/-- A vectored read of bytes into their targets -/
def pgScatter : List PgIovec → Bytes → (ℕ → UInt8) → ℕ → UInt8
  | [], _, m => m
  | v :: rest, bs, m => pgScatter rest (bs.drop v.len) (store m v.base (bs.take v.len))

/-- `brix_pgread_crc_batch`: the buffer, the encoded bytes, and whether a short page ended the
file -/
def pgreadCrcBatch : List PgIovec → ℕ → (ℕ → UInt8) → ℕ → (ℕ → UInt8) × ℕ × Bool
  | [], _, m, outSize => (m, outSize, false)
  | v :: rest, got, m, outSize =>
    let al := if got < v.len then got else v.len
    if al = 0 then (m, outSize, false)
    else
      let m := store m (v.base - pgCksz) (htonl (crc32cValue (load m v.base al)))
      if al < v.len then (m, outSize + (pgCksz + al), true)
      else pgreadCrcBatch rest (got - al) m (outSize + (pgCksz + al))

/-! ## The encoders -/

/-- The vectored reads of a handle's driver, blocking and of what is in the page cache: the bytes
delivered, or an error number -/
structure PgDriver : Type where
  preadv : ℕ → List PgIovec → Except ℕ Bytes
  preadv2 : ℕ → List PgIovec → Except ℕ Bytes

/-- What an encoder leaves: the buffer, the encoded bytes, the file bytes read (none is -1), and
the error number -/
structure PgreadEncoded : Type where
  mem : ℕ → UInt8
  outSize : ℕ
  nread : Option ℕ
  ioErrno : ℕ

def eagain : ℕ := 11

/-- The loop of `brix_pgread_read_encode_inplace`, with room for so many more batches -/
def pgreadEncodeLoop (d : PgDriver) (nowait : Bool) (offset rlen : ℕ) :
    ℕ → ℕ → ℕ → ℕ → ℕ → (ℕ → UInt8) → PgreadEncoded
  | 0, _, _, total, outSize, m => ⟨m, outSize, some total, 0⟩
  | batches + 1, remaining, o, total, outSize, m =>
    if remaining = 0 then ⟨m, outSize, some total, 0⟩
    else
      let batch := pgreadLayout offset rlen pgreadMaxIov remaining o
      let bytes := iovBytes batch.1
      let batchOff := offset + (rlen - remaining)
      match (if nowait then d.preadv2 else d.preadv) batchOff batch.1 with
      | .error e => if nowait then ⟨m, 0, some 0, e⟩ else ⟨m, 0, none, e⟩
      | .ok bs =>
        let m := pgScatter batch.1 bs m
        -- what is not resident is left to a blocking read
        if nowait ∧ bs.length < bytes then ⟨m, 0, some 0, eagain⟩
        else
          let crc := pgreadCrcBatch batch.1 bs.length m outSize
          if crc.2.2 ∨ bs.length < bytes then ⟨crc.1, crc.2.1, some (total + bs.length), 0⟩
          else
            pgreadEncodeLoop d nowait offset rlen batches (remaining - bytes) batch.2
              (total + bs.length) crc.2.1 crc.1

/-- `brix_pgread_read_encode_inplace`, with the buffer at address `out` -/
def brixPgreadReadEncodeInplace (d : PgDriver) (nowait : Bool) (offset rlen out : ℕ)
    (m : ℕ → UInt8) : PgreadEncoded :=
  pgreadEncodeLoop d nowait offset rlen rlen rlen out 0 0 m

def brixPgreadLayoutIov (offset rlen out maxIov : ℕ) : Option (List PgIovec) :=
  let batch := pgreadLayout offset rlen pgreadMaxIov rlen out
  if iovBytes batch.1 ≠ rlen ∨ maxIov < batch.1.length then none else some batch.1

/-- The loop of `brix_pgread_crc_encode_delivered`, with room for so many more batches -/
def pgreadCrcLoop (offset rlen : ℕ) : ℕ → ℕ → ℕ → ℕ → ℕ → (ℕ → UInt8) → (ℕ → UInt8) × ℕ
  | 0, _, _, _, outSize, m => (m, outSize)
  | batches + 1, remaining, o, got, outSize, m =>
    if 0 < remaining ∧ 0 < got then
      let batch := pgreadLayout offset rlen pgreadMaxIov remaining o
      let bytes := iovBytes batch.1
      let use := if got < bytes then got else bytes
      let crc := pgreadCrcBatch batch.1 use m outSize
      if crc.2.2 then (crc.1, crc.2.1)
      else pgreadCrcLoop offset rlen batches (remaining - bytes) batch.2 (got - use) crc.2.1 crc.1
    else (m, outSize)

/-- `brix_pgread_crc_encode_delivered`, with the buffer at address `out` -/
def brixPgreadCrcEncodeDelivered (offset rlen out delivered : ℕ) (m : ℕ → UInt8) :
    (ℕ → UInt8) × ℕ :=
  pgreadCrcLoop offset rlen rlen rlen out delivered 0 m

end BrixCache

/-! ## The encoders agree -/

namespace BrixCache

open Memory List

/-! ### Pages in the buffer -/

/-- Pages one behind the other from an address on, each behind its gap -/
def PagesAt : ℕ → List PgIovec → Prop
  | _, [] => True
  | o, v :: rest => v.base = o + pgCksz ∧ 0 < v.len ∧ PagesAt (v.base + v.len) rest

/-- The vectors' memory holds the bytes. -/
def PagesHold : List PgIovec → Bytes → (ℕ → UInt8) → Prop
  | [], _, _ => True
  | v :: rest, bs, m =>
    load m v.base (bs.take v.len).length = bs.take v.len ∧ PagesHold rest (bs.drop v.len) m

/-- The wire form of bytes in pages -/
def encodePages : List PgIovec → Bytes → Bytes
  | [], _ => []
  | v :: rest, bs =>
    if bs = [] then []
    else htonl (crc32cValue (bs.take v.len)) ++ bs.take v.len ++ encodePages rest (bs.drop v.len)

@[simp] theorem encodePages_nil (pages : List PgIovec) : encodePages pages [] = [] := by
  cases pages <;> rfl

@[simp] theorem iovBytes_nil : iovBytes [] = 0 := rfl

@[simp] theorem iovBytes_cons (v : PgIovec) (rest : List PgIovec) :
    iovBytes (v :: rest) = v.len + iovBytes rest := by simp [iovBytes]

variable {pages : List PgIovec} {d : PgDriver}

theorem encodePages_take {o : ℕ} (hp : PagesAt o pages) (bs : Bytes) :
    encodePages pages (bs.take (iovBytes pages)) = encodePages pages bs := by
  induction pages generalizing o bs with
  | nil => rfl
  | cons v rest ih =>
    obtain ⟨-, hlen, hrest⟩ := hp
    cases bs with
    | nil => rw [take_nil]
    | cons b bs =>
      have hne : (b :: bs).take (iovBytes (v :: rest)) ≠ [] := by
        rw [iovBytes_cons]
        intro h
        have := congrArg length h
        simp at this
        omega
      have htake : ((b :: bs).take (iovBytes (v :: rest))).take v.len = (b :: bs).take v.len := by
        rw [take_take, iovBytes_cons, Nat.min_eq_left (Nat.le_add_right _ _)]
      have hdrop : ((b :: bs).take (iovBytes (v :: rest))).drop v.len =
          ((b :: bs).drop v.len).take (iovBytes rest) := by
        rw [drop_take, iovBytes_cons, Nat.add_sub_cancel_left]
      rw [encodePages, if_neg hne, htake, hdrop, ih hrest, encodePages, if_neg (by simp)]

theorem length_encodePages {o : ℕ} (hp : PagesAt o pages)
    {bs : Bytes} (hbs : bs.length = iovBytes pages) :
    (encodePages pages bs).length = pgCksz * pages.length + iovBytes pages := by
  induction pages generalizing o bs with
  | nil => simp [encodePages]
  | cons v rest ih =>
    obtain ⟨-, hlen, hrest⟩ := hp
    rw [iovBytes_cons] at hbs
    have hne : bs ≠ [] := by
      rintro rfl
      simp at hbs
      omega
    have hdrop : (bs.drop v.len).length = iovBytes rest := by
      rw [length_drop]
      omega
    have htail := ih hrest hdrop
    rw [encodePages, if_neg hne, length_append, length_append, htail, htonl_length,
      length_take, iovBytes_cons, length_cons, pgCksz]
    omega

/-! ### One batch -/

theorem pgScatter_of_lt {o : ℕ} (hp : PagesAt o pages) (bs : Bytes)
    (m : ℕ → UInt8) {x : ℕ} (hx : x < o) : pgScatter pages bs m x = m x := by
  induction pages generalizing o bs m with
  | nil => rfl
  | cons v rest ih =>
    obtain ⟨hbase, -, hrest⟩ := hp
    rw [pgScatter, ih hrest _ _ (by omega), store_of_lt _ _ (by omega)]

theorem pgScatter_hold {o : ℕ} (hp : PagesAt o pages) (bs : Bytes)
    (m : ℕ → UInt8) : PagesHold pages bs (pgScatter pages bs m) := by
  induction pages generalizing o bs m with
  | nil => trivial
  | cons v rest ih =>
    obtain ⟨-, -, hrest⟩ := hp
    refine ⟨?_, ih hrest _ _⟩
    have hkeep : load (pgScatter rest (bs.drop v.len) (store m v.base (bs.take v.len))) v.base
        (bs.take v.len).length = load (store m v.base (bs.take v.len)) v.base
          (bs.take v.len).length := by
      refine load_congr fun x _ hx => pgScatter_of_lt hrest _ _ ?_
      rw [length_take] at hx
      omega
    rw [pgScatter, hkeep, load_store]

theorem PagesHold.congr {o : ℕ} (hp : PagesAt o pages) {bs : Bytes}
    {m m' : ℕ → UInt8} (h : PagesHold pages bs m) (heq : ∀ x, o ≤ x → m' x = m x) :
    PagesHold pages bs m' := by
  induction pages generalizing o bs with
  | nil => trivial
  | cons v rest ih =>
    obtain ⟨hbase, -, hrest⟩ := hp
    obtain ⟨hhead, htail⟩ := h
    refine ⟨?_, ih hrest htail fun x hx => heq x (by omega)⟩
    rw [← hhead, length_load]
    exact load_congr fun x hx _ => heq x (by omega)

/-- What the checksums of a batch leave, from `o` on -/
structure PagesEncoded (o outSize : ℕ) (m : ℕ → UInt8) (wire : Bytes)
    (r : (ℕ → UInt8) × ℕ × Bool) : Prop where
  before : ∀ x < o, r.1 x = m x
  holds : load r.1 o wire.length = wire
  size : r.2.1 = outSize + wire.length

/-- A batch of pages in the buffer is the encoder's bytes. -/
theorem pgreadCrcBatch_encoded {o : ℕ} (hp : PagesAt o pages)
    {bs : Bytes} {m : ℕ → UInt8} (hm : PagesHold pages bs m) (outSize : ℕ) :
    PagesEncoded o outSize m (encodePages pages bs) (pgreadCrcBatch pages bs.length m outSize) ∧
      ((pgreadCrcBatch pages bs.length m outSize).2.2 = true → bs.length < iovBytes pages) := by
  induction pages generalizing o bs m outSize with
  | nil => exact ⟨⟨fun _ _ => rfl, rfl, rfl⟩, by simp [pgreadCrcBatch]⟩
  | cons v rest ih =>
    obtain ⟨hbase, hlen, hrest⟩ := hp
    obtain ⟨hhead, htail⟩ := hm
    rw [pgreadCrcBatch, encodePages]
    by_cases hbs : bs = []
    · subst hbs
      exact ⟨⟨fun _ _ => by simp, by simp [load], by simp⟩, by simp⟩
    · have hpos : 0 < bs.length := length_pos_iff.mpr hbs
      have hal : (if bs.length < v.len then bs.length else v.len) = (bs.take v.len).length := by
        rw [length_take]
        split <;> omega
      have hne : (bs.take v.len).length ≠ 0 := by
        rw [length_take]
        omega
      have hgap : v.base - pgCksz = o := by omega
      simp only [hal, hne, hbs, hhead, hgap, if_false]
      -- the page with its checksum in the gap
      generalize hm₁ : store m o (htonl (crc32cValue (bs.take v.len))) = m₁
      have hbefore : ∀ x < o, m₁ x = m x := fun x hx => by rw [← hm₁, store_of_lt _ _ hx]
      have hbehind : ∀ x, v.base ≤ x → m₁ x = m x := fun x hx => by
        rw [← hm₁, store_of_ge _ (by rw [htonl_length]; omega)]
      have hcrc : load m₁ o pgCksz = htonl (crc32cValue (bs.take v.len)) := by
        rw [← hm₁, ← htonl_length (crc32cValue (bs.take v.len)), load_store]
      have hdata : load m₁ v.base (bs.take v.len).length = bs.take v.len := by
        rw [load_congr fun x hx _ => hbehind x hx, hhead]
      by_cases hshort : (bs.take v.len).length < v.len
      · have hdrop : bs.drop v.len = [] := by
          rw [length_take] at hshort
          exact drop_eq_nil_of_le (by omega)
        rw [if_pos hshort, hdrop, encodePages_nil, append_nil]
        refine ⟨⟨hbefore, ?_, ?_⟩, fun _ => ?_⟩
        · rw [length_append, htonl_length, load_add, hcrc, ← hbase, hdata]
        · rw [length_append, htonl_length]
        · rw [length_take] at hshort
          rw [iovBytes_cons]
          omega
      · have hfull : (bs.take v.len).length = v.len := by
          rw [length_take] at hshort ⊢
          omega
        have hleft : bs.length - v.len = (bs.drop v.len).length := length_drop.symm
        rw [if_neg hshort, hfull, hleft]
        rw [hfull] at hdata
        obtain ⟨⟨hb, hw, hs⟩, heof⟩ := ih hrest (htail.congr hrest fun x hx => hbehind x (by omega))
          (outSize + (pgCksz + v.len))
        have hkeep : load (pgreadCrcBatch rest (bs.drop v.len).length m₁
            (outSize + (pgCksz + v.len))).1 o (pgCksz + v.len) = load m₁ o (pgCksz + v.len) :=
          load_congr fun x _ hx => hb x (by omega)
        refine ⟨⟨fun x hx => ?_, ?_, ?_⟩, fun he => ?_⟩
        · rw [hb x (by omega), hbefore x hx]
        · rw [length_append, length_append, htonl_length, hfull, load_add, hkeep,
            load_add, hcrc, ← hbase, hdata]
          have hnext : v.base - pgCksz + (pgCksz + v.len) = v.base + v.len := by omega
          rw [← hgap, hnext, hw]
        · rw [hs, length_append, length_append, htonl_length, hfull, Nat.add_assoc]
        · have := heof he
          rw [length_drop] at this
          rw [iovBytes_cons]
          omega

/-! ### The layout -/

theorem pgreadPageLen_le (cur remaining : ℕ) : pgreadPageLen cur remaining ≤ remaining := by
  simp only [pgreadPageLen]
  split <;> omega

theorem pgreadPageLen_pos {remaining : ℕ} (h : 0 < remaining) (cur : ℕ) :
    0 < pgreadPageLen cur remaining := by
  have hmod : cur % pgPageSZ < pgPageSZ := Nat.mod_lt _ (by decide)
  simp only [pgreadPageLen]
  split <;> omega

theorem pgDataN_eq_pageLen {cur remaining n : ℕ} (h : n ≤ remaining) :
    pgDataN n cur = if n < pgreadPageLen cur remaining then n else pgreadPageLen cur remaining := by
  have hb : pgToBoundary (cur : ℤ) = pgPageSZ - cur % pgPageSZ := by
    rw [pgToBoundary, pgPageSZ]
    omega
  have hlen : pgreadPageLen cur remaining =
      if remaining < pgPageSZ - cur % pgPageSZ then remaining else pgPageSZ - cur % pgPageSZ := rfl
  rw [pgDataN, hb]
  generalize pgreadPageLen cur remaining = len at hlen ⊢
  by_cases hr : remaining < pgPageSZ - cur % pgPageSZ
  · rw [if_pos hr] at hlen
    subst hlen
    rw [if_pos (by omega)]
    split <;> omega
  · rw [if_neg hr] at hlen
    rw [hlen]

/-- The batch of a layout: its pages follow each other up to the cursor, with no more bytes than
are left, and some if there are any. -/
theorem pgreadLayout_spec (offset rlen room remaining o : ℕ) :
    PagesAt o (pgreadLayout offset rlen room remaining o).1 ∧
      (pgreadLayout offset rlen room remaining o).2 =
        o + pgCksz * (pgreadLayout offset rlen room remaining o).1.length +
          iovBytes (pgreadLayout offset rlen room remaining o).1 ∧
      iovBytes (pgreadLayout offset rlen room remaining o).1 ≤ remaining := by
  induction room generalizing remaining o with
  | zero => exact ⟨trivial, rfl, Nat.zero_le _⟩
  | succ room ih =>
    rw [pgreadLayout]
    by_cases h0 : remaining = 0
    · rw [if_pos h0]
      exact ⟨trivial, rfl, Nat.zero_le _⟩
    · rw [if_neg h0]
      have hle := pgreadPageLen_le (offset + (rlen - remaining)) remaining
      have hpos := pgreadPageLen_pos (Nat.pos_of_ne_zero h0) (offset + (rlen - remaining))
      generalize pgreadPageLen (offset + (rlen - remaining)) remaining = len at hle hpos ⊢
      obtain ⟨hat, hcur, hbytes⟩ := ih (remaining - len) (o + pgCksz + len)
      refine ⟨⟨rfl, hpos, hat⟩, ?_, ?_⟩
      · simp only [hcur, iovBytes_cons, length_cons, Nat.mul_succ]
        omega
      · simp only [iovBytes_cons]
        omega

theorem iovBytes_layout_pos {remaining : ℕ} (h : 0 < remaining) (offset rlen room o : ℕ) :
    0 < iovBytes (pgreadLayout offset rlen (room + 1) remaining o).1 := by
  have hpos := pgreadPageLen_pos h (offset + (rlen - remaining))
  rw [pgreadLayout, if_neg (Nat.ne_of_gt h), iovBytes_cons]
  exact Nat.add_pos_left hpos _

/-- The pages of a layout, encoded, begin the encoding of the whole. -/
theorem xrdpPgEncode_layout {offset rlen : ℕ} (room : ℕ) {remaining : ℕ} (hr : remaining ≤ rlen)
    (o : ℕ) {bs : Bytes} (hbs : bs.length ≤ remaining) :
    xrdpPgEncode bs (offset + (rlen - remaining) : ℕ) =
      encodePages (pgreadLayout offset rlen room remaining o).1 bs ++
        xrdpPgEncode (bs.drop (iovBytes (pgreadLayout offset rlen room remaining o).1))
          (offset + (rlen - remaining) +
            iovBytes (pgreadLayout offset rlen room remaining o).1 : ℕ) := by
  induction room generalizing remaining o bs with
  | zero => rfl
  | succ room ih =>
    by_cases hnil : bs = []
    · subst hnil
      simp
    have hpos : 0 < bs.length := length_pos_iff.mpr hnil
    have hle := pgreadPageLen_le (offset + (rlen - remaining)) remaining
    have hdata := @pgDataN_eq_pageLen (offset + (rlen - remaining)) _ _ hbs
    rw [pgreadLayout, if_neg (by omega), xrdpPgEncode, if_pos hpos]
    simp only [encodePages, if_neg hnil, iovBytes_cons]
    generalize pgreadPageLen (offset + (rlen - remaining)) remaining = len at hle hdata ⊢
    rw [hdata]
    rcases Nat.lt_or_ge bs.length len with hlt | hge
    · -- the file ends in the page
      have htake : bs.take len = bs := take_of_length_le (Nat.le_of_lt hlt)
      have hdrop : ∀ k, bs.drop (len + k) = [] := fun k => drop_eq_nil_of_le (by omega)
      have hdrop0 := hdrop 0
      rw [Nat.add_zero] at hdrop0
      rw [if_pos hlt, htake, hdrop0, hdrop]
      simp
    · rw [if_neg (Nat.not_lt.mpr hge)]
      have hleft : (bs.drop len).length ≤ remaining - len := by
        rw [length_drop]
        omega
      have hrest := ih (by omega) (o + pgCksz + len) hleft
      have hcur : offset + (rlen - (remaining - len)) = offset + (rlen - remaining) + len := by omega
      rw [hcur, drop_drop] at hrest
      rw [← Int.natCast_add, hrest]
      simp only [append_assoc, Nat.add_assoc]

/-! ### The blocking read -/

/-- A driver reads a file: it delivers the bytes of the file in their order, a blocking read fewer
than were asked for only at its end. -/
structure ReadsFile (file : Bytes) (d : PgDriver) : Prop where
  preadv : ∀ off iov bs, d.preadv off iov = .ok bs → bs = (file.drop off).take (iovBytes iov)
  preadv2 : ∀ off iov bs, d.preadv2 off iov = .ok bs → bs <+: (file.drop off).take (iovBytes iov)

/-- What an encoder leaves of the bytes `src` of a file, read at an offset, from `o` on -/
structure EncodesAt (o total outSize : ℕ) (m : ℕ → UInt8) (src : Bytes) (cur : ℕ)
    (r : PgreadEncoded) : Prop where
  nread : r.nread = some (total + src.length)
  ioErrno : r.ioErrno = 0
  size : r.outSize = outSize + (xrdpPgEncode src cur).length
  holds : load r.mem o (xrdpPgEncode src cur).length = xrdpPgEncode src cur
  before : ∀ x < o, r.mem x = m x

/-- The vectored reads that an encoder makes of a request: one for each of its batches -/
def PgBatch (offset rlen off : ℕ) (iov : List PgIovec) : Prop :=
  ∃ remaining o, 0 < remaining ∧ remaining ≤ rlen ∧ off = offset + (rlen - remaining) ∧
    iov = (pgreadLayout offset rlen pgreadMaxIov remaining o).1

/-- The attempt of a read that does not wait was given up, at a batch that the driver had not all
of at hand. -/
def MissedAt (d : PgDriver) (offset rlen : ℕ) (r : PgreadEncoded) : Prop :=
  r.nread = some 0 ∧ r.outSize = 0 ∧ ∃ off iov, PgBatch offset rlen off iov ∧
    (d.preadv2 off iov = .error r.ioErrno ∨
      ∃ bs, d.preadv2 off iov = .ok bs ∧ bs.length < iovBytes iov ∧ r.ioErrno = eagain)

/-- The blocking read of a batch failed. -/
def FailedAt (d : PgDriver) (offset rlen : ℕ) (r : PgreadEncoded) : Prop :=
  r.nread = none ∧
    ∃ off iov, PgBatch offset rlen off iov ∧ d.preadv off iov = .error r.ioErrno

theorem ReadsFile.batch {file : Bytes} (hd : ReadsFile file d) {nowait : Bool}
    {off : ℕ} {iov : List PgIovec} {bs : Bytes}
    (h : (if nowait then d.preadv2 else d.preadv) off iov = .ok bs)
    (hfull : ¬(nowait = true ∧ bs.length < iovBytes iov)) :
    bs = (file.drop off).take (iovBytes iov) := by
  cases nowait with
  | false => exact hd.preadv off iov bs h
  | true =>
    have hpre := hd.preadv2 off iov bs h
    refine hpre.eq_of_length_le ?_
    have hlen : ((file.drop off).take (iovBytes iov)).length ≤ iovBytes iov := length_take_le _ _
    have : ¬bs.length < iovBytes iov := fun hlt => hfull ⟨rfl, hlt⟩
    omega

/-- **The loop over the batches** fails, gives up where it may not wait, or leaves what the
encoder makes of the file. -/
theorem pgreadEncodeLoop_encodes {file : Bytes} (hd : ReadsFile file d)
    (nowait : Bool) (offset rlen batches : ℕ) {remaining : ℕ} (hbatches : remaining ≤ batches)
    (hr : remaining ≤ rlen) (o total outSize : ℕ) (m : ℕ → UInt8) :
    nowait = false ∧
        FailedAt d offset rlen
          (pgreadEncodeLoop d nowait offset rlen batches remaining o total outSize m) ∨
      nowait = true ∧
        MissedAt d offset rlen (pgreadEncodeLoop d nowait offset rlen batches remaining o total outSize m) ∨
      EncodesAt o total outSize m ((file.drop (offset + (rlen - remaining))).take remaining)
        (offset + (rlen - remaining))
        (pgreadEncodeLoop d nowait offset rlen batches remaining o total outSize m) := by
  induction batches generalizing remaining o total outSize m with
  | zero =>
    obtain rfl : remaining = 0 := by omega
    exact .inr (.inr ⟨by simp [pgreadEncodeLoop], rfl, by simp [pgreadEncodeLoop], by simp [load],
      fun _ _ => rfl⟩)
  | succ batches ih =>
    by_cases h0 : remaining = 0
    · subst h0
      exact .inr (.inr ⟨by simp [pgreadEncodeLoop], by simp [pgreadEncodeLoop],
        by simp [pgreadEncodeLoop], by simp [load], fun _ _ => by simp [pgreadEncodeLoop]⟩)
    rw [pgreadEncodeLoop, if_neg h0]
    have hpos : 0 < iovBytes (pgreadLayout offset rlen pgreadMaxIov remaining o).1 :=
      iovBytes_layout_pos (Nat.pos_of_ne_zero h0) offset rlen 511 o
    obtain ⟨hat, hcursor, hbytes⟩ := pgreadLayout_spec offset rlen pgreadMaxIov remaining o
    have hpages := fun bs hbs => @xrdpPgEncode_layout offset rlen pgreadMaxIov _ hr o bs
      hbs
    generalize hbatch : pgreadLayout offset rlen pgreadMaxIov remaining o = batch at *
    have hmade : PgBatch offset rlen (offset + (rlen - remaining)) batch.1 :=
      ⟨remaining, o, Nat.pos_of_ne_zero h0, hr, rfl, by rw [hbatch]⟩
    dsimp only
    cases hread : (if nowait then d.preadv2 else d.preadv) (offset + (rlen - remaining)) batch.1 with
    | error e =>
      cases nowait with
      | false => exact .inl ⟨rfl, rfl, _, _, hmade, hread⟩
      | true => exact .inr (.inl ⟨rfl, rfl, rfl, _, _, hmade, .inl hread⟩)
    | ok bs =>
      dsimp only
      by_cases hmiss : nowait = true ∧ bs.length < iovBytes batch.1
      · rw [if_pos hmiss]
        obtain ⟨rfl, hshort⟩ := hmiss
        exact .inr (.inl ⟨rfl, rfl, rfl, _, _, hmade, .inr ⟨bs, hread, hshort, rfl⟩⟩)
      rw [if_neg hmiss]
      have hbs := hd.batch hread hmiss
      obtain ⟨henc, heof⟩ := pgreadCrcBatch_encoded hat (pgScatter_hold hat bs m) outSize
      have hbefore : ∀ x < o, (pgreadCrcBatch batch.1 bs.length (pgScatter batch.1 bs m)
          outSize).1 x = m x := fun x hx => by
        rw [henc.before x hx, pgScatter_of_lt hat bs m hx]
      have hsrc : ((file.drop (offset + (rlen - remaining))).take remaining).length ≤ remaining :=
        length_take_le _ _
      by_cases hshort : bs.length < iovBytes batch.1
      · -- the file has ended
        rw [if_pos (.inr hshort)]
        have hall : (file.drop (offset + (rlen - remaining))).take remaining = bs := by
          rw [hbs, length_take] at hshort
          rw [hbs, take_of_length_le (by omega), take_of_length_le (by omega)]
        have hnil : bs.drop (iovBytes batch.1) = [] := drop_eq_nil_of_le (Nat.le_of_lt hshort)
        have hwire := hpages bs (by omega)
        rw [hnil, xrdpPgEncode_nil, append_nil] at hwire
        rw [hall]
        refine .inr (.inr ⟨rfl, rfl, ?_, ?_, hbefore⟩)
        · rw [hwire]
          exact henc.size
        · rw [hwire]
          exact henc.holds
      · have hlen : bs.length = iovBytes batch.1 := by
          have : bs.length ≤ iovBytes batch.1 := by
            rw [hbs]
            exact length_take_le _ _
          omega
        have hno : ¬((pgreadCrcBatch batch.1 bs.length (pgScatter batch.1 bs m) outSize).2.2 = true ∨
            bs.length < iovBytes batch.1) := by
          rintro (he | hlt)
          · exact hshort (heof he)
          · exact hshort hlt
        rw [if_neg hno]
        have hcur : offset + (rlen - (remaining - iovBytes batch.1)) =
            offset + (rlen - remaining) + iovBytes batch.1 := by omega
        -- the rest of the file behind the batch
        have hsplit : (file.drop (offset + (rlen - remaining))).take remaining =
            bs ++ (file.drop (offset + (rlen - remaining) + iovBytes batch.1)).take
              (remaining - iovBytes batch.1) := by
          have htake : ∀ xs : Bytes, xs.take remaining = xs.take (iovBytes batch.1) ++
              (xs.drop (iovBytes batch.1)).take (remaining - iovBytes batch.1) := fun xs => by
            rw [← take_add, Nat.add_sub_cancel' hbytes]
          rw [htake, drop_drop, ← hbs]
        have hwire := hpages _ hsrc
        have hdrop : ((file.drop (offset + (rlen - remaining))).take remaining).drop
            (iovBytes batch.1) = (file.drop (offset + (rlen - remaining) +
              iovBytes batch.1)).take (remaining - iovBytes batch.1) := by
          rw [hsplit, ← hlen, drop_left]
        have hfront : encodePages batch.1 ((file.drop (offset + (rlen - remaining))).take remaining) =
            encodePages batch.1 bs := by
          rw [← encodePages_take hat, hsplit, ← hlen, take_left]
        rw [hdrop, hfront] at hwire
        have hend : batch.2 = o + (encodePages batch.1 bs).length := by
          rw [hcursor, length_encodePages hat hlen, Nat.add_assoc]
        have hnext := @ih (remaining - iovBytes batch.1) (by omega) (by omega) batch.2
          (total + bs.length)
          (pgreadCrcBatch batch.1 bs.length (pgScatter batch.1 bs m) outSize).2.1
          (pgreadCrcBatch batch.1 bs.length (pgScatter batch.1 bs m) outSize).1
        rw [hcur] at hnext
        rcases hnext with hfail | hmissed | hok
        · exact .inl hfail
        · exact .inr (.inl hmissed)
        · refine .inr (.inr ⟨?_, hok.ioErrno, ?_, ?_, fun x hx => ?_⟩)
          · rw [hok.nread, hsplit, length_append, Nat.add_assoc]
          · rw [hok.size, henc.size, hwire, length_append, Nat.add_assoc]
          · have hkeep : load (pgreadEncodeLoop d nowait offset rlen batches
                (remaining - iovBytes batch.1) batch.2 (total + bs.length)
                (pgreadCrcBatch batch.1 bs.length (pgScatter batch.1 bs m) outSize).2.1
                (pgreadCrcBatch batch.1 bs.length (pgScatter batch.1 bs m) outSize).1).mem o
                (encodePages batch.1 bs).length = encodePages batch.1 bs := by
              refine (load_congr fun x _ hx => hok.before x ?_).trans henc.holds
              omega
            rw [hwire, length_append, load_add, hkeep, ← hend, hok.holds]
          · rw [hok.before x (by omega), hbefore x hx]

/-- **The in-place encoder**: a read that fails reports it, one that may not wait may be given up,
and any other leaves the encoder's bytes of the file. -/
theorem brixPgreadReadEncodeInplace_encodes {file : Bytes}
    (hd : ReadsFile file d) (nowait : Bool) (offset rlen out : ℕ) (m : ℕ → UInt8) :
    nowait = false ∧
        FailedAt d offset rlen (brixPgreadReadEncodeInplace d nowait offset rlen out m) ∨
      nowait = true ∧
        MissedAt d offset rlen (brixPgreadReadEncodeInplace d nowait offset rlen out m) ∨
      EncodesAt out 0 0 m ((file.drop offset).take rlen) offset
        (brixPgreadReadEncodeInplace d nowait offset rlen out m) := by
  have h := pgreadEncodeLoop_encodes hd nowait offset rlen rlen (Nat.le_refl _) (Nat.le_refl _)
    out 0 0 m
  rw [Nat.sub_self, Nat.add_zero] at h
  exact h

/-! ### The read of the ring -/

/-- The pages that the bytes of a request are in -/
def pgreadPages (offset rlen : ℕ) : ℕ :=
  if rlen = 0 then 0 else (offset % pgPageSZ + rlen + pgPageSZ - 1) / pgPageSZ

/-- The page at the cursor is taken off the front. -/
theorem pgreadPages_eq {remaining : ℕ} (h : 0 < remaining) (cur : ℕ) :
    pgreadPages cur remaining = pgreadPages (cur + pgreadPageLen cur remaining)
      (remaining - pgreadPageLen cur remaining) + 1 := by
  rw [pgreadPages, if_neg (Nat.ne_of_gt h), pgreadPages]
  have hlen : pgreadPageLen cur remaining =
      if remaining < pgPageSZ - cur % pgPageSZ then remaining else pgPageSZ - cur % pgPageSZ := rfl
  rw [pgPageSZ] at hlen ⊢
  split at hlen <;> split <;> omega

theorem pgreadLayout_pages (offset rlen room : ℕ) {remaining : ℕ} (hr : remaining ≤ rlen) (o : ℕ) :
    (pgreadLayout offset rlen room remaining o).1.length =
        min room (pgreadPages (offset + (rlen - remaining)) remaining) ∧
      (iovBytes (pgreadLayout offset rlen room remaining o).1 = remaining ↔
        pgreadPages (offset + (rlen - remaining)) remaining ≤ room) := by
  induction room generalizing remaining o with
  | zero =>
    rw [pgreadLayout, Nat.zero_min, iovBytes_nil, pgreadPages, pgPageSZ]
    refine ⟨rfl, ?_⟩
    split <;> omega
  | succ room ih =>
    rw [pgreadLayout]
    by_cases h0 : remaining = 0
    · rw [if_pos h0, pgreadPages, if_pos h0, Nat.min_zero]
      exact ⟨rfl, iff_of_true h0.symm (Nat.zero_le _)⟩
    · have hle := pgreadPageLen_le (offset + (rlen - remaining)) remaining
      have hpages := pgreadPages_eq (Nat.pos_of_ne_zero h0) (offset + (rlen - remaining))
      generalize pgreadPageLen (offset + (rlen - remaining)) remaining = len at hle hpages ⊢
      obtain ⟨hlength, hbytes⟩ :=
        ih (Nat.le_trans (Nat.sub_le remaining len) hr) (o + pgCksz + len)
      have hcur : offset + (rlen - (remaining - len)) = offset + (rlen - remaining) + len := by
        omega
      rw [hcur] at hlength hbytes
      rw [if_neg h0, hpages]
      dsimp only
      rw [length_cons, hlength, iovBytes_cons, Nat.add_min_add_right,
        Nat.add_le_add_iff_right, ← hbytes]
      exact ⟨rfl, by dsimp only; omega⟩

/-- A request has a layout exactly if its pages fit in one batch and in the caller's list. -/
theorem brixPgreadLayoutIov_isSome_iff (offset rlen out maxIov : ℕ) :
    (brixPgreadLayoutIov offset rlen out maxIov).isSome = true ↔
      pgreadPages offset rlen ≤ min pgreadMaxIov maxIov := by
  obtain ⟨hlength, hbytes⟩ := pgreadLayout_pages offset rlen pgreadMaxIov (Nat.le_refl rlen) out
  rw [Nat.sub_self, Nat.add_zero] at hlength hbytes
  simp only [brixPgreadLayoutIov, hlength]
  split <;> simp <;> omega

/-- **A scattered read and its checksums.** In the layout of a request that is one batch, bytes
that were delivered are encoded as the encoder does it. -/
theorem brixPgreadCrcEncodeDelivered_encodes {offset rlen out maxIov : ℕ} {iov : List PgIovec}
    (hiov : brixPgreadLayoutIov offset rlen out maxIov = some iov) {bs : Bytes}
    (hbs : bs.length ≤ rlen) (m : ℕ → UInt8) :
    (brixPgreadCrcEncodeDelivered offset rlen out bs.length (pgScatter iov bs m)).2 =
        (xrdpPgEncode bs offset).length ∧
      load (brixPgreadCrcEncodeDelivered offset rlen out bs.length (pgScatter iov bs m)).1 out
        (xrdpPgEncode bs offset).length = xrdpPgEncode bs offset := by
  obtain ⟨hat, -, -⟩ := pgreadLayout_spec offset rlen pgreadMaxIov rlen out
  have hpages := @xrdpPgEncode_layout offset _ pgreadMaxIov _ (Nat.le_refl rlen) out _ hbs
  rw [Nat.sub_self, Nat.add_zero] at hpages
  simp only [brixPgreadLayoutIov] at hiov
  split at hiov
  · simp at hiov
  rename_i hone
  cases hiov
  obtain ⟨hone, -⟩ := not_or.mp hone
  have hbytes : iovBytes (pgreadLayout offset rlen pgreadMaxIov rlen out).1 = rlen :=
    not_not.mp hone
  have hnil : bs.drop (iovBytes (pgreadLayout offset rlen pgreadMaxIov rlen out).1) = [] :=
    drop_eq_nil_of_le (by omega)
  rw [hnil, xrdpPgEncode_nil, append_nil] at hpages
  rw [brixPgreadCrcEncodeDelivered]
  by_cases h0 : bs = []
  · subst h0
    cases rlen with
    | zero | succ n => simp [pgreadCrcLoop, load]
  have hpos : 0 < bs.length := length_pos_iff.mpr h0
  obtain ⟨n, rfl⟩ : ∃ n, rlen = n + 1 := ⟨rlen - 1, by omega⟩
  rw [pgreadCrcLoop, if_pos ⟨Nat.succ_pos n, hpos⟩]
  obtain ⟨henc, -⟩ := pgreadCrcBatch_encoded hat (pgScatter_hold hat bs m) 0
  have huse : (if bs.length < n + 1 then bs.length else n + 1) = bs.length := by
    split <;> omega
  simp only [hbytes, huse]
  rw [hpages]
  split
  · exact ⟨by rw [henc.size, Nat.zero_add], henc.holds⟩
  · have hend : ∀ (k o outSize : ℕ) (m : ℕ → UInt8),
        pgreadCrcLoop offset (n + 1) k (n + 1 - (n + 1)) o (bs.length - bs.length) outSize m =
          (m, outSize) := by
      intro k o outSize m
      cases k <;> simp [pgreadCrcLoop]
    rw [hend]
    exact ⟨by rw [henc.size, Nat.zero_add], henc.holds⟩

end BrixCache

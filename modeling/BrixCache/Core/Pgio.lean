import BrixCache.Core.Crc32c
import BrixCache.Lib.Wire
import BrixCache.Core.Ascii
import Mathlib.Algebra.Group.Int.Defs

/-!
# Page-mode framing

`core/compat/pgio.c`: data on the wire of a page-mode read or write, cut at the
page boundaries of the file, each fragment behind its big-endian CRC-32c. One
encoder; a strict decoder that stops at the first fragment whose checksum is
wrong; and a collecting decoder that keeps every fragment and lists the wrong
ones. A walk's wire cursor is the wire still unread, its destination cursor what
has been written.
-/

namespace BrixCache

open List

def pgPageSZ : ℕ := 4096

/-- `XRDP_PG_CKSZ` -/
def pgCksz : ℕ := 4

def int64Max : ℤ := 2 ^ 63 - 1

/-- `htonl`: the word's bytes, high byte first. -/
def htonl (x : UInt32) : Bytes := (Wire.put x).reverse

def ntohl (bs : Bytes) : UInt32 := Wire.get bs.reverse

/-- Bytes from a file offset to the end of its page. -/
def pgToBoundary (cur : ℤ) : ℕ := pgPageSZ - (cur % pgPageSZ).toNat

/-- The data of the next frame, of `avail` bytes left: up to the page boundary. -/
def pgDataN (avail : ℕ) (cur : ℤ) : ℕ :=
  if avail < pgToBoundary cur then avail else pgToBoundary cur

theorem pgToBoundary_pos (cur : ℤ) : 0 < pgToBoundary cur := by
  rw [pgToBoundary, pgPageSZ]
  omega

theorem pgDataN_le (avail : ℕ) (cur : ℤ) : pgDataN avail cur ≤ avail := by
  rw [pgDataN]
  split <;> omega

variable {avail dstcap : ℕ} {cur : ℤ} {w w' : PgWalk} {bad : List PgBad}

theorem pgDataN_pos (h : 0 < avail) (cur : ℤ) : 0 < pgDataN avail cur := by
  have hpos := pgToBoundary_pos cur
  rw [pgDataN]
  split <;> omega

theorem pgDataN_eq_toBoundary (h : pgDataN avail cur < avail) :
    pgDataN avail cur = pgToBoundary cur := by
  rw [pgDataN] at h ⊢
  split at h
  · exact absurd h (Nat.lt_irrefl _)
  · rename_i hle
    rw [if_neg hle]

theorem pgDataN_add (n : ℕ) (h : pgDataN avail cur < avail ∨ n = 0) :
    pgDataN (pgDataN avail cur + n) cur = pgDataN avail cur := by
  rcases h with hlt | rfl
  · have hb := pgDataN_eq_toBoundary hlt
    rw [hb, pgDataN, if_neg (Nat.not_lt.mpr (Nat.le_add_right _ _))]
  · have hle : pgDataN avail cur ≤ pgToBoundary cur := by
      rw [pgDataN]
      split <;> omega
    rw [Nat.add_zero]
    generalize pgDataN avail cur = k at hle ⊢
    rw [pgDataN]
    split <;> omega

@[simp] theorem htonl_length (x : UInt32) : (htonl x).length = pgCksz := by
  rw [htonl, length_reverse, Wire.put_length]
  rfl

@[simp] theorem ntohl_htonl (x : UInt32) : ntohl (htonl x) = x := by
  rw [htonl, ntohl, reverse_reverse, Wire.get_put]

theorem htonl_ntohl {bs : Bytes} (h : bs.length = pgCksz) : htonl (ntohl bs) = bs := by
  have hlen : bs.reverse.length = 4 := by
    rw [length_reverse]
    exact h
  rw [htonl, ntohl, Wire.put_get_uint32 hlen, reverse_reverse]

/-! ## The encoder -/

/-- Each page behind its checksum. -/
def xrdpPgEncode (src : Bytes) (cur : ℤ) : Bytes :=
  if 0 < src.length then
    let pageData := pgDataN src.length cur
    htonl (crc32cValue (src.take pageData)) ++ src.take pageData ++
      xrdpPgEncode (src.drop pageData) (cur + pageData)
  else []
termination_by src.length
decreasing_by
  rename_i h
  have hpos := pgDataN_pos h cur
  rw [length_drop]
  omega

@[simp] theorem xrdpPgEncode_nil (cur : ℤ) : xrdpPgEncode [] cur = [] := by
  rw [xrdpPgEncode]
  rfl

theorem xrdpPgEncode_eq_nil {src : Bytes} (h : xrdpPgEncode src cur = []) :
    src.length = 0 := by
  refine Nat.eq_zero_of_not_pos fun hpos => ?_
  have hlen := congrArg length h
  rw [xrdpPgEncode, if_pos hpos, length_append, length_append, htonl_length] at hlen
  simp [pgCksz] at hlen

/-! ## The walk -/

/-- `pg_walk_t`, with the wire unread and the bytes written in place of the
cursors. -/
structure PgWalk : Type where
  rest : Bytes
  /-- the destination up to the cursor -/
  dst : Bytes
  /-- file offset of the next frame -/
  cur : ℤ
  want : UInt32
  actual : UInt32
  /-- the last frame's data bytes -/
  dlen : ℕ

/-- `pg_consume_frame`, none when the frame is malformed. -/
def pgConsumeFrame (dstcap : ℕ) (w : PgWalk) : Option PgWalk :=
  if w.rest.length ≤ pgCksz then none
  else
    let body := w.rest.drop pgCksz
    let dataN := pgDataN body.length w.cur
    if dstcap < w.dst.length + dataN then none
    else if int64Max - dataN < w.cur then none
    else some
      { rest := body.drop dataN
        dst := w.dst ++ body.take dataN
        cur := w.cur + dataN
        want := ntohl (w.rest.take pgCksz)
        actual := crc32cValue (body.take dataN)
        dlen := dataN }

/-- The wire starts with a frame for the file offset `cur`: a checksum, data up
to the page boundary or the wire's end, and what is behind it. -/
structure PgFrame (cur : ℤ) (wire crc frag rest : Bytes) : Prop where
  wire_eq : wire = crc ++ (frag ++ rest)
  crc_length : crc.length = pgCksz
  pos : 0 < frag.length
  dataN : pgDataN (frag.length + rest.length) cur = frag.length

/-- A frame that is consumed, field by field -/
theorem pgConsumeFrame_eq_some :
    pgConsumeFrame dstcap w = some w' ↔
      ∃ crc frag rest, PgFrame w.cur w.rest crc frag rest ∧
        w.dst.length + frag.length ≤ dstcap ∧ w.cur + frag.length ≤ int64Max ∧
        w' = ⟨rest, w.dst ++ frag, w.cur + frag.length, ntohl crc, crc32cValue frag,
          frag.length⟩ := by
  constructor
  · intro h
    rw [pgConsumeFrame] at h
    split at h
    · cases h
    · rename_i hlong
      have hbody : 0 < (w.rest.drop pgCksz).length := by
        rw [length_drop]
        omega
      have hcrc : (w.rest.take pgCksz).length = pgCksz := by
        rw [length_take]
        omega
      simp only at h
      generalize hn : pgDataN (w.rest.drop pgCksz).length w.cur = n at h
      have hle : n ≤ (w.rest.drop pgCksz).length := hn ▸ pgDataN_le _ _
      have hfrag : ((w.rest.drop pgCksz).take n).length = n := length_take_of_le hle
      split at h
      · cases h
      · rename_i hcap
        split at h
        · cases h
        · rename_i hcur
          refine ⟨w.rest.take pgCksz, (w.rest.drop pgCksz).take n, (w.rest.drop pgCksz).drop n,
            ⟨?_, hcrc, ?_, ?_⟩, ?_, ?_, ?_⟩
          · rw [take_append_drop, take_append_drop]
          · rw [hfrag, ← hn]
            exact pgDataN_pos hbody _
          · rw [← length_append, take_append_drop, hn, hfrag]
          · omega
          · omega
          · rw [hfrag]
            exact (Option.some.inj h).symm
  · rintro ⟨crc, frag, rest, ⟨hwire, hcrc, hpos, hdata⟩, hcap, hcur, rfl⟩
    have hdrop : w.rest.drop pgCksz = frag ++ rest := by
      rw [hwire, ← hcrc, drop_left]
    have htake : w.rest.take pgCksz = crc := by
      rw [hwire, ← hcrc, take_left]
    have hlong : ¬ w.rest.length ≤ pgCksz := by
      rw [hwire, length_append, length_append]
      omega
    rw [pgConsumeFrame, if_neg hlong]
    simp only [hdrop, htake, length_append, hdata]
    rw [if_neg (by omega), if_neg (by omega), drop_left, take_left]

theorem PgFrame.length_lt {wire crc frag rest : Bytes}
    (h : PgFrame cur wire crc frag rest) : rest.length < wire.length := by
  have hpos := h.pos
  rw [h.wire_eq, length_append, length_append]
  omega

theorem pgConsumeFrame_length_lt
    (h : pgConsumeFrame dstcap w = some w') : w'.rest.length < w.rest.length := by
  obtain ⟨crc, frag, rest, hframe, -, -, rfl⟩ := pgConsumeFrame_eq_some.mp h
  exact hframe.length_lt

/-! ## The decoders -/

/-- What a decoder returns: a count, or which negative code. -/
inductive PgRc : Type where
  /-- all of the wire, so many bytes of data -/
  | bytes : ℕ → PgRc
  /-- `-1`: a checksum is wrong -/
  | mismatch : PgRc
  /-- `-2`: malformed framing, or no room -/
  | malformed : PgRc
  /-- `-3`: more wrong checksums than the caller has room for -/
  | tooMany : PgRc
  deriving DecidableEq

/-- The results of `xrdp_pg_decode`: the code, the destination and `*bad_off`. -/
structure PgDecoded : Type where
  rc : PgRc
  dst : Bytes
  badOff : ℤ

/-- The loop of `xrdp_pg_decode`; `fileOff` is what `*bad_off` starts as. -/
def xrdpPgDecodeLoop (dstcap : ℕ) (fileOff : ℤ) (w : PgWalk) : PgDecoded :=
  if w.rest.length = 0 then ⟨.bytes w.dst.length, w.dst, fileOff⟩
  else
    match _h : pgConsumeFrame dstcap w with
    | none => ⟨.malformed, w.dst, w.cur⟩
    | some w' =>
      if w'.actual ≠ w'.want then ⟨.mismatch, w'.dst, w.cur⟩
      else xrdpPgDecodeLoop dstcap fileOff w'
termination_by w.rest.length
decreasing_by exact pgConsumeFrame_length_lt _h

/-- The walk a decoder starts with. -/
def pgWalk (pg : Bytes) (fileOff : ℤ) : PgWalk := ⟨pg, [], fileOff, 0, 0, 0⟩

/-- Pages checked and copied out. -/
def xrdpPgDecode (pg : Bytes) (fileOff : ℤ) (dstcap : ℕ) : PgDecoded :=
  if fileOff < 0 then ⟨.malformed, [], fileOff⟩
  else xrdpPgDecodeLoop dstcap fileOff (pgWalk pg fileOff)

/-- A page with a wrong checksum -/
structure PgBad : Type where
  /-- file offset of the page -/
  off : ℤ
  /-- fragment length -/
  dlen : ℕ
  deriving DecidableEq

/-- The results of `xrdp_pg_decode_collect`: the code, the destination and the
list of wrong fragments. -/
structure PgCollected : Type where
  rc : PgRc
  dst : Bytes
  bad : List PgBad

/-- The loop of `xrdp_pg_decode_collect`. -/
def xrdpPgDecodeCollectLoop (dstcap maxBad : ℕ) (bad : List PgBad) (w : PgWalk) : PgCollected :=
  if w.rest.length = 0 then ⟨.bytes w.dst.length, w.dst, bad⟩
  else
    match _h : pgConsumeFrame dstcap w with
    | none => ⟨.malformed, w.dst, bad⟩
    | some w' =>
      if w'.actual ≠ w'.want then
        if maxBad ≤ bad.length then ⟨.tooMany, w'.dst, bad⟩
        else xrdpPgDecodeCollectLoop dstcap maxBad (bad ++ [⟨w.cur, w'.dlen⟩]) w'
      else xrdpPgDecodeCollectLoop dstcap maxBad bad w'
termination_by w.rest.length
decreasing_by all_goals exact pgConsumeFrame_length_lt _h

/-- Pages copied out and the bad ones listed. -/
def xrdpPgDecodeCollect (pg : Bytes) (fileOff : ℤ) (dstcap maxBad : ℕ) : PgCollected :=
  if fileOff < 0 then ⟨.malformed, [], []⟩
  else xrdpPgDecodeCollectLoop dstcap maxBad [] (pgWalk pg fileOff)

/-! ## Round trips -/

theorem xrdpPgEncode_frame {src : Bytes} (hpos : 0 < src.length) (cur : ℤ) :
    PgFrame cur (xrdpPgEncode src cur) (htonl (crc32cValue (src.take (pgDataN src.length cur))))
      (src.take (pgDataN src.length cur))
      (xrdpPgEncode (src.drop (pgDataN src.length cur)) (cur + pgDataN src.length cur)) := by
  have hle := pgDataN_le src.length cur
  have hlen : (src.take (pgDataN src.length cur)).length = pgDataN src.length cur :=
    length_take_of_le hle
  refine ⟨?_, htonl_length _, ?_, ?_⟩
  · rw [xrdpPgEncode, if_pos hpos, append_assoc]
  · rw [hlen]
    exact pgDataN_pos hpos cur
  · rw [hlen]
    refine pgDataN_add _ ?_
    rcases Nat.lt_or_ge (pgDataN src.length cur) src.length with hlt | hge
    · exact .inl hlt
    · -- the frame takes all of the data
      rw [drop_of_length_le hge, xrdpPgEncode_nil]
      exact .inr rfl

theorem xrdpPgDecodeLoop_good (fileOff : ℤ)
    (h : pgConsumeFrame dstcap w = some w') (hgood : w'.actual = w'.want) :
    xrdpPgDecodeLoop dstcap fileOff w = xrdpPgDecodeLoop dstcap fileOff w' := by
  have hne : w.rest.length ≠ 0 := Nat.ne_of_gt (Nat.zero_lt_of_lt (pgConsumeFrame_length_lt h))
  rw [xrdpPgDecodeLoop, if_neg hne]
  split
  · rename_i hnone
    rw [h] at hnone
    cases hnone
  · rename_i w'' hsome
    obtain rfl : w' = w'' := Option.some.inj (h.symm.trans hsome)
    rw [if_neg (not_not_intro hgood)]

/-- The decoder reads back what was encoded. -/
theorem xrdpPgDecodeLoop_encode (dstcap : ℕ) (fileOff : ℤ) (src : Bytes) (w : PgWalk)
    (hrest : w.rest = xrdpPgEncode src w.cur) (hcap : w.dst.length + src.length ≤ dstcap)
    (hcur : w.cur + src.length ≤ int64Max) :
    xrdpPgDecodeLoop dstcap fileOff w =
      ⟨.bytes (w.dst.length + src.length), w.dst ++ src, fileOff⟩ := by
  generalize hc : w.cur = cur at hrest
  induction src, cur using xrdpPgEncode.induct generalizing w with
  | case1 src cur hpos k ih =>
    -- the first frame, then the rest of the data
    subst hc
    have hframe : PgFrame w.cur w.rest (htonl (crc32cValue (src.take k))) (src.take k)
        (xrdpPgEncode (src.drop k) (w.cur + k)) := hrest ▸ xrdpPgEncode_frame hpos w.cur
    have hle : k ≤ src.length := pgDataN_le src.length w.cur
    clear_value k
    have hlen : (src.take k).length = k := length_take_of_le hle
    have hdrop : (src.drop k).length = src.length - k := length_drop
    have hconsume := pgConsumeFrame_eq_some.mpr ⟨_, _, _, hframe,
      show w.dst.length + (src.take k).length ≤ dstcap by omega,
      show w.cur + (src.take k).length ≤ int64Max by omega, rfl⟩
    rw [xrdpPgDecodeLoop_good fileOff hconsume (ntohl_htonl _).symm]
    refine (ih _ ?_ ?_ ?_ ?_).trans ?_
    · simp only [length_append]
      omega
    · simp only [hlen]
      omega
    · simp only [hlen]
    · rfl
    · simp only [length_append, append_assoc, take_append_drop, hlen, hdrop]
      congr 2
      omega
  | case2 src cur hnil =>
    obtain rfl := eq_nil_of_length_eq_zero (Nat.eq_zero_of_not_pos hnil)
    rw [xrdpPgEncode_nil] at hrest
    rw [xrdpPgDecodeLoop, hrest, append_nil]
    rfl

/-- What is decoded without a fault was encoded so. -/
theorem xrdpPgEncode_of_decodeLoop {fileOff : ℤ} {n : ℕ}
    (h : (xrdpPgDecodeLoop dstcap fileOff w).rc = .bytes n) :
    ∃ src, xrdpPgDecodeLoop dstcap fileOff w = ⟨.bytes n, w.dst ++ src, fileOff⟩ ∧
      n = w.dst.length + src.length ∧ xrdpPgEncode src w.cur = w.rest := by
  fun_induction xrdpPgDecodeLoop dstcap fileOff w with
  | case1 w hnil =>
    obtain rfl := PgRc.bytes.inj h
    refine ⟨[], ?_, rfl, ?_⟩
    · rw [append_nil]
    · rw [xrdpPgEncode_nil, eq_nil_of_length_eq_zero hnil]
  | case2 w hne hnone => cases h
  | case3 w hne w' hsome hbad => cases h
  | case4 w hne w' hsome hgood ih =>
    obtain ⟨crc, frag, rest, hframe, -, -, rfl⟩ := pgConsumeFrame_eq_some.mp hsome
    obtain ⟨src, hrun, hn, hsrc⟩ := ih h
    simp only at hsrc hn hrun hgood
    rw [not_ne_iff] at hgood
    have hpos : 0 < (frag ++ src).length := by
      rw [length_append]
      exact Nat.add_pos_left hframe.pos _
    have hlen : pgDataN (frag ++ src).length w.cur = frag.length := by
      rw [length_append, ← hframe.dataN]
      refine pgDataN_add _ ?_
      rcases Nat.eq_zero_or_pos rest.length with hzero | hmore
      · -- nothing behind the frame, and nothing decoded from it
        refine .inr ?_
        rw [eq_nil_of_length_eq_zero hzero] at hsrc
        exact xrdpPgEncode_eq_nil hsrc
      · rw [hframe.dataN]
        exact .inl (Nat.lt_add_of_pos_right hmore)
    refine ⟨frag ++ src, ?_, ?_, ?_⟩
    · rw [hrun, append_assoc]
    · rw [hn, length_append, length_append, Nat.add_assoc]
    · rw [xrdpPgEncode, if_pos hpos]
      simp only [hlen, take_left, drop_left]
      rw [hsrc, hgood, htonl_ntohl hframe.crc_length, hframe.wire_eq, append_assoc]

/-! ## The two decoders -/

/-- How the collecting decoder's answer `c` follows from the strict one's. -/
structure PgAgree (maxBad : ℕ) (d : PgDecoded) (c : PgCollected) : Prop where
  /-- the strict decoder succeeds when nothing wrong was collected -/
  succeeds : (∃ n, d.rc = .bytes n) ↔ (∃ n, c.rc = .bytes n) ∧ c.bad = []
  /-- and then both return the same bytes -/
  same : ∀ n, d.rc = .bytes n → c.rc = .bytes n ∧ c.dst = d.dst
  /-- the first fragment collected is the one the strict decoder stops at -/
  first : ∀ b bs, c.bad = b :: bs → d.rc = .mismatch ∧ d.badOff = b.off
  mismatch : d.rc = .mismatch → c.bad ≠ [] ∨ (maxBad = 0 ∧ c.rc = .tooMany)
  /-- malformed framing before anything wrong stops both -/
  malformed : d.rc = .malformed → c.rc = .malformed ∧ c.bad = []

/-- A list of fragments in file order, none overlapping another or a page
boundary, all before `cur`. -/
structure PgBadOrdered (bad : List PgBad) (cur : ℤ) : Prop where
  increasing : bad.Pairwise fun b b' : PgBad => b.off + b.dlen ≤ b'.off
  paged : ∀ b ∈ bad, 0 < b.dlen ∧ b.off % pgPageSZ + b.dlen ≤ pgPageSZ
  before : ∀ b ∈ bad, b.off + b.dlen ≤ cur

theorem PgFrame.paged {wire crc frag rest : Bytes}
    (h : PgFrame cur wire crc frag rest) : cur % pgPageSZ + frag.length ≤ pgPageSZ := by
  have hle : frag.length ≤ pgToBoundary cur := by
    rw [← h.dataN, pgDataN]
    split <;> omega
  rw [pgToBoundary, pgPageSZ] at hle
  rw [pgPageSZ]
  omega

theorem PgBadOrdered.mono {cur' : ℤ} (h : PgBadOrdered bad cur)
    (hle : cur ≤ cur') : PgBadOrdered bad cur' :=
  ⟨h.increasing, h.paged, fun b hb => Int.le_trans (h.before b hb) hle⟩

theorem PgBadOrdered.snoc {n : ℕ} (h : PgBadOrdered bad cur)
    (hpos : 0 < n) (hpage : cur % pgPageSZ + n ≤ pgPageSZ) :
    PgBadOrdered (bad ++ [⟨cur, n⟩]) (cur + n) := by
  refine ⟨?_, ?_, ?_⟩
  · refine pairwise_append.mpr ⟨h.increasing, pairwise_singleton _ _, ?_⟩
    intro b hb b' hb'
    rw [mem_singleton.mp hb']
    exact h.before b hb
  · intro b hb
    rcases mem_append.mp hb with hb | hb
    · exact h.paged b hb
    · rw [mem_singleton.mp hb]
      exact ⟨hpos, hpage⟩
  · intro b hb
    rcases mem_append.mp hb with hb | hb
    · have hle := h.before b hb
      omega
    · have heq := mem_singleton.mp hb
      exact Int.le_of_eq (by rw [heq])

theorem xrdpPgDecodeCollectLoop_ordered {maxBad : ℕ} (h : PgBadOrdered bad w.cur) :
    ∃ cur, PgBadOrdered (xrdpPgDecodeCollectLoop dstcap maxBad bad w).bad cur := by
  fun_induction xrdpPgDecodeCollectLoop dstcap maxBad bad w with
  | case1 => exact ⟨_, h⟩
  | case2 => exact ⟨_, h⟩
  | case3 => exact ⟨_, h⟩
  | case4 bad w hne w' hsome hbad hroom ih =>
    obtain ⟨crc, frag, rest, hframe, -, -, rfl⟩ := pgConsumeFrame_eq_some.mp hsome
    exact ih (h.snoc hframe.pos hframe.paged)
  | case5 bad w hne w' hsome hgood ih =>
    obtain ⟨crc, frag, rest, hframe, -, -, rfl⟩ := pgConsumeFrame_eq_some.mp hsome
    exact ih (h.mono (Int.le_add_of_nonneg_right (Int.natCast_nonneg _)))

theorem xrdpPgDecodeCollectLoop_bad (dstcap maxBad : ℕ) (bad : List PgBad) (w : PgWalk) :
    ∃ more, (xrdpPgDecodeCollectLoop dstcap maxBad bad w).bad = bad ++ more := by
  fun_induction xrdpPgDecodeCollectLoop dstcap maxBad bad w with
  | case1 => exact ⟨[], (append_nil _).symm⟩
  | case2 => exact ⟨[], (append_nil _).symm⟩
  | case3 => exact ⟨[], (append_nil _).symm⟩
  | case4 bad w hne w' hsome hbad hroom ih =>
    obtain ⟨more, hmore⟩ := ih
    exact ⟨_, hmore.trans (append_assoc _ _ _)⟩
  | case5 bad w hne w' hsome hgood ih => exact ih

theorem xrdpPgDecodeCollectLoop_some (maxBad : ℕ) (bad : List PgBad)
    (h : pgConsumeFrame dstcap w = some w') :
    xrdpPgDecodeCollectLoop dstcap maxBad bad w =
      if w'.actual ≠ w'.want then
        if maxBad ≤ bad.length then ⟨.tooMany, w'.dst, bad⟩
        else xrdpPgDecodeCollectLoop dstcap maxBad (bad ++ [⟨w.cur, w'.dlen⟩]) w'
      else xrdpPgDecodeCollectLoop dstcap maxBad bad w' := by
  have hne : w.rest.length ≠ 0 := Nat.ne_of_gt (Nat.zero_lt_of_lt (pgConsumeFrame_length_lt h))
  rw [xrdpPgDecodeCollectLoop, if_neg hne]
  split
  · rename_i hnone
    rw [h] at hnone
    cases hnone
  · rename_i w'' hsome
    obtain rfl : w' = w'' := Option.some.inj (h.symm.trans hsome)
    rfl

theorem xrdpPgDecodeCollectLoop_none (maxBad : ℕ) (bad : List PgBad)
    (hne : w.rest.length ≠ 0) (h : pgConsumeFrame dstcap w = none) :
    xrdpPgDecodeCollectLoop dstcap maxBad bad w = ⟨.malformed, w.dst, bad⟩ := by
  rw [xrdpPgDecodeCollectLoop, if_neg hne]
  split
  · rfl
  · rename_i w'' hsome
    rw [h] at hsome
    cases hsome

theorem PgAgree.of_malformed (maxBad : ℕ) (dst dst' : Bytes) (off : ℤ) :
    PgAgree maxBad ⟨.malformed, dst, off⟩ ⟨.malformed, dst', []⟩ where
  succeeds := by simp
  same := by simp
  first := by simp
  mismatch := by simp
  malformed := by simp

theorem xrdpPgDecodeCollectLoop_agree (dstcap maxBad : ℕ) (fileOff : ℤ) (w : PgWalk) :
    PgAgree maxBad (xrdpPgDecodeLoop dstcap fileOff w)
      (xrdpPgDecodeCollectLoop dstcap maxBad [] w) := by
  fun_induction xrdpPgDecodeLoop dstcap fileOff w with
  | case1 w hnil =>
    rw [xrdpPgDecodeCollectLoop, if_pos hnil]
    exact ⟨by simp, by simp, by simp, by simp, by simp⟩
  | case2 w hne hnone =>
    rw [xrdpPgDecodeCollectLoop_none maxBad [] hne hnone]
    exact PgAgree.of_malformed maxBad w.dst w.dst w.cur
  | case3 w hne w' hsome hbad =>
    rw [xrdpPgDecodeCollectLoop_some maxBad [] hsome, if_pos hbad]
    split
    · rename_i hfull
      have hzero : maxBad = 0 := Nat.le_zero.mp hfull
      exact ⟨by simp, by simp, by simp, fun _ => .inr ⟨hzero, rfl⟩, by simp⟩
    · -- whatever is collected later comes behind this fragment
      obtain ⟨more, hmore⟩ := xrdpPgDecodeCollectLoop_bad dstcap maxBad
        [⟨w.cur, w'.dlen⟩] w'
      rw [nil_append]
      refine ⟨?_, by simp, ?_, fun _ => .inl ?_, by simp⟩
      · rw [hmore]
        simp
      · intro b bs hb
        rw [hmore] at hb
        obtain ⟨rfl, -⟩ := cons.inj hb
        exact ⟨rfl, rfl⟩
      · rw [hmore]
        exact cons_ne_nil _ _
  | case4 w hne w' hsome hgood ih =>
    rw [xrdpPgDecodeCollectLoop_some maxBad [] hsome, if_neg hgood]
    exact ih

/-! ## The framing -/

/-- **Page-mode framing.** Decoding what was encoded at an offset returns it;
whatever is decoded encodes to the wire it came from; and the collecting decoder
agrees with the strict one, its list in file order. -/
theorem xrdpPg_framing :
    (∀ (src : Bytes) (fileOff : ℤ), 0 ≤ fileOff → fileOff + src.length ≤ int64Max →
      xrdpPgDecode (xrdpPgEncode src fileOff) fileOff src.length =
        ⟨.bytes src.length, src, fileOff⟩) ∧
    (∀ (pg : Bytes) (fileOff : ℤ) (dstcap n : ℕ),
      (xrdpPgDecode pg fileOff dstcap).rc = .bytes n →
      (xrdpPgDecode pg fileOff dstcap).dst.length = n ∧
        xrdpPgEncode (xrdpPgDecode pg fileOff dstcap).dst fileOff = pg) ∧
    (∀ (pg : Bytes) (fileOff : ℤ) (dstcap maxBad : ℕ),
      PgAgree maxBad (xrdpPgDecode pg fileOff dstcap)
        (xrdpPgDecodeCollect pg fileOff dstcap maxBad) ∧
      ∃ cur, PgBadOrdered (xrdpPgDecodeCollect pg fileOff dstcap maxBad).bad cur) := by
  refine ⟨?_, ?_, ?_⟩
  · intro src fileOff hoff hmax
    have hrun := xrdpPgDecodeLoop_encode src.length fileOff src
      (pgWalk (xrdpPgEncode src fileOff) fileOff) rfl (by simp [pgWalk]) hmax
    rw [xrdpPgDecode, if_neg (Int.not_lt.mpr hoff), hrun]
    simp [pgWalk]
  · intro pg fileOff dstcap n h
    rw [xrdpPgDecode] at h ⊢
    split at h
    · cases h
    · rename_i hoff
      obtain ⟨src, hrun, hn, henc⟩ := xrdpPgEncode_of_decodeLoop h
      rw [if_neg hoff, hrun]
      refine ⟨?_, ?_⟩
      · rw [hn, length_append]
      · exact henc
  · intro pg fileOff dstcap maxBad
    rw [xrdpPgDecode, xrdpPgDecodeCollect]
    split
    · exact ⟨PgAgree.of_malformed maxBad [] [] fileOff, fileOff, List.Pairwise.nil, by simp,
        by simp⟩
    · refine ⟨xrdpPgDecodeCollectLoop_agree dstcap maxBad fileOff _, ?_⟩
      exact xrdpPgDecodeCollectLoop_ordered ⟨List.Pairwise.nil, by simp, by simp⟩

/-- Three bytes across a page boundary. -/
theorem xrdpPg_framing_sample :
    xrdpPgDecode (xrdpPgEncode [1, 2, 3] 4094) 4094 3 = ⟨.bytes 3, [1, 2, 3], 4094⟩ :=
  xrdpPg_framing.1 [1, 2, 3] 4094 (by decide) (by decide)

end BrixCache

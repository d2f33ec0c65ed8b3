import BrixCache.Root.PgreadAgree
import BrixCache.Core.Ascii

/-!
# The windows of a page-mode read

`protocols/root/read/pgread_window.c` and the pump of `core/aio/reads_window.c`: a request larger
than a window goes out as a train of status frames, each made in a buffer of its own with the pages
behind the room for its header. Windows end on the page grid, so that no page is in two frames, and
the frames carry what the encoder makes of the bytes of the file (`brixReadWindowPump_train`).
-/

namespace BrixCache

open Memory List

def brixReadWindow : ℕ := 2 * 1024 * 1024

/-- `sizeof(ServerStatusResponse_pgRead)` -/
def pgreadStatusSize : ℕ := 32

/-- The part of the request up to the next window. -/
def brixPgreadWindowWant (cur left : ℕ) : ℕ :=
  let gridEnd := (cur + brixReadWindow) / pgPageSZ * pgPageSZ
  let wlen := gridEnd - cur
  if left < wlen then left else wlen

def brixPgreadWindowScratch (cur want : ℕ) : ℕ :=
  let nPages := (cur % pgPageSZ + want + pgPageSZ - 1) / pgPageSZ
  let nPages := if nPages = 0 then 1 else nPages
  pgreadStatusSize + want + nPages * pgCksz

/-! ## Frames -/

/-- `resptype` -/
inductive PgreadResp : Type where
  | finalResult
  | partialResult
  deriving DecidableEq

/-- `kXR_FinalResult`, `kXR_PartialResult` -/
def PgreadResp.code : PgreadResp → UInt8
  | finalResult => 0
  | partialResult => 1

def htons (x : UInt16) : Bytes := (Wire.put x).reverse

def htobe64 (x : UInt64) : Bytes := (Wire.put x).reverse

/-- `brix_build_pgread_status_sid`: the header, with the checksum of what is behind it -/
def brixBuildPgreadStatusSid (sid : UInt8 × UInt8) (fileOffset : UInt64) (totalWithCrcs : UInt32)
    (resptype : PgreadResp) : Bytes :=
  let body := [sid.1, sid.2, 30, resptype.code, 0, 0, 0, 0] ++ htonl totalWithCrcs ++
    htobe64 fileOffset
  [sid.1, sid.2] ++ htons 4007 ++ htonl 24 ++ htonl (crc32cValue body) ++ body

/-- What becomes of a window: the client is asked to wait, is told of an error, or gets a frame;
then the place in the file and the bytes owed behind it -/
inductive PgreadEmitted : Type where
  | wait
  | failed
  | frame (bytes : Bytes) (offset remaining : ℕ)

/-- One frame of the response. -/
def pgreadFrame (sid : UInt8 × UInt8) (cur left got outSize : ℕ) (m : ℕ → UInt8) : PgreadEmitted :=
  let more : Bool := got = brixPgreadWindowWant cur left ∧ got < left
  let resptype := if more then PgreadResp.partialResult else PgreadResp.finalResult
  let header := brixBuildPgreadStatusSid sid (UInt64.ofNat cur) (UInt32.ofNat outSize) resptype
  .frame (load (store m 0 header) 0 (pgreadStatusSize + outSize)) (if more then cur + got else cur)
    (if more then left - got else 0)

/-- `brix_pgread_window_emit`, with the offset and the bytes owed of the train, and whether a frame
of it was sent -/
def brixPgreadWindowEmit (sid : UInt8 × UInt8) (cur left : ℕ) (sent : Bool) (r : PgreadEncoded) :
    PgreadEmitted :=
  match r.nread with
  | some got => pgreadFrame sid cur left got r.outSize r.mem
  | none =>
    if r.ioErrno = eagain then
      if sent then pgreadFrame sid cur left 0 0 r.mem else .wait
    else .failed

/-! ## The pump -/

/-- A window is read: where it is tried, from the page cache (`brix_pgread_window_try_warm`), and
else, or where that is not all of it, by a read that waits. -/
def pgreadWindowRead (d : PgDriver) (tryWarm : Bool) (cur want : ℕ) (m : ℕ → UInt8) :
    PgreadEncoded :=
  if tryWarm then
    let warmIo := brixPgreadReadEncodeInplace d true cur want pgreadStatusSize m
    if warmIo.ioErrno = 0 ∧ warmIo.nread = some want then warmIo
    else brixPgreadReadEncodeInplace d false cur want pgreadStatusSize warmIo.mem
  else brixPgreadReadEncodeInplace d false cur want pgreadStatusSize m

/-- How a train ends -/
inductive PgreadEnd : Type where
  | done
  | wait
  | failed
  /-- it does not: the windows allowed are used up -/
  | spin
  deriving DecidableEq

/-- `brix_read_window_pump` from a window on, with so many windows allowed: the frames and the end.
Which windows are tried warm, and what is in the buffers at first, is not fixed. A window that is
read ahead reads what it would read in its turn. -/
def brixReadWindowPump (d : PgDriver) (sid : UInt8 × UInt8) (tryWarm : ℕ → Bool)
    (scratch : ℕ → ℕ → UInt8) : ℕ → ℕ → ℕ → ℕ → List Bytes × PgreadEnd
  | 0, _, _, _ => ([], .spin)
  | windows + 1, k, cur, left =>
    let r := pgreadWindowRead d (tryWarm k) cur (brixPgreadWindowWant cur left) (scratch k)
    match brixPgreadWindowEmit sid cur left (k ≠ 0) r with
    | .wait => ([], .wait)
    | .failed => ([], .failed)
    | .frame bytes cur left =>
      if left = 0 then ([bytes], .done)
      else
        let rest := brixReadWindowPump d sid tryWarm scratch windows (k + 1) cur left
        (bytes :: rest.1, rest.2)

/-- Serve a request window by window. -/
def brixPgreadServeWindowed (d : PgDriver) (sid : UInt8 × UInt8) (tryWarm : ℕ → Bool)
    (scratch : ℕ → ℕ → UInt8) (offset rlen : ℕ) : List Bytes × PgreadEnd :=
  brixReadWindowPump d sid tryWarm scratch (rlen + 1) 0 offset rlen

/-! ## The grid -/

theorem brixPgreadWindowWant_eq (cur left : ℕ) : brixPgreadWindowWant cur left =
    if left < brixReadWindow - cur % pgPageSZ then left
    else brixReadWindow - cur % pgPageSZ := by
  have hgrid : (cur + brixReadWindow) / pgPageSZ * pgPageSZ - cur =
      brixReadWindow - cur % pgPageSZ := by
    rw [brixReadWindow, pgPageSZ]
    omega
  simp only [brixPgreadWindowWant, hgrid]

theorem brixPgreadWindowWant_le (cur left : ℕ) : brixPgreadWindowWant cur left ≤ left := by
  rw [brixPgreadWindowWant_eq]
  split <;> omega

theorem brixPgreadWindowWant_pos {left : ℕ} (h : 0 < left) (cur : ℕ) :
    0 < brixPgreadWindowWant cur left := by
  have hmod : cur % pgPageSZ < pgPageSZ := Nat.mod_lt _ (by decide)
  have hpage : pgPageSZ < brixReadWindow := by decide
  rw [brixPgreadWindowWant_eq]
  split <;> omega

theorem brixPgreadWindowWant_aligned {cur left : ℕ} (h : brixPgreadWindowWant cur left < left) :
    (cur + brixPgreadWindowWant cur left) % pgPageSZ = 0 := by
  rw [brixPgreadWindowWant_eq] at h ⊢
  split at h
  · omega
  · rename_i hle
    rw [if_neg hle, brixReadWindow, pgPageSZ]
    omega

/-- Two stretches that meet at a page are encoded one behind the other. -/
theorem xrdpPgEncode_append (a b : Bytes) (cur : ℤ)
    (h : (cur + a.length) % pgPageSZ = 0 ∨ b = []) :
    xrdpPgEncode (a ++ b) cur = xrdpPgEncode a cur ++ xrdpPgEncode b (cur + a.length) := by
  rcases h with hgrid | rfl
  · induction a, cur using xrdpPgEncode.induct with
    | case1 a cur hpos n ih =>
      -- the page ends in `a`
      have htb : pgToBoundary cur ≤ a.length := by
        rw [pgToBoundary, pgPageSZ]
        rw [pgPageSZ] at hgrid
        omega
      have hn : n = pgToBoundary cur := by
        change pgDataN a.length cur = _
        rw [pgDataN, if_neg (Nat.not_lt.mpr htb)]
      have hab : pgDataN (a ++ b).length cur = n := by
        rw [hn, pgDataN, if_neg]
        rw [length_append]
        omega
      have hle : n ≤ a.length := hn ▸ htb
      have hrest := ih (by rw [length_drop, ← hgrid]; congr 1; omega)
      have hcur : cur + n + (a.drop n).length = cur + a.length := by
        rw [length_drop]
        omega
      rw [hcur] at hrest
      rw [xrdpPgEncode, if_pos (by rw [length_append]; omega), xrdpPgEncode, if_pos hpos]
      simp only [hab, take_append_of_le_length hle, drop_append_of_le_length hle]
      rw [hrest]
      simp only [append_assoc]
      rfl
    | case2 a cur hpos =>
      have hnil : a = [] := eq_nil_of_length_eq_zero (Nat.eq_zero_of_not_pos hpos)
      subst hnil
      simp
  · simp

theorem length_xrdpPgEncode_le (src : Bytes) (cur : ℤ) :
    (xrdpPgEncode src cur).length ≤ src.length +
      ((cur % pgPageSZ).toNat + src.length + pgPageSZ - 1) / pgPageSZ * pgCksz := by
  induction src, cur using xrdpPgEncode.induct with
  | case1 src cur hpos n ih =>
    have hn : n = if src.length < pgToBoundary cur then src.length else pgToBoundary cur := rfl
    have hle : n ≤ src.length := pgDataN_le _ _
    rw [xrdpPgEncode, if_pos hpos]
    change (htonl (crc32cValue (src.take n)) ++ src.take n ++
      xrdpPgEncode (src.drop n) (cur + n)).length ≤ _
    rw [length_append, length_append, htonl_length, length_take_of_le hle]
    rw [length_drop] at ih
    rw [pgToBoundary, pgPageSZ] at hn
    simp only [pgPageSZ, pgCksz] at ih ⊢
    by_cases hlast : n = src.length
    · have hnil : src.drop n = [] := drop_eq_nil_of_le (Nat.le_of_eq hlast.symm)
      rw [hnil, xrdpPgEncode_nil, length_nil]
      omega
    · rw [if_neg fun hlt => hlast (hn.trans (if_pos hlt))] at hn
      have hgrid : (cur + n) % (4096 : ℕ) = 0 := by
        clear ih
        omega
      rw [hgrid] at ih
      omega
  | case2 src cur hpos =>
    rw [xrdpPgEncode, if_neg hpos]
    simp

end BrixCache

/-! ## The train of frames -/

namespace BrixCache

open Memory List

/-- A frame that was sent -/
structure PgreadFrame : Type where
  offset : ℕ
  resptype : PgreadResp
  data : Bytes

def PgreadFrame.wire (sid : UInt8 × UInt8) (f : PgreadFrame) : Bytes :=
  brixBuildPgreadStatusSid sid (UInt64.ofNat f.offset) (UInt32.ofNat f.data.length) f.resptype ++
    f.data

/-- The buffer of the window at the frame's place holds the frame, `stop` being the end of the
request. -/
def PgreadFrame.Fits (stop : ℕ) (f : PgreadFrame) : Prop :=
  pgreadStatusSize + f.data.length ≤
    brixPgreadWindowScratch f.offset (brixPgreadWindowWant f.offset (stop - f.offset))

/-- Frames that carry the bytes of a file from an offset on -/
inductive PgreadTrain (stop : ℕ) : ℕ → Bytes → List PgreadFrame → Prop
  | last {cur : ℕ} {src : Bytes}
      (fits : PgreadFrame.Fits stop ⟨cur, .finalResult, xrdpPgEncode src cur⟩) :
      PgreadTrain stop cur src [⟨cur, .finalResult, xrdpPgEncode src cur⟩]
  | cons {cur : ℕ} {src rest : Bytes} {frames : List PgreadFrame}
      (grid : (cur + src.length) % pgPageSZ = 0)
      (fits : PgreadFrame.Fits stop ⟨cur, .partialResult, xrdpPgEncode src cur⟩)
      (next : PgreadTrain stop (cur + src.length) rest frames) :
      PgreadTrain stop cur (src ++ rest) (⟨cur, .partialResult, xrdpPgEncode src cur⟩ :: frames)

/-- The first frames of a train, with the bytes of the file that they carry; more are to follow. -/
inductive PgreadFront (stop : ℕ) : ℕ → Bytes → List PgreadFrame → Prop
  | nil (cur : ℕ) : PgreadFront stop cur [] []
  | cons {cur : ℕ} {src rest : Bytes} {frames : List PgreadFrame}
      (grid : (cur + src.length) % pgPageSZ = 0)
      (fits : PgreadFrame.Fits stop ⟨cur, .partialResult, xrdpPgEncode src cur⟩)
      (next : PgreadFront stop (cur + src.length) rest frames) :
      PgreadFront stop cur (src ++ rest) (⟨cur, .partialResult, xrdpPgEncode src cur⟩ :: frames)

/-- The read of a window failed: the windows in front of it were sent, and the client is then asked
to wait if there are none, gets an empty last frame, or is told of the error. -/
def PgreadBroken (file : Bytes) (d : PgDriver) (sid : UInt8 × UInt8) (tryWarm : ℕ → Bool)
    (scratch : ℕ → ℕ → UInt8) (stop k cur : ℕ) (run : List Bytes × PgreadEnd) : Prop :=
  ∃ src frames, src <+: file.drop cur ∧ PgreadFront stop cur src frames ∧
    let at' := cur + src.length
    let want := brixPgreadWindowWant at' (stop - at')
    let r := pgreadWindowRead d (tryWarm (k + frames.length)) at' want (scratch (k + frames.length))
    FailedAt d at' want r ∧
      run = if r.ioErrno ≠ eagain then (frames.map (PgreadFrame.wire sid), .failed)
        else if k + frames.length = 0 then ([], .wait)
        else ((frames ++ [PgreadFrame.mk at' .finalResult []]).map (PgreadFrame.wire sid), .done)

variable {src : Bytes}

theorem PgreadTrain.data {stop cur : ℕ} {frames : List PgreadFrame}
    (h : PgreadTrain stop cur src frames) :
    (frames.map PgreadFrame.data).flatten = xrdpPgEncode src cur := by
  induction h with
  | last fits => simp
  | @cons cur src rest frames grid fits next ih =>
    have hsplit := xrdpPgEncode_append src rest cur (.inl (by rw [pgPageSZ] at grid ⊢; omega))
    rw [map_cons, flatten_cons, ih, hsplit]
    rfl

theorem PgreadTrain.resptype {stop cur : ℕ} {frames : List PgreadFrame}
    (h : PgreadTrain stop cur src frames) :
    ∃ front f, frames = front ++ [f] ∧ f.resptype = .finalResult ∧
      ∀ g ∈ front, g.resptype = .partialResult := by
  induction h with
  | last fits => exact ⟨[], _, rfl, rfl, by simp⟩
  | cons grid fits next ih =>
    obtain ⟨front, f, rfl, hf, hfront⟩ := ih
    exact ⟨_ :: front, f, rfl, hf, by simpa using hfront⟩

/-! ### One window -/

/-- A window's buffer is filled with the pages of the bytes `src` of the file. -/
structure WindowFilled (src : Bytes) (cur : ℕ) (r : PgreadEncoded) : Prop where
  nread : r.nread = some src.length
  size : r.outSize = (xrdpPgEncode src cur).length
  holds : load r.mem pgreadStatusSize (xrdpPgEncode src cur).length = xrdpPgEncode src cur

theorem EncodesAt.filled {m : ℕ → UInt8} {cur : ℕ} {r : PgreadEncoded}
    (h : EncodesAt pgreadStatusSize 0 0 m src cur r) : WindowFilled src cur r :=
  ⟨by simpa using h.nread, by simpa using h.size, h.holds⟩

/-- A window is filled, or its driver failed. -/
theorem pgreadWindowRead_filled {file : Bytes} {d : PgDriver} (hd : ReadsFile file d)
    (tryWarm : Bool) (cur want : ℕ) (m : ℕ → UInt8) :
    FailedAt d cur want (pgreadWindowRead d tryWarm cur want m) ∨
      WindowFilled ((file.drop cur).take want) cur (pgreadWindowRead d tryWarm cur want m) := by
  have hcold : ∀ m,
      FailedAt d cur want (brixPgreadReadEncodeInplace d false cur want pgreadStatusSize m) ∨
      WindowFilled ((file.drop cur).take want) cur
        (brixPgreadReadEncodeInplace d false cur want pgreadStatusSize m) := fun m => by
    rcases brixPgreadReadEncodeInplace_encodes hd false cur want pgreadStatusSize m with
      ⟨-, hfail⟩ | ⟨hno, -⟩ | henc
    · exact .inl hfail
    · cases hno
    · exact .inr henc.filled
  simp only [pgreadWindowRead]
  cases tryWarm with
  | false => exact hcold m
  | true =>
    rw [if_pos rfl]
    by_cases hhit : (brixPgreadReadEncodeInplace d true cur want pgreadStatusSize m).ioErrno = 0 ∧
        (brixPgreadReadEncodeInplace d true cur want pgreadStatusSize m).nread = some want
    · rw [if_pos hhit]
      rcases brixPgreadReadEncodeInplace_encodes hd true cur want pgreadStatusSize m with
        ⟨hno, -⟩ | ⟨-, hmiss⟩ | henc
      · cases hno
      · -- a window of no bytes
        obtain ⟨hnone, hsize, -⟩ := hmiss
        have hwant : want = 0 := by simpa using hhit.2.symm.trans hnone
        subst hwant
        exact .inr ⟨by simpa using hnone, by simpa using hsize, by simp [load]⟩
      · exact .inr henc.filled
    · rw [if_neg hhit]
      exact hcold _

@[simp] theorem length_brixBuildPgreadStatusSid (sid : UInt8 × UInt8) (off : UInt64) (n : UInt32)
    (resptype : PgreadResp) :
    (brixBuildPgreadStatusSid sid off n resptype).length = pgreadStatusSize := by
  simp [brixBuildPgreadStatusSid, htons, htobe64, pgCksz, pgreadStatusSize]
  rfl

theorem pgreadFrame_eq {sid : UInt8 × UInt8} {cur left got : ℕ} {data : Bytes} {m : ℕ → UInt8}
    (hm : load m pgreadStatusSize data.length = data) :
    pgreadFrame sid cur left got data.length m =
      if got = brixPgreadWindowWant cur left ∧ got < left then
        .frame (PgreadFrame.wire sid ⟨cur, .partialResult, data⟩) (cur + got) (left - got)
      else .frame (PgreadFrame.wire sid ⟨cur, .finalResult, data⟩) cur 0 := by
  have hbytes : ∀ resptype, load (store m 0 (brixBuildPgreadStatusSid sid (UInt64.ofNat cur)
      (UInt32.ofNat data.length) resptype)) 0 (pgreadStatusSize + data.length) =
        PgreadFrame.wire sid ⟨cur, resptype, data⟩ := fun resptype => by
    have hhead := load_store m 0 (brixBuildPgreadStatusSid sid (UInt64.ofNat cur)
      (UInt32.ofNat data.length) resptype)
    rw [length_brixBuildPgreadStatusSid] at hhead
    rw [load_add, hhead, PgreadFrame.wire, Nat.zero_add]
    congr 1
    refine (load_congr fun x hx _ => ?_).trans hm
    exact store_of_ge _ (by rw [length_brixBuildPgreadStatusSid]; omega)
  simp only [pgreadFrame, decide_eq_true_eq, hbytes]
  split <;> rfl

theorem fits_window {cur left stop : ℕ} (hstop : stop = cur + left)
    (hsrc : src.length ≤ brixPgreadWindowWant cur left) (resptype : PgreadResp) :
    PgreadFrame.Fits stop ⟨cur, resptype, xrdpPgEncode src cur⟩ := by
  have hlen := length_xrdpPgEncode_le src cur
  have hmod : ((cur : ℤ) % pgPageSZ).toNat = cur % pgPageSZ := by omega
  rw [hmod] at hlen
  have hpages : (cur % pgPageSZ + src.length + pgPageSZ - 1) / pgPageSZ ≤
      (cur % pgPageSZ + brixPgreadWindowWant cur left + pgPageSZ - 1) / pgPageSZ :=
    Nat.div_le_div_right (by omega)
  have hleft : stop - cur = left := by omega
  simp only [PgreadFrame.Fits, brixPgreadWindowScratch, hleft, pgCksz] at hlen ⊢
  split <;> omega

/-! ### The pump -/

/-- **The train** sends the file from the offset on, or breaks off at an error. -/
theorem brixReadWindowPump_train {file : Bytes} {d : PgDriver} (hd : ReadsFile file d)
    (sid : UInt8 × UInt8) (tryWarm : ℕ → Bool) (scratch : ℕ → ℕ → UInt8) {stop windows : ℕ}
    (k : ℕ) {cur left : ℕ} (hfuel : left < windows) (hstop : stop = cur + left) :
    (brixReadWindowPump d sid tryWarm scratch windows k cur left).2 ≠ .spin ∧
      (PgreadBroken file d sid tryWarm scratch stop k cur
          (brixReadWindowPump d sid tryWarm scratch windows k cur left) ∨
        (brixReadWindowPump d sid tryWarm scratch windows k cur left).2 = .done ∧
          ∃ frames, PgreadTrain stop cur ((file.drop cur).take left) frames ∧
            (brixReadWindowPump d sid tryWarm scratch windows k cur left).1 =
              frames.map (PgreadFrame.wire sid)) := by
  induction windows generalizing k cur left with
  | zero => omega
  | succ windows ih =>
    have hread := pgreadWindowRead_filled hd (tryWarm k) cur (brixPgreadWindowWant cur left)
      (scratch k)
    have hwant := brixPgreadWindowWant_le cur left
    rw [brixReadWindowPump]
    generalize hr : pgreadWindowRead d (tryWarm k) cur (brixPgreadWindowWant cur left)
      (scratch k) = r at hread ⊢
    rcases hread with hfail | ⟨hnread, hsize, hholds⟩
    · -- the read failed: a wait, an error, or an empty frame that ends the train
      have hempty : pgreadFrame sid cur left 0 0 r.mem =
          .frame (PgreadFrame.wire sid ⟨cur, .finalResult, []⟩) cur 0 := by
        have hload : load r.mem pgreadStatusSize ([] : Bytes).length = [] := rfl
        refine (pgreadFrame_eq hload).trans (if_neg ?_)
        rintro ⟨hzero, hpos⟩
        have := brixPgreadWindowWant_pos hpos cur
        omega
      have hleft : stop - cur = left := by omega
      simp only [brixPgreadWindowEmit, hfail.1, hempty]
      refine ⟨?_, .inl ⟨[], [], List.nil_prefix, .nil cur, ?_⟩⟩
      · by_cases hwait : r.ioErrno = eagain <;> by_cases hk : k = 0 <;> simp [hwait, hk]
      · simp only [length_nil, Nat.add_zero, hleft, hr]
        refine ⟨hfail, ?_⟩
        by_cases hwait : r.ioErrno = eagain <;> by_cases hk : k = 0 <;> simp [hwait, hk]
    · generalize hsrc : (file.drop cur).take (brixPgreadWindowWant cur left) = src at *
      have hlen : src.length ≤ brixPgreadWindowWant cur left := by
        rw [← hsrc]
        exact length_take_le _ _
      simp only [brixPgreadWindowEmit, hnread, hsize, pgreadFrame_eq hholds]
      by_cases hmore : src.length = brixPgreadWindowWant cur left ∧ src.length < left
      · obtain ⟨hfull, hlt⟩ := hmore
        have hgrid : (cur + brixPgreadWindowWant cur left) % pgPageSZ = 0 :=
          brixPgreadWindowWant_aligned (by omega)
        have hpos := @brixPgreadWindowWant_pos left (by omega) cur
        have hsplit : (file.drop cur).take left =
            src ++ (file.drop (cur + src.length)).take (left - src.length) := by
          rw [← drop_drop, hfull]
          conv_lhs => rw [← Nat.add_sub_cancel' hwant, take_add, hsrc]
        obtain ⟨hspin, hrest⟩ := @ih (k + 1) (cur + src.length) (left - src.length) (by omega)
          (by omega)
        have hleft : left - src.length ≠ 0 := by omega
        rw [if_pos ⟨hfull, hlt⟩]
        dsimp only
        rw [if_neg hleft]
        refine ⟨hspin, hrest.imp ?_ ?_⟩
        · rintro ⟨more, frames, hmore, hfront, hfail, hrun⟩
          refine ⟨src ++ more, ⟨cur, .partialResult, xrdpPgEncode src cur⟩ :: frames, ?_,
            .cons (hfull ▸ hgrid) (fits_window hstop hlen _) hfront, ?_⟩
          · have hdrop : file.drop cur = src ++ file.drop (cur + src.length) := by
              rw [← drop_drop, hfull]
              conv_lhs => rw [← take_append_drop (brixPgreadWindowWant cur left)
                (file.drop cur), hsrc]
            rw [hdrop]
            exact (prefix_append_right_inj src).mpr hmore
          · rw [length_append, length_cons, ← Nat.add_assoc, ← Nat.add_assoc,
              Nat.add_right_comm k]
            refine ⟨hfail, ?_⟩
            rw [hrun]
            split
            · rfl
            · simp
        · rintro ⟨hdone, frames, htrain, hsent⟩
          refine ⟨hdone, ⟨cur, .partialResult, xrdpPgEncode src cur⟩ :: frames, ?_, ?_⟩
          · rw [hsplit]
            exact .cons (hfull ▸ hgrid) (fits_window hstop hlen _) htrain
          · rw [hsent, map_cons]
      · -- the request is served, or the file has ended
        have hall : (file.drop cur).take left = src := by
          rw [← hsrc] at hmore ⊢
          rw [length_take] at hmore
          rcases Nat.lt_or_ge (brixPgreadWindowWant cur left) left with hlt | hge
          · rw [take_of_length_le (by omega), take_of_length_le (by omega)]
          · rw [Nat.le_antisymm hwant hge]
        rw [if_neg hmore]
        refine ⟨by simp, .inr ⟨by simp, [⟨cur, .finalResult, xrdpPgEncode src cur⟩], ?_, by simp⟩⟩
        rw [hall]
        exact .last (fits_window hstop hlen _)

/-! ### The readers together -/

/-- **The page-mode readers agree.** Of any file, offset and length, with a driver whose reads are
short only at the end of the file: the in-place encoder leaves what the page encoder makes of the
bytes of the file, unless a read of its batches fails or, where it may not wait, is given up; a
request has a layout if its pages fit in one batch, and a scattered read in it with the checksums of
what was delivered leaves the same; and the train of windows ends, and unless the read of a window
fails its frames carry the same bytes, each at its own place and in its buffer, cut on the page
grid, the last one alone final. -/
theorem brixPgread_readers_agree {file : Bytes} {d : PgDriver} (hd : ReadsFile file d)
    (offset rlen : ℕ) :
    (∀ nowait out m, nowait = false ∧
          FailedAt d offset rlen (brixPgreadReadEncodeInplace d nowait offset rlen out m) ∨
        nowait = true ∧
          MissedAt d offset rlen (brixPgreadReadEncodeInplace d nowait offset rlen out m) ∨
        EncodesAt out 0 0 m ((file.drop offset).take rlen) offset
          (brixPgreadReadEncodeInplace d nowait offset rlen out m)) ∧
      (∀ out maxIov, (brixPgreadLayoutIov offset rlen out maxIov).isSome = true ↔
        pgreadPages offset rlen ≤ min pgreadMaxIov maxIov) ∧
      (∀ out maxIov iov bs m, brixPgreadLayoutIov offset rlen out maxIov = some iov →
        bs.length ≤ rlen →
          (brixPgreadCrcEncodeDelivered offset rlen out bs.length (pgScatter iov bs m)).2 =
              (xrdpPgEncode bs offset).length ∧
            load (brixPgreadCrcEncodeDelivered offset rlen out bs.length (pgScatter iov bs m)).1 out
              (xrdpPgEncode bs offset).length = xrdpPgEncode bs offset) ∧
      ∀ sid tryWarm scratch,
        (brixPgreadServeWindowed d sid tryWarm scratch offset rlen).2 ≠ .spin ∧
        (PgreadBroken file d sid tryWarm scratch (offset + rlen) 0 offset
            (brixPgreadServeWindowed d sid tryWarm scratch offset rlen) ∨
          (brixPgreadServeWindowed d sid tryWarm scratch offset rlen).2 = .done ∧
          ∃ frames : List PgreadFrame,
            (brixPgreadServeWindowed d sid tryWarm scratch offset rlen).1 =
              frames.map (PgreadFrame.wire sid) ∧
            PgreadTrain (offset + rlen) offset ((file.drop offset).take rlen) frames ∧
            (frames.map PgreadFrame.data).flatten =
              xrdpPgEncode ((file.drop offset).take rlen) offset ∧
            ∃ front f, frames = front ++ [f] ∧ f.resptype = .finalResult ∧
              ∀ g ∈ front, g.resptype = .partialResult) := by
  refine ⟨fun nowait out m => brixPgreadReadEncodeInplace_encodes hd nowait offset rlen out m,
    fun out maxIov => brixPgreadLayoutIov_isSome_iff offset rlen out maxIov,
    fun out maxIov iov bs m hiov hbs => brixPgreadCrcEncodeDelivered_encodes hiov hbs m,
    fun sid tryWarm scratch => ?_⟩
  obtain ⟨hspin, htrain⟩ := brixReadWindowPump_train hd sid tryWarm scratch 0
    (Nat.lt_succ_self rlen) (Eq.refl (offset + rlen))
  refine ⟨hspin, htrain.imp id ?_⟩
  rintro ⟨hdone, frames, hframes, hsent⟩
  exact ⟨hdone, frames, hsent, hframes, hframes.data, hframes.resptype⟩

/-- A driver that reads a file in memory -/
def fileDriver (file : Bytes) : PgDriver where
  preadv := fun off iov => .ok ((file.drop off).take (iovBytes iov))
  preadv2 := fun off iov => .ok ((file.drop off).take (iovBytes iov))

theorem readsFile_fileDriver (file : Bytes) : ReadsFile file (fileDriver file) where
  preadv := fun off iov bs h => (Except.ok.inj h).symm
  preadv2 := fun off iov bs h => by
    cases h
    exact prefix_refl _

/-- The last two bytes of a file of three, asked for with more than there is -/
theorem brixPgread_readers_agree_three :
    (brixPgreadServeWindowed (fileDriver [1, 2, 3]) (7, 9) (fun _ => true) (fun _ _ => 0) 1 8).2 =
        .done ∧
      ∃ frames : List PgreadFrame,
        (brixPgreadServeWindowed (fileDriver [1, 2, 3]) (7, 9) (fun _ => true) (fun _ _ => 0) 1
          8).1 = frames.map (PgreadFrame.wire (7, 9)) ∧
        (frames.map PgreadFrame.data).flatten = xrdpPgEncode [2, 3] 1 := by
  obtain ⟨-, -, -, htrain⟩ := brixPgread_readers_agree (readsFile_fileDriver [1, 2, 3]) 1 8
  obtain ⟨-, ⟨src, frames, -, -, ⟨-, off, iov, -, herr⟩, -⟩ | ⟨hdone, frames, hsent, -, hdata, -⟩⟩ :=
    htrain (7, 9) (fun _ => true) (fun _ _ => 0)
  · simp [fileDriver] at herr
  · exact ⟨hdone, frames, hsent, hdata⟩

end BrixCache

import BrixCache.Lib.Stretch
import Mathlib.Data.List.TakeWhile

/-!
# Checking what is written

`core/compat/wverify.c`: the extents a writer has written, each with its CRC-32, in a list of
bounded length; two that touch become one, and a whole object is one extent from its first byte. A
SHA-256 goes with it for as long as the bytes come in order. An extent of the list is a stretch of
bytes of which the bytes are forgotten.
-/

namespace BrixCache

open Stretch List

/-! ## The accumulator -/

def wverifyMaxExtents : ℕ := 4096

/-- A stretch that was written, with its checksum -/
structure WvExtent : Type where
  lo : ℤ
  hi : ℤ
  crc : UInt32
  deriving DecidableEq

/-- `brix_wverify_s`; the digest is what it has been fed. -/
structure WVerify : Type where
  ext : List WvExtent
  cap : ℕ
  degraded : Bool
  sha : Option (List UInt8)
  shaOff : ℤ
  deriving DecidableEq

/-- The arguments of `brix_wverify_update`, and whether `realloc` and `EVP_DigestUpdate` succeed if
they are called. -/
structure WvCall : Type where
  off : ℤ
  len : ℕ
  buf : Option (List UInt8)
  whole : ∀ bytes, buf = some bytes → bytes.length = len
  grown : Bool
  hashed : Bool

/-- `brix_wverify_begin`, and whether the digest could be set up -/
def wverifyBegin (inited : Bool) : WVerify :=
  ⟨[], 0, false, if inited then some [] else none, 0⟩

def wvShaFeed (w : WVerify) (bytes : List UInt8) (off : ℤ) (len : ℕ) (hashed : Bool) : WVerify :=
  match w.sha with
  | none => w
  | some fed =>
    if off ≠ w.shaOff ∨ hashed = false then { w with sha := none }
    else { w with sha := some (fed ++ bytes), shaOff := off + len }

def wvReserve (w : WVerify) (grown : Bool) : Option WVerify :=
  if w.ext.length < w.cap then some w
  else if wverifyMaxExtents ≤ w.ext.length then none
  else if grown = false then none
  else some { w with cap := min (if w.cap = 0 then 16 else w.cap * 2) wverifyMaxExtents }

/-- `wv_update_bounds`: the bound; `none` where the call is refused, 0 bytes are none at all -/
inductive WvBounds : Type where
  | refused : WvBounds
  | nothing : WvBounds
  | upTo (hi : ℤ) : WvBounds
  deriving DecidableEq

/-- What the arguments of a write allow. -/
def wvUpdateBounds (call : WvCall) : WvBounds :=
  if call.off < 0 ∨ call.buf = none ∧ call.len ≠ 0 then .refused
  else if call.len = 0 then .nothing
  else if 2 ^ 63 ≤ call.len ∨ (2 ^ 62 - call.len : ℤ) < call.off then .refused
  else .upTo (call.off + call.len)

/-- Where an extent goes, unless it overlaps. -/
def wvInsertionPoint (ext : List WvExtent) (off hi : ℤ) : Option ℕ :=
  let pos := (ext.takeWhile (·.lo < off)).length
  if 0 < pos ∧ ext[pos - 1]?.any (off < ·.hi) then none
  else if ext[pos]?.any (·.lo < hi) then none
  else some pos

/-- Whether an extent touches the next. -/
def wvTouches (ext : List WvExtent) (i : ℕ) : Bool :=
  match ext[i]?, ext[i + 1]? with
  | some a, some b => a.hi = b.lo
  | _, _ => false

section

variable (crc32 : List UInt8 → UInt32) (crc32Combine : UInt32 → UInt32 → ℕ → UInt32)

/-- Join two neighbours, checksums combined. -/
def wvMergeAt : ℕ → List WvExtent → List WvExtent
  | 0, a :: b :: ext => ⟨a.lo, b.hi, crc32Combine a.crc b.crc (b.hi - b.lo).toNat⟩ :: ext
  | i + 1, a :: ext => a :: wvMergeAt i ext
  | _, ext => ext

/-- The two merges of `brix_wverify_update`, at the extent that is new. -/
def wvCoalesce (pos : ℕ) (ext : List WvExtent) : List WvExtent :=
  let ext := if wvTouches ext pos then wvMergeAt crc32Combine pos ext else ext
  if 0 < pos ∧ wvTouches ext (pos - 1) then wvMergeAt crc32Combine (pos - 1) ext else ext

/-- `brix_wverify_update`: the accumulator, and whether the call succeeds -/
def wverifyUpdate (w : WVerify) (call : WvCall) : WVerify × Bool :=
  match wvUpdateBounds call with
  | .refused => ({ w with degraded := true }, false)
  | .nothing => (w, true)
  | .upTo hi =>
    match wvInsertionPoint w.ext call.off hi with
    | none => ({ w with degraded := true }, false)
    | some pos =>
      match wvReserve w call.grown with
      | none => ({ w with degraded := true }, false)
      | some w =>
        let bytes := call.buf.getD []
        let new : WvExtent := ⟨call.off, hi, crc32 (bytes.take (call.len % 2 ^ 32))⟩
        let ext := w.ext.take pos ++ new :: w.ext.drop pos
        let w := wvShaFeed { w with ext := ext } bytes call.off call.len call.hashed
        ({ w with ext := wvCoalesce crc32Combine pos w.ext }, true)

end

/-- The checksum when one extent covers the file from 0. -/
def wverifyExpected (w : WVerify) : Option (UInt32 × ℤ) :=
  match w.ext with
  | [a] => if w.degraded ∨ a.lo ≠ 0 then none else some (a.crc, a.hi)
  | _ => none

/-- `brix_wverify_expected_sha256`, and whether the digest can be finished -/
def wverifyExpectedSha256 (sha256 : List UInt8 → List UInt8) (w : WVerify) (finished : Bool) :
    Option (List UInt8) :=
  match w.sha, w.ext with
  | some fed, [a] =>
    if w.degraded ∨ a.lo ≠ 0 ∨ w.shaOff ≠ a.hi then none
    else if finished then some (sha256 fed) else none
  | _, _ => none

/-! ## The extents are stretches -/

section

variable {crc32 : List UInt8 → UInt32} {crc32Combine : UInt32 → UInt32 → ℕ → UInt32}

def WvExtent.of (crc32 : List UInt8 → UInt32) (s : Stretch UInt8) : WvExtent :=
  ⟨s.lo, s.hi, crc32 s.cells⟩

theorem wvMergeAt_append (front : List WvExtent) (a b : WvExtent) (back : List WvExtent) :
    wvMergeAt crc32Combine front.length (front ++ a :: b :: back) =
      front ++ ⟨a.lo, b.hi, crc32Combine a.crc b.crc (b.hi - b.lo).toNat⟩ :: back := by
  induction front with
  | nil => rfl
  | cons c front ih =>
    rw [length_cons, cons_append, wvMergeAt, ih]
    rfl

theorem wvTouches_append (front : List WvExtent) (a b : WvExtent) (back : List WvExtent) :
    wvTouches (front ++ a :: b :: back) front.length = true ↔ a.hi = b.lo := by
  simp [wvTouches]

theorem wvTouches_last (front : List WvExtent) (a : WvExtent) :
    wvTouches (front ++ [a]) front.length = false := by
  simp [wvTouches]

variable (hlaw : ∀ a b, crc32Combine (crc32 a) (crc32 b) b.length = crc32 (a ++ b))

include hlaw

theorem wvExtent_glue {s t : Stretch UInt8} (h : s.hi = t.lo) :
    (⟨s.lo, t.hi, crc32Combine (crc32 s.cells) (crc32 t.cells) (t.hi - t.lo).toNat⟩ : WvExtent) =
      .of crc32 (s.glue t) := by
  have hlen : (t.hi - t.lo).toNat = t.cells.length := by
    rw [hi]
    omega
  rw [WvExtent.of, hi_glue h, hlen, hlaw]
  rfl

theorem wvMerge_glueRight (front : List (Stretch UInt8)) (s : Stretch UInt8)
    (back : List (Stretch UInt8)) :
    (if wvTouches ((front ++ s :: back).map (.of crc32)) front.length then
        wvMergeAt crc32Combine front.length ((front ++ s :: back).map (.of crc32))
      else (front ++ s :: back).map (.of crc32)) =
      (front ++ glueRight s back).map (.of crc32) := by
  have hfront : front.length = (front.map (WvExtent.of crc32)).length := by simp
  cases back with
  | nil =>
    rw [map_append, map_singleton, hfront, wvTouches_last, if_neg Bool.false_ne_true,
      glueRight, map_append, map_singleton]
  | cons t back =>
    rw [map_append, map_cons, map_cons, hfront, wvMergeAt_append, glueRight,
      map_append]
    have htouch := wvTouches_append (front.map (.of crc32)) (.of crc32 s) (.of crc32 t)
      (back.map (.of crc32))
    by_cases h : s.hi = t.lo
    · rw [if_pos (htouch.mpr h), if_pos h, map_cons, ← wvExtent_glue hlaw h]
      rfl
    · rw [if_neg (fun hc => h (htouch.mp hc)), if_neg h, map_cons, map_cons]

theorem wvMerge_glueLeft (front : List (Stretch UInt8)) (s : Stretch UInt8)
    (back : List (Stretch UInt8)) :
    (if 0 < front.length ∧ wvTouches ((front ++ s :: back).map (.of crc32)) (front.length - 1) then
        wvMergeAt crc32Combine (front.length - 1) ((front ++ s :: back).map (.of crc32))
      else (front ++ s :: back).map (.of crc32)) =
      (glueLeft front (s :: back)).map (.of crc32) := by
  obtain rfl | ⟨front, a, rfl⟩ := eq_nil_or_concat front
  · rw [if_neg (fun h => absurd h.1 (Nat.lt_irrefl 0))]
    rfl
  · have hfront : (front ++ [a]).length - 1 = (front.map (WvExtent.of crc32)).length := by simp
    have hsplit : front ++ [a] ++ s :: back = front ++ a :: s :: back := by simp
    have htouch := wvTouches_append (front.map (.of crc32)) (.of crc32 a) (.of crc32 s)
      (back.map (.of crc32))
    rw [concat_eq_append, hfront, hsplit, map_append, map_cons, map_cons,
      wvMergeAt_append, glueLeft_concat]
    by_cases h : a.hi = s.lo
    · rw [if_pos ⟨by simp, htouch.mpr h⟩, if_pos h, map_append, map_cons,
        ← wvExtent_glue hlaw h]
      rfl
    · rw [if_neg (fun hc => h (htouch.mp hc.2)), if_neg h, map_append, map_cons,
        map_cons]

theorem wvCoalesce_put (front : List (Stretch UInt8)) (s : Stretch UInt8)
    (back : List (Stretch UInt8)) :
    wvCoalesce crc32Combine front.length ((front ++ s :: back).map (.of crc32)) =
      (put front s back).map (.of crc32) := by
  obtain ⟨s', back', heq, -⟩ := glueRight_cons s back
  have hright := wvMerge_glueRight hlaw front s back
  rw [wvCoalesce, hright, heq, wvMerge_glueLeft hlaw, put, heq]

end

/-! ## Where a stretch goes -/

section

variable {crc32 : List UInt8 → UInt32} {ss : List (Stretch UInt8)} {s : Stretch UInt8}

def before (ss : List (Stretch UInt8)) (off : ℤ) : List (Stretch UInt8) := ss.takeWhile (·.lo < off)

def after (ss : List (Stretch UInt8)) (off : ℤ) : List (Stretch UInt8) := ss.dropWhile (·.lo < off)

theorem before_append_after (ss : List (Stretch UInt8)) (off : ℤ) :
    before ss off ++ after ss off = ss := takeWhile_append_dropWhile

theorem lo_lt_of_mem_before {off : ℤ} {a : Stretch UInt8} (h : a ∈ before ss off) :
    a.lo < off := by
  simpa using mem_takeWhile_imp h

theorem le_lo_of_after {off : ℤ} {b : Stretch UInt8} {back : List (Stretch UInt8)}
    (h : after ss off = b :: back) : off ≤ b.lo := by
  have hhead := head?_dropWhile_not (fun a : Stretch UInt8 => decide (a.lo < off)) ss
  rw [after] at h
  rw [h] at hhead
  simpa using hhead

theorem takeWhile_map_of (ss : List (Stretch UInt8)) (off : ℤ) :
    (ss.map (WvExtent.of crc32)).takeWhile (·.lo < off) = (before ss off).map (.of crc32) := by
  rw [takeWhile_map]
  rfl

theorem wvInsertionPoint_map (ss : List (Stretch UInt8)) (off hi : ℤ) :
    wvInsertionPoint (ss.map (.of crc32)) off hi =
      if (before ss off).getLast?.any (off < ·.hi) then none
      else if (after ss off).head?.any (·.lo < hi) then none
      else some (before ss off).length := by
  have hmap : ss.map (WvExtent.of crc32) =
      (before ss off).map (.of crc32) ++ (after ss off).map (.of crc32) := by
    rw [← map_append, before_append_after]
  have hleft : (0 < (before ss off).length ∧
      (ss.map (WvExtent.of crc32))[(before ss off).length - 1]?.any (off < ·.hi) = true) ↔
        (before ss off).getLast?.any (off < ·.hi) = true := by
    rw [hmap]
    obtain hnil | ⟨front, a, hfront⟩ := eq_nil_or_concat (before ss off)
    · simp [hnil]
    · rw [hfront]
      simp [WvExtent.of]
  have hright : (ss.map (WvExtent.of crc32))[(before ss off).length]?.any (·.lo < hi) =
      (after ss off).head?.any (·.lo < hi) := by
    rw [hmap, getElem?_append_right (by simp)]
    cases after ss off <;> simp [WvExtent.of]
  rw [wvInsertionPoint, takeWhile_map_of, length_map]
  simp only [hleft, hright]

/-- The place that is found is the only one. -/
theorem wvInsertionPoint_eq_some (hss : Apart ss) (hs : s.cells ≠ []) {pos : ℕ}
    (h : wvInsertionPoint (ss.map (.of crc32)) s.lo s.hi = some pos) :
    pos = (before ss s.lo).length ∧ Fits (before ss s.lo) s (after ss s.lo) := by
  have hapart : Apart (before ss s.lo ++ after ss s.lo) := by
    rw [before_append_after]
    exact hss
  rw [wvInsertionPoint_map] at h
  split at h
  · cases h
  · next hleft =>
    split at h
    · cases h
    · next hright =>
      cases h
      refine ⟨rfl, hapart, hs, ?_, ?_⟩
      · intro a ha
        obtain hnil | ⟨front, last, hfront⟩ := eq_nil_or_concat (before ss s.lo)
        · rw [hnil] at ha
          cases ha
        · rw [concat_eq_append] at hfront
          have hlast : last.hi ≤ s.lo := by simpa [hfront] using hleft
          have hwide := lo_lt_hi (hapart.left.ne last (by simp [hfront]))
          rw [hfront] at ha
          obtain ha | ha := mem_append.mp ha
          · have hpair := hapart.left.apart
            rw [hfront] at hpair
            have hlt := (pairwise_append.mp hpair).2.2 a ha last (mem_singleton_self last)
            omega
          · rw [mem_singleton.mp ha]
            exact hlast
      · intro b hb
        rcases hback : after ss s.lo with _ | ⟨first, back⟩
        · rw [hback] at hb
          cases hb
        · have hfirst : s.hi ≤ first.lo := by simpa [hback] using hright
          rw [hback] at hb
          obtain rfl | hb := mem_cons.mp hb
          · exact hfirst
          · have hright := hapart.right
            rw [hback] at hright
            have hwide := lo_lt_hi (hright.ne first mem_cons_self)
            have hlt := hright.head_lt hb
            omega

/-- No place is found only for a stretch that overlaps. -/
theorem wvInsertionPoint_eq_none (hss : Apart ss) (hs : s.cells ≠ [])
    (h : wvInsertionPoint (ss.map (.of crc32)) s.lo s.hi = none) :
    ∃ x, (cellAt ss x).isSome ∧ (s.at? x).isSome := by
  have hwide := lo_lt_hi hs
  have hmem (a : Stretch UInt8) (ha : a ∈ before ss s.lo ∨ a ∈ after ss s.lo) : a ∈ ss := by
    rw [← before_append_after ss s.lo]
    exact mem_append.mpr ha
  rw [wvInsertionPoint_map] at h
  split at h
  · next hleft =>
    -- the last before reaches beyond the first byte of the stretch
    obtain ⟨a, hlast, hover⟩ := (Option.any_eq_true _ _).mp hleft
    have ha := mem_of_getLast? hlast
    have hlo := lo_lt_of_mem_before ha
    exact ⟨s.lo, cellAt_isSome.mpr ⟨a, hmem a (.inl ha), by omega, by simpa using hover⟩,
      at?_isSome.mpr ⟨Int.le_refl _, hwide⟩⟩
  · split at h
    · next hright =>
      -- the first after begins within the stretch
      obtain ⟨b, hhead, hover⟩ := (Option.any_eq_true _ _).mp hright
      rcases hback : after ss s.lo with _ | ⟨_, back⟩
      · rw [hback] at hhead
        cases hhead
      · rw [hback] at hhead
        cases hhead
        have hle := le_lo_of_after hback
        have hb : b ∈ ss := hmem b (.inr (by simp [hback]))
        have hwideb := lo_lt_hi (hss.ne b hb)
        exact ⟨b.lo, cellAt_isSome.mpr ⟨b, hb, Int.le_refl _, hwideb⟩,
          at?_isSome.mpr ⟨hle, by simpa using hover⟩⟩
    · cases h

end

end BrixCache

import BrixCache.Cas.Pack
import BrixCache.Core.Ascii
import Mathlib.Data.List.Induction

/-!
# The packed store as records

What the files of the store amount to, with the bytes read: a list of records for
every segment there ever was, the list of the journal's records, and the table.
The calls of the store are sequences of a few moves on it — a roll, a record
stored, a key dropped, a segment dropped, a compaction — and of two more when
writes fail: a segment record whose journal record did not get written, and a
drop that did not.
-/

namespace BrixCache

open Function List

variable {cfg : PackCfg}

/-- The place of a record. -/
def SegRec.loc (r : SegRec) (seg off : ℕ) : PackLoc := ⟨seg, off, r.fmt, r.data.length, r.raw⟩

/-- The bytes a record stands for. -/
def SegRec.content (cfg : PackCfg) (r : SegRec) : Option Bytes :=
  if r.fmt = 0 then some r.data else CasPack.storedPayloadExpand cfg (r.loc 0 0) r.data

/-- A record of bytes put under its key. -/
structure SegRec.Of (cfg : PackCfg) (hist : Bytes → Bytes → Prop) (r : SegRec)
    (d : Bytes) : Prop where
  fits : r.Fits
  content : r.content cfg = some d
  raw : d.length = r.raw
  hist : hist r.key d

/-! ## What a journal amounts to -/

/-- One journal record, taken or ignored. -/
def replayStep (ok : IdxRec → Bool) (m : Bytes → Option PackLoc) (r : IdxRec) :
    Bytes → Option PackLoc :=
  if ok r then
    if r.op = opPut then update m r.key (some r.loc)
    else if r.op = opDel then update m r.key none
    else m
  else m

/-- The places a journal ends up with, of the records taken. -/
def replayed (ok : IdxRec → Bool) (journal : List IdxRec) : Bytes → Option PackLoc :=
  journal.foldl (replayStep ok) fun _ => none

/-- The records of segments from `lo` on. -/
def segFrom (lo : ℕ) (r : IdxRec) : Bool := decide (lo ≤ r.loc.seg)

theorem replayed_concat (ok : IdxRec → Bool) (journal : List IdxRec) (r : IdxRec) :
    replayed ok (journal ++ [r]) = replayStep ok (replayed ok journal) r := by
  rw [replayed, foldl_append]
  rfl

variable {ok : IdxRec → Bool} {m : Bytes → Option PackLoc}

/-- What a replay ends with was put by one of the records. -/
theorem replayed_mem {journal : List IdxRec} {key : Bytes}
    {loc : PackLoc} (h : replayed ok journal key = some loc) :
    ⟨opPut, key, loc⟩ ∈ journal ∧ ok ⟨opPut, key, loc⟩ = true := by
  induction journal using reverseRecOn with
  | nil => cases h
  | append_singleton journal r ih =>
    rw [replayed_concat, replayStep] at h
    have hold : replayed ok journal key = some loc →
        ⟨opPut, key, loc⟩ ∈ journal ++ [r] ∧ ok ⟨opPut, key, loc⟩ = true := fun hm =>
      ⟨mem_append_left _ (ih hm).1, (ih hm).2⟩
    split at h
    · rename_i hok
      split at h
      · rename_i hput
        by_cases hkey : key = r.key
        · subst hkey
          rw [update_self] at h
          cases h
          have hr : (⟨opPut, r.key, r.loc⟩ : IdxRec) = r := by rw [← hput]
          rw [hr]
          exact ⟨mem_append_right _ mem_cons_self, hok⟩
        · rw [update_of_ne hkey] at h
          exact hold h
      · split at h
        · by_cases hkey : key = r.key
          · subst hkey
            rw [update_self] at h
            cases h
          · rw [update_of_ne hkey] at h
            exact hold h
        · exact hold h
    · exact hold h

theorem replayStep_ne {r : IdxRec}
    {key : Bytes} (h : key ≠ r.key) : replayStep ok m r key = m key := by
  rw [replayStep]
  split
  · split
    · rw [update_of_ne h]
    · split
      · rw [update_of_ne h]
      · rfl
  · rfl

theorem replayStep_put {key : Bytes} {loc : PackLoc} (hok : ok ⟨opPut, key, loc⟩ = true) :
    replayStep ok m ⟨opPut, key, loc⟩ key = some loc := by
  rw [replayStep, if_pos hok, if_pos rfl, update_self]

theorem replayStep_del {key : Bytes} {loc : PackLoc} (hok : ok ⟨opDel, key, loc⟩ = true) :
    replayStep ok m ⟨opDel, key, loc⟩ key = none := by
  have hop : opDel ≠ opPut := by decide
  rw [replayStep, if_pos hok, if_neg hop, if_pos rfl, update_self]

theorem replayStep_skip {r : IdxRec} (hok : ok r = false) : replayStep ok m r = m := by
  rw [replayStep, hok, if_neg Bool.false_ne_true]

theorem replayed_puts {slots : List (Bytes × PackLoc)}
    {tab : Bytes → Option PackLoc} (hslots : ∀ slot ∈ slots, tab slot.1 = some slot.2)
    {key : Bytes} {loc : PackLoc} (hmem : (key, loc) ∈ slots)
    (hok : ok ⟨opPut, key, loc⟩ = true) :
    replayed ok (slots.map fun slot => ⟨opPut, slot.1, slot.2⟩) key = some loc := by
  induction slots using reverseRecOn with
  | nil => cases hmem
  | append_singleton slots slot ih =>
    rw [map_append, map_cons, map_nil, replayed_concat]
    by_cases hkey : key = slot.1
    · have hloc := hslots slot (mem_append_right _ mem_cons_self)
      have hloc' := hslots (key, loc) hmem
      rw [← hkey, hloc'] at hloc
      cases hloc
      rw [← hkey]
      exact replayStep_put hok
    · rw [replayStep_ne hkey]
      obtain hfront | hlast := mem_append.mp hmem
      · exact ih (fun s hs => hslots s (mem_append_left _ hs)) hfront
      · rw [mem_singleton] at hlast
        exact absurd (congrArg Prod.fst hlast) hkey

theorem replayed_congr {ok' : IdxRec → Bool} {journal : List IdxRec}
    (h : ∀ r ∈ journal, ok r = ok' r) : replayed ok journal = replayed ok' journal := by
  induction journal using reverseRecOn with
  | nil => rfl
  | append_singleton journal r ih =>
    rw [replayed_concat, replayed_concat, replayStep, replayStep,
      ih fun r' hr' => h r' (mem_append_left _ hr'),
      h r (mem_append_right _ mem_cons_self)]

/-! ## The moves -/

/-- The store as records: the segments, the journal and the live map -/
structure RecStore : Type where
  /-- also of segments dropped since -/
  segs : ℕ → List SegRec
  journal : List IdxRec
  tab : Bytes → Option PackLoc
  lo : ℕ
  hi : ℕ

namespace RecStore

/-- The size of the active segment: where the next record goes. -/
def off (cfg : PackCfg) (s : RecStore) : ℕ := ((segFraming cfg.crc).encodeAll (s.segs s.hi)).length

/-- The record of a key at a place. -/
abbrev Stands (cfg : PackCfg) (s : RecStore) (key : Bytes) (loc : PackLoc) (r : SegRec) :
    Prop :=
  (segFraming cfg.crc).At (s.segs loc.seg) loc.off r ∧ r.key = key ∧ r.loc loc.seg loc.off = loc

variable {r r' : SegRec} {s : RecStore}

theorem Stands.at_off {key : Bytes} {loc : PackLoc}
    (h : s.Stands cfg key loc r) : (segFraming cfg.crc).At (s.segs loc.seg) loc.off r := h.1

theorem Stands.key {key : Bytes} {loc : PackLoc}
    (h : s.Stands cfg key loc r) : r.key = key := h.2.1

theorem Stands.loc {key : Bytes} {loc : PackLoc}
    (h : s.Stands cfg key loc r) : r.loc loc.seg loc.off = loc := h.2.2

/-- A live key reads as bytes. -/
def Reads (cfg : PackCfg) (s : RecStore) (key d : Bytes) : Prop :=
  ∃ loc r, s.tab key = some loc ∧ s.Stands cfg key loc r ∧ r.content cfg = some d

/-- The next segment becomes the active one. -/
def roll (s : RecStore) : RecStore := { s with hi := s.hi + 1 }

/-- A record at the end of the active segment, and nothing that says so. -/
def orphan (s : RecStore) (r : SegRec) : RecStore :=
  { s with segs := update s.segs s.hi (s.segs s.hi ++ [r]) }

/-- A record at the end of the active segment, journaled and live. -/
def store (cfg : PackCfg) (s : RecStore) (r : SegRec) : RecStore :=
  { s.orphan r with
    journal := s.journal ++ [⟨opPut, r.key, r.loc s.hi (s.off cfg)⟩]
    tab := update s.tab r.key (some (r.loc s.hi (s.off cfg))) }

/-- A key is dropped, and nothing says so. -/
def lose (s : RecStore) (key : Bytes) : RecStore :=
  { s with tab := update s.tab key none }

def del (s : RecStore) (key : Bytes) (loc : PackLoc) : RecStore :=
  { s.lose key with journal := s.journal ++ [⟨opDel, key, loc⟩] }

/-- The oldest segment goes. -/
def dropSeg (s : RecStore) : RecStore :=
  { s with
    tab := fun key => (s.tab key).filter fun loc => !(loc.seg == s.lo)
    lo := s.lo + 1 }

def compact (s : RecStore) (slots : List (Bytes × PackLoc)) : RecStore :=
  { s with journal := slots.map fun slot => ⟨opPut, slot.1, slot.2⟩ }

/-- One move. With `lossy` journal records may be missing. -/
inductive Move (cfg : PackCfg) (hist : Bytes → Bytes → Prop) (lossy : Bool) :
    RecStore → RecStore → Prop where
  | roll {s : RecStore} (hhi : s.hi + 1 < 100000000) : Move cfg hist lossy s s.roll
  /-- a live key is stored again only with the bytes it has -/
  | store {s : RecStore} {r : SegRec} {d : Bytes} (hr : r.Of cfg hist d)
      (hsize : s.off cfg + (r.encode cfg.crc).length < 2 ^ 64)
      (hsame : ∀ d', s.Reads cfg r.key d' → d' = d) : Move cfg hist lossy s (s.store cfg r)
  | orphan {s : RecStore} {r : SegRec} {d : Bytes} (hlossy : lossy = true)
      (hr : r.Of cfg hist d) (hsize : s.off cfg + (r.encode cfg.crc).length < 2 ^ 64)
      (hsame : ∀ d', s.Reads cfg r.key d' → d' = d) : Move cfg hist lossy s (s.orphan r)
  | del {s : RecStore} {key : Bytes} {loc : PackLoc} (hlive : s.tab key = some loc) :
      Move cfg hist lossy s (s.del key loc)
  | lose {s : RecStore} {key : Bytes} (hlossy : lossy = true) :
      Move cfg hist lossy s (s.lose key)
  | dropSeg {s : RecStore} (hlo : s.lo < s.hi) : Move cfg hist lossy s s.dropSeg
  | compact {s : RecStore} {slots : List (Bytes × PackLoc)}
      (hslots : ∀ key loc, (key, loc) ∈ slots ↔ s.tab key = some loc) :
      Move cfg hist lossy s (s.compact slots)

/-- Any number of moves. -/
abbrev Moves (cfg : PackCfg) (hist : Bytes → Bytes → Prop) (lossy : Bool) :
    RecStore → RecStore → Prop :=
  Relation.ReflTransGen (Move cfg hist lossy)

/-! ## The invariant -/

/-- What every move keeps. -/
structure Inv (cfg : PackCfg) (hist : Bytes → Bytes → Prop) (s : RecStore) : Prop where
  lo_le : s.lo ≤ s.hi
  hi_lt : s.hi < 100000000
  /-- every record is of bytes put under its key -/
  records : ∀ n r, r ∈ s.segs n → ∃ d, r.Of cfg hist d
  size : ∀ n, ((segFraming cfg.crc).encodeAll (s.segs n)).length < 2 ^ 64
  beyond : ∀ n, s.hi < n → s.segs n = []
  /-- every journal record names a record of its key -/
  placed : ∀ r ∈ s.journal, ∃ rec, s.Stands cfg r.key r.loc rec
  live_lo : ∀ key loc, s.tab key = some loc → s.lo ≤ loc.seg
  /-- the journal has every live key in its place, whatever segments are gone -/
  replays : ∀ lo, s.lo ≤ lo → ∀ key loc, s.tab key = some loc → lo ≤ loc.seg →
    replayed (segFrom lo) s.journal key = some loc
  /-- a record of a live key that comes after its place has its bytes -/
  newest : ∀ key loc d, s.tab key = some loc → s.Reads cfg key d → ∀ off r,
    (segFraming cfg.crc).At (s.segs s.hi) off r → r.key = key → (loc.seg = s.hi → loc.off ≤ off) →
      r.content cfg = some d

/-- What the moves without loss keep besides. -/
structure Exact (cfg : PackCfg) (s : RecStore) : Prop where
  replays : ∀ lo, s.lo ≤ lo → ∀ key,
    replayed (segFrom lo) s.journal key = (s.tab key).filter fun loc => decide (lo ≤ loc.seg)
  /-- no record of a live key comes after its place -/
  newest : ∀ key loc, s.tab key = some loc → ∀ off r,
    (segFraming cfg.crc).At (s.segs s.hi) off r → r.key = key →
      loc.seg = s.hi ∧ off ≤ loc.off

variable {hist : Bytes → Bytes → Prop} {lossy : Bool} {s s' : RecStore}

theorem Stands.unique {key : Bytes} {loc : PackLoc}
    (h : s.Stands cfg key loc r) (h' : s.Stands cfg key loc r') (hr : r.Fits) (hr' : r'.Fits) :
    r = r' :=
  h.at_off.unique h'.at_off hr hr'

theorem Stands.mono {key : Bytes} {loc : PackLoc} {more : List SegRec}
    (h : s.Stands cfg key loc r) (hgrow : s'.segs loc.seg = s.segs loc.seg ++ more) :
    s'.Stands cfg key loc r :=
  ⟨by rw [hgrow]; exact h.at_off.append more, h.key, h.loc⟩

namespace Inv

variable (hinv : s.Inv cfg hist)
include hinv

theorem fits {n : ℕ} {r : SegRec} (h : r ∈ s.segs n) : r.Fits := by
  obtain ⟨d, hd⟩ := hinv.records n r h
  exact hd.fits

theorem stands_le {key : Bytes} {loc : PackLoc} {r : SegRec} (h : s.Stands cfg key loc r) :
    loc.seg ≤ s.hi := by
  by_contra hlt
  have hmem := h.at_off.mem
  rw [hinv.beyond loc.seg (Nat.lt_of_not_le hlt)] at hmem
  cases hmem

theorem live {key : Bytes} {loc : PackLoc} (h : s.tab key = some loc) :
    ∃ r d, s.Stands cfg key loc r ∧ r.Of cfg hist d ∧ s.Reads cfg key d := by
  have hrep := hinv.replays s.lo (Nat.le_refl s.lo) key loc h (hinv.live_lo key loc h)
  obtain ⟨r, hr⟩ := hinv.placed _ (replayed_mem hrep).1
  obtain ⟨d, hd⟩ := hinv.records _ r hr.at_off.mem
  exact ⟨r, d, hr, hd, loc, r, h, hr, hd.content⟩

theorem reads_unique {key d d' : Bytes} (h : s.Reads cfg key d) (h' : s.Reads cfg key d') :
    d = d' := by
  obtain ⟨loc, r, hloc, hr, hd⟩ := h
  obtain ⟨loc', r', hloc', hr', hd'⟩ := h'
  rw [hloc] at hloc'
  cases hloc'
  have heq := hr.unique hr' (hinv.fits hr.at_off.mem) (hinv.fits hr'.at_off.mem)
  rw [← heq, hd] at hd'
  exact Option.some.inj hd'

theorem reads_hist {key d : Bytes} (h : s.Reads cfg key d) : hist key d := by
  obtain ⟨loc, r, hloc, hr, hd⟩ := h
  obtain ⟨d', hd'⟩ := hinv.records _ r hr.at_off.mem
  rw [hd'.content] at hd
  rw [← hr.key, ← Option.some.inj hd]
  exact hd'.hist

end Inv

/-! ### What the moves do to the reads -/

@[simp] theorem orphan_segs_hi (s : RecStore) (r : SegRec) :
    (s.orphan r).segs s.hi = s.segs s.hi ++ [r] := update_self _ _ _

theorem orphan_segs_ne (s : RecStore) (r : SegRec) {n : ℕ} (hn : n ≠ s.hi) :
    (s.orphan r).segs n = s.segs n := update_of_ne hn _ _

theorem orphan_at {n off : ℕ} (h : (segFraming cfg.crc).At ((s.orphan r).segs n) off r') :
    (segFraming cfg.crc).At (s.segs n) off r' ∨ (n = s.hi ∧ off = s.off cfg ∧ r' = r) := by
  by_cases hn : n = s.hi
  · subst hn
    rw [orphan_segs_hi] at h
    obtain hold | ⟨hoff, hr⟩ := h.of_concat
    · exact .inl hold
    · exact .inr ⟨rfl, hoff, hr⟩
  · rw [orphan_segs_ne s r hn] at h
    exact .inl h

theorem orphan_grows (s : RecStore) (r : SegRec) (n : ℕ) :
    ∃ more, (s.orphan r).segs n = s.segs n ++ more := by
  by_cases hn : n = s.hi
  · subst hn
    exact ⟨[r], orphan_segs_hi s r⟩
  · exact ⟨[], by rw [orphan_segs_ne s r hn, append_nil]⟩

theorem Stands.orphan {key : Bytes} {loc : PackLoc}
    (h : s.Stands cfg key loc r') (r : SegRec) : (s.orphan r).Stands cfg key loc r' := by
  obtain ⟨more, hgrow⟩ := s.orphan_grows r loc.seg
  exact h.mono hgrow

theorem orphan_stands (cfg : PackCfg) (s : RecStore) (r : SegRec) :
    (s.orphan r).Stands cfg r.key (r.loc s.hi (s.off cfg)) r := by
  refine ⟨?_, rfl, rfl⟩
  rw [SegRec.loc, orphan_segs_hi]
  exact Framing.At.last _ _

theorem reads_sub {key d : Bytes} (hinv : s.Inv cfg hist)
    (hgrow : ∀ loc r, s.Stands cfg key loc r → s'.Stands cfg key loc r)
    (hfits : ∀ n r, r ∈ s'.segs n → r.Fits)
    (htab : ∀ loc, s'.tab key = some loc → s.tab key = some loc) (h : s'.Reads cfg key d) :
    s.Reads cfg key d := by
  obtain ⟨loc, r, hloc, hr, hd⟩ := h
  obtain ⟨r', d', hr', hd', hreads⟩ := hinv.live (htab loc hloc)
  have heq := hr.unique (hgrow loc r' hr') (hfits _ r hr.at_off.mem) (hinv.fits hr'.at_off.mem)
  rw [heq, hd'.content] at hd
  rw [← Option.some.inj hd]
  exact hreads

theorem reads_mono {key d : Bytes}
    (hgrow : ∀ loc r, s.Stands cfg key loc r → s'.Stands cfg key loc r)
    (htab : ∀ loc, s.tab key = some loc → s'.tab key = some loc) (h : s.Reads cfg key d) :
    s'.Reads cfg key d := by
  obtain ⟨loc, r, hloc, hr, hd⟩ := h
  exact ⟨loc, r, htab loc hloc, hgrow loc r hr, hd⟩

theorem lose_tab {key key' : Bytes} {loc : PackLoc} :
    (s.lose key).tab key' = some loc ↔ key' ≠ key ∧ s.tab key' = some loc := by
  by_cases hkey : key' = key
  · subst hkey
    rw [show (s.lose key').tab key' = none from update_self _ _ _]
    exact iff_of_false (fun h => nomatch h) fun h => h.1 rfl
  · rw [show (s.lose key).tab key' = s.tab key' from update_of_ne hkey _ _]
    exact ⟨fun h => ⟨hkey, h⟩, fun h => h.2⟩

theorem reads_lose {key key' d : Bytes} :
    (s.lose key).Reads cfg key' d ↔ key' ≠ key ∧ s.Reads cfg key' d := by
  constructor
  · rintro ⟨loc, r, hloc, hr, hd⟩
    obtain ⟨hkey, htab⟩ := lose_tab.mp hloc
    exact ⟨hkey, loc, r, htab, hr, hd⟩
  · rintro ⟨hkey, loc, r, hloc, hr, hd⟩
    exact ⟨loc, r, lose_tab.mpr ⟨hkey, hloc⟩, hr, hd⟩

theorem dropSeg_tab {key : Bytes} {loc : PackLoc} :
    s.dropSeg.tab key = some loc ↔ s.tab key = some loc ∧ loc.seg ≠ s.lo := by
  rw [dropSeg, Option.filter_eq_some_iff]
  simp

theorem reads_dropSeg {key d : Bytes} (h : s.dropSeg.Reads cfg key d) :
    s.Reads cfg key d := by
  obtain ⟨loc, r, hloc, hr, hd⟩ := h
  exact ⟨loc, r, (dropSeg_tab.mp hloc).1, hr, hd⟩

/-! ### The invariant is kept -/

namespace Inv

section

variable (hinv : s.Inv cfg hist)
include hinv

theorem roll (hhi : s.hi + 1 < 100000000) : s.roll.Inv cfg hist where
  lo_le := Nat.le_succ_of_le hinv.lo_le
  hi_lt := hhi
  records := hinv.records
  size := hinv.size
  beyond n hn := hinv.beyond n (Nat.lt_of_succ_lt hn)
  placed := hinv.placed
  live_lo := hinv.live_lo
  replays := hinv.replays
  newest key loc d hloc hd off r hat hkey hoff := by
    have hmem := hat.mem
    rw [show s.roll.segs s.roll.hi = [] from hinv.beyond (s.hi + 1) (Nat.lt_succ_self _)] at hmem
    cases hmem

theorem orphan {r : SegRec} {d : Bytes} (hr : r.Of cfg hist d)
    (hsize : s.off cfg + (r.encode cfg.crc).length < 2 ^ 64)
    (hsame : ∀ d', s.Reads cfg r.key d' → d' = d) : (s.orphan r).Inv cfg hist := by
  have hrecords : ∀ n r', r' ∈ (s.orphan r).segs n → ∃ d, r'.Of cfg hist d := by
    intro n r' hr'
    by_cases hn : n = s.hi
    · subst hn
      rw [orphan_segs_hi] at hr'
      obtain hold | hnew := mem_append.mp hr'
      · exact hinv.records _ r' hold
      · rw [mem_singleton] at hnew
        exact ⟨d, hnew ▸ hr⟩
    · rw [orphan_segs_ne s r hn] at hr'
      exact hinv.records n r' hr'
  have hfits : ∀ n r', r' ∈ (s.orphan r).segs n → r'.Fits := by
    intro n r' hr'
    obtain ⟨d', hd'⟩ := hrecords n r' hr'
    exact hd'.fits
  refine ⟨hinv.lo_le, hinv.hi_lt, hrecords, ?_, ?_, ?_, hinv.live_lo, hinv.replays, ?_⟩
  · intro n
    by_cases hn : n = s.hi
    · subst hn
      rw [orphan_segs_hi, Framing.encodeAll_append, length_append, Framing.encodeAll_cons,
        Framing.encodeAll_nil, append_nil]
      exact hsize
    · rw [orphan_segs_ne s r hn]
      exact hinv.size n
  · intro n hn
    rw [orphan_segs_ne s r (Nat.ne_of_gt hn)]
    exact hinv.beyond n hn
  · intro j hj
    obtain ⟨rec, hrec⟩ := hinv.placed j hj
    exact ⟨rec, hrec.orphan r⟩
  · intro key loc d' hloc hd' off r' hat hkey hoff
    have hold : s.Reads cfg key d' :=
      reads_sub hinv (fun _ _ h => h.orphan r) hfits (fun _ h => h) hd'
    obtain hat' | ⟨-, -, rfl⟩ := orphan_at hat
    · exact hinv.newest key loc d' hloc hold off r' hat' hkey hoff
    · subst hkey
      rw [hsame d' hold]
      exact hr.content

theorem store {r : SegRec} {d : Bytes} (hr : r.Of cfg hist d)
    (hsize : s.off cfg + (r.encode cfg.crc).length < 2 ^ 64)
    (hsame : ∀ d', s.Reads cfg r.key d' → d' = d) : (s.store cfg r).Inv cfg hist := by
  have horphan := hinv.orphan hr hsize hsame
  have hself : ∀ loc, (s.store cfg r).tab r.key = some loc → loc = r.loc s.hi (s.off cfg) := by
    intro loc hloc
    have hnew : (s.store cfg r).tab r.key = some (r.loc s.hi (s.off cfg)) := update_self _ _ _
    rw [hnew] at hloc
    exact (Option.some.inj hloc).symm
  have hother : ∀ key, key ≠ r.key → (s.store cfg r).tab key = s.tab key :=
    fun key hkey => update_of_ne hkey _ _
  refine ⟨hinv.lo_le, hinv.hi_lt, horphan.records, horphan.size, horphan.beyond, ?_, ?_, ?_, ?_⟩
  · intro j hj
    obtain hold | hnew := mem_append.mp hj
    · exact horphan.placed j hold
    · rw [mem_singleton] at hnew
      subst hnew
      obtain ⟨hat, hkey, hloc⟩ := s.orphan_stands cfg r
      exact ⟨r, hat, hkey, hloc⟩
  · intro key loc hloc
    by_cases hkey : key = r.key
    · subst hkey
      rw [hself loc hloc]
      exact hinv.lo_le
    · rw [hother key hkey] at hloc
      exact hinv.live_lo key loc hloc
  · intro lo hlo key loc hloc hseg
    rw [RecStore.store, replayed_concat]
    by_cases hkey : key = r.key
    · subst hkey
      cases hself loc hloc
      exact replayStep_put (decide_eq_true hseg)
    · rw [hother key hkey] at hloc
      rw [replayStep_ne hkey]
      exact hinv.replays lo hlo key loc hloc hseg
  · intro key loc d' hloc hd' off r' hat hkey hoff
    by_cases hrkey : key = r.key
    · -- the new record is the last one
      subst hrkey
      cases hself loc hloc
      obtain ⟨loc', rec, hloc', hrec, hcontent⟩ := hd'
      cases hself loc' hloc'
      obtain ⟨hat₀, hkey₀, hloc₀⟩ := s.orphan_stands cfg r
      have hrec_eq := hrec.at_off.unique hat₀ (horphan.fits hrec.at_off.mem) hr.fits
      obtain hat' | ⟨-, -, rfl⟩ := orphan_at hat
      · have hend : off + ((segFraming cfg.crc).encode r').length ≤
            ((segFraming cfg.crc).encodeAll (s.segs s.hi)).length := hat'.end_le
        have hpos := Framing.encode_pos (F := segFraming cfg.crc) (hinv.fits hat'.mem)
        have hge : ((segFraming cfg.crc).encodeAll (s.segs s.hi)).length ≤ off := hoff rfl
        omega
      · rw [← hrec_eq]
        exact hcontent
    · rw [hother key hrkey] at hloc
      have hd'' : (s.orphan r).Reads cfg key d' := by
        obtain ⟨loc', rec, hloc', hrec, hcontent⟩ := hd'
        rw [hother key hrkey] at hloc'
        exact ⟨loc', rec, hloc', hrec, hcontent⟩
      exact horphan.newest key loc d' hloc hd'' off r' hat hkey hoff

theorem lose (key : Bytes) : (s.lose key).Inv cfg hist where
  lo_le := hinv.lo_le
  hi_lt := hinv.hi_lt
  records := hinv.records
  size := hinv.size
  beyond := hinv.beyond
  placed := hinv.placed
  live_lo key' loc hloc := hinv.live_lo key' loc (lose_tab.mp hloc).2
  replays lo hlo key' loc hloc := hinv.replays lo hlo key' loc (lose_tab.mp hloc).2
  newest key' loc d hloc hd := hinv.newest key' loc d (lose_tab.mp hloc).2 (reads_lose.mp hd).2

theorem del {key : Bytes} {loc : PackLoc}
    (hlive : s.tab key = some loc) : (s.del key loc).Inv cfg hist := by
  have hlose := hinv.lose key
  refine ⟨hinv.lo_le, hinv.hi_lt, hinv.records, hinv.size, hinv.beyond, ?_, hlose.live_lo, ?_,
    hlose.newest⟩
  · intro r hr
    obtain hold | hnew := mem_append.mp hr
    · exact hinv.placed r hold
    · rw [mem_singleton] at hnew
      subst hnew
      obtain ⟨rec, d, hrec, -, -⟩ := hinv.live hlive
      exact ⟨rec, hrec⟩
  · intro lo hlo key' loc' hloc hseg
    obtain ⟨hkey, htab⟩ := lose_tab.mp hloc
    rw [RecStore.del, replayed_concat, replayStep_ne hkey]
    exact hinv.replays lo hlo key' loc' htab hseg

theorem dropSeg (hlo : s.lo < s.hi) : s.dropSeg.Inv cfg hist where
  lo_le := hlo
  hi_lt := hinv.hi_lt
  records := hinv.records
  size := hinv.size
  beyond := hinv.beyond
  placed := hinv.placed
  live_lo key loc hloc := by
    obtain ⟨htab, hne⟩ := dropSeg_tab.mp hloc
    exact Nat.lt_of_le_of_ne (hinv.live_lo key loc htab) (Ne.symm hne)
  replays lo hlo' key loc hloc :=
    hinv.replays lo (Nat.le_of_succ_le hlo') key loc (dropSeg_tab.mp hloc).1
  newest key loc d hloc hd := hinv.newest key loc d (dropSeg_tab.mp hloc).1 (reads_dropSeg hd)

theorem compact {slots : List (Bytes × PackLoc)}
    (hslots : ∀ key loc, (key, loc) ∈ slots ↔ s.tab key = some loc) :
    (s.compact slots).Inv cfg hist where
  lo_le := hinv.lo_le
  hi_lt := hinv.hi_lt
  records := hinv.records
  size := hinv.size
  beyond := hinv.beyond
  placed r hr := by
    obtain ⟨slot, hslot, rfl⟩ := mem_map.mp hr
    obtain ⟨rec, d, hrec, -, -⟩ := hinv.live ((hslots slot.1 slot.2).mp hslot)
    exact ⟨rec, hrec⟩
  live_lo := hinv.live_lo
  replays lo hlo key loc hloc hseg :=
    replayed_puts (fun slot hslot => (hslots slot.1 slot.2).mp hslot) ((hslots key loc).mpr hloc)
      (decide_eq_true hseg)
  newest := hinv.newest

end

end Inv

theorem Move.inv (h : Move cfg hist lossy s s') (hinv : s.Inv cfg hist) : s'.Inv cfg hist := by
  cases h with
  | roll hhi => exact hinv.roll hhi
  | store hr hsize hsame => exact hinv.store hr hsize hsame
  | orphan _ hr hsize hsame => exact hinv.orphan hr hsize hsame
  | del hlive => exact hinv.del hlive
  | lose _ => exact hinv.lose _
  | dropSeg hlo => exact hinv.dropSeg hlo
  | compact hslots => exact hinv.compact hslots

theorem Moves.inv (h : Moves cfg hist lossy s s') (hinv : s.Inv cfg hist) : s'.Inv cfg hist := by
  induction h with
  | refl => exact hinv
  | tail _ hmove ih => exact hmove.inv ih

namespace Exact

theorem roll (hexact : s.Exact cfg) (hinv : s.Inv cfg hist) : s.roll.Exact cfg where
  replays := hexact.replays
  newest key loc hloc off r hat hkey := by
    have hmem := hat.mem
    rw [show s.roll.segs s.roll.hi = [] from hinv.beyond (s.hi + 1) (Nat.lt_succ_self _)] at hmem
    cases hmem

theorem store (hexact : s.Exact cfg) (hinv : s.Inv cfg hist) {r : SegRec} :
    (s.store cfg r).Exact cfg := by
  have hself : (s.store cfg r).tab r.key = some (r.loc s.hi (s.off cfg)) := update_self _ _ _
  have hother : ∀ key, key ≠ r.key → (s.store cfg r).tab key = s.tab key :=
    fun key hkey => update_of_ne hkey _ _
  constructor
  · intro lo hlo key
    rw [show (s.store cfg r).journal = s.journal ++ [⟨opPut, r.key, r.loc s.hi (s.off cfg)⟩] from rfl,
      replayed_concat]
    by_cases hkey : key = r.key
    · subst hkey
      rw [hself]
      obtain hseg | hseg := Nat.lt_or_ge s.hi lo
      · -- a segment this far on has no live key
        have hskip : segFrom lo ⟨opPut, r.key, r.loc s.hi (s.off cfg)⟩ = false :=
          decide_eq_false (Nat.not_le_of_lt hseg)
        rw [replayStep_skip hskip, hexact.replays lo hlo r.key]
        have hnone : decide (lo ≤ (r.loc s.hi (s.off cfg)).seg) = false :=
          decide_eq_false (Nat.not_le_of_lt hseg)
        rw [Option.filter_some, hnone]
        cases htab : s.tab r.key with
        | none => rfl
        | some loc =>
          obtain ⟨rec, d, hrec, -, -⟩ := hinv.live htab
          have hle := hinv.stands_le hrec
          rw [Option.filter_some, decide_eq_false (by omega)]
          rfl
      · have hok : segFrom lo ⟨opPut, r.key, r.loc s.hi (s.off cfg)⟩ = true := decide_eq_true hseg
        rw [replayStep_put hok, Option.filter_some]
        exact (if_pos hok).symm
    · rw [replayStep_ne hkey, hother key hkey]
      exact hexact.replays lo hlo key
  · intro key loc hloc off r' hat hkey
    obtain hat' | ⟨-, hoff, rfl⟩ := orphan_at hat
    · by_cases hrkey : key = r.key
      · subst hrkey
        rw [hself] at hloc
        cases hloc
        have hend := hat'.end_le
        exact ⟨rfl, Nat.le_trans (Nat.le_add_right _ _) hend⟩
      · rw [hother key hrkey] at hloc
        exact hexact.newest key loc hloc off r' hat' hkey
    · subst hkey
      rw [hself] at hloc
      cases hloc
      exact ⟨rfl, Nat.le_of_eq hoff⟩

theorem del (hexact : s.Exact cfg) {key : Bytes} {loc : PackLoc}
    (hlive : s.tab key = some loc) : (s.del key loc).Exact cfg := by
  constructor
  · intro lo hlo key'
    rw [show (s.del key loc).journal = s.journal ++ [⟨opDel, key, loc⟩] from rfl, replayed_concat]
    by_cases hkey : key' = key
    · subst hkey
      rw [show (s.del key' loc).tab key' = none from update_self _ _ _]
      obtain hseg | hseg := Nat.lt_or_ge loc.seg lo
      · have hskip : segFrom lo ⟨opDel, key', loc⟩ = false :=
          decide_eq_false (Nat.not_le_of_lt hseg)
        rw [replayStep_skip hskip, hexact.replays lo hlo key', hlive, Option.filter_some,
          decide_eq_false (Nat.not_le_of_lt hseg)]
        rfl
      · exact replayStep_del (decide_eq_true hseg)
    · rw [replayStep_ne hkey,
        show (s.del key loc).tab key' = s.tab key' from update_of_ne hkey _ _]
      exact hexact.replays lo hlo key'
  · intro key' loc' hloc
    exact hexact.newest key' loc' (lose_tab.mp hloc).2

theorem dropSeg (hexact : s.Exact cfg) : s.dropSeg.Exact cfg where
  replays lo hlo key := by
    rw [show s.dropSeg.journal = s.journal from rfl, hexact.replays lo (Nat.le_of_succ_le hlo) key,
      show s.dropSeg.tab key = (s.tab key).filter fun loc => !(loc.seg == s.lo) from rfl]
    cases s.tab key with
    | none => rfl
    | some loc =>
      by_cases hseg : lo ≤ loc.seg
      · have hne : loc.seg ≠ s.lo := Nat.ne_of_gt (Nat.lt_of_lt_of_le hlo hseg)
        simp [Option.filter_some, hseg, hne]
      · by_cases hne : loc.seg = s.lo
        · have hlt : s.lo < lo := hlo
          simp [Option.filter_some, hne, hlt]
        · simp [Option.filter_some, hseg, hne]
  newest key loc hloc := hexact.newest key loc (dropSeg_tab.mp hloc).1

theorem compact (hexact : s.Exact cfg) {slots : List (Bytes × PackLoc)}
    (hslots : ∀ key loc, (key, loc) ∈ slots ↔ s.tab key = some loc) :
    (s.compact slots).Exact cfg where
  replays lo hlo key := by
    have hputs : ∀ slot ∈ slots, s.tab slot.1 = some slot.2 :=
      fun slot hslot => (hslots slot.1 slot.2).mp hslot
    rw [show (s.compact slots).tab key = s.tab key from rfl]
    apply Option.ext
    intro loc
    rw [Option.filter_eq_some_iff]
    constructor
    · intro h
      obtain ⟨hmem, hok⟩ := replayed_mem h
      obtain ⟨slot, hslot, heq⟩ := mem_map.mp hmem
      cases heq
      exact ⟨hputs slot hslot, hok⟩
    · rintro ⟨hloc, hseg⟩
      exact replayed_puts hputs ((hslots key loc).mpr hloc) hseg
  newest := hexact.newest

end Exact

theorem Move.exact (h : Move cfg hist false s s') (hinv : s.Inv cfg hist) (hexact : s.Exact cfg) :
    s'.Exact cfg := by
  cases h with
  | roll _ => exact hexact.roll hinv
  | store _ _ _ => exact hexact.store hinv
  | orphan hlossy _ _ _ | lose hlossy => cases hlossy
  | del hlive => exact hexact.del hlive
  | dropSeg _ => exact hexact.dropSeg
  | compact hslots => exact hexact.compact hslots

theorem Moves.exact (h : Moves cfg hist false s s') (hinv : s.Inv cfg hist)
    (hexact : s.Exact cfg) : s'.Exact cfg := by
  induction h with
  | refl => exact hexact
  | tail hmoves hmove ih => exact hmove.exact (Moves.inv hmoves hinv) ih

end RecStore

end BrixCache

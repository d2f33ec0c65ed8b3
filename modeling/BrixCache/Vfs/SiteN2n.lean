import BrixCache.Core.Ascii
import BrixCache.Lib.Posix
import BrixCache.Lib.Words

/-!
# Names of a site

`fs/path/site_n2n.c`: from the logical name of a file to the name a backend knows, and back. A
logical name is brought into one form first, in which it has no empty part and no ".", and is
refused where it has "..".
-/

namespace BrixCache

open Words List

/-! ## The canonical form -/

/-- `n2n_next_seg`: the segment, and where the cursor is then -/
def n2nNextSeg (cursor : Bytes) : Option (Bytes × Bytes) :=
  match cursor.dropWhile (· = slash) with
  | [] => none
  | c :: p => some ((c :: p).takeWhile (· ≠ slash), (c :: p).dropWhile (· ≠ slash))

def n2nAppend (cap : ℕ) (out seg : Bytes) : Option Bytes :=
  if cap < out.length + 1 + seg.length + 1 then none else some (out ++ slash :: seg)

def n2nSegIsDot (seg : Bytes) : Bool := seg = [46]

def n2nSegIsDotdot (seg : Bytes) : Bool := seg = [46, 46]

variable {cursor rest seg out lfn : Bytes} {cap : ℕ}

theorem n2nNextSeg_length
    (h : n2nNextSeg cursor = some (seg, rest)) : rest.length < cursor.length := by
  rw [n2nNextSeg] at h
  split at h
  · cases h
  · rename_i c p hp
    cases h
    have hc := dropWhile_head hp
    have hcursor : (c :: p).length ≤ cursor.length := by
      rw [← hp]
      exact (dropWhile_suffix _).length_le
    have hrest : (p.dropWhile (· ≠ slash)).length ≤ p.length :=
      (dropWhile_suffix _).length_le
    rw [dropWhile_cons_of_pos (by simpa using hc)]
    rw [length_cons] at hcursor
    omega

/-- What `brix_n2n_canonicalize` leaves where nothing has been written. -/
def n2nFinish (out : Bytes) : Bytes := if out = [] then [slash] else out

/-- The loop of `brix_n2n_canonicalize`, with what has been written. -/
def n2nCanonLoop (cap : ℕ) (cursor out : Bytes) : Except Errno Bytes :=
  match _h : n2nNextSeg cursor with
  | none => .ok (n2nFinish out)
  | some (seg, rest) =>
    if n2nSegIsDot seg then n2nCanonLoop cap rest out
    else if n2nSegIsDotdot seg then .error .einval
    else
      match n2nAppend cap out seg with
      | none => .error .enametoolong
      | some out' => n2nCanonLoop cap rest out'
termination_by cursor.length
decreasing_by all_goals exact n2nNextSeg_length _h

/-- Dot segments go, `..` is refused. -/
def n2nCanonicalize (lfn : Bytes) (cap : ℕ) : Except Errno Bytes :=
  if cap < 2 then .error .einval else n2nCanonLoop cap lfn []

theorem n2nCanonLoop_none (h : n2nNextSeg cursor = none) :
    n2nCanonLoop cap cursor out = .ok (n2nFinish out) := by
  rw [n2nCanonLoop]
  split
  · rfl
  · rename_i h'
    rw [h] at h'
    cases h'

theorem n2nCanonLoop_some (h : n2nNextSeg cursor = some (seg, rest)) :
    n2nCanonLoop cap cursor out =
      if n2nSegIsDot seg then n2nCanonLoop cap rest out
      else if n2nSegIsDotdot seg then .error .einval
      else
        match n2nAppend cap out seg with
        | none => .error .enametoolong
        | some out' => n2nCanonLoop cap rest out' := by
  rw [n2nCanonLoop]
  split
  · rename_i h'
    rw [h] at h'
    cases h'
  · rename_i h'
    rw [h] at h'
    cases h'
    rfl

theorem n2nAppend_eq_none (h : n2nAppend cap out seg = none) :
    cap < out.length + 1 + seg.length + 1 := by
  rw [n2nAppend] at h
  split at h
  · assumption
  · cases h

theorem n2nAppend_eq_some {out' : Bytes} (h : n2nAppend cap out seg = some out') :
    out' = out ++ slash :: seg ∧ out.length + 1 + seg.length < cap := by
  rw [n2nAppend] at h
  split at h
  · cases h
  · cases h
    exact ⟨rfl, by omega⟩

/-! ## The two directions -/

/-- The three schemes of physical names -/
inductive N2nScheme : Type where
  | identity : N2nScheme
  | ral : N2nScheme
  | cephfsPath : N2nScheme
  deriving DecidableEq

/-- A configured scheme -/
structure N2nCfg : Type where
  scheme : N2nScheme
  pool : Bytes
  /-- what stands before the logical name -/
  pfx : Bytes

def vfsCanonPathBufSize : ℕ := 1024

def n2nCopy (cap : ℕ) (src : Bytes) : Option Bytes :=
  if cap < src.length + 1 then none else some src

/-- The `snprintf` of `brix_n2n_lfn2pfn`, and its check. -/
def n2nPrint (cap : ℕ) (text : Bytes) : Except Errno Bytes :=
  if cap ≤ text.length then .error .enametoolong else .ok text

/-- Logical to physical name. -/
def n2nLfn2pfn (cfg : N2nCfg) (lfn : Bytes) (cap : ℕ) : Except Errno Bytes :=
  if cap = 0 then .error .einval
  else
    match n2nCanonicalize lfn vfsCanonPathBufSize with
    | .error e => .error e
    | .ok canon =>
      match cfg.scheme with
      | .identity =>
        match n2nCopy cap canon with
        | none => .error .enametoolong
        | some pfn => .ok pfn
      | .ral => n2nPrint cap (cfg.pool ++ 58 :: (cfg.pfx ++ canon))
      | .cephfsPath => n2nPrint cap (cfg.pfx ++ canon)

/-- What `brix_n2n_pfn2lfn` does with the configured text: `strncmp`, and past it. -/
def n2nStrip (pfx p : Bytes) : Option Bytes :=
  if 0 < pfx.length then
    if p.take pfx.length ≠ pfx then none else some (p.drop pfx.length)
  else some p

/-- Physical to logical name. -/
def n2nPfn2lfn (cfg : N2nCfg) (pfn : Bytes) (cap : ℕ) : Option Bytes :=
  if cap = 0 then none
  else
    match cfg.scheme with
    | .identity => n2nCopy cap pfn
    | .ral =>
      match pfn.dropWhile (· ≠ 58) with
      | [] => none
      | _ :: p => (n2nStrip cfg.pfx p).bind (n2nCopy cap)
    | .cephfsPath => (n2nStrip cfg.pfx pfn).bind (n2nCopy cap)

/-! ## What is canonical -/

/-- The parts of a name that are kept. -/
def keptSegs (lfn : Bytes) : List Bytes :=
  (words slash lfn).filter fun seg => !n2nSegIsDot seg

/-- A part of the name is "..". -/
def HasDotDot (lfn : Bytes) : Prop :=
  ∃ a b, lfn = a ++ [46, 46] ++ b ∧ (a = [] ∨ ∃ a', a = a' ++ [slash]) ∧
    (b = [] ∨ ∃ b', b = slash :: b')

theorem n2nNextSeg_none (h : n2nNextSeg cursor = none) :
    words slash cursor = [] := by
  rw [n2nNextSeg] at h
  split at h
  · rename_i hnil
    rw [← words_dropWhile, hnil]
    rfl
  · cases h

theorem n2nNextSeg_some (h : n2nNextSeg cursor = some (seg, rest)) :
    words slash cursor = seg :: words slash rest := by
  rw [n2nNextSeg] at h
  split at h
  · cases h
  · rename_i c p hp
    cases h
    rw [← words_dropWhile, hp]
    have hc := dropWhile_head hp
    exact words_cons_of_ne hc p

theorem keptSegs_nil (h : n2nNextSeg cursor = none) :
    keptSegs cursor = [] := by
  rw [keptSegs, n2nNextSeg_none h]
  rfl

theorem keptSegs_dot (h : n2nNextSeg cursor = some (seg, rest))
    (hdot : n2nSegIsDot seg = true) : keptSegs cursor = keptSegs rest := by
  rw [keptSegs, n2nNextSeg_some h, filter_cons_of_neg (by simp [hdot])]
  rfl

theorem keptSegs_cons (h : n2nNextSeg cursor = some (seg, rest))
    (hdot : ¬ n2nSegIsDot seg = true) : keptSegs cursor = seg :: keptSegs rest := by
  rw [keptSegs, n2nNextSeg_some h, filter_cons_of_pos (by simp [hdot])]
  rfl

theorem length_le_n2nFinish (out : Bytes) : out.length ≤ (n2nFinish out).length := by
  rw [n2nFinish]
  split
  · simp_all
  · exact Nat.le_refl _

/-- The loop keeps the names and drops the dots, unless one is `..` or the text is too long. -/
theorem n2nCanonLoop_eq_ok (hcap : 2 ≤ cap) (cursor out : Bytes)
    (hout : out.length < cap) (canon : Bytes) :
    n2nCanonLoop cap cursor out = .ok canon ↔
      [46, 46] ∉ words slash cursor ∧
        canon = n2nFinish (out ++ (keptSegs cursor).flatMap (slash :: ·)) ∧
        canon.length < cap := by
  induction cursor, out using n2nCanonLoop.induct cap with
  | case1 cursor out h =>
    have hfits : (n2nFinish out).length < cap := by
      rw [n2nFinish]
      split
      · exact hcap
      · exact hout
    rw [n2nCanonLoop_none h, n2nNextSeg_none h, keptSegs_nil h]
    simp only [not_mem_nil, not_false_eq_true, true_and, flatMap_nil, append_nil,
      Except.ok.injEq]
    constructor
    · rintro rfl
      exact ⟨rfl, hfits⟩
    · exact fun hc => hc.1.symm
  | case2 cursor out seg rest h hdot ih =>
    rw [n2nCanonLoop_some h, if_pos hdot, n2nNextSeg_some h, keptSegs_dot h hdot]
    have hseg : ([46, 46] : Bytes) ≠ seg := by
      rintro rfl
      exact absurd hdot (by decide)
    simpa [hseg] using ih hout
  | case3 cursor out seg rest h hdot hdotdot =>
    have hseg : seg = [46, 46] := by simpa [n2nSegIsDotdot] using hdotdot
    rw [n2nCanonLoop_some h, if_neg hdot, if_pos hdotdot, n2nNextSeg_some h, hseg]
    simp
  | case4 cursor out seg rest h hdot hdotdot hover =>
    rw [n2nCanonLoop_some h, if_neg hdot, if_neg hdotdot, hover, keptSegs_cons h hdot]
    -- what would be written does not fit
    have hlong : cap ≤ (n2nFinish (out ++ (seg :: keptSegs rest).flatMap (slash :: ·))).length := by
      have hle := length_le_n2nFinish (out ++ (seg :: keptSegs rest).flatMap (slash :: ·))
      have hcap' := n2nAppend_eq_none hover
      simp only [length_append, flatMap_cons, length_cons] at hle
      simp only [flatMap_cons]
      omega
    constructor
    · intro hc
      cases hc
    · rintro ⟨-, rfl, hlt⟩
      omega
  | case5 cursor out seg rest h hdot hdotdot out' hout' ih =>
    obtain ⟨rfl, hroom⟩ := n2nAppend_eq_some hout'
    rw [n2nCanonLoop_some h, if_neg hdot, if_neg hdotdot, hout', n2nNextSeg_some h,
      keptSegs_cons h hdot]
    have hseg : ([46, 46] : Bytes) ≠ seg := by
      rintro rfl
      exact hdotdot (by decide)
    have ih := ih (by simp; omega)
    simpa [hseg] using ih

/-- The canonical form of a name. -/
def canonText (lfn : Bytes) : Bytes := n2nFinish ((keptSegs lfn).flatMap (slash :: ·))

theorem n2nCanonicalize_eq_ok {canon : Bytes} :
    n2nCanonicalize lfn cap = .ok canon ↔
      2 ≤ cap ∧ [46, 46] ∉ words slash lfn ∧ canon = canonText lfn ∧ canon.length < cap := by
  rw [n2nCanonicalize]
  by_cases hcap : cap < 2
  · rw [if_pos hcap]
    constructor
    · intro h
      cases h
    · rintro ⟨h, -⟩
      omega
  · have hcap : 2 ≤ cap := Nat.le_of_not_lt hcap
    rw [if_neg (by omega), n2nCanonLoop_eq_ok hcap lfn [] (by simp; omega) canon]
    simp [hcap, canonText]

theorem of_mem_keptSegs (h : seg ∈ keptSegs lfn) :
    seg ∈ words slash lfn ∧ slash ∉ seg ∧ seg ≠ [] := by
  have hmem := mem_of_mem_filter h
  exact ⟨hmem, of_mem_words hmem⟩

theorem words_canonText (lfn : Bytes) : words slash (canonText lfn) = keptSegs lfn := by
  rw [canonText, n2nFinish]
  split
  · next hnil =>
    cases hkept : keptSegs lfn with
    | nil => rfl
    | cons seg segs => simp [hkept] at hnil
  · exact words_flatMap fun seg h => (of_mem_keptSegs h).2

theorem keptSegs_canonText (lfn : Bytes) : keptSegs (canonText lfn) = keptSegs lfn := by
  rw [keptSegs, words_canonText, keptSegs, filter_filter]
  simp

theorem canonText_canonText (lfn : Bytes) : canonText (canonText lfn) = canonText lfn := by
  rw [canonText, keptSegs_canonText, canonText]

theorem dotdot_mem_words (h : HasDotDot lfn) : [46, 46] ∈ words slash lfn := by
  obtain ⟨a, b, rfl, ha, hb⟩ := h
  have hdots : slash ∉ ([46, 46] : Bytes) := by decide
  have hback : [46, 46] ∈ words slash ([46, 46] ++ b) := by
    obtain rfl | ⟨b', rfl⟩ := hb
    · rw [append_nil, words_eq_self hdots (by simp)]
      exact mem_cons_self
    · rw [words_append_sep hdots (by simp)]
      exact mem_cons_self
  obtain rfl | ⟨a', rfl⟩ := ha
  · exact hback
  · have hfront : a' ++ [slash] ++ [46, 46] ++ b = a' ++ slash :: ([46, 46] ++ b) := by simp
    rw [hfront, words_append]
    exact mem_append_right _ hback

/-! ## There and back -/

/-- The name a backend knows, of a canonical one. -/
def N2nCfg.text (cfg : N2nCfg) (canon : Bytes) : Bytes :=
  match cfg.scheme with
  | .identity => canon
  | .ral => cfg.pool ++ 58 :: (cfg.pfx ++ canon)
  | .cephfsPath => cfg.pfx ++ canon

theorem n2nLfn2pfn_eq_ok {cfg : N2nCfg} {pfn : Bytes} (h : n2nLfn2pfn cfg lfn cap = .ok pfn) :
    ∃ canon, n2nCanonicalize lfn vfsCanonPathBufSize = .ok canon ∧ pfn = cfg.text canon ∧
      pfn.length < cap := by
  rw [n2nLfn2pfn] at h
  split at h
  · cases h
  · split at h
    · cases h
    · rename_i canon hcanon
      refine ⟨canon, hcanon, ?_⟩
      rw [N2nCfg.text]
      cases hscheme : cfg.scheme with
      | identity =>
        simp only [hscheme, n2nCopy] at h ⊢
        split at h
        · cases h
        · rename_i hcopy
          split at hcopy
          · cases hcopy
          · cases hcopy
            cases h
            exact ⟨rfl, by omega⟩
      | ral | cephfsPath =>
        simp only [hscheme, n2nPrint] at h ⊢
        split at h
        · cases h
        · cases h
          exact ⟨rfl, by omega⟩

theorem n2nStrip_append (pfx p : Bytes) : n2nStrip pfx (pfx ++ p) = some p := by
  rw [n2nStrip]
  split
  · simp
  · have hnil : pfx = [] := by
      rw [← length_eq_zero_iff]
      omega
    rw [hnil, nil_append]

theorem n2nCopy_of_lt {src : Bytes} (h : src.length < cap) :
    n2nCopy cap src = some src := by
  rw [n2nCopy, if_neg (by omega)]

theorem n2nPfn2lfn_text {cfg : N2nCfg} (hpool : (58 : UInt8) ∉ cfg.pool) {canon : Bytes}
    (hcap : canon.length < cap) : n2nPfn2lfn cfg (cfg.text canon) cap = some canon := by
  rw [n2nPfn2lfn, if_neg (by omega), N2nCfg.text]
  cases cfg.scheme with
  | identity => exact n2nCopy_of_lt hcap
  | ral =>
    have hcolon : (cfg.pool ++ 58 :: (cfg.pfx ++ canon)).dropWhile (· ≠ 58) =
        58 :: (cfg.pfx ++ canon) := by
      rw [dropWhile_append_of_pos]
      · simp
      · intro c hc
        have hne : c ≠ 58 := fun h => hpool (h ▸ hc)
        simpa using hne
    dsimp only
    rw [hcolon]
    dsimp only
    rw [n2nStrip_append, Option.bind_some, n2nCopy_of_lt hcap]
  | cephfsPath =>
    dsimp only
    rw [n2nStrip_append, Option.bind_some, n2nCopy_of_lt hcap]

theorem length_le_text (cfg : N2nCfg) (canon : Bytes) :
    canon.length ≤ (cfg.text canon).length := by
  rw [N2nCfg.text]
  cases cfg.scheme with
  | identity => exact Nat.le_refl _
  | ral =>
    simp only [length_append, length_cons]
    omega
  | cephfsPath => simp

/-- **The two directions undo each other on canonical names**: the name that comes back from the
backend's is the canonical form of the one that was given, the form is its own form, names of
different forms are kept apart, no name with ".." goes through, and the form is the kept segments
of the name. -/
theorem n2n_bijection (cfg : N2nCfg) (hpool : (58 : UInt8) ∉ cfg.pool) :
    (∀ lfn pfn cap, n2nLfn2pfn cfg lfn cap = .ok pfn →
      ∃ canon, n2nCanonicalize lfn vfsCanonPathBufSize = .ok canon ∧ canon.length < cap ∧
        ∀ cap', canon.length < cap' → n2nPfn2lfn cfg pfn cap' = some canon) ∧
    (∀ lfn canon cap, n2nCanonicalize lfn cap = .ok canon →
      n2nCanonicalize canon cap = .ok canon) ∧
    (∀ lfn lfn' pfn pfn' cap cap',
      n2nLfn2pfn cfg lfn cap = .ok pfn → n2nLfn2pfn cfg lfn' cap' = .ok pfn' →
        n2nCanonicalize lfn vfsCanonPathBufSize ≠ n2nCanonicalize lfn' vfsCanonPathBufSize →
        pfn ≠ pfn') ∧
    (∀ lfn, HasDotDot lfn → (∀ cap canon, n2nCanonicalize lfn cap ≠ .ok canon) ∧
      ∀ cap pfn, n2nLfn2pfn cfg lfn cap ≠ .ok pfn) ∧
    ∀ lfn canon cap, n2nCanonicalize lfn cap = .ok canon ↔
      2 ≤ cap ∧ [46, 46] ∉ words slash lfn ∧ canon = canonText lfn ∧ canon.length < cap := by
  refine ⟨?_, ?_, ?_, ?_, fun _ _ _ => n2nCanonicalize_eq_ok⟩
  · intro lfn pfn cap h
    obtain ⟨canon, hcanon, rfl, hcap⟩ := n2nLfn2pfn_eq_ok h
    have hle := length_le_text cfg canon
    exact ⟨canon, hcanon, by omega, fun cap' hcap' => n2nPfn2lfn_text hpool hcap'⟩
  · intro lfn canon cap h
    obtain ⟨hcap, hdots, rfl, hlen⟩ := n2nCanonicalize_eq_ok.mp h
    refine n2nCanonicalize_eq_ok.mpr ⟨hcap, ?_, (canonText_canonText lfn).symm, hlen⟩
    rw [words_canonText]
    exact fun hmem => hdots (of_mem_keptSegs hmem).1
  · intro lfn lfn' pfn pfn' cap cap' h h' hne heq
    obtain ⟨canon, hcanon, hpfn, hcap⟩ := n2nLfn2pfn_eq_ok h
    obtain ⟨canon', hcanon', hpfn', hcap'⟩ := n2nLfn2pfn_eq_ok h'
    -- the name of the backend is read back as both forms
    have hroom : canon.length < canon.length + canon'.length + 1 := by omega
    have hroom' : canon'.length < canon.length + canon'.length + 1 := by omega
    have hread := n2nPfn2lfn_text hpool hroom
    have hread' := n2nPfn2lfn_text hpool hroom'
    rw [← hpfn] at hread
    rw [← hpfn', ← heq, hread] at hread'
    cases hread'
    exact hne (hcanon.trans hcanon'.symm)
  · intro lfn hdots
    have hmem := dotdot_mem_words hdots
    constructor
    · intro cap canon h
      exact (n2nCanonicalize_eq_ok.mp h).2.1 hmem
    · intro cap pfn h
      obtain ⟨canon, hcanon, -⟩ := n2nLfn2pfn_eq_ok h
      exact (n2nCanonicalize_eq_ok.mp hcanon).2.1 hmem

theorem n2n_bijection_sample :
    n2nPfn2lfn ⟨.ral, ascii "pool", ascii "base:"⟩ (ascii "pool:base:/a/b") 64 =
      some (ascii "/a/b") := by
  have hcanon : n2nCanonicalize (ascii "a//./b/") vfsCanonPathBufSize = .ok (ascii "/a/b") :=
    n2nCanonicalize_eq_ok.mpr (by decide)
  have hpfn : n2nLfn2pfn ⟨.ral, ascii "pool", ascii "base:"⟩ (ascii "a//./b/") 64 =
      .ok (ascii "pool:base:/a/b") := by
    rw [n2nLfn2pfn, hcanon]
    rfl
  obtain ⟨canon, hcanon', -, hback⟩ :=
    (n2n_bijection ⟨.ral, ascii "pool", ascii "base:"⟩ (by decide)).1 _ _ _ hpfn
  rw [hcanon] at hcanon'
  cases hcanon'
  exact hback 64 (by decide)

end BrixCache

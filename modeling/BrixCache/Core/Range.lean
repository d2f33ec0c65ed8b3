import BrixCache.Core.LockRecord

/-!
# Ranges of a header

`core/compat/range_vector.c` and `range.c`: the components of a `Range` value, each `A-B`, `A-` or
`-N`, against the size of a file. The parser of one range asks the parser of many for one, and takes
a component that is no range for one that is not there, and one beyond the file for an error.
-/

namespace BrixCache

open List

/-! ## The parsers -/

def ngxMaxOffTValue : ℤ := 2 ^ 63 - 1

/-- The loop of `ngx_atoof`. -/
def ngxAtoofLoop : ℤ → Bytes → ℤ
  | value, [] => value
  | value, c :: line =>
    if c < 48 || 57 < c then -1
    else if ngxMaxOffTValue / 10 ≤ value ∧
        (ngxMaxOffTValue / 10 < value ∨ ngxMaxOffTValue % 10 < ((c.toNat - 48 : ℕ) : ℤ)) then -1
    else ngxAtoofLoop (value * 10 + ((c.toNat - 48 : ℕ) : ℤ)) line

/-- `ngx_atoof`: -1 for what is no number, or no offset. -/
def ngxAtoof (line : Bytes) : ℤ := if line = [] then -1 else ngxAtoofLoop 0 line

/-- `brix_byte_range_t`: both ends belong to it. -/
structure HttpByteRange : Type where
  start : ℤ
  last : ℤ
  deriving DecidableEq

/-- `brix_range_vector_opts_t` -/
structure RangeOpts : Type where
  maxRanges : ℕ
  allowSuffix : Bool
  allowOpenEnded : Bool
  dropUnsatisfiable : Bool

/-- `brix_range_fail_e` -/
inductive RangeFail : Type where
  | none : RangeFail
  | malformed : RangeFail
  | unsatisfiable : RangeFail
  deriving DecidableEq

/-- `range_vector_parse_suffix`, of what follows the dash -/
def rangeVectorParseSuffix (text : Bytes) (size : ℤ) (opts : RangeOpts) :
    Option HttpByteRange :=
  if opts.allowSuffix = false then none
  else if ngxAtoof text < 0 then none
  else some ⟨size - min (ngxAtoof text) size, size - 1⟩

/-- `range_vector_parse_explicit`, of what is before the dash and what follows it -/
def rangeVectorParseExplicit (first last : Bytes) (size : ℤ) (opts : RangeOpts) :
    Option HttpByteRange :=
  if ngxAtoof first < 0 then none
  else if last = [] then
    if opts.allowOpenEnded = false then none else some ⟨ngxAtoof first, size - 1⟩
  else if ngxAtoof last < 0 then none
  else some ⟨ngxAtoof first, if size ≤ ngxAtoof last then size - 1 else ngxAtoof last⟩

/-- `range_vector_parse_one`; what it gives for a failure is up to `range_vector_reject`. -/
def rangeVectorParseOne (text : Bytes) (size : ℤ) (opts : RangeOpts) :
    Except RangeFail HttpByteRange :=
  match text.dropWhile (· ≠ 45) with
  | [] => .error .malformed
  | _ :: after =>
    let parsed :=
      if text.takeWhile (· ≠ 45) = [] then rangeVectorParseSuffix after size opts
      else rangeVectorParseExplicit (text.takeWhile (· ≠ 45)) after size opts
    match parsed with
    | none => .error .malformed
    | some r =>
      if size ≤ r.start then .error .unsatisfiable
      else if r.start < 0 ∨ r.last < r.start then .error .malformed
      else .ok r

/-- What `brix_http_parse_range_vector` leaves: the ranges it has stored, and why it stopped, if it
did. -/
structure RangeVector : Type where
  ranges : List HttpByteRange
  fail : RangeFail
  deriving DecidableEq

/-- The loop of `brix_http_parse_range_vector`. -/
def rangeVectorLoop (size : ℤ) (opts : RangeOpts) (data : Bytes)
    (stored : List HttpByteRange) : RangeVector :=
  if opts.maxRanges ≤ stored.length then ⟨stored, .none⟩
  else
    match _hp : data.dropWhile (· = 32) with
    | [] => ⟨stored, .none⟩
    | c :: p =>
      match rangeVectorParseOne ((c :: p).takeWhile (· ≠ 44)) size opts with
      | .ok r => rangeVectorLoop size opts (((c :: p).dropWhile (· ≠ 44)).drop 1) (stored ++ [r])
      | .error why =>
        if opts.dropUnsatisfiable then
          rangeVectorLoop size opts (((c :: p).dropWhile (· ≠ 44)).drop 1) stored
        else ⟨stored, why⟩
termination_by data.length
decreasing_by
  all_goals
    have hdata : (c :: p).length ≤ data.length := by
      rw [← _hp]
      exact (dropWhile_suffix _).length_le
    have hrest : ((c :: p).dropWhile (· ≠ 44)).length ≤ (c :: p).length :=
      (dropWhile_suffix _).length_le
    simp only [length_drop, length_cons] at hdata hrest ⊢
    omega

/-- `brix_http_parse_range_vector`, of the value after "bytes=" -/
def httpParseRangeVector (data : Bytes) (size : ℤ) (opts : RangeOpts) : RangeVector :=
  rangeVectorLoop size opts data []

/-- A range that was asked for, inclusive -/
structure HttpRange : Type where
  start : ℤ
  last : ℤ
  present : Bool
  satisfiable : Bool
  deriving DecidableEq

def HttpRange.full (size : ℤ) : HttpRange := ⟨0, if 0 < size then size - 1 else 0, false, true⟩

/-- The options of `brix_http_parse_range`. -/
def singleRangeOpts : RangeOpts := ⟨1, true, true, false⟩

/-- The range of a header over `size` bytes. -/
def httpParseRange (hdr : Option Bytes) (size : ℤ) : HttpRange :=
  match hdr with
  | none => .full size
  | some val =>
    if val.length < 7 ∨ val.take 6 ≠ ascii "bytes=" then .full size
    else
      match httpParseRangeVector (val.drop 6) size singleRangeOpts with
      | ⟨_, .unsatisfiable⟩ => { HttpRange.full size with present := true, satisfiable := false }
      | ⟨_, .malformed⟩ => .full size
      | ⟨[r], .none⟩ => ⟨r.start, r.last, true, true⟩
      | ⟨_, .none⟩ => .full size

/-! ## Numbers -/

theorem le_foldl_digits (v : ℕ) (line : Bytes) :
    v ≤ line.foldl (fun v b => v * 10 + (b.toNat - 48)) v := by
  induction line generalizing v with
  | nil => exact Nat.le_refl _
  | cons c line ih =>
    have hc := ih (v * 10 + (c.toNat - 48))
    rw [foldl_cons]
    omega

theorem ngxAtoofLoop_eq {v : ℕ} (line : Bytes) (hv : v < 2 ^ 63) :
    ngxAtoofLoop v line =
      if line.all isCDigit ∧ line.foldl (fun v b => v * 10 + (b.toNat - 48)) v < 2 ^ 63 then
        ((line.foldl (fun v b => v * 10 + (b.toNat - 48)) v : ℕ) : ℤ)
      else -1 := by
  induction line generalizing v with
  | nil =>
    rw [ngxAtoofLoop, if_pos ⟨rfl, hv⟩]
    rfl
  | cons c line ih =>
    have hle := le_foldl_digits (v * 10 + (c.toNat - 48)) line
    rw [ngxAtoofLoop, foldl_cons]
    by_cases hc : isCDigit c = true
    · have hc' : ¬ (c < 48 || 57 < c) = true := by
        simp only [isCDigit, Bool.and_eq_true, decide_eq_true_eq, Bool.or_eq_true,
          UInt8.le_iff_toNat_le, UInt8.lt_iff_toNat_lt] at hc ⊢
        omega
      have hd : c.toNat - 48 ≤ 9 := by
        simp only [isCDigit, Bool.and_eq_true, decide_eq_true_eq, UInt8.le_iff_toNat_le] at hc
        have h57 : (57 : UInt8).toNat = 57 := rfl
        omega
      rw [if_neg hc']
      by_cases hover : v * 10 + (c.toNat - 48) < 2 ^ 63
      · -- the number goes on
        have hgo : ¬ (ngxMaxOffTValue / 10 ≤ (v : ℤ) ∧
            (ngxMaxOffTValue / 10 < (v : ℤ) ∨ ngxMaxOffTValue % 10 < ((c.toNat - 48 : ℕ) : ℤ))) := by
          rw [ngxMaxOffTValue]
          omega
        have hcast : (v : ℤ) * 10 + ((c.toNat - 48 : ℕ) : ℤ) =
            ((v * 10 + (c.toNat - 48) : ℕ) : ℤ) := by
          push_cast
          rfl
        rw [if_neg hgo, hcast, ih hover, all_cons, hc, Bool.true_and]
      · have hstop : ngxMaxOffTValue / 10 ≤ (v : ℤ) ∧
            (ngxMaxOffTValue / 10 < (v : ℤ) ∨ ngxMaxOffTValue % 10 < ((c.toNat - 48 : ℕ) : ℤ)) := by
          rw [ngxMaxOffTValue]
          omega
        rw [if_pos hstop, if_neg]
        rintro ⟨-, hsmall⟩
        omega
    · have hc' : (c < 48 || 57 < c) = true := by
        simp only [isCDigit, Bool.and_eq_true, decide_eq_true_eq, Bool.or_eq_true,
          UInt8.le_iff_toNat_le, UInt8.lt_iff_toNat_lt] at hc ⊢
        omega
      rw [if_pos hc', if_neg]
      rintro ⟨hall, -⟩
      rw [all_cons, Bool.and_eq_true] at hall
      exact hc hall.1

/-- The digits of an `off_t` -/
def OffsetText (line : Bytes) : Prop :=
  line ≠ [] ∧ line.all isCDigit ∧ digitsValue line < 2 ^ 63

instance (line : Bytes) : Decidable (OffsetText line) :=
  inferInstanceAs (Decidable (_ ∧ _ ∧ _))

theorem ngxAtoof_eq (line : Bytes) :
    ngxAtoof line = if OffsetText line then (digitsValue line : ℤ) else -1 := by
  have hloop := ngxAtoofLoop_eq (v := 0) line (by decide)
  rw [ngxAtoof]
  by_cases hnil : line = []
  · simp [hnil, OffsetText]
  · rw [if_neg hnil]
    refine hloop.trans ?_
    simp [OffsetText, hnil, digitsValue]

variable {line text first last : Bytes} {opts : RangeOpts} {r : HttpByteRange} {size : ℤ}

theorem ngxAtoof_of_text (h : OffsetText line) :
    ngxAtoof line = digitsValue line := by
  rw [ngxAtoof_eq, if_pos h]

theorem ngxAtoof_neg (h : ¬ OffsetText line) : ngxAtoof line < 0 := by
  rw [ngxAtoof_eq, if_neg h]
  decide

theorem not_ngxAtoof_neg (h : OffsetText line) : ¬ ngxAtoof line < 0 := by
  rw [ngxAtoof_of_text h]
  omega

/-! ## What is stored -/

/-- A range inside `size` bytes -/
def HttpByteRange.Within (size : ℤ) (r : HttpByteRange) : Prop :=
  0 ≤ r.start ∧ r.start ≤ r.last ∧ r.last < size

theorem rangeVectorParseSuffix_last (h : rangeVectorParseSuffix text size opts = some r) :
    r.last < size := by
  rw [rangeVectorParseSuffix] at h
  split at h
  · cases h
  · split at h
    · cases h
    · cases h
      exact Int.sub_one_lt_of_le (Int.le_refl size)

theorem rangeVectorParseExplicit_last (h : rangeVectorParseExplicit first last size opts = some r) :
    r.last < size := by
  rw [rangeVectorParseExplicit] at h
  split at h
  · cases h
  · split at h
    · split at h
      · cases h
      · cases h
        exact Int.sub_one_lt_of_le (Int.le_refl size)
    · split at h
      · cases h
      · cases h
        dsimp only
        split <;> omega

theorem rangeVectorParseOne_within (h : rangeVectorParseOne text size opts = .ok r) : r.Within size := by
  rw [rangeVectorParseOne] at h
  split at h
  · cases h
  · rename_i after _
    dsimp only at h
    split at h
    · cases h
    · rename_i parsed hparsed
      have hlast : parsed.last < size := by
        split at hparsed
        · exact rangeVectorParseSuffix_last hparsed
        · exact rangeVectorParseExplicit_last hparsed
      split at h
      · cases h
      · split at h
        · cases h
        · rename_i hbad
          cases h
          obtain ⟨hneg, hrev⟩ := not_or.mp hbad
          exact ⟨by omega, by omega, hlast⟩

theorem rangeVectorLoop_cons {data p : Bytes} {c : UInt8}
    {stored : List HttpByteRange} (hroom : ¬ opts.maxRanges ≤ stored.length)
    (hp : data.dropWhile (· = 32) = c :: p) :
    rangeVectorLoop size opts data stored =
      match rangeVectorParseOne ((c :: p).takeWhile (· ≠ 44)) size opts with
      | .ok r => rangeVectorLoop size opts (((c :: p).dropWhile (· ≠ 44)).drop 1) (stored ++ [r])
      | .error why =>
        if opts.dropUnsatisfiable then
          rangeVectorLoop size opts (((c :: p).dropWhile (· ≠ 44)).drop 1) stored
        else ⟨stored, why⟩ := by
  rw [rangeVectorLoop, if_neg hroom]
  split
  · rename_i h
    rw [hp] at h
    cases h
  · rename_i h
    rw [hp] at h
    cases h
    rfl

theorem rangeVectorLoop_full (data : Bytes)
    {stored : List HttpByteRange} (h : opts.maxRanges ≤ stored.length) :
    rangeVectorLoop size opts data stored = ⟨stored, .none⟩ := by
  rw [rangeVectorLoop, if_pos h]

theorem rangeVectorLoop_nil {data : Bytes}
    (stored : List HttpByteRange) (hp : data.dropWhile (· = 32) = []) :
    rangeVectorLoop size opts data stored = ⟨stored, .none⟩ := by
  rw [rangeVectorLoop]
  split
  · rfl
  · split
    · rfl
    · rename_i h
      rw [hp] at h
      cases h

/-- Every range of the vector is within the file. -/
theorem rangeVectorLoop_within (size : ℤ) (opts : RangeOpts) (data : Bytes)
    (stored : List HttpByteRange) (hstored : ∀ r ∈ stored, r.Within size)
    (hlen : stored.length ≤ opts.maxRanges) :
    (∀ r ∈ (rangeVectorLoop size opts data stored).ranges, r.Within size) ∧
      (rangeVectorLoop size opts data stored).ranges.length ≤ opts.maxRanges := by
  induction data, stored using rangeVectorLoop.induct size opts with
  | case1 data stored hfull =>
    rw [rangeVectorLoop_full data hfull]
    exact ⟨hstored, hlen⟩
  | case2 data stored hroom hp =>
    rw [rangeVectorLoop_nil stored hp]
    exact ⟨hstored, hlen⟩
  | case3 data stored hroom c p hp r hone ih =>
    rw [rangeVectorLoop_cons hroom hp, hone]
    refine ih ?_ ?_
    · intro r' hr'
      rcases mem_append.mp hr' with hr' | hr'
      · exact hstored r' hr'
      · rw [mem_singleton.mp hr']
        exact rangeVectorParseOne_within hone
    · rw [length_append, length_singleton]
      omega
  | case4 data stored hroom c p hp why hone hdrop ih =>
    rw [rangeVectorLoop_cons hroom hp, hone]
    dsimp only
    rw [if_pos hdrop]
    exact ih hstored hlen
  | case5 data stored hroom c p hp why hone hdrop =>
    rw [rangeVectorLoop_cons hroom hp, hone]
    dsimp only
    rw [if_neg hdrop]
    exact ⟨hstored, hlen⟩

/-! ## The selection of RFC 9110 -/

/-- A component of the value, with its numbers. -/
inductive RangeSpec : Type where
  | between (first last : ℕ) : RangeSpec
  | onward (first : ℕ) : RangeSpec
  | suffix (length : ℕ) : RangeSpec
  deriving DecidableEq

/-- The digits before the dash and after it; there are some on one side at least. -/
def rangeDigits (text : Bytes) : Option (Bytes × Bytes) :=
  let first := text.takeWhile (· ≠ 45)
  match text.dropWhile (· ≠ 45) with
  | [] => none
  | _ :: last =>
    if first.all isCDigit && last.all isCDigit && !(first.isEmpty && last.isEmpty) then
      some (first, last)
    else none

/-- What a component stands for, if it is well formed. A range that ends before it starts is
not. -/
def rangeSpec (text : Bytes) : Option RangeSpec :=
  match rangeDigits text with
  | none => none
  | some (first, last) =>
    if first.isEmpty then some (.suffix (digitsValue last))
    else if last.isEmpty then some (.onward (digitsValue first))
    else if digitsValue first ≤ digitsValue last then
      some (.between (digitsValue first) (digitsValue last))
    else none

/-- The bytes a range selects. -/
def RangeSpec.select (size : ℤ) : RangeSpec → HttpByteRange
  | .between first last => ⟨first, min (last : ℤ) (size - 1)⟩
  | .onward first => ⟨first, size - 1⟩
  | .suffix length => ⟨size - min (length : ℤ) size, size - 1⟩

/-- What a header with one component asks for: a component that is not well formed is ignored, one
that selects nothing cannot be satisfied. -/
def rfcRange (size : ℤ) : Option RangeSpec → HttpRange
  | none => .full size
  | some spec =>
    if (spec.select size).last < (spec.select size).start then
      { HttpRange.full size with present := true, satisfiable := false }
    else ⟨(spec.select size).start, (spec.select size).last, true, true⟩

/-- The condition on a component: its numbers are offsets, or, where it ends before it starts, it
starts in the file or at no offset at all. -/
def RangeFits (size : ℤ) (text : Bytes) : Prop :=
  match rangeDigits text with
  | none => True
  | some (first, last) =>
    if first ≠ [] ∧ last ≠ [] ∧ digitsValue last < digitsValue first then
      (digitsValue first : ℤ) < size ∨ 2 ^ 63 ≤ digitsValue first
    else digitsValue first < 2 ^ 63 ∧ digitsValue last < 2 ^ 63

/-! ## One component -/

def singleRange (size : ℤ) (text : Bytes) : HttpRange :=
  match rangeVectorParseOne text size singleRangeOpts with
  | .ok r => ⟨r.start, r.last, true, true⟩
  | .error .unsatisfiable => { HttpRange.full size with present := true, satisfiable := false }
  | .error _ => .full size

theorem rangeDigits_eq_some (h : rangeDigits text = some (first, last)) :
    text.takeWhile (· ≠ 45) = first ∧ (∃ c, text.dropWhile (· ≠ 45) = c :: last) ∧
      first.all isCDigit ∧ last.all isCDigit ∧ ¬ (first = [] ∧ last = []) := by
  rw [rangeDigits] at h
  split at h
  · cases h
  · rename_i c last' hdash
    split at h
    · rename_i hdigits
      cases h
      simp only [Bool.and_eq_true, Bool.not_eq_true', Bool.and_eq_false_iff,
        isEmpty_eq_false_iff] at hdigits
      refine ⟨rfl, ⟨c, hdash⟩, hdigits.1.1, hdigits.1.2, ?_⟩
      rintro ⟨hfirst, hlast⟩
      rcases hdigits.2 with h | h
      · exact h hfirst
      · exact h hlast
    · cases h

theorem rangeVectorParseOne_of_none (size : ℤ) (h : rangeDigits text = none) :
    rangeVectorParseOne text size singleRangeOpts = .error .malformed := by
  rw [rangeDigits] at h
  rw [rangeVectorParseOne]
  split at h
  · rfl
  · rename_i c last hdash
    dsimp only
    split at h
    · cases h
    · rename_i hdigits
      by_cases hfirst : text.takeWhile (· ≠ 45) = []
      · have hlast : ¬ OffsetText last := by
          rintro ⟨hnil, hall, -⟩
          rw [hfirst] at hdigits
          simp [hall, hnil] at hdigits
        rw [if_pos hfirst, rangeVectorParseSuffix, if_neg (by decide), if_pos (ngxAtoof_neg hlast)]
      · rw [if_neg hfirst, rangeVectorParseExplicit]
        by_cases htext : OffsetText (text.takeWhile (· ≠ 45))
        · have hnot : ¬ last.all isCDigit = true := by
            intro hall
            have hfirstall := htext.2.1
            simp only [hfirstall, hall, Bool.true_and] at hdigits
            simp only [Bool.not_eq_true', Bool.not_eq_false, Bool.and_eq_true,
              List.isEmpty_iff] at hdigits
            exact hfirst hdigits.1
          have hnil : last ≠ [] := by
            rintro rfl
            exact hnot rfl
          have hlast : ¬ OffsetText last := fun h => hnot h.2.1
          rw [if_neg (not_ngxAtoof_neg htext), if_neg hnil, if_pos (ngxAtoof_neg hlast)]
        · rw [if_pos (ngxAtoof_neg htext)]

/-- What the parser of one range says of a range that is read. -/
def rangeVerdict (size : ℤ) (r : HttpByteRange) : HttpRange :=
  if size ≤ r.start then { HttpRange.full size with present := true, satisfiable := false }
  else if r.start < 0 ∨ r.last < r.start then .full size
  else ⟨r.start, r.last, true, true⟩

theorem rangeVerdict_eq (size : ℤ) (r : HttpByteRange) :
    (match (if size ≤ r.start then .error .unsatisfiable
        else if r.start < 0 ∨ r.last < r.start then .error .malformed
        else .ok r : Except RangeFail HttpByteRange) with
      | .ok r => ⟨r.start, r.last, true, true⟩
      | .error .unsatisfiable => { HttpRange.full size with present := true, satisfiable := false }
      | .error _ => HttpRange.full size) = rangeVerdict size r := by
  rw [rangeVerdict]
  by_cases hbeyond : size ≤ r.start
  · rw [if_pos hbeyond, if_pos hbeyond]
  · rw [if_neg hbeyond, if_neg hbeyond]
    by_cases hrev : r.start < 0 ∨ r.last < r.start
    · rw [if_pos hrev, if_pos hrev]
    · rw [if_neg hrev, if_neg hrev]

theorem singleRange_suffix (h : rangeDigits text = some ([], last)) :
    singleRange size text =
      if digitsValue last < 2 ^ 63 then
        rangeVerdict size ((RangeSpec.suffix (digitsValue last)).select size)
      else .full size := by
  obtain ⟨hfirst, ⟨c, hdash⟩, -, hall, hne⟩ := rangeDigits_eq_some h
  have hnil : last ≠ [] := fun hlast => hne ⟨rfl, hlast⟩
  rw [singleRange, rangeVectorParseOne, hdash]
  dsimp only
  rw [if_pos hfirst, rangeVectorParseSuffix, if_neg (by decide)]
  by_cases hfits : digitsValue last < 2 ^ 63
  · have htext : OffsetText last := ⟨hnil, hall, hfits⟩
    rw [if_neg (not_ngxAtoof_neg htext), ngxAtoof_of_text htext, if_pos hfits]
    exact rangeVerdict_eq size _
  · have htext : ¬ OffsetText last := fun h => hfits h.2.2
    rw [if_pos (ngxAtoof_neg htext), if_neg hfits]

theorem singleRange_onward (h : rangeDigits text = some (first, [])) (hnil : first ≠ []) :
    singleRange size text =
      if digitsValue first < 2 ^ 63 then
        rangeVerdict size ((RangeSpec.onward (digitsValue first)).select size)
      else .full size := by
  obtain ⟨hfirst, ⟨c, hdash⟩, hall, -, -⟩ := rangeDigits_eq_some h
  rw [singleRange, rangeVectorParseOne, hdash]
  dsimp only
  rw [hfirst, if_neg hnil, rangeVectorParseExplicit]
  by_cases hfits : digitsValue first < 2 ^ 63
  · have htext : OffsetText first := ⟨hnil, hall, hfits⟩
    rw [if_neg (not_ngxAtoof_neg htext), if_pos rfl, if_neg (by decide), ngxAtoof_of_text htext,
      if_pos hfits]
    exact rangeVerdict_eq size _
  · have htext : ¬ OffsetText first := fun h => hfits h.2.2
    rw [if_pos (ngxAtoof_neg htext), if_neg hfits]

theorem singleRange_between
    (h : rangeDigits text = some (first, last)) (hfirstnil : first ≠ []) (hlastnil : last ≠ []) :
    singleRange size text =
      if digitsValue first < 2 ^ 63 ∧ digitsValue last < 2 ^ 63 then
        rangeVerdict size ((RangeSpec.between (digitsValue first) (digitsValue last)).select size)
      else .full size := by
  obtain ⟨hfirst, ⟨c, hdash⟩, hall, hall', -⟩ := rangeDigits_eq_some h
  rw [singleRange, rangeVectorParseOne, hdash]
  dsimp only
  rw [hfirst, if_neg hfirstnil, rangeVectorParseExplicit]
  by_cases hfits : digitsValue first < 2 ^ 63
  · have htext : OffsetText first := ⟨hfirstnil, hall, hfits⟩
    rw [if_neg (not_ngxAtoof_neg htext), if_neg hlastnil, ngxAtoof_of_text htext]
    by_cases hfits' : digitsValue last < 2 ^ 63
    · have htext' : OffsetText last := ⟨hlastnil, hall', hfits'⟩
      have hclip : (if size ≤ (digitsValue last : ℤ) then size - 1 else (digitsValue last : ℤ)) =
          min (digitsValue last : ℤ) (size - 1) := by
        split <;> omega
      rw [if_neg (not_ngxAtoof_neg htext'), ngxAtoof_of_text htext', hclip,
        if_pos (And.intro hfits hfits')]
      exact rangeVerdict_eq size _
    · have htext' : ¬ OffsetText last := fun h => hfits' h.2.2
      rw [if_pos (ngxAtoof_neg htext'), if_neg fun h => hfits' h.2]
  · have htext : ¬ OffsetText first := fun h => hfits h.2.2
    rw [if_pos (ngxAtoof_neg htext), if_neg fun h => hfits h.1]

theorem rfcRange_ne_full (size : ℤ) (spec : RangeSpec) :
    HttpRange.full size ≠ rfcRange size (some spec) := by
  intro h
  rw [rfcRange] at h
  split at h <;> exact absurd (congrArg HttpRange.present h) (by simp [HttpRange.full])

theorem rangeVerdict_beyond (h : size ≤ r.start) :
    rangeVerdict size r =
      { HttpRange.full size with present := true, satisfiable := false } := if_pos h

theorem rangeVerdict_reversed (h : r.start < size)
    (hrev : r.last < r.start) : rangeVerdict size r = .full size := by
  rw [rangeVerdict, if_neg (Int.not_le.mpr h), if_pos (.inr hrev)]

theorem rangeVerdict_select {spec : RangeSpec}
    (hspec : ∀ first last, spec = .between first last → first ≤ last) :
    rangeVerdict size (spec.select size) = rfcRange size (some spec) := by
  rw [rangeVerdict, rfcRange]
  have hiff : size ≤ (spec.select size).start ↔
      (spec.select size).last < (spec.select size).start := by
    cases spec with
    | between first last =>
      have hle := hspec first last rfl
      simp only [RangeSpec.select]
      omega
    | onward first | suffix length =>
      simp only [RangeSpec.select]
      omega
  have hpos : ¬ (spec.select size).start < 0 := by
    cases spec <;> simp only [RangeSpec.select] <;> omega
  by_cases hnone : size ≤ (spec.select size).start
  · rw [if_pos hnone, if_pos (hiff.mp hnone)]
  · have hsome : ¬ (spec.select size).last < (spec.select size).start := fun h => hnone (hiff.mpr h)
    rw [if_neg hnone, if_neg (not_or.mpr ⟨hpos, hsome⟩), if_neg hsome]

/-- A single range is read as the grammar has it exactly if it fits. -/
theorem singleRange_eq_iff (size : ℤ) (text : Bytes) :
    singleRange size text = rfcRange size (rangeSpec text) ↔ RangeFits size text := by
  rw [rangeSpec, RangeFits]
  rcases h : rangeDigits text with _ | ⟨first, last⟩
  · simp only [iff_true]
    rw [singleRange, rangeVectorParseOne_of_none size h]
    rfl
  obtain ⟨-, -, -, -, hne⟩ := rangeDigits_eq_some h
  dsimp only
  by_cases hfirst : first = []
  · subst hfirst
    have hval : digitsValue [] < 2 ^ 63 := by decide
    rw [singleRange_suffix h]
    simp only [isEmpty_nil, if_true, ne_eq, not_true_eq_false, false_and, if_false, hval,
      true_and]
    by_cases hfits : digitsValue last < 2 ^ 63
    · rw [if_pos hfits, rangeVerdict_select (fun _ _ h => by cases h)]
      exact iff_of_true rfl hfits
    · rw [if_neg hfits]
      exact iff_of_false (rfcRange_ne_full size _) hfits
  · by_cases hlast : last = []
    · subst hlast
      have hval : digitsValue [] < 2 ^ 63 := by decide
      rw [singleRange_onward h hfirst]
      simp only [List.isEmpty_iff, hfirst, if_false, if_true, ne_eq, not_true_eq_false, false_and,
        and_false, hval, and_true]
      by_cases hfits : digitsValue first < 2 ^ 63
      · rw [if_pos hfits, rangeVerdict_select (fun _ _ h => by cases h)]
        exact iff_of_true rfl hfits
      · rw [if_neg hfits]
        exact iff_of_false (rfcRange_ne_full size _) hfits
    · rw [singleRange_between h hfirst hlast]
      simp only [List.isEmpty_iff, hfirst, hlast, if_false, ne_eq, not_false_eq_true, true_and]
      by_cases hle : digitsValue first ≤ digitsValue last
      · rw [if_pos hle, if_neg (by omega : ¬ digitsValue last < digitsValue first)]
        by_cases hfits : digitsValue first < 2 ^ 63 ∧ digitsValue last < 2 ^ 63
        · rw [if_pos hfits, rangeVerdict_select]
          · exact iff_of_true rfl hfits
          · intro a b hab
            cases hab
            exact hle
        · rw [if_neg hfits]
          exact iff_of_false (rfcRange_ne_full size _) hfits
      · -- the range ends before it starts
        rw [if_neg hle, if_pos (by omega : digitsValue last < digitsValue first)]
        by_cases hfits : digitsValue first < 2 ^ 63 ∧ digitsValue last < 2 ^ 63
        · rw [if_pos hfits]
          by_cases hbeyond : size ≤ (digitsValue first : ℤ)
          · rw [rangeVerdict_beyond hbeyond]
            constructor
            · intro heq
              exact absurd (congrArg HttpRange.present heq) (by simp [rfcRange, HttpRange.full])
            · intro hcond
              omega
          · have hrev : ((RangeSpec.between (digitsValue first) (digitsValue last)).select
                size).last < digitsValue first := by
              simp only [RangeSpec.select]
              omega
            rw [rangeVerdict_reversed (Int.not_le.mp hbeyond) hrev]
            simp only [rfcRange, true_iff]
            omega
        · rw [if_neg hfits]
          simp only [rfcRange, true_iff]
          omega

/-! ## The header -/

theorem httpParseRange_single (size : ℤ) {value : Bytes} (hcomma : (44 : UInt8) ∉ value) :
    httpParseRange (some (ascii "bytes=" ++ value)) size =
      singleRange size (value.dropWhile (· = 32)) := by
  have hhead : (ascii "bytes=").length = 6 := rfl
  have htake : (ascii "bytes=" ++ value).take 6 = ascii "bytes=" :=
    take_left' hhead
  have hdrop : (ascii "bytes=" ++ value).drop 6 = value := drop_left' hhead
  rw [httpParseRange]
  dsimp only
  by_cases hshort : value = []
  · subst hshort
    rw [if_pos (.inl (by decide))]
    rfl
  · have hlen : ¬ ((ascii "bytes=" ++ value).length < 7 ∨
        (ascii "bytes=" ++ value).take 6 ≠ ascii "bytes=") := by
      rintro (h | h)
      · rw [length_append, hhead] at h
        have hpos := length_pos_iff.mpr hshort
        omega
      · exact h htake
    rw [if_neg hlen, hdrop, httpParseRangeVector]
    have hroom : ¬ singleRangeOpts.maxRanges ≤ ([] : List HttpByteRange).length := by decide
    rcases hp : value.dropWhile (· = 32) with _ | ⟨c, p⟩
    · rw [rangeVectorLoop_nil [] hp, hp]
      rfl
    · rw [hp]
      have hmem : ∀ x ∈ c :: p, x ≠ 44 := by
        intro x hx hx44
        rw [hx44, ← hp] at hx
        exact hcomma ((dropWhile_suffix _).mem hx)
      have htakeWhile : (c :: p).takeWhile (· ≠ 44) = c :: p := by
        rw [takeWhile_eq_self_iff]
        simpa using hmem
      rw [rangeVectorLoop_cons hroom hp, htakeWhile, singleRange]
      rcases rangeVectorParseOne (c :: p) size singleRangeOpts with why | r
      · cases why <;> rfl
      · -- one range is enough
        dsimp only
        rw [rangeVectorLoop_full _ (by exact Nat.le_refl 1)]
        rfl

/-- **Ranges are sound and faithful**: what is stored are ranges of the file, and no more than asked
for; and a value with one component gives the selection of RFC 9110 exactly when the component
fits. -/
theorem httpParseRange_iff (data : Bytes) (size : ℤ) (opts : RangeOpts) (value : Bytes) :
    ((∀ r ∈ (httpParseRangeVector data size opts).ranges, r.Within size) ∧
        (httpParseRangeVector data size opts).ranges.length ≤ opts.maxRanges) ∧
      ((44 : UInt8) ∉ value →
        (httpParseRange (some (ascii "bytes=" ++ value)) size =
            rfcRange size (rangeSpec (value.dropWhile (· = 32))) ↔
          RangeFits size (value.dropWhile (· = 32)))) := by
  constructor
  · exact rangeVectorLoop_within size opts data [] (fun r hr => absurd hr not_mem_nil)
      (Nat.zero_le _)
  · intro hcomma
    rw [httpParseRange_single size hcomma]
    exact singleRange_eq_iff size _

theorem httpParseRange_iff_sample :
    httpParseRange (some (ascii "bytes= 1-7")) 3 = ⟨1, 2, true, true⟩ := by
  have h := ((httpParseRange_iff [] 3 ⟨0, false, false, false⟩ (ascii " 1-7")).2 (by decide)).mpr
    (show digitsValue (ascii "1") < 2 ^ 63 ∧ digitsValue (ascii "7") < 2 ^ 63 by decide)
  exact h.trans (by decide)

/-- A range that ends before it starts is taken for one beyond the file, and a long number for
nothing. -/
theorem reversed_range_is_unsatisfiable :
    httpParseRange (some (ascii "bytes=5-2")) 3 ≠
        rfcRange 3 (rangeSpec (ascii "5-2")) ∧
      httpParseRange (some (ascii "bytes=0-9223372036854775808")) 3 ≠
        rfcRange 3 (rangeSpec (ascii "0-9223372036854775808")) := by
  constructor
  · have h := httpParseRange_single 3 (show (44 : UInt8) ∉ ascii "5-2" by decide)
    have h' : singleRange 3 (ascii "5-2") ≠ rfcRange 3 (rangeSpec (ascii "5-2")) := by decide
    exact fun heq => h' (h.symm.trans heq)
  · have h := httpParseRange_single 3
      (show (44 : UInt8) ∉ ascii "0-9223372036854775808" by decide)
    have h' : singleRange 3 (ascii "0-9223372036854775808") ≠
        rfcRange 3 (rangeSpec (ascii "0-9223372036854775808")) := by decide
    exact fun heq => h' (h.symm.trans heq)

end BrixCache

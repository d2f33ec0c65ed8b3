import BrixCache.Auth.AuthDb

/-!
# What a rule with several selectors means

The selectors of an accepted line are different, and none of its ids is empty where there are
several; so a rule is the conjunction of its selectors, save that an id `*` beside another of the
pair is compared as it is.
-/

namespace BrixCache

open Words List

/-! ## Accepted lines -/

/-- What an accepted line gives. -/
structure AdbRule.Sound (rule : AdbRule) : Prop where
  nodup : (rule.sels.map Prod.fst).Nodup
  some_sel : rule.sels ≠ []
  ids : rule.sels.length ≠ 1 → ∀ s ∈ rule.sels, s.2 ≠ []

variable {n : ℕ} {id csv field : Bytes}

theorem adbBindLoop_nodup {type : Bytes} {bound sels : List AdbSel}
    (hbound : bound.Nodup) (h : adbBindLoop n type bound = .ok sels) : sels.Nodup := by
  induction type generalizing bound with
  | nil =>
    cases h
    exact hbound
  | cons c type ih =>
    rw [adbBindLoop] at h
    split at h
    · cases h
    · split at h
      · cases h
      · split at h
        · cases h
        · next hnew =>
          refine ih ?_ h
          rw [nodup_append]
          refine ⟨hbound, by simp, ?_⟩
          intro a ha b hb hab
          rw [mem_singleton.mp hb] at hab
          exact hnew (hab ▸ ha)

theorem adbBindSelectors_nodup {type : Bytes} {sels : List AdbSel}
    (h : adbBindSelectors type = .ok sels) : sels.Nodup := by
  rw [adbBindSelectors] at h
  split at h
  · cases h
  · exact adbBindLoop_nodup nodup_nil h

theorem adbBindIdsLoop_ok {p : Bytes} {ids : List Bytes}
    (h : adbBindIdsLoop n p = .ok ids) : ids.length = n ∧ ∀ id ∈ ids, id ≠ [] := by
  induction n generalizing p ids with
  | zero =>
    cases h
    exact ⟨rfl, fun id hid => absurd hid not_mem_nil⟩
  | succ n ih =>
    rw [adbBindIdsLoop] at h
    split at h
    · cases h
    · next hne =>
      split at h
      · cases h
      · next rest hrest =>
        cases h
        obtain ⟨hlen, hids⟩ := ih hrest
        refine ⟨by rw [length_cons, hlen], ?_⟩
        intro id hid
        obtain rfl | hid := mem_cons.mp hid
        · exact hne
        · exact hids id hid

theorem adbBindIds_ok {ids : List Bytes}
    (h : adbBindIds n id = .ok ids) : ids.length = n ∧ 0 < n ∧ (n ≠ 1 → ∀ id ∈ ids, id ≠ []) := by
  rw [adbBindIds] at h
  split at h
  · next hone =>
    cases h
    subst hone
    exact ⟨rfl, Nat.one_pos, fun hne => absurd rfl hne⟩
  · split at h
    · cases h
    · next hcount =>
      obtain ⟨hlen, hids⟩ := adbBindIdsLoop_ok h
      rw [adbIdComponents] at hcount
      exact ⟨hlen, by omega, fun _ => hids⟩

theorem adbAppend_sound {line : AdbLine} {rule : AdbRule} (h : adbAppend line = .ok rule) :
    rule.Sound := by
  rw [adbAppend] at h
  split at h
  · cases h
  · next sels hsels =>
    split at h
    · cases h
    · next ids hids =>
      split at h
      · cases h
      · cases h
        obtain ⟨hlen, hpos, hne⟩ := adbBindIds_ok hids
        have hzip : (sels.zip ids).length = sels.length := by
          rw [length_zip, hlen, Nat.min_self]
        constructor
        · rw [map_fst_zip (Nat.le_of_eq hlen.symm)]
          exact adbBindSelectors_nodup hsels
        · intro hnil
          have hzero := congrArg length hnil
          rw [hzip, length_nil] at hzero
          omega
        · intro hone s hs
          rw [hzip] at hone
          exact hne hone s.2 (of_mem_zip hs).2

theorem adbParseLine_sound {line : Bytes} {rule : AdbRule}
    (h : adbParseLine line = .ok (some rule)) : rule.Sound := by
  rw [adbParseLine] at h
  split at h
  · cases h
  · cases h
  · next tokens _ =>
    cases happend : adbAppend tokens with
    | error defect =>
      rw [happend] at h
      cases h
    | ok rule' =>
      rw [happend] at h
      cases h
      exact adbAppend_sound happend

/-! ## Fields -/

/-- The fields of a list, the empty ones too. -/
def csvFields (csv : Bytes) : List Bytes :=
  csv.takeWhile (· ≠ 44) ::
    match _h : csv.dropWhile (· ≠ 44) with
    | [] => []
    | _ :: rest => csvFields rest
termination_by csv.length
decreasing_by
  have hrest : (csv.dropWhile (· ≠ 44)).length ≤ csv.length :=
    (dropWhile_suffix _).length_le
  rw [_h, length_cons] at hrest
  omega

/-- The places of the two lists of a subject, as far as there are both. -/
def AdbSubject.tuples (subj : AdbSubject) : List (Bytes × Bytes) :=
  (csvFields subj.vorg).zip (csvFields subj.role)

theorem csvFields_nil (h : csv.dropWhile (· ≠ 44) = []) :
    csvFields csv = [csv.takeWhile (· ≠ 44)] := by
  rw [csvFields]
  split
  · rfl
  · rename_i h'
    rw [h] at h'
    cases h'

theorem csvFields_cons {rest : Bytes} {c : UInt8} (h : csv.dropWhile (· ≠ 44) = c :: rest) :
    csvFields csv = csv.takeWhile (· ≠ 44) :: csvFields rest := by
  rw [csvFields]
  split
  · rename_i h'
    rw [h] at h'
    cases h'
  · rename_i h'
    rw [h] at h'
    cases h'
    rfl

theorem adbPairMatches_cons {aId bId ap bp ap' bp' : Bytes} {a b : UInt8}
    (h : ¬ (ap.takeWhile (· ≠ 44) = aId ∧ bp.takeWhile (· ≠ 44) = bId))
    (ha : ap.dropWhile (· ≠ 44) = a :: ap') (hb : bp.dropWhile (· ≠ 44) = b :: bp') :
    adbPairMatches aId bId ap bp = adbPairMatches aId bId ap' bp' := by
  rw [adbPairMatches, if_neg h]
  split
  · rename_i ha' hb'
    rw [ha] at ha'
    rw [hb] at hb'
    cases ha'
    cases hb'
    rfl
  · rename_i hnone
    exact absurd hb (hnone _ _ _ _ ha)

theorem adbPairMatches_end {aId bId ap bp : Bytes}
    (h : ¬ (ap.takeWhile (· ≠ 44) = aId ∧ bp.takeWhile (· ≠ 44) = bId))
    (hend : ap.dropWhile (· ≠ 44) = [] ∨ bp.dropWhile (· ≠ 44) = []) :
    adbPairMatches aId bId ap bp = false := by
  rw [adbPairMatches, if_neg h]
  split
  · rename_i ha hb
    obtain hnil | hnil := hend
    · rw [ha] at hnil
      cases hnil
    · rw [hb] at hnil
      cases hnil
  · rfl

theorem adbPairMatches_iff (aId bId ap bp : Bytes) :
    adbPairMatches aId bId ap bp = true ↔ (aId, bId) ∈ (csvFields ap).zip (csvFields bp) := by
  induction ap using csvFields.induct generalizing bp with
  | case1 ap ih =>
    by_cases h : ap.takeWhile (· ≠ 44) = aId ∧ bp.takeWhile (· ≠ 44) = bId
    · rw [adbPairMatches, if_pos h, ← h.1, ← h.2]
      rw [csvFields, csvFields, zip_cons_cons]
      exact iff_of_true rfl mem_cons_self
    · have hne : (aId, bId) ≠ (ap.takeWhile (· ≠ 44), bp.takeWhile (· ≠ 44)) := by
        intro heq
        cases heq
        exact h ⟨rfl, rfl⟩
      rcases ha : ap.dropWhile (· ≠ 44) with _ | ⟨a, ap'⟩
      · rw [adbPairMatches_end h (.inl ha), csvFields_nil ha, csvFields, zip_cons_cons,
          zip_nil_left, mem_singleton]
        simp only [Bool.false_eq_true, hne]
      · rcases hb : bp.dropWhile (· ≠ 44) with _ | ⟨b, bp'⟩
        · rw [adbPairMatches_end h (.inr hb), csvFields_nil hb, csvFields, zip_cons_cons,
            zip_nil_right, mem_singleton]
          simp only [Bool.false_eq_true, hne]
        · rw [adbPairMatches_cons h ha hb, csvFields_cons ha, csvFields_cons hb,
            zip_cons_cons, mem_cons, or_iff_right hne]
          exact ih a ap' ha bp'

theorem of_mem_csvFields (h : field ∈ csvFields csv) :
    (44 : UInt8) ∉ field ∧ ∀ c ∈ field, c ∈ csv := by
  induction csv using csvFields.induct with
  | case1 csv ih =>
    have hfirst : (44 : UInt8) ∉ csv.takeWhile (· ≠ 44) ∧
        ∀ c ∈ csv.takeWhile (· ≠ 44), c ∈ csv := by
      refine ⟨fun hmem => ?_, fun c hc => (takeWhile_sublist _).mem hc⟩
      simpa using mem_takeWhile_imp hmem
    rcases hrest : csv.dropWhile (· ≠ 44) with _ | ⟨c, rest⟩
    · rw [csvFields_nil hrest] at h
      rw [mem_singleton.mp h]
      exact hfirst
    · rw [csvFields_cons hrest] at h
      obtain rfl | h := mem_cons.mp h
      · exact hfirst
      · obtain ⟨hcomma, hsub⟩ := ih c rest hrest h
        refine ⟨hcomma, fun d hd => (dropWhile_suffix (· ≠ 44)).mem ?_⟩
        rw [hrest]
        exact mem_cons_of_mem c (hsub d hd)

theorem words_csvFields (csv : Bytes) :
    words 44 csv = (csvFields csv).flatMap (words 44) := by
  induction csv using csvFields.induct with
  | case1 csv ih =>
    have hsplit : csv.takeWhile (· ≠ 44) ++ csv.dropWhile (· ≠ 44) = csv :=
      takeWhile_append_dropWhile
    rcases hrest : csv.dropWhile (· ≠ 44) with _ | ⟨c, rest⟩
    · rw [hrest, append_nil] at hsplit
      rw [csvFields_nil hrest, hsplit]
      simp
    · obtain rfl : c = 44 := by simpa using dropWhile_head hrest
      rw [csvFields_cons hrest, flatMap_cons, ← ih 44 rest hrest, ← words_append, ← hrest,
        hsplit]

/-! ## One selector on a place -/

theorem adbCsvMatches_of_field (hfield : field ∈ csvFields csv)
    (h : adbCsvMatches id field = true) : adbCsvMatches id csv = true := by
  rw [adbCsvMatches] at h ⊢
  split at h
  · cases h
  · next hne =>
    have hcsv : csv ≠ [] := by
      rintro rfl
      rw [csvFields_nil rfl] at hfield
      exact hne (mem_singleton.mp hfield)
    rw [if_neg hcsv]
    split
    · rfl
    · next hstar =>
      rw [if_neg hstar] at h
      by_cases hid : cText id = []
      · rw [hid]
        rfl
      · rw [voListContains_iff hid] at h ⊢
        rw [words_csvFields]
        exact mem_flatMap_of_mem hfield h

theorem adbCsvMatches_self (hne : id ≠ []) (hnul : (0 : UInt8) ∉ id)
    (hcomma : (44 : UInt8) ∉ id) : adbCsvMatches id id = true := by
  rw [adbCsvMatches, if_neg hne]
  split
  · rfl
  · rw [cText_eq_self hnul, voListContains_iff hne, words_eq_self hcomma hne]
    exact mem_singleton_self id

theorem eq_of_adbCsvMatches (hne : id ≠ []) (hstar : id ≠ [42])
    (hnul : (0 : UInt8) ∉ id) (hcomma : (44 : UInt8) ∉ field)
    (h : adbCsvMatches id field = true) : field = id := by
  rw [adbCsvMatches] at h
  split at h
  · cases h
  · next hfield =>
    rw [cText_eq_self hnul, voListContains_iff hne, words_eq_self hcomma hfield] at h
    exact (mem_singleton.mp h).symm

/-! ## A rule -/

section

variable (inetPton : AddrFamily → Bytes → Option Bytes)

/-- A selector that is matched alone whatever stands beside it. -/
def AdbSel.Plain (sel : AdbSel) : Prop := sel ≠ .vorg ∧ sel ≠ .role

/-- Every selector but those of a vorg or a role is met. -/
def AdbRule.PlainMatch (rule : AdbRule) (subj : AdbSubject) : Prop :=
  ∀ s ∈ rule.sels, s.1.Plain → adbSelectorMatches inetPton subj s.1 s.2 = true

/-- The rule cut down to one of its selectors. -/
def AdbRule.single (rule : AdbRule) (s : AdbSel × Bytes) : AdbRule := { rule with sels := [s] }

/-- The rule as a conjunction: every selector matches alone, and one place of the subject satisfies
both selectors of a pair. -/
def AdbConjunction (rule : AdbRule) (subj : AdbSubject) : Prop :=
  (∀ s ∈ rule.sels, adbIdentityMatches inetPton (rule.single s) subj = true) ∧
    ∀ v l, (.vorg, v) ∈ rule.sels → (.role, l) ∈ rule.sels →
      ∃ t ∈ subj.tuples, adbCsvMatches v t.1 = true ∧ adbCsvMatches l t.2 = true

/-- The condition on a rule and a subject: the rule has no pair; or its ids stand for themselves; or
a plain selector rejects the subject; or no place of the subject satisfies the pair; or one is the
pair, letter for letter. -/
def AdbFits (rule : AdbRule) (subj : AdbSubject) : Prop :=
  ∀ v l, (.vorg, v) ∈ rule.sels → (.role, l) ∈ rule.sels →
    (v ≠ [42] ∧ l ≠ [42] ∧ 0 ∉ v ∧ 0 ∉ l) ∨ ¬ rule.PlainMatch inetPton subj ∨
      (∀ t ∈ subj.tuples, ¬ (adbCsvMatches v t.1 = true ∧ adbCsvMatches l t.2 = true)) ∨
      (v, l) ∈ subj.tuples

/-- The id that the loop has kept of a selector in the end. -/
def lastIdOf (sel : AdbSel) : List (AdbSel × Bytes) → Option Bytes →
    Option Bytes
  | [], kept => kept
  | s :: sels, kept => lastIdOf sel sels (if s.1 = sel then some s.2 else kept)

variable {sel : AdbSel} {sels : List (AdbSel × Bytes)} {rule : AdbRule} {l v : Bytes}
  {subj : AdbSubject}

theorem lastIdOf_absent
    (h : sel ∉ sels.map Prod.fst) (kept : Option Bytes) : lastIdOf sel sels kept = kept := by
  induction sels with
  | nil => rfl
  | cons s sels ih =>
    rw [map_cons, mem_cons, not_or] at h
    rw [lastIdOf, if_neg (Ne.symm h.1), ih h.2]

theorem lastIdOf_eq_some (h : (sels.map Prod.fst).Nodup) (id : Bytes) :
    lastIdOf sel sels none = some id ↔ (sel, id) ∈ sels := by
  induction sels with
  | nil => simp [lastIdOf]
  | cons s sels ih =>
    rw [map_cons, nodup_cons] at h
    rw [lastIdOf, mem_cons]
    by_cases hs : s.1 = sel
    · subst hs
      rw [if_pos rfl, lastIdOf_absent h.1]
      have hrest : (s.1, id) ∉ sels := fun hmem => h.1 (mem_map.mpr ⟨_, hmem, rfl⟩)
      rw [or_iff_left hrest, Option.some.injEq, Prod.ext_iff]
      simp [eq_comm]
    · have hne : (sel, id) ≠ s := fun heq => hs (by rw [← heq])
      rw [if_neg hs, ih h.2, or_iff_right hne]

theorem AdbRule.Sound.id_unique (hsound : rule.Sound)
    {a b : Bytes} (ha : (sel, a) ∈ rule.sels) (hb : (sel, b) ∈ rule.sels) : a = b := by
  have hsome := (lastIdOf_eq_some hsound.nodup a).mpr ha
  rw [(lastIdOf_eq_some hsound.nodup b).mpr hb] at hsome
  exact (Option.some.inj hsome).symm

theorem AdbRule.Sound.pair_ids (hsound : rule.Sound)
    (hv : (.vorg, v) ∈ rule.sels) (hl : (.role, l) ∈ rule.sels) : v ≠ [] ∧ l ≠ [] := by
  have hmany : rule.sels.length ≠ 1 := by
    intro hone
    obtain ⟨s, hs⟩ := length_eq_one_iff.mp hone
    rw [hs] at hv hl
    have heq := (mem_singleton.mp hv).trans (mem_singleton.mp hl).symm
    cases heq
  exact ⟨hsound.ids hmany _ hv, hsound.ids hmany _ hl⟩

/-- The loop keeps the last vorg and the last role, and asks the other selectors. -/
theorem adbIdentityLoop_eq_some
    (vorgId roleId : Option Bytes) {kept : Option Bytes × Option Bytes} :
    adbIdentityLoop inetPton subj sels vorgId roleId = some kept ↔
      (∀ s ∈ sels, s.1.Plain → adbSelectorMatches inetPton subj s.1 s.2 = true) ∧
        kept = (lastIdOf .vorg sels vorgId, lastIdOf .role sels roleId) := by
  induction sels generalizing vorgId roleId with
  | nil =>
    rw [adbIdentityLoop, lastIdOf, lastIdOf, Option.some.injEq]
    exact ⟨fun h => ⟨fun s hs => absurd hs not_mem_nil, h.symm⟩, fun h => h.2.symm⟩
  | cons s sels ih =>
    obtain ⟨sel, id⟩ := s
    have hplain (hsel : sel.Plain) :
        adbIdentityLoop inetPton subj ((sel, id) :: sels) vorgId roleId =
          if adbSelectorMatches inetPton subj sel id then
            adbIdentityLoop inetPton subj sels vorgId roleId
          else none := by
      cases sel with
      | vorg => exact absurd rfl hsel.1
      | role => exact absurd rfl hsel.2
      | user | group | host | all => rfl
    by_cases hsel : sel.Plain
    · rw [hplain hsel, lastIdOf, if_neg hsel.1, lastIdOf, if_neg hsel.2, forall_mem_cons]
      by_cases hmatch : adbSelectorMatches inetPton subj sel id = true
      · rw [if_pos hmatch, ih]
        simp [hmatch]
      · rw [if_neg hmatch]
        simp [hsel, hmatch]
    · have hpair : sel = .vorg ∨ sel = .role := by
        rw [AdbSel.Plain, not_and_or, not_not, not_not] at hsel
        exact hsel
      rw [forall_mem_cons]
      obtain rfl | rfl := hpair
      · rw [adbIdentityLoop, ih]
        simp [lastIdOf, hsel]
      · rw [adbIdentityLoop, ih]
        simp [lastIdOf, hsel]

theorem adbIdentityMatches_eq (hsound : rule.Sound) (subj : AdbSubject) :
    adbIdentityMatches inetPton rule subj = true ↔
      rule.PlainMatch inetPton subj ∧
        match lastIdOf .vorg rule.sels none, lastIdOf .role rule.sels none with
        | some v, some l => (v, l) ∈ subj.tuples
        | some v, none => adbSelectorMatches inetPton subj .vorg v = true
        | none, some l => adbSelectorMatches inetPton subj .role l = true
        | none, none => True := by
  have hlen : rule.sels.length ≠ 0 := fun h => hsound.some_sel (length_eq_zero_iff.mp h)
  rw [adbIdentityMatches, if_neg hlen]
  cases hloop : adbIdentityLoop inetPton subj rule.sels none none with
  | none =>
    have hplain : ¬ rule.PlainMatch inetPton subj := by
      intro hplain
      have hsome := (adbIdentityLoop_eq_some inetPton none none).mpr ⟨hplain, rfl⟩
      rw [hloop] at hsome
      cases hsome
    simp [hplain]
  | some kept =>
    obtain ⟨hplain, rfl⟩ := (adbIdentityLoop_eq_some inetPton none none).mp hloop
    have hplain : rule.PlainMatch inetPton subj := hplain
    rw [and_iff_right hplain]
    cases lastIdOf .vorg rule.sels none with
    | none => cases lastIdOf .role rule.sels none <;> simp
    | some v =>
      cases lastIdOf .role rule.sels none with
      | none => exact Iff.rfl
      | some l => exact adbPairMatches_iff v l subj.vorg subj.role

theorem adbIdentityMatches_pair (hsound : rule.Sound) (hv : (.vorg, v) ∈ rule.sels)
    (hl : (.role, l) ∈ rule.sels) :
    adbIdentityMatches inetPton rule subj = true ↔
      rule.PlainMatch inetPton subj ∧ (v, l) ∈ subj.tuples := by
  rw [adbIdentityMatches_eq inetPton hsound, (lastIdOf_eq_some hsound.nodup v).mpr hv,
    (lastIdOf_eq_some hsound.nodup l).mpr hl]

/-- A rule without a pair is a conjunction. -/
theorem adbIdentityMatches_iff (hsound : rule.Sound)
    (hpair : ∀ v l, (.vorg, v) ∈ rule.sels → (.role, l) ∉ rule.sels) :
    adbIdentityMatches inetPton rule subj = true ↔
      ∀ s ∈ rule.sels, adbSelectorMatches inetPton subj s.1 s.2 = true := by
  have hkept {s : AdbSel × Bytes} (hs : s ∈ rule.sels) :
      lastIdOf s.1 rule.sels none = some s.2 := (lastIdOf_eq_some hsound.nodup s.2).mpr hs
  have hmem {sel : AdbSel} {id : Bytes} (h : lastIdOf sel rule.sels none = some id) :
      (sel, id) ∈ rule.sels := (lastIdOf_eq_some hsound.nodup id).mp h
  rw [adbIdentityMatches_eq inetPton hsound]
  constructor
  · rintro ⟨hplain, hrest⟩ s hs
    by_cases hsel : s.1.Plain
    · exact hplain s hs hsel
    · have hlast := hkept hs
      obtain ⟨sel, id⟩ := s
      rw [AdbSel.Plain, not_and_or, not_not, not_not] at hsel
      dsimp only at hsel hlast ⊢
      obtain rfl | rfl := hsel
      · have hrole : lastIdOf .role rule.sels none = none := by
          cases hl : lastIdOf .role rule.sels none with
          | none => rfl
          | some l => exact absurd (hmem hl) (hpair id l hs)
        rw [hlast, hrole] at hrest
        exact hrest
      · have hvorg : lastIdOf .vorg rule.sels none = none := by
          cases hv : lastIdOf .vorg rule.sels none with
          | none => rfl
          | some v => exact absurd hs (hpair v id (hmem hv))
        rw [hlast, hvorg] at hrest
        exact hrest
  · intro hall
    refine ⟨fun s hs _ => hall s hs, ?_⟩
    cases hv : lastIdOf .vorg rule.sels none with
    | none =>
      cases hl : lastIdOf .role rule.sels none with
      | none => trivial
      | some l => exact hall _ (hmem hl)
    | some v =>
      cases hl : lastIdOf .role rule.sels none with
      | none => exact hall _ (hmem hv)
      | some l => exact absurd (hmem hl) (hpair v l (hmem hv))

theorem adbIdentityMatches_single (rule : AdbRule) (s : AdbSel × Bytes) (subj : AdbSubject) :
    adbIdentityMatches inetPton (rule.single s) subj =
      adbSelectorMatches inetPton subj s.1 s.2 := by
  have hsound : (rule.single s).Sound :=
    ⟨nodup_cons.mpr ⟨not_mem_nil, nodup_nil⟩, cons_ne_nil _ _,
      fun h => absurd rfl h⟩
  have hpair : ∀ v l, (.vorg, v) ∈ (rule.single s).sels → (.role, l) ∉ (rule.single s).sels := by
    intro v l hv hl
    have heq := (mem_singleton.mp hv).trans (mem_singleton.mp hl).symm
    cases heq
  rw [Bool.eq_iff_iff, adbIdentityMatches_iff inetPton hsound hpair]
  simp [AdbRule.single]

theorem satisfies_of_tuple (hv : v ≠ []) (hl : l ≠ [])
    (h : (v, l) ∈ subj.tuples) : adbCsvMatches v v = true ∧ adbCsvMatches l l = true := by
  obtain ⟨hvorg, hrole⟩ := of_mem_zip h
  obtain ⟨hvcomma, hvsub⟩ := of_mem_csvFields hvorg
  obtain ⟨hlcomma, hlsub⟩ := of_mem_csvFields hrole
  have hvnul : (0 : UInt8) ∉ v := fun h => subj.texts subj.vorg (by simp) (hvsub 0 h)
  have hlnul : (0 : UInt8) ∉ l := fun h => subj.texts subj.role (by simp) (hlsub 0 h)
  exact ⟨adbCsvMatches_self hv hvnul hvcomma, adbCsvMatches_self hl hlnul hlcomma⟩

theorem adbConjunction_pair (hsound : rule.Sound) (hv : (.vorg, v) ∈ rule.sels)
    (hl : (.role, l) ∈ rule.sels) :
    AdbConjunction inetPton rule subj ↔
      rule.PlainMatch inetPton subj ∧
        ∃ t ∈ subj.tuples, adbCsvMatches v t.1 = true ∧ adbCsvMatches l t.2 = true := by
  constructor
  · rintro ⟨hall, hpair⟩
    refine ⟨fun s hs _ => ?_, hpair v l hv hl⟩
    rw [← adbIdentityMatches_single inetPton rule]
    exact hall s hs
  · rintro ⟨hplain, t, ht, htv, htl⟩
    obtain ⟨hvorg, hrole⟩ := of_mem_zip ht
    constructor
    · rintro ⟨sel, id⟩ hs
      rw [adbIdentityMatches_single]
      by_cases hsel : sel.Plain
      · exact hplain _ hs hsel
      · rw [AdbSel.Plain, not_and_or, not_not, not_not] at hsel
        -- a place that satisfies both selectors shows that each holds of its list
        obtain rfl | rfl := hsel
        · rw [hsound.id_unique hs hv]
          exact adbCsvMatches_of_field hvorg htv
        · rw [hsound.id_unique hs hl]
          exact adbCsvMatches_of_field hrole htl
    · intro v' l' hv' hl'
      rw [hsound.id_unique hv' hv, hsound.id_unique hl' hl]
      exact ⟨t, ht, htv, htl⟩

/-- **A rule** matches as the conjunction exactly if it fits. -/
theorem adbIdentityMatches_iff_conjunction (hsound : rule.Sound) (subj : AdbSubject) :
    (adbIdentityMatches inetPton rule subj = true ↔ AdbConjunction inetPton rule subj) ↔
      AdbFits inetPton rule subj := by
  by_cases hpair : ∃ v l, (.vorg, v) ∈ rule.sels ∧ (.role, l) ∈ rule.sels
  · obtain ⟨v, l, hv, hl⟩ := hpair
    obtain ⟨hvne, hlne⟩ := hsound.pair_ids hv hl
    rw [adbIdentityMatches_pair inetPton hsound hv hl, adbConjunction_pair inetPton hsound hv hl]
    have hlit (h : (v, l) ∈ subj.tuples) :
        ∃ t ∈ subj.tuples, adbCsvMatches v t.1 = true ∧ adbCsvMatches l t.2 = true :=
      ⟨(v, l), h, satisfies_of_tuple hvne hlne h⟩
    constructor
    · intro hiff v' l' hv' hl'
      rw [hsound.id_unique hv' hv, hsound.id_unique hl' hl]
      by_cases hplain : rule.PlainMatch inetPton subj
      · refine .inr (.inr ?_)
        by_cases hex : ∃ t ∈ subj.tuples,
            adbCsvMatches v t.1 = true ∧ adbCsvMatches l t.2 = true
        · exact .inr (hiff.mpr ⟨hplain, hex⟩).2
        · exact .inl fun t ht hboth => hex ⟨t, ht, hboth⟩
      · exact .inr (.inl hplain)
    · intro hfits
      refine and_congr_right fun hplain => ⟨hlit, ?_⟩
      rintro ⟨t, ht, htv, htl⟩
      obtain ⟨hvstar, hlstar, hvnul, hlnul⟩ | hno | hno | hmem := hfits v l hv hl
      · -- the ids stand for themselves
        obtain ⟨hvorg, hrole⟩ := of_mem_zip ht
        have hfirst := eq_of_adbCsvMatches hvne hvstar hvnul (of_mem_csvFields hvorg).1 htv
        have hsecond := eq_of_adbCsvMatches hlne hlstar hlnul (of_mem_csvFields hrole).1 htl
        rw [← hfirst, ← hsecond]
        exact ht
      · exact absurd hplain hno
      · exact absurd ⟨htv, htl⟩ (hno t ht)
      · exact hmem
  · have hpair : ∀ v l, (.vorg, v) ∈ rule.sels → (.role, l) ∉ rule.sels :=
      fun v l hv hl => hpair ⟨v, l, hv, hl⟩
    rw [adbIdentityMatches_iff inetPton hsound hpair]
    refine iff_of_true ?_ fun v l hv hl => absurd hl (hpair v l hv)
    constructor
    · intro hall
      refine ⟨fun s hs => ?_, fun v l hv hl => absurd hl (hpair v l hv)⟩
      rw [adbIdentityMatches_single]
      exact hall s hs
    · rintro ⟨hall, -⟩ s hs
      rw [← adbIdentityMatches_single inetPton rule]
      exact hall s hs

theorem adbSelectorMatches_of_matches (hsound : rule.Sound)
    (h : adbIdentityMatches inetPton rule subj = true) {s : AdbSel × Bytes}
    (hs : s ∈ rule.sels) : adbSelectorMatches inetPton subj s.1 s.2 = true := by
  by_cases hpair : ∃ v l, (.vorg, v) ∈ rule.sels ∧ (.role, l) ∈ rule.sels
  · obtain ⟨v, l, hv, hl⟩ := hpair
    obtain ⟨hplain, hmem⟩ := (adbIdentityMatches_pair inetPton hsound hv hl).mp h
    obtain ⟨hvne, hlne⟩ := hsound.pair_ids hv hl
    have hlit := satisfies_of_tuple hvne hlne hmem
    have hconj := (adbConjunction_pair inetPton hsound hv hl).mpr ⟨hplain, _, hmem, hlit⟩
    rw [← adbIdentityMatches_single inetPton rule]
    exact hconj.1 s hs
  · have hpair : ∀ v l, (.vorg, v) ∈ rule.sels → (.role, l) ∉ rule.sels :=
      fun v l hv hl => hpair ⟨v, l, hv, hl⟩
    exact (adbIdentityMatches_iff inetPton hsound hpair).mp h s hs

theorem adbIdentityMatches_mono {rule' : AdbRule} (hsound : rule.Sound)
    (hsound' : rule'.Sound) (hsub : rule'.sels ⊆ rule.sels)
    (h : adbIdentityMatches inetPton rule subj = true) :
    adbIdentityMatches inetPton rule' subj = true := by
  by_cases hpair : ∃ v l, (.vorg, v) ∈ rule'.sels ∧ (.role, l) ∈ rule'.sels
  · obtain ⟨v, l, hv, hl⟩ := hpair
    obtain ⟨hplain, hmem⟩ :=
      (adbIdentityMatches_pair inetPton hsound (hsub hv) (hsub hl)).mp h
    exact (adbIdentityMatches_pair inetPton hsound' hv hl).mpr
      ⟨fun s hs => hplain s (hsub hs), hmem⟩
  · have hpair : ∀ v l, (.vorg, v) ∈ rule'.sels → (.role, l) ∉ rule'.sels :=
      fun v l hv hl => hpair ⟨v, l, hv, hl⟩
    exact (adbIdentityMatches_iff inetPton hsound' hpair).mpr
      fun s hs => adbSelectorMatches_of_matches inetPton hsound h (hsub hs)

/-- **Compound rules are conjunctions** exactly where the condition holds: of every accepted line
and every subject; and a line with fewer of its selectors admits every subject it admits. -/
theorem adbParseLine_conjunction {line : Bytes} {rule : AdbRule}
    (hline : adbParseLine line = .ok (some rule)) :
    (∀ subj, (adbIdentityMatches inetPton rule subj = true ↔ AdbConjunction inetPton rule subj) ↔
      AdbFits inetPton rule subj) ∧
    ∀ line' rule', adbParseLine line' = .ok (some rule') → rule'.sels ⊆ rule.sels →
      ∀ subj, adbIdentityMatches inetPton rule subj = true →
        adbIdentityMatches inetPton rule' subj = true := by
  have hsound := adbParseLine_sound hline
  exact ⟨adbIdentityMatches_iff_conjunction inetPton hsound, fun line' rule' hline' hsub subj h =>
    adbIdentityMatches_mono inetPton hsound (adbParseLine_sound hline') hsub h⟩

end

def voRoleSubject : AdbSubject :=
  ⟨[], [], ascii "cms", ascii "production", [], by decide⟩

theorem tuples_voRoleSubject : voRoleSubject.tuples = [(ascii "cms", ascii "production")] := by
  have hvorg : csvFields voRoleSubject.vorg = [ascii "cms"] := csvFields_nil (by decide)
  have hrole : csvFields voRoleSubject.role = [ascii "production"] := csvFields_nil (by decide)
  rw [AdbSubject.tuples, hvorg, hrole]
  rfl

theorem adbParseLine_conjunction_sample :
    let rule : AdbRule := ⟨[(.vorg, ascii "cms"), (.role, ascii "production")], ascii "/x", 3⟩
    adbIdentityMatches (fun _ _ => none) rule voRoleSubject = true ↔
      AdbConjunction (fun _ _ => none) rule voRoleSubject := by
  have hline : adbParseLine (ascii "vl cms|production /x r") =
      .ok (some ⟨[(.vorg, ascii "cms"), (.role, ascii "production")], ascii "/x", 3⟩) := by decide
  refine ((adbParseLine_conjunction (fun _ _ => none) hline).1 voRoleSubject).mpr ?_
  intro v l hv hl
  simp only [mem_cons, Prod.mk.injEq, not_mem_nil, or_false, reduceCtorEq, false_and,
    true_and, false_or] at hv hl
  subst hv hl
  exact .inl (by decide)

/-- An id `*` in a pair is compared as it is. -/
theorem paired_wildcard_is_literal :
    let rule : AdbRule := ⟨[(.vorg, ascii "cms"), (.role, ascii "*")], ascii "/x", 3⟩
    adbParseLine (ascii "vl cms|* /x r") = .ok (some rule) ∧
      AdbConjunction (fun _ _ => none) rule voRoleSubject ∧
      ¬ adbIdentityMatches (fun _ _ => none) rule voRoleSubject = true := by
  intro rule
  have hline : adbParseLine (ascii "vl cms|* /x r") = .ok (some rule) := by decide
  have hsound := adbParseLine_sound hline
  have hv : (.vorg, ascii "cms") ∈ rule.sels := mem_cons_self
  have hl : (.role, ascii "*") ∈ rule.sels := mem_cons_of_mem _ mem_cons_self
  have hplain : rule.PlainMatch (fun _ _ => none) voRoleSubject := by
    rintro s hs ⟨hvorg, hrole⟩
    simp only [rule, mem_cons, not_mem_nil, or_false] at hs
    obtain rfl | rfl := hs
    · exact absurd rfl hvorg
    · exact absurd rfl hrole
  refine ⟨hline, ?_, ?_⟩
  · rw [adbConjunction_pair _ hsound hv hl, tuples_voRoleSubject]
    exact ⟨hplain, _, mem_singleton_self _,
      adbCsvMatches_self (by decide) (by decide) (by decide), rfl⟩
  · rw [adbIdentityMatches_pair _ hsound hv hl, tuples_voRoleSubject]
    rintro ⟨-, hmem⟩
    exact absurd hmem (by decide)

end BrixCache

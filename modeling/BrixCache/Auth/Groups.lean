import BrixCache.Core.Ascii
import BrixCache.Lib.Words

/-!
# Signed groups

`validate.c`, `json.c` and `acl.c`: the strings of the groups claim are put into one text, each
after a comma, and a VO is looked for between the commas of that text. The text has a bounded
length, and so has each string in it.
-/

namespace BrixCache

open Words List

/-! ## The claim as one text -/

/-- `sizeof(claims->groups)` -/
def claimsGroupsSize : ℕ := 512

/-- The most strings that are taken of the claim. -/
def maxClaimGroups : ℕ := 16

/-- The loop of `json_get_string_array`; an item that is no string is `none`. -/
def jsonGetStringArray (maxItems : ℕ) :
    List (Option Bytes) → List Bytes → List Bytes
  | [], out => out
  | none :: items, out => jsonGetStringArray maxItems items out
  | some str :: items, out =>
    if maxItems ≤ out.length + 1 then out ++ [str.take 255]
    else jsonGetStringArray maxItems items (out ++ [str.take 255])

/-- What `strlen` sees of a buffer. -/
def cText (bytes : Bytes) : Bytes := bytes.takeWhile (· ≠ 0)

/-- The comma before a string that is not the first. -/
def extractComma (i : ℕ) (groups : Bytes) : Bytes :=
  if 0 < i ∧ groups.length + 1 < claimsGroupsSize then groups ++ [44] else groups

/-- The body of the loop of `brix_token_extract_groups`. -/
def extractGroup (i : ℕ) (groups group : Bytes) : Bytes :=
  let groups := extractComma i groups
  let rem := claimsGroupsSize - groups.length - 1
  if rem = 0 then groups
  else groups ++ (cText group).take (min (cText group).length rem)

/-- The loop of `brix_token_extract_groups`. -/
def extractGroupsLoop : ℕ → List Bytes → Bytes → Bytes
  | _, [], groups => groups
  | i, group :: rest, groups => extractGroupsLoop (i + 1) rest (extractGroup i groups group)

/-- `brix_token_extract_groups`, of the items of the claim -/
def tokenExtractGroups (items : List (Option Bytes)) : Bytes :=
  extractGroupsLoop 0 (jsonGetStringArray maxClaimGroups items []) []

/-! ## The membership test -/

/-- The loop of `brix_vo_list_contains`. -/
def voListLoop (required : Bytes) (start : Bytes) : Bool :=
  match start with
  | [] => false
  | c :: s =>
    if (c :: s).takeWhile (· ≠ 44) = required then true
    else voListLoop required (((c :: s).dropWhile (· ≠ 44)).drop 1)
termination_by start.length
decreasing_by
  have hrest : ((c :: s).dropWhile (· ≠ 44)).length ≤ (c :: s).length :=
    (dropWhile_suffix _).length_le
  simp only [length_drop, length_cons] at hrest ⊢
  omega

/-- Some token of the list is the group. -/
def voListContains (voList required : Bytes) : Bool :=
  if required = [] then true else voListLoop required voList

theorem words_after_sep (s : Bytes) :
    words 44 ((s.dropWhile (· ≠ 44)).drop 1) = words 44 (s.dropWhile (· ≠ 44)) := by
  rcases h : s.dropWhile (· ≠ 44) with _ | ⟨d, rest⟩
  · rw [h]
    rfl
  · have hd : d = 44 := by simpa using dropWhile_head h
    rw [h, hd, words_sep_cons]
    rfl

theorem voListLoop_iff {required : Bytes} (hne : required ≠ []) (start : Bytes) :
    voListLoop required start = true ↔ required ∈ words 44 start := by
  induction start using voListLoop.induct required with
  | case1 => simp [voListLoop, words, wordsFrom]
  | case2 c s hpiece =>
    have hc : c ≠ 44 := by
      rintro rfl
      simp only [ne_eq, not_true_eq_false, decide_false, Bool.false_eq_true, not_false_eq_true,
        takeWhile_cons_of_neg] at hpiece
      exact hne hpiece.symm
    rw [voListLoop, if_pos hpiece, words_cons_of_ne hc, hpiece]
    simp
  | case3 c s hpiece ih =>
    rw [voListLoop, if_neg hpiece, ih, words_after_sep]
    by_cases hc : c = 44
    · subst hc
      simp
    · rw [words_cons_of_ne hc, mem_cons, or_iff_right (Ne.symm hpiece)]

theorem voListContains_iff {required : Bytes} (hne : required ≠ []) (voList : Bytes) :
    voListContains voList required = true ↔ required ∈ words 44 voList := by
  rw [voListContains, if_neg hne, voListLoop_iff hne]

/-! ## What the text says -/

def takenGroups (items : List (Option Bytes)) : List Bytes :=
  (items.filterMap id).take maxClaimGroups

/-- What can be read of each string, where the buffer has this much room left for the first. -/
def shownGroups : ℕ → List Bytes → List Bytes
  | _, [] => []
  | room, group :: rest =>
    (cText group).take room :: shownGroups (room - (cText group).length - 1) rest

theorem jsonGetStringArray_eq (maxItems : ℕ) (items : List (Option Bytes))
    (out : List Bytes) (hroom : out.length < maxItems) :
    jsonGetStringArray maxItems items out =
      out ++ ((items.filterMap id).take (maxItems - out.length)).map (take 255) := by
  induction items generalizing out with
  | nil => simp [jsonGetStringArray]
  | cons item items ih =>
    cases item with
    | none => simpa [jsonGetStringArray] using ih out hroom
    | some str =>
      obtain ⟨k, hk⟩ : ∃ k, maxItems - out.length = k + 1 := ⟨maxItems - out.length - 1, by omega⟩
      rw [jsonGetStringArray, hk]
      split
      · next hfull =>
        have hzero : k = 0 := by omega
        simp [hzero]
      · next hmore =>
        have hk' : maxItems - (out ++ [str.take 255]).length = k := by
          rw [length_append, length_singleton]
          omega
        rw [ih _ (by simp; omega), hk']
        simp

theorem jsonGetStringArray_nil (items : List (Option Bytes)) :
    jsonGetStringArray maxClaimGroups items [] = (takenGroups items).map (take 255) :=
  jsonGetStringArray_eq maxClaimGroups items [] (by decide)

theorem take_min_length (s : Bytes) (n : ℕ) : s.take (min s.length n) = s.take n := by
  rw [Nat.min_comm, ← take_take, take_length]

/-- The text that is filled is the names that fit, in order. -/
theorem words_extractGroupsLoop (rest : List Bytes) {i : ℕ} (hi : 0 < i)
    {groups : Bytes} (hlen : groups.length + 1 ≤ claimsGroupsSize) :
    words 44 (extractGroupsLoop i rest groups) =
      words 44 groups ++
        (shownGroups (claimsGroupsSize - groups.length - 2) rest).flatMap (words 44) := by
  induction rest generalizing i groups with
  | nil => simp [extractGroupsLoop, shownGroups]
  | cons group rest ih =>
    rw [extractGroupsLoop, shownGroups, flatMap_cons]
    by_cases hcomma : groups.length + 1 < claimsGroupsSize
    · -- a comma and what there is room for
      have hrem : claimsGroupsSize - (groups ++ [44]).length - 1 =
          claimsGroupsSize - groups.length - 2 := by
        rw [length_append, length_singleton]
        omega
      have hgroup : extractGroup i groups group =
          groups ++ 44 :: (cText group).take (claimsGroupsSize - groups.length - 2) := by
        have hlisted : extractComma i groups = groups ++ [44] := if_pos ⟨hi, hcomma⟩
        rw [extractGroup, hlisted, hrem, take_min_length]
        split
        · next hzero => simp [hzero]
        · simp
      rw [hgroup, ih (Nat.succ_pos i) (by simp; omega), words_append, append_assoc]
      congr 3
      simp only [length_append, length_cons, length_take]
      congr 1
      omega
    · -- no room for anything
      have hfull : extractGroup i groups group = groups := by
        have hlisted : extractComma i groups = groups := if_neg fun h => hcomma h.2
        rw [extractGroup, hlisted, if_pos (by omega)]
      have hroom : claimsGroupsSize - groups.length - 2 = 0 := by omega
      rw [hfull, ih (Nat.succ_pos i) hlen, hroom]
      simp [words, wordsFrom]

theorem words_tokenExtractGroups (items : List (Option Bytes)) :
    words 44 (tokenExtractGroups items) =
      (shownGroups (claimsGroupsSize - 1) ((takenGroups items).map (take 255))).flatMap
        (words 44) := by
  rw [tokenExtractGroups, jsonGetStringArray_nil]
  rcases (takenGroups items).map (take 255) with _ | ⟨group, rest⟩
  · rfl
  · have hgroup : extractGroup 0 [] group = (cText group).take (claimsGroupsSize - 1) := by
      have hlisted : extractComma 0 [] = [] := rfl
      rw [extractGroup, hlisted, if_neg (by decide), take_min_length]
      rfl
    have hlen : ((cText group).take (claimsGroupsSize - 1)).length + 1 ≤ claimsGroupsSize := by
      rw [length_take]
      have hsize : 0 < claimsGroupsSize := by decide
      omega
    rw [extractGroupsLoop, hgroup, words_extractGroupsLoop rest Nat.one_pos hlen, shownGroups,
      flatMap_cons]
    congr 3
    rw [length_take]
    omega

/-! ## Membership -/

/-- The condition on the strings that are taken, where the text has this much room: each stands in
the text whole, without a comma, or what is read of it names strings of the claim all the same. -/
def GroupsFit (claim : List Bytes) : ℕ → List Bytes → Prop
  | _, [] => True
  | room, str :: rest =>
    (str.length ≤ 255 ∧ str.length ≤ room ∧ 44 ∉ str ∧ 0 ∉ str ∨
      ∀ w ∈ words 44 ((cText (str.take 255)).take room), w ∈ claim) ∧
    GroupsFit claim (room - (cText (str.take 255)).length - 1) rest

theorem cText_eq_self {str : Bytes} (h : (0 : UInt8) ∉ str) : cText str = str := by
  rw [cText, takeWhile_eq_self_iff]
  intro c hc
  have hne : c ≠ 0 := fun hzero => h (hzero ▸ hc)
  simpa using hne

theorem words_of_fits {str : Bytes} {room : ℕ}
    (h : str.length ≤ 255 ∧ str.length ≤ room ∧ 44 ∉ str ∧ 0 ∉ str) {w : Bytes}
    (hw : w ∈ words 44 ((cText (str.take 255)).take room)) : w = str := by
  obtain ⟨hcut, hroom, hcomma, hnul⟩ := h
  rw [take_of_length_le hcut, cText_eq_self hnul, take_of_length_le hroom] at hw
  by_cases hne : str = []
  · subst hne
    cases hw
  · rw [words_eq_self hcomma hne] at hw
    exact mem_singleton.mp hw

theorem groupsFit_iff (claim : List Bytes) (taken : List Bytes) (room : ℕ)
    (htaken : ∀ str ∈ taken, str ∈ claim) :
    (∀ w ∈ (shownGroups room (taken.map (take 255))).flatMap (words 44), w ∈ claim) ↔
      GroupsFit claim room taken := by
  induction taken generalizing room with
  | nil => simp [shownGroups, GroupsFit]
  | cons str taken ih =>
    have ih := ih (room - (cText (str.take 255)).length - 1)
      fun s hs => htaken s (mem_cons_of_mem _ hs)
    rw [GroupsFit, map_cons, shownGroups, flatMap_cons, forall_mem_append, ih]
    refine and_congr_left fun _ => ?_
    constructor
    · exact .inr
    · rintro (hfits | hnames)
      · intro w hw
        rw [words_of_fits hfits hw]
        exact htaken str mem_cons_self
      · exact hnames

/-- **Membership comes from the signed groups** exactly when the strings fit: then, and only then,
every VO that the test accepts is a string of the claim. -/
theorem voListContains_extracted_iff (items : List (Option Bytes)) :
    (∀ vo, vo ≠ [] → voListContains (tokenExtractGroups items) vo = true → some vo ∈ items) ↔
      GroupsFit (items.filterMap id) (claimsGroupsSize - 1) (takenGroups items) := by
  have hmem (vo : Bytes) : some vo ∈ items ↔ vo ∈ items.filterMap id := by simp
  have htaken : ∀ str ∈ takenGroups items, str ∈ items.filterMap id :=
    fun str hstr => mem_of_mem_take hstr
  rw [← groupsFit_iff _ _ _ htaken, ← words_tokenExtractGroups]
  constructor
  · intro h w hw
    have hne : w ≠ [] := (of_mem_words hw).2
    exact (hmem w).mp (h w hne ((voListContains_iff hne _).mpr hw))
  · intro h vo hne hvo
    exact (hmem vo).mpr (h vo ((voListContains_iff hne _).mp hvo))

/-- A comma in a string makes two groups of it, and a long string is another once it is cut. -/
theorem extracted_groups_are_not_signed :
    voListContains (tokenExtractGroups [some (ascii "/a,/b")]) (ascii "/b") = true ∧
      some (ascii "/b") ∉ [some (ascii "/a,/b")] ∧
      voListContains (tokenExtractGroups [some (replicate 256 97)])
        (replicate 255 97) = true ∧
      some (replicate 255 97) ∉ [some (replicate 256 (97 : UInt8))] := by
  have hne : replicate 255 (97 : UInt8) ≠ [] := cons_ne_nil _ _
  refine ⟨(voListContains_iff (by decide) _).mpr (by decide), by decide,
    (voListContains_iff hne _).mpr (by decide +kernel), ?_⟩
  intro hmem
  have hlen := congrArg length (Option.some.inj (mem_singleton.mp hmem))
  rw [length_replicate, length_replicate] at hlen
  omega

end BrixCache

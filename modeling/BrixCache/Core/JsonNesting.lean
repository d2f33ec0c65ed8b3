import BrixCache.Core.JsonAgree
import Mathlib.Order.Lattice

/-!
# Depths

The extractor counts the depth of a value that it skips in an `int`, zero again at `2 ^ 32`. It
always comes to its end, and answers what is said of the rest of the text as long as no value in
front of the member nests deeper than that (`jsonGetStr_cur`).
-/

namespace BrixCache

open List

namespace Json

variable {doc s rest key : Bytes} {c : UInt8} {turns size : ℕ}

/-! ## Nesting -/

/-- The greatest depth from `depth` on, brackets in strings apart, up to the end of the value -/
def nestingLoop : ℕ → ℕ → Bytes → ℕ
  | 0, depth, _ => depth
  | _, depth, [] => depth
  | turns + 1, depth, c :: s =>
    if c = 34 then (string s).elim depth fun x => nestingLoop turns depth x.2
    else if c = 123 ∨ c = 91 then nestingLoop turns (depth + 1) s
    else if c = 125 ∨ c = 93 then
      if depth = 1 then depth else max depth (nestingLoop turns (depth - 1) s)
    else nestingLoop turns depth s

/-- How deep the arrays and objects of a value nest -/
def nesting : Bytes → ℕ
  | [] => 0
  | c :: s => if c = 123 ∨ c = 91 then nestingLoop (s.length + 1) 0 (c :: s) else 0

/-- The depth at which the counter is zero again -/
def depthBound : ℕ := 4294967296

theorem ofNat_sub_one {depth : ℕ} (h : 0 < depth) :
    Int32.ofNat depth - 1 = Int32.ofNat (depth - 1) := by
  obtain ⟨e, rfl⟩ : ∃ e, depth = e + 1 := ⟨depth - 1, by omega⟩
  rw [Int32.ofNat_add, Nat.add_sub_cancel]
  exact Int32.add_sub_cancel _ _

theorem ofNat_eq_zero {depth : ℕ} : Int32.ofNat depth = 0 ↔ depthBound ∣ depth := by
  rw [← Int32.toBitVec_inj, Int32.toBitVec_ofNat', Nat.dvd_iff_mod_eq_zero, ← BitVec.toNat_inj,
    BitVec.toNat_ofNat]
  rfl

/-- The skip of a container agrees while the depth fits. -/
theorem jmSkipContainerLoop_cur {n depth : ℕ} (h : s <:+ doc) (hturns : s.length < turns)
    (hn : s.length ≤ n) (hpos : 0 < depth) :
    ∃ r, jmSkipContainerLoop doc turns (cur doc s) (Int32.ofNat depth) = some (r.map (cur doc)) ∧
      (∀ t, r = some t → t <:+ s) ∧
      (nestingLoop n depth s ≤ depthBound → r = skipContainer n depth s) := by
  induction turns generalizing s n depth with
  | zero => omega
  | succ turns ih =>
    cases s with
    | nil => exact ⟨none, by simp [jmSkipContainerLoop], by simp, fun _ => by cases n <;> rfl⟩
    | cons c s =>
      have hcons := suffix_cons c s
      have hs : s <:+ doc := hcons.trans h
      rw [length_cons] at hturns hn
      obtain ⟨n, rfl⟩ : ∃ m, n = m + 1 := ⟨n - 1, by omega⟩
      rw [jmSkipContainerLoop, if_pos (lt_length_cons h), getElem?_cons h, cur_cons h,
        nestingLoop, skipContainer]
      simp only [Option.bind_eq_bind, Option.bind_some]
      by_cases hquote : c = 34
      · simp only [if_pos hquote, jmString_cur h, Option.bind_some]
        cases hstr : string s with
        | none => exact ⟨none, rfl, by simp, fun _ => rfl⟩
        | some x =>
          obtain ⟨text, t⟩ := x
          obtain ⟨hsuf, hlen⟩ := string_suffix hstr
          obtain ⟨r, hr, hrs, heq⟩ := ih (n := n) (hsuf.trans hs) (by omega) (by omega) hpos
          exact ⟨r, hr, fun u hu => (hrs u hu).trans (hsuf.trans hcons), heq⟩
      · simp only [if_neg hquote]
        by_cases hopen : c = 123 ∨ c = 91
        · simp only [if_pos hopen]
          obtain ⟨r, hr, hrs, heq⟩ := ih (n := n) hs (by omega) (by omega)
            (by omega : 0 < depth + 1)
          rw [Int32.ofNat_add] at hr
          exact ⟨r, hr, fun u hu => (hrs u hu).trans hcons, heq⟩
        · simp only [if_neg hopen]
          by_cases hclose : c = 125 ∨ c = 93
          · simp only [if_pos hclose, ofNat_sub_one hpos, ofNat_eq_zero]
            by_cases hlast : depth = 1
            · exact ⟨some s, by simp [hlast], by simp, by simp [hlast]⟩
            · rw [if_neg hlast, if_neg hlast]
              by_cases haround : depthBound ∣ depth - 1
              · -- the counter is zero too early
                have hle := Nat.le_of_dvd (by omega) haround
                exact ⟨some s, by rw [if_pos haround]; rfl, by simp, by omega⟩
              · obtain ⟨r, hr, hrs, heq⟩ := ih (n := n) hs (by omega)
                  (Nat.le_of_succ_le_succ hn) (by omega : 0 < depth - 1)
                rw [if_neg haround]
                exact ⟨r, hr, fun u hu => (hrs u hu).trans hcons, fun hmax =>
                  heq (Nat.le_trans (Nat.le_max_right _ _) hmax)⟩
          · simp only [if_neg hclose]
            obtain ⟨r, hr, hrs, heq⟩ := ih (n := n) hs (by omega) (by omega) hpos
            exact ⟨r, hr, fun u hu => (hrs u hu).trans hcons, heq⟩

theorem jmSkipContainer_cur (h : c :: s <:+ doc) (hopen : c = 123 ∨ c = 91) :
    ∃ r, jmSkipContainer doc (cur doc (c :: s)) = some (r.map (cur doc)) ∧
      (∀ t, r = some t → t <:+ s) ∧
      (nesting (c :: s) ≤ depthBound → r = skipContainer (s.length + 1) 0 (c :: s)) := by
  have hs : s <:+ doc := (suffix_cons c s).trans h
  have hquote : c ≠ 34 := by
    rintro rfl
    simp at hopen
  have hlt : s.length < doc.length := by
    have := h.length_le
    rw [length_cons] at this
    omega
  rw [jmSkipContainer, jmSkipContainerLoop, if_pos (lt_length_cons h), getElem?_cons h, cur_cons h,
    nesting, if_pos hopen, nestingLoop, skipContainer]
  simp only [Option.bind_eq_bind, Option.bind_some, if_neg hquote, if_pos hopen]
  exact jmSkipContainerLoop_cur hs hlt (Nat.le_refl _) Nat.one_pos

/-! ## Values -/

theorem skipContainer_suffix {n depth : ℕ} (h : skipContainer n depth s = some rest) :
    rest <:+ s := by
  induction n generalizing s depth with
  | zero => cases h
  | succ n ih =>
    cases s with
    | nil => cases h
    | cons c s =>
      have hcons := suffix_cons c s
      rw [skipContainer] at h
      split at h
      · split at h
        · cases h
        · next text t hstr => exact (ih h).trans ((string_suffix hstr).1.trans hcons)
      · split at h
        · exact (ih h).trans hcons
        · split at h
          · split at h
            · cases h
              exact hcons
            · exact (ih h).trans hcons
          · exact (ih h).trans hcons

theorem skipValue_suffix (h : skipValue s = some rest) : rest <:+ s := by
  cases s with
  | nil => cases h
  | cons c s =>
    rw [skipValue] at h
    split at h
    · obtain ⟨⟨text, t⟩, hx, rfl⟩ := Option.map_eq_some_iff.mp h
      exact (string_suffix hx).1.trans (suffix_cons c s)
    · split at h
      · exact skipContainer_suffix h
      · cases h
        exact scalarSkip_suffix _

theorem jmSkipScalar_value (h : s <:+ doc) (hne : s ≠ [])
    (hopen : ∀ c ∈ s.head?, c ≠ 123 ∧ c ≠ 91) :
    jmSkipValue doc (cur doc s) = some ((skipValue s).map (cur doc)) := by
  obtain ⟨c, s, rfl⟩ := exists_cons_of_ne_nil hne
  have hno : ¬(c = 123 ∨ c = 91) := by simpa using hopen c rfl
  rw [jmSkipValue, if_neg (Nat.not_le.mpr (lt_length_cons h)), getElem?_cons h, skipValue]
  simp only [Option.bind_eq_bind, Option.bind_some]
  rw [if_neg hno, if_neg hno, jmString_cur h, jmSkipScalar_cur h]
  split
  · cases string s <;> rfl
  · rfl

theorem jmSkipValue_cur (h : s <:+ doc) : ∃ r, jmSkipValue doc (cur doc s) = some (r.map (cur doc)) ∧
    (∀ t, r = some t → t <:+ s) ∧ (nesting s ≤ depthBound → r = skipValue s) := by
  cases s with
  | nil => exact ⟨none, by simp [jmSkipValue], by simp, fun _ => rfl⟩
  | cons c s =>
    by_cases hopen : c = 123 ∨ c = 91
    · have hquote : c ≠ 34 := by
        rintro rfl
        simp at hopen
      obtain ⟨r, hr, hrs, heq⟩ := jmSkipContainer_cur h hopen
      refine ⟨r, ?_, fun t ht => (hrs t ht).trans (suffix_cons c s), fun hn => ?_⟩
      · rw [jmSkipValue, if_neg (Nat.not_le.mpr (lt_length_cons h)), getElem?_cons h]
        simp only [Option.bind_eq_bind, Option.bind_some, if_neg hquote, if_pos hopen]
        exact hr
      · rw [skipValue, if_neg hquote, if_pos hopen]
        exact heq hn
    · refine ⟨skipValue (c :: s), jmSkipScalar_value h (cons_ne_nil c s) ?_,
        fun t ht => skipValue_suffix ht, fun _ => rfl⟩
      simpa using hopen

theorem jmEmitValue_cur (h : c :: s <:+ doc) (hsize : 0 < size) :
    jmEmitValue doc (cur doc (c :: s)) size = some (emitValue size (c :: s)) := by
  rw [jmEmitValue, getElem?_cons h, emitValue]
  simp only [Option.bind_eq_bind, Option.bind_some]
  by_cases hquote : c = 34
  · simp only [if_pos hquote, jmString_cur h, Option.bind_some]
    cases string s with
    | none => rfl
    | some x => simp [Buffer.putAll_new]
  · by_cases hopen : c = 123 ∨ c = 91
    · simp only [if_neg hquote, if_pos hopen]
    · simp only [if_neg hquote, if_neg hopen]
      rw [jmSkipScalar_value h (cons_ne_nil c s) (by simpa using hopen), skipValue,
        if_neg hquote, if_neg hopen, drop_cur h]
      simp only [Option.map_some, Option.bind_some]
      have hsuf := scalarSkip_suffix (c :: s)
      have hlen := hsuf.length_le
      have hle := h.length_le
      have hspan : cur doc (scalarSkip (c :: s)) - cur doc (c :: s) =
          (c :: s).length - (scalarSkip (c :: s)).length := by
        unfold cur
        omega
      have hcut : ∀ n : ℕ, (if size ≤ n then size - 1 else n) = min (size - 1) n := fun n => by
        split <;> omega
      rw [hspan, span, take_take, hcut]

/-! ## Members -/

/-- The name of a member -/
theorem jmMemberKey_cur (h : s <:+ doc) : jmMemberKey doc (cur doc s) =
    some ((memberKey s).map fun x => (cur doc x.2, (Buffer.new keyBuf).putAll x.1)) := by
  have hws : wsSkip s <:+ doc := (wsSkip_suffix s).trans h
  rw [jmMemberKey, jmSkipWs_cur h, memberKey]
  simp only [Option.bind_eq_bind, Option.bind_some]
  generalize wsSkip s = t at *
  cases t with
  | nil => simp
  | cons c t =>
    rw [if_neg (Nat.not_le.mpr (lt_length_cons hws)), getElem?_cons hws, Option.bind_some]
    by_cases hquote : c = 34
    · subst hquote
      rw [if_neg (by decide), jmString_cur hws]
      simp only [Option.bind_some]
      cases hstr : string t with
      | none => rfl
      | some x =>
        obtain ⟨text, w⟩ := x
        have ht : t <:+ doc := (suffix_cons _ _).trans hws
        have hx : w <:+ doc := (string_suffix hstr).1.trans ht
        have hxs : wsSkip w <:+ doc := (wsSkip_suffix w).trans hx
        simp only [Option.map_some, jmSkipWs_cur hx, Option.bind_some]
        generalize wsSkip w = r at *
        cases r with
        | nil => simp
        | cons d r =>
          rw [if_neg (Nat.not_le.mpr (lt_length_cons hxs)), getElem?_cons hxs, Option.bind_some]
          by_cases hcolon : d = 58
          · subst hcolon
            have hr : r <:+ doc := (suffix_cons _ _).trans hxs
            have hrs : wsSkip r <:+ doc := (wsSkip_suffix r).trans hr
            rw [if_neg (by decide), cur_cons hxs, jmSkipWs_cur hr, Option.bind_some]
            cases hv : wsSkip r with
            | nil => simp [hv]
            | cons e v =>
              rw [hv] at hrs
              simp [hv, Nat.not_le.mpr (lt_length_cons hrs)]
          · rw [if_pos hcolon]
            split
            · next heq => exact absurd (cons.inj heq).1 hcolon
            · rfl
    · rw [if_pos (.inr hquote)]
      split
      · next heq => exact absurd (cons.inj heq).1 hquote
      · rfl

theorem memberKey_eq_some {field v : Bytes} (h : memberKey s = some (field, v)) :
    v <:+ s ∧ v.length < s.length ∧ v ≠ [] := by
  rw [memberKey] at h
  have hws := wsSkip_suffix s
  split at h
  · next t ht =>
    rw [ht] at hws
    split at h
    · cases h
    · next key r hstr =>
      obtain ⟨hr, -⟩ := string_suffix hstr
      have hrs := wsSkip_suffix r
      split at h
      · next w hw =>
        rw [hw] at hrs
        split at h
        · cases h
        · next hne =>
          obtain ⟨-, rfl⟩ := Prod.mk.inj (Option.some.inj h)
          have hsuf : wsSkip w <:+ t := (wsSkip_suffix w).trans
            ((suffix_cons _ _).trans (hrs.trans hr))
          have hle := hsuf.length_le
          have hlt := hws.length_le
          rw [length_cons] at hlt
          exact ⟨hsuf.trans ((suffix_cons _ _).trans hws), by omega, hne⟩
      · cases h
  · cases h

theorem kbuf_eq_key (hkey : key.length < keyBuf) (field : Bytes) :
    (((Buffer.new keyBuf).putAll field).pos = key.length ∧
      ((Buffer.new keyBuf).putAll field).text.take key.length = key) ↔ field = key := by
  rw [Buffer.putAll_new, take_take]
  unfold keyBuf at hkey ⊢
  constructor
  · rintro ⟨hlen, htext⟩
    have hlen : field.length = key.length := hlen
    rw [← htext, take_of_length_le (Nat.le_min.mpr ⟨by omega, by omega⟩)]
  · rintro rfl
    exact ⟨rfl, take_of_length_le (by omega)⟩

/-! ## The document -/

/-- Where the next member starts, behind a comma if there is one -/
def nextMember (s : Bytes) : Bytes :=
  match wsSkip s with
  | 44 :: s => s
  | s => s

/-- The values that are skipped in front of the member, each with what follows it -/
def skippedLoop (key : Bytes) : ℕ → Bytes → List Bytes
  | 0, _ => []
  | turns + 1, s =>
    match memberKey s with
    | none => []
    | some (field, v) =>
      if field = key then []
      else v :: (skipValue v).elim [] fun s => skippedLoop key turns (nextMember s)

def skipped (json key : Bytes) : List Bytes :=
  match wsSkip json with
  | 123 :: s => skippedLoop key (s.length + 1) s
  | _ => []

/-- No value in front of the member nests deeper than the counter goes before it is zero again. -/
def Shallow (json key : Bytes) : Prop := ∀ v ∈ skipped json key, nesting v ≤ depthBound

theorem nextMember_comma (h : wsSkip s = 44 :: rest) : nextMember s = rest := by
  rw [nextMember, h]
  rfl

theorem nextMember_other (h : ∀ t, wsSkip s ≠ 44 :: t) : nextMember s = wsSkip s := by
  unfold nextMember
  split
  · next t ht => exact absurd ht (h t)
  · rfl

theorem nextMember_suffix (s : Bytes) : nextMember s <:+ s := by
  have hws := wsSkip_suffix s
  unfold nextMember
  split
  · next t ht =>
    rw [ht] at hws
    exact (suffix_cons _ _).trans hws
  · exact hws

theorem cur_nextMember (h : s <:+ doc) (found : ℕ → Defined (Option Bytes)) :
    (if cur doc (wsSkip s) < doc.length then
        doc[cur doc (wsSkip s)]?.bind fun c =>
          found (if c = 44 then cur doc (wsSkip s) + 1 else cur doc (wsSkip s))
      else found (cur doc (wsSkip s))) = found (cur doc (nextMember s)) := by
  have hws : wsSkip s <:+ doc := (wsSkip_suffix s).trans h
  cases ht : wsSkip s with
  | nil =>
    have hother : ∀ t, wsSkip s ≠ 44 :: t := by simp [ht]
    rw [nextMember_other hother, ht]
    simp
  | cons c t =>
    rw [ht] at hws
    rw [if_pos (lt_length_cons hws), getElem?_cons hws, Option.bind_some]
    by_cases hcomma : c = 44
    · rw [if_pos hcomma, cur_cons hws, nextMember_comma (hcomma ▸ ht)]
    · rw [if_neg hcomma, nextMember_other, ht]
      rw [ht]
      exact fun t he => hcomma (cons.inj he).1

theorem getStrLoop_succ (key : Bytes) (size turns : ℕ) (s : Bytes) :
    getStrLoop key size (turns + 1) s = (memberKey s).elim none fun x =>
      if x.1 = key then emitValue size x.2
      else (skipValue x.2).elim none fun s => getStrLoop key size turns (nextMember s) := by
  rw [getStrLoop]
  cases memberKey s with
  | none => rfl
  | some x =>
    dsimp only [Option.elim]
    split
    · rfl
    · cases skipValue x.2 with
      | none => rfl
      | some t =>
        dsimp only
        split
        · next heq => rw [nextMember_comma heq]
        · next hother => rw [nextMember_other hother]

/-- **The loop over members** comes to its end, and agrees where no skipped value nests deeper. -/
theorem jsonGetStrLoop_cur {n : ℕ} (hkey : key.length < keyBuf) (hsize : 0 < size)
    (h : s <:+ doc) (hturns : s.length < turns) (hn : s.length < n) :
    ∃ answer, jsonGetStrLoop doc key size turns (cur doc s) = some answer ∧
      ((∀ v ∈ skippedLoop key n s, nesting v ≤ depthBound) → answer = getStrLoop key size n s) := by
  induction turns generalizing s n with
  | zero => omega
  | succ turns ih =>
    obtain ⟨n, rfl⟩ : ∃ m, n = m + 1 := ⟨n - 1, by omega⟩
    rw [jsonGetStrLoop, jmMemberKey_cur h, getStrLoop_succ, skippedLoop]
    simp only [Option.bind_eq_bind, Option.bind_some]
    cases hmember : memberKey s with
    | none => exact ⟨none, by simp, fun _ => rfl⟩
    | some x =>
      obtain ⟨field, v⟩ := x
      obtain ⟨hv, hlen, hne⟩ := memberKey_eq_some hmember
      have hvdoc := hv.trans h
      simp only [Option.map_some, kbuf_eq_key hkey, Option.elim]
      by_cases hfield : field = key
      · obtain ⟨c, v, rfl⟩ := exists_cons_of_ne_nil hne
        exact ⟨emitValue size (c :: v), by simp [hfield, jmEmitValue_cur hvdoc hsize],
          fun _ => by simp [hfield]⟩
      · obtain ⟨r, hr, hrs, heq⟩ := jmSkipValue_cur hvdoc
        simp only [if_neg hfield, hr, mem_cons, forall_eq_or_imp, Option.bind_some]
        cases r with
        | none => exact ⟨none, rfl, fun hall => by rw [← heq hall.1]⟩
        | some t =>
          have ht := (hrs t rfl).trans hvdoc
          have hnext := nextMember_suffix t
          have hle := hnext.length_le
          have hle' := (hrs t rfl).length_le
          simp only [Option.map_some, jmSkipWs_cur ht, Option.bind_some]
          rw [cur_nextMember ht fun p => jsonGetStrLoop doc key size turns p]
          obtain ⟨answer, hanswer, hsame⟩ := ih (s := nextMember t) (n := n) (hnext.trans ht)
            (by omega) (by omega)
          refine ⟨answer, hanswer, fun hall => ?_⟩
          have hskip := heq hall.1
          rw [← hskip] at hall ⊢
          exact hsame hall.2

theorem jsonGetStr_cur (hkey : key.length < keyBuf) (hsize : 0 < size) :
    ∃ answer, jsonGetStr doc key size = some answer ∧
      (Shallow doc key → answer = getStr doc key size) := by
  have hws : wsSkip doc <:+ doc := wsSkip_suffix doc
  have hstart : cur doc doc = 0 := Nat.sub_self _
  have hskip := jmSkipWs_cur (suffix_refl doc)
  rw [hstart] at hskip
  unfold Shallow skipped
  rw [jsonGetStr, if_neg (Nat.pos_iff_ne_zero.mp hsize), hskip, getStr]
  simp only [Option.bind_eq_bind, Option.bind_some]
  generalize wsSkip doc = t at *
  cases t with
  | nil => exact ⟨none, by simp, fun _ => rfl⟩
  | cons c t =>
    rw [if_neg (Nat.not_le.mpr (lt_length_cons hws)), getElem?_cons hws, Option.bind_some,
      cur_cons hws]
    have ht : t <:+ doc := (suffix_cons c t).trans hws
    by_cases hopen : c = 123
    · subst hopen
      rw [if_neg (by simp)]
      exact jsonGetStrLoop_cur hkey hsize ht (Nat.lt_succ_of_le ht.length_le) (Nat.lt_succ_self _)
    · rw [if_pos hopen]
      refine ⟨none, rfl, fun _ => ?_⟩
      split
      · next heq => exact absurd (cons.inj heq).1 hopen
      · rfl

end Json

end BrixCache

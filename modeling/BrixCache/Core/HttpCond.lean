import BrixCache.Core.Ascii
import Mathlib.Algebra.Group.Nat.Defs
import Mathlib.Data.List.TakeWhile

/-!
# Conditional requests

`http_conditionals.c` and `etag.c`: what the headers of a request ask of the resource it is about,
as the edge decides it in two places and as the storage is told it. `sd_batch_types.h` and
`sd_posix_staged.c` decide it again where the upload is published.
-/

namespace BrixCache

/-! ## Entity tags -/

/-- A digit of `%x` -/
def lowerNibble (n : ℕ) : UInt8 := if n < 10 then UInt8.ofNat (n + 48) else UInt8.ofNat (n + 87)

/-- The hexadecimal digits of a number, as many as there is fuel for -/
def hexFrom : ℕ → ℕ → Bytes
  | 0, _ => []
  | fuel + 1, n => (if n < 16 then [] else hexFrom fuel (n / 16)) ++ [lowerNibble (n % 16)]

/-- `%lx`, and `%llx` -/
def formatLx (x : Int64) : Bytes := hexFrom 16 x.toUInt64.toNat

/-- What of a `struct stat` a tag is made of -/
structure HttpStat : Type where
  stMtime : Int64
  stSize : Int64
  deriving DecidableEq

/-- The text `"%lx-%llx"` in its quotes -/
def etagText (st : HttpStat) : Bytes :=
  34 :: (formatLx st.stMtime ++ 45 :: formatLx st.stSize) ++ [34]

def brixHttpEtagStr (bufsz : ℕ) (st : HttpStat) (weak : Bool) : Bytes :=
  (if weak then ascii "W/" ++ etagText st else etagText st).take (bufsz - 1)

/-! ## Lists of tags -/

/-- The bits of `condition_flags` -/
structure CondFlags : Type where
  weakEquiv : Bool
  read : Bool := false
  time : Bool := false

/-- The tag without its weak mark. -/
def brixHttpStripWeak : Bytes → Bytes
  | 87 :: 47 :: data => data
  | data => data

def isOws (c : UInt8) : Bool := c = 32 || c = 9

/-- A list without the blanks at its end -/
def trimTrailing (s : Bytes) : Bytes := (s.reverse.dropWhile isOws).reverse

/-- `brix_http_next_etag_token`: the entry, and where the cursor stands after it -/
def brixHttpNextEtagToken (cursor : Bytes) : Option (Bytes × Bytes) :=
  match cursor.dropWhile fun c => isOws c || c = 44 with
  | [] => none
  | c :: p => some (trimTrailing ((c :: p).takeWhile (· ≠ 44)), (c :: p).dropWhile (· ≠ 44))

/-- The entries the loop of `brix_http_etag_list_contains` sees, as many as there is fuel for -/
def etagTokens : ℕ → Bytes → List Bytes
  | 0, _ => []
  | fuel + 1, cursor =>
    match brixHttpNextEtagToken cursor with
    | none => []
    | some (tok, cursor) => tok :: etagTokens fuel cursor

/-- `brix_http_etag_list_contains`. An entry is a byte of the header at least. -/
def brixHttpEtagListContains (header : Bytes) (etag : Option Bytes)
    (flags : CondFlags) : Bool :=
  let strip (s : Bytes) := if flags.weakEquiv then brixHttpStripWeak s else s
  match etag with
  | none => false
  -- a tag has no NUL, so the entries of its length that compare equal are its copies
  | some etag => (etagTokens header.length header).any fun tok => strip tok = strip etag

/-! ## The two evaluators -/

/-- The conditional headers of `headers_in` -/
structure CondHeaders : Type where
  ifMatch : Option Bytes
  ifNoneMatch : Option Bytes
  ifUnmodifiedSince : Option Bytes
  ifModifiedSince : Option Bytes

/-- What the conditions of a request decide -/
inductive CondVerdict : Type where
  | ok
  /-- 304 -/
  | notModified
  /-- 412 -/
  | preconditionFailed
  deriving DecidableEq

/-- `cond_header_present`, and the value -/
def condHeaderPresent : Option Bytes → Option Bytes
  | some (c :: v) => some (c :: v)
  | _ => none

def condIsWildcard (v : Bytes) : Bool := v = [42]

/-- A header's list selects the resource. -/
def brixHttpValidatorSelects (value : Bytes) (resourceExists : Bool)
    (etag : Option Bytes) (flags : CondFlags) : Bool :=
  if !resourceExists then false
  else if condIsWildcard value then true
  else brixHttpEtagListContains value etag flags

def brixHttpCheckEtagPreconditions (h : CondHeaders) (resourceExists : Bool)
    (st : Option HttpStat) (etagWeak : Bool) (flags : CondFlags) : CondVerdict :=
  let etag := if resourceExists then st.map (brixHttpEtagStr 64 · etagWeak) else none
  let selects (v : Bytes) := brixHttpValidatorSelects v resourceExists etag flags
  if h.ifMatch.any fun v => !selects v then .preconditionFailed
  else if h.ifNoneMatch.any selects then .preconditionFailed
  else .ok

section

-- `ngx_parse_http_time`
variable (parseHttpTime : Bytes → Option Int64)

def brixHttpEvalIfUnmodifiedSince (ifUnmod : Bytes) (mtime : Int64) : Option CondVerdict :=
  match parseHttpTime ifUnmod with
  | some t => if t < mtime then some .preconditionFailed else none
  | none => none

def brixHttpEvalIfModifiedSince (ifMod : Bytes) (mtime : Int64) : Option CondVerdict :=
  match parseHttpTime ifMod with
  | some t => if mtime ≤ t then some .notModified else none
  | none => none

/-- `brix_http_eval_match_group`, which declines with nothing -/
def brixHttpEvalMatchGroup (ifMatch ifUnmod : Option Bytes) (resourceExists : Bool)
    (etag : Option Bytes) (flags : CondFlags) (mtime : Int64) : Option CondVerdict :=
  match condHeaderPresent ifMatch with
  | some v =>
    if brixHttpValidatorSelects v resourceExists etag flags then none
    else some .preconditionFailed
  | none =>
    match flags.time, condHeaderPresent ifUnmod with
    | true, some v => brixHttpEvalIfUnmodifiedSince parseHttpTime v mtime
    | _, _ => none

/-- `brix_http_eval_none_match_group`, which declines with nothing -/
def brixHttpEvalNoneMatchGroup (ifNone ifMod : Option Bytes) (resourceExists : Bool)
    (etag : Option Bytes) (flags : CondFlags) (mtime : Int64) : Option CondVerdict :=
  match condHeaderPresent ifNone with
  | some v =>
    if brixHttpValidatorSelects v resourceExists etag flags then
      some (if flags.read then .notModified else .preconditionFailed)
    else none
  | none =>
    match flags.read && flags.time, condHeaderPresent ifMod with
    | true, some v => brixHttpEvalIfModifiedSince parseHttpTime v mtime
    | _, _ => none

/-- The match group decides before the none-match group. -/
def brixHttpEvalPreconditions (h : CondHeaders) (resourceExists : Bool) (st : HttpStat)
    (etagWeak : Bool) (flags : CondFlags) : CondVerdict :=
  let etag := if resourceExists then some (brixHttpEtagStr 64 st etagWeak) else none
  match brixHttpEvalMatchGroup parseHttpTime h.ifMatch h.ifUnmodifiedSince resourceExists etag
    flags st.stMtime with
  | some decision => decision
  | none =>
    match brixHttpEvalNoneMatchGroup parseHttpTime h.ifNoneMatch h.ifModifiedSince
      resourceExists etag flags st.stMtime with
    | some decision => decision
    | none => .ok

end

/-! ## The precondition of the storage -/

/-- The precondition that is handed to the storage driver -/
inductive SdPrecond : Type where
  | none
  | absent
  /-- the value of the header, borrowed -/
  | matchEtag : Bytes → SdPrecond
  | matchMeta : HttpStat → SdPrecond

/-- The precondition a write hands to the driver. -/
def brixHttpWritePrecond (h : CondHeaders) : SdPrecond :=
  match condHeaderPresent h.ifMatch with
  | some v => if !condIsWildcard v && 44 ∉ v then .matchEtag v else .none
  | none =>
    match condHeaderPresent h.ifNoneMatch with
    | some v => if condIsWildcard v then .absent else .none
    | none => .none

/-- The errnos of a refused publication -/
inductive PrecondRefusal : Type where
  | eexist
  | ecanceled
  | enotsup
  deriving DecidableEq

def brixSdPrecondEvalStat (pre : SdPrecond) (st : HttpStat) : Except PrecondRefusal Unit :=
  match pre with
  | .matchMeta want => if want = st then .ok () else .error .ecanceled
  | .matchEtag want =>
    -- the tag is shorter than its buffer of 48, see `etagText_length_le`
    if (if 2 < want.length then brixHttpStripWeak want else want) = etagText st then .ok ()
    else .error .ecanceled
  | _ => .error .enotsup

/-- `sd_posix_staged_commit`, as far as the target of the rename decides it -/
def sdPosixStagedCommitPrecond (pre : SdPrecond) (target : Option HttpStat) :
    Except PrecondRefusal Unit :=
  match pre, target with
  | .none, _ => .ok ()
  | .absent, none => .ok ()
  | .absent, some _ => .error .eexist
  | _, none => .error .ecanceled
  | pre, some st => brixSdPrecondEvalStat pre st

end BrixCache

/-! ## Where the deciders of a write agree -/

namespace BrixCache

open List

/-! ### The tag of a resource -/

theorem hexFrom_length_le (fuel n : ℕ) : (hexFrom fuel n).length ≤ fuel := by
  induction fuel generalizing n with
  | zero => simp [hexFrom]
  | succ fuel ih =>
    have hrest := ih (n / 16)
    rw [hexFrom, length_append, length_singleton]
    split
    · simp
    · omega

theorem etagText_length_le (st : HttpStat) : (etagText st).length ≤ 35 := by
  have hmtime := hexFrom_length_le 16 st.stMtime.toUInt64.toNat
  have hsize := hexFrom_length_le 16 st.stSize.toUInt64.toNat
  simp only [etagText, formatLx, length_append, length_cons, length_nil]
  omega

@[simp]
theorem brixHttpEtagStr_strong (st : HttpStat) : brixHttpEtagStr 64 st false = etagText st := by
  have hlen := etagText_length_le st
  rw [brixHttpEtagStr, if_neg (by simp), take_of_length_le (by omega)]

@[simp]
theorem brixHttpEtagStr_weak (st : HttpStat) :
    brixHttpEtagStr 64 st true = ascii "W/" ++ etagText st := by
  have hlen := etagText_length_le st
  have hprefix : (ascii "W/").length = 2 := rfl
  rw [brixHttpEtagStr, if_pos rfl, take_of_length_le]
  rw [length_append]
  omega

theorem stripWeak_length_le (s : Bytes) : (brixHttpStripWeak s).length ≤ s.length := by
  fun_cases brixHttpStripWeak s with
  | case1 data => simp only [length_cons]; omega
  | case2 => exact Nat.le_refl _

@[simp]
theorem stripWeak_etagStr (st : HttpStat) (weak : Bool) :
    brixHttpStripWeak (brixHttpEtagStr 64 st weak) = etagText st := by
  cases weak with
  | true =>
    rw [brixHttpEtagStr_weak]
    rfl
  | false =>
    rw [brixHttpEtagStr_strong]
    rfl

/-! ### The entries of a list -/

theorem brixHttpNextEtagToken_shorter {cursor tok rest : Bytes}
    (h : brixHttpNextEtagToken cursor = some (tok, rest)) : rest.length < cursor.length := by
  rw [brixHttpNextEtagToken] at h
  split at h
  · cases h
  · next c p heq =>
    obtain ⟨-, rfl⟩ := Prod.mk.inj (Option.some.inj h)
    have hc : c ≠ 44 := by
      have hstop := head?_dropWhile_not (fun c => isOws c || c = 44) cursor
      rw [heq] at hstop
      rintro rfl
      simp at hstop
    have hskip := (dropWhile_suffix (l := cursor) fun c => isOws c || c = 44).length_le
    have hrest := (dropWhile_suffix (l := p) (· ≠ 44)).length_le
    rw [heq, length_cons] at hskip
    rw [dropWhile_cons_of_pos (by simp [hc])]
    omega

theorem etagTokens_enough {fuel : ℕ} {cursor : Bytes} (h : cursor.length ≤ fuel) :
    etagTokens fuel cursor = etagTokens cursor.length cursor := by
  suffices hsame : ∀ (k fuel : ℕ) (cursor : Bytes), cursor.length ≤ k → k ≤ fuel →
      etagTokens fuel cursor = etagTokens k cursor from hsame _ _ _ (Nat.le_refl _) h
  intro k
  induction k with
  | zero =>
    intro fuel cursor hk _
    obtain rfl := eq_nil_of_length_eq_zero (Nat.le_zero.mp hk)
    cases fuel <;> rfl
  | succ k ih =>
    intro fuel cursor hk hfuel
    obtain ⟨fuel, rfl⟩ : ∃ m, fuel = m + 1 := ⟨fuel - 1, by omega⟩
    rw [etagTokens, etagTokens]
    cases htok : brixHttpNextEtagToken cursor with
    | none => rfl
    | some next =>
      have hshort := brixHttpNextEtagToken_shorter htok
      simp only [ih fuel next.2 (by omega) (by omega)]

/-- A blank at an end -/
def padded (v : Bytes) : Bool := v.head?.any isOws || v.getLast?.any isOws

theorem trimTrailing_eq_self {v : Bytes} (h : v.getLast?.any isOws = false) :
    trimTrailing v = v := by
  cases hr : v.reverse with
  | nil => simp_all [trimTrailing]
  | cons c s =>
    obtain rfl : v = (c :: s).reverse := by rw [← hr, reverse_reverse]
    simp at h
    simp [trimTrailing, h]

theorem etagTokens_single {v : Bytes} (hcomma : 44 ∉ v) (hne : v ≠ [])
    (hpad : padded v = false) : etagTokens v.length v = [v] := by
  obtain ⟨c, s, rfl⟩ := exists_cons_of_ne_nil hne
  obtain ⟨hhead, hlast⟩ := Bool.or_eq_false_iff.mp hpad
  have hbytes : ∀ b ∈ c :: s, decide (b ≠ 44) = true := by
    intro b hb
    simpa using fun h : b = 44 => hcomma (h ▸ hb)
  have hskip : (c :: s).dropWhile (fun c => isOws c || c = 44) = c :: s := by
    have hc := hbytes c mem_cons_self
    rw [dropWhile_cons_of_neg]
    simp_all
  have hall := takeWhile_eq_self_iff.mpr hbytes
  have hnone := dropWhile_eq_nil_iff.mpr hbytes
  have hnext : brixHttpNextEtagToken (c :: s) = some (c :: s, []) := by
    rw [brixHttpNextEtagToken, hskip]
    simp only [hall, hnone, trimTrailing_eq_self hlast]
  rw [length_cons, etagTokens, hnext]
  cases s <;> rfl

/-! ### The tag the storage compares -/

theorem precondEvalStat_ok_iff {want : Bytes} {st : HttpStat} :
    brixSdPrecondEvalStat (.matchEtag want) st = .ok () ↔ brixHttpStripWeak want = etagText st := by
  have hlen : 3 ≤ (etagText st).length := by
    simp only [etagText, length_append, length_cons, length_nil]
    omega
  have hstrip := stripWeak_length_le want
  rw [brixSdPrecondEvalStat]
  split
  · simp
  · next hshort =>
    constructor
    · intro h
      have heq : want = etagText st := by simpa using h
      rw [heq] at hshort
      omega
    · intro h
      rw [h] at hstrip
      omega

theorem eq_or_eq_of_stripWeak {v t : Bytes} (h : brixHttpStripWeak v = t) :
    v = t ∨ v = 87 :: 47 :: t := by
  subst h
  fun_cases brixHttpStripWeak v with
  | case1 data => exact .inr rfl
  | case2 => exact .inl rfl

/-- A value with a blank at an end is no tag to the storage, for a tag ends in a quote and begins
with one or with `W/`. -/
theorem stripWeak_ne_of_padded {v : Bytes} (h : padded v = true) (st : HttpStat) :
    brixHttpStripWeak v ≠ etagText st := by
  intro heq
  obtain rfl | rfl := eq_or_eq_of_stripWeak heq
  · simp [padded, etagText, isOws, getLast?_cons] at h
  · simp [padded, etagText, isOws, getLast?_cons] at h

/-! ### The verdicts -/

def selects (resourceExists : Bool) (st : HttpStat) (etagWeak : Bool) (flags : CondFlags)
    (v : Bytes) : Bool :=
  brixHttpValidatorSelects v resourceExists
    (if resourceExists then some (brixHttpEtagStr 64 st etagWeak) else none) flags

section

variable {resourceExists etagWeak : Bool} {st : HttpStat} {flags : CondFlags} {v : Bytes}

@[simp]
theorem selects_nil : selects resourceExists st etagWeak flags [] = false := by
  cases resourceExists <;> rfl

@[simp]
theorem selects_missing : selects false st etagWeak flags v = false := rfl

theorem validatorSelects_eq : brixHttpValidatorSelects v resourceExists
    (if resourceExists then some (brixHttpEtagStr 64 st etagWeak) else none) flags =
      selects resourceExists st etagWeak flags v := rfl

theorem checkEtagPreconditions_eq (h : CondHeaders) :
    brixHttpCheckEtagPreconditions h resourceExists (some st) etagWeak flags =
      if h.ifMatch.any (fun v => !selects resourceExists st etagWeak flags v) then
        .preconditionFailed
      else if h.ifNoneMatch.any (selects resourceExists st etagWeak flags) then
        .preconditionFailed
      else .ok := rfl

theorem evalPreconditions_eq (parseHttpTime : Bytes → Option Int64) (h : CondHeaders)
    (weakEquiv : Bool) :
    brixHttpEvalPreconditions parseHttpTime h resourceExists st etagWeak { weakEquiv } =
      if (condHeaderPresent h.ifMatch).any
          (fun v => !selects resourceExists st etagWeak { weakEquiv } v) then
        .preconditionFailed
      else if (condHeaderPresent h.ifNoneMatch).any
          (selects resourceExists st etagWeak { weakEquiv }) then
        .preconditionFailed
      else .ok := by
  rw [brixHttpEvalPreconditions, brixHttpEvalMatchGroup, brixHttpEvalNoneMatchGroup]
  cases condHeaderPresent h.ifMatch with
  | none =>
    cases condHeaderPresent h.ifNoneMatch with
    | none => rfl
    | some v =>
      simp only [Option.any_none, Option.any_some, validatorSelects_eq]
      by_cases hv : selects resourceExists st etagWeak { weakEquiv } v = true <;> simp [hv]
  | some u =>
    simp only [Option.any_some, validatorSelects_eq]
    by_cases hu : selects resourceExists st etagWeak { weakEquiv } u = true
    · cases condHeaderPresent h.ifNoneMatch with
      | none => simp [hu]
      | some v =>
        simp only [Option.any_some]
        by_cases hv : selects resourceExists st etagWeak { weakEquiv } v = true <;> simp [hu, hv]
    · simp [hu]

theorem any_condHeaderPresent (value : Option Bytes) :
    (condHeaderPresent value).any (selects resourceExists st etagWeak flags) =
      value.any (selects resourceExists st etagWeak flags) := by
  match value with
  | none => rfl
  | some [] => simp [condHeaderPresent]
  | some (c :: v) => rfl

theorem stripWeak_of_selects (hsel : selects resourceExists st etagWeak flags v = true)
    (hwild : condIsWildcard v = false) (hcomma : 44 ∉ v) (hpad : padded v = false) :
    brixHttpStripWeak v = etagText st := by
  cases hexists : resourceExists with
  | false => simp [hexists] at hsel
  | true =>
    have hne : v ≠ [] := by
      rintro rfl
      simp at hsel
    rw [hexists, selects, brixHttpValidatorSelects, hwild] at hsel
    simp only [Bool.not_true, Bool.false_eq_true, if_false, if_true, brixHttpEtagListContains,
      etagTokens_single hcomma hne hpad, any_cons, any_nil, Bool.or_false,
      decide_eq_true_eq] at hsel
    split at hsel
    · rw [hsel, stripWeak_etagStr]
    · rw [hsel, stripWeak_etagStr]

theorem writePrecond_holds_of_noneMatch {h : CondHeaders} (hmatch : h.ifMatch = none)
    (hnone : h.ifNoneMatch.any (selects resourceExists st etagWeak flags) = false) :
    sdPosixStagedCommitPrecond (brixHttpWritePrecond h)
      (if resourceExists then some st else none) = .ok () := by
  have hnomatch : condHeaderPresent h.ifMatch = none := by rw [hmatch]; rfl
  cases hpresent : condHeaderPresent h.ifNoneMatch with
  | none =>
    have hlift : brixHttpWritePrecond h = .none := by
      simp [brixHttpWritePrecond, hnomatch, hpresent]
    rw [hlift]
    rfl
  | some v =>
    have hlift : brixHttpWritePrecond h = if condIsWildcard v then .absent else .none := by
      simp [brixHttpWritePrecond, hnomatch, hpresent]
    rw [hlift]
    rw [← any_condHeaderPresent, hpresent, Option.any_some] at hnone
    by_cases hwild : condIsWildcard v = true
    · cases resourceExists with
      | false => simp [hwild, sdPosixStagedCommitPrecond]
      | true => simp [selects, brixHttpValidatorSelects, hwild] at hnone
    · simp [hwild, sdPosixStagedCommitPrecond]

/-- With an `If-Match` that selects the resource the storage lets a write through unless it is
given one tag with a blank beside it. -/
theorem writePrecond_holds_iff {h : CondHeaders} {c : UInt8} (hmatch : h.ifMatch = some (c :: v))
    (hsel : selects resourceExists st etagWeak flags (c :: v) = true) :
    sdPosixStagedCommitPrecond (brixHttpWritePrecond h)
        (if resourceExists then some st else none) = .ok () ↔
      (44 ∉ c :: v → padded (c :: v) = false) := by
  obtain rfl : resourceExists = true := by
    cases resourceExists with
    | false => simp at hsel
    | true => rfl
  have hlift : brixHttpWritePrecond h =
      if !condIsWildcard (c :: v) && 44 ∉ c :: v then .matchEtag (c :: v) else .none := by
    rw [brixHttpWritePrecond, hmatch]
    rfl
  rw [hlift]
  cases hwild : condIsWildcard (c :: v) with
  | true =>
    have hstar : c :: v = [42] := by simpa [condIsWildcard] using hwild
    rw [hstar]
    simp [sdPosixStagedCommitPrecond, padded, isOws]
  | false =>
    by_cases hcomma : 44 ∈ c :: v
    · simp [hcomma, sdPosixStagedCommitPrecond]
    · have hcommit : sdPosixStagedCommitPrecond (.matchEtag (c :: v)) (some st) =
          brixSdPrecondEvalStat (.matchEtag (c :: v)) st := rfl
      have htag : (if !false && decide (44 ∉ c :: v) then SdPrecond.matchEtag (c :: v) else .none) =
          .matchEtag (c :: v) := by simp [hcomma]
      rw [htag, if_pos rfl, hcommit, precondEvalStat_ok_iff]
      constructor
      · intro hstrip _
        by_contra hpad
        exact stripWeak_ne_of_padded (by simpa using hpad) st hstrip
      · intro hpad
        exact stripWeak_of_selects hsel hwild hcomma (hpad hcomma)

end

/-- What the deciders of a write have to do with each other: the evaluators give one verdict, and
the storage does not refuse what they let through. -/
def DecidersAgree (parseHttpTime : Bytes → Option Int64) (h : CondHeaders)
    (resourceExists : Bool) (st : HttpStat) (etagWeak weakEquiv : Bool) : Prop :=
  let verdict := brixHttpCheckEtagPreconditions h resourceExists (some st) etagWeak { weakEquiv }
  verdict = brixHttpEvalPreconditions parseHttpTime h resourceExists st etagWeak { weakEquiv } ∧
    (verdict = .ok → sdPosixStagedCommitPrecond (brixHttpWritePrecond h)
      (if resourceExists then some st else none) = .ok ())

/-- The deciders of a write agree when `If-None-Match` refuses it, and else when `If-Match` is not
the empty value and is no value of one tag with a blank beside the tag that the resource has. -/
theorem deciders_agree_iff (parseHttpTime : Bytes → Option Int64) (h : CondHeaders)
    (resourceExists : Bool) (st : HttpStat) (etagWeak weakEquiv : Bool) :
    DecidersAgree parseHttpTime h resourceExists st etagWeak weakEquiv ↔
      h.ifNoneMatch.any (selects resourceExists st etagWeak { weakEquiv }) = true ∨
        (h.ifMatch ≠ some [] ∧
          ∀ v, h.ifMatch = some v → 44 ∉ v →
            selects resourceExists st etagWeak { weakEquiv } v = true → padded v = false) := by
  rw [DecidersAgree, checkEtagPreconditions_eq, evalPreconditions_eq, any_condHeaderPresent]
  cases hnone : h.ifNoneMatch.any (selects resourceExists st etagWeak { weakEquiv }) with
  | true => simp
  | false =>
    match hmatch : h.ifMatch with
    | none =>
      have hlift := writePrecond_holds_of_noneMatch hmatch hnone
      simpa [condHeaderPresent] using hlift
    | some [] => simp [condHeaderPresent]
    | some (c :: v) =>
      cases hsel : selects resourceExists st etagWeak { weakEquiv } (c :: v) with
      | false => simp [condHeaderPresent, hsel]
      | true =>
        have hlift := writePrecond_holds_iff hmatch hsel
        simpa [condHeaderPresent, hsel] using hlift

/-- `If-Match:` with nothing after it, for a resource of two bytes -/
theorem empty_if_match_divides :
    ¬DecidersAgree (fun _ => none) ⟨some [], none, none, none⟩ true ⟨1, 2⟩ true true :=
  fun h => absurd h.1 (by decide)

/-- A tab after the tag of the resource: both evaluators let the write through. -/
example :
    let h : CondHeaders := ⟨some (ascii "\"1-2\"\t"), none, none, none⟩
    brixHttpCheckEtagPreconditions h true (some ⟨1, 2⟩) true { weakEquiv := true } = .ok ∧
      sdPosixStagedCommitPrecond (brixHttpWritePrecond h) (some ⟨1, 2⟩) = .error .ecanceled := by
  decide

end BrixCache

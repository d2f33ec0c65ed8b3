import BrixCache.Auth.Groups
import BrixCache.Core.LockRecord

/-!
# Rules of an authdb

`authdb_parse.c`, `authdb_grammar.c` and `authdb.c`: a line gives the letters of its selectors, one
id for each, a path and the letters of its privileges; a rule holds of a subject if all its
selectors do. The selectors `v` and `l` are looked up in two lists of one order, and where a rule
has both it looks for one place that satisfies both.
-/

namespace BrixCache

/-! ## A line -/

/-- `brix_auth_type_t` -/
inductive AdbSel : Type where
  | user : AdbSel
  | group : AdbSel
  | host : AdbSel
  | all : AdbSel
  | vorg : AdbSel
  | role : AdbSel
  deriving DecidableEq

/-- The letter of a selector: `adb_selector_ok`, and the enumeration itself. -/
def adbSelectorOf (c : UInt8) : Option AdbSel :=
  if c = 117 then some .user
  else if c = 103 then some .group
  else if c = 112 then some .host
  else if c = 97 then some .all
  else if c = 118 then some .vorg
  else if c = 108 then some .role
  else none

/-- The fields of `brix_authdb_rule_t` that a line gives; each selector stands with its id. -/
structure AdbRule : Type where
  sels : List (AdbSel × Bytes)
  path : Bytes
  privs : UInt32
  deriving DecidableEq

/-- Why a line is refused: the text of `brix_adb_reject`, and the byte `adb_reject_char` names. -/
structure AdbDefect : Type where
  reason : String
  byte : Option UInt8
  deriving DecidableEq

/-- The four fields of a line -/
structure AdbLine : Type where
  type : Bytes
  id : Bytes
  path : Bytes
  privs : Bytes

/-- `adb_scan_field`: the field and what follows it -/
def adbScanField (p : Bytes) : Bytes × Bytes :=
  ((p.dropWhile isCSpace).takeWhile fun c => !isCSpace c,
    (p.dropWhile isCSpace).dropWhile fun c => !isCSpace c)

/-- `adb_tokenize_line`, of a line without its end: nothing for a blank line or a comment -/
def adbTokenizeLine (line : Bytes) : Except AdbDefect (Option AdbLine) :=
  let malformed : AdbDefect := ⟨"expected `<selectors> <id> <path> <privs>`", none⟩
  match line.dropWhile isCSpace with
  | [] => .ok none
  | c :: p =>
    if c = 35 then .ok none
    else
      let type := adbScanField (c :: p)
      if type.2 = [] then .error malformed
      else
        let id := adbScanField type.2
        if id.2 = [] then .error malformed
        else
          let path := adbScanField id.2
          if path.2 = [] then .error malformed
          else .ok (some ⟨type.1, id.1, path.1, (adbScanField path.2).1⟩)

def authdbMaxSelectors : ℕ := 6

/-- The loop of `adb_bind_selectors`, with the selectors that are bound. -/
def adbBindLoop (n : ℕ) : Bytes → List AdbSel → Except AdbDefect (List AdbSel)
  | [], bound => .ok bound
  | c :: type, bound =>
    match adbSelectorOf c with
    | none => .error ⟨"unknown identity selector", some c⟩
    | some sel =>
      if sel = .all ∧ 1 < n then
        .error ⟨"the `a` (any identity) selector cannot be combined with another selector", none⟩
      else if sel ∈ bound then .error ⟨"identity selector repeated", some c⟩
      else adbBindLoop n type (bound ++ [sel])

/-- One selector for each letter of the type field. -/
def adbBindSelectors (type : Bytes) : Except AdbDefect (List AdbSel) :=
  if authdbMaxSelectors < type.length then
    .error ⟨"field 1 lists more identity selectors than the alphabet `u g p a v l` holds", none⟩
  else adbBindLoop type.length type []

def adbIdComponents (id : Bytes) : ℕ := 1 + id.count 124

/-- The loop of `adb_bind_ids`. -/
def adbBindIdsLoop : ℕ → Bytes → Except AdbDefect (List Bytes)
  | 0, _ => .ok []
  | n + 1, p =>
    if p.takeWhile (· ≠ 124) = [] then
      .error ⟨"a compound rule has an empty id component", none⟩
    else
      match adbBindIdsLoop n ((p.dropWhile (· ≠ 124)).drop 1) with
      | .error defect => .error defect
      | .ok ids => .ok (p.takeWhile (· ≠ 124) :: ids)

/-- A compound rule needs one id for each selector. -/
def adbBindIds (nsel : ℕ) (id : Bytes) : Except AdbDefect (List Bytes) :=
  if nsel = 1 then .ok [id]
  else if adbIdComponents id ≠ nsel then
    .error ⟨"a compound rule needs exactly one '|'-separated id component per selector", none⟩
  else adbBindIdsLoop nsel id

/-- The privilege bits of one letter. -/
def adbPrivBit (c : UInt8) : UInt32 :=
  if c = 114 then 0x03
  else if c = 108 then 0x02
  else if c = 119 then 0x04
  else if c = 97 then 0x04
  else if c = 100 then 0x08
  else if c = 109 then 0x10
  else if c = 107 then 0x20
  else if c = 120 then 0x40
  else 0

/-- `brix_parse_privs` -/
def adbParsePrivs : Bytes → UInt32 → Except AdbDefect UInt32
  | [], privs => .ok privs
  | c :: p, privs =>
    if adbPrivBit c = 0 then .error ⟨"unknown privilege letter", some c⟩
    else adbParsePrivs p (privs ||| adbPrivBit c)

/-- Bind the fields of a line to a rule. -/
def adbAppend (line : AdbLine) : Except AdbDefect AdbRule :=
  match adbBindSelectors line.type with
  | .error defect => .error defect
  | .ok sels =>
    match adbBindIds sels.length line.id with
    | .error defect => .error defect
    | .ok ids =>
      match adbParsePrivs line.privs 0 with
      | .error defect => .error defect
      | .ok privs => .ok ⟨sels.zip ids, line.path, privs⟩

/-- The body of the loop of `brix_parse_authdb`. -/
def adbParseLine (line : Bytes) : Except AdbDefect (Option AdbRule) :=
  match adbTokenizeLine line with
  | .error defect => .error defect
  | .ok none => .ok none
  | .ok (some line) => (adbAppend line).map some

/-! ## A subject -/

/-- `adb_subject_t`; the fields are C strings. -/
structure AdbSubject : Type where
  dn : Bytes
  voList : Bytes
  vorg : Bytes
  role : Bytes
  peerIp : Bytes
  texts : ∀ s ∈ [dn, voList, vorg, role, peerIp], (0 : UInt8) ∉ s

/-- The families of `inet_pton`. -/
inductive AddrFamily : Type where
  | inet : AddrFamily
  | inet6 : AddrFamily
  deriving DecidableEq

/-- Whether `strtol` takes all of a text, and something. -/
def strtolWhole (text : Bytes) : Bool :=
  let unsigned :=
    match text.dropWhile isCSpace with
    | 45 :: text => text
    | 43 :: text => text
    | text => text
  !unsigned.isEmpty && unsigned.all isCDigit

/-- `brix_authdb_addr_prefix_match` -/
def authdbAddrMatch (a b : Bytes) (bits : ℕ) : Bool :=
  a.take (bits / 8) = b.take (bits / 8) &&
    (bits % 8 = 0 ||
      a.getD (bits / 8) 0 &&& UInt8.ofNat (0xff <<< (8 - bits % 8)) =
        b.getD (bits / 8) 0 &&& UInt8.ofNat (0xff <<< (8 - bits % 8)))

section

variable (inetPton : AddrFamily → Bytes → Option Bytes)

/-- `brix_authdb_host_cidr_match`, of the id as a C string -/
def authdbHostCidrMatch (ruleId peerIp : Bytes) : Bool :=
  if peerIp = [] then false
  else if 128 ≤ ruleId.length then false
  else
    match ruleId.dropWhile (· ≠ 47) with
    | [] => ruleId = peerIp
    | _ :: slash =>
      let cidr := ruleId.takeWhile (· ≠ 47)
      let family := if 58 ∈ cidr then AddrFamily.inet6 else AddrFamily.inet
      let maxBits : ℤ := if 58 ∈ cidr then 128 else 32
      if strtolWhole slash = false ∨ strtoll slash < 0 ∨ maxBits < strtoll slash then false
      else
        match inetPton family cidr, inetPton family peerIp with
        | some ruleAddr, some peerAddr =>
          authdbAddrMatch ruleAddr peerAddr (strtoll slash).toNat
        | _, _ => false

def authdbHostMatch (ruleId peerIp : Bytes) : Bool :=
  if peerIp = [] then false
  else if ruleId = [42] then true
  else authdbHostCidrMatch inetPton (cText ruleId) peerIp

def adbUserMatches (ruleId dn : Bytes) : Bool :=
  if ruleId = [42] then true else cText ruleId = dn

/-- The group is on the subject's list, or the rule says `*`. -/
def adbGroupMatches (ruleId voList : Bytes) : Bool :=
  if ruleId = [42] then true else voListContains voList (cText ruleId)

def adbCsvMatches (ruleId csv : Bytes) : Bool :=
  if csv = [] then false
  else if ruleId = [42] then true
  else voListContains csv (cText ruleId)

def adbSelectorMatches (subj : AdbSubject) (sel : AdbSel) (id : Bytes) : Bool :=
  match sel with
  | .all => true
  | .user => adbUserMatches id subj.dn
  | .group => adbGroupMatches id subj.voList
  | .host => authdbHostMatch inetPton id subj.peerIp
  | .vorg => adbCsvMatches id subj.vorg
  | .role => adbCsvMatches id subj.role

/-- One place of the two lists carries both ids. -/
def adbPairMatches (aId bId : Bytes) (ap bp : Bytes) : Bool :=
  if ap.takeWhile (· ≠ 44) = aId ∧ bp.takeWhile (· ≠ 44) = bId then true
  else
    match _ha : ap.dropWhile (· ≠ 44), bp.dropWhile (· ≠ 44) with
    | _ :: ap', _ :: bp' => adbPairMatches aId bId ap' bp'
    | _, _ => false
termination_by ap.length
decreasing_by
  have hrest : (ap.dropWhile (· ≠ 44)).length ≤ ap.length :=
    (List.dropWhile_suffix _).length_le
  rw [_ha, List.length_cons] at hrest
  omega

/-- The loop of `adb_identity_matches`: the ids of `v` and `l` are kept for later. -/
def adbIdentityLoop (subj : AdbSubject) :
    List (AdbSel × Bytes) → Option Bytes → Option Bytes →
      Option (Option Bytes × Option Bytes)
  | [], vorgId, roleId => some (vorgId, roleId)
  | (.vorg, id) :: sels, _, roleId => adbIdentityLoop subj sels (some id) roleId
  | (.role, id) :: sels, vorgId, _ => adbIdentityLoop subj sels vorgId (some id)
  | (sel, id) :: sels, vorgId, roleId =>
    if adbSelectorMatches inetPton subj sel id then adbIdentityLoop subj sels vorgId roleId
    else none

/-- Every selector of the rule matches the subject. -/
def adbIdentityMatches (rule : AdbRule) (subj : AdbSubject) : Bool :=
  if rule.sels.length = 0 then false
  else
    match adbIdentityLoop inetPton subj rule.sels none none with
    | none => false
    | some (some vorgId, some roleId) => adbPairMatches vorgId roleId subj.vorg subj.role
    | some (some vorgId, none) => adbSelectorMatches inetPton subj .vorg vorgId
    | some (none, some roleId) => adbSelectorMatches inetPton subj .role roleId
    | some (none, none) => true

end

end BrixCache

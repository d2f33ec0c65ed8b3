import BrixCache.Core.Ascii
import Mathlib.Data.Int.Notation

/-!
# Reading JSON

The two readers of `core/compat`: `json_iter.c` gives the span of a member of an object and of the
elements of an array, `json_min.c` the text of a member. Where the code has a cursor, a function
here has what is left of the text. Each turn of a loop consumes a byte, so a loop that may take
as many turns as there are bytes comes to its end.
-/

namespace BrixCache

namespace Json

/-- What a reader says of the next member or element. -/
inductive Next (α : Type) : Type where
  /-- `1`: found -/
  | found (a : α) : Next α
  /-- `0`: there is none -/
  | none : Next α
  /-- `-1` -/
  | malformed : Next α
  deriving DecidableEq

def isSpace (c : UInt8) : Bool := c = 32 || c = 9 || c = 10 || c = 13

/-- `ws_skip` and `jm_skip_ws` -/
def wsSkip (s : Bytes) : Bytes := s.dropWhile isSpace

/-- A byte of a scalar that is not quoted. -/
def isScalar (c : UInt8) : Bool := !(c = 44 || c = 125 || c = 93 || isSpace c)

/-- `scalar_skip` and `jm_skip_scalar` -/
def scalarSkip (s : Bytes) : Bytes := s.dropWhile isScalar

/-! ## Spans -/

/-- `str_skip`, behind the opening quote. -/
def strSkip : Bytes → Option Bytes
  | [] => none
  | 92 :: s =>
    match s with
    | [] => none
    | _ :: s => strSkip s
  | c :: s => if c = 34 then some s else strSkip s

/-- `BRIX_JSON_DEPTH_MAX` -/
def depthMax : ℕ := 32

/-- `value_step`: what is left, the depth, and has a scalar ended? -/
def valueStep (depth : ℕ) : Bytes → Option (Bytes × ℕ × Bool)
  | [] => none
  | c :: s =>
    if c = 34 then (strSkip s).map fun s => (s, depth, false)
    else if c = 123 ∨ c = 91 then if depthMax < depth + 1 then none else some (s, depth + 1, false)
    else if c = 125 ∨ c = 93 then if depth = 0 then none else some (s, depth - 1, false)
    else if depth = 0 then some (scalarSkip (c :: s), 0, true)
    else some (s, depth, false)

/-- The loop of `value_skip`. -/
def valueLoop : ℕ → ℕ → Bytes → Option Bytes
  | 0, _, _ => none
  | turns + 1, depth, s =>
    match valueStep depth s with
    | none => none
    | some (s, depth, scalar) => if scalar || depth = 0 then some s else valueLoop turns depth s

/-- The text behind a value. -/
def valueSkip (s : Bytes) : Option Bytes :=
  valueLoop (wsSkip s).length 0 (wsSkip s)

/-- What was consumed of `s` when `rest` is left. -/
def span (s rest : Bytes) : Bytes := s.take (s.length - rest.length)

/-- `object_field`: the key, the value, and what is left. -/
def objectField (s : Bytes) : Next (Bytes × Bytes × Bytes) :=
  match wsSkip s with
  | 125 :: _ => .none
  | 34 :: s =>
    match strSkip s with
    | none => .malformed
    | some rest =>
      let key := s.take (s.length - rest.length - 1)
      match wsSkip rest with
      | 58 :: s =>
        match valueSkip (wsSkip s) with
        | none => .malformed
        | some rest => .found (key, span (wsSkip s) rest, rest)
      | _ => .malformed
  | _ => .malformed

/-- The loop of `brix_json_get_raw`. -/
def getRawLoop (key : Bytes) : ℕ → Bytes → Next Bytes
  | 0, _ => .malformed
  | turns + 1, s =>
    match objectField s with
    | .malformed => .malformed
    | .none => .none
    | .found (field, value, s) =>
      if field = key then .found value
      else
        match wsSkip s with
        | 44 :: s => getRawLoop key turns s
        | 125 :: _ => .none
        | _ => .malformed

/-- `brix_json_get_raw` -/
def getRaw (json key : Bytes) : Next Bytes :=
  match wsSkip json with
  | 123 :: s => getRawLoop key (s.length + 1) s
  | _ => .malformed

/-- The end of `brix_json_arr_next`: the element that comes next. -/
def arrElem (first : Bool) (s : Bytes) : Next (Bytes × Bytes) :=
  match wsSkip s with
  | 93 :: _ => if first then .none else .malformed
  | s =>
    match valueSkip s with
    | none => .malformed
    | some rest => .found (span s rest, rest)

/-- `brix_json_arr_next` of a cursor that is zero. -/
def arrFirst (arr : Bytes) : Next (Bytes × Bytes) :=
  match wsSkip arr with
  | 91 :: s => arrElem true s
  | _ => .malformed

/-- `brix_json_arr_next` of a cursor that is not. -/
def arrNext (s : Bytes) : Next (Bytes × Bytes) :=
  match wsSkip s with
  | 44 :: s => arrElem false s
  | 93 :: _ => .none
  | _ => .malformed

/-- A loop over the elements, from the answer to its call on: the elements, and did it come to
the end of the array? -/
def arrLoop : ℕ → Next (Bytes × Bytes) → List Bytes × Bool
  | _, .none => ([], true)
  | _, .malformed => ([], false)
  | 0, .found (elem, _) => ([elem], false)
  | turns + 1, .found (elem, s) =>
    let (elems, ended) := arrLoop turns (arrNext s)
    (elem :: elems, ended)

/-- `while (brix_json_arr_next(arr, …) == 1)` -/
def arrElems (arr : Bytes) : List Bytes × Bool := arrLoop arr.length (arrFirst arr)

/-! ## Texts -/

/-- `jm_hex` -/
def hexDigit (c : UInt8) : Option ℕ :=
  if 48 ≤ c ∧ c ≤ 57 then some (c.toNat - 48)
  else if 97 ≤ c ∧ c ≤ 102 then some (c.toNat - 97 + 10)
  else if 65 ≤ c ∧ c ≤ 70 then some (c.toNat - 65 + 10)
  else none

/-- `jm_u16`, and what is left behind it. -/
def u16 : Bytes → Option (ℕ × Bytes)
  | a :: b :: c :: d :: s =>
    match hexDigit a, hexDigit b, hexDigit c, hexDigit d with
    | some a, some b, some c, some d => some (a * 4096 + b * 256 + c * 16 + d, s)
    | _, _, _, _ => none
  | _ => none

/-- `jm_put_utf8` -/
def utf8 (cp : ℕ) : Bytes :=
  if cp < 0x80 then [UInt8.ofNat cp]
  else if cp < 0x800 then [UInt8.ofNat (0xC0 + cp / 64), UInt8.ofNat (0x80 + cp % 64)]
  else if cp < 0x10000 then
    [UInt8.ofNat (0xE0 + cp / 4096), UInt8.ofNat (0x80 + cp / 64 % 64),
      UInt8.ofNat (0x80 + cp % 64)]
  else
    [UInt8.ofNat (0xF0 + cp / 262144), UInt8.ofNat (0x80 + cp / 4096 % 64),
      UInt8.ofNat (0x80 + cp / 64 % 64), UInt8.ofNat (0x80 + cp % 64)]

/-- `jm_unescape_u`, behind the `u`. -/
def unescapeU (s : Bytes) : Option (Bytes × Bytes) :=
  match u16 s with
  | none => none
  | some (hi, s) =>
    if 0xD800 ≤ hi ∧ hi ≤ 0xDBFF then
      match s with
      | 92 :: 117 :: s' =>
        match u16 s' with
        | some (lo, s') =>
          if 0xDC00 ≤ lo ∧ lo ≤ 0xDFFF then
            some (utf8 (0x10000 + (hi - 0xD800) * 1024 + (lo - 0xDC00)), s')
          else some (utf8 0xFFFD, s)
        | none => some (utf8 0xFFFD, s)
      | _ => some (utf8 0xFFFD, s)
    else some (utf8 hi, s)

/-- `jm_unescape_char`, behind the backslash. -/
def unescapeChar : Bytes → Option (Bytes × Bytes)
  | [] => none
  | c :: s =>
    if c = 34 ∨ c = 92 ∨ c = 47 then some ([c], s)
    else if c = 98 then some ([8], s)
    else if c = 102 then some ([12], s)
    else if c = 110 then some ([10], s)
    else if c = 114 then some ([13], s)
    else if c = 116 then some ([9], s)
    else if c = 117 then unescapeU s
    else none

/-- The loop of `jm_string`: what is decoded, and what is left. -/
def stringLoop : ℕ → Bytes → Option (Bytes × Bytes)
  | 0, _ => none
  | _, [] => none
  | turns + 1, c :: s =>
    if c = 34 then some ([], s)
    else if c = 92 then
      match unescapeChar s with
      | none => none
      | some (bytes, s) => (stringLoop turns s).map fun (text, s) => (bytes ++ text, s)
    else (stringLoop turns s).map fun (text, s) => (c :: text, s)

/-- `jm_string`, behind the opening quote; how much of the text fits is left to the caller. -/
def string (s : Bytes) : Option (Bytes × Bytes) := stringLoop s.length s

/-- `jm_skip_container` -/
def skipContainer : ℕ → ℕ → Bytes → Option Bytes
  | 0, _, _ => none
  | _, _, [] => none
  | turns + 1, depth, c :: s =>
    if c = 34 then
      match string s with
      | none => none
      | some (_, s) => skipContainer turns depth s
    else if c = 123 ∨ c = 91 then skipContainer turns (depth + 1) s
    else if c = 125 ∨ c = 93 then
      if depth = 1 then some s else skipContainer turns (depth - 1) s
    else skipContainer turns depth s

/-- `jm_skip_value` -/
def skipValue : Bytes → Option Bytes
  | [] => none
  | c :: s =>
    if c = 34 then (string s).map fun (_, s) => s
    else if c = 123 ∨ c = 91 then skipContainer (s.length + 1) 0 (c :: s)
    else some (scalarSkip (c :: s))

/-- `jm_member_key`: the key, and what is left, from the value on. -/
def memberKey (s : Bytes) : Option (Bytes × Bytes) :=
  match wsSkip s with
  | 34 :: s =>
    match string s with
    | none => none
    | some (key, s) =>
      match wsSkip s with
      | 58 :: s => if wsSkip s = [] then none else some (key, wsSkip s)
      | _ => none
  | _ => none

/-- `jm_emit_value`, into a buffer of `size` bytes. -/
def emitValue (size : ℕ) : Bytes → Option Bytes
  | [] => none
  | c :: s =>
    if c = 34 then (string s).map fun (text, _) => text.take (size - 1)
    else if c = 123 ∨ c = 91 then none
    else some ((span (c :: s) (scalarSkip (c :: s))).take (size - 1))

/-- The loop of `brix_json_get_str`. -/
def getStrLoop (key : Bytes) (size : ℕ) : ℕ → Bytes → Option Bytes
  | 0, _ => none
  | turns + 1, s =>
    match memberKey s with
    | none => none
    | some (field, s) =>
      if field = key then emitValue size s
      else
        match skipValue s with
        | none => none
        | some s =>
          match wsSkip s with
          | 44 :: s => getStrLoop key size turns s
          | s => getStrLoop key size turns s

/-- `brix_json_get_str`: the bytes it writes into a buffer of `size`, the terminator apart. -/
def getStr (json key : Bytes) (size : ℕ) : Option Bytes :=
  match wsSkip json with
  | 123 :: s => getStrLoop key size (s.length + 1) s
  | _ => none

end Json

end BrixCache

/-!
## The cursor of the JSON extractor

`core/compat/json_min.c`. `none` is behaviour that C does not define, or a loop that does not come
to its end; the `NULL` and the error codes of the code are answers.
-/

namespace BrixCache

namespace Json

abbrev Defined (α : Type) : Type := Option α

/-! ### Output -/

/-- A buffer of `size` bytes: what is in it, and `*pos` -/
structure Buffer : Type where
  size : ℕ
  text : Bytes
  pos : ℕ
  deriving DecidableEq

/-- A buffer in which nothing was put yet -/
def Buffer.new (size : ℕ) : Buffer := ⟨size, [], 0⟩

/-- `jm_put` -/
def Buffer.put (out : Buffer) (c : UInt8) : Buffer :=
  if out.pos + 1 < out.size then { out with text := out.text ++ [c], pos := out.pos + 1 }
  else { out with pos := out.pos + 1 }

/-- `jm_put` for each of some bytes -/
def Buffer.putAll (out : Buffer) (bytes : Bytes) : Buffer := bytes.foldl Buffer.put out

/-! ### Strings -/

/-- The loop of `jm_skip_ws` and `jm_skip_scalar` -/
def jmSkip (skips : UInt8 → Bool) (doc : Bytes) : ℕ → ℕ → Defined ℕ
  | 0, _ => none
  | turns + 1, p =>
    if p < doc.length then do
      let c ← doc[p]?
      if skips c then jmSkip skips doc turns (p + 1) else some p
    else some p

def jmSkipWs (doc : Bytes) (p : ℕ) : Defined ℕ := jmSkip isSpace doc (doc.length + 1) p

def jmSkipScalar (doc : Bytes) (p : ℕ) : Defined ℕ := jmSkip isScalar doc (doc.length + 1) p

/-- Four hex digits. -/
def jmU16 (doc : Bytes) (p : ℕ) : Defined (Option ℕ) := do
  let a ← doc[p]?
  let b ← doc[p + 1]?
  let c ← doc[p + 2]?
  let d ← doc[p + 3]?
  match hexDigit a, hexDigit b, hexDigit c, hexDigit d with
  | some a, some b, some c, some d => some (some (a * 4096 + b * 256 + c * 16 + d))
  | _, _, _, _ => some none

/-- The look behind a high surrogate for a low one: its code unit, if there is one -/
def jmLow (doc : Bytes) (p : ℕ) : Defined (Option ℕ) :=
  if p + 6 < doc.length then do
    let a ← doc[p + 1]?
    if a = 92 then do
      let b ← doc[p + 2]?
      if b = 117 then do
        let lo ← jmU16 doc (p + 3)
        some (lo.filter fun lo => 0xDC00 ≤ lo && lo ≤ 0xDFFF)
      else some none
    else some none
  else some none

/-- `jm_unescape_u`, with `p` at the `u`: the last byte that was consumed -/
def jmUnescapeU (doc : Bytes) (p : ℕ) (out : Option Buffer) :
    Defined (Option (ℕ × Option Buffer)) :=
  if doc.length ≤ p + 4 then some none
  else do
    match ← jmU16 doc (p + 1) with
    | none => some none
    | some hi =>
      if 0xD800 ≤ hi ∧ hi ≤ 0xDBFF then do
        match ← jmLow doc (p + 4) with
        | some lo =>
          some (some (p + 10, out.map fun out =>
            out.putAll (utf8 (0x10000 + (hi - 0xD800) * 1024 + (lo - 0xDC00)))))
        | none => some (some (p + 4, out.map fun out => out.putAll (utf8 0xFFFD)))
      else some (some (p + 4, out.map fun out => out.putAll (utf8 hi)))

/-- The bytes that stand for themselves behind a backslash, or for a control character -/
def escaped (c : UInt8) : Option UInt8 :=
  if c = 34 ∨ c = 92 ∨ c = 47 then some c
  else if c = 98 then some 8
  else if c = 102 then some 12
  else if c = 110 then some 10
  else if c = 114 then some 13
  else if c = 116 then some 9
  else none

/-- `jm_unescape_char`, with `p` behind the backslash -/
def jmUnescapeChar (doc : Bytes) (p : ℕ) (out : Option Buffer) :
    Defined (Option (ℕ × Option Buffer)) :=
  if doc.length ≤ p then some none
  else do
    let c ← doc[p]?
    match escaped c with
    | some d => some (some (p, out.map fun out => out.put d))
    | none => if c = 117 then jmUnescapeU doc p out else some none

/-- The loop of `jm_string` -/
def jmStringLoop (doc : Bytes) : ℕ → ℕ → Option Buffer → Defined (Option (ℕ × Option Buffer))
  | 0, _, _ => none
  | turns + 1, p, out =>
    if p < doc.length then do
      let c ← doc[p]?
      if c = 34 then some (some (p + 1, out))
      else if c = 92 then do
        match ← jmUnescapeChar doc (p + 1) out with
        | none => some none
        | some (p, out) => jmStringLoop doc turns (p + 1) out
      else jmStringLoop doc turns (p + 1) (out.map fun out => out.put c)
    else some none

/-- `jm_string`, with `p` at the opening quote -/
def jmString (doc : Bytes) (p : ℕ) (out : Option Buffer) :
    Defined (Option (ℕ × Option Buffer)) :=
  jmStringLoop doc (doc.length + 1) (p + 1) out

/-! ### Values and members -/

/-- The loop of `jm_skip_container`; `depth` is an `int`, which goes around. -/
def jmSkipContainerLoop (doc : Bytes) : ℕ → ℕ → Int32 → Defined (Option ℕ)
  | 0, _, _ => none
  | turns + 1, p, depth =>
    if p < doc.length then do
      let c ← doc[p]?
      if c = 34 then do
        match ← jmString doc p none with
        | none => some none
        | some (p, _) => jmSkipContainerLoop doc turns p depth
      else if c = 123 ∨ c = 91 then jmSkipContainerLoop doc turns (p + 1) (depth + 1)
      else if c = 125 ∨ c = 93 then
        if depth - 1 = 0 then some (some (p + 1))
        else jmSkipContainerLoop doc turns (p + 1) (depth - 1)
      else jmSkipContainerLoop doc turns (p + 1) depth
    else some none

/-- The position behind an object or array. -/
def jmSkipContainer (doc : Bytes) (p : ℕ) : Defined (Option ℕ) :=
  jmSkipContainerLoop doc (doc.length + 1) p 0

/-- The position behind a value. -/
def jmSkipValue (doc : Bytes) (p : ℕ) : Defined (Option ℕ) :=
  if doc.length ≤ p then some none
  else do
    let c ← doc[p]?
    if c = 34 then do
      let r ← jmString doc p none
      some (r.map Prod.fst)
    else if c = 123 ∨ c = 91 then jmSkipContainer doc p
    else do
      let p ← jmSkipScalar doc p
      some (some p)

/-- `sizeof(kbuf)` -/
def keyBuf : ℕ := 128

/-- `jm_member_key`: where the value is, and the key buffer -/
def jmMemberKey (doc : Bytes) (p : ℕ) : Defined (Option (ℕ × Buffer)) := do
  let p ← jmSkipWs doc p
  if doc.length ≤ p then some none
  else do
    let c ← doc[p]?
    if c = 125 ∨ c ≠ 34 then some none
    else do
      match ← jmString doc p (some (.new keyBuf)) with
      | some (p, some key) =>
        let p ← jmSkipWs doc p
        if doc.length ≤ p then some none
        else do
          let c ← doc[p]?
          if c ≠ 58 then some none
          else do
            let p ← jmSkipWs doc (p + 1)
            if doc.length ≤ p then some none else some (some (p, key))
      | _ => some none

/-- `jm_emit_value`: what the buffer holds in front of its terminator when the value was written -/
def jmEmitValue (doc : Bytes) (p size : ℕ) : Defined (Option Bytes) := do
  let c ← doc[p]?
  if c = 34 then do
    let r ← jmString doc p (some (.new size))
    some (r.bind fun r => r.2.map Buffer.text)
  else if c = 123 ∨ c = 91 then some none
  else do
    match ← jmSkipValue doc p with
    | none => some none
    | some vend => some (some ((doc.drop p).take (if size ≤ vend - p then size - 1 else vend - p)))

/-- The loop of `brix_json_get_str` -/
def jsonGetStrLoop (doc key : Bytes) (size : ℕ) : ℕ → ℕ → Defined (Option Bytes)
  | 0, _ => none
  | turns + 1, p => do
    match ← jmMemberKey doc p with
    | none => some none
    | some (p, kbuf) =>
      if kbuf.pos = key.length ∧ kbuf.text.take key.length = key then jmEmitValue doc p size
      else do
        match ← jmSkipValue doc p with
        | none => some none
        | some p =>
          let p ← jmSkipWs doc p
          if p < doc.length then do
            let c ← doc[p]?
            jsonGetStrLoop doc key size turns (if c = 44 then p + 1 else p)
          else jsonGetStrLoop doc key size turns p

/-- `brix_json_get_str`: the text it writes when it returns 1, and nothing when it returns 0 -/
def jsonGetStr (doc key : Bytes) (size : ℕ) : Defined (Option Bytes) :=
  if size = 0 then some none
  else do
    let p ← jmSkipWs doc 0
    if doc.length ≤ p then some none
    else do
      let c ← doc[p]?
      if c ≠ 123 then some none else jsonGetStrLoop doc key size (doc.length + 1) (p + 1)

end Json

end BrixCache

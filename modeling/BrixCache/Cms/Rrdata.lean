import BrixCache.Core.Ascii
import Mathlib.Algebra.Group.Int.Defs
import Mathlib.Algebra.Group.Nat.Defs
import Mathlib.Data.List.Nodup

/-!
# The payload of a forwarded operation

`net/cms/rrdata.c`: the strings of a request between cluster managers, each behind a length of two
bytes that counts its NUL. The parser walks a specification for the opcode and leaves spans into
the payload; the encoder writes the strings of the operations that are forwarded.
-/

namespace BrixCache

/-! ## Fields -/

/-- The string slots of `brix_cms_rrdata_t` -/
inductive RrField : Type where
  | ident | path | path2 | opaqueCgi | opaque2 | avoid | reqid | notify | prty | mode
  deriving DecidableEq

/-- A span that borrows the payload: where it starts, and its length without the NUL -/
structure RrSpan : Type where
  start : ℕ
  len : ℕ
  deriving DecidableEq

/-- `brix_cms_rrdata_t`: the spans of the fields that were there, and the options -/
structure RrData : Type where
  span : RrField → Option RrSpan
  opts : UInt32
  hasOpts : Bool

def RrData.zero : RrData := ⟨fun _ => none, 0, false⟩

/-- A string slot set -/
def RrData.set (out : RrData) (f : RrField) (s : Option RrSpan) : RrData :=
  { out with span := Function.update out.span f s }

def RrSpan.text (payload : Bytes) (s : RrSpan) : Bytes := (payload.drop s.start).take s.len

/-- The bytes a parsed field points at. -/
def RrData.text (payload : Bytes) (out : RrData) (f : RrField) : Option Bytes :=
  (out.span f).map (RrSpan.text payload)

/-! ## Reading -/

/-- `read_str` at a position: the position behind the string, and its span -/
def readStr (payload : Bytes) (p : ℕ) : Option (ℕ × Option RrSpan) :=
  match payload.drop p with
  | hi :: lo :: rest =>
    let len := 256 * hi.toNat + lo.toNat
    if len = 0 then some (p + 2, none)
    else if len = 1 then none
    else if rest.length < len then none
    else if rest[len - 1]? ≠ some 0 ∨ 0 ∈ rest.take (len - 1) then none
    else some (p + 2 + len, some ⟨p + 2, len - 1⟩)
  | _ => none

/-- A trailing string that the payload may leave out. -/
def readOptStr (payload : Bytes) (p : ℕ) : Option (ℕ × Option RrSpan) :=
  if payload.length ≤ p then some (p, none) else readStr payload p

def cmsPtInt : UInt8 := 0xa0

/-- A tagged 32-bit integer, big end first. -/
def readInt (payload : Bytes) (p : ℕ) : Option (ℕ × UInt32) :=
  match payload.drop p with
  | tag :: a :: b :: c :: d :: _ =>
    if tag ≠ cmsPtInt then none
    else some (p + 5,
      (a.toUInt32 <<< 24) ||| (b.toUInt32 <<< 16) ||| (c.toUInt32 <<< 8) ||| d.toUInt32)
  | _ => none

/-- `rr_slot`, by the letters of `rr_slots` -/
def rrSlot (key : Char) : Option RrField :=
  if key = 'i' then some .ident
  else if key = 'p' then some .path
  else if key = '2' then some .path2
  else if key = 'o' then some .opaqueCgi
  else if key = 't' then some .opaque2
  else if key = 'a' then some .avoid
  else if key = 'r' then some .reqid
  else if key = 'n' then some .notify
  else if key = 'y' then some .prty
  else if key = 'm' then some .mode
  else none

/-- `rr_parse_spec`. Behind the fence `|` a field may be missing at the end. -/
def rrParseSpec (payload : Bytes) :
    List Char → Bool → ℕ → RrData → Option (ℕ × RrData)
  | [], _, p, out => some (p, out)
  | c :: spec, optional, p, out =>
    if c = '|' then rrParseSpec payload spec true p out
    else if c = '#' then do
      let (p, v) ← readInt payload p
      rrParseSpec payload spec optional p { out with opts := v, hasOpts := true }
    else do
      let f ← rrSlot c
      let (p, s) ← (if optional then readOptStr else readStr) payload p
      rrParseSpec payload spec optional p (out.set f s)

/-! ## Opcodes -/

def kChmod : UInt8 := 1
def kLocate : UInt8 := 2
def kMkdir : UInt8 := 3
def kMkpath : UInt8 := 4
def kMv : UInt8 := 5
def kPrepadd : UInt8 := 6
def kPrepdel : UInt8 := 7
def kRm : UInt8 := 8
def kRmdir : UInt8 := 9
def kSelect : UInt8 := 10
def kStatfs : UInt8 := 21
def kTrunc : UInt8 := 23

/-- The specification of an opcode, in `brix_cms_rrdata_parse` -/
def rrSpec (code : UInt8) : Option (List Char) :=
  if code = kChmod ∨ code = kMkdir ∨ code = kMkpath ∨ code = kTrunc then
    some ['i', 'm', 'p', '|', 'o']
  else if code = kMv then some ['i', 'p', '2', '|', 'o', 't']
  else if code = kRm ∨ code = kRmdir ∨ code = kStatfs then some ['i', 'p', '|', 'o']
  else if code = kPrepadd then some ['i', 'r', 'n', 'y', 'm', 'p', '|', 'o']
  else if code = kPrepdel then some ['i', 'r']
  else if code = kLocate ∨ code = kSelect then some ['i', '#', 'p', '|', 'o', 'a']
  else none

/-- Parse a payload by the field list of its code; it must be used up. -/
def brixCmsRrdataParse (code : UInt8) (payload : Bytes) : Option RrData := do
  let spec ← rrSpec code
  let (p, out) ← rrParseSpec payload spec false 0 RrData.zero
  if p = payload.length then return out else none

/-! ## Writing -/

/-- `brix_cms_fwd_fields_t`: strings that C can hold, or `NULL` -/
structure CmsFwdFields : Type where
  field : RrField → Option Bytes
  text : ∀ f s, field f = some s → 0 ∉ s

/-- What `enc_str` writes -/
def encBytes (s : Bytes) : Bytes :=
  if s = [] then [0, 0]
  else UInt8.ofNat ((s.length + 1) / 256) :: UInt8.ofNat (s.length + 1) :: (s ++ [0])

/-- `enc_str`, behind what is in the buffer -/
def encStr (buflen : ℕ) (out : Bytes) (s : Option Bytes) : Option Bytes :=
  if buflen - out.length < (encBytes (s.getD [])).length then none
  else some (out ++ encBytes (s.getD []))

def encSeq (buflen : ℕ) (opaqueCgi : Option Bytes) :
    Bytes → List (Option Bytes) → Option Bytes
  | out, [] => if opaqueCgi = none then some out else encStr buflen out opaqueCgi
  | out, s :: fields => do encSeq buflen opaqueCgi (← encStr buflen out s) fields

/-- The fields of an operation that is forwarded, in `brix_cms_rrdata_encode` -/
def rrSeq (code : UInt8) : Option (List RrField) :=
  if code = kChmod ∨ code = kMkdir ∨ code = kMkpath ∨ code = kTrunc then
    some [.ident, .mode, .path]
  else if code = kMv then some [.ident, .path, .path2]
  else if code = kRm ∨ code = kRmdir ∨ code = kStatfs then some [.ident, .path]
  else none

/-- `brix_cms_rrdata_encode` into a buffer of `buflen`: what it returns, an `int`, and what a call
that has not failed has written -/
def brixCmsRrdataEncode (code : UInt8) (fields : CmsFwdFields) (buflen : ℕ) : ℤ × Bytes :=
  match (do encSeq buflen (fields.field .opaqueCgi) [] ((← rrSeq code).map fields.field)) with
  | some out => (Int.bmod out.length (2 ^ 32), out)
  | none => (-1, [])

end BrixCache

/-! ## The codec of forwarded operations -/

namespace BrixCache

open List

variable {payload : Bytes}

/-! ### What is accepted -/

@[simp] theorem RrData.set_span_self (out : RrData) (f : RrField) (s : Option RrSpan) :
    (out.set f s).span f = s := Function.update_self _ _ _

@[simp] theorem RrData.set_span_of_ne (out : RrData) {f g : RrField} (h : g ≠ f)
    (s : Option RrSpan) : (out.set f s).span g = out.span g := Function.update_of_ne h _ _

/-- A C string inside the payload, of a length that two bytes can count -/
structure RrSpan.Sound (payload : Bytes) (s : RrSpan) : Prop where
  inside : s.start + s.len < payload.length
  terminated : payload[s.start + s.len]? = some 0
  noNul : 0 ∉ s.text payload
  short : s.len < 65535

variable {p p' buflen : ℕ} {code : UInt8} {post pre : Bytes} {seq : List RrField}

/-- A string that is read lies in the payload, with its NUL behind it. -/
theorem readStr_sound {s : RrSpan} (h : readStr payload p = some (p', some s)) :
    s.Sound payload := by
  unfold readStr at h
  split at h
  · next hi lo rest hdrop =>
    simp only at h
    split at h
    · cases h
    split at h
    · cases h
    split at h
    · cases h
    · next hzero hone hlen =>
      obtain ⟨hbad, hsome⟩ := Option.ite_none_left_eq_some.mp h
      obtain ⟨-, hspan⟩ := Prod.mk.inj (Option.some.inj hsome)
      cases hspan
      simp only [not_or, not_not] at hbad
      have hhi := hi.toNat_lt
      have hlo := lo.toNat_lt
      have hrest : payload.drop (p + 2) = rest := by
        rw [← drop_drop, hdrop]
        rfl
      have hsize := congrArg length hrest
      rw [length_drop] at hsize
      refine ⟨?_, ?_, ?_, ?_⟩
      · dsimp only
        omega
      · dsimp only
        rw [← getElem?_drop, hrest]
        exact hbad.1
      · rw [RrSpan.text, hrest]
        exact hbad.2
      · dsimp only
        omega
  · cases h

theorem readOptStr_sound {s : RrSpan} (h : readOptStr payload p = some (p', some s)) :
    s.Sound payload := by
  rw [readOptStr] at h
  split at h
  · cases h
  · exact readStr_sound h

theorem rrParseSpec_sound {spec : List Char} {optional : Bool} {out out' : RrData}
    (hout : ∀ f s, out.span f = some s → s.Sound payload)
    (h : rrParseSpec payload spec optional p out = some (p', out')) :
    ∀ f s, out'.span f = some s → s.Sound payload := by
  induction spec generalizing optional p out with
  | nil =>
    obtain ⟨-, rfl⟩ := Prod.mk.inj (Option.some.inj h)
    exact hout
  | cons c spec ih =>
    rw [rrParseSpec] at h
    split at h
    · exact ih hout h
    split at h
    · obtain ⟨⟨q, v⟩, -, hrest⟩ := Option.bind_eq_some_iff.mp h
      exact @ih _ _ { out with opts := v, hasOpts := true } hout hrest
    · obtain ⟨f, -, h⟩ := Option.bind_eq_some_iff.mp h
      obtain ⟨⟨q, s⟩, hread, hrest⟩ := Option.bind_eq_some_iff.mp h
      refine @ih _ _ (out.set f s) ?_ hrest
      intro g t hg
      by_cases hgf : g = f
      · subst hgf
        rw [RrData.set_span_self] at hg
        subst hg
        cases optional with
        | true => exact readOptStr_sound hread
        | false => exact readStr_sound hread
      · rw [RrData.set_span_of_ne out hgf] at hg
        exact hout g t hg

theorem brixCmsRrdataParse_sound {out : RrData} (h : brixCmsRrdataParse code payload = some out) :
    (∀ f s, out.span f = some s → s.Sound payload) ∧
      ∃ spec, rrSpec code = some spec ∧
        rrParseSpec payload spec false 0 RrData.zero = some (payload.length, out) := by
  obtain ⟨spec, hspec, h⟩ := Option.bind_eq_some_iff.mp h
  obtain ⟨⟨p, out'⟩, hparse, h⟩ := Option.bind_eq_some_iff.mp h
  obtain ⟨rfl, hout⟩ := Option.ite_none_right_eq_some.mp h
  cases hout
  have hzero : ∀ f s, RrData.zero.span f = some s → s.Sound payload := fun f s h => by cases h
  exact ⟨rrParseSpec_sound hzero hparse, spec, hspec, hparse⟩

theorem brixCmsRrdataParse_of_spec {spec : List Char} {out : RrData}
    (hspec : rrSpec code = some spec)
    (h : rrParseSpec payload spec false 0 RrData.zero = some (payload.length, out)) :
    brixCmsRrdataParse code payload = some out := by
  simp [brixCmsRrdataParse, hspec, h]

/-! ### What is read back -/

/-- The string a field reads back as: an empty one is absent. -/
def readBack (s : Bytes) : Option Bytes := if s = [] then none else some s

theorem length_encBytes {s : Bytes} (h : s ≠ []) : (encBytes s).length = s.length + 3 := by
  rw [encBytes, if_neg h, length_cons, length_cons, length_append,
    length_singleton]

theorem length_encBytes_pos (s : Bytes) : 0 < (encBytes s).length := by
  by_cases h : s = []
  · subst h
    decide
  · rw [length_encBytes h]
    omega

theorem readStr_encBytes {s : Bytes} (htext : 0 ∉ s) (hshort : s.length < 65535)
    (hpay : payload = pre ++ encBytes s ++ post) :
    ∃ t, readStr payload pre.length = some (pre.length + (encBytes s).length, t) ∧
      t.map (RrSpan.text payload) = readBack s := by
  have hdrop : payload.drop pre.length = encBytes s ++ post := by
    rw [hpay, append_assoc, drop_left]
  by_cases hs : s = []
  · subst hs
    exact ⟨none, by simp [readStr, hdrop, encBytes], rfl⟩
  · have hne : s.length ≠ 0 := fun h => hs (length_eq_zero_iff.mp h)
    have hlen : 256 * (UInt8.ofNat ((s.length + 1) / 256)).toNat +
        (UInt8.ofNat (s.length + 1)).toNat = s.length + 1 := by
      rw [UInt8.toNat_ofNat', UInt8.toNat_ofNat']
      omega
    rw [encBytes, if_neg hs] at hdrop
    refine ⟨some ⟨pre.length + 2, s.length⟩, ?_, ?_⟩
    · simp only [readStr, hdrop, cons_append, hlen, Nat.add_sub_cancel]
      rw [if_neg (by omega), if_neg (by omega), if_neg (by simp), if_neg]
      · simp [encBytes, hs, Nat.add_comm, Nat.add_left_comm]
      · simp [htext]
    · have hrest : payload.drop (pre.length + 2) = s ++ [0] ++ post := by
        rw [← drop_drop, hdrop]
        rfl
      rw [Option.map_some, RrSpan.text, hrest, readBack, if_neg hs, append_assoc,
        take_left]

/-- The letter of a slot -/
def rrKey : RrField → Char
  | .ident => 'i'
  | .path => 'p'
  | .path2 => '2'
  | .opaqueCgi => 'o'
  | .opaque2 => 't'
  | .avoid => 'a'
  | .reqid => 'r'
  | .notify => 'n'
  | .prty => 'y'
  | .mode => 'm'

theorem rrSlot_rrKey (f : RrField) : rrSlot (rrKey f) = some f := by cases f <;> rfl

theorem ne_of_rrSlot {c : Char} {f : RrField} (h : rrSlot c = some f) : c ≠ '|' ∧ c ≠ '#' := by
  constructor
  · rintro rfl
    cases h
  · rintro rfl
    cases h

def CmsFwdFields.str (fields : CmsFwdFields) (f : RrField) : Bytes :=
  (fields.field f).getD []

variable {fields : CmsFwdFields}

theorem CmsFwdFields.str_noNul (f : RrField) : 0 ∉ fields.str f := by
  rw [CmsFwdFields.str]
  cases h : fields.field f with
  | none => simp
  | some s => exact fields.text f s h

theorem rrParseSpec_field (f : RrField) (hshort : (fields.str f).length < 65535)
    (hpay : payload = pre ++ encBytes (fields.str f) ++ post) (spec : List Char) (optional : Bool)
    (out : RrData) :
    ∃ t, rrParseSpec payload (rrKey f :: spec) optional pre.length out =
        rrParseSpec payload spec optional (pre.length + (encBytes (fields.str f)).length)
          (out.set f t) ∧ t.map (RrSpan.text payload) = readBack (fields.str f) := by
  obtain ⟨t, hread, ht⟩ := readStr_encBytes (fields.str_noNul f) hshort hpay
  have hopt : readOptStr payload pre.length = readStr payload pre.length := by
    have hpos := length_encBytes_pos (fields.str f)
    have hlen := congrArg length hpay
    simp only [length_append] at hlen
    rw [readOptStr, if_neg (by omega)]
  refine ⟨t, ?_, ht⟩
  obtain ⟨hfence, hsign⟩ := ne_of_rrSlot (rrSlot_rrKey f)
  rw [rrParseSpec, if_neg hfence, if_neg hsign, rrSlot_rrKey]
  cases optional <;> simp [hopt, hread]

theorem rrParseSpec_fields {fs : List RrField} (hnodup : fs.Nodup)
    (hshort : ∀ f ∈ fs, (fields.str f).length < 65535)
    (hpay : payload = pre ++ fs.flatMap (fun f => encBytes (fields.str f)) ++ post)
    (spec : List Char) (optional : Bool) (out : RrData) :
    ∃ out', rrParseSpec payload (fs.map rrKey ++ spec) optional pre.length out =
        rrParseSpec payload spec optional
          (pre ++ fs.flatMap fun f => encBytes (fields.str f)).length out' ∧
      (∀ f ∈ fs, out'.text payload f = readBack (fields.str f)) ∧
      ∀ f, f ∉ fs → out'.span f = out.span f := by
  induction fs generalizing pre out with
  | nil => exact ⟨out, by simp, by simp, fun f _ => rfl⟩
  | cons f fs ih =>
    obtain ⟨hf, hnodup⟩ := nodup_cons.mp hnodup
    rw [flatMap_cons, ← append_assoc, append_assoc _ _ post] at hpay
    obtain ⟨t, hparse, ht⟩ := rrParseSpec_field f (hshort f mem_cons_self) hpay
      (fs.map rrKey ++ spec) optional out
    rw [← append_assoc] at hpay
    obtain ⟨out', hrest, hin, hout⟩ := ih hnodup
      (fun g hg => hshort g (mem_cons_of_mem f hg)) hpay (out.set f t)
    refine ⟨out', ?_, ?_, ?_⟩
    · rw [map_cons, cons_append, hparse, ← length_append, hrest, flatMap_cons,
        append_assoc]
    · intro g hg
      rcases mem_cons.mp hg with rfl | hg
      · rw [RrData.text, hout _ hf, RrData.set_span_self, ht]
      · exact hin g hg
    · intro g hg
      rw [mem_cons, not_or] at hg
      rw [hout g hg.2, RrData.set_span_of_ne out hg.1]

theorem rrParseSpec_absent (payload : Bytes) (fs : List RrField) (out : RrData) :
    ∃ out', rrParseSpec payload (fs.map rrKey) true payload.length out =
        some (payload.length, out') ∧
      (∀ f ∈ fs, out'.span f = none) ∧ ∀ f, f ∉ fs → out'.span f = out.span f := by
  induction fs generalizing out with
  | nil => exact ⟨out, rfl, by simp, fun f _ => rfl⟩
  | cons f fs ih =>
    obtain ⟨out', hrest, hin, hout⟩ := ih (out.set f none)
    refine ⟨out', ?_, ?_, ?_⟩
    · obtain ⟨hfence, hsign⟩ := ne_of_rrSlot (rrSlot_rrKey f)
      rw [map_cons, rrParseSpec, if_neg hfence, if_neg hsign, rrSlot_rrKey]
      simp [readOptStr, hrest]
    · intro g hg
      by_cases hmem : g ∈ fs
      · exact hin g hmem
      · rw [hout g hmem, mem_cons.mp hg |>.resolve_right hmem, RrData.set_span_self]
    · intro g hg
      rw [mem_cons, not_or] at hg
      rw [hout g hg.2, RrData.set_span_of_ne out hg.1]

/-! ### What is written -/

theorem encStr_eq_some {out out' : Bytes} {s : Option Bytes} :
    encStr buflen out s = some out' ↔
      out' = out ++ encBytes (s.getD []) ∧ out'.length ≤ buflen := by
  have hpos := length_encBytes_pos (s.getD [])
  rw [encStr, Option.ite_none_left_eq_some]
  constructor
  · rintro ⟨hroom, hout⟩
    cases hout
    rw [length_append]
    exact ⟨rfl, by omega⟩
  · rintro ⟨rfl, hlen⟩
    rw [length_append] at hlen
    exact ⟨by omega, rfl⟩

/-- The encoder writes the strings one behind the other, or runs out of room. -/
theorem encSeq_eq_some {opaqueCgi : Option Bytes} {out out' : Bytes}
    {strs : List (Option Bytes)} (hroom : out.length ≤ buflen) :
    encSeq buflen opaqueCgi out strs = some out' ↔
      out' = out ++ strs.flatMap (fun s => encBytes (s.getD [])) ++
        (opaqueCgi.map encBytes).getD [] ∧ out'.length ≤ buflen := by
  induction strs generalizing out with
  | nil =>
    rw [encSeq]
    cases opaqueCgi with
    | none =>
      simp only [if_true, Option.some.injEq, flatMap_nil, append_nil, Option.map_none,
        Option.getD_none]
      constructor
      · rintro rfl
        exact ⟨rfl, hroom⟩
      · rintro ⟨rfl, -⟩
        rfl
    | some s => simp [encStr_eq_some]
  | cons s strs ih =>
    rw [encSeq, Option.bind_eq_bind, Option.bind_eq_some_iff]
    constructor
    · rintro ⟨mid, hmid, hrest⟩
      obtain ⟨rfl, hlen⟩ := encStr_eq_some.mp hmid
      obtain ⟨hout, hlen'⟩ := (ih hlen).mp hrest
      exact ⟨by simpa using hout, hlen'⟩
    · rintro ⟨hout, hlen⟩
      have hmid : (out ++ encBytes (s.getD [])).length ≤ buflen := by
        simp only [hout, length_append, flatMap_cons] at hlen
        rw [length_append]
        omega
      exact ⟨_, encStr_eq_some.mpr ⟨rfl, hmid⟩, (ih hmid).mpr ⟨by simpa using hout, hlen⟩⟩

def CmsFwdFields.wire (fields : CmsFwdFields) (seq : List RrField) : Bytes :=
  seq.flatMap (fun f => encBytes (fields.str f)) ++
    ((fields.field .opaqueCgi).map encBytes).getD []

theorem brixCmsRrdataEncode_cases (code : UInt8) (fields : CmsFwdFields) (buflen : ℕ) :
    (brixCmsRrdataEncode code fields buflen).1 = -1 ∨
      ∃ seq, rrSeq code = some seq ∧ brixCmsRrdataEncode code fields buflen =
        (Int.bmod (fields.wire seq).length (2 ^ 32), fields.wire seq) := by
  unfold brixCmsRrdataEncode
  split
  · next out hout =>
    obtain ⟨seq, hseq, henc⟩ := Option.bind_eq_some_iff.mp hout
    obtain ⟨rfl, -⟩ := (encSeq_eq_some (Nat.zero_le buflen)).mp henc
    refine .inr ⟨seq, hseq, ?_⟩
    simp [CmsFwdFields.wire, flatMap_map, CmsFwdFields.str]
  · exact .inl rfl

theorem brixCmsRrdataEncode_of_room
    (hseq : rrSeq code = some seq) (hroom : (fields.wire seq).length ≤ buflen) :
    brixCmsRrdataEncode code fields buflen =
      (Int.bmod (fields.wire seq).length (2 ^ 32), fields.wire seq) := by
  have henc : encSeq buflen (fields.field .opaqueCgi) [] (seq.map fields.field) =
      some (fields.wire seq) := by
    refine (encSeq_eq_some (Nat.zero_le buflen)).mpr ⟨?_, hroom⟩
    simp [CmsFwdFields.wire, flatMap_map, CmsFwdFields.str]
  simp [brixCmsRrdataEncode, hseq, henc]

/-! ### The round trip -/

/-- The fields an operation sends -/
def rrSent (code : UInt8) : List RrField := ((rrSeq code).map (· ++ [.opaqueCgi])).getD []

theorem rrSpec_of_rrSeq (h : rrSeq code = some seq) :
    ∃ rest : List RrField, RrField.opaqueCgi ∉ rest ∧ (∀ f ∈ seq, f ∉ rest) ∧
      rrSpec code = some (seq.map rrKey ++ '|' :: (RrField.opaqueCgi :: rest).map rrKey) ∧
      (seq ++ [RrField.opaqueCgi]).Nodup ∧ seq.length ≤ 3 := by
  unfold rrSeq at h
  unfold rrSpec
  split at h
  · next hcode =>
    cases h
    exact ⟨[], by simp, by simp, if_pos hcode, by decide, by decide⟩
  split at h
  · next hnot hcode =>
    cases h
    refine ⟨[.opaque2], by decide, by decide, ?_, by decide, by decide⟩
    rw [if_neg hnot, if_pos hcode]
    rfl
  split at h
  · next hnot hnot' hcode =>
    cases h
    refine ⟨[], by simp, by simp, ?_, by decide, by decide⟩
    rw [if_neg hnot, if_neg hnot', if_pos hcode]
    rfl
  · cases h

/-- The parser takes the payload, and every field sent reads back. -/
def CmsFwdFields.ReadsBack (fields : CmsFwdFields) (code : UInt8) (payload : Bytes) : Prop :=
  ∃ out, brixCmsRrdataParse code payload = some out ∧
    ∀ f ∈ rrSent code, out.text payload f = readBack (fields.str f)

/-- The parser reads from the encoder's bytes the strings that were sent. -/
theorem CmsFwdFields.readsBack_wire
    (hseq : rrSeq code = some seq) (hshort : ∀ f ∈ rrSent code, (fields.str f).length < 65535) :
    fields.ReadsBack code (fields.wire seq) := by
  have hsent : rrSent code = seq ++ [.opaqueCgi] := by rw [rrSent, hseq]; rfl
  rw [hsent] at hshort
  obtain ⟨rest, hopaque, hrest, hspec, hnodup, -⟩ := rrSpec_of_rrSeq hseq
  obtain ⟨hseqNodup, -, hdisjoint⟩ := nodup_append.mp hnodup
  have hnotin : ∀ f ∈ seq, f ≠ .opaqueCgi :=
    fun f hf => hdisjoint f hf _ (mem_singleton_self _)
  have hwire : fields.wire seq = [] ++ seq.flatMap (fun f => encBytes (fields.str f)) ++
      ((fields.field .opaqueCgi).map encBytes).getD [] := rfl
  obtain ⟨mid, hparse, hin, -⟩ := rrParseSpec_fields hseqNodup
    (fun f hf => hshort f (mem_append_left _ hf)) hwire
      ('|' :: (RrField.opaqueCgi :: rest).map rrKey) false RrData.zero
  have hfence : ∀ p, rrParseSpec (fields.wire seq) ('|' :: (RrField.opaqueCgi :: rest).map rrKey) false p
      mid = rrParseSpec (fields.wire seq) ((RrField.opaqueCgi :: rest).map rrKey) true p mid := fun p => rfl
  rw [nil_append, hfence] at hparse
  -- what is left of the record when the optional fields were walked
  obtain ⟨out, hwalk, hseqOut, hopaqueOut⟩ : ∃ out,
      rrParseSpec (fields.wire seq) ((RrField.opaqueCgi :: rest).map rrKey) true
        (seq.flatMap fun f => encBytes (fields.str f)).length mid =
          some ((fields.wire seq).length, out) ∧
      (∀ f ∈ seq, out.span f = mid.span f) ∧
      out.text (fields.wire seq) .opaqueCgi = readBack (fields.str .opaqueCgi) := by
    cases hcgi : fields.field .opaqueCgi with
    | none =>
      have hlen : (fields.wire seq).length =
          (seq.flatMap fun f => encBytes (fields.str f)).length := by simp [CmsFwdFields.wire, hcgi]
      obtain ⟨out, hwalk, hnone, hsame⟩ :=
        rrParseSpec_absent (fields.wire seq) (RrField.opaqueCgi :: rest) mid
      rw [← hlen]
      refine ⟨out, hwalk, fun f hf => hsame f ?_, ?_⟩
      · rw [mem_cons, not_or]
        exact ⟨hnotin f hf, hrest f hf⟩
      · rw [RrData.text, hnone _ mem_cons_self, CmsFwdFields.str, hcgi]
        rfl
    | some cgi =>
      have hstr : fields.str .opaqueCgi = cgi := by rw [CmsFwdFields.str, hcgi]; rfl
      have hwire' : fields.wire seq = (seq.flatMap fun f => encBytes (fields.str f)) ++
          encBytes (fields.str .opaqueCgi) ++ [] := by simp [CmsFwdFields.wire, hcgi, hstr]
      obtain ⟨t, hfield, ht⟩ := rrParseSpec_field .opaqueCgi
        (hshort _ (mem_append_right _ (mem_singleton_self _))) hwire'
        (rest.map rrKey) true mid
      have hlen : (seq.flatMap fun f => encBytes (fields.str f)).length +
          (encBytes (fields.str .opaqueCgi)).length = (fields.wire seq).length := by
        rw [hwire', append_nil, length_append]
      obtain ⟨out, hwalk, -, hsame⟩ :=
        rrParseSpec_absent (fields.wire seq) rest (mid.set .opaqueCgi t)
      rw [hlen] at hfield
      refine ⟨out, hfield.trans hwalk, fun f hf => ?_, ?_⟩
      · rw [hsame f (hrest f hf), RrData.set_span_of_ne mid (hnotin f hf)]
      · rw [RrData.text, hsame _ hopaque, RrData.set_span_self, ht]
  refine ⟨out, brixCmsRrdataParse_of_spec hspec (hparse.trans hwalk), ?_⟩
  rw [hsent]
  intro f hf
  rcases mem_append.mp hf with hf | hf
  · rw [RrData.text, hseqOut f hf]
    exact hin f hf
  · rw [mem_singleton.mp hf]
    exact hopaqueOut

theorem CmsFwdFields.ReadsBack.short (h : fields.ReadsBack code payload) :
    ∀ f ∈ rrSent code, (fields.str f).length < 65535 := by
  obtain ⟨out, hparse, htext⟩ := h
  intro f hf
  have hread := htext f hf
  rw [readBack] at hread
  split at hread
  · next hempty =>
    rw [hempty]
    decide
  · obtain ⟨s, hspan, hs⟩ := Option.map_eq_some_iff.mp hread
    have hshort := ((brixCmsRrdataParse_sound hparse).1 f s hspan).short
    have hlen : (s.text payload).length ≤ s.len := length_take_le _ _
    rw [← hs]
    omega

theorem length_wire_le {n : ℕ} (hshort : ∀ f ∈ seq ++ [.opaqueCgi], (fields.str f).length ≤ n) :
    (fields.wire seq).length ≤ (seq.length + 1) * (n + 3) := by
  have henc : ∀ s : Bytes, (encBytes s).length ≤ s.length + 3 := by
    intro s
    by_cases h : s = []
    · simp [h, encBytes]
    · exact Nat.le_of_eq (length_encBytes h)
  induction seq with
  | nil =>
    have hcgi := hshort .opaqueCgi (by simp)
    rw [CmsFwdFields.wire, flatMap_nil, nil_append]
    cases h : fields.field .opaqueCgi with
    | none => simp
    | some cgi =>
      have hstr : fields.str .opaqueCgi = cgi := by rw [CmsFwdFields.str, h]; rfl
      have := henc cgi
      rw [hstr] at hcgi
      rw [Option.map_some, Option.getD_some, length_nil]
      omega
  | cons f seq ih =>
    have hrest := ih fun g hg => hshort g (mem_cons_of_mem f hg)
    have hf := hshort f (by simp)
    have := henc (fields.str f)
    rw [CmsFwdFields.wire] at hrest
    rw [CmsFwdFields.wire, flatMap_cons, append_assoc, length_append,
      length_cons, Nat.succ_mul]
    omega

theorem readsBack_iff (hok : 0 ≤ (brixCmsRrdataEncode code fields buflen).1) :
    fields.ReadsBack code ((brixCmsRrdataEncode code fields buflen).2.take
        (brixCmsRrdataEncode code fields buflen).1.toNat) ↔
      ∀ f ∈ rrSent code, (fields.str f).length < 65535 := by
  refine ⟨CmsFwdFields.ReadsBack.short, fun hshort => ?_⟩
  obtain hfail | ⟨seq, hseq, henc⟩ := brixCmsRrdataEncode_cases code fields buflen
  · rw [hfail] at hok
    cases hok
  · have hsent : rrSent code = seq ++ [.opaqueCgi] := by rw [rrSent, hseq]; rfl
    obtain ⟨-, -, -, -, -, hthree⟩ := rrSpec_of_rrSeq hseq
    have hle := length_wire_le (n := 65534) fun f hf =>
      Nat.le_of_lt_succ (hshort f (hsent ▸ hf))
    have hint : Int.bmod ((fields.wire seq).length : ℤ) (2 ^ 32) = (fields.wire seq).length :=
      Int.bmod_eq_of_le (by omega) (by omega)
    rw [henc, hint, Int.toNat_natCast, take_length]
    exact fields.readsBack_wire hseq hshort

/-- **The codec.** What the parser accepts is sound, and what the encoder returned reads back
exactly when every string is shorter than 65535 bytes. -/
theorem rrdata_codec (code : UInt8) (payload : Bytes) (fields : CmsFwdFields) (buflen : ℕ) :
    (∀ out, brixCmsRrdataParse code payload = some out →
      (∀ f s, out.span f = some s → s.Sound payload) ∧
        ∃ spec, rrSpec code = some spec ∧
          rrParseSpec payload spec false 0 RrData.zero = some (payload.length, out)) ∧
      (0 ≤ (brixCmsRrdataEncode code fields buflen).1 →
        (fields.ReadsBack code ((brixCmsRrdataEncode code fields buflen).2.take
            (brixCmsRrdataEncode code fields buflen).1.toNat) ↔
          ∀ f ∈ rrSent code, (fields.str f).length < 65535)) :=
  ⟨fun _ h => brixCmsRrdataParse_sound h, readsBack_iff⟩

/-- A `kYR_rm` whose path takes 65535 bytes -/
def longRm : CmsFwdFields where
  field
    | .path => some (replicate 65535 47)
    | _ => none
  text := by
    intro f s h hmem
    cases f with
    | path =>
      cases h
      exact absurd (eq_of_mem_replicate hmem) (by decide)
    | _ => cases h

theorem long_path_does_not_read_back :
    ¬∀ (code : UInt8) (fields : CmsFwdFields) (buflen : ℕ),
      0 ≤ (brixCmsRrdataEncode code fields buflen).1 →
        fields.ReadsBack code ((brixCmsRrdataEncode code fields buflen).2.take
          (brixCmsRrdataEncode code fields buflen).1.toNat) := by
  intro h
  have hpath : longRm.str .path = replicate 65535 47 := rfl
  have hlen : (longRm.wire [.ident, .path]).length = 65540 := by
    have hident : encBytes (longRm.str .ident) = [0, 0] := rfl
    have hcgi : longRm.field .opaqueCgi = none := rfl
    have hne : longRm.str .path ≠ [] := by
      rw [hpath, ne_eq, replicate_eq_nil_iff]
      decide
    rw [CmsFwdFields.wire, hcgi, flatMap_cons, flatMap_cons, length_append,
      length_append, length_append, hident, length_encBytes hne, hpath,
      length_replicate]
    rfl
  have hseq : rrSeq kRm = some [.ident, .path] := rfl
  have henc := brixCmsRrdataEncode_of_room hseq (Nat.le_of_eq hlen)
  have hok : 0 ≤ (brixCmsRrdataEncode kRm longRm 65540).1 := by
    rw [henc, hlen]
    decide
  have hshort := (readsBack_iff hok).mp (h kRm longRm 65540 hok) .path (by decide)
  rw [hpath, length_replicate] at hshort
  omega

end BrixCache

import BrixCache.Auth.Macaroon
import BrixCache.Core.Decimal
import BrixCache.Auth.Authority
import BrixCache.Lib.Base64

/-!
# Issuing a macaroon

`macaroon_issue.c`: the packets of a new macaroon, the chain of its signatures, and its
text. Strings end at their NUL.
-/

namespace BrixCache

/-! ## Formats -/

/-- A digit of `%x` -/
def hexDigit (n : ℕ) : UInt8 := if n < 10 then UInt8.ofNat (n + 48) else UInt8.ofNat (n + 87)

/-- `%04x` of a number below `0x10000` -/
def hex4 (n : ℕ) : Bytes :=
  [hexDigit (n / 4096 % 16), hexDigit (n / 256 % 16), hexDigit (n / 16 % 16), hexDigit (n % 16)]

/-! ## Packets -/

def issueBinMax : ℕ := 4096

/-- `issue_buf_t` with the signature so far -/
structure IssueState : Type where
  bin : Bytes
  sig : Bytes

/-- `write_packet`, for its label with the space behind it -/
def writePacket (bin : Bytes) (label : String) (value : Bytes) : Option Bytes :=
  let plen := 4 + (ascii label).length + value.length + 1
  if issueBinMax - bin.length < plen ∨ 0xffff < plen then none
  else some (bin ++ (hex4 plen ++ ascii label ++ value ++ [10]))

/-- Append a caveat and extend the signature by it. -/
def emitCidCaveat (env : MacaroonEnv) (st : IssueState) (caveat : Bytes) :
    Option IssueState :=
  (writePacket st.bin "cid " caveat).map fun bin => ⟨bin, env.hmac st.sig caveat⟩

def emitLocation (st : IssueState) (location : Bytes) : Option IssueState :=
  if location = [] then some st
  else (writePacket st.bin "location " location).map fun bin => { st with bin }

/-- The identifier starts the signature chain. -/
def emitIdentifier (env : MacaroonEnv) (rootKey : Bytes) (st : IssueState)
    (identifier : Bytes) : Option IssueState :=
  (writePacket st.bin "identifier " identifier).map fun bin =>
    ⟨bin, env.hmac rootKey identifier⟩

def emitActivityCaveat (env : MacaroonEnv) (st : IssueState) (activities : Bytes) :
    Option IssueState :=
  if activities = [] then some st
  else
    let caveat := ascii "activity:" ++ activities
    if 128 ≤ caveat.length then none else emitCidCaveat env st caveat

/-- `BRIX_TOKEN_MACAROON_PATH_CAV_BUF_SIZE` -/
def macaroonPathCavBufSize : ℕ := 1024

def emitPathCaveat (env : MacaroonEnv) (st : IssueState) (path : Bytes) :
    Option IssueState :=
  if path = [] then some st
  else
    let caveat := ascii "path:" ++ path
    if macaroonPathCavBufSize ≤ caveat.length then none else emitCidCaveat env st caveat

/-- The timestamp that `emit_expiry_caveat` formats. -/
def timestamp (tm : Tm) : Bytes :=
  decimal 4 tm.year ++ 45 :: decimal 2 tm.mon ++ 45 :: decimal 2 tm.mday ++
    84 :: decimal 2 tm.hour ++ 58 :: decimal 2 tm.min ++ 58 :: decimal 2 tm.sec ++ [90]

def emitExpiryCaveat (env : MacaroonEnv) (st : IssueState) (expiry : ℤ) : Option IssueState :=
  if expiry ≤ 0 then some st
  else
    let caveat := ascii "before:" ++ timestamp (gmtime expiry)
    if 64 ≤ caveat.length then none else emitCidCaveat env st caveat

/-- The last packet carries the signature. -/
def emitSignature (st : IssueState) : Option Bytes :=
  if issueBinMax - st.bin.length < 46 then none
  else some (st.bin ++ (hex4 46 ++ ascii "signature " ++ st.sig))

/-- The packets of `brix_macaroon_issue`. -/
def issuePackets (env : MacaroonEnv) (rootKey location identifier activities path : Bytes)
    (expiry : ℤ) : Option Bytes := do
  let st ← emitLocation ⟨[], List.replicate 32 0⟩ location
  let st ← emitIdentifier env rootKey st identifier
  let st ← emitActivityCaveat env st activities
  let st ← emitPathCaveat env st path
  let st ← emitExpiryCaveat env st expiry
  emitSignature st

def macaroonIssueOutMax : ℕ := 1024

/-- `brix_macaroon_issue`, with the text that it leaves where it returns `NGX_OK` -/
def macaroonIssue (env : MacaroonEnv) (rootKey location identifier activities path : Bytes)
    (expiry : ℤ) (outSize : ℕ) : Option Bytes :=
  if identifier = [] ∨ rootKey = [] then none
  else if outSize < macaroonIssueOutMax then none
  else
    (issuePackets env rootKey location identifier activities path expiry).map fun bin =>
      b64urlEncode bin outSize

end BrixCache

/-! ## The texts of an issued macaroon -/

namespace BrixCache

open List

/-! ### Base64url -/

/-- The decoder undoes the encoding. -/
def DecodesBase64 (evpDecode : Bytes → Option Bytes) : Prop :=
  ∀ bs, evpDecode (Base64.encode bs) = some bs

/-- The text of bytes in the alphabet of `tbl`, without padding. -/
def b64url (bs : Bytes) : Bytes := (Base64.sextets bs).map b64urlTable

variable {bs : Bytes}

variable {n : ℕ} {a : Bytes} {acts : List Bytes}

theorem b64FromUrl_table (h : n < 64) : b64FromUrl (b64urlTable n) = Base64.char n := by
  revert h
  revert n
  decide

theorem space_ne_table (h : n < 64) : b64urlTable n ≠ 32 := by
  revert h
  revert n
  decide

theorem length_b64url (bs : Bytes) : (b64url bs).length = (bs.length * 4 + 2) / 3 := by
  rw [b64url, length_map, Base64.length_sextets]

theorem space_notMem_b64url : 32 ∉ b64url bs := by
  intro h
  obtain ⟨n, hn, heq⟩ := mem_map.mp h
  exact space_ne_table (Base64.sextets_lt hn) heq

theorem takeWhile_pad {cs : Bytes} (h : ∀ c ∈ cs, c ≠ 61) :
    ((cs ++ replicate n 61).reverse.takeWhile (· = 61)).length = n := by
  rw [reverse_append, reverse_replicate]
  induction n with
  | zero =>
    rw [replicate_zero, nil_append]
    cases hrev : cs.reverse with
    | nil => rfl
    | cons c rest =>
      have hc : c ∈ cs := mem_reverse.mp (by rw [hrev]; exact mem_cons_self)
      rw [takeWhile_cons_of_neg (by simpa using h c hc)]
      rfl
  | succ n ih =>
    rw [replicate_succ, cons_append, takeWhile_cons_of_pos (by simp),
      length_cons, ih]

/-- What the issuer encodes is decoded again. -/
theorem b64urlDecode_b64url {evpDecode : Bytes → Option Bytes}
    (hdec : DecodesBase64 evpDecode) (hlen : bs.length ≤ 6144) :
    b64urlDecode evpDecode (b64url bs) b64DecodeMax = some bs := by
  have htmp : (b64url bs).map b64FromUrl ++
      replicate (Base64.padding (b64url bs).length) 61 = Base64.encode bs := by
    rw [Base64.encode, b64url, map_map, length_map]
    congr 1
    exact map_congr_left fun n hn => b64FromUrl_table (Base64.sextets_lt hn)
  have hchars : ∀ c ∈ (b64url bs).map b64FromUrl, c ≠ 61 := by
    rw [b64url, map_map]
    intro c hc
    obtain ⟨n, hn, rfl⟩ := mem_map.mp hc
    rw [Function.comp_apply, b64FromUrl_table (Base64.sextets_lt hn)]
    exact Base64.char_ne_pad (Base64.sextets_lt hn)
  have hpad := takeWhile_pad (n := Base64.padding (b64url bs).length) hchars
  rw [htmp] at hpad
  have htext := length_b64url bs
  have hpadding : Base64.padding (b64url bs).length = (4 - (b64url bs).length % 4) % 4 := rfl
  have htmplen : (Base64.encode bs).length =
      (b64url bs).length + Base64.padding (b64url bs).length := by
    rw [← htmp, length_append, length_map, length_replicate]
  unfold b64urlDecode
  simp only
  rw [← hpadding, htmp, hpad, hdec, htmplen, if_neg, if_neg]
  · have hraw : ¬b64DecodeMax < bs.length := by
      rw [b64DecodeMax]
      omega
    exact if_neg hraw
  · rw [b64DecodeMax]
    omega
  · rw [b64DecodeMax]
    omega

/-! ### What the encoder writes -/

/-- A buffer takes the whole text of so many bytes: a group of three has to leave a byte
behind its NUL. -/
def B64Fits (length dsz : ℕ) : Prop :=
  (length < 3 ∨ 4 * (length / 3) < dsz - 1) ∧
    (length % 3 = 0 ∨ 4 * (length / 3) + 2 < dsz - 1)

theorem b64url_one (a : UInt8) : b64url [a] =
    [b64urlTable (a.toNat * 65536 / 262144 % 64), b64urlTable (a.toNat * 65536 / 4096 % 64)] := by
  have ha := a.toNat_lt
  have h₀ : a.toNat * 65536 / 262144 % 64 = a.toNat / 4 := by omega
  have h₁ : a.toNat * 65536 / 4096 % 64 = a.toNat % 4 * 16 := by omega
  rw [h₀, h₁]
  simp [b64url, Base64.sextets]

theorem b64url_two (a b : UInt8) : b64url [a, b] =
    [b64urlTable ((a.toNat * 65536 + b.toNat * 256) / 262144 % 64),
      b64urlTable ((a.toNat * 65536 + b.toNat * 256) / 4096 % 64),
      b64urlTable ((a.toNat * 65536 + b.toNat * 256) / 64 % 64)] := by
  have ha := a.toNat_lt
  have hb := b.toNat_lt
  have h₀ : (a.toNat * 65536 + b.toNat * 256) / 262144 % 64 = a.toNat / 4 := by omega
  have h₁ : (a.toNat * 65536 + b.toNat * 256) / 4096 % 64 =
      a.toNat % 4 * 16 + b.toNat / 16 := by omega
  have h₂ : (a.toNat * 65536 + b.toNat * 256) / 64 % 64 = b.toNat % 16 * 4 := by omega
  rw [h₀, h₁, h₂]
  simp [b64url, Base64.sextets]

theorem b64url_three (a b c : UInt8) (bs : Bytes) : b64url (a :: b :: c :: bs) =
    [b64urlTable ((a.toNat * 65536 + b.toNat * 256 + c.toNat) / 262144 % 64),
      b64urlTable ((a.toNat * 65536 + b.toNat * 256 + c.toNat) / 4096 % 64),
      b64urlTable ((a.toNat * 65536 + b.toNat * 256 + c.toNat) / 64 % 64),
      b64urlTable ((a.toNat * 65536 + b.toNat * 256 + c.toNat) % 64)] ++ b64url bs := by
  have ha := a.toNat_lt
  have hb := b.toNat_lt
  have hc := c.toNat_lt
  have h₀ : (a.toNat * 65536 + b.toNat * 256 + c.toNat) / 262144 % 64 = a.toNat / 4 := by
    omega
  have h₁ : (a.toNat * 65536 + b.toNat * 256 + c.toNat) / 4096 % 64 =
      a.toNat % 4 * 16 + b.toNat / 16 := by omega
  have h₂ : (a.toNat * 65536 + b.toNat * 256 + c.toNat) / 64 % 64 =
      b.toNat % 16 * 4 + c.toNat / 64 := by omega
  have h₃ : (a.toNat * 65536 + b.toNat * 256 + c.toNat) % 64 = c.toNat % 64 := by omega
  rw [h₀, h₁, h₂, h₃]
  simp [b64url, Base64.sextets]

theorem encodeLast_spec (dsz : ℕ) (dst src : Bytes) :
    ∃ n ≤ src.length, b64urlEncodeLast dsz dst src = dst ++ b64url (src.take n) ∧ n ≤ 2 ∧
      (src.length < 3 → (n = src.length ↔ src.length = 0 ∨ dst.length + 2 < dsz - 1)) := by
  match src with
  | [] => exact ⟨0, Nat.le_refl 0, by simp [b64urlEncodeLast, b64url, Base64.sextets], by simp⟩
  | a :: src =>
    by_cases hroom : dst.length + 2 < dsz - 1
    · cases src with
      | nil =>
        refine ⟨1, by simp, ?_, by simp, by simp [hroom]⟩
        rw [b64urlEncodeLast, if_pos hroom]
        simp [b64url_one]
      | cons b src =>
        refine ⟨2, by simp, ?_, by simp, ?_⟩
        · rw [b64urlEncodeLast, if_pos hroom]
          simp [b64url_two]
        · simp only [length_cons, hroom, or_true, iff_true]
          omega
    · refine ⟨0, by simp, ?_, by simp, by simp [hroom]⟩
      rw [b64urlEncodeLast, if_neg hroom]
      simp [b64url, Base64.sextets]

theorem encodeFrom_spec (dsz : ℕ) (dst src : Bytes) :
    ∃ n ≤ src.length, b64urlEncodeFrom dsz dst src = dst ++ b64url (src.take n) ∧
      (n = src.length ↔
        (src.length < 3 ∨ dst.length + 4 * (src.length / 3) < dsz - 1) ∧
        (src.length % 3 = 0 ∨ dst.length + 4 * (src.length / 3) + 2 < dsz - 1)) := by
  fun_induction b64urlEncodeFrom dsz dst src with
  | case1 dst a b c src hroom v ih =>
    obtain ⟨n, hle, heq, hiff⟩ := ih
    refine ⟨n + 3, by simpa using hle, ?_, ?_⟩
    · rw [heq, take_succ_cons, take_succ_cons, take_succ_cons, b64url_three,
        append_assoc]
    · simp only [length_append, length_cons, length_nil] at hiff ⊢
      omega
  | case2 dst a b c src hroom =>
    obtain ⟨n, hle, heq, hfew, -⟩ := encodeLast_spec dsz dst (a :: b :: c :: src)
    refine ⟨n, hle, heq, ?_⟩
    simp only [length_cons]
    omega
  | case3 dst src hshort =>
    obtain ⟨n, hle, heq, -, hiff⟩ := encodeLast_spec dsz dst src
    have hlen : src.length < 3 := by
      match src with
      | [] => simp
      | [_] => simp
      | [_, _] => simp
      | a :: b :: c :: src => exact (hshort a b c src rfl).elim
    refine ⟨n, hle, heq, ?_⟩
    rw [hiff hlen]
    omega

theorem b64urlEncode_spec (src : Bytes) (dsz : ℕ) :
    ∃ n ≤ src.length, b64urlEncode src dsz = b64url (src.take n) ∧
      (n = src.length ↔ B64Fits src.length dsz) := by
  obtain ⟨n, hle, heq, hiff⟩ := encodeFrom_spec dsz [] src
  refine ⟨n, hle, by rw [b64urlEncode, heq, nil_append], ?_⟩
  rw [hiff, B64Fits, length_nil, Nat.zero_add]

/-! ### Headers -/

theorem hexFromChar_hexDigit (h : n < 16) : hexFromChar (hexDigit n) = some n := by
  revert h
  revert n
  decide

theorem macaroonPacketLen_hex4 (h : n < 65536) (rest : Bytes) :
    macaroonPacketLen (hex4 n ++ rest) = some n := by
  have hsum : n / 4096 % 16 * 4096 + n / 256 % 16 * 256 + n / 16 % 16 * 16 + n % 16 = n := by
    omega
  simp [macaroonPacketLen, hex4, hexFromChar_hexDigit, Nat.mod_lt, hsum]

/-- The bytes of one packet, with the content that a parse finds. -/
structure IsPacket (raw content : Bytes) : Prop where
  long : 4 ≤ raw.length
  len : ∀ rest, macaroonPacketLen (raw ++ rest) = some raw.length
  content : macaroonPacketContent (raw.drop 4) = some content

variable {raw content : Bytes}

theorem IsPacket.read (h : IsPacket raw content) (rest : Bytes) :
    macaroonPacket (raw ++ rest) = some (content, rest) := by
  have hlong := h.long
  rw [macaroonPacket, if_neg (by rw [length_append]; omega), h.len]
  simp only
  rw [if_neg (by rw [length_append]; omega), take_left, drop_left, h.content]
  rfl

theorem IsPacket.cut (h : IsPacket raw content) {t u : Bytes} (heq : raw = t ++ u)
    (hu : u ≠ []) : macaroonPacket t = none := by
  have hpos := length_pos_of_ne_nil hu
  have hlen := congrArg length heq
  rw [length_append] at hlen
  rw [macaroonPacket]
  split
  · rfl
  · next hlong =>
    have hsame : macaroonPacketLen t = macaroonPacketLen (t ++ u) := by
      match t with
      | a :: b :: c :: d :: t => rfl
      | [] | [_] | [_, _] | [_, _, _] => simp at hlong
    have hraw := h.len []
    rw [append_nil] at hraw
    rw [hsame, ← heq, hraw]
    simp only
    rw [if_pos (by omega)]

theorem isPacket_line {label : String} {value : Bytes}
    (hlen : 4 + (ascii label).length + value.length + 1 < 65536)
    (hlabel : ¬(ascii "signature " <+: ascii label ∨ ascii label <+: ascii "signature ")) :
    IsPacket (hex4 (4 + (ascii label).length + value.length + 1) ++ ascii label ++ value ++ [10])
      (ascii label ++ value) where
  long := by simp [hex4]
  len rest := by
    rw [append_assoc, append_assoc, append_assoc, macaroonPacketLen_hex4 hlen]
    simp [hex4]
    omega
  content := by
    have hdrop : (hex4 (4 + (ascii label).length + value.length + 1) ++ ascii label ++ value ++
        [10]).drop 4 = (ascii label ++ value) ++ [10] := by
      simp [hex4]
    rw [hdrop, macaroonPacketContent, if_neg, if_pos (by simp), dropLast_concat]
    intro hp
    rw [append_assoc] at hp
    exact hlabel (List.prefix_or_prefix_of_prefix hp (prefix_append _ _))

theorem isPacket_signature {sig : Bytes} (hsig : sig.length = 32) :
    IsPacket (hex4 46 ++ ascii "signature " ++ sig) (ascii "signature " ++ sig) where
  long := by simp [hex4]
  len rest := by
    rw [append_assoc, append_assoc, macaroonPacketLen_hex4 (by decide)]
    simp [hex4, hsig, ascii]
  content := by
    have hdrop : (hex4 46 ++ ascii "signature " ++ sig).drop 4 = ascii "signature " ++ sig := by
      simp [hex4]
    rw [hdrop, macaroonPacketContent, if_pos (prefix_append _ _)]

/-! ### Timestamps -/

theorem decimal_two (h : n < 100) : decimal 2 n = [digit (n / 10), digit (n % 10)] := by
  revert h
  revert n
  decide

theorem decimal_eq (width n : ℕ) :
    decimal width n = replicate (width - (digits n).length) 48 ++ digits n := rfl

theorem decimal_four (h : n < 10000) : decimal 4 n =
    [digit (n / 1000), digit (n / 100 % 10), digit (n / 10 % 10), digit (n % 10)] := by
  have hzero : digit 0 = 48 := by decide
  rw [decimal_eq]
  by_cases h₁ : n < 10
  · rw [digits_small h₁]
    simp [Nat.div_eq_of_lt (by omega : n < 1000), Nat.div_eq_of_lt (by omega : n < 100),
      Nat.div_eq_of_lt h₁, Nat.mod_eq_of_lt h₁, hzero]
  by_cases h₂ : n < 100
  · rw [digits_more (by omega), digits_small (by omega)]
    simp [Nat.div_eq_of_lt (by omega : n < 1000), Nat.div_eq_of_lt h₂,
      Nat.mod_eq_of_lt (by omega : n / 10 < 10), hzero]
  by_cases h₃ : n < 1000
  · rw [digits_more (by omega), digits_more (by omega), digits_small (by omega),
      Nat.div_div_eq_div_mul]
    simp [Nat.div_eq_of_lt h₃, Nat.mod_eq_of_lt (by omega : n / 100 < 10), hzero]
  · rw [digits_more (by omega), digits_more (by omega), digits_more (by omega),
      digits_small (by omega)]
    simp [Nat.div_div_eq_div_mul]

theorem decimal_long (h : 10000 ≤ n) : 4 < (decimal 4 n).length := by
  rw [decimal_eq, digits_more (by omega), digits_more (by omega), digits_more (by omega),
    digits_more (by omega)]
  have hpos : 0 < (digits (n / 10 / 10 / 10 / 10)).length := by
    rw [digits, decimalFrom]
    simp
  simp only [length_append, length_replicate, length_singleton]
  omega

theorem decimalFrom_digit {value k : ℕ} (hvalue : value < 1000) (hk : k < 10) (text : Bytes) :
    macaroonDecimalFrom value (digit k :: text) = macaroonDecimalFrom (value * 10 + k) text := by
  have hdigit := digit_toNat hk
  have hrange : ¬(digit k < 48 ∨ 57 < digit k) := by
    simp only [UInt8.lt_iff_toNat_lt, hdigit]
    simp
    omega
  rw [macaroonDecimalFrom, if_neg hrange, hdigit, Nat.add_sub_cancel]
  simp only
  rw [if_neg (by omega)]

theorem parseDecimal_two (h : n < 100) :
    macaroonParseDecimal [digit (n / 10), digit (n % 10)] = some n := by
  rw [macaroonParseDecimal, if_neg (by simp), decimalFrom_digit (by omega) (by omega),
    decimalFrom_digit (by omega) (by omega), macaroonDecimalFrom]
  congr 1
  omega

theorem parseDecimal_four (h : n < 10000) :
    macaroonParseDecimal
      [digit (n / 1000), digit (n / 100 % 10), digit (n / 10 % 10), digit (n % 10)] =
      some n := by
  rw [macaroonParseDecimal, if_neg (by simp), decimalFrom_digit (by omega) (by omega),
    decimalFrom_digit (by omega) (by omega), decimalFrom_digit (by omega) (by omega),
    decimalFrom_digit (by omega) (by omega), macaroonDecimalFrom]
  congr 1
  omega

/-- A timestamp is read back as its second. -/
theorem parseIso8601_timestamp {year mon mday hour min sec : ℕ} (hyear : year < 10000)
    (hmon : mon < 100) (hmday : mday < 100) (hhour : hour < 100) (hmin : min < 100)
    (hsec : sec < 100) (hexact : timegm ⟨year, mon, mday, hour, min, sec⟩ ≠ -1)
    (hback : gmtime (timegm ⟨year, mon, mday, hour, min, sec⟩) =
      ⟨year, mon, mday, hour, min, sec⟩) :
    parseIso8601 (timestamp ⟨year, mon, mday, hour, min, sec⟩) =
      some (timegm ⟨year, mon, mday, hour, min, sec⟩) := by
  have hshape : ascii "0000-00-00T00:00:00Z" =
      [48, 48, 48, 48, 45, 48, 48, 45, 48, 48, 84, 48, 48, 58, 48, 48, 58, 48, 48, 90] := by
    decide
  have htext : timestamp ⟨year, mon, mday, hour, min, sec⟩ =
      [digit (year / 1000), digit (year / 100 % 10), digit (year / 10 % 10), digit (year % 10),
        45, digit (mon / 10), digit (mon % 10), 45, digit (mday / 10), digit (mday % 10), 84,
        digit (hour / 10), digit (hour % 10), 58, digit (min / 10), digit (min % 10), 58,
        digit (sec / 10), digit (sec % 10), 90] := by
    simp [timestamp, decimal_four hyear, decimal_two hmon, decimal_two hmday,
      decimal_two hhour, decimal_two hmin, decimal_two hsec]
  have hvalid : macaroonTimestampShapeValid
      (timestamp ⟨year, mon, mday, hour, min, sec⟩) = true := by
    simp [macaroonTimestampShapeValid, hshape, htext]
  have hfields : macaroonParseTimestampFields
      (timestamp ⟨year, mon, mday, hour, min, sec⟩) =
      some ⟨year, mon, mday, hour, min, sec⟩ := by
    simp [macaroonParseTimestampFields, macaroonTimestampField, htext, parseDecimal_four hyear,
      parseDecimal_two hmon, parseDecimal_two hmday, parseDecimal_two hhour,
      parseDecimal_two hmin, parseDecimal_two hsec]
  rw [parseIso8601, if_pos hvalid, hfields]
  simp only
  rw [if_neg]
  rintro (h | h)
  · exact hexact h
  · exact h hback

theorem gmtime_year {t : ℤ} (h : 0 < t) : 0 ≤ (gmtime t).year := by
  simp only [gmtime]
  omega

theorem parseIso8601_expiry {t : ℤ} (h : 0 < t) (hyear : (gmtime t).year ≤ 9999) :
    parseIso8601 (timestamp (gmtime t)) = some t := by
  have hyear₀ := gmtime_year h
  obtain ⟨⟨hhour₀, hhour⟩, ⟨hmin₀, hmin⟩, hsec₀, hsec⟩ := gmtime_time t
  obtain ⟨⟨hmon₀, hmon⟩, hmday₀, hmday⟩ := gmtime_date t
  have hback := timegm_gmtime t
  have heq : gmtime t = ⟨((gmtime t).year.toNat : ℤ), ((gmtime t).mon.toNat : ℤ),
      ((gmtime t).mday.toNat : ℤ), ((gmtime t).hour.toNat : ℤ), ((gmtime t).min.toNat : ℤ),
      ((gmtime t).sec.toNat : ℤ)⟩ := by
    rw [Int.toNat_of_nonneg hyear₀, Int.toNat_of_nonneg (by omega), Int.toNat_of_nonneg (by omega),
      Int.toNat_of_nonneg hhour₀, Int.toNat_of_nonneg hmin₀, Int.toNat_of_nonneg hsec₀]
  have hparse := parseIso8601_timestamp (by omega : (gmtime t).year.toNat < 10000)
    (by omega : (gmtime t).mon.toNat < 100) (by omega : (gmtime t).mday.toNat < 100)
    (by omega : (gmtime t).hour.toNat < 100) (by omega : (gmtime t).min.toNat < 100)
    (by omega : (gmtime t).sec.toNat < 100) (by rw [← heq, hback]; omega)
    (by rw [← heq, hback])
  rwa [← heq, hback] at hparse

theorem decimal_width (width : ℕ) (n : ℤ) : width ≤ (decimal width n).length := by
  rw [decimal]
  simp only [length_append, length_replicate]
  omega

theorem parseIso8601_late {tm : Tm} (hyear : 9999 < tm.year) :
    parseIso8601 (timestamp tm) = none := by
  have hlen : 20 < (timestamp tm).length := by
    have hlong : 4 < (decimal 4 tm.year).length := by
      rw [← Int.toNat_of_nonneg (by omega : 0 ≤ tm.year)]
      exact decimal_long (by omega)
    have hmon := decimal_width 2 tm.mon
    have hmday := decimal_width 2 tm.mday
    have hhour := decimal_width 2 tm.hour
    have hmin := decimal_width 2 tm.min
    have hsec := decimal_width 2 tm.sec
    simp only [timestamp, length_append, length_cons, length_nil]
    omega
  rw [parseIso8601, if_neg]
  simp only [macaroonTimestampShapeValid, Bool.and_eq_true, decide_eq_true_eq]
  omega

/-! ### Activities -/

/-- Activities behind each other with commas. -/
def activitiesText : List Bytes → Bytes
  | [] => []
  | [a] => a
  | a :: b :: acts => a ++ 44 :: activitiesText (b :: acts)

/-- One of the activities gives the permission. -/
def Gives (acts : List Bytes) (perm : Permission) : Prop :=
  ∃ a ∈ acts, ∃ mask, macaroonPermissionForActivity a = some mask ∧ mask.has perm = true

theorem known_cases (h : (macaroonPermissionForActivity a).isSome = true) :
    a ∈ [ascii "DOWNLOAD", ascii "LIST", ascii "STAGE", ascii "UPLOAD", ascii "DELETE",
      ascii "MANAGE"] := by
  rw [macaroonPermissionForActivity] at h
  split at h
  · next h₁ =>
    obtain rfl | rfl | rfl := h₁ <;> simp
  split at h
  · next h₂ =>
    obtain rfl | rfl := h₂ <;> simp
  split at h
  · next h₃ =>
    rw [h₃]
    simp
  · cases h

theorem known_chars (h : (macaroonPermissionForActivity a).isSome = true) :
    a ≠ [] ∧ ∀ c ∈ a, c ≠ 44 ∧ 0x20 ≤ c ∧ c ≠ 0x7f := by
  have hall : ∀ a ∈ [ascii "DOWNLOAD", ascii "LIST", ascii "STAGE", ascii "UPLOAD",
      ascii "DELETE", ascii "MANAGE"], a ≠ [] ∧ ∀ c ∈ a, c ≠ 44 ∧ 0x20 ≤ c ∧ c ≠ 0x7f := by
    decide +kernel
  exact hall a (known_cases h)

theorem activityMask_append {mask : MacaroonActivity} {w : Bytes} (h : ∀ c ∈ a, c ≠ 44)
    (rest : Bytes) :
    macaroonActivityMask mask w (a ++ rest) = macaroonActivityMask mask (w ++ a) rest := by
  induction a generalizing w with
  | nil => simp
  | cons c a ih =>
    obtain ⟨hc, ha⟩ := forall_mem_cons.mp h
    rw [cons_append, macaroonActivityMask, if_neg hc, ih ha]
    simp

theorem MacaroonActivity.union_has {perm : Permission} (a b : MacaroonActivity) :
    (a.union b).has perm = (a.has perm || b.has perm) := by
  cases perm <;> rfl

theorem activityMask_text (hne : acts ≠ [])
    (hknown : ∀ a ∈ acts, (macaroonPermissionForActivity a).isSome = true)
    (mask : MacaroonActivity) :
    ∃ m, macaroonActivityMask mask [] (activitiesText acts) = some m ∧
      ∀ perm, m.has perm = true ↔ mask.has perm = true ∨ Gives acts perm := by
  fun_induction activitiesText acts generalizing mask with
  | case1 => exact (hne rfl).elim
  | case2 a =>
    have ha := hknown a (by simp)
    obtain ⟨m, hm⟩ := Option.isSome_iff_exists.mp ha
    refine ⟨mask.union m, ?_, fun perm => ?_⟩
    · rw [← append_nil a, activityMask_append fun c hc => ((known_chars ha).2 c hc).1]
      simp [macaroonActivityMask, hm]
    · simp [MacaroonActivity.union_has, Gives, hm]
  | case3 a b acts ih =>
    obtain ⟨ha, hknown⟩ := forall_mem_cons.mp hknown
    obtain ⟨m, hm⟩ := Option.isSome_iff_exists.mp ha
    obtain ⟨m', hm', hhas⟩ := ih (by simp) hknown (mask.union m)
    refine ⟨m', ?_, fun perm => ?_⟩
    · rw [activityMask_append fun c hc => ((known_chars ha).2 c hc).1, nil_append,
        macaroonActivityMask, if_pos rfl, hm]
      exact hm'
    · rw [hhas, MacaroonActivity.union_has, Gives, Gives, Bool.or_eq_true, or_assoc,
        exists_mem_cons_iff]
      simp [hm]

theorem activitiesText_chars
    (hknown : ∀ a ∈ acts, (macaroonPermissionForActivity a).isSome = true) :
    ∀ c ∈ activitiesText acts, 0x20 ≤ c ∧ c ≠ 0x7f := by
  fun_induction activitiesText acts with
  | case1 => exact nofun
  | case2 a => exact fun c hc => ((known_chars (hknown a (by simp))).2 c hc).2
  | case3 a b acts ih =>
    obtain ⟨ha, hknown⟩ := forall_mem_cons.mp hknown
    intro c hc
    obtain hc | hc := mem_append.mp hc
    · exact ((known_chars ha).2 c hc).2
    obtain rfl | hc := mem_cons.mp hc
    · decide
    · exact ih hknown c hc

theorem activitiesText_eq_nil
    (hknown : ∀ a ∈ acts, (macaroonPermissionForActivity a).isSome = true) :
    activitiesText acts = [] ↔ acts = [] := by
  fun_induction activitiesText acts with
  | case1 => simp
  | case2 a => simp [(known_chars (hknown a (by simp))).1]
  | case3 a b acts ih => simp

end BrixCache

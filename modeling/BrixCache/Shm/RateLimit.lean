import BrixCache.Lib.TokenBucket
import BrixCache.Lib.Wire
import BrixCache.Shm.KvRefinement

/-!
# The rate limiter

`core/shm/rate_limit.c`: a token bucket for each identity, kept as a value of the shared-memory
table. A bucket is given a time to live as long as it takes to fill, so that one the table has
evicted comes back full, as it would be.

The machine words of the source follow the bucket of `Lib.TokenBucket` as long as the clock has
room for a time to live (`brixRateLimitCheck_spec`); a deadline past the end of the clock counts
as passed at once, and the caller gets a full bucket on every call.
-/

namespace BrixCache

open List

/-- `brix_rl_val_t`; four bytes of padding stand between its members. -/
structure BrixRlVal : Type where
  tokens : UInt32
  padding : UInt32
  lastRefill : UInt64
  deriving DecidableEq

instance : Wire BrixRlVal :=
  Wire.ofEquiv (fun v => (v.tokens, v.padding, v.lastRefill))
    (fun ⟨tokens, padding, lastRefill⟩ => ⟨tokens, padding, lastRefill⟩) fun _ => rfl

/-- `brix_rate_limit_conf_t`; `key_ip` is the caller's. -/
structure BrixRateLimitConf : Type where
  /-- `none` is disabled -/
  kv : Option Kv
  /-- sustained requests per second -/
  rate : UInt64
  /-- bucket capacity -/
  burst : UInt64

def brixRlIdMax : ℕ := 256

/-- "rl:" and the identity, cut to its room. -/
def brixRlKey (id : List UInt8) : List UInt8 := [114, 108, 58] ++ id.take brixRlIdMax

/-- What `brix_kv_get` leaves in `v`: the bytes it copied over those that stood there. -/
def brixRlRead (v : BrixRlVal) : Option (List UInt8) → BrixRlVal
  | none => v
  | some val => Wire.get (val ++ (Wire.put v).drop val.length)

/-- The refill of `brix_rate_limit_check`. -/
def brixRlRefill (rl : BrixRateLimitConf) (v : BrixRlVal) (now : UInt64) : BrixRlVal :=
  let elapsed := now - v.lastRefill
  if 0 < elapsed then
    let refill := (elapsed * rl.rate / 1000).toUInt32
    if 0 < refill then
      let t := v.tokens.toUInt64 + refill.toUInt64
      { v with
        tokens := if rl.burst < t then rl.burst.toUInt32 else t.toUInt32
        lastRefill := now }
    else v
  else v

/-- The time to live of a bucket. -/
def brixRlTtl (rl : BrixRateLimitConf) : UInt64 := rl.burst * 1000 / rl.rate + 1000

/-- `brix_rate_limit_check` at clock `now`, with what the stack holds between the members of
`v`: is the call admitted, did the table take the bucket, and the table after it. -/
def brixRateLimitCheck (rl : Option BrixRateLimitConf) (t : KvTable) (id : List UInt8)
    (now : UInt64) (padding : UInt32) : Option (Bool × Bool × KvTable) :=
  match rl with
  | none => some (true, true, t)
  | some rl =>
    match rl.kv with
    | none => some (true, true, t)
    | some kv =>
      if rl.rate = 0 ∨ rl.burst = 0 then some (true, true, t)
      else
        match kvGet kv t (brixRlKey id) (some (Wire.width BrixRlVal)) now with
        | none => none
        | some (got, t) =>
          let v := brixRlRefill rl (brixRlRead ⟨rl.burst.toUInt32, padding, now⟩ got) now
          if v.tokens = 0 then
            let set := kvSet kv t (brixRlKey id) (Wire.put v) (brixRlTtl rl) now
            some (false, set.1, set.2)
          else
            let v := { v with tokens := v.tokens - 1 }
            let set := kvSet kv t (brixRlKey id) (Wire.put v) (brixRlTtl rl) now
            some (true, set.1, set.2)

/-! ## The zone and its callers -/

/-- The key a call on the table is about. -/
def KvOp.key : KvOp → List UInt8
  | .get key _ _ => key
  | .set key _ _ _ => key
  | .delete key _ => key

/-- What happens at the zone. -/
inductive RlEvent : Type where
  /-- the identity's check at a time, and its verdict -/
  | check (now : UInt64) (padding : UInt32) (admitted : Bool) : RlEvent
  /-- any call about another key -/
  | other (op : KvOp) : RlEvent

/-- The steps of a zone and its clock. The checks of the identity come one after the other and
the table takes every bucket. -/
def RlStep (rl : BrixRateLimitConf) (kv : Kv) (id : List UInt8) (s : KvTable × UInt64) :
    RlEvent → KvTable × UInt64 → Prop
  | .check now padding admitted, s' =>
    s.2 ≤ now ∧ brixRateLimitCheck (some rl) s.1 id now padding = some (admitted, true, s'.1) ∧
      s'.2 = now
  | .other op, s' =>
    op.key ≠ brixRlKey id ∧ s.2 ≤ op.now ∧ (∃ out, kvCall kv s.1 op = some (out, s'.1)) ∧
      s'.2 = op.now

/-- The identity's calls: when, and whether they were admitted. -/
def rlCalls : List RlEvent → List (ℕ × Bool)
  | [] => []
  | .check now _ admitted :: es => (now.toNat, admitted) :: rlCalls es
  | .other _ :: es => rlCalls es

/-- An enabled limiter within the bounds of its 32-bit counters. -/
structure BrixRateLimitConf.Enabled (rl : BrixRateLimitConf) : Prop where
  rate_pos : 0 < rl.rate.toNat
  burst_pos : 0 < rl.burst.toNat
  rate_lt : rl.rate.toNat < 2 ^ 31
  burst_lt : rl.burst.toNat < 2 ^ 31

def BrixRateLimitConf.limit (rl : BrixRateLimitConf) (h : rl.Enabled) : TokenLimit :=
  ⟨rl.rate.toNat, 1000, rl.burst.toNat, h.rate_pos, by decide, h.burst_pos⟩

/-- The bucket a value stands for. -/
def BrixRlVal.bucket (v : BrixRlVal) : TokenBucket := ⟨v.tokens.toNat, v.lastRefill.toNat⟩

section Words

variable {rl : BrixRateLimitConf} (h : rl.Enabled)
include h

theorem toNat_brixRlTtl :
    (brixRlTtl rl).toNat = rl.burst.toNat * 1000 / rl.rate.toNat + 1000 := by
  have hb := h.burst_lt
  have hle : rl.burst.toNat * 1000 / rl.rate.toNat ≤ rl.burst.toNat * 1000 := Nat.div_le_self _ _
  have hthousand : (1000 : UInt64).toNat = 1000 := rfl
  rw [brixRlTtl, UInt64.toNat_add, UInt64.toNat_div, UInt64.toNat_mul, hthousand,
    Nat.mod_eq_of_lt (a := rl.burst.toNat * 1000) (by omega), Nat.mod_eq_of_lt (by omega)]

theorem toNat_toUInt32_burst : rl.burst.toUInt32.toNat = rl.burst.toNat := by
  have hb := h.burst_lt
  rw [UInt64.toNat_toUInt32]
  exact Nat.mod_eq_of_lt (by omega)

theorem bucket_brixRlRefill {v : BrixRlVal} {now : UInt64} (hlast : v.lastRefill ≤ now)
    (hcap : v.tokens.toNat ≤ rl.burst.toNat)
    (hsmall : (now.toNat - v.lastRefill.toNat) * rl.rate.toNat < 2 ^ 32 * 1000) :
    (brixRlRefill rl v now).bucket = v.bucket.refill (rl.limit h) now.toNat := by
  have hb := h.burst_lt
  have helapsed : (now - v.lastRefill).toNat = now.toNat - v.lastRefill.toNat :=
    UInt64.toNat_sub_of_le _ _ hlast
  have hthousand : (1000 : UInt64).toNat = 1000 := rfl
  have hproduct : ((now - v.lastRefill) * rl.rate).toNat =
      (now.toNat - v.lastRefill.toNat) * rl.rate.toNat := by
    rw [UInt64.toNat_mul, helapsed]
    exact Nat.mod_eq_of_lt (by omega)
  have hrefill : ((now - v.lastRefill) * rl.rate / 1000).toUInt32.toNat =
      (now.toNat - v.lastRefill.toNat) * rl.rate.toNat / 1000 := by
    rw [UInt64.toNat_toUInt32, UInt64.toNat_div, hproduct, hthousand]
    exact Nat.mod_eq_of_lt (by omega)
  have haccrued : v.bucket.accrued (rl.limit h) now.toNat =
      (now.toNat - v.lastRefill.toNat) * rl.rate.toNat / 1000 := rfl
  rw [brixRlRefill, TokenBucket.refill, haccrued]
  simp only [UInt64.lt_iff_toNat_lt, UInt32.lt_iff_toNat_lt, hrefill, helapsed, UInt64.toNat_zero,
    UInt32.toNat_zero]
  by_cases hpos : 0 < (now.toNat - v.lastRefill.toNat) * rl.rate.toNat / 1000
  · have hgone : 0 < now.toNat - v.lastRefill.toNat := by
      refine Nat.pos_of_ne_zero fun hzero => ?_
      rw [hzero] at hpos
      simp at hpos
    rw [if_pos hgone, if_pos hpos, if_pos hpos]
    generalize hg : (now.toNat - v.lastRefill.toNat) * rl.rate.toNat / 1000 = g at hrefill hpos
    have hsum : (v.tokens.toUInt64 +
        ((now - v.lastRefill) * rl.rate / 1000).toUInt32.toUInt64).toNat =
        v.tokens.toNat + g := by
      rw [UInt64.toNat_add, UInt32.toNat_toUInt64, UInt32.toNat_toUInt64, hrefill]
      exact Nat.mod_eq_of_lt (by omega)
    simp only [BrixRlVal.bucket, hsum]
    congr 1
    change _ = min rl.burst.toNat (v.tokens.toNat + g)
    split
    · rw [toNat_toUInt32_burst h, Nat.min_eq_left (by omega)]
    · rw [UInt64.toNat_toUInt32, hsum, Nat.min_eq_right (by omega)]
      exact Nat.mod_eq_of_lt (by omega)
  · rw [if_neg hpos, if_neg hpos]
    split <;> rfl

end Words

/-! ## One check -/

/-- A stored record that holds a bucket -/
structure RlRecord (rl : BrixRateLimitConf) (r : KvRec) (v : BrixRlVal) (clock : UInt64) :
    Prop where
  val_eq : r.val = Wire.put v
  ttl_eq : r.ttl = brixRlTtl rl
  setAt_le : r.setAt ≤ clock
  last_le : v.lastRefill ≤ r.setAt
  /-- less than a token's worth of time was left to count at the set -/
  counted : (r.setAt.toNat - v.lastRefill.toNat) * rl.rate.toNat < 1000
  tokens_le : v.tokens.toNat ≤ rl.burst.toNat
  /-- the clock has room for the deadline -/
  deadline_lt : r.setAt.toNat + (brixRlTtl rl).toNat < 2 ^ 64

/-- The zone keeps this bucket of the identity; `none` if it never had one. -/
def RlKeeps (rl : BrixRateLimitConf) (kv : Kv) (id : List UInt8) (s : KvTable × UInt64)
    (b : Option TokenBucket) : Prop :=
  ∃ m, KvTable.Refines kv s m ∧
    ((b = none ∧ m (brixRlKey id) = none) ∨
      ∃ r v, b = some v.bucket ∧ m (brixRlKey id) = some r ∧ RlRecord rl r v s.2)

variable {rl : BrixRateLimitConf} {kv : Kv} {id : List UInt8}

variable {b : Option TokenBucket} {m : KvMap} {s : KvTable × UInt64}

/-- What is read of a bucket, or a full one -/
theorem brixRlRead_spec (h : rl.Enabled) {now : UInt64} (padding : UInt32)
    (hm : (b = none ∧ m (brixRlKey id) = none) ∨
      ∃ r v, b = some v.bucket ∧ m (brixRlKey id) = some r ∧ RlRecord rl r v now) :
    let v := brixRlRefill rl (brixRlRead ⟨rl.burst.toUInt32, padding, now⟩
      (m.read (brixRlKey id) (some (Wire.width BrixRlVal)) now)) now
    v.bucket = TokenBucket.current (rl.limit h) b now.toNat ∧ v.lastRefill ≤ now := by
  have hb := h.burst_lt
  have hr := h.rate_lt
  -- a bucket just seeded is full and has nothing to count
  have hseed : (brixRlRefill rl ⟨rl.burst.toUInt32, padding, now⟩ now).bucket =
      ⟨rl.burst.toNat, now.toNat⟩ := by
    have hself : ¬ (0 : UInt64) < 0 := by decide
    rw [brixRlRefill, UInt64.sub_self]
    simp only [if_neg hself, BrixRlVal.bucket, toNat_toUInt32_burst h]
  have hle : ∀ v : BrixRlVal, v.lastRefill ≤ now → (brixRlRefill rl v now).lastRefill ≤ now := by
    intro v hv
    unfold brixRlRefill
    dsimp only
    split
    · split
      · exact UInt64.le_refl _
      · exact hv
    · exact hv
  rcases hm with ⟨rfl, hnone⟩ | ⟨r, v, rfl, hsome, hrec⟩
  · have hmiss : m.read (brixRlKey id) (some (Wire.width BrixRlVal)) now = none := by
      rw [KvMap.read, hnone]
    rw [hmiss]
    exact ⟨hseed, hle _ (UInt64.le_refl _)⟩
  · have hset := UInt64.le_iff_toNat_le.mp hrec.setAt_le
    have hlast := UInt64.le_iff_toNat_le.mp hrec.last_le
    have httl := toNat_brixRlTtl h
    have hroom : r.setAt.toNat + r.ttl.toNat < 2 ^ 64 := by
      rw [hrec.ttl_eq]
      exact hrec.deadline_lt
    have hexp := KvRec.expired_iff hroom now
    rcases hx : r.expired now with _ | _
    · -- live: the get copies the value out
      have hhit : m.read (brixRlKey id) (some (Wire.width BrixRlVal)) now =
          some (Wire.put v) := by
        rw [KvMap.read, hsome]
        simp only [hx, kvCopyValue, hrec.val_eq]
        rw [take_of_length_le (Nat.le_of_eq (Wire.put_length v))]
        rfl
      have hread : ∀ w : BrixRlVal, brixRlRead w (some (Wire.put v)) = v := by
        intro w
        rw [brixRlRead, drop_eq_nil_of_le (by rw [Wire.put_length, Wire.put_length]),
          append_nil, Wire.get_put]
      have hfresh : now.toNat < r.setAt.toNat + (brixRlTtl rl).toNat := by
        refine Nat.lt_of_not_le fun hge => ?_
        have hpos : r.ttl ≠ 0 := by
          intro hzero
          have hzero' : (brixRlTtl rl).toNat = 0 := by
            rw [← hrec.ttl_eq, hzero]
            rfl
          rw [httl] at hzero'
          exact Nat.succ_ne_zero _ hzero'
        rw [hexp.mpr ⟨hpos, by rw [hrec.ttl_eq]; exact hge⟩] at hx
        cases hx
      have hsmall : (now.toNat - v.lastRefill.toNat) * rl.rate.toNat < 2 ^ 32 * 1000 := by
        have hsplit : (now.toNat - v.lastRefill.toNat) * rl.rate.toNat =
            (now.toNat - r.setAt.toNat) * rl.rate.toNat +
              (r.setAt.toNat - v.lastRefill.toNat) * rl.rate.toNat := by
          have hsum : now.toNat - v.lastRefill.toNat =
              (now.toNat - r.setAt.toNat) + (r.setAt.toNat - v.lastRefill.toNat) := by omega
          rw [hsum, Nat.add_mul]
        have hspan : (now.toNat - r.setAt.toNat) * rl.rate.toNat ≤
            (rl.burst.toNat * 1000 / rl.rate.toNat + 1000) * rl.rate.toNat :=
          Nat.mul_le_mul_right _ (by omega)
        have hdiv : rl.burst.toNat * 1000 / rl.rate.toNat * rl.rate.toNat ≤
            rl.burst.toNat * 1000 := Nat.div_mul_le_self _ _
        have hcounted := hrec.counted
        rw [Nat.add_mul] at hspan
        omega
      rw [hhit, hread]
      exact ⟨bucket_brixRlRefill h (UInt64.le_trans hrec.last_le hrec.setAt_le) hrec.tokens_le
        hsmall, hle _ (UInt64.le_trans hrec.last_le hrec.setAt_le)⟩
    · -- its time has passed: in the meantime it would have filled
      have hmiss : m.read (brixRlKey id) (some (Wire.width BrixRlVal)) now = none := by
        rw [KvMap.read, hsome]
        simp only [hx, if_true]
      have hpassed := (hexp.mp hx).2
      rw [hrec.ttl_eq, httl] at hpassed
      have hidle : v.bucket.last + (rl.burst.toNat * 1000 / rl.rate.toNat + 1000) ≤ now.toNat := by
        have hb : v.bucket.last = v.lastRefill.toNat := rfl
        rw [hb]
        exact Nat.le_trans (Nat.add_le_add_right hlast _) hpassed
      have hfull : TokenBucket.current (rl.limit h) (some v.bucket) now.toNat =
          ⟨rl.burst.toNat, now.toNat⟩ := TokenBucket.refill_of_idle hidle
      rw [hmiss, hfull]
      exact ⟨hseed, hle _ (UInt64.le_refl _)⟩

/-- **One check** takes a token of the bucket, or none. -/
theorem brixRateLimitCheck_spec (h : rl.Enabled) (hkv : rl.kv = some kv)
    (hkeeps : RlKeeps rl kv id s b) {now : UInt64} (hnow : s.2 ≤ now)
    (hroom : now.toNat + (brixRlTtl rl).toNat < 2 ^ 64) {padding : UInt32} {admitted : Bool}
    {t' : KvTable}
    (hcheck : brixRateLimitCheck (some rl) s.1 id now padding = some (admitted, true, t')) :
    admitted = (TokenBucket.take (rl.limit h) b now.toNat).1 ∧
      RlKeeps rl kv id (t', now)
        (some (TokenBucket.take (rl.limit h) b now.toNat).2) := by
  obtain ⟨m, href, hm⟩ := hkeeps
  have hm' : (b = none ∧ m (brixRlKey id) = none) ∨
      ∃ r v, b = some v.bucket ∧ m (brixRlKey id) = some r ∧ RlRecord rl r v now := by
    refine hm.imp_right ?_
    rintro ⟨r, v, hb, hr, hrec⟩
    exact ⟨r, v, hb, hr, { hrec with setAt_le := UInt64.le_trans hrec.setAt_le hnow }⟩
  obtain ⟨t₁, hget, href₁⟩ := kvGet_refines (href.later hnow) (brixRlKey id)
    (some (Wire.width BrixRlVal))
  obtain ⟨hbucket, hlast⟩ := brixRlRead_spec h padding hm'
  have hon : ¬ (rl.rate = 0 ∨ rl.burst = 0) := by
    rintro (hz | hz)
    · exact Nat.ne_of_gt h.rate_pos (by rw [hz]; rfl)
    · exact Nat.ne_of_gt h.burst_pos (by rw [hz]; rfl)
  rw [brixRateLimitCheck] at hcheck
  simp only [hkv, if_neg hon, hget] at hcheck
  generalize brixRlRefill rl _ now = v at hbucket hlast hcheck
  -- what the set records of a value with the clock of `v`
  have hcap : ∀ b', b = some b' → b'.tokens ≤ (rl.limit h).burst ∧ b'.last ≤ now.toNat := by
    rintro b' rfl
    rcases hm' with ⟨hn, -⟩ | ⟨r, w, hw, -, hrec⟩
    · cases hn
    · cases hw
      exact ⟨hrec.tokens_le,
        UInt64.le_iff_toNat_le.mp (UInt64.le_trans hrec.last_le hrec.setAt_le)⟩
  obtain ⟨hburst, -, hcounted⟩ := TokenBucket.current_spec now.toNat hcap
  rw [← hbucket] at hburst hcounted
  have hkeep : ∀ (w : BrixRlVal) (t₂ : KvTable), w.lastRefill = v.lastRefill →
      w.tokens.toNat ≤ v.tokens.toNat →
      kvSet kv t₁ (brixRlKey id) (Wire.put w) (brixRlTtl rl) now = (true, t₂) →
      RlKeeps rl kv id (t₂, now) (some w.bucket) := by
    intro w t₂ hw htokens hset
    refine ⟨_, kvSet_refines href₁ hset, .inr ⟨⟨Wire.put w, now, brixRlTtl rl⟩, w, rfl,
      if_pos rfl, ?_⟩⟩
    exact ⟨rfl, rfl, UInt64.le_refl _, by rw [hw]; exact hlast, by rw [hw]; exact hcounted,
      Nat.le_trans htokens hburst, hroom⟩
  have htake : TokenBucket.take (rl.limit h) b now.toNat =
      if v.bucket.tokens = 0 then (false, v.bucket)
      else (true, { v.bucket with tokens := v.bucket.tokens - 1 }) := by
    rw [TokenBucket.take, ← hbucket]
  by_cases hzero : v.tokens = 0
  · have hz : v.bucket.tokens = 0 := by
      change v.tokens.toNat = 0
      rw [hzero]
      rfl
    rw [if_pos hzero] at hcheck
    rw [htake, if_pos hz]
    obtain ⟨rfl, hset⟩ := Prod.mk.inj (Option.some.inj hcheck)
    exact ⟨rfl, hkeep v t' rfl (Nat.le_refl _) hset⟩
  · have hz : v.bucket.tokens ≠ 0 := fun hz => hzero (UInt32.toNat_inj.mp hz)
    have hpos : 1 ≤ v.tokens.toNat := Nat.pos_of_ne_zero hz
    have hminus : (v.tokens - 1).toNat = v.tokens.toNat - 1 :=
      UInt32.toNat_sub_of_le _ _ (UInt32.le_iff_toNat_le.mpr hpos)
    rw [if_neg hzero] at hcheck
    rw [htake, if_neg hz]
    obtain ⟨rfl, hset⟩ := Prod.mk.inj (Option.some.inj hcheck)
    have hstep := hkeep { v with tokens := v.tokens - 1 } t' rfl (by rw [hminus]; omega) hset
    refine ⟨rfl, ?_⟩
    have hsame : (BrixRlVal.bucket { v with tokens := v.tokens - 1 }) =
        { v.bucket with tokens := v.bucket.tokens - 1 } := by
      simp only [BrixRlVal.bucket, hminus]
    rw [hsame] at hstep
    exact hstep

theorem brixRateLimitCheck_returns
    (href : KvTable.Refines kv s m) (hkv : rl.kv = some kv) (padding : UInt32) :
    ∃ r, brixRateLimitCheck (some rl) s.1 id s.2 padding = some r := by
  obtain ⟨t₁, hget, -⟩ := kvGet_refines href (brixRlKey id) (some (Wire.width BrixRlVal))
  unfold brixRateLimitCheck
  simp only [hkv, hget]
  split
  · exact ⟨_, rfl⟩
  · split <;> exact ⟨_, rfl⟩

/-! ## Whole runs -/

theorem KvMap.Step.other {m' : KvMap} {op : KvOp} {out : KvOut} {key : List UInt8}
    (h : KvMap.Step m (op, out) m') (hne : op.key ≠ key) : m' key = m key := by
  cases h with
  | get | setError => rfl
  | set | delete => exact if_neg hne.symm

theorem RlKeeps.other (hkeeps : RlKeeps rl kv id s b) {op : KvOp} (hne : op.key ≠ brixRlKey id)
    (hle : s.2 ≤ op.now) {out : KvOut} {t' : KvTable}
    (hcall : kvCall kv s.1 op = some (out, t')) : RlKeeps rl kv id (t', op.now) b := by
  obtain ⟨m, href, hm⟩ := hkeeps
  obtain ⟨out', t'', m', hcall', hstep, href'⟩ := kvCall_refines href hle
  obtain ⟨rfl, rfl⟩ := Prod.mk.inj (Option.some.inj (hcall'.symm.trans hcall))
  refine ⟨m', href', ?_⟩
  rw [hstep.other hne]
  refine hm.imp_right ?_
  rintro ⟨r, v, hb, hr, hrec⟩
  exact ⟨r, v, hb, hr, { hrec with setAt_le := UInt64.le_trans hrec.setAt_le hle }⟩

/-- A run of checks is the log of a token bucket. -/
theorem rlCalls_eq_log (h : rl.Enabled) (hkv : rl.kv = some kv) {s' : KvTable × UInt64}
    {trace : List RlEvent} (hrun : Run (RlStep rl kv id) s trace s')
    (hkeeps : RlKeeps rl kv id s b)
    (hclock : ∀ c ∈ rlCalls trace, c.1 + (brixRlTtl rl).toNat < 2 ^ 64) :
    ∃ times, rlCalls trace = TokenBucket.log (rl.limit h) b times ∧
      times.Pairwise (· ≤ ·) ∧ ∀ t ∈ times, s.2.toNat ≤ t := by
  induction hrun generalizing b with
  | nil s => exact ⟨[], rfl, .nil, by simp⟩
  | @cons s mid s' e trace hstep _ ih =>
    cases e with
    | check now padding admitted =>
      obtain ⟨hnow, hcheck, hmid⟩ := hstep
      have hroom := hclock (now.toNat, admitted) mem_cons_self
      obtain ⟨hverdict, hkeeps'⟩ := brixRateLimitCheck_spec h hkv hkeeps hnow hroom hcheck
      rw [← hmid] at hkeeps'
      obtain ⟨times, hlog, hsorted, hfrom⟩ := ih hkeeps'
        fun c hc => hclock c (mem_cons_of_mem _ hc)
      rw [hmid] at hfrom
      refine ⟨now.toNat :: times, ?_, pairwise_cons.mpr ⟨hfrom, hsorted⟩, ?_⟩
      · rw [rlCalls, hlog, TokenBucket.log, hverdict, hmid]
      · intro t ht
        have hle := UInt64.le_iff_toNat_le.mp hnow
        rcases mem_cons.mp ht with rfl | ht
        · exact hle
        · exact Nat.le_trans hle (hfrom t ht)
    | other op =>
      obtain ⟨hne, hnow, ⟨out, hcall⟩, hmid⟩ := hstep
      have hkeeps' := hkeeps.other hne hnow hcall
      rw [← hmid] at hkeeps'
      obtain ⟨times, hlog, hsorted, hfrom⟩ := ih hkeeps' hclock
      refine ⟨times, hlog, hsorted, fun t ht => ?_⟩
      have hle := UInt64.le_iff_toNat_le.mp hnow
      rw [hmid] at hfrom
      exact Nat.le_trans hle (hfrom t ht)

/-- **The token-bucket bound.** In every run of a zone that starts empty, as long as the clock
has room for a deadline after each of the identity's calls: in no window of `T` milliseconds are
more than `burst + T * rate / 1000 + 1` of them admitted, and after a pause of
`burst * 1000 / rate + 1000` milliseconds `burst` of them in a row are. -/
theorem brixRateLimitCheck_bounded (rl : BrixRateLimitConf) (kv : Kv) (id : List UInt8)
    (h : rl.Enabled) (hkv : rl.kv = some kv) (trace : List RlEvent) (s' : KvTable × UInt64)
    (hrun : Run (RlStep rl kv id) (kv.emptyTable, 0) trace s')
    (hclock : ∀ c ∈ rlCalls trace, c.1 + (brixRlTtl rl).toNat < 2 ^ 64) :
    (∀ start T, TokenBucket.admitted start (start + T) (rlCalls trace) ≤
      rl.burst.toNat + T * rl.rate.toNat / 1000 + 1) ∧
    ∀ before after, rlCalls trace = before ++ after →
      (∀ c ∈ before, ∀ d ∈ after,
        c.1 + (rl.burst.toNat * 1000 / rl.rate.toNat + 1000) ≤ d.1) →
      ∀ c ∈ after.take rl.burst.toNat, c.2 = true := by
  have hkeeps : RlKeeps rl kv id (kv.emptyTable, 0) none :=
    ⟨_, emptyTable_refines kv, .inl ⟨rfl, rfl⟩⟩
  obtain ⟨times, hlog, hsorted, -⟩ := rlCalls_eq_log h hkv hrun hkeeps hclock
  rw [hlog]
  refine ⟨fun start T => ?_, fun before after hsplit hidle => ?_⟩
  · exact TokenBucket.admitted_le start T hsorted fun b' hb' => by cases hb'
  · exact TokenBucket.log_after_idle hsplit hidle fun b' hb' => by cases hb'

/-- A zone of four slots, one request a second and no burst. -/
def sampleRlKv : Kv := ⟨2, Nat.two_pos, 8, 16, kvHash⟩

def sampleRl : BrixRateLimitConf := ⟨some sampleRlKv, 1, 1⟩

theorem sampleRl_enabled : sampleRl.Enabled where
  rate_pos := by decide
  burst_pos := by decide
  rate_lt := by decide
  burst_lt := by decide

def sampleRlAfter (t : KvTable) (now : UInt64) : KvTable :=
  ((brixRateLimitCheck (some sampleRl) t [97] now 0).map fun r => r.2.2).getD t

theorem sampleRl_step (t : KvTable) (clock now : UInt64) (admitted : Bool) (hle : clock ≤ now)
    (hcheck : brixRateLimitCheck (some sampleRl) t [97] now 0 =
      some (admitted, true, sampleRlAfter t now)) :
    RlStep sampleRl sampleRlKv [97] (t, clock) (.check now 0 admitted)
      (sampleRlAfter t now, now) :=
  ⟨hle, hcheck, rfl⟩

/-- Two calls at once: one is admitted. -/
theorem brixRateLimitCheck_bounded_sample :
    ∃ s', Run (RlStep sampleRl sampleRlKv [97]) (sampleRlKv.emptyTable, 0)
        [.check 5 0 true, .check 5 0 false] s' ∧
      ∀ start T, TokenBucket.admitted start (start + T) [(5, true), (5, false)] ≤
        1 + T * 1 / 1000 + 1 := by
  have hrun : Run (RlStep sampleRl sampleRlKv [97]) (sampleRlKv.emptyTable, 0)
      [.check 5 0 true, .check 5 0 false]
      (sampleRlAfter (sampleRlAfter sampleRlKv.emptyTable 5) 5, 5) := by
    refine .cons (sampleRl_step sampleRlKv.emptyTable 0 5 true ?_ ?_)
      (.one (sampleRl_step _ 5 5 false ?_ ?_)) <;> decide +kernel
  refine ⟨_, hrun, ?_⟩
  exact (brixRateLimitCheck_bounded sampleRl sampleRlKv [97] sampleRl_enabled rfl _ _ hrun
    (by decide +kernel)).1

/-- `(ngx_msec_t) -1` -/
def lastMsec : UInt64 := 18446744073709551615

/-- The last millisecond of the clock: every deadline has passed when it is set, and three calls
at once are admitted. -/
theorem last_millisecond_admits_all :
    let calls : List RlEvent := replicate 3 (.check lastMsec 0 true)
    ∃ s', Run (RlStep sampleRl sampleRlKv [97]) (sampleRlKv.emptyTable, 0) calls s' ∧
      ¬ TokenBucket.admitted lastMsec.toNat (lastMsec.toNat + 0) (rlCalls calls) ≤
        sampleRl.burst.toNat + 0 * sampleRl.rate.toNat / 1000 + 1 := by
  intro calls
  have hrun : Run (RlStep sampleRl sampleRlKv [97]) (sampleRlKv.emptyTable, 0) calls
      (sampleRlAfter (sampleRlAfter (sampleRlAfter sampleRlKv.emptyTable lastMsec) lastMsec)
        lastMsec, lastMsec) := by
    refine .cons (sampleRl_step sampleRlKv.emptyTable 0 lastMsec true ?_ ?_)
      (.cons (sampleRl_step _ lastMsec lastMsec true ?_ ?_)
        (.one (sampleRl_step _ lastMsec lastMsec true ?_ ?_))) <;> decide +kernel
  exact ⟨_, hrun, by decide +kernel⟩

end BrixCache

import Mathlib.Tactic.Linarith

/-!
# The token bucket

A limiter that gives out `rate` tokens every `per` ticks and keeps at most `burst`. A fraction of
a token is never given out, but not lost either: the bucket's clock stands still until a whole
token has accrued.

What a bucket can give until a time `e` is a budget, its tokens and what accrues until `e`, and
every call that is admitted is paid from it (`take_pays`). So no window of `T` ticks sees more
than `burst + T * rate / per + 1` calls admitted, and a bucket left alone long enough is full.
-/

namespace BrixCache

open List

/-- `rate` tokens every `per` ticks, at most `burst` at a time. -/
structure TokenLimit : Type where
  rate : ℕ
  per : ℕ
  burst : ℕ
  rate_pos : 0 < rate
  per_pos : 0 < per
  burst_pos : 0 < burst

/-- The tokens, and the time up to which they have been counted. -/
structure TokenBucket : Type where
  tokens : ℕ
  last : ℕ
  deriving DecidableEq

namespace TokenBucket

variable (L : TokenLimit)

/-- Whole tokens accrued since the bucket was last counted. -/
def accrued (b : TokenBucket) (now : ℕ) : ℕ := (now - b.last) * L.rate / L.per

/-- Add what accrued, up to the burst. -/
def refill (b : TokenBucket) (now : ℕ) : TokenBucket :=
  if 0 < b.accrued L now then ⟨min L.burst (b.tokens + b.accrued L now), now⟩ else b

/-- The bucket at `now`; one that nobody has used yet is full. -/
def current : Option TokenBucket → ℕ → TokenBucket
  | none, now => ⟨L.burst, now⟩
  | some b, now => b.refill L now

/-- A call: is it admitted, and the bucket it leaves. -/
def take (b : Option TokenBucket) (now : ℕ) : Bool × TokenBucket :=
  let b := current L b now
  if b.tokens = 0 then (false, b) else (true, { b with tokens := b.tokens - 1 })

/-- The calls at the given times, each with its verdict. -/
def log (b : Option TokenBucket) : List ℕ → List (ℕ × Bool)
  | [] => []
  | now :: times => (now, (take L b now).1) :: log (some (take L b now).2) times

/-- How many calls between `s` and `e` are admitted. -/
def admitted (s e : ℕ) (calls : List (ℕ × Bool)) : ℕ :=
  (calls.filter fun c => decide (s ≤ c.1) && decide (c.1 ≤ e) && c.2).length

variable {L} {b : TokenBucket} {now : ℕ}

/-! ## One call -/

theorem refill_pays (hlast : b.last ≤ now) :
    L.per * (b.refill L now).tokens + L.rate * b.last ≤
      L.per * b.tokens + L.rate * (b.refill L now).last ∧
    b.last ≤ (b.refill L now).last ∧ (b.refill L now).last ≤ now := by
  rw [refill]
  split
  · have hdiv : L.per * b.accrued L now ≤ (now - b.last) * L.rate := Nat.mul_div_le _ _
    have hmin : L.per * min L.burst (b.tokens + b.accrued L now) ≤
        L.per * (b.tokens + b.accrued L now) := Nat.mul_le_mul_left _ (Nat.min_le_right _ _)
    have hspan : (now - b.last) * L.rate + L.rate * b.last = L.rate * now := by
      rw [Nat.mul_comm, ← Nat.mul_add, Nat.sub_add_cancel hlast]
    rw [Nat.mul_add] at hmin
    exact ⟨by dsimp only; omega, hlast, Nat.le_refl _⟩
  · exact ⟨Nat.le_refl _, Nat.le_refl _, hlast⟩

theorem le_refill_tokens (now : ℕ) (hcap : b.tokens ≤ L.burst) :
    b.tokens ≤ (b.refill L now).tokens ∧ (b.refill L now).tokens ≤ L.burst := by
  rw [refill]
  split
  · exact ⟨Nat.le_min.mpr ⟨hcap, Nat.le_add_right _ _⟩, Nat.min_le_left _ _⟩
  · exact ⟨Nat.le_refl _, hcap⟩

theorem refill_counted :
    (now - (b.refill L now).last) * L.rate < L.per := by
  rw [refill]
  split
  · simpa using L.per_pos
  · rename_i hnone
    exact (Nat.div_eq_zero_iff_lt L.per_pos).mp (Nat.eq_zero_of_not_pos hnone)

theorem current_spec {b : Option TokenBucket} (now : ℕ)
    (hb : ∀ b', b = some b' → b'.tokens ≤ L.burst ∧ b'.last ≤ now) :
    (current L b now).tokens ≤ L.burst ∧ (current L b now).last ≤ now ∧
      (now - (current L b now).last) * L.rate < L.per := by
  cases b with
  | none => exact ⟨Nat.le_refl _, Nat.le_refl _, by simpa [current] using L.per_pos⟩
  | some b =>
    obtain ⟨hcap, hlast⟩ := hb b rfl
    exact ⟨(le_refill_tokens now hcap).2, (refill_pays hlast).2.2, refill_counted⟩

theorem take_spec (b : Option TokenBucket) (now : ℕ) :
    (take L b now).2.tokens + (if (take L b now).1 then 1 else 0) = (current L b now).tokens ∧
      (take L b now).2.last = (current L b now).last := by
  unfold take
  dsimp only
  split
  · simp
  · refine ⟨?_, rfl⟩
    simp only [if_true]
    omega

theorem take_pays (hlast : b.last ≤ now) :
    L.per * ((take L (some b) now).2.tokens + (if (take L (some b) now).1 then 1 else 0)) +
        L.rate * b.last ≤ L.per * b.tokens + L.rate * (take L (some b) now).2.last ∧
      (take L (some b) now).2.last ≤ now := by
  obtain ⟨htokens, hsame⟩ := take_spec (L := L) (some b) now
  rw [htokens, hsame]
  exact ⟨(refill_pays hlast).1, (refill_pays hlast).2.2⟩

/-! ## The window bound -/

@[simp] theorem admitted_nil (s e : ℕ) : admitted s e [] = 0 := rfl

variable {calls : List (ℕ × Bool)} {e s t : ℕ} {times : List ℕ}

theorem admitted_cons_of_mem {v : Bool} (hs : s ≤ t) (he : t ≤ e) :
    admitted s e ((t, v) :: calls) = (if v then 1 else 0) + admitted s e calls := by
  cases v <;> simp [admitted, hs, he, Nat.add_comm]

theorem admitted_cons_of_lt {v : Bool} (hs : t < s) :
    admitted s e ((t, v) :: calls) = admitted s e calls := by
  simp [admitted, Nat.not_le.mpr hs]

theorem admitted_of_gt (h : ∀ c ∈ calls, e < c.1) :
    admitted s e calls = 0 := by
  rw [admitted, length_eq_zero_iff, filter_eq_nil_iff]
  intro c hc
  simp [Nat.not_le.mpr (h c hc)]

theorem mem_log {b : Option TokenBucket} {c : ℕ × Bool} (h : c ∈ log L b times) : c.1 ∈ times := by
  induction times generalizing b with
  | nil => simp [log] at h
  | cons t times ih =>
    rcases mem_cons.mp h with rfl | h
    · exact mem_cons_self
    · exact mem_cons_of_mem _ (ih h)

/-- What is admitted was paid for, with tokens or with time. -/
theorem admitted_pays (times : List ℕ) (hsorted : (b.last :: times).Pairwise (· ≤ ·))
    (hs : ∀ t ∈ times, s ≤ t) (he : b.last ≤ e) :
    L.per * admitted s e (log L (some b) times) + L.rate * b.last ≤
      L.per * b.tokens + L.rate * e := by
  induction times generalizing b with
  | nil =>
    have := Nat.mul_le_mul_left L.rate he
    simp only [log, admitted_nil, Nat.mul_zero]
    omega
  | cons t times ih =>
    obtain ⟨hfrom, htail⟩ := pairwise_cons.mp hsorted
    have hlast : b.last ≤ t := hfrom t mem_cons_self
    rcases Nat.lt_or_ge e t with hgt | hle
    · -- the window is over
      have hnone : admitted s e (log L (some b) (t :: times)) = 0 := by
        refine admitted_of_gt fun c hc => ?_
        rcases mem_cons.mp (mem_log hc) with heq | hm
        · exact heq ▸ hgt
        · exact Nat.lt_of_lt_of_le hgt ((pairwise_cons.mp htail).1 _ hm)
      have := Nat.mul_le_mul_left L.rate he
      rw [hnone]
      omega
    · obtain ⟨hpays, hnow⟩ := take_pays (L := L) hlast
      have hsorted' : ((take L (some b) t).2.last :: times).Pairwise (· ≤ ·) := by
        refine pairwise_cons.mpr ⟨fun u hu => ?_, (pairwise_cons.mp htail).2⟩
        exact Nat.le_trans hnow ((pairwise_cons.mp htail).1 u hu)
      have hrest := ih hsorted' (fun u hu => hs u (mem_cons_of_mem _ hu))
        (Nat.le_trans hnow hle)
      rw [log, admitted_cons_of_mem (hs t mem_cons_self) hle]
      rw [Nat.mul_add] at hpays ⊢
      omega

/-- **The bound** on what a stretch of time admits -/
theorem admitted_le {b : Option TokenBucket} (s T : ℕ) (hsorted : times.Pairwise (· ≤ ·))
    (hb : ∀ b', b = some b' → b'.tokens ≤ L.burst ∧ ∀ t ∈ times, b'.last ≤ t) :
    admitted s (s + T) (log L b times) ≤ L.burst + T * L.rate / L.per + 1 := by
  induction times generalizing b with
  | nil => simp [log]
  | cons t times ih =>
    obtain ⟨hfrom, htail⟩ := pairwise_cons.mp hsorted
    obtain ⟨hcap, hlast, hcounted⟩ := current_spec (L := L) (b := b) t
      fun b' hb' => ⟨(hb b' hb').1, (hb b' hb').2 t mem_cons_self⟩
    obtain ⟨htokens, hsame⟩ := take_spec (L := L) b t
    rcases Nat.lt_or_ge t s with hlt | hge
    · -- not in the window yet
      rw [log, admitted_cons_of_lt hlt]
      refine ih htail fun b' hb' => ?_
      cases hb'
      refine ⟨by omega, fun u hu => ?_⟩
      rw [hsame]
      exact Nat.le_trans hlast (hfrom u hu)
    · have hs : ∀ u ∈ times, s ≤ u := fun u hu => Nat.le_trans hge (hfrom u hu)
      rcases Nat.lt_or_ge (s + T) t with hgt | hle
      · have hnone : admitted s (s + T) (log L b (t :: times)) = 0 := by
          refine admitted_of_gt fun c hc => ?_
          rcases mem_cons.mp (mem_log hc) with heq | hm
          · exact heq ▸ hgt
          · exact Nat.lt_of_lt_of_le hgt (hfrom _ hm)
        rw [hnone]
        exact Nat.zero_le _
      · -- the first call of the window: from here on everything is paid from a full bucket
        rw [log, admitted_cons_of_mem hge hle]
        have hpays := admitted_pays (L := L) (b := (take L b t).2) (s := s) (e := s + T) times
          (pairwise_cons.mpr
            ⟨fun u hu => by rw [hsame]; exact Nat.le_trans hlast (hfrom u hu), htail⟩)
          hs (by rw [hsame]; omega)
        generalize admitted s (s + T) _ = n at hpays ⊢
        generalize (if (take L b t).1 then 1 else 0) = v at htokens ⊢
        have hwindow : L.rate * (s + T) ≤ L.rate * (t - (current L b t).last) +
            L.rate * T + L.rate * (current L b t).last := by
          rw [← Nat.mul_add, ← Nat.mul_add]
          exact Nat.mul_le_mul_left _ (by omega)
        have hfull : L.per * (take L b t).2.tokens + L.per * v ≤ L.per * L.burst := by
          rw [← Nat.mul_add, htokens]
          exact Nat.mul_le_mul_left _ hcap
        rw [hsame] at hpays
        rw [Nat.mul_comm] at hcounted
        have hall : L.per * (v + n) < L.per * (L.burst + 1) + L.rate * T := by
          rw [Nat.mul_add, Nat.mul_add]
          omega
        have hover : v + n - (L.burst + 1) ≤ T * L.rate / L.per := by
          rw [Nat.le_div_iff_mul_le L.per_pos, Nat.mul_comm, Nat.mul_sub, Nat.mul_comm T]
          omega
        omega

/-! ## Bursts -/

theorem take_log_admitted (hcap : b.tokens ≤ L.burst) :
    ∀ c ∈ (log L (some b) times).take b.tokens, c.2 = true := by
  induction times generalizing b with
  | nil => simp [log]
  | cons t times ih =>
    obtain ⟨hle, hcap'⟩ := le_refill_tokens t hcap
    obtain ⟨htokens, -⟩ := take_spec (L := L) (some b) t
    have hcur : (current L (some b) t).tokens = (b.refill L t).tokens := rfl
    intro c hc
    rcases hn : b.tokens with _ | n
    · rw [hn] at hc
      simp at hc
    · rw [hn, log, take_succ_cons] at hc
      have hpos : (current L (some b) t).tokens ≠ 0 := by omega
      have hyes : (take L (some b) t).1 = true := by
        rw [take, if_neg hpos]
      rw [hyes, if_pos rfl] at htokens
      rcases mem_cons.mp hc with rfl | hc
      · exact hyes
      · have hn' : n ≤ (take L (some b) t).2.tokens := by omega
        exact ih (by omega) c (take_subset_take_left _ hn' hc)

theorem take_log_of_full {b : Option TokenBucket} (h : (current L b t).tokens = L.burst) :
    ∀ c ∈ (log L b (t :: times)).take L.burst, c.2 = true := by
  obtain ⟨n, hn⟩ : ∃ n, L.burst = n + 1 :=
    ⟨L.burst - 1, by have := L.burst_pos; omega⟩
  obtain ⟨htokens, -⟩ := take_spec (L := L) b t
  have hpos : (current L b t).tokens ≠ 0 := by omega
  have hyes : (take L b t).1 = true := by
    rw [take, if_neg hpos]
  rw [hyes, if_pos rfl] at htokens
  intro c hc
  rw [hn, log, take_succ_cons] at hc
  rcases mem_cons.mp hc with rfl | hc
  · exact hyes
  · have hleft : (take L b t).2.tokens = n := by omega
    rw [← hleft] at hc
    exact take_log_admitted (by omega) c hc

theorem accrued_of_idle {idle : ℕ} (h : L.burst * L.per / L.rate + L.per ≤ idle) :
    L.burst ≤ idle * L.rate / L.per := by
  rw [Nat.le_div_iff_mul_le L.per_pos]
  have hdiv := Nat.div_add_mod (L.burst * L.per) L.rate
  have hmod := Nat.mod_lt (L.burst * L.per) L.rate_pos
  have hper : L.rate ≤ L.per * L.rate := Nat.le_mul_of_pos_left _ L.per_pos
  have hidle := Nat.mul_le_mul_right L.rate h
  rw [Nat.add_mul, Nat.mul_comm _ L.rate] at hidle
  omega

theorem refill_of_idle (hidle : b.last + (L.burst * L.per / L.rate + L.per) ≤ now) :
    b.refill L now = ⟨L.burst, now⟩ := by
  have hfull : L.burst ≤ b.accrued L now := accrued_of_idle (Nat.le_sub_of_add_le' hidle)
  have hpos := L.burst_pos
  rw [refill, if_pos (by omega), Nat.min_eq_left (by omega)]

theorem take_last (b : Option TokenBucket) (now : ℕ) :
    (take L b now).2.last = now ∨ ∃ b', b = some b' ∧ (take L b now).2.last = b'.last := by
  rw [(take_spec b now).2]
  cases b with
  | none => exact .inl rfl
  | some b =>
    rw [current, refill]
    split
    · exact .inl rfl
    · exact .inr ⟨b, rfl, rfl⟩

/-- After a pause a whole burst is admitted. -/
theorem log_after_idle {b : Option TokenBucket} {before after : List (ℕ × Bool)}
    (hlog : log L b times = before ++ after)
    (hidle : ∀ c ∈ before, ∀ d ∈ after, c.1 + (L.burst * L.per / L.rate + L.per) ≤ d.1)
    (hb : ∀ b', b = some b' → ∀ d ∈ after, b'.last + (L.burst * L.per / L.rate + L.per) ≤ d.1) :
    ∀ c ∈ after.take L.burst, c.2 = true := by
  induction before generalizing b times with
  | nil =>
    rw [nil_append] at hlog
    rw [← hlog] at hb ⊢
    cases times with
    | nil => simp [log]
    | cons t times =>
      refine take_log_of_full ?_
      cases b with
      | none => rfl
      | some b =>
        have hfull := hb b rfl (t, (take L (some b) t).1) mem_cons_self
        rw [current, refill_of_idle hfull]
  | cons c before ih =>
    cases times with
    | nil => simp [log] at hlog
    | cons t times =>
      rw [log, cons_append] at hlog
      obtain ⟨rfl, hrest⟩ := cons.inj hlog
      refine ih hrest (fun x hx => hidle x (mem_cons_of_mem _ hx)) ?_
      intro b' hb' d hd
      cases hb'
      rcases take_last (L := L) b t with hlast | ⟨b₀, hb₀, hlast⟩
      · rw [hlast]
        exact hidle _ mem_cons_self d hd
      · rw [hlast]
        exact hb b₀ hb₀ d hd

end TokenBucket

end BrixCache

import BrixCache.Lib.Run
import BrixCache.Core.Ascii
import Mathlib.Data.Nat.ModEq

/-!
# The redirect-collapse cache

`net/manager/redir_cache.c`: a table in shared memory that remembers which server a path was
redirected to. A path's entry stands in a window of at most 32 slots from its home slot on.
Every call goes over that window, under the cache's lock.
-/

namespace BrixCache

/-- `brix_redir_cache_entry_t`; a slot that was never used is `none`. -/
structure RedirEntry : Type where
  path : Bytes
  host : Bytes
  port : UInt16
  expires : UInt64
  deriving DecidableEq

/-- The slots of `brix_redir_cache_t` -/
abbrev RedirTable : Type := ℕ → Option RedirEntry

/-- FNV-1a over the path. -/
def redirHash (path : Bytes) : UInt32 :=
  path.foldl (fun h b => (h ^^^ b.toUInt32) * 16777619) 2166136261

def brixRedirProbeMax : ℕ := 32

/-- The number of slots in a window -/
def redirNprobe (capacity : ℕ) : ℕ :=
  if capacity < brixRedirProbeMax then capacity else brixRedirProbeMax

/-- Linear probing from the slot of the hash. -/
def redirSlot (capacity : ℕ) (path : Bytes) (probe : ℕ) : ℕ :=
  ((redirHash path).toNat % capacity + probe) % capacity

/-- The first place in a path's window whose slot passes a test -/
def redirProbe (capacity : ℕ) (t : RedirTable) (path : Bytes)
    (test : Option RedirEntry → Bool) : Option ℕ :=
  (List.range (redirNprobe capacity)).find? fun probe => test (t (redirSlot capacity path probe))

/-- The slot holds the path and is still live. -/
def isRedirHit (now : UInt64) (path : Bytes) (slot : Option RedirEntry) : Bool :=
  slot.any fun e => now < e.expires ∧ e.path = path

/-- The slot is empty or its entry is over. -/
def isRedirFree (now : UInt64) (slot : Option RedirEntry) : Bool :=
  slot.all fun e => e.expires ≤ now

/-- In use for the path, expired or not -/
def isRedirFor (path : Bytes) (slot : Option RedirEntry) : Bool :=
  slot.any fun e => e.path = path

/-- `brix_redir_cache_lookup`: the host, as far as the caller's buffer holds it, and the port -/
def brixRedirCacheLookup (capacity : ℕ) (t : RedirTable) (now : UInt64) (path : Bytes)
    (hostSize : ℕ) : Option (Bytes × UInt16) :=
  (redirProbe capacity t path (isRedirHit now path)).bind fun probe =>
    (t (redirSlot capacity path probe)).map fun e => (e.host.take (hostSize - 1), e.port)

/-- `lru_slot` and `lru_exp` after one more slot -/
def redirLruStep (capacity : ℕ) (t : RedirTable) (now : UInt64) (path : Bytes)
    (lru : Option (ℕ × UInt64)) (probe : ℕ) : Option (ℕ × UInt64) :=
  match t (redirSlot capacity path probe) with
  | none => lru
  | some e =>
    if now < e.expires ∧ lru.all (e.expires < ·.2) then some (probe, e.expires) else lru

/-- `lru_slot`: the live entry of the window that is closest to its expiry -/
def redirLru (capacity : ℕ) (t : RedirTable) (now : UInt64) (path : Bytes) : Option ℕ :=
  ((List.range (redirNprobe capacity)).foldl (redirLruStep capacity t now path) none).map Prod.fst

/-- `victim` -/
def redirVictim (capacity : ℕ) (t : RedirTable) (now : UInt64) (path : Bytes) : Option ℕ :=
  (redirProbe capacity t path (isRedirFree now)).or (redirLru capacity t now path)

/-- `brix_redir_cache_insert`. Paths and hosts are cut to the size of their fields. -/
def brixRedirCacheInsert (capacity : ℕ) (t : RedirTable) (now : UInt64) (path host : Bytes)
    (port : UInt16) (ttlMs : UInt64) : RedirTable :=
  if ttlMs = 0 then t
  else
    match redirProbe capacity t path (isRedirHit now path) with
    | some probe =>
      Function.update t (redirSlot capacity path probe)
        ((t (redirSlot capacity path probe)).map fun e =>
          { e with host := host.take 127, port := port, expires := now + ttlMs })
    | none =>
      match redirVictim capacity t now path with
      | none => t
      | some probe =>
        Function.update t (redirSlot capacity path probe)
          (some ⟨path.take 255, host.take 127, port, now + ttlMs⟩)

def brixRedirCacheInvalidate (capacity : ℕ) (t : RedirTable) (now : UInt64)
    (path : Bytes) : RedirTable :=
  match redirProbe capacity t path (isRedirFor path) with
  | none => t
  | some probe =>
    Function.update t (redirSlot capacity path probe)
      ((t (redirSlot capacity path probe)).map fun e => { e with expires := now })

/-! ## Calls -/

/-- A call that changes the table -/
inductive RedirCall : Type where
  | insert (path host : Bytes) (port : UInt16) (ttlMs : UInt64)
  | invalidate (path : Bytes)

/-- One call of the cache's interface at time `now`. -/
def redirCall (capacity : ℕ) (t : RedirTable) (now : UInt64) : RedirCall → RedirTable
  | .insert path host port ttlMs => brixRedirCacheInsert capacity t now path host port ttlMs
  | .invalidate path => brixRedirCacheInvalidate capacity t now path

/-! ## The map it stands for -/

/-- An insert: where the path was redirected to, and until when that holds -/
structure Redirected : Type where
  host : Bytes
  port : UInt16
  expires : ℕ

/-- A map with expiry: for each path the last insert, unless it was invalidated since -/
abbrev RedirMap : Type := Bytes → Option Redirected

/-- What the calls so far mean, without the table. -/
def redirMeans (m : RedirMap) (now : UInt64) : RedirCall → RedirMap
  | .insert path host port ttlMs =>
    Function.update m path (some ⟨host, port, now.toNat + ttlMs.toNat⟩)
  | .invalidate path => Function.update m path none

/-- The cache, the map it stands for, and the clock -/
structure RedirSystem : Type where
  table : RedirTable
  means : RedirMap
  now : UInt64

/-- Before the first call -/
def RedirSystem.init : RedirSystem := ⟨fun _ => none, fun _ => none, 0⟩

def RedirSystem.after (capacity : ℕ) (s : RedirSystem) (c : UInt64 × RedirCall) : RedirSystem :=
  ⟨redirCall capacity s.table c.1 c.2, redirMeans s.means c.1 c.2, c.1⟩

/-- A call at a time the clock has not passed yet -/
def RedirStep (capacity : ℕ) (s : RedirSystem) (c : UInt64 × RedirCall) (s' : RedirSystem) :
    Prop :=
  s.now ≤ c.1 ∧ s' = s.after capacity c

/-- What an insert must be like to be held as it is: its path and its host fit their fields, and it
has a lifetime or follows no entry of its path that is still live. -/
def RedirCall.Fits (capacity : ℕ) (t : RedirTable) (now : UInt64) : RedirCall → Prop
  | .insert path host _ ttlMs => path.length < 256 ∧ host.length < 128 ∧
      (ttlMs = 0 → redirProbe capacity t path (isRedirHit now path) = none)
  | .invalidate _ => True

/-- A step whose insert fits -/
def RedirFits (capacity : ℕ) (s : RedirSystem) (c : UInt64 × RedirCall) (s' : RedirSystem) :
    Prop :=
  RedirStep capacity s c s' ∧ c.2.Fits capacity s.table c.1

/-- What a lookup may answer: a miss, or the last insert of just that path, if it was not
invalidated since and is not expired. -/
def RedirSystem.Allows (s : RedirSystem) (now : UInt64) (path : Bytes) (hostSize : ℕ)
    (answer : Option (Bytes × UInt16)) : Prop :=
  ∀ host port, answer = some (host, port) →
    ∃ l, s.means path = some l ∧ now.toNat < l.expires ∧ host = l.host.take (hostSize - 1) ∧
      port = l.port

/-- No two slots hold live entries of one path. -/
def RedirSystem.OneLive (capacity : ℕ) (s : RedirSystem) (now : UInt64) : Prop :=
  ∀ i j e e', i < capacity → j < capacity → s.table i = some e → s.table j = some e' →
    now < e.expires → now < e'.expires → e.path = e'.path → i = j

end BrixCache

/-!
## What the redirect-collapse cache answers over time

A path that does not fit its field is held cut, as the entry of another path.
-/

namespace BrixCache

open List

variable {capacity : ℕ} {t : RedirTable} {now : UInt64} {path : Bytes} {m : RedirMap}

/-! ### Windows -/

theorem redirNprobe_le (capacity : ℕ) : redirNprobe capacity ≤ capacity := by
  rw [redirNprobe]
  split
  · exact Nat.le_refl _
  · next h => exact Nat.not_lt.mp h

theorem redirSlot_inj {i j : ℕ} (hi : i < redirNprobe capacity) (hj : j < redirNprobe capacity)
    (h : redirSlot capacity path i = redirSlot capacity path j) : i = j := by
  have hi := Nat.lt_of_lt_of_le hi (redirNprobe_le capacity)
  have hj := Nat.lt_of_lt_of_le hj (redirNprobe_le capacity)
  have hsame : i ≡ j [MOD capacity] := Nat.ModEq.add_left_cancel' _ h
  exact hsame.eq_of_lt_of_lt hi hj

theorem redirProbe_eq_some {test : Option RedirEntry → Bool} {k : ℕ} :
    redirProbe capacity t path test = some k ↔
      test (t (redirSlot capacity path k)) = true ∧ k < redirNprobe capacity ∧
        ∀ j < k, test (t (redirSlot capacity path j)) = false := by
  simp [redirProbe]

theorem redirProbe_eq_none {test : Option RedirEntry → Bool} :
    redirProbe capacity t path test = none ↔
      ∀ k < redirNprobe capacity, test (t (redirSlot capacity path k)) = false := by
  simp [redirProbe]

theorem isRedirHit_iff {slot : Option RedirEntry} :
    isRedirHit now path slot = true ↔ ∃ e, slot = some e ∧ now < e.expires ∧ e.path = path := by
  simp [isRedirHit, Option.any_eq_true]

theorem isRedirFor_iff {slot : Option RedirEntry} :
    isRedirFor path slot = true ↔ ∃ e, slot = some e ∧ e.path = path := by
  simp [isRedirFor, Option.any_eq_true]

theorem isRedirFree_eq_false {slot : Option RedirEntry} :
    isRedirFree now slot = false ↔ ∃ e, slot = some e ∧ now < e.expires := by
  cases slot <;> simp [isRedirFree]

theorem mem_of_redirLruStep {probes : List ℕ} {lru : Option (ℕ × UInt64)} {x : ℕ × UInt64}
    (h : probes.foldl (redirLruStep capacity t now path) lru = some x) :
    x.1 ∈ probes ∨ lru = some x := by
  induction probes generalizing lru with
  | nil => exact .inr h
  | cons probe probes ih =>
    obtain hmem | hstep := ih h
    · exact .inl (mem_cons_of_mem _ hmem)
    · rw [redirLruStep] at hstep
      split at hstep
      · exact .inr hstep
      · split at hstep
        · exact .inl (Option.some.inj hstep ▸ mem_cons_self)
        · exact .inr hstep

theorem redirVictim_eq_some {k : ℕ} (h : redirVictim capacity t now path = some k) :
    k < redirNprobe capacity ∧
      ∀ j < k, ∃ e, t (redirSlot capacity path j) = some e ∧ now < e.expires := by
  rw [redirVictim] at h
  cases hfree : redirProbe capacity t path (isRedirFree now) with
  | some k' =>
    rw [hfree, Option.some_or] at h
    cases h
    obtain ⟨-, hk, hbefore⟩ := redirProbe_eq_some.mp hfree
    exact ⟨hk, fun j hj => isRedirFree_eq_false.mp (hbefore j hj)⟩
  | none =>
    rw [hfree, Option.none_or, redirLru] at h
    obtain ⟨x, hx, rfl⟩ := Option.map_eq_some_iff.mp h
    obtain hmem | hnone := mem_of_redirLruStep hx
    · have hk := mem_range.mp hmem
      exact ⟨hk, fun j hj =>
        isRedirFree_eq_false.mp (redirProbe_eq_none.mp hfree j (hj.trans hk))⟩
    · cases hnone

/-! ### The invariant -/

/-- Every entry stands in the window of its own path. -/
def RedirHome (capacity : ℕ) (t : RedirTable) : Prop :=
  ∀ i e, t i = some e → ∃ k < redirNprobe capacity, i = redirSlot capacity e.path k

/-- A live entry is what the map says. -/
def RedirSays (t : RedirTable) (m : RedirMap) (now : UInt64) : Prop :=
  ∀ i e, t i = some e → now < e.expires → m e.path = some ⟨e.host, e.port, e.expires.toNat⟩

/-- No slot before a live entry holds its path. -/
def RedirFirst (capacity : ℕ) (t : RedirTable) (now : UInt64) : Prop :=
  ∀ k j e e', j < k → k < redirNprobe capacity → t (redirSlot capacity e.path k) = some e →
    now < e.expires → t (redirSlot capacity e.path j) = some e' → e'.path ≠ e.path

/-- No entry of the path is live. -/
def RedirGone (t : RedirTable) (now : UInt64) (path : Bytes) : Prop :=
  ∀ i e, t i = some e → e.path = path → ¬ now < e.expires

/-- The table against the redirects that were put in it -/
structure RedirInv (capacity : ℕ) (t : RedirTable) (m : RedirMap) (now : UInt64) : Prop where
  home : RedirHome capacity t
  mapped : RedirSays t m now
  first : RedirFirst capacity t now

theorem RedirInv.init : RedirInv capacity (fun _ => none) (fun _ => none) now where
  home _ _ h := by cases h
  mapped _ _ h := by cases h
  first _ _ _ _ _ _ h := by cases h

theorem RedirInv.later (h : RedirInv capacity t m now) {now' : UInt64} (hnow : now ≤ now') :
    RedirInv capacity t m now' where
  home := h.home
  mapped i e he hlive := h.mapped i e he (UInt64.lt_of_le_of_lt hnow hlive)
  first k j e e' hj hk he hlive := h.first k j e e' hj hk he (UInt64.lt_of_le_of_lt hnow hlive)

theorem RedirHome.gone (h : RedirHome capacity t)
    (hmiss : redirProbe capacity t path (isRedirHit now path) = none) : RedirGone t now path := by
  rintro i e he rfl hlive
  obtain ⟨k, hk, rfl⟩ := h i e he
  have hno := redirProbe_eq_none.mp hmiss k hk
  rw [isRedirHit_iff.mpr ⟨e, he, hlive, rfl⟩] at hno
  cases hno

theorem RedirInv.slot_eq (h : RedirInv capacity t m now) {i j : ℕ} {e e' : RedirEntry}
    (he : t i = some e) (he' : t j = some e') (hlive : now < e.expires) (hlive' : now < e'.expires)
    (hpath : e.path = e'.path) : i = j := by
  obtain ⟨k, hk, rfl⟩ := h.home i e he
  obtain ⟨k', hk', rfl⟩ := h.home j e' he'
  rw [hpath] at he ⊢
  rcases Nat.lt_trichotomy k k' with hlt | rfl | hgt
  · exact absurd hpath (h.first k' k e' e hlt hk' he' hlive' he)
  · rfl
  · rw [← hpath] at he he'
    exact absurd hpath.symm (h.first k k' e e' hgt hk he hlive he')

theorem RedirSays.map (h : RedirSays t m now) (hgone : RedirGone t now path)
    (v : Option Redirected) : RedirSays t (Function.update m path v) now := by
  intro i e he hlive
  rw [Function.update_of_ne fun hpath => hgone i e he hpath hlive]
  exact h i e he hlive

/-! ### Writing an entry -/

variable {k : ℕ} {entry : RedirEntry}

theorem RedirHome.update (h : RedirHome capacity t) (hk : k < redirNprobe capacity)
    (hpath : entry.path = path) :
    RedirHome capacity (Function.update t (redirSlot capacity path k) (some entry)) := by
  intro i e he
  obtain ⟨rfl, heq⟩ | ⟨-, hold⟩ := of_update_eq_some he
  · cases heq
    exact ⟨k, hk, by rw [hpath]⟩
  · exact h i e hold

theorem RedirSays.update (h : RedirSays t m now) {p : ℕ} {v : Option Redirected}
    (hpath : entry.path = path)
    (hv : now < entry.expires → v = some ⟨entry.host, entry.port, entry.expires.toNat⟩)
    (hother : ∀ i e, i ≠ p → t i = some e → e.path = path → ¬ now < e.expires) :
    RedirSays (Function.update t p (some entry)) (Function.update m path v) now := by
  intro i e he hlive
  obtain ⟨rfl, heq⟩ | ⟨hne, hold⟩ := of_update_eq_some he
  · cases heq
    rw [hpath, Function.update_self, hv hlive]
  · rw [Function.update_of_ne fun hpath => hother i e hne hold hpath hlive]
    exact h i e hold hlive

theorem RedirFirst.update (h : RedirFirst capacity t now) (hk : k < redirNprobe capacity)
    (hpath : entry.path = path)
    (hbefore : now < entry.expires →
      ∀ j < k, ∀ e, t (redirSlot capacity path j) = some e → e.path ≠ path)
    (hheld : (∃ e, t (redirSlot capacity path k) = some e ∧ e.path = path) ∨
      RedirGone t now path) :
    RedirFirst capacity (Function.update t (redirSlot capacity path k) (some entry)) now := by
  intro k' j e e' hj hk' he hlive he'
  obtain ⟨hslot, heq⟩ | ⟨hne, hold⟩ := of_update_eq_some he
  · -- the entry written: what stands before it in the window is as it was
    cases heq
    rw [hpath] at hslot he' ⊢
    obtain rfl := redirSlot_inj hk' hk hslot
    rw [Function.update_of_ne fun h => Nat.ne_of_lt hj (redirSlot_inj (hj.trans hk') hk' h)] at he'
    exact hbefore hlive j hj e' he'
  · obtain ⟨hslot, heq⟩ | ⟨-, hold'⟩ := of_update_eq_some he'
    · cases heq
      rw [hpath]
      obtain ⟨e₀, he₀, hpath₀⟩ | hgone := hheld
      · rw [← hslot] at he₀
        exact hpath₀ ▸ h k' j e e₀ hj hk' hold hlive he₀
      · exact fun hsame => hgone _ e hold hsame.symm hlive
    · exact h k' j e e' hj hk' hold hlive hold'

/-! ### Calls -/

theorem toNat_add_of_lt {now ttlMs : UInt64} (h : now < now + ttlMs) :
    (now + ttlMs).toNat = now.toNat + ttlMs.toNat := by
  have hlt := UInt64.lt_iff_toNat_lt.mp h
  have hnow := now.toNat_lt
  have httl := ttlMs.toNat_lt
  rw [UInt64.toNat_add] at hlt ⊢
  omega

/-- **An insert** is what the path means until it is over. -/
theorem RedirInv.insert (h : RedirInv capacity t m now) {host : Bytes} {port : UInt16}
    {ttlMs : UInt64} (hfits : (RedirCall.insert path host port ttlMs).Fits capacity t now) :
    RedirInv capacity (brixRedirCacheInsert capacity t now path host port ttlMs)
      (redirMeans m now (.insert path host port ttlMs)) now := by
  obtain ⟨hpath, hhost, hzero⟩ := hfits
  have hkey : path.take 255 = path := take_of_length_le (Nat.le_of_lt_succ hpath)
  have hname : host.take 127 = host := take_of_length_le (Nat.le_of_lt_succ hhost)
  have hv : now < now + ttlMs → (some ⟨host, port, now.toNat + ttlMs.toNat⟩ : Option Redirected) =
      some ⟨host, port, (now + ttlMs).toNat⟩ := fun hlt => by rw [toNat_add_of_lt hlt]
  rw [brixRedirCacheInsert, redirMeans, hkey, hname]
  split
  · next httl => exact ⟨h.home, h.mapped.map (h.home.gone (hzero httl)) _, h.first⟩
  split
  · next k hhit =>
    obtain ⟨hit, hk, -⟩ := redirProbe_eq_some.mp hhit
    obtain ⟨e, he, hlive, hsame⟩ := isRedirHit_iff.mp hit
    rw [he, Option.map_some]
    refine ⟨h.home.update hk hsame, h.mapped.update hsame hv ?_,
      h.first.update hk hsame (fun _ j hj e' he' => ?_) (.inl ⟨e, he, hsame⟩)⟩
    · exact fun i e' hne he' hpath' hlive' =>
        hne (h.slot_eq he' he hlive' hlive (hpath'.trans hsame.symm))
    · subst hsame
      exact h.first k j e e' hj hk he hlive he'
  · next hmiss =>
    have hgone := h.home.gone hmiss
    split
    · exact ⟨h.home, h.mapped.map hgone _, h.first⟩
    · next k hvictim =>
      obtain ⟨hk, hbefore⟩ := redirVictim_eq_some hvictim
      refine ⟨h.home.update hk rfl,
        h.mapped.update rfl hv fun i e _ he hpath' => hgone i e he hpath',
        h.first.update hk rfl (fun _ j hj e' he' hpath' => ?_) (.inr hgone)⟩
      obtain ⟨e, he, hlive⟩ := hbefore j hj
      obtain rfl := Option.some.inj (he.symm.trans he')
      exact hgone _ e he hpath' hlive

/-- **An invalidation** takes the path's redirect away, and no other's. -/
theorem RedirInv.invalidate (h : RedirInv capacity t m now) (path : Bytes) :
    RedirInv capacity (brixRedirCacheInvalidate capacity t now path)
      (redirMeans m now (.invalidate path)) now := by
  rw [brixRedirCacheInvalidate, redirMeans]
  have hno : ¬ now < now := UInt64.lt_irrefl now
  split
  · next hnone =>
    refine ⟨h.home, h.mapped.map (h.home.gone ?_) _, h.first⟩
    refine redirProbe_eq_none.mpr fun k hk => ?_
    have hfor := redirProbe_eq_none.mp hnone k hk
    rw [Bool.eq_false_iff, ne_eq, isRedirFor_iff] at hfor
    rw [Bool.eq_false_iff, ne_eq, isRedirHit_iff]
    exact fun ⟨e, he, _, hpath⟩ => hfor ⟨e, he, hpath⟩
  · next k hprobe =>
    obtain ⟨hfor, hk, hbefore⟩ := redirProbe_eq_some.mp hprobe
    obtain ⟨e, he, hsame⟩ := isRedirFor_iff.mp hfor
    rw [he, Option.map_some]
    refine ⟨h.home.update hk hsame,
      h.mapped.update hsame (fun hlive => absurd hlive hno) fun i e' hne he' hpath' hlive' => ?_,
      h.first.update hk hsame (fun hlive => absurd hlive hno) (.inl ⟨e, he, hsame⟩)⟩
    -- a live entry of the path elsewhere in the window: before `k`, or with `k` before it
    obtain ⟨j, hj, rfl⟩ := h.home i e' he'
    rw [hpath'] at he' hne
    rcases Nat.lt_trichotomy j k with hlt | rfl | hgt
    · have hother := hbefore j hlt
      rw [isRedirFor_iff.mpr ⟨e', he', hpath'⟩] at hother
      cases hother
    · exact hne rfl
    · rw [← hpath'] at he he'
      exact h.first j k e' e hgt hj he' hlive' he (hsame.trans hpath'.symm)

/-! ### Runs -/

theorem RedirInv.step {s s' : RedirSystem} {c : UInt64 × RedirCall}
    (h : RedirInv capacity s.table s.means s.now) (hstep : RedirFits capacity s c s') :
    RedirInv capacity s'.table s'.means s'.now := by
  obtain ⟨⟨hnow, rfl⟩, hfits⟩ := hstep
  obtain ⟨now, call⟩ := c
  have hlater := h.later hnow
  cases call with
  | insert path host port ttlMs => exact hlater.insert hfits
  | invalidate path => exact hlater.invalidate path

theorem brixRedirCacheLookup_eq_some {hostSize : ℕ} {host : Bytes} {port : UInt16}
    (h : brixRedirCacheLookup capacity t now path hostSize = some (host, port)) :
    ∃ i e, t i = some e ∧ now < e.expires ∧ e.path = path ∧ host = e.host.take (hostSize - 1) ∧
      port = e.port := by
  obtain ⟨k, hprobe, hread⟩ := Option.bind_eq_some_iff.mp h
  obtain ⟨hit, -, -⟩ := redirProbe_eq_some.mp hprobe
  obtain ⟨e, he, hlive, hpath⟩ := isRedirHit_iff.mp hit
  rw [he, Option.map_some] at hread
  obtain ⟨rfl, rfl⟩ := Prod.mk.inj (Option.some.inj hread)
  exact ⟨_, e, he, hlive, hpath, rfl, rfl⟩

theorem RedirInv.allows {s : RedirSystem} (h : RedirInv capacity s.table s.means s.now)
    (path : Bytes) (hostSize : ℕ) :
    s.Allows s.now path hostSize
      (brixRedirCacheLookup capacity s.table s.now path hostSize) := by
  intro host port hhit
  obtain ⟨i, e, he, hlive, rfl, rfl, rfl⟩ := brixRedirCacheLookup_eq_some hhit
  exact ⟨_, h.mapped i e he hlive, UInt64.lt_iff_toNat_lt.mp hlive, rfl, rfl⟩

/-- **The redirect-collapse cache.** In every run whose inserts fit, a hit is the last insert of
just that path, not expired and not invalidated since, and no path has two live entries. -/
theorem redir_cache_refines {capacity : ℕ} {calls : List (UInt64 × RedirCall)} {s : RedirSystem}
    (h : Run (RedirFits capacity) .init calls s) {now : UInt64} (hnow : s.now ≤ now) :
    (∀ path hostSize, s.Allows now path hostSize
        (brixRedirCacheLookup capacity s.table now path hostSize)) ∧
      s.OneLive capacity now := by
  have hinv : RedirInv capacity s.table s.means now :=
    (Run.invariant (I := fun s => RedirInv capacity s.table s.means s.now)
      (fun _ _ _ hs hstep => hs.step hstep) h .init).later hnow
  refine ⟨fun path hostSize => ?_, ?_⟩
  · exact RedirInv.allows (s := { s with now := now }) hinv path hostSize
  · exact fun i j e e' _ _ he he' hlive hlive' hpath => hinv.slot_eq he he' hlive hlive' hpath

/-- Two inserts of a path, and one of another, which is invalidated -/
def sampleRedirCalls : List (UInt64 × RedirCall) :=
  [(5, .insert [47, 97] [98] 1094 1000), (6, .insert [47, 97] [99] 1095 1000),
    (7, .insert [47, 100] [98] 1094 1000), (8, .invalidate [47, 100])]

def sampleRedir : RedirSystem := sampleRedirCalls.foldl (RedirSystem.after 4) .init

/-- The second insert is answered, and what was invalidated is not. -/
theorem redir_cache_refines_sample :
    brixRedirCacheLookup 4 sampleRedir.table 100 [47, 97] 256 = some ([99], 1095) ∧
      brixRedirCacheLookup 4 sampleRedir.table 100 [47, 100] 256 = none ∧
      (∀ path hostSize, sampleRedir.Allows 100 path hostSize
        (brixRedirCacheLookup 4 sampleRedir.table 100 path hostSize)) ∧
      sampleRedir.OneLive 4 100 := by
  have hrun : Run (RedirFits 4) .init sampleRedirCalls sampleRedir :=
    .cons ⟨⟨by decide, rfl⟩, by decide, by decide, fun h => (by cases h)⟩
      (.cons ⟨⟨by decide, rfl⟩, by decide, by decide, fun h => (by cases h)⟩
        (.cons ⟨⟨by decide, rfl⟩, by decide, by decide, fun h => (by cases h)⟩
          (.one ⟨⟨by decide, rfl⟩, trivial⟩)))
  exact ⟨by decide +kernel, by decide +kernel, redir_cache_refines hrun (by decide)⟩

/-- A path of 256 bytes -/
def longRedirInsert : UInt64 × RedirCall := (0, .insert (replicate 256 97) [98] 1094 1000)

set_option maxRecDepth 4096 in
/-- Cut to its field, the path is another one, for which nothing was ever inserted. -/
theorem cut_path_answers : ¬∀ (capacity : ℕ) (calls : List (UInt64 × RedirCall)) (s : RedirSystem)
    (now : UInt64), 1 ≤ capacity → Run (RedirStep capacity) .init calls s → s.now ≤ now →
      (∀ path hostSize, s.Allows now path hostSize
        (brixRedirCacheLookup capacity s.table now path hostSize)) ∧ s.OneLive capacity now := by
  intro h
  have hrun : Run (RedirStep 1) .init [longRedirInsert] (RedirSystem.init.after 1 longRedirInsert) :=
    .one ⟨by decide, rfl⟩
  have hhit : brixRedirCacheLookup 1 (RedirSystem.init.after 1 longRedirInsert).table 1
      (replicate 255 97) 256 = some ([98], 1094) := by
    decide +kernel
  obtain ⟨hallows, -⟩ := h 1 _ _ 1 (Nat.le_refl 1) hrun (by decide)
  obtain ⟨l, hl, -⟩ := hallows _ _ _ _ hhit
  have hother : replicate 255 (97 : UInt8) ≠ replicate 256 97 := fun heq => by
    have hlen := congrArg length heq
    rw [length_replicate, length_replicate] at hlen
    cases hlen
  have hnone : (RedirSystem.init.after 1 longRedirInsert).means (replicate 255 97) = none := by
    simp only [RedirSystem.after, longRedirInsert, redirMeans]
    rw [Function.update_of_ne hother, RedirSystem.init]
  rw [hnone] at hl
  cases hl

end BrixCache

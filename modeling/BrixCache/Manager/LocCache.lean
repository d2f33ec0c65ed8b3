import BrixCache.Lib.Run
import BrixCache.Core.Ascii

/-!
# The file-location cache

`net/manager/loc_cache.c`: an open-addressed table that remembers which node holds a path, or
that none does. Entries expire by the clock; an expired slot is passed over by readers and
claimed by writers. Every call runs under the zone's lock.
-/

namespace BrixCache

open Function

/-- `brix_loc_entry_t`; a slot that was never used is `none`. -/
structure LocEntry : Type where
  pathHash : UInt32
  path : Bytes
  /-- empty: no node holds the path -/
  host : Bytes
  port : ℕ
  expires : ℕ
  deriving DecidableEq

/-- The slots of `brix_loc_table_t` -/
abbrev LocTable : Type := ℕ → Option LocEntry

def brixLocCacheSlots : ℕ := 256

def brixLocCachePathMax : ℕ := 1024

/-- `ttl_ms` and `emptylife_ms`, set before the workers fork -/
structure LocConf : Type where
  ttlMs : ℕ
  emptylifeMs : ℕ

/-- FNV-1a over the path. -/
def locHash (path : Bytes) : UInt32 :=
  path.foldl (fun h b => (h ^^^ b.toUInt32) * 16777619) 2166136261

/-- The `i`-th slot that is probed for a path -/
def locSlot (path : Bytes) (i : ℕ) : ℕ := ((locHash path).toNat + i) % brixLocCacheSlots

/-- A slot is over from its expiry on. -/
def brixShmSlotExpired (now expires : ℕ) : Prop := expires ≤ now

instance (now expires : ℕ) : Decidable (brixShmSlotExpired now expires) :=
  inferInstanceAs (Decidable (_ ≤ _))

/-- The entry is the one of a path. -/
def LocEntry.For (e : LocEntry) (path : Bytes) : Prop :=
  e.pathHash = locHash path ∧ e.path = path

instance (e : LocEntry) (path : Bytes) : Decidable (e.For path) :=
  inferInstanceAs (Decidable (_ ∧ _))

/-- What `brix_loc_cache_lookup2` answers -/
inductive LocResult : Type where
  | miss
  | neg
  | hit (host : Bytes) (port : ℕ)
  deriving DecidableEq

/-- The probe of `brix_loc_cache_lookup2`, with so many slots to go -/
def locLookupFrom (t : LocTable) (now : ℕ) (path : Bytes) (hostSz : ℕ) : ℕ → ℕ → LocResult
  | 0, _ => .miss
  | fuel + 1, i =>
    match t (locSlot path i) with
    | none => .miss
    | some e =>
      if brixShmSlotExpired now e.expires then locLookupFrom t now path hostSz fuel (i + 1)
      else if e.For path then
        if e.host = [] then .neg else .hit (e.host.take (hostSz - 1)) e.port
      else locLookupFrom t now path hostSz fuel (i + 1)

def brixLocCacheLookup2 (t : LocTable) (now : ℕ) (path : Bytes) (hostSz : ℕ) : LocResult :=
  if path = [] ∨ brixLocCachePathMax ≤ path.length then .miss
  else locLookupFrom t now path hostSz brixLocCacheSlots 0

/-- The probe of `loc_insert_core`: the first slot that is free, expired, or the path's own -/
def locVictimFrom (t : LocTable) (now : ℕ) (path : Bytes) : ℕ → ℕ → Option ℕ
  | 0, _ => none
  | fuel + 1, i =>
    match t (locSlot path i) with
    | none => some i
    | some e =>
      if ¬ brixShmSlotExpired now e.expires ∧ ¬ e.For path then
        locVictimFrom t now path fuel (i + 1)
      else some i

/-- The position `loc_insert_core` writes: the home slot when every slot is live for others -/
def locVictim (t : LocTable) (now : ℕ) (path : Bytes) : ℕ :=
  (locVictimFrom t now path brixLocCacheSlots 0).getD 0

/-- Write the entry over the victim among its path's slots. -/
def locInsertCore (t : LocTable) (now : ℕ) (path host : Bytes) (port ttlMs : ℕ) : LocTable :=
  if brixLocCachePathMax ≤ path.length ∨ 256 ≤ host.length then t
  else
    update t (locSlot path (locVictim t now path))
      (some ⟨locHash path, path, host, port, now + ttlMs⟩)

def brixLocCacheInsert (conf : LocConf) (t : LocTable) (now : ℕ) (path host : Bytes)
    (port : ℕ) : LocTable :=
  if host = [] then t else locInsertCore t now path host port conf.ttlMs

/-- Remember for a while that nobody has the path. -/
def brixLocCacheInsertNegative (conf : LocConf) (t : LocTable) (now : ℕ) (path : Bytes) :
    LocTable :=
  if conf.emptylifeMs = 0 then t else locInsertCore t now path [] 0 conf.emptylifeMs

/-- The probe of `brix_loc_cache_invalidate`: the first entry for the path, expired or not -/
def locFindFrom (t : LocTable) (path : Bytes) : ℕ → ℕ → Option (ℕ × LocEntry)
  | 0, _ => none
  | fuel + 1, i =>
    match t (locSlot path i) with
    | none => none
    | some e => if e.For path then some (i, e) else locFindFrom t path fuel (i + 1)

def brixLocCacheInvalidate (t : LocTable) (now : ℕ) (path : Bytes) : LocTable :=
  if path = [] ∨ brixLocCachePathMax ≤ path.length then t
  else
    match locFindFrom t path brixLocCacheSlots 0 with
    | none => t
    | some (i, e) => update t (locSlot path i) (some { e with expires := now })

/-! ## Calls -/

/-- A call that changes the table -/
inductive LocCall : Type where
  | insert (path host : Bytes) (port : ℕ)
  | insertNegative (path : Bytes)
  | invalidate (path : Bytes)

/-- One call of the cache's interface at time `now`. -/
def locCall (conf : LocConf) (t : LocTable) (now : ℕ) : LocCall → LocTable
  | .insert path host port => brixLocCacheInsert conf t now path host port
  | .insertNegative path => brixLocCacheInsertNegative conf t now path
  | .invalidate path => brixLocCacheInvalidate t now path

/-! ## The map it stands for -/

/-- An insert: where the path is (no host: nowhere), and until when that holds -/
structure Located : Type where
  host : Bytes
  port : ℕ
  expires : ℕ

/-- A map with expiry: for each path the last insert, unless it was invalidated since -/
abbrev LocMap : Type := Bytes → Option Located

/-- What a call means. Calls the cache refuses to take — a path or a host that does not fit, a
negative entry while those are off — are no inserts. -/
def locMeans (conf : LocConf) (m : LocMap) (now : ℕ) : LocCall → LocMap
  | .insert path host port =>
    if host = [] ∨ brixLocCachePathMax ≤ path.length ∨ 256 ≤ host.length then m
    else update m path (some ⟨host, port, now + conf.ttlMs⟩)
  | .insertNegative path =>
    if conf.emptylifeMs = 0 ∨ brixLocCachePathMax ≤ path.length then m
    else update m path (some ⟨[], 0, now + conf.emptylifeMs⟩)
  | .invalidate path => update m path none

/-- An answer the map allows: a miss, or what the last insert says while it is not expired -/
def LocResult.Allowed (m : LocMap) (now : ℕ) (path : Bytes) (hostSz : ℕ) : LocResult → Prop
  | .miss => True
  | .neg => ∃ l, m path = some l ∧ now < l.expires ∧ l.host = []
  | .hit host port =>
    ∃ l, m path = some l ∧ now < l.expires ∧ l.host ≠ [] ∧ host = l.host.take (hostSz - 1) ∧
      port = l.port

/-- The cache, the map it stands for, and the clock -/
structure LocSystem : Type where
  table : LocTable
  means : LocMap
  now : ℕ

/-- Before the first call -/
def LocSystem.init : LocSystem := ⟨fun _ => none, fun _ => none, 0⟩

/-- A call at a time the clock has not passed yet -/
def LocStep (conf : LocConf) (s : LocSystem) (c : ℕ × LocCall) (s' : LocSystem) : Prop :=
  s.now ≤ c.1 ∧ s' = ⟨locCall conf s.table c.1 c.2, locMeans conf s.means c.1 c.2, c.1⟩

end BrixCache

/-!
## What the location cache answers over time

An insert that claims an expired slot before the live entry of its path leaves the path two
entries, and the older one outlives the newer.
-/

namespace BrixCache

open Function

/-! ### Probes -/

theorem locSlot_inj {path : Bytes} {i j : ℕ} (hi : i < brixLocCacheSlots)
    (hj : j < brixLocCacheSlots) (h : locSlot path i = locSlot path j) : i = j := by
  simp only [locSlot, brixLocCacheSlots] at *
  omega

/-- The live entry of a path, and where it is -/
structure LiveAt (t : LocTable) (now : ℕ) (path : Bytes) (k : ℕ) (e : LocEntry) : Prop where
  slot : t (locSlot path k) = some e
  isFor : e.For path
  live : now < e.expires

variable {t : LocTable} {e : LocEntry}

theorem locLookupFrom_spec {now : ℕ} {path : Bytes} {hostSz fuel i : ℕ} :
    locLookupFrom t now path hostSz fuel i = .miss ∨
      ∃ k e, k < i + fuel ∧ LiveAt t now path k e ∧
        locLookupFrom t now path hostSz fuel i =
          if e.host = [] then .neg else .hit (e.host.take (hostSz - 1)) e.port := by
  induction fuel generalizing i with
  | zero => exact .inl rfl
  | succ fuel ih =>
    have hnext := ih (i := i + 1)
    rw [Nat.add_right_comm, Nat.add_assoc] at hnext
    rw [locLookupFrom]
    split
    · exact .inl rfl
    · next e he =>
      split
      · exact hnext
      · next hlive =>
        split
        · next hfor =>
          exact .inr ⟨i, e, Nat.lt_add_of_pos_right (Nat.succ_pos _),
            ⟨he, hfor, Nat.lt_of_not_le hlive⟩, rfl⟩
        · exact hnext

/-- The victim is the first slot of the path's order that is free, over or its own. -/
theorem locVictimFrom_spec {now : ℕ} {path : Bytes} {fuel i : ℕ} :
    match locVictimFrom t now path fuel i with
    | none => ∀ j, i ≤ j → j < i + fuel →
        ∃ e, t (locSlot path j) = some e ∧ now < e.expires ∧ ¬ e.For path
    | some k => k < i + fuel ∧
        (∀ j, i ≤ j → j < k → ∃ e, t (locSlot path j) = some e ∧ now < e.expires ∧ ¬ e.For path) ∧
        ∀ e, t (locSlot path k) = some e → now < e.expires → e.For path := by
  induction fuel generalizing i with
  | zero => exact fun j hij hj => absurd hj (Nat.not_lt.mpr hij)
  | succ fuel ih =>
    have hlt : i < i + (fuel + 1) := Nat.lt_add_of_pos_right (Nat.succ_pos _)
    rw [locVictimFrom]
    cases he : t (locSlot path i) with
    | none =>
      refine ⟨hlt, fun j hij hj => absurd hj (Nat.not_lt.mpr hij), fun e h => ?_⟩
      rw [he] at h
      cases h
    | some e =>
      by_cases hpass : ¬ brixShmSlotExpired now e.expires ∧ ¬ e.For path
      · simp only [hpass, not_false_eq_true, and_self, if_true]
        have hnext := ih (i := i + 1)
        rw [Nat.add_right_comm, Nat.add_assoc] at hnext
        have hhere : ∃ e, t (locSlot path i) = some e ∧ now < e.expires ∧ ¬ e.For path :=
          ⟨e, he, Nat.lt_of_not_le hpass.1, hpass.2⟩
        split at hnext
        · intro j hij hj
          rcases Nat.eq_or_lt_of_le hij with rfl | hlt
          · exact hhere
          · exact hnext j hlt hj
        · refine ⟨hnext.1, fun j hij hj => ?_, hnext.2.2⟩
          rcases Nat.eq_or_lt_of_le hij with rfl | hlt
          · exact hhere
          · exact hnext.2.1 j hlt hj
      · simp only [hpass, if_false]
        refine ⟨hlt, fun j hij hj => absurd hj (Nat.not_lt.mpr hij), fun e' h hlive => ?_⟩
        obtain rfl : e = e' := Option.some.inj (he.symm.trans h)
        by_contra hfor
        exact hpass ⟨Nat.not_le.mpr hlive, hfor⟩

/-- Where a writer writes: before that the chain is live for other paths, and what is there is
expired or the path's own — or the whole chain is live for others. -/
theorem locVictim_spec (t : LocTable) (now : ℕ) (path : Bytes) :
    locVictim t now path < brixLocCacheSlots ∧
      (∀ j < locVictim t now path,
        ∃ e, t (locSlot path j) = some e ∧ now < e.expires ∧ ¬ e.For path) ∧
      ((∀ e, t (locSlot path (locVictim t now path)) = some e → now < e.expires → e.For path) ∨
        ∀ j < brixLocCacheSlots,
          ∃ e, t (locSlot path j) = some e ∧ now < e.expires ∧ ¬ e.For path) := by
  have hspec := @locVictimFrom_spec t now path brixLocCacheSlots 0
  rw [Nat.zero_add] at hspec
  unfold locVictim
  split at hspec
  · next hnone =>
    rw [hnone]
    exact ⟨by decide, nofun, .inr fun j hj => hspec j (Nat.zero_le j) hj⟩
  · next k hk =>
    rw [hk]
    exact ⟨hspec.1, fun j hj => hspec.2.1 j (Nat.zero_le j) hj, .inl hspec.2.2⟩

/-- A find stops at the path's entry, or at a slot that was never used. -/
theorem locFindFrom_spec {path : Bytes} {fuel i : ℕ} :
    match locFindFrom t path fuel i with
    | none => ∀ k e, i ≤ k → k < i + fuel → t (locSlot path k) = some e → e.For path →
        ∃ j, i ≤ j ∧ j < k ∧ t (locSlot path j) = none
    | some (k, e) => k < i + fuel ∧ t (locSlot path k) = some e ∧ e.For path ∧
        ∀ j, i ≤ j → j < k → ∀ e', t (locSlot path j) = some e' → ¬ e'.For path := by
  induction fuel generalizing i with
  | zero => exact fun k e hik hk => absurd hk (Nat.not_lt.mpr hik)
  | succ fuel ih =>
    have hlt : i < i + (fuel + 1) := Nat.lt_add_of_pos_right (Nat.succ_pos _)
    rw [locFindFrom]
    cases he : t (locSlot path i) with
    | none =>
      intro k e hik _ hk _
      refine ⟨i, Nat.le_refl i, Nat.lt_of_le_of_ne hik ?_, he⟩
      rintro rfl
      rw [he] at hk
      cases hk
    | some e =>
      by_cases hfor : e.For path
      · simp only [hfor, if_true]
        exact ⟨hlt, he, trivial, fun j hij hj => absurd hj (Nat.not_lt.mpr hij)⟩
      · simp only [hfor, if_false]
        have hnext := ih (i := i + 1)
        rw [Nat.add_right_comm, Nat.add_assoc] at hnext
        split at hnext
        · intro k e' hik hk hk' hfor'
          rcases Nat.eq_or_lt_of_le hik with rfl | hlt
          · obtain rfl : e = e' := Option.some.inj (he.symm.trans hk')
            exact absurd hfor' hfor
          · obtain ⟨j, hij, hjk, hj⟩ := hnext k e' hlt hk hk' hfor'
            exact ⟨j, Nat.le_of_succ_le hij, hjk, hj⟩
        · refine ⟨hnext.1, hnext.2.1, hnext.2.2.1, fun j hij hj e' he' => ?_⟩
          rcases Nat.eq_or_lt_of_le hij with rfl | hlt
          · obtain rfl : e = e' := Option.some.inj (he.symm.trans he')
            exact hfor
          · exact hnext.2.2.2 j hlt hj e' he'

/-! ### The invariant -/

/-- A live entry is what the map says, and the chain before it is in use for other paths. -/
structure LocInv (s : LocSystem) : Prop where
  means : ∀ path k e, path ≠ [] → path.length < brixLocCachePathMax → k < brixLocCacheSlots →
    LiveAt s.table s.now path k e → s.means path = some ⟨e.host, e.port, e.expires⟩
  first : ∀ path k e, k < brixLocCacheSlots → LiveAt s.table s.now path k e →
    ∀ j < k, ∃ e', s.table (locSlot path j) = some e' ∧ ¬ e'.For path

theorem LocInv.later {s : LocSystem} (h : LocInv s) {now : ℕ} (hnow : s.now ≤ now) :
    LocInv { s with now := now } where
  means path k e hne hlen hk hlive :=
    h.means path k e hne hlen hk ⟨hlive.slot, hlive.isFor, Nat.lt_of_le_of_lt hnow hlive.live⟩
  first path k e hk hlive :=
    h.first path k e hk ⟨hlive.slot, hlive.isFor, Nat.lt_of_le_of_lt hnow hlive.live⟩

/-- An expired slot stands before the path's live entry on its chain. -/
def Overtakes (t : LocTable) (now : ℕ) (path : Bytes) : Prop :=
  ∃ j k e e', j < k ∧ k < brixLocCacheSlots ∧ t (locSlot path j) = some e' ∧
    brixShmSlotExpired now e'.expires ∧ LiveAt t now path k e

theorem locVictim_unique {s : LocSystem} (h : LocInv s) {path : Bytes}
    (hclean : ¬ Overtakes s.table s.now path) {k : ℕ}
    (hk : k < brixLocCacheSlots) (hlive : LiveAt s.table s.now path k e) :
    k = locVictim s.table s.now path := by
  obtain ⟨-, hbefore, hat | hall⟩ := locVictim_spec s.table s.now path
  · rcases Nat.lt_trichotomy k (locVictim s.table s.now path) with hlt | heq | hgt
    · obtain ⟨e', he', -, hnot⟩ := hbefore k hlt
      obtain rfl : e = e' := Option.some.inj (hlive.slot.symm.trans he')
      exact absurd hlive.isFor hnot
    · exact heq
    · -- the claimed slot is in use for another path, so it was claimed because it is expired
      obtain ⟨e', he', hnot⟩ := h.first path k e hk hlive _ hgt
      refine absurd ⟨_, k, e, e', hgt, hk, he', ?_, hlive⟩ hclean
      by_contra hexp
      exact hnot (hat e' he' (Nat.lt_of_not_le hexp))
  · obtain ⟨e', he', -, hnot⟩ := hall k hk
    obtain rfl : e = e' := Option.some.inj (hlive.slot.symm.trans he')
    exact absurd hlive.isFor hnot

/-- An insert that overtakes no live entry of its path -/
theorem LocInv.insertCore {s : LocSystem} (h : LocInv s) {path : Bytes} (host : Bytes)
    (port ttlMs : ℕ) (hlen : path.length < brixLocCachePathMax) (hhost : host.length < 256)
    (hclean : ¬ Overtakes s.table s.now path) :
    LocInv
      { s with
        table := locInsertCore s.table s.now path host port ttlMs
        means := update s.means path (some ⟨host, port, s.now + ttlMs⟩) } := by
  have htable : locInsertCore s.table s.now path host port ttlMs =
      update s.table (locSlot path (locVictim s.table s.now path))
        (some ⟨locHash path, path, host, port, s.now + ttlMs⟩) := by
    rw [locInsertCore, if_neg (by omega)]
  have hvictim := locVictim_spec s.table s.now path
  rw [htable]
  constructor
  · intro path' k e hne hlen' hk ⟨hslot, hfor, hlive⟩
    rcases of_update_eq_some hslot with ⟨_, he⟩ | ⟨hother, he⟩
    · cases he
      obtain rfl : path = path' := hfor.2
      exact update_self ..
    · by_cases hpath : path' = path
      · subst hpath
        obtain rfl := locVictim_unique h hclean hk ⟨he, hfor, hlive⟩
        exact absurd rfl hother
      · exact (update_of_ne hpath _ _).trans
          (h.means path' k e hne hlen' hk ⟨he, hfor, hlive⟩)
  · intro path' k e hk ⟨hslot, hfor, hlive⟩ j hj
    rcases of_update_eq_some hslot with ⟨hsame, he⟩ | ⟨hother, he⟩
    · cases he
      obtain rfl : path = path' := hfor.2
      obtain rfl := locSlot_inj hk hvictim.1 hsame
      obtain ⟨e', he', -, hnot⟩ := hvictim.2.1 j hj
      refine ⟨e', ?_, hnot⟩
      dsimp only
      rw [update_of_ne, he']
      exact fun h => Nat.ne_of_lt hj (locSlot_inj (Nat.lt_trans hj hk) hk h)
    · by_cases hpath : path' = path
      · subst hpath
        obtain rfl := locVictim_unique h hclean hk ⟨he, hfor, hlive⟩
        exact absurd rfl hother
      · obtain ⟨e', he', hnot⟩ := h.first path' k e hk ⟨he, hfor, hlive⟩ j hj
        by_cases hclaimed : locSlot path' j = locSlot path (locVictim s.table s.now path)
        · exact ⟨_, by dsimp only; rw [hclaimed, update_self],
            fun hf => hpath hf.2.symm⟩
        · exact ⟨e', by dsimp only; rw [update_of_ne hclaimed, he'], hnot⟩

theorem brixLocCacheInvalidate_cases (t : LocTable) (now : ℕ) (path : Bytes) :
    (brixLocCacheInvalidate t now path = t ∧
      (path ≠ [] → path.length < brixLocCachePathMax → ∀ k e, k < brixLocCacheSlots →
        t (locSlot path k) = some e → e.For path → ∃ j < k, t (locSlot path j) = none)) ∨
      ∃ i e, brixLocCacheInvalidate t now path =
          update t (locSlot path i) (some { e with expires := now }) ∧
        t (locSlot path i) = some e ∧ e.For path ∧
        ∀ j < i, ∀ e', t (locSlot path j) = some e' → ¬ e'.For path := by
  have hfind := @locFindFrom_spec t path brixLocCacheSlots 0
  rw [Nat.zero_add] at hfind
  unfold brixLocCacheInvalidate
  split
  · next hguard =>
    refine .inl ⟨rfl, fun hne hlen => ?_⟩
    rcases hguard with hnil | hlong
    · exact absurd hnil hne
    · exact absurd hlen (Nat.not_lt.mpr hlong)
  · cases hfound : locFindFrom t path brixLocCacheSlots 0 with
    | none =>
      rw [hfound] at hfind
      refine .inl ⟨rfl, fun _ _ k e hk he hfor => ?_⟩
      obtain ⟨j, -, hj⟩ := hfind k e (Nat.zero_le k) hk he hfor
      exact ⟨j, hj⟩
    | some found =>
      obtain ⟨i, e⟩ := found
      rw [hfound] at hfind
      exact .inr ⟨i, e, rfl, hfind.2.1, hfind.2.2.1,
        fun j hj => hfind.2.2.2 j (Nat.zero_le j) hj⟩

theorem LiveAt.of_invalidate {now : ℕ} {path path' : Bytes} {k : ℕ}
    (h : LiveAt (brixLocCacheInvalidate t now path) now path' k e) :
    LiveAt t now path' k e := by
  rcases brixLocCacheInvalidate_cases t now path with ⟨heq, -⟩ | ⟨i, e₀, heq, -⟩
  · rwa [heq] at h
  · obtain ⟨hslot, hfor, hlive⟩ := h
    rw [heq] at hslot
    rcases of_update_eq_some hslot with ⟨-, he⟩ | ⟨-, he⟩
    · cases he
      exact absurd hlive (Nat.lt_irrefl now)
    · exact ⟨he, hfor, hlive⟩

theorem brixLocCacheInvalidate_inUse {now : ℕ} {path : Bytes} {n : ℕ} (h : t n = some e) :
    ∃ e', brixLocCacheInvalidate t now path n = some e' ∧ ∀ p, e'.For p ↔ e.For p := by
  rcases brixLocCacheInvalidate_cases t now path with ⟨heq, -⟩ | ⟨i, e₀, heq, he₀, -⟩
  · exact ⟨e, by rw [heq, h], fun _ => Iff.rfl⟩
  · by_cases hn : n = locSlot path i
    · subst hn
      obtain rfl := Option.some.inj (he₀.symm.trans h)
      exact ⟨{ e₀ with expires := now }, by rw [heq, update_self], fun _ => Iff.rfl⟩
    · exact ⟨e, by rw [heq, update_of_ne hn, h], fun _ => Iff.rfl⟩

theorem brixLocCacheInvalidate_gone {s : LocSystem} (h : LocInv s) {path : Bytes}
    (hne : path ≠ []) (hlen : path.length < brixLocCachePathMax) {k : ℕ}
    (hk : k < brixLocCacheSlots) :
    ¬ LiveAt (brixLocCacheInvalidate s.table s.now path) s.now path k e := by
  intro hnew
  have hold := hnew.of_invalidate
  have hfirst := h.first path k e hk hold
  rcases brixLocCacheInvalidate_cases s.table s.now path with
    ⟨-, hnone⟩ | ⟨i, e₀, heq, he₀, hfor, hleast⟩
  · obtain ⟨j, hj, hfree⟩ := hnone hne hlen k e hk hold.slot hold.isFor
    obtain ⟨e', he', -⟩ := hfirst j hj
    rw [hfree] at he'
    cases he'
  · -- the first entry for the path is the live one
    rcases Nat.lt_trichotomy i k with hlt | rfl | hgt
    · obtain ⟨e', he', hnot⟩ := hfirst i hlt
      obtain rfl : e₀ = e' := Option.some.inj (he₀.symm.trans he')
      exact hnot hfor
    · have hslot := hnew.slot
      rw [heq, update_self] at hslot
      cases hslot
      exact Nat.lt_irrefl s.now hnew.live
    · exact hleast k hgt e hold.slot hold.isFor

theorem LocInv.invalidate {s : LocSystem} (h : LocInv s) (path : Bytes) :
    LocInv
      { s with
        table := brixLocCacheInvalidate s.table s.now path
        means := update s.means path none } where
  means path' k e hne hlen hk hlive := by
    by_cases hpath : path' = path
    · subst hpath
      exact absurd hlive (brixLocCacheInvalidate_gone h hne hlen hk)
    · exact (update_of_ne hpath _ _).trans
        (h.means path' k e hne hlen hk hlive.of_invalidate)
  first path' k e hk hlive j hj := by
    obtain ⟨e', he', hnot⟩ := h.first path' k e hk hlive.of_invalidate j hj
    obtain ⟨e'', he'', hfor⟩ := brixLocCacheInvalidate_inUse he'
    exact ⟨e'', he'', fun hf => hnot ((hfor path').mp hf)⟩

/-! ### Runs -/

/-- The path a call inserts under, if it gets as far. -/
def LocCall.inserts (conf : LocConf) : LocCall → Option Bytes
  | .insert path host _ =>
    if host = [] ∨ brixLocCachePathMax ≤ path.length ∨ 256 ≤ host.length then none else some path
  | .insertNegative path =>
    if conf.emptylifeMs = 0 ∨ brixLocCachePathMax ≤ path.length then none else some path
  | .invalidate _ => none

/-- A call that inserts no path past an expired slot before the path's live entry -/
def CleanStep (conf : LocConf) (s : LocSystem) (c : ℕ × LocCall) (s' : LocSystem) : Prop :=
  LocStep conf s c s' ∧ ∀ path, c.2.inserts conf = some path → ¬ Overtakes s.table c.1 path

theorem LocInv.init : LocInv .init where
  means _ _ _ _ _ _ h := nomatch h.slot
  first _ _ _ _ h := nomatch h.slot

/-- **One call** that meets the condition keeps the invariant. -/
theorem LocInv.step {conf : LocConf} {s s' : LocSystem} {c : ℕ × LocCall} (h : LocInv s)
    (hstep : CleanStep conf s c s') : LocInv s' := by
  obtain ⟨⟨hnow, rfl⟩, hclean⟩ := hstep
  obtain ⟨now, call⟩ := c
  have hlater := h.later hnow
  cases call with
  | insert path host port =>
    by_cases hrefused : host = [] ∨ brixLocCachePathMax ≤ path.length ∨ 256 ≤ host.length
    · have htable : brixLocCacheInsert conf s.table now path host port = s.table := by
        rw [brixLocCacheInsert]
        split
        · rfl
        · next hhost => rw [locInsertCore, if_pos (hrefused.resolve_left hhost)]
      simpa only [locCall, locMeans, htable, if_pos hrefused] using hlater
    · have haccept := not_or.mp hrefused
      have hfit := not_or.mp haccept.2
      have hinsert := hlater.insertCore host port conf.ttlMs
        (Nat.lt_of_not_le hfit.1) (Nat.lt_of_not_le hfit.2) (hclean path (if_neg hrefused))
      simpa only [locCall, locMeans, brixLocCacheInsert, if_neg hrefused, if_neg haccept.1]
        using hinsert
  | insertNegative path =>
    by_cases hrefused : conf.emptylifeMs = 0 ∨ brixLocCachePathMax ≤ path.length
    · have htable : brixLocCacheInsertNegative conf s.table now path = s.table := by
        rw [brixLocCacheInsertNegative]
        split
        · rfl
        · next hlife => rw [locInsertCore, if_pos (.inl (hrefused.resolve_left hlife))]
      simpa only [locCall, locMeans, htable, if_pos hrefused] using hlater
    · have haccept := not_or.mp hrefused
      have hinsert := hlater.insertCore [] 0 conf.emptylifeMs
        (Nat.lt_of_not_le haccept.2) (by decide) (hclean path (if_neg hrefused))
      simpa only [locCall, locMeans, brixLocCacheInsertNegative, if_neg hrefused,
        if_neg haccept.1] using hinsert
  | invalidate path => exact hlater.invalidate path

theorem LocInv.allowed {s : LocSystem} (h : LocInv s) (path : Bytes) (hostSz : ℕ) :
    (brixLocCacheLookup2 s.table s.now path hostSz).Allowed s.means s.now path hostSz := by
  unfold brixLocCacheLookup2
  split
  · exact trivial
  · next hguard =>
    obtain ⟨hne, hlen⟩ := not_or.mp hguard
    rcases @locLookupFrom_spec s.table s.now path hostSz brixLocCacheSlots 0 with
      hmiss | ⟨k, e, hk, hlive, hres⟩
    · rw [hmiss]
      exact trivial
    · rw [Nat.zero_add] at hk
      have hmeans := h.means path k e hne (Nat.lt_of_not_le hlen) hk hlive
      rw [hres]
      split
      · next hneg => exact ⟨_, hmeans, hlive.live, hneg⟩
      · next hhit => exact ⟨_, hmeans, hlive.live, hhit, rfl, rfl⟩

/-- Every answer after a run is one that the map with expiry allows: the last insert for the
path, while it is not expired and not invalidated, or a miss. -/
theorem loc_cache_refines {conf : LocConf} {calls : List (ℕ × LocCall)} {s : LocSystem}
    (hrun : Run (CleanStep conf) .init calls s) {now : ℕ} (hnow : s.now ≤ now)
    (path : Bytes) (hostSz : ℕ) :
    (brixLocCacheLookup2 s.table now path hostSz).Allowed s.means now path hostSz := by
  have hinv : LocInv s := hrun.invariant (fun _ _ _ h hstep => h.step hstep) .init
  exact (hinv.later hnow).allowed path hostSz

/-- The default lifetime, and no negative entries -/
def sampleLocConf : LocConf := ⟨30000, 0⟩

def locStates (conf : LocConf) (s : LocSystem) : List (ℕ × LocCall) → LocSystem
  | [] => s
  | c :: calls =>
    locStates conf ⟨locCall conf s.table c.1 c.2, locMeans conf s.means c.1 c.2, c.1⟩ calls

/-- `/aa` and `/fd` have the same home slot. -/
def sampleLocAa : Bytes := [47, 97, 97]

def sampleLocFd : Bytes := [47, 102, 100]

theorem locStates_run {conf : LocConf} {s : LocSystem} {calls : List (ℕ × LocCall)}
    (h : List.IsChain (· ≤ ·) (s.now :: calls.map Prod.fst)) :
    Run (LocStep conf) s calls (locStates conf s calls) := by
  induction calls generalizing s with
  | nil => exact .nil s
  | cons c calls ih =>
    obtain ⟨hle, hrest⟩ := List.isChain_cons_cons.mp h
    exact .cons ⟨hle, rfl⟩ (ih hrest)

/-- An insert is seen until its lifetime is over. -/
theorem loc_cache_refines_sample :
    (brixLocCacheLookup2
        (locStates sampleLocConf .init [(5, .insert sampleLocAa [98] 1094)]).table
        100 sampleLocAa 256 = .hit [98] 1094) ∧
      (LocResult.hit [98] 1094).Allowed
        (locStates sampleLocConf .init [(5, .insert sampleLocAa [98] 1094)]).means
        100 sampleLocAa 256 := by
  have hseen : brixLocCacheLookup2
      (locStates sampleLocConf .init [(5, .insert sampleLocAa [98] 1094)]).table
      100 sampleLocAa 256 = .hit [98] 1094 := by
    decide +kernel
  have hclean : Run (CleanStep sampleLocConf) .init [(5, .insert sampleLocAa [98] 1094)]
      (locStates sampleLocConf .init [(5, .insert sampleLocAa [98] 1094)]) := by
    refine .one ⟨⟨Nat.zero_le 5, rfl⟩, ?_⟩
    rintro path - ⟨_, _, _, _, _, _, hslot, -⟩
    cases hslot
  refine ⟨hseen, ?_⟩
  rw [← hseen]
  exact loc_cache_refines hclean (by decide) sampleLocAa 256

/-- `/fd` is inserted behind `/aa`, then again in the slot of `/aa` once that is expired. Its
invalidation expires the second entry, and the first is seen again. -/
theorem superseded_seen_again : ¬ ∀ (conf : LocConf) (calls : List (ℕ × LocCall)) (s : LocSystem),
    Run (LocStep conf) .init calls s → ∀ (now : ℕ) (path : Bytes) (hostSz : ℕ), s.now ≤ now →
      (brixLocCacheLookup2 s.table now path hostSz).Allowed s.means now path hostSz := by
  intro h
  have hrun := @locStates_run sampleLocConf .init
    [(0, .insert sampleLocAa [97] 1), (10, .insert sampleLocFd [98] 2),
      (30000, .insert sampleLocFd [99] 3), (30001, .invalidate sampleLocFd)] (by decide)
  have hallowed := h _ _ _ hrun 30002 sampleLocFd 256 (by decide)
  have hseen : brixLocCacheLookup2
      (locStates sampleLocConf .init
        [(0, .insert sampleLocAa [97] 1), (10, .insert sampleLocFd [98] 2),
          (30000, .insert sampleLocFd [99] 3), (30001, .invalidate sampleLocFd)]).table
      30002 sampleLocFd 256 = .hit [98] 2 := by
    decide +kernel
  rw [hseen] at hallowed
  obtain ⟨l, hl, -⟩ := hallowed
  cases hl

end BrixCache

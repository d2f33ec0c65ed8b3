import BrixCache.Lib.Mru
import BrixCache.Cache.HeaderStore
import BrixCache.SdCache.Partial

/-!
# Hits

The read-open's first half: `brix_cstore_cinfo_load` and `brix_cstore_cinfo_store`
of `fs/cache/cstore.c` over the worker's header cache `fs/cache/cinfo_l1.c`, the
hit decision of `cache_open_serve_hit` and the header a whole-file fill records,
`cache_fill_commit`.
-/

namespace BrixCache

open List

/-! ## The header cache -/

/-- `brix_cinfo_l1_t`: the entries, the most recently used first, and their
bound. -/
structure CinfoL1 (K : Type) : Type where
  entries : List (K × Cinfo)
  max : ℕ

/-- `brix_cinfo_l1_create`; a bound of zero is the default one. -/
def cinfoL1Create (K : Type) (maxEntries : ℕ) : CinfoL1 K :=
  ⟨[], if maxEntries = 0 then 4096 else maxEntries⟩

section

variable {K : Type} [DecidableEq K]

/-- The header a lookup would answer. -/
def CinfoL1.find (l1 : CinfoL1 K) (key : K) : Option Cinfo := Mru.find l1.entries key

def cinfoL1Get (l1 : CinfoL1 K) (key : K) : Option Cinfo × CinfoL1 K :=
  match Mru.get l1.entries key with
  | (r, entries) => (r, { l1 with entries := entries })

/-- `brix_cinfo_l1_put` that finds the memory. -/
def cinfoL1Put (l1 : CinfoL1 K) (key : K) (hdr : Cinfo) : CinfoL1 K :=
  { l1 with entries := Mru.put l1.max l1.entries key hdr }

def cinfoL1Drop (l1 : CinfoL1 K) (key : K) : CinfoL1 K :=
  { l1 with entries := Mru.drop l1.entries key }

/-! ## Load and store -/

/-- `brix_cstore_cinfo_load`: from the header cache, else from the record. -/
def cstoreCinfoLoad (l1 : CinfoL1 K) (key : K) (rec : Option Xmeta) :
    Except NgxRc Cinfo × CinfoL1 K :=
  match cinfoL1Get l1 key with
  | (some ci, l1') => (.ok ci, l1')
  | (none, l1') =>
    match cinfoLoad rec with
    | .ok (ci, _) => (.ok ci, cinfoL1Put l1' key ci)
    | .error e => (.error e, l1')

/-- `brix_cstore_cinfo_store` at time `now`: the record and the header cache
afterwards. -/
def cstoreCinfoStore (now : Int64) (save : RecordSave) (l1 : CinfoL1 K) (key : K)
    (rec : Option Xmeta) (ci : Cinfo) : Option Xmeta × CinfoL1 K :=
  match cinfoToXmeta now ci (cstoreReadBitmap rec ci) with
  | .error _ => (rec, l1)
  | .ok m =>
    match save with
    | .saved => (cinfoWrite m, cinfoL1Put l1 key ci)
    | .kept => (rec, l1)
    | .unreadable => (none, l1)

end

/-! ## The hit decision -/

/-- `cache_open_serve_hit` on a loaded header, at time `now`: a complete entry,
unless it was never verified and the policy's window for those is over. -/
def cacheHitUsable (uvkeep now : Int64) (ci : Cinfo) : Bool :=
  ci.flags.complete &&
    !(decide (0 < uvkeep) && !ci.flags.verified && decide (ci.filledAt ≠ 0) &&
      decide (ci.filledAt + uvkeep.toUInt64 ≤ now.toUInt64))

/-! ## The header of a fill -/

/-- The source's `stat` as a fill snapshots it. -/
structure SourceSnap : Type where
  /-- `0` when unknown -/
  size : ℕ
  mtime : Int64
  mode : UInt32

/-- What the verify phase leaves behind. -/
structure FillVerify : Type where
  verified : Bool
  cksAlg : List UInt8
  cksHex : List UInt8

/-- `cache_fill_commit`: the header of a whole-file fill of `off` bytes. A
manifest's expires, `ttl` seconds from now. -/
def cacheFillCinfo (now : Int64) (snap : SourceSnap) (off : ℕ) (fv : FillVerify) (ttl : Int64)
    (manifest : Bool) : Cinfo :=
  let proven := fv.verified ∧ fv.cksAlg ≠ [] ∧ fv.cksHex ≠ []
  let ci : Cinfo :=
    { cinfoInit ⟨UInt64.ofNat off, cacheDirtyBlock, snap.mtime.toUInt64⟩ with
      mode := snap.mode &&& 0o777
      flags := { complete := true, someBlocks := false, verified := fv.verified, dirty := false,
                 expires := false }
      filledAt := now.toUInt64
      cksAlg := if proven then fv.cksAlg.take 15 else []
      cksHex := if proven then fv.cksHex.take 128 else [] }
  if 0 < ttl ∧ manifest then cinfoSetExpires ci (ci.filledAt + ttl.toUInt64) else ci

/-! ## What they answer -/

theorem cacheHitUsable_complete {uvkeep now : Int64} {ci : Cinfo}
    (h : cacheHitUsable uvkeep now ci = true) : ci.flags.complete = true := by
  rw [cacheHitUsable, Bool.and_eq_true] at h
  exact h.1

theorem cacheFillCinfo_geometry (now : Int64) (snap : SourceSnap) (off : ℕ) (fv : FillVerify)
    (ttl : Int64) (manifest : Bool) :
    (cacheFillCinfo now snap off fv ttl manifest).size = UInt64.ofNat off ∧
      (cacheFillCinfo now snap off fv ttl manifest).blockSize = cacheDirtyBlock ∧
      (cacheFillCinfo now snap off fv ttl manifest).nblocks =
        cinfoNblocks (UInt64.ofNat off) cacheDirtyBlock := by
  rw [cacheFillCinfo]
  dsimp only
  split <;> exact ⟨rfl, rfl, rfl⟩

theorem cinfoFromXmeta_complete_iff (m : Xmeta) :
    (cinfoFromXmeta m).flags.complete = true ↔
      ∀ b, b < m.nblocks.toNat → Bitmap.test m.bitmap b = true := by
  have hflags : (cinfoFromXmeta m).flags.complete =
      (cinfoRefreshFlags
        { complete := false, someBlocks := false,
          verified := decide (m.stateFlags &&& xmetaFVerified ≠ 0),
          dirty := decide (m.dirtyLo < m.dirtyHi),
          expires := decide (m.stateFlags &&& xmetaFExpires ≠ 0) }
        m.bitmap m.nblocks.toNat).complete := rfl
  rw [hflags, cinfoRefreshFlags]
  by_cases hz : m.nblocks.toNat = 0
  · rw [if_pos hz, hz]
    exact ⟨fun _ b hb => absurd hb (Nat.not_lt_zero b), fun _ => rfl⟩
  · rw [if_neg hz]
    have hcount : cinfoPresentCount m.bitmap m.nblocks.toNat = m.nblocks.toNat ↔
        ∀ b, b < m.nblocks.toNat → Bitmap.test m.bitmap b = true := by
      have hlen := countP_eq_length (p := Bitmap.test m.bitmap)
        (l := range m.nblocks.toNat)
      rw [length_range] at hlen
      rw [cinfoPresentCount, hlen]
      exact ⟨fun h b hb => h b (mem_range.mpr hb), fun h b hb => h b (mem_range.mp hb)⟩
    by_cases hfull : cinfoPresentCount m.bitmap m.nblocks.toNat = m.nblocks.toNat
    · simp only [if_pos hfull]
      exact ⟨fun _ => hcount.mp hfull, fun _ => trivial⟩
    · simp only [if_neg hfull]
      exact ⟨(fun h => by cases h), fun h => absurd (hcount.mpr h) hfull⟩

section

variable {K : Type} [DecidableEq K] {l1 : CinfoL1 K} {key k : K} {rec : Option Xmeta}
  {ci hdr : Cinfo}

theorem find_cinfoL1Get (l1 : CinfoL1 K) (key k : K) :
    (cinfoL1Get l1 key).2.find k = l1.find k := Mru.find_get _ _ _

theorem cinfoL1Get_fst (l1 : CinfoL1 K) (key : K) : (cinfoL1Get l1 key).1 = l1.find key :=
  Mru.get_fst _ _

theorem of_find_cinfoL1Put (h : (cinfoL1Put l1 key hdr).find k = some ci) :
    (k = key ∧ ci = hdr) ∨ (k ≠ key ∧ l1.find k = some ci) := Mru.of_find_put h

theorem of_find_cinfoL1Drop (h : (cinfoL1Drop l1 key).find k = some ci) :
    k ≠ key ∧ l1.find k = some ci := Mru.of_find_drop h

theorem cinfoLoad_eq_ok {bits : Option (List UInt8)} (h : cinfoLoad rec = .ok (ci, bits)) :
    ∃ m, rec = some m ∧ ci = cinfoFromXmeta m := by
  cases rec with
  | none => cases h
  | some m =>
    obtain ⟨h₁, -⟩ := Prod.mk.inj (Except.ok.inj h)
    exact ⟨m, rfl, h₁.symm⟩

theorem cstoreCinfoLoad_eq_ok (h : (cstoreCinfoLoad l1 key rec).1 = .ok ci) :
    l1.find key = some ci ∨
      (l1.find key = none ∧ ∃ m, rec = some m ∧ ci = cinfoFromXmeta m) := by
  rw [cstoreCinfoLoad] at h
  have hget := cinfoL1Get_fst l1 key
  generalize cinfoL1Get l1 key = r at h hget
  obtain ⟨r, l1'⟩ := r
  obtain rfl : r = l1.find key := hget
  rcases hf : l1.find key with _ | x
  · simp only [hf] at h
    rcases hload : cinfoLoad rec with e | ⟨y, bits⟩
    · simp only [hload] at h
      cases h
    · simp only [hload] at h
      cases h
      exact .inr ⟨rfl, cinfoLoad_eq_ok hload⟩
  · simp only [hf] at h
    exact .inl (congrArg some (Except.ok.inj h))

theorem of_find_cstoreCinfoLoad (h : (cstoreCinfoLoad l1 key rec).2.find k = some ci) :
    l1.find k = some ci ∨ (k = key ∧ ∃ m, rec = some m ∧ ci = cinfoFromXmeta m) := by
  rw [cstoreCinfoLoad] at h
  have hget := find_cinfoL1Get l1 key k
  generalize cinfoL1Get l1 key = r at h hget
  obtain ⟨_ | x, l1'⟩ := r
  · rcases hload : cinfoLoad rec with e | ⟨y, bits⟩
    · simp only [hload] at h
      exact .inl (hget ▸ h)
    · simp only [hload] at h
      rcases of_find_cinfoL1Put h with ⟨rfl, rfl⟩ | ⟨-, hold⟩
      · exact .inr ⟨rfl, cinfoLoad_eq_ok hload⟩
      · exact .inl (hget ▸ hold)
  · exact .inl (hget ▸ h)

/-- **After a store** the record and the header cache have what they had, or what
was stored; a record may also be lost. -/
theorem cstoreCinfoStore_cases (now : Int64) (save : RecordSave) (l1 : CinfoL1 K) (key : K)
    (rec : Option Xmeta) (ci : Cinfo) :
    (∃ m, cinfoToXmeta now ci (cstoreReadBitmap rec ci) = .ok m ∧
      cstoreCinfoStore now save l1 key rec ci = (some m.persisted, cinfoL1Put l1 key ci)) ∨
    cstoreCinfoStore now save l1 key rec ci = (rec, l1) ∨
    cstoreCinfoStore now save l1 key rec ci = (none, l1) := by
  rw [cstoreCinfoStore]
  rcases hmap : cinfoToXmeta now ci (cstoreReadBitmap rec ci) with e | m
  · exact .inr (.inl rfl)
  · cases save with
    | saved => exact .inl ⟨m, rfl, rfl⟩
    | kept => exact .inr (.inl rfl)
    | unreadable => exact .inr (.inr rfl)

end

end BrixCache

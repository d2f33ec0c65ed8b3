import BrixCache.Lib.MarkSweep
import BrixCache.Oci.Gc

/-!
# What a collection of a registry keeps

A pass that succeeds has marked exactly what the manifests it has read name, and unlinks exactly
the blobs it comes to, old enough, that are not marked. What it does not read, of the directories
and manifests, it passes over without a word.
-/

namespace BrixCache

open List

namespace Oci

open MarkSweep

variable {c : Gc}

/-! ## What a manifest names -/

/-- The digests a manifest names: of its descriptors, and of the elements of its arrays of them. -/
inductive Named (body : Bytes) : Digest → Prop where
  | object {key el : Bytes} {d : Digest} (hkey : key ∈ objectKeys)
      (hel : Json.getRaw body key = .found el) (hd : gcDigestOf el = some d) : Named body d
  | element {key arr el : Bytes} {d : Digest} (hkey : key ∈ arrayKeys)
      (harr : Json.getRaw body key = .found arr) (hel : el ∈ (Json.arrElems arr).1)
      (hd : gcDigestOf el = some d) : Named body d

/-- No reader finds a manifest malformed. -/
structure Parsed (body : Bytes) : Prop where
  member : ∀ key ∈ objectKeys ++ arrayKeys, Json.getRaw body key ≠ .malformed
  array : ∀ key ∈ arrayKeys, ∀ arr, Json.getRaw body key = .found arr →
    (Json.arrElems arr).2 = true

theorem gcAdd_adds {s s' : GcSet} {hex : Bytes} (h : gcAdd c s hex = .ok s') :
    Adds (fun k => k = hex) s s' := by
  rw [gcAdd] at h
  rcases hadd : gcSetAdd c.calls.calloc s hex with _ | ⟨s₁, fresh⟩
  · rw [hadd] at h
    cases h
  · rw [hadd] at h
    cases h
    intro k
    rw [mem_gcSetAdd hadd, or_comm]

variable {sets sets' : GcSets} {dir rel p : Path} {pass pass' : GcPass} {live : GcSet}
  {gone : List Path}

theorem gcMark_adds {el : Bytes} (h : gcMark c sets el = .ok sets') :
    Adds (fun k => ∃ d, gcDigestOf el = some d ∧ k = d.hex) sets.live sets'.live := by
  rw [gcMark] at h
  rcases hd : gcDigestOf el with _ | d
  · rw [hd] at h
    cases h
    exact (Adds.nothing sets.live).congr fun k => by simp
  · rw [hd] at h
    obtain ⟨live, hlive, h⟩ := bind_eq_ok h
    obtain ⟨repo, -, h⟩ := bind_eq_ok h
    cases h
    exact (gcAdd_adds hlive).congr fun k => by simp

/-- A manifest marks the digests that it names. -/
theorem gcMarkBody_adds {body : Bytes} (h : gcMarkBody c sets body = .ok sets') :
    Adds (fun k => ∃ d, Named body d ∧ k = d.hex) sets.live sets'.live := by
  rw [gcMarkBody] at h
  obtain ⟨mid, hobjects, harrays⟩ := bind_eq_ok h
  have hobject : ∀ key ∈ objectKeys, ∀ t t', gcMarkObject c body t key = .ok t' →
      Adds (fun k => ∃ el d, Json.getRaw body key = .found el ∧ gcDigestOf el = some d ∧
        k = d.hex) t.live t'.live := by
    intro key _ t t' hstep
    rw [gcMarkObject] at hstep
    rcases hraw : Json.getRaw body key with el | _ | _
    · rw [hraw] at hstep
      exact (gcMark_adds hstep).congr fun k => by simp
    · rw [hraw] at hstep
      cases hstep
      exact (Adds.nothing t.live).congr fun k => by simp
    · rw [hraw] at hstep
      cases hstep
      exact (Adds.nothing t.live).congr fun k => by simp
  have harray : ∀ key ∈ arrayKeys, ∀ t t', gcMarkArray c body t key = .ok t' →
      Adds (fun k => ∃ arr, Json.getRaw body key = .found arr ∧ ∃ el ∈ (Json.arrElems arr).1,
        ∃ d, gcDigestOf el = some d ∧ k = d.hex) t.live t'.live := by
    intro key _ t t' hstep
    rw [gcMarkArray] at hstep
    rcases hraw : Json.getRaw body key with arr | _ | _
    · rw [hraw] at hstep
      exact (Adds.foldlM GcSets.live (fun el _ u u' hu => gcMark_adds hu) hstep).congr
        fun k => by simp
    · rw [hraw] at hstep
      cases hstep
      exact (Adds.nothing t.live).congr fun k => by simp
    · rw [hraw] at hstep
      cases hstep
      exact (Adds.nothing t.live).congr fun k => by simp
  refine ((Adds.foldlM GcSets.live hobject hobjects).trans
    (Adds.foldlM GcSets.live harray harrays)).congr fun k => ⟨?_, ?_⟩
  · rintro (⟨key, hkey, el, d, hel, hd, rfl⟩ | ⟨key, hkey, arr, harr, el, hel, d, hd, rfl⟩)
    · exact ⟨d, .object hkey hel hd, rfl⟩
    · exact ⟨d, .element hkey harr hel hd, rfl⟩
  · rintro ⟨d, hnamed, rfl⟩
    cases hnamed with
    | object hkey hel hd => exact .inl ⟨_, hkey, _, d, hel, hd, rfl⟩
    | element hkey harr hel hd => exact .inr ⟨_, hkey, _, harr, _, hel, d, hd, rfl⟩

/-! ## What a pass reads -/

/-- A manifest of the directory whose body is read -/
def ManifestRead (c : Gc) (rel : Path) (name body : Bytes) : Prop :=
  ∃ a names, gcEntries c (manifestDir rel a) = .ok names ∧ name ∈ names ∧ gcIsHex name = true ∧
    gcFmt c (manifestDir rel a ++ [name]) 0 = true ∧
    gcSlurp c (manifestDir rel a ++ [name]) = some body

/-- What a manifest that is read marks: itself and what it names. -/
def BodyMarks (name body : Bytes) (k : Bytes) : Prop :=
  k = name ∨ ∃ d, Named body d ∧ k = d.hex

/-- A directory that the walk comes to, from another. -/
inductive Walked (c : Gc) : ℕ → Path → Path → Prop where
  | here {levels : ℕ} {rel : Path} (hfmt : gcFmt c (repos :: rel) (gcMore rel) = true) :
      Walked c (levels + 1) rel rel
  | down {levels : ℕ} {rel rel' : Path} {names : List Bytes} {name : Bytes}
      (hfmt : gcFmt c (repos :: rel) (gcMore rel) = true)
      (hnames : gcEntries c (repos :: rel) = .ok names) (hname : name ∈ names)
      (hdown : gcDown c rel name = true) (hwalked : Walked c levels (rel ++ [name]) rel') :
      Walked c (levels + 1) rel rel'

/-- A manifest of a repository names the key. -/
def Marks (c : Gc) (rel : Path) (k : Bytes) : Prop :=
  rel ≠ [] ∧ gcHasManifests c rel = true ∧
    ∃ name body, ManifestRead c rel name body ∧ BodyMarks name body k

theorem gcManifest_adds {name : Bytes} (h : gcManifest c dir sets name = .ok sets') :
    Adds (fun k => gcIsHex name = true ∧ gcFmt c (dir ++ [name]) 0 = true ∧
      ∃ body, gcSlurp c (dir ++ [name]) = some body ∧ BodyMarks name body k)
      sets.live sets'.live := by
  rw [gcManifest] at h
  by_cases hname : (gcIsHex name && gcFmt c (dir ++ [name]) 0) = true
  · rw [if_pos hname] at h
    obtain ⟨hhex, hfmt⟩ := Bool.and_eq_true_iff.mp hname
    rcases hbody : gcSlurp c (dir ++ [name]) with _ | body
    · rw [hbody] at h
      cases h
      exact (Adds.nothing sets.live).congr fun k => by simp
    · rw [hbody] at h
      obtain ⟨live, hlive, h⟩ := bind_eq_ok h
      refine ((gcAdd_adds hlive).trans (gcMarkBody_adds h)).congr fun k => ?_
      simp [hhex, hfmt, BodyMarks]
  · rw [if_neg hname] at h
    cases h
    refine (Adds.nothing sets.live).congr fun k => ⟨nofun, ?_⟩
    rintro ⟨hhex, hfmt, -⟩
    exact hname (Bool.and_eq_true_iff.mpr ⟨hhex, hfmt⟩)

theorem gcRepoManifests_adds (h : gcRepoManifests c dir sets = .ok sets') :
    Adds (fun k => ∃ names, gcEntries c dir = .ok names ∧ ∃ name ∈ names, gcIsHex name = true ∧
      gcFmt c (dir ++ [name]) 0 = true ∧
      ∃ body, gcSlurp c (dir ++ [name]) = some body ∧ BodyMarks name body k)
      sets.live sets'.live := by
  rw [gcRepoManifests] at h
  rcases hnames : gcEntries c dir with e | names
  · rw [hnames] at h
    have hsame : sets = sets' := by
      cases e <;> first | exact Except.ok.inj h | cases h
    rw [hsame]
    exact (Adds.nothing sets'.live).congr fun k => by simp
  · rw [hnames] at h
    rcases hfold : names.foldlM (gcManifest c dir) sets with _ | sets₁
    · simp only [hfold] at h
      cases h
    · simp only [hfold] at h
      cases h
      exact (Adds.foldlM GcSets.live (fun name _ t t' ht => gcManifest_adds ht) hfold).congr
        fun k => by simp

theorem gcRepo_live (h : gcRepo c rel pass = .ok pass') :
    Adds (fun k => ∃ name body, ManifestRead c rel name body ∧ BodyMarks name body k)
      pass.live pass'.live := by
  rw [gcRepo] at h
  split at h
  · cases h
  obtain ⟨sets, hsets, h⟩ := bind_eq_ok h
  cases h
  have halg : ∀ a ∈ Alg.all, ∀ t t', gcRepoAlg c rel t a = .ok t' →
      Adds (fun k => ∃ names, gcEntries c (manifestDir rel a) = .ok names ∧ ∃ name ∈ names,
        gcIsHex name = true ∧ gcFmt c (manifestDir rel a ++ [name]) 0 = true ∧
        ∃ body, gcSlurp c (manifestDir rel a ++ [name]) = some body ∧ BodyMarks name body k)
        t.live t'.live := by
    intro a _ t t' ht
    rw [gcRepoAlg] at ht
    split at ht
    · cases ht
    · exact gcRepoManifests_adds ht
  refine (Adds.foldlM GcSets.live halg hsets).congr fun k => ⟨?_, ?_⟩
  · rintro ⟨a, -, names, hnames, name, hname, hhex, hfmt, body, hbody, hk⟩
    exact ⟨name, body, ⟨a, names, hnames, hname, hhex, hfmt, hbody⟩, hk⟩
  · rintro ⟨name, body, ⟨a, names, hnames, hname, hhex, hfmt, hbody⟩, hk⟩
    exact ⟨a, Alg.mem_all a, names, hnames, name, hname, hhex, hfmt, body, hbody, hk⟩

theorem gcHere_live (h : gcHere c rel pass = .ok pass') :
    Adds (Marks c rel) pass.live pass'.live := by
  rw [gcHere] at h
  split at h
  · rename_i hcond
    obtain ⟨hne, hhas⟩ := Bool.and_eq_true_iff.mp hcond
    refine (gcRepo_live h).congr fun k => ?_
    rw [Marks, eq_true hhas, eq_true (of_decide_eq_true hne), true_and, true_and]
  · rename_i hcond
    cases h
    refine (Adds.nothing pass.live).congr fun k => ⟨nofun, ?_⟩
    rintro ⟨hne, hhas, -⟩
    exact hcond (Bool.and_eq_true_iff.mpr ⟨decide_eq_true hne, hhas⟩)

/-- **The walk** marks what the manifests of each repository name. -/
theorem gcWalk_live {levels : ℕ} (h : gcWalk c levels rel pass = .ok pass') :
    Adds (fun k => ∃ rel', Walked c levels rel rel' ∧ Marks c rel' k) pass.live pass'.live := by
  induction levels generalizing rel pass pass' with
  | zero =>
    obtain rfl := Except.ok.inj h
    refine (Adds.nothing pass.live).congr fun k => ⟨nofun, ?_⟩
    rintro ⟨rel', hwalked, -⟩
    cases hwalked
  | succ levels ih =>
    rw [gcWalk] at h
    by_cases hfmt : gcFmt c (repos :: rel) (gcMore rel) = true
    · rw [hfmt, if_neg (by decide)] at h
      obtain ⟨mid, hhere, h⟩ := bind_eq_ok h
      -- below the directory, each entry that is gone into
      have hbelow : Adds (fun k => ∃ names, gcEntries c (repos :: rel) = .ok names ∧
          ∃ name ∈ names, gcDown c rel name = true ∧
            ∃ rel', Walked c levels (rel ++ [name]) rel' ∧ Marks c rel' k) mid.live pass'.live := by
        rcases hnames : gcEntries c (repos :: rel) with e | names
        · simp only [hnames] at h
          obtain rfl := Except.ok.inj h
          exact (Adds.nothing mid.live).congr fun k => by simp
        · simp only [hnames] at h
          have hturn : ∀ name ∈ names, ∀ t t', (if gcDown c rel name = true then
              gcWalk c levels (rel ++ [name]) t else .ok t) = .ok t' →
              Adds (fun k => gcDown c rel name = true ∧
                ∃ rel', Walked c levels (rel ++ [name]) rel' ∧ Marks c rel' k) t.live t'.live := by
            intro name _ t t' ht
            split at ht
            · rename_i hdown
              exact (ih ht).congr fun k => by simp [hdown]
            · rename_i hdown
              cases ht
              exact (Adds.nothing t.live).congr fun k => by simp [hdown]
          exact (Adds.foldlM GcPass.live hturn h).congr fun k => by simp
      refine ((gcHere_live hhere).trans hbelow).congr fun k => ⟨?_, ?_⟩
      · rintro (hk | ⟨names, hnames, name, hname, hdown, rel', hwalked, hk⟩)
        · exact ⟨rel, .here hfmt, hk⟩
        · exact ⟨rel', .down hfmt hnames hname hdown hwalked, hk⟩
      · rintro ⟨rel', hwalked, hk⟩
        cases hwalked with
        | here => exact .inl hk
        | down _ hnames hname hdown hwalked =>
          exact .inr ⟨_, hnames, _, hname, hdown, rel', hwalked, hk⟩
    · rw [Bool.not_eq_true] at hfmt
      rw [hfmt, if_pos (by decide)] at h
      cases h
      refine (Adds.nothing pass.live).congr fun k => ⟨nofun, ?_⟩
      rintro ⟨rel', hwalked, -⟩
      cases hwalked with
      | here hfmt' | down hfmt' => exact Bool.false_ne_true (hfmt.symm.trans hfmt')

/-! ## What the walk unlinks -/

/-- A path that the sweep of a repository's own bookkeeping may take: a mark, or a descriptor of
a referrer. -/
inductive Bookkeeping : Path → Prop where
  | mark (rel : Path) (name : Bytes) : Bookkeeping (repos :: rel ++ [layers, name])
  | referrer (rel : Path) (alg subj name : Bytes) (hsubj : gcIsHex subj = true) :
      Bookkeeping (repos :: rel ++ [referrers, alg, subj, name])

theorem not_bookkeeping_manifest (rel : Path) (d : Digest) :
    ¬ Bookkeeping (manifestPath rel d) := by
  have halg : ∀ a : Alg, a.name ≠ layers := by
    intro a
    cases a <;> decide
  have hhex : ∀ a : Alg, gcIsHex a.name = false := by
    intro a
    cases a <;> rfl
  intro h
  generalize hp : manifestPath rel d = p at h
  cases h with
  | mark rel' name =>
    have heq : (repos :: rel ++ [manifests]) ++ [d.alg.name, d.hex] =
        (repos :: rel') ++ [layers, name] := by
      simpa [manifestPath, manifestDir] using hp
    obtain ⟨-, hlast⟩ := append_inj' heq rfl
    exact halg d.alg (cons.inj hlast).1
  | referrer rel' alg subj name hsubj =>
    have heq : (repos :: rel ++ [manifests]) ++ [d.alg.name, d.hex] =
        (repos :: rel' ++ [referrers, alg]) ++ [subj, name] := by
      simpa [manifestPath, manifestDir] using hp
    obtain ⟨-, hlast⟩ := append_inj' heq rfl
    rw [← (cons.inj hlast).1, hhex] at hsubj
    cases hsubj

theorem mem_gcReap {q : Path} : p ∈ gcReap c q ↔
    p = q ∧ c.dryRun = false ∧ c.calls.unlink q = true := by
  rw [gcReap]
  by_cases h : (!c.dryRun && c.calls.unlink q) = true
  · rw [if_pos h]
    simp_all
  · rw [if_neg h]
    simp_all

theorem mem_gcOver {f : Bytes → List Path} : p ∈ gcOver c dir f ↔
    ∃ names, gcEntries c dir = .ok names ∧ ∃ name ∈ names, p ∈ f name := by
  rw [gcOver]
  rcases gcEntries c dir with e | names <;> simp

theorem bookkeeping_marks {repo : GcSet}
    (h : p ∈ gcRepoMarks c repo (repos :: rel ++ [layers])) : Bookkeeping p := by
  obtain ⟨names, -, name, -, hp⟩ := mem_gcOver.mp h
  split at hp
  · obtain ⟨rfl, -⟩ := mem_gcReap.mp hp
    rw [append_assoc]
    exact .mark rel name
  · cases hp

theorem bookkeeping_referrers (h : p ∈ gcRepoReferrers c (repos :: rel)) :
    Bookkeeping p := by
  obtain ⟨alg, -, halg⟩ := mem_flatMap.mp h
  rw [gcRepoReferrersAlg] at halg
  split at halg
  · cases halg
  obtain ⟨subjs, -, subj, -, hdir⟩ := mem_gcOver.mp halg
  split at hdir
  · rename_i hsubj
    rw [gcReferrerDir] at hdir
    dsimp only at hdir
    split at hdir
    · cases hdir
    obtain ⟨names, -, name, -, hp⟩ := mem_gcOver.mp hdir
    split at hp
    · cases hp
    · split at hp
      · obtain ⟨rfl, -⟩ := mem_gcReap.mp hp
        rw [append_assoc]
        exact .referrer rel alg.name subj name hsubj
      · cases hp
  · cases hdir

theorem gcRepo_gone (h : gcRepo c rel pass = .ok pass')
    (hgone : ∀ p ∈ pass.gone, Bookkeeping p) : ∀ p ∈ pass'.gone, Bookkeeping p := by
  rw [gcRepo] at h
  split at h
  · cases h
  obtain ⟨sets, -, h⟩ := bind_eq_ok h
  cases h
  intro p hp
  rcases mem_append.mp hp with hp | hp
  · rcases mem_append.mp hp with hp | hp
    · exact hgone p hp
    · split at hp
      · exact bookkeeping_marks hp
      · cases hp
  · exact bookkeeping_referrers hp

theorem gcWalk_gone {levels : ℕ}
    (h : gcWalk c levels rel pass = .ok pass') (hgone : ∀ p ∈ pass.gone, Bookkeeping p) :
    ∀ p ∈ pass'.gone, Bookkeeping p := by
  induction levels generalizing rel pass pass' with
  | zero =>
    cases h
    exact hgone
  | succ levels ih =>
    rw [gcWalk] at h
    split at h
    · cases h
      exact hgone
    obtain ⟨mid, hhere, h⟩ := bind_eq_ok h
    have hmid : ∀ p ∈ mid.gone, Bookkeeping p := by
      rw [gcHere] at hhere
      split at hhere
      · exact gcRepo_gone hhere hgone
      · cases hhere
        exact hgone
    split at h
    · cases h
      exact hmid
    · refine foldlM_keeps (fun pass => ∀ p ∈ pass.gone, Bookkeeping p)
        (fun name _ t t' ht hp => ?_) h hmid
      split at ht
      · exact ih ht hp
      · cases ht
        exact hp

/-! ## What the sweep unlinks -/

/-- A blob that the sweep comes to, old enough, and can unlink. -/
def Sweepable (c : Gc) (d : Digest) : Prop :=
  ∃ dirs names, gcEntries c [blobs, d.alg.name] = .ok dirs ∧ d.hex.take 2 ∈ dirs ∧
    gcFmt c [blobs, d.alg.name, d.hex.take 2] 0 = true ∧
    gcIsdir c [blobs, d.alg.name, d.hex.take 2] = true ∧
    gcEntries c [blobs, d.alg.name, d.hex.take 2] = .ok names ∧ d.hex ∈ names ∧
    gcFmt c (blobPath d) 0 = true ∧ gcReapable c (blobPath d) = true ∧ c.dryRun = false ∧
    c.calls.unlink (blobPath d) = true

theorem gcIsHex_hex (d : Digest) : gcIsHex d.hex = true := by
  rw [gcIsHex, digestParseHex_hex]
  rfl

theorem head?_take_hex (d : Digest) : (d.hex.take 2).head? ≠ some 46 := by
  obtain ⟨alg, hex, hlen, hlower⟩ := d
  cases hex with
  | nil => cases alg <;> cases hlen
  | cons b hex =>
    intro h
    cases h
    rw [all_cons] at hlower
    exact absurd (Bool.and_eq_true_iff.mp hlower).1 (by decide)

theorem mem_gcBlobFanout : p ∈ gcBlobFanout c live dir ↔
    ∃ names, gcEntries c dir = .ok names ∧ ∃ name ∈ names, gcIsHex name = true ∧
      gcFmt c (dir ++ [name]) 0 = true ∧ name ∉ live ∧ gcReapable c (dir ++ [name]) = true ∧
      p = dir ++ [name] ∧ c.dryRun = false ∧ c.calls.unlink (dir ++ [name]) = true := by
  rw [gcBlobFanout, mem_gcOver]
  simp only [mem_ite_nil_right, Bool.and_eq_true, Bool.not_eq_true', mem_gcReap,
    ← Bool.not_eq_true, gcSetHas_iff, and_assoc]

theorem mem_gcSweepBlobsAlg {a : Alg} (h : gcSweepBlobsAlg c live a = .ok gone) : p ∈ gone ↔
    ∃ dirs, gcEntries c [blobs, a.name] = .ok dirs ∧ ∃ dir ∈ dirs, dir.head? ≠ some 46 ∧
      gcFmt c [blobs, a.name, dir] 0 = true ∧ gcIsdir c [blobs, a.name, dir] = true ∧
      p ∈ gcBlobFanout c live [blobs, a.name, dir] := by
  rw [gcSweepBlobsAlg] at h
  split at h
  · cases h
  rcases hdirs : gcEntries c [blobs, a.name] with e | dirs
  · rw [hdirs] at h
    have hnone : [] = gone := by
      cases e <;> first | exact Except.ok.inj h | cases h
    rw [← hnone]
    simp
  · rw [hdirs] at h
    cases h
    simp only [mem_flatMap, mem_ite_nil_right, Bool.and_eq_true, decide_eq_true_eq,
      Except.ok.injEq, exists_eq_left', and_assoc]

theorem mem_gcSweepBlobs (h : gcSweepBlobs c live = .ok gone) : p ∈ gone ↔
    ∃ a dirs, gcEntries c [blobs, Alg.name a] = .ok dirs ∧ ∃ dir ∈ dirs,
      dir.head? ≠ some 46 ∧ gcFmt c [blobs, a.name, dir] 0 = true ∧
      gcIsdir c [blobs, a.name, dir] = true ∧ p ∈ gcBlobFanout c live [blobs, a.name, dir] := by
  have halg : ∀ a ∈ Alg.all, ∀ t t', (gcSweepBlobsAlg c live a).map (t ++ ·) = .ok t' →
      Adds (fun p => ∃ dirs, gcEntries c [blobs, a.name] = .ok dirs ∧ ∃ dir ∈ dirs,
        dir.head? ≠ some 46 ∧ gcFmt c [blobs, a.name, dir] 0 = true ∧
        gcIsdir c [blobs, a.name, dir] = true ∧
        p ∈ gcBlobFanout c live [blobs, a.name, dir]) t t' := by
    intro a _ t t' ht p
    rcases hgone : gcSweepBlobsAlg c live a with e | gone
    · rw [hgone] at ht
      cases ht
    · rw [hgone] at ht
      cases ht
      rw [mem_append, mem_gcSweepBlobsAlg hgone]
  have hadds := Adds.foldlM id halg h p
  rw [id, id, mem_nil_iff, false_or] at hadds
  rw [hadds]
  simp only [Alg.mem_all, true_and]

theorem gcSweepBlobs_blob (h : gcSweepBlobs c live = .ok gone)
    (d : Digest) : blobPath d ∈ gone ↔ Sweepable c d ∧ d.hex ∉ live := by
  rw [mem_gcSweepBlobs h]
  constructor
  · rintro ⟨a, dirs, hdirs, dir, hdir, -, hfmt, hisdir, hmem⟩
    obtain ⟨names, hnames, name, hname, -, hfmt', hlive, hreap, heq, hdry, hunlink⟩ :=
      mem_gcBlobFanout.mp hmem
    obtain ⟨ha, rfl, rfl⟩ : d.alg.name = a.name ∧ d.hex.take 2 = dir ∧ d.hex = name := by
      simpa [blobPath] using heq
    obtain rfl := Alg.name_inj ha
    exact ⟨⟨dirs, names, hdirs, hdir, hfmt, hisdir, hnames, hname, hfmt', hreap, hdry, hunlink⟩,
      hlive⟩
  · rintro ⟨⟨dirs, names, hdirs, hdir, hfmt, hisdir, hnames, hname, hfmt', hreap, hdry, hunlink⟩,
      hlive⟩
    exact ⟨d.alg, dirs, hdirs, _, hdir, head?_take_hex d, hfmt, hisdir,
      mem_gcBlobFanout.mpr ⟨names, hnames, d.hex, hname, gcIsHex_hex d, hfmt', hlive, hreap, rfl,
        hdry, hunlink⟩⟩

/-! ## What a run keeps -/

/-- The body of a manifest is in the store. -/
def Stored (c : Gc) (rel : Path) (d : Digest) (body : Bytes) : Prop :=
  nameValid rel = true ∧ ∃ mtime, c.store (manifestPath rel d) = some (.file body mtime)

/-- What a run that succeeds owes: the manifests are still there, and the blobs they name; and
where one of them cannot be parsed, so that it may name any, every blob is. -/
structure GcKeeps (c : Gc) (gone : List Path) : Prop where
  manifest : ∀ rel d body, Stored c rel d body → manifestPath rel d ∉ gone
  named : ∀ rel d body, Stored c rel d body → ∀ b, Named body b → blobPath b ∉ gone
  unparsed : ∀ rel d body, Stored c rel d body → ¬ Parsed body → ∀ b, blobPath b ∉ gone

/-- What a run marks: what is marked by the manifests of the repositories it comes to. -/
def Marked (c : Gc) (k : Bytes) : Prop := ∃ rel, Walked c gcLevels [] rel ∧ Marks c rel k

/-- **When a run keeps what it owes**: each blob that the sweep can take is marked, if a stored
manifest names it, or if there is a stored manifest that cannot be parsed. -/
structure GcSafe (c : Gc) : Prop where
  named : ∀ rel d body, Stored c rel d body → ∀ b, Named body b → Sweepable c b → Marked c b.hex
  unparsed : ∀ rel d body, Stored c rel d body → ¬ Parsed body → ∀ b, Sweepable c b →
    Marked c b.hex

theorem gcSafe_of_read (h : ∀ rel d body, Stored c rel d body → Parsed body ∧
    Walked c gcLevels [] rel ∧ rel ≠ [] ∧ gcHasManifests c rel = true ∧
    ManifestRead c rel d.hex body) : GcSafe c := by
  refine ⟨fun rel d body hstored b hnamed _ => ?_, fun rel d body hstored hnot => ?_⟩
  · obtain ⟨-, hwalked, hne, hhas, hread⟩ := h rel d body hstored
    exact ⟨rel, hwalked, hne, hhas, d.hex, body, hread, .inr ⟨b, hnamed, rfl⟩⟩
  · exact absurd (h rel d body hstored).1 hnot

theorem gcRun_spec (h : gcRun c = .ok gone) :
    (∀ b, blobPath b ∈ gone ↔ Sweepable c b ∧ ¬ Marked c b.hex) ∧
      ∀ rel d, manifestPath rel d ∉ gone := by
  rw [gcRun] at h
  split at h
  · cases h
  obtain ⟨pass, hwalk, h⟩ := bind_eq_ok h
  obtain ⟨swept, hswept, h⟩ := bind_eq_ok h
  cases h
  have hbook := gcWalk_gone hwalk nofun
  have hlive : ∀ k, k ∈ pass.live ↔ Marked c k := by
    intro k
    rw [gcWalk_live hwalk k]
    exact or_iff_right (GcSet.notMem_empty k)
  refine ⟨fun b => ?_, fun rel d hmem => ?_⟩
  · have hnot : blobPath b ∉ pass.gone := by
      intro hmem
      have hcontra := hbook _ hmem
      generalize hp : blobPath b = p at hcontra
      cases hcontra <;> exact absurd (cons.inj hp).1 (by decide)
    rw [mem_append, or_iff_right hnot, gcSweepBlobs_blob hswept, hlive]
  · rcases mem_append.mp hmem with hmem | hmem
    · exact not_bookkeeping_manifest rel d (hbook _ hmem)
    · obtain ⟨a, dirs, -, dir, -, -, -, -, hfanout⟩ := (mem_gcSweepBlobs hswept).mp hmem
      obtain ⟨names, -, name, -, -, -, -, -, heq, -⟩ := mem_gcBlobFanout.mp hfanout
      exact absurd (cons.inj heq).1 (by decide)

/-- **The set** has exactly the keys that are inserted, and **a run** keeps what it owes, exactly
when it is safe. -/
theorem gcRun_keeps_iff {gone : List Path} (h : gcRun c = .ok gone) :
    (GcKeeps c gone ∧ ∀ calloc hexes s, gcSetOf calloc hexes = some s →
        ∀ hex, gcSetHas s hex = true ↔ hex ∈ hexes) ↔
      GcSafe c := by
  obtain ⟨hblob, hmanifest⟩ := gcRun_spec h
  have hstays : ∀ b, blobPath b ∉ gone ↔ (Sweepable c b → Marked c b.hex) := by
    intro b
    rw [hblob, not_and_not_right]
  constructor
  · rintro ⟨hkeeps, -⟩
    exact ⟨fun rel d body hstored b hb => (hstays b).mp (hkeeps.named rel d body hstored b hb),
      fun rel d body hstored hp b => (hstays b).mp (hkeeps.unparsed rel d body hstored hp b)⟩
  · intro hsafe
    refine ⟨⟨fun rel d _ _ => hmanifest rel d, fun rel d body hstored b hb => ?_,
      fun rel d body hstored hp b => ?_⟩, fun calloc hexes s hs hex => gcSetHas_gcSetOf hs⟩
    · exact (hstays b).mpr (hsafe.named rel d body hstored b hb)
    · exact (hstays b).mpr (hsafe.unparsed rel d body hstored hp b)

/-! ## Two runs -/

/-- A digest of one digit, repeated. -/
def Digest.replicate (c : UInt8) (h : hexLower c = true) : Digest where
  alg := .sha256
  hex := List.replicate 64 c
  length_hex := length_replicate
  lower_hex := by
    rw [all_replicate]
    exact if_neg (by decide) |>.trans h

def sampleManifest : Digest := .replicate 97 rfl

def sampleBlob : Digest := .replicate 98 rfl

def sampleBody : Bytes :=
  ascii "\x7b\"config\":\x7b\"digest\":\"sha256:" ++ sampleBlob.hex ++ ascii "\"\x7d\x7d"

/-- A repository with one manifest, which names one blob. -/
def sampleStore (p : Path) : Option Node :=
  if p = [blobs] then some (.dir [ascii "sha256"])
  else if p = [blobs, ascii "sha256"] then some (.dir [ascii "bb"])
  else if p = [blobs, ascii "sha256", ascii "bb"] then some (.dir [sampleBlob.hex])
  else if p = blobPath sampleBlob then some (.file [1] 0)
  else if p = [repos] then some (.dir [ascii "r"])
  else if p = [repos, ascii "r"] then some (.dir [manifests])
  else if p = [repos, ascii "r", manifests] then some (.dir [ascii "sha256"])
  else if p = manifestDir [ascii "r"] .sha256 then some (.dir [sampleManifest.hex])
  else if p = manifestPath [ascii "r"] sampleManifest then some (.file sampleBody 0)
  else none

/-- A run in which all succeeds, but that the manifest can be opened or not. -/
def sampleGc (opens : Bool) : Gc where
  root := ascii "/srv"
  grace := 0
  dryRun := false
  store := sampleStore
  calls :=
    { lstat := fun _ => true
      opendir := fun _ => none
      readdir := fun _ => 8
      fopen := fun _ => opens
      malloc := fun _ => true
      fread := fun _ => 4096
      calloc := fun _ => true
      unlink := fun _ => true
      time := 100 }

theorem named_sampleBody : Named sampleBody sampleBlob :=
  .object mem_cons_self
    (show Json.getRaw sampleBody (ascii "config") =
      .found (ascii "\x7b\"digest\":\"sha256:" ++ sampleBlob.hex ++ ascii "\"\x7d") by decide +kernel)
    (by decide +kernel)

theorem stored_sample {opens : Bool} {d : Digest} {body : Bytes}
    (h : Stored (sampleGc opens) rel d body) :
    rel = [ascii "r"] ∧ d = sampleManifest ∧ body = sampleBody := by
  obtain ⟨-, mtime, h⟩ := h
  have hblob : manifestPath rel d ≠ blobPath sampleBlob := by
    intro heq
    exact absurd (cons.inj heq).1 (by decide)
  have hfile : sampleStore (manifestPath rel d) = some (.file body mtime) := h
  rw [sampleStore, if_neg hblob] at hfile
  -- the paths before the manifest's are directories
  iterate 7
    split at hfile
    · cases hfile
  split at hfile
  · rename_i hpath
    have heq : (repos :: rel) ++ [manifests, d.alg.name, d.hex] =
        [repos, ascii "r"] ++ [manifests, sampleManifest.alg.name, sampleManifest.hex] := by
      simpa [manifestPath, manifestDir] using hpath
    obtain ⟨hrel, hlast⟩ := append_inj' heq rfl
    obtain ⟨alg, hex, hlen, hlower⟩ := d
    simp only [cons.injEq, and_true, true_and] at hlast
    obtain ⟨halg, hhex⟩ := hlast
    obtain rfl := Alg.name_inj halg
    obtain rfl : hex = sampleManifest.hex := hhex
    injection hfile with hfile
    injection hfile with hbody _
    exact ⟨(cons.inj hrel).2, rfl, hbody.symm⟩
  · cases hfile

theorem gcRun_keeps_iff_sample : ∃ gone, gcRun (sampleGc true) = .ok gone ∧
    GcKeeps (sampleGc true) gone := by
  have hok : (gcRun (sampleGc true)).toBool = true := by
    decide +kernel
  rcases hrun : gcRun (sampleGc true) with _ | gone
  · rw [hrun] at hok
    cases hok
  refine ⟨gone, rfl, ((gcRun_keeps_iff hrun).mpr (gcSafe_of_read ?_)).1⟩
  intro rel d body hstored
  obtain ⟨rfl, rfl, rfl⟩ := stored_sample hstored
  have hwalked : Walked (sampleGc true) gcLevels [] [ascii "r"] :=
    .down (by decide +kernel) (show gcEntries (sampleGc true) [repos] = .ok [ascii "r"] from rfl)
      mem_cons_self (by decide +kernel) (.here (by decide +kernel))
  refine ⟨⟨by decide +kernel, fun key hkey arr harr => ?_⟩, hwalked, by decide,
    by decide +kernel, .sha256, [sampleManifest.hex], by rfl, mem_cons_self, by decide +kernel,
    by decide +kernel, by decide +kernel⟩
  have hnone : ∀ key ∈ arrayKeys, Json.getRaw sampleBody key = .none := by
    decide +kernel
  rw [hnone key hkey] at harr
  cases harr

/-- A manifest that cannot be opened: the blob it names is unlinked. -/
theorem unread_manifest_loses_blob : ∃ gone, gcRun (sampleGc false) = .ok gone ∧
    ¬ GcKeeps (sampleGc false) gone := by
  have hgone : (gcRun (sampleGc false)).toOption = some [blobPath sampleBlob] := by
    decide +kernel
  rcases hrun : gcRun (sampleGc false) with _ | gone
  · rw [hrun] at hgone
    cases hgone
  rw [hrun] at hgone
  cases hgone
  refine ⟨_, rfl, fun hkeeps => ?_⟩
  exact hkeeps.named [ascii "r"] sampleManifest sampleBody ⟨by decide +kernel, 0, by decide +kernel⟩
    sampleBlob named_sampleBody mem_cons_self

end Oci

end BrixCache

import BrixCache.Oci.FlattenSteps

/-!
# Flattening and the rules for layers

An upper directory with its markers stands for the tree that the layers make of a base, as long as
each entry meets a condition (`FlMeets`): a marker may not name what its own layer has put, a
directory may take the place of a file only where nothing of the base shows, and a hard link to a
symbolic link may not lead out of the upper directory.
-/

namespace BrixCache

open Function

namespace Oci

open NameTree

/-! ## Markers -/

theorem denote_emptyDir (b : Bytes → FlTree) : denote emptyDir (dir b) = dir b := by
  simp [denote, emptyDir, overlay, flMarks, isAbsent]

theorem denote_flOpaqueDir (B : FlTree) : denote flOpaqueDir B = emptyDir := by
  have hides (y : Bytes) :
      flMarks.hides (update (fun _ => absent) flOpqName flMarker) y = true := by
    simp [flMarks, flMarker, isAbsent]
  simp only [denote, flOpaqueDir, emptyDir, setChild, overlay, hides, if_true]
  congr 1
  funext y
  by_cases hy : y = flOpqName
  · rw [hy, if_pos isMark_opq]
  · simp [hy]

/-- A whiteout hides a name. -/
theorem denote_whiteout (c : Bytes → FlTree) (B : FlTree) {x : Bytes}
    (hx : flMarks.isMark x = false) :
    denote (setChild (flWhPre ++ x) flMarker (setChild x absent (dir c))) B =
      dir (update (denote (dir c) B).child x absent) := by
  have hmark := isMark_whiteout x
  have hne : x ≠ flWhPre ++ x := by
    intro h
    rw [← h, hx] at hmark
    cases hmark
  have hopq : flOpqName ≠ flWhPre ++ x := by
    intro h
    have hlen := congrArg (List.take 9) h
    simp [flWhPre, flOpqName, ascii] at hlen
  have hopqx : flOpqName ≠ x := by
    rintro rfl
    rw [isMark_opq] at hx
    cases hx
  have hmarkx (y : Bytes) : flWhPre ++ y ≠ x := by
    rintro rfl
    rw [isMark_whiteout] at hx
    cases hx
  -- the marker hides its own name, and no other
  have hides (y : Bytes) :
      flMarks.hides (update (update c x absent) (flWhPre ++ x) flMarker) y =
        if y = x then true else flMarks.hides c y := by
    by_cases hy : y = x
    · subst hy
      simp [flMarks, flMarker, isAbsent]
    · simp [flMarks, hy, hopq, hopqx, hmarkx]
  simp only [denote, setChild, overlay, hides]
  congr 1
  funext y
  by_cases hy : y = x
  · subst hy
    simp [hx, hne]
  · by_cases hymark : y = flWhPre ++ x
    · subst hymark
      simp [hmark, hne.symm]
    · simp [hy, hymark]

variable {U own : FlTree}

theorem beneathAt_of_covered {p : FlPath} (B : FlTree) (h : covered U p = true) :
    beneathAt flMarks U B p = absent := by
  induction p generalizing U B with
  | nil => cases U <;> cases h
  | cons x p ih =>
    cases U with
    | absent => cases h
    | leaf a => exact beneathAt_absent _ p
    | dir c =>
      rw [covered, Bool.or_eq_true] at h
      rcases h with h | h
      · have hx : beneath flMarks (dir c) B x = absent := by
          rw [beneath, if_pos h]
        rw [beneathAt, hx]
        exact beneathAt_absent _ p
      · exact ih _ h

/-! ## One change -/

/-- The condition on a change to the upper directory `U`, where the layer's own tree is `own`. -/
def FlMeets (calls : FlCalls) (U own : FlTree) : LayerChange → Prop
  | .opq p => ∀ x, own.get (p ++ [x]) = absent
  | .whiteout p x => own.get (p ++ [x]) = absent
  | .mkdir p x => ∀ a, U.get (p ++ [x]) = leaf a → covered U (p ++ [x]) = true
  | .link p x target => LinkStays calls U (.link p x target)
  | _ => True

theorem FlMeets.linkStays {calls : FlCalls} {ch : LayerChange}
    (h : FlMeets calls U own ch) : LinkStays calls U ch := by
  cases ch <;> first | exact h | exact trivial

/-- The files and links of a layer are in the upper directory. -/
def OwnLeaves (U own : FlTree) : Prop :=
  ∀ q a, flMarks.Unmarked q → own.get q = leaf a → U.get q = leaf a

theorem OwnLeaves.of_view {lower : FlTree} (hU : U.isDir = true)
    (h : denote U emptyDir = own.union lower) : OwnLeaves U own := by
  intro q a hq ha
  have hview : overlay flMarks (U.get q) (beneathAt flMarks U emptyDir q) = leaf a := by
    rw [← get_overlay U emptyDir hq, ← denote, h, union,
      get_overlay own lower (unmarked_noMarks q), ha, overlay_leaf]
  cases q with
  | nil =>
    obtain ⟨c, rfl⟩ := exists_of_isDir hU
    rw [NameTree.get, overlay_dir] at hview
    cases hview
  | cons x q =>
    have hx : beneath flMarks U emptyDir x = absent := by
      cases U <;> simp [beneath, emptyDir]
    rw [beneathAt, hx, beneathAt_absent] at hview
    exact leaf_of_overlay_leaf hview

theorem OwnLeaves.noLeaf (h : OwnLeaves U own) {p : FlPath}
    (hp : flMarks.Unmarked p) (hU : U.NoLeaf p) : own.NoLeaf p := by
  rw [noLeaf_iff] at hU ⊢
  rintro q ⟨r, rfl⟩ a ha
  exact hU q (List.prefix_append q r) a (h q a hp.of_append ha)

section Step

variable {U own lower : FlTree} {b : Bytes → FlTree} {p : FlPath}

theorem denote_force (hview : denote U (dir b) = own.union lower) (hown : OwnLeaves U own)
    (hp : flMarks.Unmarked p) (hU : U.NoLeaf p) :
    denote (force p U) (dir b) = (force p own).union lower :=
  overlay_force_eq_union hview hp hU (hown.noLeaf hp hU)

theorem denote_at (hview : denote U (dir b) = own.union lower) (hown : OwnLeaves U own)
    (hp : flMarks.Unmarked p) (hU : U.NoLeaf p) :
    denote (dir (U.get p).child) (beneathAt flMarks (force p U) (dir b) p) =
      (dir (own.get p).child).union (lower.get p) := by
  have hat := overlay_eq_union_at (denote_force hview hown hp hU) hp
  rwa [get_force, get_force, beneathAt_noMarks lower (get_force own p)] at hat

/-- A change in a directory that is made, in the upper tree by `f`, in the layer's own tree by `h`
and in the tree below by `g`. -/
theorem denote_modify (f h g : FlTree → FlTree) (hview : denote U (dir b) = own.union lower)
    (hown : OwnLeaves U own) (hp : flMarks.Unmarked p) (hU : U.NoLeaf p) (hg : g absent = absent)
    (hat : denote (f (dir (U.get p).child)) (beneathAt flMarks (force p U) (dir b) p) =
      (h (dir (own.get p).child)).union (g (lower.get p))) :
    denote (modify f p (force p U)) (dir b) =
      (modify h p (force p own)).union (modify g p lower) :=
  overlay_modify_eq_union f h g (denote_force hview hown hp hU) hp (get_force U p)
    (get_force own p) hg hat

variable {x : Bytes}

section

variable (hview : denote U (dir b) = own.union lower)
include hview

theorem denote_put {v : FlTree}
    (hown : OwnLeaves U own) (hp : flMarks.Unmarked (p ++ [x])) (hU : U.NoLeaf p)
    (hv : denote v (beneathAt flMarks (force p U) (dir b) (p ++ [x])) = v) :
    denote (modify (setChild x v) p (force p U)) (dir b) =
      (layerPut p x v own).union (modify (setChild x absent) p lower) := by
  refine denote_modify _ _ _ hview hown hp.of_append hU rfl ?_
  rw [beneathAt_concat, get_force] at hv
  rw [setChild, setChild, denote, overlay_update _ _ _ hp.last, ← denote, ← denote, hv, union_update,
    denote_at hview hown hp.of_append hU]

theorem denote_opq (hown : OwnLeaves U own)
    (hp : flMarks.Unmarked p) (hU : U.NoLeaf p) (hnone : ∀ x, own.get (p ++ [x]) = absent) :
    denote (modify (fun _ => flOpaqueDir) p (force p U)) (dir b) =
      (force p own).union (modify (fun _ => absent) p lower) := by
  have hempty : dir (own.get p).child = emptyDir := by
    rw [emptyDir]
    congr 1
    funext x
    rw [← get_concat]
    exact hnone x
  have h := denote_modify (fun _ => flOpaqueDir) (fun u => u) (fun _ => absent) hview hown hp hU rfl
    (by rw [denote_flOpaqueDir, hempty, union_absent])
  rwa [modify_id] at h

theorem denote_whiteout_at
    (hown : OwnLeaves U own) (hp : flMarks.Unmarked (p ++ [x])) (hU : U.NoLeaf p)
    (hnone : own.get (p ++ [x]) = absent) :
    denote (modify (setChild (flWhPre ++ x) flMarker) p
        (modify (setChild x absent) p (force p U))) (dir b) =
      (force p own).union (modify (setChild x absent) p lower) := by
  have hself : update (own.get p).child x absent = (own.get p).child := by
    rw [get_concat] at hnone
    rw [← hnone, update_eq_self]
  rw [modify_modify]
  have h := denote_modify (fun u => setChild (flWhPre ++ x) flMarker (setChild x absent u))
    (fun u => u) (setChild x absent) hview hown hp.of_append hU rfl ?_
  · rwa [modify_id] at h
  · rw [denote_whiteout _ _ hp.last, denote_at hview hown hp.of_append hU, ← union_update, hself]

theorem denote_mkdirOver {a : FlLeaf}
    (hown : OwnLeaves U own) (hp : flMarks.Unmarked (p ++ [x])) (hU : U.NoLeaf p)
    (hover : U.get (p ++ [x]) = leaf a) (hcov : covered U (p ++ [x]) = true) :
    denote (modify (setChild x emptyDir) p (force p U)) (dir b) =
      (force (p ++ [x]) own).union (layerLower own lower (.mkdir p x)) := by
  obtain ⟨c, hc, -⟩ := get_concat_ne_absent (t := U) (p := p) (x := x)
    (by rw [hover]; exact fun h => by cases h)
  have hbeneath : beneathAt flMarks (force p U) (dir b) (p ++ [x]) = absent := by
    rw [force_of_dir hc]
    exact beneathAt_of_covered _ hcov
  have hempty : denote emptyDir absent = emptyDir := by
    simp [denote, emptyDir, overlay]
  -- what is seen at the name
  have hseen : overlay noMarks (own.get (p ++ [x])) ((lower.get p).child x) = leaf a := by
    have hat := congrArg (fun t => t.child x) (denote_at hview hown hp.of_append hU)
    rw [denote, union, child_overlay _ _ hp.last, child_overlay _ _ rfl, child_dir, child_dir,
      ← get_concat, hover, overlay_leaf, ← get_concat] at hat
    exact hat.symm
  rcases hx : own.get (p ++ [x]) with _ | a' | d
  · -- the layers below have put it
    rw [hx, overlay_absent] at hseen
    have hlower : layerLower own lower (.mkdir p x) = modify (fun u => u) p lower := by
      rw [layerLower, hx, modify_id]
    rw [get_concat] at hx
    rw [force_concat_of_not_dir (by rw [hx]; rfl), hlower]
    refine denote_modify _ _ _ hview hown hp.of_append hU rfl ?_
    rw [beneathAt_concat, get_force] at hbeneath
    rw [setChild, setChild, denote, overlay_update _ _ _ hp.last, ← denote, ← denote, hbeneath,
      hempty, denote_at hview hown hp.of_append hU, union, union, overlay_update _ _ _ rfl, beneath]
    simp [noMarks, hseen, overlay, emptyDir]
  · -- the layer itself has put it
    have hlower : layerLower own lower (.mkdir p x) = modify (setChild x absent) p lower := by
      rw [layerLower, hx]
    rw [get_concat] at hx
    rw [force_concat_of_not_dir (by rw [hx]; rfl), hlower]
    exact denote_put hview hown hp hU (by rw [hbeneath, hempty])
  · rw [hx, overlay_dir] at hseen
    cases hseen

end

end Step

/-- **A change is made as the rules ask**: the upper directory with its markers stands for what the
rules make of the same base. -/
theorem FlDone.refines {calls : FlCalls} {ch : LayerChange} {U' lower : FlTree}
    {b : Bytes → FlTree} (hdone : FlDone ch U U') (hmeets : FlMeets calls U own ch)
    (hview : denote U (dir b) = own.union lower) (hown : OwnLeaves U own) :
    linkable (own.union lower) ch = true ∧
      layerOwn (own.union lower) own ch = layerOwn U own ch ∧
      denote U' (dir b) = (layerOwn U own ch).union (layerLower own lower ch) := by
  cases hdone with
  | nothing => exact ⟨rfl, rfl, hview⟩
  | opq hp hU => exact ⟨rfl, rfl, denote_opq hview hown hp hU hmeets⟩
  | whiteout hp hU => exact ⟨rfl, rfl, denote_whiteout_at hview hown hp hU hmeets⟩
  | put a hp hU => exact ⟨rfl, rfl, denote_put hview hown hp hU (overlay_leaf _ _)⟩
  | mkdirOver hp hU hover =>
    exact ⟨rfl, rfl, denote_mkdirOver hview hown hp hU hover (hmeets _ hover)⟩
  | mkdir hp hU =>
    rename_i p x
    refine ⟨rfl, rfl, ?_⟩
    have hlower : layerLower own lower (.mkdir p x) = lower := by
      rw [layerLower]
      split
      · rename_i a ha
        -- the layer has no file where the upper directory has none
        exact absurd (hown _ a hp ha) (noLeaf_iff.mp hU _ (List.prefix_refl _) a)
      · rfl
    rw [hlower]
    exact denote_force hview hown hp hU
  | link hp hU htarget ha =>
    rename_i p target x a
    have hget : (own.union lower).get target = leaf a := by
      rw [← hview, denote, get_overlay U _ htarget, ha, overlay_leaf]
    refine ⟨?_, ?_, ?_⟩
    · rw [linkable, hget]
      rfl
    · rw [layerOwn, layerOwn, hget, ha]
    · rw [layerOwn, ha]
      exact denote_put hview hown hp hU (overlay_leaf _ _)
  | parents hp hU => exact ⟨rfl, rfl, denote_force hview hown hp hU⟩

end Oci

end BrixCache

/-! ## Images -/

namespace BrixCache

namespace Oci

open NameTree

/-! ### The condition on a run -/

/-- Every entry that is reached meets the condition, where `n` are done and the layer's own tree is
`own`. -/
def EntriesMeet (o : FlOpts) : ℤ → List (TarEntry × FlCalls) → FlState → FlTree → Prop
  | _, [], _, _ => True
  | n, (e, calls) :: rest, s, own =>
    n + 1 ≤ o.entries →
      FlMeets calls s.tree own (layerChange e) ∧
        ∀ s', (flEntry o calls e s).value = .ok s' →
          EntriesMeet o (n + 1) rest s' (layerOwn s.tree own (layerChange e))

/-- The entries of every layer that is reached meet the condition. -/
def LayersMeet (o : FlOpts) : List FlLayer → FlState → Prop
  | [], _ => True
  | l :: ls, s =>
    (l.opened = none → EntriesMeet o 0 l.entries s absent) ∧
      ∀ s', (flattenLayer o l s).value = .ok s' → LayersMeet o ls s'

/-- Each layer meets its condition on the tree that those below it leave. -/
def ImageMeets (o : FlOpts) (ls : List FlLayer) : Prop := LayersMeet o ls ⟨emptyDir, 0⟩

def FlLayer.archive (l : FlLayer) : List TarEntry := l.entries.map Prod.fst

/-! ### Confinement -/

variable {entries : List (TarEntry × FlCalls)} {n : ℤ} {o : FlOpts} {s s' : FlState}

theorem flEntries_inside
    {own : FlTree} (hs : s.tree.isDir = true) (hmeets : EntriesMeet o n entries s own) :
    (flEntries o n entries s).Inside := by
  induction entries generalizing n s own with
  | nil => exact Fl.inside_pure _
  | cons entry rest ih =>
    obtain ⟨e, calls⟩ := entry
    rw [flEntries]
    split
    · exact Fl.inside_fail _ _
    · rename_i hbudget
      obtain ⟨hmeet, hrest⟩ := hmeets (Int.not_lt.mp hbudget)
      apply Fl.Inside.bind (flEntry_inside hs hmeet.linkStays)
      intro s' hs'
      exact ih ((flEntry_done hs hs').isDir hs) (hrest s' hs')

theorem flEntries_isDir (hs : s.tree.isDir = true) (h : (flEntries o n entries s).value = .ok s') :
    s'.tree.isDir = true := by
  induction entries generalizing n s with
  | nil =>
    cases h
    exact hs
  | cons entry rest ih =>
    obtain ⟨e, calls⟩ := entry
    rw [flEntries] at h
    split at h
    · cases h
    · obtain ⟨s₁, h₁, h⟩ := Fl.bind_eq_ok h
      exact ih ((flEntry_done hs h₁).isDir hs) h

theorem check_ok {e : Option FlError} {u : Unit} (h : (Fl.check e).value = .ok u) : e = none := by
  cases e with
  | none => rfl
  | some e => cases h

theorem flattenLayer_ok {l : FlLayer} (h : (flattenLayer o l s).value = .ok s') :
    l.opened = none ∧ (flEntries o 0 l.entries s).value = .ok s' := by
  obtain ⟨_, hopened, h⟩ := Fl.bind_eq_ok h
  obtain ⟨s₁, h₁, h⟩ := Fl.bind_eq_ok h
  obtain ⟨-, -, h⟩ := Fl.bind_eq_ok h
  obtain ⟨-, -, h⟩ := Fl.bind_eq_ok h
  cases h
  exact ⟨check_ok hopened, h₁⟩

theorem flattenLayers_inside {ls : List FlLayer}
    (hs : s.tree.isDir = true) (hmeets : LayersMeet o ls s) : (flattenLayers o ls s).Inside := by
  induction ls generalizing s with
  | nil => exact Fl.inside_pure _
  | cons l ls ih =>
    have hlayer : (flattenLayer o l s).Inside := by
      apply Fl.Inside.bind (Fl.inside_check _)
      intro _ hopened
      apply Fl.Inside.bind (flEntries_inside hs (hmeets.1 (check_ok hopened)))
      intro _ _
      apply Fl.Inside.bind (Fl.inside_check _)
      intro _ _
      apply Fl.Inside.bind (Fl.inside_check _)
      intro _ _
      exact Fl.inside_pure _
    apply Fl.Inside.bind hlayer
    intro s' hs'
    exact ih (flEntries_isDir hs (flattenLayer_ok hs').2) (hmeets.2 s' hs')

/-! ### The tree -/

/-- The entries of a layer, one after another. The view over the empty base goes through the run
too: it is what tells which files are the layer's own. -/
theorem flEntries_refines {own : FlTree} (hs : s.tree.isDir = true)
    (hmeets : EntriesMeet o n entries s own)
    (hempty : ∃ lower, denote s.tree emptyDir = own.union lower)
    (h : (flEntries o n entries s).value = .ok s') {b : Bytes → FlTree} {lower : FlTree}
    (hview : denote s.tree (dir b) = own.union lower) :
    ∃ r, (entries.map Prod.fst).foldlM layerEntry ⟨own, lower⟩ = some r ∧
      denote s'.tree (dir b) = r.view := by
  induction entries generalizing n s own lower with
  | nil =>
    cases h
    exact ⟨⟨own, lower⟩, rfl, hview⟩
  | cons entry rest ih =>
    obtain ⟨e, calls⟩ := entry
    rw [flEntries] at h
    split at h
    · cases h
    · rename_i hbudget
      obtain ⟨hmeet, hrest⟩ := hmeets (Int.not_lt.mp hbudget)
      obtain ⟨s₁, h₁, h⟩ := Fl.bind_eq_ok h
      obtain ⟨lower₀, hempty⟩ := hempty
      have hdone := flEntry_done hs h₁
      have hown := OwnLeaves.of_view hs hempty
      obtain ⟨-, -, hempty₁⟩ := hdone.refines hmeet hempty hown
      obtain ⟨hlink, hown₁, hview₁⟩ := hdone.refines hmeet hview hown
      have hstep : layerEntry ⟨own, lower⟩ e =
          some ⟨layerOwn s.tree own (layerChange e), layerLower own lower (layerChange e)⟩ := by
        rw [layerEntry, Layering.view, if_pos hlink, hown₁]
      obtain ⟨r, hr, hr'⟩ := ih (hdone.isDir hs) (hrest s₁ h₁) ⟨_, hempty₁⟩ h hview₁
      refine ⟨r, ?_, hr'⟩
      rw [List.map_cons, List.foldlM_cons, hstep]
      exact hr

theorem flattenLayer_refines {l : FlLayer}
    (hs : s.tree.isDir = true) (hmeets : l.opened = none → EntriesMeet o 0 l.entries s absent)
    (h : (flattenLayer o l s).value = .ok s') (b : Bytes → FlTree) :
    applyLayer (denote s.tree (dir b)) l.archive = some (denote s'.tree (dir b)) := by
  obtain ⟨hopened, h⟩ := flattenLayer_ok h
  -- the layer's own tree is empty at first
  have hfirst (t : FlTree) : t = NameTree.absent.union t := (overlay_absent t).symm
  obtain ⟨r, hr, hr'⟩ := flEntries_refines hs (hmeets hopened) ⟨_, hfirst _⟩ h (b := b) (hfirst _)
  rw [applyLayer, FlLayer.archive, hr, hr']
  rfl

theorem flattenLayers_refines {ls : List FlLayer}
    (hs : s.tree.isDir = true) (hmeets : LayersMeet o ls s)
    (h : (flattenLayers o ls s).value = .ok s') (b : Bytes → FlTree) :
    applyLayers (denote s.tree (dir b)) (ls.map FlLayer.archive) =
      some (denote s'.tree (dir b)) := by
  induction ls generalizing s with
  | nil =>
    cases h
    rfl
  | cons l ls ih =>
    obtain ⟨s₁, h₁, h⟩ := Fl.bind_eq_ok h
    have hs₁ := flEntries_isDir hs (flattenLayer_ok h₁).2
    have hlayer := flattenLayer_refines hs hmeets.1 h₁ b
    rw [applyLayers, List.map_cons, List.foldlM_cons, hlayer]
    exact ih hs₁ (hmeets.2 s₁ h₁) h

/-! ### Samples -/

/-- Calls that all succeed; the text of a link that starts with a slash leads outside. -/
def flSampleCalls : FlCalls where
  fails _ _ := none
  rm _ := none
  xattrs := none
  follow p text := some (if text.head? = some slash then .outside else .upper (p ++ [text]))

def flSampleOpts : FlOpts := ⟨0, 0, false⟩

def flSampleLayer (entries : List TarEntry) : FlLayer :=
  ⟨none, entries.map fun e => (e, flSampleCalls), none, none⟩

/-- Two layers, the second with a whiteout. -/
def flSampleImage : List FlLayer :=
  [flSampleLayer
    [⟨ascii "./d/", [], .dir, []⟩, ⟨ascii "d/f", [], .reg, [ascii "x"]⟩,
      ⟨ascii "d/g", ascii "/d//f", .hardlink, []⟩],
    flSampleLayer [⟨ascii "d/.wh.f", [], .reg, []⟩, ⟨ascii "d/h", ascii "g", .symlink, []⟩]]

theorem flSampleImage_meets : ImageMeets flSampleOpts flSampleImage := by
  constructor
  · intro _ _
    refine ⟨fun a ha => (by cases ha), fun s₁ h₁ _ => ⟨trivial, fun s₂ h₂ _ => ⟨?_, ?_⟩⟩⟩
    · -- the hard link is to a file
      cases h₁
      cases h₂
      intro text htext
      cases htext
    · exact fun _ _ => trivial
  · intro s₁ h₁
    refine ⟨fun _ _ => ⟨rfl, fun s₂ _ _ => ⟨trivial, ?_⟩⟩, fun _ _ => trivial⟩
    exact fun _ _ => trivial

/-- A hard link to a symbolic link that leads outside. -/
def flLinkImage : List FlLayer :=
  [flSampleLayer
    [⟨ascii "a", ascii "/etc/passwd", .symlink, []⟩, ⟨ascii "b", ascii "a", .hardlink, []⟩]]

/-- An opaque marker after a file of its own layer. -/
def flOpaqueImage : List FlLayer :=
  [flSampleLayer
    [⟨ascii "d/f", [], .reg, [ascii "x"]⟩, ⟨ascii "d/.wh..wh..opq", [], .reg, []⟩]]

/-- A directory in the place of a file. -/
def flReplacedImage : List FlLayer :=
  [flSampleLayer [⟨ascii "d", [], .reg, [ascii "x"]⟩], flSampleLayer [⟨ascii "d", [], .dir, []⟩]]

def flSampleBase : Bytes → FlTree := fun x =>
  if x = ascii "d" then dir fun y => if y = ascii "f" then leaf (.file (ascii "base")) else absent
  else absent

/-- Is there something at `d/f`, in what an image is flattened to? -/
def flattenShows (ls : List FlLayer) : Option Bool :=
  (flattenImage flSampleOpts ls).value.toOption.map fun s =>
    !((denote s.tree (dir flSampleBase)).get [ascii "d", ascii "f"]).isAbsent

/-- And under the rules for layers? -/
def layersShow (ls : List FlLayer) : Option Bool :=
  (applyLayers (dir flSampleBase) (ls.map FlLayer.archive)).map fun t =>
    !(t.get [ascii "d", ascii "f"]).isAbsent

/-- **Flattening is confined and follows the rules for layers** in a run whose entries meet the
condition. -/
theorem flattenImage_refines (o : FlOpts) (ls : List FlLayer) (hmeets : ImageMeets o ls) :
    (∀ pl ∈ (flattenImage o ls).touched, ∃ p, pl = .upper p) ∧
      ∀ s, (flattenImage o ls).value = .ok s → ∀ b : Bytes → FlTree,
        applyLayers (dir b) (ls.map FlLayer.archive) = some (denote s.tree (dir b)) := by
  refine ⟨flattenLayers_inside rfl hmeets, ?_⟩
  intro s hs b
  have h := flattenLayers_refines rfl hmeets hs b
  rwa [denote_emptyDir] at h

theorem flattenImage_refines_sample :
    (flattenImage flSampleOpts flSampleImage).value.toOption.isSome = true ∧
      (∀ pl ∈ (flattenImage flSampleOpts flSampleImage).touched, ∃ p, pl = .upper p) ∧
      ∀ s, (flattenImage flSampleOpts flSampleImage).value = .ok s → ∀ b : Bytes → FlTree,
        applyLayers (dir b) (flSampleImage.map FlLayer.archive) = some (denote s.tree (dir b)) :=
  ⟨by decide +kernel, flattenImage_refines flSampleOpts flSampleImage flSampleImage_meets⟩

/-- Without the condition, the mode of a file outside is changed, a file of the layer's own is lost,
and one of the base comes back. -/
theorem hardlink_leaves_upper :
    (¬ ∀ pl ∈ (flattenImage flSampleOpts flLinkImage).touched, ∃ p, pl = .upper p) ∧
      (flattenShows flOpaqueImage = some false ∧ layersShow flOpaqueImage = some true) ∧
      flattenShows flReplacedImage = some true ∧ layersShow flReplacedImage = some false := by
  have houtside : .outside ∈ (flattenImage flSampleOpts flLinkImage).touched := by decide +kernel
  refine ⟨?_, by decide +kernel, by decide +kernel⟩
  intro h
  obtain ⟨p, hp⟩ := h .outside houtside
  cases hp

end Oci

end BrixCache

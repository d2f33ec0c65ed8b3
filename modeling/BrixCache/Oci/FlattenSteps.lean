import BrixCache.Oci.Flatten

/-!
# What an entry does to the upper directory

One lemma for each function of the flattener, about a run that succeeds: which directories had to
be there, and what has become of the tree (`FlDone`). And one about every run: the places it may
have changed are in the upper directory (`Fl.Inside`). Both rest on what `fl_components` lets
through.
-/

namespace BrixCache

open List

namespace Oci

open NameTree

/-! ## Names -/

/-- A name for one object of a directory. -/
structure SafeName (x : Bytes) : Prop where
  no_slash : slash ∉ x
  not_nil : x ≠ []
  not_dot : x ≠ ascii "."
  not_dots : x ≠ ascii ".."

/-- The names of a path that `fl_components` lets through. -/
def SafePath (p : FlPath) : Prop := ∀ x ∈ p, SafeName x ∧ flReserved x = false

variable {p comps tp : FlPath} {x tname : Bytes} {calls : FlCalls} {t t' target U : FlTree}
  {bytes : ℤ} {o : FlOpts} {e : TarEntry} {s s' : FlState}

theorem SafePath.init (h : SafePath (p ++ [x])) : SafePath p :=
  fun y hy => h y (mem_append_left _ hy)

theorem SafePath.last (h : SafePath (p ++ [x])) : SafeName x :=
  (h x (mem_append_right _ mem_cons_self)).1

theorem SafePath.tail (h : SafePath (x :: p)) : SafePath p :=
  fun y hy => h y (mem_cons_of_mem x hy)

theorem SafePath.unmarked (h : SafePath p) : flMarks.Unmarked p := by
  intro x hx
  obtain ⟨-, hres⟩ := h x hx
  simp only [flReserved, Bool.or_eq_false_iff] at hres
  simp only [flMarks, Bool.or_eq_false_iff]
  exact ⟨hres.1.1, hres.2⟩

theorem SafeName.flAt_eq (h : SafeName x) (p : FlPath) :
    flAt p x = .upper (p ++ [x]) := by
  simp [flAt, h.no_slash, h.not_nil, h.not_dot, h.not_dots]

theorem SafeName.mark (h : slash ∉ x) : SafeName (flWhPre ++ x) where
  no_slash hx := by
    rcases mem_append.mp hx with hx | hx
    · exact absurd hx (by decide)
    · exact h hx
  not_nil := by simp [flWhPre, ascii]
  not_dot := by simp [flWhPre, ascii]
  not_dots := by simp [flWhPre, ascii]

theorem safeName_opq : SafeName flOpqName := by
  constructor <;> decide

theorem safeName_tmp : SafeName flTmpName := by
  constructor <;> decide

theorem strtok_safe {tok s : Bytes} (htok : slash ∉ tok) (hx : x ∈ strtok tok s) :
    slash ∉ x ∧ x ≠ [] := by
  induction s generalizing tok with
  | nil =>
    by_cases h : tok = []
    · simp [strtok, h] at hx
    · simp only [strtok, if_neg h, mem_singleton] at hx
      subst hx
      exact ⟨htok, h⟩
  | cons c s ih =>
    by_cases hc : c = slash
    · by_cases h : tok = []
      · simp only [strtok, if_pos hc, if_pos h] at hx
        exact ih (by simp) hx
      · simp only [strtok, if_pos hc, if_neg h, mem_cons] at hx
        rcases hx with rfl | hx
        · exact ⟨htok, h⟩
        · exact ih (by simp) hx
    · simp only [strtok, if_neg hc] at hx
      refine ih ?_ hx
      intro hmem
      rcases mem_append.mp hmem with hmem | hmem
      · exact htok hmem
      · exact hc (mem_singleton.mp hmem).symm

/-- The components of a safe path -/
theorem flComponentsLoop_ok {path : Bytes} {n : ℕ} {toks : List Bytes}
    (htoks : ∀ x ∈ toks, slash ∉ x ∧ x ≠ []) (h : flComponentsLoop path n toks = .ok comps) :
    comps = toks.filter (· ≠ ascii ".") ∧ SafePath comps := by
  induction toks generalizing n comps with
  | nil =>
    cases h
    exact ⟨rfl, fun x hx => absurd hx not_mem_nil⟩
  | cons tok toks ih =>
    have hrest : ∀ x ∈ toks, slash ∉ x ∧ x ≠ [] := fun x hx => htoks x (mem_cons_of_mem _ hx)
    rw [flComponentsLoop] at h
    by_cases hdot : tok = ascii "."
    · rw [if_pos hdot] at h
      simpa [hdot] using ih hrest h
    · rw [if_neg hdot] at h
      -- the refusals
      by_cases hdots : tok = ascii ".."
      · rw [if_pos hdots] at h
        cases h
      rw [if_neg hdots] at h
      by_cases hlong : 255 < tok.length
      · rw [if_pos hlong] at h
        cases h
      rw [if_neg hlong] at h
      by_cases hres : flReserved tok = true
      · rw [if_pos hres] at h
        cases h
      rw [if_neg hres] at h
      by_cases hmany : flMaxComps ≤ n
      · rw [if_pos hmany] at h
        cases h
      rw [if_neg hmany] at h
      rcases hloop : flComponentsLoop path (n + 1) toks with e | rest
      · rw [hloop] at h
        cases h
      · rw [hloop] at h
        cases h
        obtain ⟨rfl, hsafe⟩ := ih hrest hloop
        obtain ⟨hslash, hnil⟩ := htoks tok mem_cons_self
        refine ⟨by simp [hdot], ?_⟩
        intro x hx
        rcases mem_cons.mp hx with rfl | hx
        · exact ⟨⟨hslash, hnil, hdot, hdots⟩, by simpa using hres⟩
        · exact hsafe x hx

/-- **What `fl_components` lets through** are the names of the path, each of them for one object of
a directory and none of them a marker. -/
theorem flComponents_ok {path : Bytes} (h : flComponents path = .ok comps) :
    comps = tarNames path ∧ SafePath comps := by
  rw [flComponents] at h
  split at h
  · cases h
  · exact flComponentsLoop_ok (fun x hx => strtok_safe not_mem_nil hx) h

theorem flSplit_eq_some (h : flSplit comps = some (p, x)) :
    comps = p ++ [x] := by
  rw [flSplit] at h
  obtain ⟨y, hy, hxy⟩ := Option.map_eq_some_iff.mp h
  cases hxy
  exact (dropLast_append_getLast? x hy).symm

/-! ## Places -/

/-- Nothing outside the upper directory is changed. -/
def Fl.Inside {α : Type} (x : Fl α) : Prop := ∀ pl ∈ x.touched, ∃ p, pl = .upper p

section Inside

variable {α β : Type}

theorem Fl.Inside.bind {x : Fl α} {f : α → Fl β} (hx : x.Inside)
    (hf : ∀ a, x.value = .ok a → (f a).Inside) : (x >>= f).Inside := by
  intro pl hpl
  rcases Fl.mem_touched_bind hpl with hpl | ⟨a, ha, hpl⟩
  · exact hx pl hpl
  · exact hf a ha pl hpl

theorem Fl.inside_pure (a : α) : (pure a : Fl α).Inside := fun _ h => absurd h not_mem_nil

theorem Fl.inside_ofExcept (x : Except FlError α) : (Fl.ofExcept x).Inside :=
  fun _ h => absurd h not_mem_nil

theorem Fl.inside_fail (fmt : String) (args : List FlArg) : (Fl.fail fmt args : Fl α).Inside :=
  Fl.inside_ofExcept _

theorem Fl.inside_check (e : Option FlError) : (Fl.check e).Inside := by
  cases e with
  | none | some e => exact Fl.inside_ofExcept _

theorem Fl.inside_touch {pl : Place} {p : FlPath} (h : pl = .upper p) : (Fl.touch pl).Inside := by
  intro pl' hpl'
  exact ⟨p, (mem_singleton.mp hpl').trans h⟩

theorem Fl.inside_call {pl : Place} {p : FlPath} (e : Option FlError) (h : pl = .upper p) :
    (Fl.call pl e).Inside := by
  intro pl' hpl'
  exact ⟨p, (mem_singleton.mp hpl').trans h⟩

end Inside

/-! ## Directories -/

/-- The directories of a path, made where they are not -/
theorem flDescend_ok {opn mk : FlOp} {here : FlPath}
    (ht : t.isDir = true) (h : (flDescend calls opn mk here comps t).value = .ok t') :
    t.NoLeaf comps ∧ t' = force comps t := by
  obtain ⟨c, rfl⟩ := exists_of_isDir ht
  induction comps generalizing here c t' with
  | nil =>
    cases h
    exact ⟨fun a ha => (by cases ha), rfl⟩
  | cons x comps ih =>
    rw [flDescend, child_dir] at h
    rcases hx : c x with _ | a | d <;> rw [hx] at h <;> dsimp only at h
    · -- a directory is made
      obtain ⟨-, -, h⟩ := Fl.bind_eq_ok h
      obtain ⟨-, -, h⟩ := Fl.bind_eq_ok h
      obtain ⟨below, hbelow, h⟩ := Fl.bind_eq_ok h
      cases h
      obtain ⟨-, rfl⟩ := ih _ rfl hbelow
      constructor
      · refine ⟨fun a ha => (by cases ha), ?_⟩
        rw [child_dir, hx]
        exact noLeaf_absent comps
      · rw [force, child_dir, hx, ← force_emptyDir]
        rfl
    · cases h
    · obtain ⟨-, -, h⟩ := Fl.bind_eq_ok h
      obtain ⟨below, hbelow, h⟩ := Fl.bind_eq_ok h
      cases h
      obtain ⟨hno, rfl⟩ := ih _ rfl hbelow
      constructor
      · refine ⟨fun a ha => (by cases ha), ?_⟩
        rw [child_dir, hx]
        exact hno
      · rw [force, child_dir, hx]
        rfl

theorem flDescend_inside {opn mk : FlOp} {here : FlPath}
    (hsafe : SafePath comps) : (flDescend calls opn mk here comps t).Inside := by
  induction comps generalizing here t with
  | nil => exact Fl.inside_pure _
  | cons x comps ih =>
    have hx : SafeName x := (hsafe x mem_cons_self).1
    have hrest {t' : FlTree} : (flDescend calls opn mk (here ++ [x]) comps t').Inside :=
      ih hsafe.tail
    rw [flDescend]
    rcases t.child x with _ | a | d
    · apply Fl.Inside.bind (Fl.inside_call _ (hx.flAt_eq here))
      intro _ _
      apply Fl.Inside.bind (Fl.inside_check _)
      intro _ _
      apply Fl.Inside.bind hrest
      intro _ _
      exact Fl.inside_pure _
    · exact Fl.inside_fail _ _
    · apply Fl.Inside.bind (Fl.inside_check _)
      intro _ _
      apply Fl.Inside.bind hrest
      intro _ _
      exact Fl.inside_pure _

theorem flRm_ok (h : (flRm calls p x t).value = .ok t') : t' = modify (setChild x absent) p t := by
  obtain ⟨-, -, h⟩ := Fl.bind_eq_ok h
  cases h
  rfl

theorem flRm_inside (hx : SafeName x) : (flRm calls p x t).Inside := by
  apply Fl.Inside.bind (Fl.inside_call _ (hx.flAt_eq p))
  intro _ _
  exact Fl.inside_pure _

/-! ## Files, directories and links -/

theorem flBody_ok {k : ℕ} {body : List Bytes} {r : ℤ × Bytes}
    (h : flBody o calls p x k body bytes = .ok r) : r.2 = body.flatten := by
  induction body generalizing k bytes r with
  | nil =>
    rw [flBody] at h
    split at h
    · cases h
      rfl
    · cases h
  | cons piece body ih =>
    rw [flBody] at h
    split at h
    · cases h
    · split at h
      · cases h
      · split at h
        · cases h
        · rcases hbody : flBody o calls p x (k + 1) body (bytes + piece.length) with e | r'
          · rw [hbody] at h
            cases h
          · rw [hbody] at h
            cases h
            rw [flatten_cons, ← ih hbody]

theorem flReg_ok (h : (flReg o calls p x e s).value = .ok s') :
    s'.tree = modify (setChild x (leaf (.file e.body.flatten))) p s.tree := by
  obtain ⟨t, ht, h⟩ := Fl.bind_eq_ok h
  obtain ⟨-, -, h⟩ := Fl.bind_eq_ok h
  obtain ⟨r, hr, h⟩ := Fl.bind_eq_ok h
  obtain ⟨-, -, h⟩ := Fl.bind_eq_ok h
  obtain ⟨-, -, h⟩ := Fl.bind_eq_ok h
  obtain ⟨-, -, h⟩ := Fl.bind_eq_ok h
  obtain ⟨-, -, h⟩ := Fl.bind_eq_ok h
  cases h
  obtain rfl := flRm_ok ht
  rw [flBody_ok hr, modify_setChild_setChild]

theorem flReg_inside (hx : SafeName x) : (flReg o calls p x e s).Inside := by
  apply Fl.Inside.bind (flRm_inside hx)
  intro _ _
  apply Fl.Inside.bind (Fl.inside_call _ (safeName_tmp.flAt_eq p))
  intro _ _
  apply Fl.Inside.bind (Fl.inside_ofExcept _)
  intro _ _
  apply Fl.Inside.bind (Fl.inside_check _)
  intro _ _
  apply Fl.Inside.bind (Fl.inside_check _)
  intro _ _
  apply Fl.Inside.bind (Fl.inside_call _ (hx.flAt_eq p))
  intro _ _
  apply Fl.Inside.bind (Fl.inside_touch (hx.flAt_eq p))
  intro _ _
  exact Fl.inside_pure _

theorem flDirClear_ok (h : (flDirClear calls p x t).value = .ok t') :
    t' = t ∨ (∃ a, (t.get p).child x = leaf a) ∧ t' = modify (setChild x absent) p t := by
  rw [flDirClear] at h
  split at h
  · rename_i a _ hleaf
    exact .inr ⟨⟨a, hleaf⟩, flRm_ok h⟩
  · cases h
    exact .inl rfl

theorem flMkdir_ok (h : (flMkdir calls p x t).value = .ok t') :
    ((t.get p).child x = absent ∧ t' = modify (setChild x emptyDir) p t) ∨
      (t.get p).child x ≠ absent ∧ t' = t := by
  obtain ⟨-, -, h⟩ := Fl.bind_eq_ok h
  split at h
  · rename_i habs
    cases h
    exact .inl ⟨habs, rfl⟩
  · rename_i hne
    cases h
    exact .inr ⟨hne, rfl⟩

theorem flOpenEntry_ok {u : Unit}
    (h : (flOpenEntry calls p x t).value = .ok u) : ∃ c, (t.get p).child x = dir c := by
  rw [flOpenEntry] at h
  split at h
  · rename_i c hc
    exact ⟨c, hc⟩
  · cases h

/-- **What `fl_dir` does** in a directory that is there: a file or link makes way for an empty
directory, and otherwise the directory is there or made. -/
theorem flDir_ok {c : Bytes → FlTree} (hp : s.tree.get p = dir c)
    (h : (flDir calls p x s).value = .ok s') :
    ((∃ a, s.tree.get (p ++ [x]) = leaf a) ∧
        s'.tree = modify (setChild x emptyDir) p s.tree) ∨
      (∀ a, s.tree.get (p ++ [x]) ≠ leaf a) ∧ s'.tree = force (p ++ [x]) s.tree := by
  obtain ⟨t₁, h₁, h⟩ := Fl.bind_eq_ok h
  obtain ⟨t₂, h₂, h⟩ := Fl.bind_eq_ok h
  obtain ⟨_, h₃, h⟩ := Fl.bind_eq_ok h
  obtain ⟨-, -, h⟩ := Fl.bind_eq_ok h
  obtain ⟨-, -, h⟩ := Fl.bind_eq_ok h
  obtain ⟨-, -, h⟩ := Fl.bind_eq_ok h
  cases h
  dsimp only
  obtain ⟨d, hd⟩ := flOpenEntry_ok h₃
  rw [get_concat]
  rcases flDirClear_ok h₁ with rfl | ⟨⟨a, ha⟩, rfl⟩
  · rcases flMkdir_ok h₂ with ⟨habs, rfl⟩ | ⟨-, rfl⟩
    · right
      constructor
      · rw [habs]
        exact fun a ha => by cases ha
      · rw [force_concat_of_not_dir (by rw [habs]; rfl), force_of_dir hp]
    · right
      constructor
      · rw [hd]
        exact fun a ha => by cases ha
      · rw [force_concat_of_dir hd, force_of_dir hp]
  · left
    refine ⟨⟨a, ha⟩, ?_⟩
    rcases flMkdir_ok h₂ with ⟨-, rfl⟩ | ⟨hne, -⟩
    · exact modify_setChild_setChild x _ _ p s.tree
    · -- the name has been removed
      rw [get_modify_of_dir _ hp, setChild, child_dir, Function.update_self] at hne
      exact absurd rfl hne

theorem flDir_inside (hx : SafeName x) : (flDir calls p x s).Inside := by
  have hclear : (flDirClear calls p x s.tree).Inside := by
    rw [flDirClear]
    split
    · exact flRm_inside hx
    · exact Fl.inside_pure _
  apply Fl.Inside.bind hclear
  intro t₁ _
  have hmkdir : (flMkdir calls p x t₁).Inside := by
    apply Fl.Inside.bind (Fl.inside_call _ (hx.flAt_eq p))
    intro _ _
    split <;> exact Fl.inside_pure _
  apply Fl.Inside.bind hmkdir
  intro t₂ _
  have hopen : (flOpenEntry calls p x t₂).Inside := by
    rw [flOpenEntry]
    split
    · exact Fl.inside_check _
    · exact Fl.inside_fail _ _
  apply Fl.Inside.bind hopen
  intro _ _
  apply Fl.Inside.bind (Fl.inside_call _ (hx.flAt_eq p))
  intro _ _
  apply Fl.Inside.bind (Fl.inside_check _)
  intro _ _
  apply Fl.Inside.bind (Fl.inside_touch (hx.flAt_eq p))
  intro _ _
  exact Fl.inside_pure _

theorem flSymlink_ok (h : (flSymlink calls p x e s).value = .ok s') :
    s'.tree = modify (setChild x (leaf (.link e.linkname))) p s.tree := by
  obtain ⟨t, ht, h⟩ := Fl.bind_eq_ok h
  obtain ⟨-, -, h⟩ := Fl.bind_eq_ok h
  obtain ⟨-, -, h⟩ := Fl.bind_eq_ok h
  cases h
  obtain rfl := flRm_ok ht
  exact modify_setChild_setChild x _ _ p s.tree

theorem flSymlink_inside (hx : SafeName x) : (flSymlink calls p x e s).Inside := by
  apply Fl.Inside.bind (flRm_inside hx)
  intro _ _
  apply Fl.Inside.bind (Fl.inside_call _ (hx.flAt_eq p))
  intro _ _
  apply Fl.Inside.bind (Fl.inside_touch (hx.flAt_eq p))
  intro _ _
  exact Fl.inside_pure _

theorem flLink_ok {copied : ℤ}
    (h : (flLink calls tp tname p x e target).value = .ok copied) : ∃ a, target = leaf a := by
  obtain ⟨-, -, h⟩ := Fl.bind_eq_ok h
  split at h
  · exact ⟨_, rfl⟩
  · obtain ⟨-, -, h⟩ := Fl.bind_eq_ok h
    split at h
    · exact ⟨_, rfl⟩
    · cases h

theorem flLink_inside (htname : SafeName tname) (hx : SafeName x) :
    (flLink calls tp tname p x e target).Inside := by
  apply Fl.Inside.bind (Fl.inside_touch (htname.flAt_eq tp))
  intro _ _
  split
  · apply Fl.Inside.bind (Fl.inside_touch (hx.flAt_eq p))
    intro _ _
    exact Fl.inside_pure _
  · apply Fl.Inside.bind (Fl.inside_touch (hx.flAt_eq p))
    intro _ _
    split
    · exact Fl.inside_pure _
    · exact Fl.inside_fail _ _

theorem flFchmodat_inside (hx : SafeName x)
    (h : ∀ text, target = leaf (.link text) → calls.follow p text ≠ some .outside) :
    (flFchmodat calls p x target).Inside := by
  unfold flFchmodat
  split
  · rename_i text
    have hout := h text rfl
    split
    · rename_i pl hpl
      cases pl with
      | upper q => exact Fl.inside_touch rfl
      | outside => exact absurd hpl hout
    · exact Fl.inside_pure _
  · exact Fl.inside_touch (hx.flAt_eq p)

theorem flHardlinkTo_ok (ht : s.tree.isDir = true)
    (h : (flHardlinkTo calls p x e s tp tname).value = .ok s') :
    ∃ a, s.tree.get (tp ++ [tname]) = leaf a ∧
      s'.tree = modify (setChild x (leaf a)) p s.tree := by
  obtain ⟨-, -, h⟩ := Fl.bind_eq_ok h
  obtain ⟨t₁, h₁, h⟩ := Fl.bind_eq_ok h
  obtain ⟨t₂, h₂, h⟩ := Fl.bind_eq_ok h
  obtain ⟨copied, hcopied, h⟩ := Fl.bind_eq_ok h
  obtain ⟨-, -, h⟩ := Fl.bind_eq_ok h
  obtain ⟨-, -, h⟩ := Fl.bind_eq_ok h
  cases h
  dsimp only
  obtain ⟨a, ha⟩ := flLink_ok hcopied
  obtain ⟨-, rfl⟩ := flDescend_ok ht h₁
  obtain rfl := flRm_ok h₂
  rw [ha, modify_setChild_setChild]
  have hleaf : s.tree.get (tp ++ [tname]) = leaf a := by
    rw [← get_concat] at ha
    exact get_force_leaf (get_remove_leaf ha)
  -- the target was there, and the directories on the way to it
  obtain ⟨c, hc, -⟩ := get_concat_ne_absent (t := s.tree) (p := tp) (x := tname)
    (by rw [hleaf]; exact fun h => by cases h)
  exact ⟨a, hleaf, by rw [force_of_dir hc]⟩

theorem flHardlinkTo_inside (ht : s.tree.isDir = true) (hx : SafeName x)
    (htarget : SafePath (tp ++ [tname]))
    (hlink : ∀ text, s.tree.get (tp ++ [tname]) = leaf (.link text) →
      calls.follow p text ≠ some .outside) :
    (flHardlinkTo calls p x e s tp tname).Inside := by
  apply Fl.Inside.bind (Fl.inside_check _)
  intro _ _
  apply Fl.Inside.bind (flDescend_inside htarget.init)
  intro t₁ h₁
  apply Fl.Inside.bind (flRm_inside hx)
  intro t₂ h₂
  apply Fl.Inside.bind (flLink_inside htarget.last hx)
  intro _ _
  have hchmod : (flFchmodat calls p x ((t₂.get tp).child tname)).Inside := by
    refine flFchmodat_inside hx fun text htext => hlink text ?_
    obtain ⟨-, rfl⟩ := flDescend_ok ht h₁
    obtain rfl := flRm_ok h₂
    rw [← get_concat] at htext
    exact get_force_leaf (get_remove_leaf htext)
  apply Fl.Inside.bind hchmod
  intro _ _
  apply Fl.Inside.bind (Fl.inside_touch (hx.flAt_eq p))
  intro _ _
  exact Fl.inside_pure _

/-! ## Entries -/

/-- What has become of the upper directory when a change is made. -/
inductive FlDone : LayerChange → FlTree → FlTree → Prop where
  | nothing (U : FlTree) : FlDone .nothing U U
  | opq {p : FlPath} {U : FlTree} (hp : flMarks.Unmarked p) (h : U.NoLeaf p) :
      FlDone (.opq p) U (modify (fun _ => flOpaqueDir) p (force p U))
  | whiteout {p : FlPath} {x : Bytes} {U : FlTree} (hp : flMarks.Unmarked (p ++ [x]))
      (h : U.NoLeaf p) :
      FlDone (.whiteout p x) U
        (modify (setChild (flWhPre ++ x) flMarker) p (modify (setChild x absent) p (force p U)))
  | put {p : FlPath} {x : Bytes} {U : FlTree} (a : FlLeaf) (hp : flMarks.Unmarked (p ++ [x]))
      (h : U.NoLeaf p) :
      FlDone (.put p x a) U (modify (setChild x (leaf a)) p (force p U))
  | mkdirOver {p : FlPath} {x : Bytes} {U : FlTree} {a : FlLeaf}
      (hp : flMarks.Unmarked (p ++ [x])) (h : U.NoLeaf p) (hover : U.get (p ++ [x]) = leaf a) :
      FlDone (.mkdir p x) U (modify (setChild x emptyDir) p (force p U))
  | mkdir {p : FlPath} {x : Bytes} {U : FlTree} (hp : flMarks.Unmarked (p ++ [x]))
      (h : U.NoLeaf (p ++ [x])) : FlDone (.mkdir p x) U (force (p ++ [x]) U)
  | link {p target : FlPath} {x : Bytes} {U : FlTree} {a : FlLeaf}
      (hp : flMarks.Unmarked (p ++ [x])) (h : U.NoLeaf p) (htarget : flMarks.Unmarked target)
      (ha : U.get target = leaf a) :
      FlDone (.link p x target) U (modify (setChild x (leaf a)) p (force p U))
  | parents {p : FlPath} {U : FlTree} (hp : flMarks.Unmarked p) (h : U.NoLeaf p) :
      FlDone (.parents p) U (force p U)

theorem FlDone.isDir {ch : LayerChange} {U' : FlTree} (h : FlDone ch U U')
    (hU : U.isDir = true) : U'.isDir = true := by
  have hset {x : Bytes} {v t : FlTree} {p : FlPath} (ht : t.isDir = true) :
      (modify (setChild x v) p t).isDir = true := by
    obtain ⟨c, rfl⟩ := exists_of_isDir ht
    cases p <;> rfl
  have hforce (p : FlPath) : (force p U).isDir = true := by
    cases p <;> rfl
  cases h with
  | nothing => exact hU
  | opq =>
    rename_i p _ _
    cases p <;> rfl
  | whiteout => exact hset (hset (hforce _))
  | put | mkdirOver | link => exact hset (hforce _)
  | mkdir | parents => exact hforce _

theorem flSkip_ok (h : (flSkip calls s).value = .ok s') :
    s' = s := by
  obtain ⟨-, -, h⟩ := Fl.bind_eq_ok h
  cases h
  rfl

theorem flSkip_inside (calls : FlCalls) (s : FlState) : (flSkip calls s).Inside := by
  apply Fl.Inside.bind (Fl.inside_check _)
  intro _ _
  exact Fl.inside_pure _

theorem flOpaque_ok (h : (flOpaque calls p s).value = .ok s') :
    s'.tree = modify (fun _ => flOpaqueDir) p s.tree := by
  obtain ⟨-, -, h⟩ := Fl.bind_eq_ok h
  obtain ⟨-, -, h⟩ := Fl.bind_eq_ok h
  obtain ⟨-, -, h⟩ := Fl.bind_eq_ok h
  cases h
  rfl

theorem flOpaque_inside (calls : FlCalls) (p : FlPath) (s : FlState) :
    (flOpaque calls p s).Inside := by
  apply Fl.Inside.bind (Fl.inside_check _)
  intro _ _
  apply Fl.Inside.bind (Fl.inside_call _ rfl)
  intro _ _
  apply Fl.Inside.bind (Fl.inside_call _ (safeName_opq.flAt_eq p))
  intro _ _
  exact Fl.inside_pure _

theorem flWhiteout_ok (h : (flWhiteout calls p x s).value = .ok s') :
    flReserved x = false ∧ s'.tree =
      modify (setChild (flWhPre ++ x) flMarker) p (modify (setChild x absent) p s.tree) := by
  rw [flWhiteout] at h
  split at h
  · cases h
  · rename_i hrefused
    split at h
    · cases h
    · obtain ⟨t, ht, h⟩ := Fl.bind_eq_ok h
      obtain ⟨-, -, h⟩ := Fl.bind_eq_ok h
      cases h
      obtain rfl := flRm_ok ht
      refine ⟨?_, rfl⟩
      simpa using fun hres => hrefused (.inr (.inr (.inr hres)))

theorem flWhiteout_inside (hx : slash ∉ x) : (flWhiteout calls p x s).Inside := by
  rw [flWhiteout]
  split
  · exact Fl.inside_fail _ _
  · rename_i hrefused
    split
    · exact Fl.inside_fail _ _
    · have hsafe : SafeName x := by
        refine ⟨hx, fun h => hrefused (.inl h), fun h => hrefused (.inr (.inl h)), ?_⟩
        exact fun h => hrefused (.inr (.inr (.inl h)))
      apply Fl.Inside.bind (flRm_inside hsafe)
      intro _ _
      apply Fl.Inside.bind (Fl.inside_call _ ((SafeName.mark hx).flAt_eq p))
      intro _ _
      exact Fl.inside_pure _

/-- An entry of content is in its place. -/
theorem flMaterialize_done (hp : SafePath (p ++ [x])) (hno : U.NoLeaf p)
    (h : (flMaterialize o calls p x e ⟨force p U, bytes⟩).value = .ok s') :
    FlDone (contentChange e p x) U s'.tree := by
  have hmade := get_force U p
  rw [flMaterialize] at h
  rw [contentChange]
  cases htype : e.type with
  | reg =>
    rw [htype] at h
    rw [flReg_ok h]
    exact .put _ hp.unmarked hno
  | dir =>
    rw [htype] at h
    rcases flDir_ok hmade h with ⟨⟨a, ha⟩, hs'⟩ | ⟨hno', hs'⟩
    · rw [get_force_concat] at ha
      rw [hs']
      exact .mkdirOver hp.unmarked hno ha
    · rw [get_force_concat] at hno'
      rw [hs', force_concat_force]
      exact .mkdir hp.unmarked (hno.concat hno')
  | symlink =>
    rw [htype] at h
    rw [flSymlink_ok h]
    exact .put _ hp.unmarked hno
  | hardlink =>
    rw [htype] at h
    dsimp only at h
    obtain ⟨comps, hcomps, h⟩ := Fl.bind_eq_ok h
    obtain ⟨rfl, hsafe⟩ := flComponents_ok hcomps
    rcases hsplit : flSplit (tarNames e.linkname) with _ | ⟨tp, tname⟩ <;> rw [hsplit] at h
    · cases h
    · have htarget := flSplit_eq_some hsplit
      have hdir : (force p U).isDir = true := by cases p <;> rfl
      obtain ⟨a, ha, hs'⟩ := flHardlinkTo_ok hdir h
      rw [← htarget] at ha
      rw [hs']
      exact .link hp.unmarked hno hsafe.unmarked (get_force_leaf ha)
  | special =>
    rw [htype] at h
    dsimp only at h
    split at h
    · cases h
    · rw [flSkip_ok h]
      exact .parents hp.init.unmarked hno

theorem flNamedEntry_done (hp : SafePath (p ++ [x])) (hno : U.NoLeaf p)
    (h : (flNamedEntry o calls p x e ⟨force p U, bytes⟩).value = .ok s') :
    FlDone (namedChange e p x) U s'.tree := by
  rw [flNamedEntry] at h
  rw [namedChange]
  by_cases hopq : x = ociOpqName
  · rw [if_pos hopq] at h ⊢
    obtain ⟨s₁, h₁, h⟩ := Fl.bind_eq_ok h
    rw [flSkip_ok h, flOpaque_ok h₁]
    exact .opq hp.init.unmarked hno
  · rw [if_neg hopq] at h ⊢
    by_cases hwh : ociWhPre.isPrefixOf x = true
    · rw [if_pos hwh] at h ⊢
      obtain ⟨s₁, h₁, h⟩ := Fl.bind_eq_ok h
      obtain ⟨hres, hs₁⟩ := flWhiteout_ok h₁
      rw [flSkip_ok h, hs₁]
      refine .whiteout ?_ hno
      -- the name that is deleted is no marker either
      intro y hy
      rcases mem_append.mp hy with hy | hy
      · exact hp.init.unmarked y hy
      · rw [mem_singleton.mp hy]
        simp only [flReserved, Bool.or_eq_false_iff] at hres
        simp only [flMarks, Bool.or_eq_false_iff]
        exact ⟨hres.1.1, hres.2⟩
    · rw [if_neg hwh] at h ⊢
      exact flMaterialize_done hp hno h

theorem flEntry_done (hs : s.tree.isDir = true) (h : (flEntry o calls e s).value = .ok s') :
    FlDone (layerChange e) s.tree s'.tree := by
  obtain ⟨comps, hcomps, h⟩ := Fl.bind_eq_ok h
  obtain ⟨rfl, hsafe⟩ := flComponents_ok hcomps
  rw [layerChange]
  rcases hsplit : flSplit (tarNames e.path) with _ | ⟨p, x⟩ <;> rw [hsplit] at h <;> dsimp only at h ⊢
  · rw [flSkip_ok h]
    exact .nothing _
  · rw [flSplit_eq_some hsplit] at hsafe
    rw [flEntryAt] at h
    split at h
    · rename_i hmeta
      rw [if_pos hmeta, flSkip_ok h]
      exact .nothing _
    · rename_i hmeta
      rw [if_neg hmeta]
      obtain ⟨-, -, h⟩ := Fl.bind_eq_ok h
      obtain ⟨t, ht, h⟩ := Fl.bind_eq_ok h
      obtain ⟨hno, rfl⟩ := flDescend_ok hs ht
      exact flNamedEntry_done hsafe hno h

/-! ## Where an entry reaches -/

/-- A hard link is not one to a symbolic link that leads out of the upper directory. -/
def LinkStays (calls : FlCalls) (U : FlTree) : LayerChange → Prop
  | .link p _ target =>
    ∀ text, U.get target = leaf (.link text) → calls.follow p text ≠ some .outside
  | _ => True

theorem flMaterialize_inside (hp : SafePath (p ++ [x]))
    (hlink : LinkStays calls U (contentChange e p x)) :
    (flMaterialize o calls p x e ⟨force p U, bytes⟩).Inside := by
  rw [contentChange] at hlink
  rw [flMaterialize]
  cases htype : e.type with
  | reg => exact flReg_inside hp.last
  | dir => exact flDir_inside hp.last
  | symlink => exact flSymlink_inside hp.last
  | hardlink =>
    rw [htype] at hlink
    apply Fl.Inside.bind (Fl.inside_ofExcept _)
    intro comps hcomps
    obtain ⟨rfl, hsafe⟩ := flComponents_ok hcomps
    rcases hsplit : flSplit (tarNames e.linkname) with _ | ⟨tp, tname⟩
    · exact Fl.inside_fail _ _
    · have htarget := flSplit_eq_some hsplit
      have hdir : (force p U).isDir = true := by cases p <;> rfl
      rw [htarget] at hsafe
      refine flHardlinkTo_inside hdir hp.last hsafe fun text htext => hlink text ?_
      rw [htarget]
      exact get_force_leaf htext
  | special =>
    dsimp only
    split
    · exact Fl.inside_fail _ _
    · exact flSkip_inside calls _

theorem flNamedEntry_inside (hp : SafePath (p ++ [x]))
    (hlink : LinkStays calls U (namedChange e p x)) :
    (flNamedEntry o calls p x e ⟨force p U, bytes⟩).Inside := by
  rw [namedChange] at hlink
  rw [flNamedEntry]
  by_cases hopq : x = ociOpqName
  · rw [if_pos hopq]
    apply Fl.Inside.bind (flOpaque_inside calls p _)
    intro _ _
    exact flSkip_inside calls _
  · rw [if_neg hopq] at hlink ⊢
    by_cases hwh : ociWhPre.isPrefixOf x = true
    · rw [if_pos hwh]
      have hslash : slash ∉ x.drop ociWhPre.length := fun h =>
        hp.last.no_slash (mem_of_mem_drop h)
      apply Fl.Inside.bind (flWhiteout_inside hslash)
      intro _ _
      exact flSkip_inside calls _
    · rw [if_neg hwh] at hlink ⊢
      exact flMaterialize_inside hp hlink

theorem flEntry_inside (hs : s.tree.isDir = true) (hlink : LinkStays calls s.tree (layerChange e)) :
    (flEntry o calls e s).Inside := by
  apply Fl.Inside.bind (Fl.inside_ofExcept _)
  intro comps hcomps
  obtain ⟨rfl, hsafe⟩ := flComponents_ok hcomps
  rw [layerChange] at hlink
  rcases hsplit : flSplit (tarNames e.path) with _ | ⟨p, x⟩ <;> rw [hsplit] at hlink <;>
    dsimp only at hlink ⊢
  · exact flSkip_inside calls s
  · rw [flSplit_eq_some hsplit] at hsafe
    rw [flEntryAt]
    split
    · exact flSkip_inside calls s
    · rename_i hmeta
      rw [if_neg hmeta] at hlink
      apply Fl.Inside.bind (Fl.inside_check _)
      intro _ _
      apply Fl.Inside.bind (flDescend_inside hsafe.init)
      intro t ht
      obtain ⟨-, rfl⟩ := flDescend_ok hs ht
      exact flNamedEntry_inside hsafe hlink

end Oci

end BrixCache

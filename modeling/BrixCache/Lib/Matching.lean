import Mathlib.Data.List.Perm.Subperm

/-!
# Matchings of lists

Each element of a list is matched to an element of its own in another. Where two
elements that share a match share all of them, a choice of a match for the first never
spoils a matching of the rest, so that taking any match in turn finds one.
-/

namespace Matching

variable {α β : Type*} {ok : α → β → Prop} {a : α} {as : List α} {b c : β} {bs cs rest : List β}

/-- Each of the first list is matched to one of the second, which are not used twice. -/
def Matchable (ok : α → β → Prop) (as : List α) (bs : List β) : Prop :=
  ∃ cs, List.Forall₂ ok as cs ∧ cs.Subperm bs

theorem matchable_nil : Matchable ok [] bs := ⟨[], .nil, List.nil_subperm⟩

theorem Matchable.perm (h : Matchable ok as bs) (hperm : bs.Perm cs) : Matchable ok as cs := by
  obtain ⟨ds, hall, hsub⟩ := h
  exact ⟨ds, hall, hsub.trans hperm.subperm⟩

theorem Matchable.cons (h : Matchable ok as rest) (hab : ok a b)
    (hperm : bs.Perm (b :: rest)) : Matchable ok (a :: as) bs := by
  obtain ⟨ds, hall, hsub⟩ := h
  exact ⟨b :: ds, .cons hab hall, ((List.subperm_cons b).mpr hsub).trans hperm.symm.subperm⟩

theorem Matchable.exists_ok (h : Matchable ok (a :: as) bs) : ∃ b ∈ bs, ok a b := by
  obtain ⟨ds, hall, hsub⟩ := h
  cases hall with
  | cons hab hall => exact ⟨_, hsub.subset List.mem_cons_self, hab⟩

theorem forall₂_replace (hall : List.Forall₂ ok as cs) (hb : b ∈ cs)
    (hc : ∀ a ∈ as, ok a b → ok a c) :
    ∃ cs' ds, List.Forall₂ ok as cs' ∧ cs.Perm (b :: ds) ∧ cs'.Perm (c :: ds) := by
  induction hall with
  | nil => cases hb
  | @cons a d as cs had hall ih =>
    obtain ⟨ha, has⟩ := List.forall_mem_cons.mp hc
    obtain rfl | hb := List.mem_cons.mp hb
    · exact ⟨c :: cs, cs, .cons (ha had) hall, .refl _, .refl _⟩
    · obtain ⟨cs', ds, hall', hperm, hperm'⟩ := ih hb has
      exact ⟨d :: cs', d :: ds, .cons had hall', (hperm.cons d).trans (.swap b d ds),
        (hperm'.cons d).trans (.swap c d ds)⟩

/-- **Any match of the first element** leaves the rest matchable, where an element that
shares it can have the first one's matches. -/
theorem Matchable.exchange (h : Matchable ok (a :: as) bs) (hperm : bs.Perm (b :: rest))
    (hrows : ∀ a' ∈ as, ok a' b → ∀ c, ok a c → ok a' c) :
    Matchable ok as rest := by
  obtain ⟨ds, hall, hsub⟩ := h
  have hsub := hsub.trans hperm.subperm
  cases hall with
  | @cons _ c _ ds hac hall =>
    by_cases hbc : c = b
    · rw [hbc] at hsub
      exact ⟨ds, hall, (List.subperm_cons b).mp hsub⟩
    by_cases hb : b ∈ ds
    · -- what has `b` gets the match of the first element
      obtain ⟨ds', es, hall', hds, hds'⟩ :=
        forall₂_replace hall hb fun a' ha' hok => hrows a' ha' hok c hac
      refine ⟨ds', hall', hds'.subperm.trans ?_⟩
      have hswap : (c :: ds).Perm (b :: c :: es) := (hds.cons c).trans (.swap b c es)
      exact (List.subperm_cons b).mp (hswap.symm.subperm.trans hsub)
    · classical
      have herase := hsub.erase b
      rw [List.erase_cons_head, List.erase_of_not_mem (by simp [Ne.symm hbc, hb])] at herase
      exact ⟨ds, hall, (List.sublist_cons_self c ds).subperm.trans herase⟩

end Matching

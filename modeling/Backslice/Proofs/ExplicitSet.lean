import Backslice.ConditionalSet
import Backslice.Proofs.Sorts

/-!
# Explicit sets

The set of the elements of a list is true where one of the membership atoms of
the elements is, and nothing is found in it but in these atoms.
-/

namespace Backslice

open Term

theorem Term.mem_outermostLvalues {t l : Term} (h : l ∈ t.outermostLvalues) :
    l ∈ t.subterms ∧ l.isLvalue = true := by
  induction t using inductionOnChildren with
  | step t ih =>
      rw [outermostLvalues_eq] at h
      split at h
      next ht =>
        rw [List.mem_singleton.1 h]
        exact ⟨mem_subterms_self t, ht⟩
      next =>
        obtain ⟨c, hc, hl⟩ := List.mem_flatMap.1 h
        exact (ih c hc hl).imp_left (mem_subterms_of_mem_children hc)

theorem Term.mem_dependencies {t l : Term} : l ∈ t.dependencies ↔ l ∈ t.outermostLvalues := by
  rw [dependencies, distinct_eq_eraseDups, List.mem_eraseDups]

theorem Term.isLocation_of_mem_dependencies {t l : Term} (ht : t.Plain) (h : l ∈ t.dependencies) : l.IsLocation :=
  have hl := mem_outermostLvalues (mem_dependencies.1 h)
  ⟨hl.2, ht.of_mem_subterms hl.1⟩

namespace ConditionalSet

theorem mem_subterms_member {l u : Term} : u ∈ (member l).subterms ↔ u = member l ∨ u = marker ∨ u ∈ l.subterms := by
  simp [member, subterms, marker]

theorem member_not_mem {t : Term} (ht : t.Plain) (l : Term) : member l ∉ t.subterms := fun h =>
  ht.marker_not_mem (mem_subterms_trans h (mem_subterms_member.2 (Or.inr (Or.inl rfl))))

theorem formulaAtoms_member (l : Term) : (member l).formulaAtoms = [member l] :=
  formulaAtoms_of_isAtom rfl

/-- What is found in the set of the elements of a list is found in the membership atom of an element. -/
theorem exists_of_ofList {α : Type} {found : Term → List α} (hf : Collects found) {es : List Term} {x : α}
    (hx : x ∈ found (ofList es)) : ∃ e ∈ es, x ∈ found (member e) := by
  refine List.foldlRecOn (motive := fun s : ConditionalSet => x ∈ found s → ∃ e ∈ es, x ∈ found (member e)) es add
    (b := empty) (fun h => ?_) (fun s hs e he h => ?_) hx
  · simp [hf.eq_nil (t := .bool false) rfl rfl, empty] at h
  · obtain ⟨t, ht, hx⟩ := hf.exists_of_disj h
    rcases List.mem_cons.1 ht with rfl | ht
    · exact hs hx
    · exact ⟨e, he, List.mem_singleton.1 ht ▸ hx⟩

theorem truth_ofList (atom : Term → Prop) (es : List Term) :
    truth atom (ofList es) ↔ ∃ e ∈ es, atom (member e) := by
  have hfold : ∀ s : ConditionalSet,
      truth atom (es.foldl add s) ↔ truth atom s ∨ ∃ e ∈ es, atom (member e) := by
    induction es with
    | nil => simp
    | cons e es ih =>
        intro s
        rw [List.foldl_cons, ih, add, union, truth_disj]
        simp [member, or_assoc]
  rw [ofList, hfold]
  simp [empty]

end ConditionalSet
end Backslice

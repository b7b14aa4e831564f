import Backslice.Backward
import Backslice.Proofs.ElementTree

/-!
# Flat sets

A flat set is a disjunction of membership atoms, of any elements, as the
constructor puts it together. Uniting two flat sets appends what is new, and so
gives back the first set if the second one has nothing new. Flattening leaves a
flat set, and under the settings that flatten, an arrow makes a flat set from a
flat set, whatever its statement and the names in it are.
-/

namespace Backslice.ConditionalSet

open Term

/-- Whether a set is the disjunction of membership atoms. -/
def IsFlat (s : ConditionalSet) : Prop :=
  ∃ ts : List Term, (∀ t ∈ ts, ∃ e, t = member e) ∧ s = disj ts

theorem isSum_of_members {ts : List Term} (h : ∀ t ∈ ts, ∃ e, t = member e) :
    ∀ t ∈ ts, IsSum (fun u => ∃ e, u = member e) t := fun t ht => by
  obtain ⟨e, rfl⟩ := h t ht
  exact isSum_of_isSummand rfl ⟨e, rfl⟩

theorem flatMap_disjuncts_of_members {ts : List Term} (h : ∀ t ∈ ts, ∃ e, t = member e) :
    ts.flatMap disjuncts = ts := by
  have hone : ∀ t ∈ ts, t.disjuncts = [t] := fun t ht => by
    obtain ⟨e, rfl⟩ := h t ht
    rfl
  rw [List.flatMap_congr hone]
  simp

theorem disj_of_members {ts : List Term} (h : ∀ t ∈ ts, ∃ e, t = member e) :
    disj ts = joined false .or ts.eraseDups := by
  rw [disj_eq, flatMap_disjuncts_of_members h]

namespace IsFlat
variable {s t : ConditionalSet}

theorem isSum (h : s.IsFlat) : IsSum (fun u => ∃ e, u = member e) s := by
  obtain ⟨ts, hts, rfl⟩ := h
  exact isSum_disj (isSum_of_members hts)

theorem members (h : s.IsFlat) : ∀ u ∈ s.disjuncts, ∃ e, u = member e := fun u hu => (h.isSum.2 u hu).2

theorem eq_joined (h : s.IsFlat) : s = joined false .or s.disjuncts ∧ s.disjuncts.eraseDups = s.disjuncts := by
  obtain ⟨ts, hts, rfl⟩ := h
  have hsummand : ∀ u ∈ ts.eraseDups, u.isSummand = true := fun u hu => by
    obtain ⟨e, rfl⟩ := hts u (List.mem_eraseDups.1 hu)
    rfl
  rw [disj_of_members hts, disjuncts_joined hsummand]
  exact ⟨rfl, List.eraseDups_eraseDups ts⟩

theorem empty : IsFlat ConditionalSet.empty :=
  ⟨[], by simp, by simp [ConditionalSet.empty]⟩

theorem member (e : Term) : IsFlat (member e) :=
  have hmember : ∀ t ∈ [ConditionalSet.member e], ∃ e, t = ConditionalSet.member e := by simp
  ⟨_, hmember, by rw [disj_of_members hmember]; rfl⟩

theorem flatten (s : ConditionalSet) : IsFlat (flatten s) :=
  ⟨s.possibleValues.map ConditionalSet.member, List.forall_mem_map.2 fun e _ => ⟨e, rfl⟩, rfl⟩

theorem mem_possibleValues_iff (h : s.IsFlat) {e : Term} :
    e ∈ s.possibleValues ↔ ConditionalSet.member e ∈ s.disjuncts := by
  rw [mem_possibleValues, mem_atoms_of_isSum h.isSum]
  constructor
  · rintro ⟨u, hu, he⟩
    obtain ⟨d, rfl⟩ := h.members u hu
    rw [atoms_member, List.mem_singleton] at he
    rwa [he]
  · intro hu
    exact ⟨_, hu, by simp [atoms_member]⟩

section
variable (hs : s.IsFlat) (ht : t.IsFlat)
include hs ht

theorem union : (s.union t).IsFlat := by
  have hmembers : ∀ u ∈ s.disjuncts ++ t.disjuncts, ∃ e, u = ConditionalSet.member e := fun u hu =>
    (List.mem_append.1 hu).elim (hs.members u) (ht.members u)
  refine ⟨s.disjuncts ++ t.disjuncts, hmembers, ?_⟩
  rw [ConditionalSet.union, disj_eq, disj_of_members hmembers]
  simp

theorem mem_possibleValues_union {e : Term} :
    e ∈ (s.union t).possibleValues ↔ e ∈ s.possibleValues ∨ e ∈ t.possibleValues := by
  have hsum : ∀ u ∈ [s, t], IsSum (fun u => ∃ e, u = ConditionalSet.member e) u := by
    simp [hs.isSum, ht.isSum]
  rw [mem_possibleValues, ConditionalSet.union, mem_atoms_disj hsum, mem_possibleValues, mem_possibleValues]
  simp

theorem union_eq_left (hsub : ∀ e ∈ t.possibleValues, e ∈ s.possibleValues) : s.union t = s := by
  have hself : disj [s] = s := by
    rw [disj_eq, List.flatMap_singleton, hs.eq_joined.2]
    exact hs.eq_joined.1.symm
  refine disj_eq_left hself fun u hu => ?_
  obtain ⟨e, rfl⟩ := ht.members u hu
  exact hs.mem_possibleValues_iff.1 (hsub e (ht.mem_possibleValues_iff.2 hu))

end

/-- Under the settings that flatten, the set before an arrow is flat again. -/
theorem before {arrow : Arrow} {guarded : Bool} {names names' : Fresh} (hs : s.IsFlat)
    (h : s.before ⟨guarded, true⟩ arrow names = .ok (t, names')) : t.IsFlat := by
  have hguard : s.underGuard ⟨guarded, true⟩ arrow.guard = s := by
    cases arrow.guard <;> simp [underGuard, Options.keepsGuards]
  unfold ConditionalSet.before at h
  split at h
  next location value hstatement =>
    cases hbefore : s.beforeAssignment location value names with
    | error fault => simp [hbefore, bind, Except.bind] at h
    | ok result =>
        simp only [hbefore, bind, Except.bind, pure, Except.pure, Except.ok.injEq, Prod.mk.injEq] at h
        rw [← h.1, normalize, if_pos rfl]
        exact IsFlat.flatten _
  all_goals
    rw [hguard] at h
    cases h
    exact hs

end IsFlat

/-- There is a set before every arrow that assigns to a location, if to anything. -/
theorem exists_before (options : Options) (s : ConditionalSet) {arrow : Arrow} (names : Fresh)
    (h : ∀ l, arrow.assigned? = some l → l.isLvalue = true) :
    ∃ t names', s.before options arrow names = .ok (t, names') := by
  unfold ConditionalSet.before
  cases hstatement : arrow.statement with
  | assign location value =>
      have hlvalue := h location (by rw [Arrow.assigned?, hstatement])
      rcases isLvalue_cases hlvalue with hreg | ⟨a, rfl⟩
      · obtain ⟨n, o, k, rfl⟩ := exists_of_isRegister hreg
        exact ⟨_, _, rfl⟩
      · exact ⟨_, _, rfl⟩
  | jump => exact ⟨_, _, rfl⟩
  | skip => exact ⟨_, _, rfl⟩
  | external name => exact ⟨_, _, rfl⟩

end Backslice.ConditionalSet

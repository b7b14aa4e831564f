import Backslice.Proofs.Lists
import Backslice.Proofs.Operands
import Mathlib.Logic.Basic

/-!
# Sums of operands

A disjunction keeps its operands as they are, unless they are decided or
disjunctions themselves. What a disjunction consists of is known, up to order,
from the operands it was built from. A map that puts disjunctions together from
the images of their operands takes them apart operand by operand.
-/

namespace Backslice.Term

/-- Terms that a disjunction keeps as operands. -/
def isSummand : Term → Bool
  | .const _ | .bool _ | .or _ => false
  | _ => true

theorem disjuncts_of_isSummand {t : Term} (h : t.isSummand = true) : t.disjuncts = [t] := by
  cases t <;> first | rfl | exact absurd h Bool.false_ne_true

/-- Whether a term is the sum of operands in `p`. -/
def IsSum (p : Term → Prop) (s : Term) : Prop :=
  s.asFormula = s ∧ ∀ y ∈ s.disjuncts, y.isSummand = true ∧ p y

section
variable {p q : Term → Prop}

theorem isSum_false : IsSum p (.bool false) :=
  ⟨rfl, by simp [disjuncts, asFormula]⟩

theorem isSum_of_isSummand {x : Term} (hx : x.isSummand = true) (hp : p x) : IsSum p x := by
  refine ⟨by cases x <;> first | rfl | exact absurd hx Bool.false_ne_true, fun y hy => ?_⟩
  rw [disjuncts_of_isSummand hx, List.mem_singleton] at hy
  exact hy ▸ ⟨hx, hp⟩

theorem isSum_or {xs : List Term} (h : ∀ x ∈ xs, x.isSummand = true ∧ p x) : IsSum p (.or xs) :=
  ⟨rfl, h⟩

theorem IsSum.cases {s : Term} (h : IsSum p s) :
    s = .bool false ∨ (s.isSummand = true ∧ p s) ∨ ∃ xs, s = .or xs ∧ ∀ x ∈ xs, x.isSummand = true ∧ p x := by
  cases s with
  | const w => exact absurd h.1 (by simp [asFormula])
  | bool b =>
      cases b with
      | false => exact Or.inl rfl
      | true => exact absurd (h.2 (.bool true) (by simp [disjuncts, asFormula])).1 (by simp [isSummand])
  | or xs => exact Or.inr (Or.inr ⟨xs, rfl, h.2⟩)
  | _ => exact Or.inr (Or.inl ⟨rfl, (h.2 _ (List.mem_singleton_self _)).2⟩)

theorem IsSum.imp {s : Term} (h : IsSum p s) (hpq : ∀ y, p y → q y) : IsSum q s :=
  ⟨h.1, fun y hy => ⟨(h.2 y hy).1, hpq y (h.2 y hy).2⟩⟩

theorem disjuncts_joined {xs : List Term} (h : ∀ x ∈ xs, x.isSummand = true) :
    (joined false .or xs).disjuncts = xs := by
  unfold joined
  split
  next => rfl
  next x => exact disjuncts_of_isSummand (h x (by simp))
  next =>
    rw [if_neg fun htrue => absurd (h _ htrue) (by simp [isSummand])]
    rfl

/-- The operands of a disjunction are those of the terms it was built from, in order. -/
theorem disjuncts_disj {ts : List Term} (h : ∀ t ∈ ts, IsSum p t) :
    (disj ts).disjuncts = (ts.flatMap disjuncts).eraseDups := by
  rw [disj_eq, disjuncts_joined]
  intro x hx
  obtain ⟨t, ht, hx⟩ := List.mem_flatMap.1 (List.mem_eraseDups.1 hx)
  exact ((h t ht).2 x hx).1

theorem mem_disjuncts_disj {ts : List Term} (h : ∀ t ∈ ts, IsSum p t) {y : Term} :
    y ∈ (disj ts).disjuncts ↔ ∃ t ∈ ts, y ∈ t.disjuncts := by
  rw [disjuncts_disj h, List.mem_eraseDups, List.mem_flatMap]

theorem asFormula_joined {xs : List Term} (h : ∀ x ∈ xs, x.isSummand = true) :
    (joined false .or xs).asFormula = joined false .or xs := by
  unfold joined
  split
  next => rfl
  next x => exact (isSum_of_isSummand (p := fun _ => True) (h x (by simp)) trivial).1
  next => split <;> rfl

theorem isSum_disj {ts : List Term} (h : ∀ t ∈ ts, IsSum p t) : IsSum p (disj ts) := by
  refine ⟨?_, fun y hy => ?_⟩
  · rw [disj_eq]
    refine asFormula_joined fun x hx => ?_
    obtain ⟨t, ht, hx⟩ := List.mem_flatMap.1 (List.mem_eraseDups.1 hx)
    exact ((h t ht).2 x hx).1
  · obtain ⟨t, ht, hy⟩ := (mem_disjuncts_disj h).1 hy
    exact (h t ht).2 y hy

theorem disj_disj {ts : List Term} (h : ∀ t ∈ ts, IsSum p t) : disj [disj ts] = disj ts := by
  have hsummand : ∀ x ∈ (ts.flatMap disjuncts).eraseDups, x.isSummand = true := fun x hx => by
    obtain ⟨t, ht, hx⟩ := List.mem_flatMap.1 (List.mem_eraseDups.1 hx)
    exact ((h t ht).2 x hx).1
  rw [disj_eq [disj ts], List.flatMap_singleton, disj_eq ts, disjuncts_joined hsummand, List.eraseDups_eraseDups]

end

/-- A disjunction that brings nothing new to a sum is this sum, if the sum is built already. -/
theorem disj_eq_left {s t : Term} (hs : disj [s] = s) (h : ∀ y ∈ t.disjuncts, y ∈ s.disjuncts) : disj [s, t] = s := by
  have hnothing : t.disjuncts.removeAll s.disjuncts = [] :=
    List.filter_eq_nil_iff.2 fun y hy => by simpa using h y hy
  rw [disj_eq, List.flatMap_cons, List.flatMap_singleton, List.eraseDups_append, hnothing, List.eraseDups_nil,
    List.append_nil]
  rwa [disj_eq, List.flatMap_singleton] at hs

/-- Whether a map takes sums of operands in `p` to sums of operands in `q`, operand by operand. -/
def ActsOnSums (f : Term → Term) (p q : Term → Prop) : Prop :=
  ∀ s, IsSum p s → IsSum q (f s) ∧ ∀ y, y ∈ (f s).disjuncts ↔ ∃ x ∈ s.disjuncts, y ∈ (f x).disjuncts

/-- It is enough that disjunctions are put together from the images of their operands. -/
theorem actsOnSums_of_isRebuilt {f : Term → Term} {p q : Term → Prop} (hfalse : f (.bool false) = .bool false)
    (hone : ∀ x : Term, x.isSummand = true → p x → IsSum q (f x))
    (hor : ∀ xs : List Term, (∀ x ∈ xs, x.isSummand = true ∧ p x) → IsRebuilt f (.or xs) (f (.or xs))) :
    ActsOnSums f p q := by
  intro s hs
  rcases hs.cases with rfl | ⟨hs, hp⟩ | ⟨xs, rfl, hxs⟩
  · rw [hfalse]
    exact ⟨isSum_false, by simp [disjuncts, asFormula]⟩
  · exact ⟨hone s hs hp, by simp [disjuncts_of_isSummand hs]⟩
  · have himage : ∀ x ∈ xs, IsSum q (f x) := fun x hx => hone x (hxs x hx).1 (hxs x hx).2
    rcases hor xs hxs with h | ⟨h, hsame⟩
    · have hmap : ∀ t ∈ xs.map f, IsSum q t := List.forall_mem_map.2 himage
      rw [h]
      refine ⟨isSum_disj hmap, fun y => ?_⟩
      rw [withChildren, children, mem_disjuncts_disj hmap]
      simp only [List.mem_map, exists_exists_and_eq_and]
      rfl
    · rw [h]
      refine ⟨isSum_or fun x hx => ⟨(hxs x hx).1, ?_⟩, fun y => ?_⟩
      · have hq := himage x hx
        rw [hsame x hx] at hq
        exact (hq.2 x (by simp [disjuncts_of_isSummand (hxs x hx).1])).2
      · change y ∈ xs ↔ ∃ x ∈ xs, y ∈ (f x).disjuncts
        constructor
        · intro hy
          exact ⟨y, hy, by simp [hsame y hy, disjuncts_of_isSummand (hxs y hy).1]⟩
        · rintro ⟨x, hx, hy⟩
          rw [hsame x hx, disjuncts_of_isSummand (hxs x hx).1, List.mem_singleton] at hy
          exact hy ▸ hx

theorem ActsOnSums.comp {f g : Term → Term} {p q r : Term → Prop} (hf : ActsOnSums f p q) (hg : ActsOnSums g q r) :
    ActsOnSums (fun t => g (f t)) p r := by
  intro s hs
  refine ⟨(hg _ (hf s hs).1).1, fun y => ?_⟩
  rw [(hg _ (hf s hs).1).2]
  simp only [(hf s hs).2]
  constructor
  · rintro ⟨w, ⟨x, hx, hw⟩, hy⟩
    have hxsum : IsSum p x := isSum_of_isSummand (hs.2 x hx).1 (hs.2 x hx).2
    exact ⟨x, hx, ((hg _ (hf x hxsum).1).2 y).2 ⟨w, hw, hy⟩⟩
  · rintro ⟨x, hx, hy⟩
    have hxsum : IsSum p x := isSum_of_isSummand (hs.2 x hx).1 (hs.2 x hx).2
    obtain ⟨w, hw, hy⟩ := ((hg _ (hf x hxsum).1).2 y).1 hy
    exact ⟨w, ⟨x, hx, hw⟩, hy⟩

end Backslice.Term

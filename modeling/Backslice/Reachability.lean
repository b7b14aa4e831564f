/-!
# Breadth-first search

Everything that is reached from a start by a successor function, in the order of
discovery. The search stays inside a finite list `domain`; elements outside of
it are not followed. Each step takes one element from the queue, and each
element enters the queue when it is found and only then, so the length of the
queue together with the number of elements not yet found decreases.
-/

namespace Backslice.Reachability

section
variable {α : Type} [DecidableEq α]

/-- What has been found, and the part of it whose successors are still to be looked at. -/
structure State (α : Type) where
  found : List α
  queue : List α

/-- The elements of the domain that are not found yet. -/
def State.missing (domain : List α) (s : State α) : List α :=
  domain.filter (· ∉ s.found)

def State.measure (domain : List α) (s : State α) : Nat :=
  s.queue.length + (s.missing domain).length

/-- Note one successor. -/
def discover (domain : List α) (s : State α) (a : α) : State α :=
  if a ∈ domain ∧ a ∉ s.found then ⟨s.found ++ [a], s.queue ++ [a]⟩ else s

theorem measure_discover_le (domain : List α) (s : State α) (a : α) :
    (discover domain s a).measure domain ≤ s.measure domain := by
  unfold discover
  split
  next h =>
    have hlt : (domain.filter (· ∉ s.found ++ [a])).length < (domain.filter (· ∉ s.found)).length := by
      have hsub : domain.filter (· ∉ s.found ++ [a]) =
          (domain.filter (· ∉ s.found)).filter (· ≠ a) := by
        rw [List.filter_filter]
        congr
        funext x
        simp [Bool.and_comm]
      rw [hsub]
      apply List.length_filter_lt_length_iff_exists.2
      exact ⟨a, by simp [h.1, h.2], by simp⟩
    simp only [State.measure, State.missing, List.length_append, List.length_cons, List.length_nil]
    omega
  next => exact Nat.le_refl _

theorem measure_foldl_discover_le (domain : List α) (successors : List α) (s : State α) :
    (successors.foldl (discover domain) s).measure domain ≤ s.measure domain := by
  induction successors generalizing s with
  | nil => exact Nat.le_refl _
  | cons a rest ih => exact Nat.le_trans (ih _) (measure_discover_le domain s a)

theorem measure_foldl_discover_lt (domain successors : List α) {s : State α} {a : α} {rest : List α}
    (h : s.queue = a :: rest) :
    (successors.foldl (discover domain) ⟨s.found, rest⟩).measure domain < s.measure domain := by
  refine Nat.lt_of_le_of_lt (measure_foldl_discover_le domain successors _) ?_
  simp [State.measure, State.missing, h]

/-- Follow the queue until it is empty. -/
def search (domain : List α) (next : α → List α) (s : State α) : List α :=
  match h : s.queue with
  | [] => s.found
  | a :: rest =>
      have := measure_foldl_discover_lt domain (next a) h
      search domain next ((next a).foldl (discover domain) ⟨s.found, rest⟩)
termination_by s.measure domain

/-- Everything reached from `start`, itself included, in the order of discovery. -/
def reachable (domain : List α) (next : α → List α) (start : List α) : List α :=
  search domain next ⟨start.eraseDups, start.eraseDups⟩

/-- Whether the search finds an element that passes a test; it ends with the first one. -/
def searchAny (domain : List α) (next : α → List α) (test : α → Bool) (s : State α) : Bool :=
  match h : s.queue with
  | [] => false
  | a :: rest =>
      have := measure_foldl_discover_lt domain (next a) h
      test a || searchAny domain next test ((next a).foldl (discover domain) ⟨s.found, rest⟩)
termination_by s.measure domain

/-- Whether something reached from `start` passes a test. -/
def anyReachable (domain : List α) (next : α → List α) (start : List α) (test : α → Bool) : Bool :=
  searchAny domain next test ⟨start.eraseDups, start.eraseDups⟩

theorem found_foldl_discover (domain done successors : List α) (s : State α) (h : s.found = done ++ s.queue) :
    (successors.foldl (discover domain) s).found = done ++ (successors.foldl (discover domain) s).queue := by
  induction successors generalizing s with
  | nil => exact h
  | cons a rest ih =>
      refine ih _ ?_
      unfold discover
      split
      next => simp [h]
      next => exact h

/-- The elements found are those done with, which are no longer in the queue, and the queue. -/
theorem any_search (domain : List α) (next : α → List α) (test : α → Bool) (s : State α) (done : List α)
    (h : s.found = done ++ s.queue) :
    (search domain next s).any test = (done.any test || searchAny domain next test s) := by
  rw [search, searchAny]
  split
  next hq => simp [h, hq]
  next a rest hq =>
    have := measure_foldl_discover_lt domain (next a) hq
    rw [any_search domain next test _ (done ++ [a]) (found_foldl_discover domain _ _ _ (by simp [h, hq]))]
    simp [Bool.or_assoc]
termination_by s.measure domain

theorem anyReachable_eq_any (domain : List α) (next : α → List α) (start : List α) (test : α → Bool) :
    anyReachable domain next start test = (reachable domain next start).any test := by
  rw [anyReachable, reachable, any_search domain next test _ [] (by simp)]
  simp

end
end Backslice.Reachability

import Std.Data.TreeMap.Basic

/-!
# Memoised values

A memo holds values of one function that have been computed already. They are
found by the place of their argument in memory, so that an object that is met
again costs a look-up. The place decides only whether a value is computed once
more: an entry is used after its argument was tested to be the one asked for,
and carries the proof that its value is the value of the function. Memos are
indistinguishable from one another for this reason.
-/

namespace Backslice

/-- The value of a function at a point. -/
structure ValueAt {α β : Type} (f : α → β) (a : α) where
  value : β
  value_eq : value = f a

instance {α β : Type} (f : α → β) (a : α) : Subsingleton (ValueAt f a) where
  allEq v w := by
    obtain ⟨v, rfl⟩ := v
    obtain ⟨w, rfl⟩ := w
    rfl

/-- Values of a function, each with its argument. -/
def Memo {α β : Type} (f : α → β) : Type :=
  Squash (Std.TreeMap Nat ((a : α) × ValueAt f a))

namespace Memo

variable {α β : Type} {f : α → β}

instance : Subsingleton (Memo f) :=
  inferInstanceAs (Subsingleton (Squash _))

def empty : Memo f :=
  Squash.mk ∅

/-- Enter a value under the place of its argument. -/
def insert (m : Memo f) (place : Nat) (a : α) (v : ValueAt f a) : Memo f :=
  Squash.lift m fun entries => Squash.mk (entries.insert place ⟨a, v⟩)

/-- The value at a point: the one entered for it, or else a computed one, which is then entered. -/
def getOrCompute [DecidableEq α] (m : Memo f) (a : α) (compute : Memo f → ValueAt f a × Memo f) :
    ValueAt f a × Memo f :=
  withPtrAddr a (fun place =>
      Squash.lift m fun entries =>
        let computed : Unit → ValueAt f a × Memo f := fun _ =>
          let (v, m) := compute (Squash.mk entries)
          (v, m.insert place.toNat a v)
        match entries[place.toNat]? with
        | some ⟨b, v⟩ =>
            match withPtrEqDecEq b a fun _ => inferInstance with
            | .isTrue h => (h ▸ v, Squash.mk entries)
            | .isFalse _ => computed ()
        | none => computed ())
    fun _ _ => Subsingleton.elim _ _

end Memo
end Backslice

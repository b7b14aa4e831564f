import Backslice.UniqueTable

/-!
# Searching a unique table

A search finds what is stored: every stored value lies on the chain of its own
bucket, and appending keeps it there, since the new entry leads to the former
head. What a search finds is the value that was looked for. Hence a value is
appended only if the table does not hold it, whatever the buckets are, and the
stored values stay distinct.

Nothing is assumed of the hash. A hash that sends all values to one bucket
makes one long chain.
-/

namespace Backslice.UniqueTable

variable {α : Type} {hash : α → UInt64}

/-- Index `j` lies on the chain that starts at index `i`. -/
inductive OnChain (t : UniqueTable α hash) : Nat → Nat → Prop
  | head (i : Nat) : OnChain t i i
  | tail {i j : Nat} (h : i < t.entries.size) : OnChain t t.entries[i].next j → OnChain t (i + 1) j

/-- Whether every stored value lies on the chain of its own bucket. -/
def IsChained (t : UniqueTable α hash) : Prop :=
  ∀ (i : Nat) (h : i < t.entries.size), t.OnChain (t.headOf t.entries[i].value) (i + 1)

theorem getElem?_toList (t : UniqueTable α hash) (i : Nat) : t.toList[i]? = t.entries[i]?.map (·.value) := by
  simp [toList]

theorem valueAt_eq_ok {t : UniqueTable α hash} {i : Nat} {v : α} :
    t.valueAt i = .ok v ↔ ∃ k, i = k + 1 ∧ t.toList[k]? = some v := by
  cases i with
  | zero => simp [valueAt, entryAt, Except.map]
  | succ k =>
      by_cases hk : k < t.entries.size
      · simp [valueAt, entryAt, Except.map, hk, getElem?_toList]
      · simp [valueAt, entryAt, Except.map, hk, getElem?_toList]

theorem getElem?_toList_of_error {t : UniqueTable α hash} {k : Nat} {e : Misuse} (h : t.valueAt (k + 1) = .error e) :
    t.toList[k]? = none := by
  cases hk : t.toList[k]? with
  | none => rfl
  | some v =>
      rw [valueAt_eq_ok.2 ⟨k, rfl, hk⟩] at h
      cases h

section
variable [DecidableEq α]

theorem getElem?_of_searchFrom {t : UniqueTable α hash} {v : α} {i j : Nat} {h : i ≤ t.size}
    (hfound : t.searchFrom v i h = some j) : ∃ k, j = k + 1 ∧ t.toList[k]? = some v := by
  induction i using Nat.strongRecOn with
  | ind i ih =>
    cases i with
    | zero => simp [searchFrom] at hfound
    | succ i =>
        rw [searchFrom] at hfound
        split at hfound
        next hv =>
          have hi : i < t.entries.size := h
          have hvalue : t.entries[i].value = v := hv
          refine ⟨i, (Option.some.inj hfound).symm, ?_⟩
          simp [getElem?_toList, hi, hvalue]
        next => exact ih _ (Nat.lt_succ_of_le (t.next_le i h)) hfound

/-- A value on the chain is found, at its index or before it on the chain. -/
theorem searchFrom_isSome {t : UniqueTable α hash} {v : α} {i k : Nat} (h : i ≤ t.size)
    (hchain : t.OnChain i (k + 1)) (hv : t.toList[k]? = some v) : (t.searchFrom v i h).isSome = true := by
  generalize hj : k + 1 = j at hchain
  induction hchain with
  | head i =>
      subst hj
      have hk : k < t.entries.size := h
      have hvalue : t.entries[k].value = v := by simpa [getElem?_toList, hk] using hv
      rw [searchFrom]
      split
      next => rfl
      next hne => exact absurd hvalue hne
  | tail hi _ ih =>
      rw [searchFrom]
      split
      next => rfl
      next => exact ih _ hj

theorem IsChained.find?_eq_none {t : UniqueTable α hash} (ht : t.IsChained) {v : α} :
    t.find? v = none ↔ v ∉ t.toList := by
  constructor
  · intro hnone hv
    obtain ⟨k, hk, hkv⟩ := List.getElem_of_mem hv
    have hke : k < t.entries.size := by simpa [size] using hk
    have hentry : t.entries[k].value = v := by simpa [toList] using hkv
    have hsome := searchFrom_isSome (v := v) (t.headOf_le v) (hentry ▸ ht k hke) (by simp [getElem?_toList, hke, hentry])
    rw [find?] at hnone
    simp [hnone] at hsome
  · intro hv
    cases hfound : t.find? v with
    | none => rfl
    | some j =>
        obtain ⟨k, -, hk⟩ := getElem?_of_searchFrom hfound
        exact absurd (List.mem_of_getElem? hk) hv

/-- Inserting finds the value where it is stored, or appends it if it is not. -/
theorem IsChained.insert_cases {t : UniqueTable α hash} (ht : t.IsChained) (v : α) :
    (∃ k, t.insert v = (k + 1, t) ∧ t.toList[k]? = some v) ∨
      (v ∉ t.toList ∧ t.insert v = (t.size + 1, t.append v)) := by
  cases hfound : t.find? v with
  | some j =>
      obtain ⟨k, rfl, hk⟩ := getElem?_of_searchFrom hfound
      exact Or.inl ⟨k, by rw [insert, hfound], hk⟩
  | none => exact Or.inr ⟨ht.find?_eq_none.1 hfound, by rw [insert, hfound]⟩

end

theorem lt_size_append {t : UniqueTable α hash} (v : α) {i : Nat} (h : i < t.entries.size) :
    i < (t.append v).entries.size := by
  simp only [append, Array.size_push]
  omega

theorem getElem_append {t : UniqueTable α hash} (v : α) {i : Nat} (h : i < t.entries.size)
    (hnew : i < (t.append v).entries.size) : (t.append v).entries[i] = t.entries[i] := by
  simp [append, Array.getElem_push_lt h]

theorem OnChain.append {t : UniqueTable α hash} {i j : Nat} (h : t.OnChain i j) (v : α) : (t.append v).OnChain i j := by
  induction h with
  | head i => exact .head i
  | tail hi _ ih =>
      refine .tail (lt_size_append v hi) ?_
      rw [getElem_append v hi (lt_size_append v hi)]
      exact ih

/-- After an append, a chain starts at the new entry in the bucket of the new
value, and where it started before in every other bucket. -/
theorem headOf_append (t : UniqueTable α hash) (v w : α) :
    (t.append v).headOf w = if (t.bucketOf w).1 = (t.bucketOf v).1 then t.entries.size + 1 else t.headOf w := by
  have hsize : (t.append v).buckets.size = t.buckets.size := by simp [append]
  have hbucket : ((t.append v).bucketOf w).1 = (t.bucketOf w).1 := by simp [bucketOf, hsize]
  simp only [headOf, Fin.getElem_fin, hbucket]
  simp only [append, Array.getElem_set, eq_comm]

theorem headOf_eq_of_bucketOf_eq {t : UniqueTable α hash} {v w : α} (h : (t.bucketOf w).1 = (t.bucketOf v).1) :
    t.headOf w = t.headOf v := by
  simp [headOf, h]

theorem isChained_empty (bits : Nat) : (empty bits : UniqueTable α hash).IsChained := by
  intro i h
  simp [empty] at h

theorem IsChained.append {t : UniqueTable α hash} (ht : t.IsChained) (v : α) : (t.append v).IsChained := by
  intro i hi
  rcases Nat.lt_or_ge i t.entries.size with hold | hnew
  · rw [getElem_append v hold hi, headOf_append]
    have hchain := (ht i hold).append v
    split
    next hsame =>
      -- the new head leads to the former one
      refine .tail (by simp [UniqueTable.append]) ?_
      simpa [UniqueTable.append, headOf_eq_of_bucketOf_eq hsame] using hchain
    next => exact hchain
  · have hlast : i = t.entries.size := by
      simp only [UniqueTable.append, Array.size_push] at hi
      omega
    subst hlast
    have hvalue : (t.append v).entries[t.entries.size].value = v := by simp [UniqueTable.append]
    rw [hvalue, headOf_append, if_pos rfl]
    exact .head _

end Backslice.UniqueTable

import Backslice.Proofs.Lists
import Backslice.Proofs.TableSearch
import Mathlib

/-!
# A unique table is a list of distinct values

Whatever a table is asked, it answers as the list of the distinct values that
were put into it would: the index of a value is its place in this list, counted
from one. Neither the number of buckets nor the hash shows in the answers. The
list is known from the requests alone, and one request changes it by one value
at most, so that the whole run follows by induction on the requests.

A search is also followed entry by entry, as a loop that reads the value and the
link of one entry at a time and could use an index wrongly. It never does, since
a link leads to a smaller index and the loop stops at zero; for the same reason
it ends.
-/

namespace Backslice.UniqueTable

variable {α : Type} {hash : α → UInt64}

/-- Where a search stands: at an index that is looked at next, or at its end. -/
inductive Search where
  | looking (index : Nat)
  | ended (found : Option Nat)
deriving DecidableEq

section
variable [DecidableEq α]

/-- One round of the loop. Index zero ends the chain, and at every other index the entry is read. -/
def Search.step (t : UniqueTable α hash) (v : α) : Search → Except Misuse Search
  | .ended found => .ok (.ended found)
  | .looking i =>
      if i = 0 then .ok (.ended none)
      else do
        let w ← t.valueAt i
        if w = v then pure (.ended (some i))
        else
          let j ← t.nextAt i
          pure (.looking j)

/-- As many rounds as are asked for. -/
def Search.rounds (t : UniqueTable α hash) (v : α) : Nat → Search → Except Misuse Search
  | 0, s => .ok s
  | n + 1, s => do
      let s ← s.step t v
      s.rounds t v n

theorem Search.step_looking_zero (t : UniqueTable α hash) (v : α) :
    (Search.looking 0).step t v = .ok (.ended none) :=
  rfl

theorem Search.step_looking_succ {t : UniqueTable α hash} {i : Nat} (h : i < t.entries.size) (v : α) :
    (Search.looking (i + 1)).step t v =
      .ok (if t.entries[i].value = v then .ended (some (i + 1)) else .looking t.entries[i].next) := by
  have hentry : t.entryAt (i + 1) = .ok t.entries[i] := dif_pos h
  simp only [step, valueAt, nextAt, hentry, Except.map, bind, Except.bind, pure, Except.pure]
  rw [if_neg (Nat.succ_ne_zero i)]
  split <;> rfl

theorem Search.rounds_ended (t : UniqueTable α hash) (v : α) (n : Nat) (found : Option Nat) :
    (Search.ended found).rounds t v n = .ok (.ended found) := by
  induction n with
  | zero => rfl
  | succ n ih => exact ih

/-- The loop ends with what the search finds, after at most one round for each index down to zero. -/
theorem Search.rounds_looking {t : UniqueTable α hash} {v : α} {i n : Nat} (h : i ≤ t.size) (hn : i < n) :
    (Search.looking i).rounds t v n = .ok (.ended (t.searchFrom v i h)) := by
  induction i using Nat.strongRecOn generalizing n with
  | ind i ih =>
    cases n with
    | zero => exact absurd hn (Nat.not_lt_zero i)
    | succ n =>
        rw [rounds]
        cases i with
        | zero =>
            rw [step_looking_zero, searchFrom]
            exact rounds_ended t v n none
        | succ i =>
            rw [step_looking_succ h, searchFrom]
            simp only [bind, Except.bind]
            split
            next => exact rounds_ended t v n _
            next =>
              have hlink := t.next_le i h
              exact ih _ (Nat.lt_succ_of_le hlink) _ (by omega)

/-- The loop of a search makes no wrong use of an index, and ends within one round more than there are values. -/
theorem Search.rounds_headOf (t : UniqueTable α hash) (v : α) :
    (Search.looking (t.headOf v)).rounds t v (t.size + 1) = .ok (.ended (t.find? v)) :=
  rounds_looking (t.headOf_le v) (Nat.lt_succ_of_le (t.headOf_le v))

end

/-- What can be asked of a table. -/
inductive Request (α : Type) where
  | put (v : α)
  | find (v : α)
deriving DecidableEq

namespace Request

/-- The value that a request is about. -/
def value : Request α → α
  | .put v | .find v => v

/-- The value that a request puts into a table. -/
def put? : Request α → Option α
  | .put v => some v
  | .find _ => none

end Request

variable [DecidableEq α]

/-- The distinct values that requests put, each where it is put for the first time. -/
def distinctPut (rs : List (Request α)) : List α :=
  (rs.filterMap Request.put?).eraseDups

/-- Answer a request with an index, if there is one. -/
def answer (t : UniqueTable α hash) : Request α → Option Nat × UniqueTable α hash
  | .put v =>
      let (i, t) := t.insert v
      (some i, t)
  | .find v => (t.find? v, t)

/-- Answer requests one after the other. -/
def serve (t : UniqueTable α hash) : List (Request α) → List (Option Nat) × UniqueTable α hash
  | [] => ([], t)
  | r :: rs =>
      let (found, t) := t.answer r
      let (rest, t) := t.serve rs
      (found :: rest, t)

/-- The place of a value in a list, counted from one. -/
def placeIn (values : List α) (v : α) : Option Nat :=
  (values.idxOf? v).map (· + 1)

/-- The answers that follow from the requests alone, the first of which come after `earlier`. -/
def answersAfter (earlier : List (Request α)) : List (Request α) → List (Option Nat)
  | [] => []
  | r :: rs => placeIn (distinctPut (earlier ++ [r])) r.value :: answersAfter (earlier ++ [r]) rs

theorem nodup_distinctPut (rs : List (Request α)) : (distinctPut rs).Nodup :=
  List.nodup_eraseDups _

theorem mem_distinctPut {rs : List (Request α)} {v : α} : v ∈ distinctPut rs ↔ .put v ∈ rs := by
  rw [distinctPut, List.mem_eraseDups, List.mem_filterMap]
  constructor
  · rintro ⟨r, hr, hput⟩
    cases r with
    | put w => exact Option.some.inj hput ▸ hr
    | find w => cases hput
  · exact fun h => ⟨.put v, h, rfl⟩

theorem distinctPut_find (rs : List (Request α)) (v : α) : distinctPut (rs ++ [.find v]) = distinctPut rs := by
  have hnone : [Request.find v].filterMap Request.put? = [] := rfl
  rw [distinctPut, List.filterMap_append, hnone, List.append_nil, distinctPut]

theorem distinctPut_put (rs : List (Request α)) (v : α) :
    distinctPut (rs ++ [.put v]) = if v ∈ distinctPut rs then distinctPut rs else distinctPut rs ++ [v] := by
  have hone : [Request.put v].filterMap Request.put? = [v] := rfl
  rw [distinctPut, List.filterMap_append, hone, List.eraseDups_concat]
  simp only [distinctPut, List.mem_eraseDups]

/-- Later requests put further values behind those that are put already. -/
theorem distinctPut_prefix (rs later : List (Request α)) : distinctPut rs <+: distinctPut (rs ++ later) := by
  rw [distinctPut, distinctPut, List.filterMap_append, List.eraseDups_append]
  exact List.prefix_append _ _

theorem placeIn_eq_none {values : List α} {v : α} : placeIn values v = none ↔ v ∉ values := by
  rw [placeIn, Option.map_eq_none_iff, List.idxOf?_eq_none_iff]

theorem placeIn_eq_some {values : List α} (h : values.Nodup) {v : α} {i : Nat} :
    placeIn values v = some i ↔ ∃ k, i = k + 1 ∧ values[k]? = some v := by
  simp only [placeIn, Option.map_eq_some_iff, List.idxOf?_eq_some_iff]
  constructor
  · rintro ⟨k, ⟨hk, hv, -⟩, rfl⟩
    exact ⟨k, rfl, List.getElem?_eq_some_iff.2 ⟨hk, hv⟩⟩
  · rintro ⟨k, rfl, hv⟩
    obtain ⟨hk, hvalue⟩ := List.getElem?_eq_some_iff.1 hv
    refine ⟨k, ⟨hk, hvalue, fun j hj heq => ?_⟩, rfl⟩
    exact Nat.ne_of_lt hj (h.getElem_inj_iff.1 (heq.trans hvalue.symm))

/-- Whether a table holds what requests have put, and finds it. -/
structure Follows (t : UniqueTable α hash) (rs : List (Request α)) : Prop where
  chained : t.IsChained
  toList_eq : t.toList = distinctPut rs

namespace Follows

variable {t : UniqueTable α hash} {rs : List (Request α)}

theorem empty (bits : Nat) : (UniqueTable.empty bits : UniqueTable α hash).Follows [] :=
  ⟨isChained_empty bits, toList_empty bits⟩

theorem find?_eq (h : t.Follows rs) (v : α) : t.find? v = placeIn (distinctPut rs) v := by
  cases hfound : t.find? v with
  | none =>
      have hv := h.chained.find?_eq_none.1 hfound
      exact (placeIn_eq_none.2 (h.toList_eq ▸ hv)).symm
  | some i =>
      obtain ⟨k, rfl, hk⟩ := getElem?_of_searchFrom hfound
      exact ((placeIn_eq_some (nodup_distinctPut rs)).2 ⟨k, rfl, h.toList_eq ▸ hk⟩).symm

/-- One request is answered by the place of its value, and a new value comes last. -/
theorem answer (h : t.Follows rs) (r : Request α) :
    (t.answer r).1 = placeIn (distinctPut (rs ++ [r])) r.value ∧ (t.answer r).2.Follows (rs ++ [r]) := by
  cases r with
  | find v =>
      rw [distinctPut_find]
      exact ⟨h.find?_eq v, h.chained, (distinctPut_find rs v).symm ▸ h.toList_eq⟩
  | put v =>
      have hplace : ∀ {k : Nat}, (distinctPut (rs ++ [.put v]))[k]? = some v →
          some (k + 1) = placeIn (distinctPut (rs ++ [.put v])) v := fun hk =>
        ((placeIn_eq_some (nodup_distinctPut _)).2 ⟨_, rfl, hk⟩).symm
      rcases h.chained.insert_cases v with ⟨k, hinsert, hk⟩ | ⟨hnew, hinsert⟩
      · have hsame : distinctPut (rs ++ [.put v]) = t.toList := by
          rw [distinctPut_put, ← h.toList_eq, if_pos (List.mem_of_getElem? hk)]
        simp only [UniqueTable.answer, hinsert]
        exact ⟨hplace (hsame ▸ hk), h.chained, hsame.symm⟩
      · have hlonger : distinctPut (rs ++ [.put v]) = t.toList ++ [v] := by
          rw [distinctPut_put, ← h.toList_eq, if_neg hnew]
        have hlast : (t.toList ++ [v])[t.size]? = some v := by
          rw [← t.length_toList, List.getElem?_concat_length]
        simp only [UniqueTable.answer, hinsert]
        exact ⟨hplace (hlonger ▸ hlast), h.chained.append v, (toList_append t v).trans hlonger.symm⟩

/-- So are all requests of a run, by induction on the requests that are left. -/
theorem serve {earlier : List (Request α)} (h : t.Follows earlier) (rs : List (Request α)) :
    (t.serve rs).1 = answersAfter earlier rs ∧ (t.serve rs).2.Follows (earlier ++ rs) := by
  induction rs generalizing t earlier with
  | nil => exact ⟨rfl, (List.append_nil earlier).symm ▸ h⟩
  | cons r rs ih =>
      obtain ⟨hanswer, hnext⟩ := h.answer r
      obtain ⟨hrest, hlast⟩ := ih hnext
      refine ⟨?_, ?_⟩
      · rw [UniqueTable.serve, answersAfter, ← hanswer, ← hrest]
      · rw [← List.append_cons] at hlast
        exact hlast

theorem valueAt_iff (h : t.Follows rs) {i : Nat} {v : α} :
    t.valueAt i = .ok v ↔ ∃ k, i = k + 1 ∧ (distinctPut rs)[k]? = some v := by
  rw [valueAt_eq_ok, h.toList_eq]

end Follows

theorem buckets_size_serve (t : UniqueTable α hash) (rs : List (Request α)) :
    (t.serve rs).2.buckets.size = t.buckets.size := by
  induction rs generalizing t with
  | nil => rfl
  | cons r rs ih =>
      have hanswer : (t.answer r).2.buckets.size = t.buckets.size := by
        cases r with
        | find v => rfl
        | put v =>
            simp only [answer, insert]
            split
            · rfl
            · exact Array.size_set (t.bucketOf v).isLt
      exact (ih (t.answer r).2).trans hanswer

/-- The bucket of a value is what the mask of the width leaves of its hash. -/
theorem bucketOf_serve (bits : Nat) (rs : List (Request α)) (v : α) :
    (((empty bits : UniqueTable α hash).serve rs).2.bucketOf v).1 =
      (hash v).toNat &&& (2 ^ min bits maxBucketBits - 1) := by
  have hsize : ((empty bits : UniqueTable α hash).serve rs).2.buckets.size = 2 ^ min bits maxBucketBits :=
    (buckets_size_serve _ rs).trans Array.size_replicate
  rw [Nat.and_two_pow_sub_one_eq_mod]
  exact congrArg ((hash v).toNat % ·) hsize

/-- Whether a table is the list of the distinct values that requests have put into it, counted from one. -/
structure Refines (t : UniqueTable α hash) (rs : List (Request α)) : Prop where
  size_eq : t.size = (distinctPut rs).length
  value_iff (i : Nat) (v : α) : t.valueAt i = .ok v ↔ ∃ k, i = k + 1 ∧ (distinctPut rs)[k]? = some v
  value_stays (later : List (Request α)) (i : Nat) (v : α) :
    t.valueAt i = .ok v → (t.serve later).2.valueAt i = .ok v
  put_iff (v : α) (i : Nat) :
    (t.answer (.put v)).1 = some i ↔ ∃ k, i = k + 1 ∧ (distinctPut (rs ++ [.put v]))[k]? = some v
  find_eq (v : α) : (t.answer (.find v)).1 = if .put v ∈ rs then (t.answer (.put v)).1 else none
  /-- A search makes no wrong use of an index, and ends. -/
  search_ends (v : α) : (Search.looking (t.headOf v)).rounds t v (t.size + 1) = .ok (.ended (t.find? v))

theorem Follows.refines {t : UniqueTable α hash} {rs : List (Request α)} (h : t.Follows rs) : t.Refines rs where
  size_eq := by rw [← h.toList_eq, t.length_toList]
  value_iff _ _ := h.valueAt_iff
  value_stays later i v hv := by
    obtain ⟨k, rfl, hk⟩ := h.valueAt_iff.1 hv
    obtain ⟨more, hmore⟩ := distinctPut_prefix rs later
    refine (h.serve later).2.valueAt_iff.2 ⟨k, rfl, ?_⟩
    rw [← hmore, List.getElem?_append_left (List.getElem?_eq_some_iff.1 hk).1, hk]
  put_iff v i := by
    rw [(h.answer (.put v)).1]
    exact placeIn_eq_some (nodup_distinctPut _)
  find_eq v := by
    rw [(h.answer (.find v)).1, (h.answer (.put v)).1, distinctPut_find, distinctPut_put]
    simp only [Request.value, ← mem_distinctPut]
    split
    next => rfl
    next hnew => exact placeIn_eq_none.2 hnew
  search_ends := Search.rounds_headOf t

/-- A unique table refines the list of the distinct values put into it. A table of any admitted width, with any hash,
answers any requests by places in this list, counted from one: `put` gives the place of its value, and `find` gives
the same place if the value was put before, and none otherwise. The value at a place never changes, and no place is
left free. Every search ends, and none reads at index zero or behind the last entry. Tables of other widths, with
other hashes, give the same answers. -/
theorem refines_distinct_values {bits : Nat} (h : bits ≤ 31) (rs : List (Request α)) :
    ∃ created : UniqueTable α hash, withBits bits = .ok created ∧ (created.serve rs).2.Refines rs ∧
      ∀ (bits' : Nat) (hash' : α → UInt64) (created' : UniqueTable α hash'), withBits bits' = .ok created' →
        (created'.serve rs).1 = (created.serve rs).1 := by
  have hanswers : ∀ (bits' : Nat) (hash' : α → UInt64) (created' : UniqueTable α hash'),
      withBits bits' = .ok created' → created'.Follows [] := by
    intro bits' hash' created' hcreated
    unfold withBits at hcreated
    split at hcreated
    · exact Except.ok.inj hcreated ▸ Follows.empty bits'
    · cases hcreated
  have hcreated : withBits bits = .ok (empty bits : UniqueTable α hash) := if_pos h
  obtain ⟨hserved, hfollows⟩ := (hanswers bits hash _ hcreated).serve rs
  refine ⟨_, hcreated, hfollows.refines, fun bits' hash' created' hcreated' => ?_⟩
  rw [hserved, ((hanswers bits' hash' created' hcreated').serve rs).1]

/-- Values that are put and looked for again, before and after they are there. -/
def putTwice : List (Request Nat) :=
  [.find 7, .put 5, .put 7, .put 5, .find 7, .put 9]

/-- In one bucket, where all hashes collide. -/
theorem refines_distinct_values_putTwice :
    0 ≤ 31 ∧
      ∃ created : UniqueTable Nat (fun _ => 0), withBits 0 = .ok created ∧
        (created.serve putTwice).1 = [none, some 1, some 2, some 1, some 2, some 3] ∧
        (created.serve putTwice).2.Refines putTwice ∧
        ∀ (bits' : Nat) (hash' : Nat → UInt64) (created' : UniqueTable Nat hash'), withBits bits' = .ok created' →
          (created'.serve putTwice).1 = [none, some 1, some 2, some 1, some 2, some 3] := by
  have hanswers : (withBits 0 : Except Misuse (UniqueTable Nat fun _ => 0)).map (fun created =>
      (created.serve putTwice).1) = .ok [none, some 1, some 2, some 1, some 2, some 3] := by
    cbv
  obtain ⟨created, hcreated, hrefines, hsame⟩ := refines_distinct_values (Nat.zero_le 31) putTwice
  rw [hcreated] at hanswers
  have hfirst := Except.ok.inj hanswers
  exact ⟨Nat.zero_le 31, created, hcreated, hfirst, hrefines, fun bits' hash' created' hcreated' =>
    (hsame bits' hash' created' hcreated').trans hfirst⟩

end Backslice.UniqueTable

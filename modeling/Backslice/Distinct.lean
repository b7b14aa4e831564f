import Backslice.Sharing
import Std.Data.HashMap

/-!
# Lists without repetitions

The members of a list at their first occurrence, as `List.eraseDups` finds them,
without a comparison of every member with every other. Members get a key that
equal members have in common, and only members with one key are compared. The
key of a term is its digest, a number computed from the leaves up.

The members of short lists are compared with one another.
-/

namespace Backslice

namespace Distinct

variable {α β : Type}

/-- Keep the members that are not among those kept already; `seen` lists these by their key. -/
def collect (same : α → α → Bool) :
    List (α × UInt64) → List α → Std.HashMap UInt64 (List α) → List α
  | [], kept, _ => kept.reverse
  | (a, key) :: rest, kept, seen =>
      let alike := seen.getD key []
      if alike.any (same a) then collect same rest kept seen
      else collect same rest (a :: kept) (seen.insert key (a :: alike))

theorem collect_eq_loop {same : α → α → Bool} (key : α → UInt64)
    (key_eq : ∀ a b, same a b = true → key a = key b) (as kept : List α)
    (seen : Std.HashMap UInt64 (List α))
    (any_seen : ∀ a, (seen.getD (key a) []).any (same a) = kept.any (same a)) :
    collect same (as.map fun a => (a, key a)) kept seen = List.eraseDupsBy.loop same as kept := by
  induction as generalizing kept seen with
  | nil => simp [collect, List.eraseDupsBy.loop]
  | cons a as ih =>
      rw [List.map_cons, collect, any_seen, List.eraseDupsBy.loop]
      cases kept.any (same a) with
      | true => exact ih kept seen any_seen
      | false =>
          refine ih (a :: kept) _ fun b => ?_
          rw [Std.HashMap.getD_insert]
          by_cases h : key a = key b
          · simp [h, any_seen]
          · have hs : same b a = false := by
              cases hb : same b a with
              | false => rfl
              | true => exact absurd (key_eq b a hb).symm h
            simp [h, any_seen, hs]

/-- The members of a list at their first occurrence. Unless the members are
`small`, keys and comparisons are those of copies in which equal subterms are one object. -/
def byKey [BEq α] (small : Bool) (keys : List α → List UInt64) (as : List α) : List α :=
  let copies := if small then as else ShareCommon.shareCommon' as
  (collect (fun x y : α × α => x.2 == y.2) ((as.zip copies).zip (keys copies)) [] ∅).map (·.1)

theorem zip_zip_map (key : α → β) (as : List α) :
    (as.zip as).zip (as.map key) = (as.map fun a => (a, a)).map fun x => (x, key x.2) := by
  induction as <;> simp_all

theorem loop_diagonal [BEq α] (as kept : List α) :
    (List.eraseDupsBy.loop (fun x y : α × α => x.2 == y.2) (as.map fun a => (a, a))
        (kept.map fun a => (a, a))).map (·.1) =
      List.eraseDupsBy.loop (· == ·) as kept := by
  induction as generalizing kept with
  | nil => simp [List.eraseDupsBy.loop, Function.comp_def]
  | cons a as ih =>
      simp only [List.map_cons, List.eraseDupsBy.loop, List.any_map, Function.comp_def]
      cases kept.any fun b => a == b with
      | true => exact ih kept
      | false => exact ih (a :: kept)

theorem byKey_eq_eraseDups [BEq α] [LawfulBEq α] (small : Bool) {keys : List α → List UInt64}
    (key : α → UInt64) (keys_eq : ∀ as, keys as = as.map key) (as : List α) :
    byKey small keys as = as.eraseDups := by
  have copies_eq : (if small then as else ShareCommon.shareCommon' as) = as := by split <;> rfl
  have h := collect_eq_loop (fun x : α × α => key x.2)
    (fun x y hxy => congrArg key (eq_of_beq hxy)) (as.map fun a => (a, a)) [] ∅ (by simp)
  rw [← zip_zip_map key as, ← keys_eq as] at h
  rw [byKey, copies_eq]
  exact (congrArg (List.map (·.1)) h).trans (loop_diagonal as [])

end Distinct

namespace Term

/-- A number for the head of a term. -/
def headDigest : Term → UInt64
  | .const v => mixHash 1 v
  | .var n => mixHash 2 (hash n)
  | .reg n o s => mixHash (mixHash 3 (hash n)) (mixHash o.toUInt64 s.toUInt64)
  | .mem _ => 4
  | .unary op _ => mixHash 5 op.code
  | .binary op _ _ => mixHash 6 op.code
  | .bool b => mixHash 7 (wordOfBool b)
  | .eq _ _ => 8
  | .not _ => 9
  | .and _ => 10
  | .or _ => 11
  | .quantified q _ _ => if q = .existential then 12 else 13
  | .ite _ _ _ => 14

/-- A number for a term, from the numbers of its children. -/
def digestStep (t : Term) (children : List UInt64) : UInt64 :=
  children.foldl mixHash t.headDigest

def digest : Term → UInt64 :=
  foldUp digestStep

def digests (ts : List Term) : List UInt64 :=
  foldUpAllShared digestStep ts

theorem digests_eq_map (ts : List Term) : digests ts = ts.map digest :=
  foldUpAllShared_eq_map digestStep ts

/-- The members of a list at their first occurrence. -/
def distinct (ts : List Term) : List Term :=
  if ts.length ≤ 8 then ts.eraseDupsBy equals
  else Distinct.byKey (ts.all isSmall) digests ts

@[simp]
theorem distinct_eq_eraseDups (ts : List Term) : distinct ts = ts.eraseDups := by
  have h : equals = (· == ·) := by
    funext t u
    rw [equals_eq_decide]
    rfl
  unfold distinct
  split
  next => rw [h, List.eraseDups]
  next => exact Distinct.byKey_eq_eraseDups _ digest digests_eq_map ts

/-- The digests of the members of a list of lists. -/
def listDigests (small : Bool) (tss : List (List Term)) : List UInt64 :=
  let ts := tss.map .and
  if small then ts.map digest else digests ts

theorem listDigests_eq_map (small : Bool) (tss : List (List Term)) :
    listDigests small tss = tss.map (digest ∘ .and) := by
  unfold listDigests
  split <;> simp [digests_eq_map]

/-- The members of a list of lists at their first occurrence. -/
def distinctLists (tss : List (List Term)) : List (List Term) :=
  if tss.length ≤ 8 then tss.eraseDupsBy equalsAll
  else
    let small := tss.all (·.all isSmall)
    Distinct.byKey small (listDigests small) tss

@[simp]
theorem distinctLists_eq_eraseDups (tss : List (List Term)) : distinctLists tss = tss.eraseDups := by
  have h : equalsAll = (· == ·) := by
    funext ts us
    rw [equalsAll_eq_decide, Bool.eq_iff_iff]
    simp
  unfold distinctLists
  split
  next => rw [h, List.eraseDups]
  next => exact Distinct.byKey_eq_eraseDups _ (digest ∘ .and) (listDigests_eq_map _) tss

end Term
end Backslice

import Mathlib.Algebra.GroupWithZero.Nat
import Mathlib.Data.List.Forall2
import Mathlib.Data.List.Induction
import Mathlib.Data.List.Nodup

/-!
# Lists and outcomes

Erasing repetitions keeps the members of a list at their first occurrence. It
commutes with injective maps and with filters, and what is erased early makes no
difference later. A partial function maps a list if it maps every member. What
changes one place of a list changes the member with the key of this place. And
where something has come out of an outcome, there has been no error.
-/

namespace List

variable {α β : Type}

section
variable [BEq α] [LawfulBEq α] [BEq β] [LawfulBEq β]

theorem nodup_eraseDups (as : List α) : as.eraseDups.Nodup := by
  cases as with
  | nil => exact nodup_nil
  | cons a as =>
      rw [eraseDups_cons, nodup_cons]
      refine ⟨fun h => ?_, nodup_eraseDups _⟩
      simp at h
termination_by as.length
decreasing_by exact Nat.lt_succ_of_le (length_filter_le _ _)

theorem eraseDups_of_nodup {as : List α} (h : as.Nodup) : as.eraseDups = as := by
  induction as with
  | nil => rfl
  | cons a as ih =>
      obtain ⟨ha, has⟩ := nodup_cons.1 h
      have hfilter : as.filter (fun b => !b == a) = as :=
        filter_eq_self.2 fun b hb => by simpa using ne_of_mem_of_not_mem hb ha
      rw [eraseDups_cons, hfilter, ih has]

theorem eraseDups_eraseDups (as : List α) : as.eraseDups.eraseDups = as.eraseDups :=
  eraseDups_of_nodup (nodup_eraseDups as)

theorem eraseDups_concat (as : List α) (a : α) :
    (as ++ [a]).eraseDups = if a ∈ as then as.eraseDups else as.eraseDups ++ [a] := by
  rw [eraseDups_append]
  split
  next h => simp [removeAll, h]
  next h => simp [removeAll, h, eraseDups_cons]

theorem eraseDups_of_forall_eq {as : List α} {a : α} (hne : as ≠ []) (h : ∀ b ∈ as, b = a) : as.eraseDups = [a] := by
  cases as with
  | nil => exact absurd rfl hne
  | cons b bs =>
      obtain rfl := h b mem_cons_self
      have hnothing : (bs.filter fun c => !c == b) = [] :=
        filter_eq_nil_iff.2 fun c hc => by simp [h c (mem_cons_of_mem b hc)]
      rw [eraseDups_cons, hnothing, eraseDups_nil]

theorem eraseDups_prefix {as bs : List α} (h : as <+: bs) : as.eraseDups <+: bs.eraseDups := by
  obtain ⟨rest, rfl⟩ := h
  rw [eraseDups_append]
  exact prefix_append _ _

theorem eraseDups_map {f : α → β} (hf : Function.Injective f) (as : List α) :
    (as.map f).eraseDups = as.eraseDups.map f := by
  induction as using reverseRecOn with
  | nil => rfl
  | append_singleton as a ih =>
      rw [map_append, map_singleton, eraseDups_concat, eraseDups_concat, ih]
      by_cases ha : a ∈ as
      · rw [if_pos ha, if_pos (mem_map_of_mem ha)]
      · rw [if_neg ha, if_neg (mt (mem_map_of_injective hf).1 ha), map_append, map_singleton]

theorem eraseDups_filter (p : α → Bool) (as : List α) : (as.filter p).eraseDups = as.eraseDups.filter p := by
  induction as using reverseRecOn with
  | nil => rfl
  | append_singleton as a ih =>
      rw [filter_append, eraseDups_concat]
      by_cases hp : p a = true
      · rw [filter_cons_of_pos hp, filter_nil, eraseDups_concat, ih]
        simp only [mem_filter, hp, and_true]
        split
        next => rfl
        next => rw [filter_append, filter_cons_of_pos hp, filter_nil]
      · rw [filter_cons_of_neg hp, filter_nil, append_nil, ih]
        split
        next => rfl
        next => rw [filter_append, filter_cons_of_neg hp, filter_nil, append_nil]

theorem eraseDups_append_eq (as bs : List α) :
    (as ++ bs).eraseDups = as.eraseDups ++ bs.eraseDups.filter (· ∉ as.eraseDups) := by
  rw [eraseDups_append, removeAll, eraseDups_filter]
  refine congrArg _ (filter_congr fun b _ => ?_)
  simp

theorem eraseDups_append_eraseDups (as bs : List α) : (as ++ bs.eraseDups).eraseDups = (as ++ bs).eraseDups := by
  rw [eraseDups_append_eq, eraseDups_append_eq, eraseDups_eraseDups]

theorem eraseDups_eraseDups_append (as bs : List α) : (as.eraseDups ++ bs).eraseDups = (as ++ bs).eraseDups := by
  rw [eraseDups_append_eq, eraseDups_append_eq, eraseDups_eraseDups]

theorem eraseDups_flatMap_eraseDups (f : α → List β) (as : List α) :
    (as.eraseDups.flatMap f).eraseDups = (as.flatMap f).eraseDups := by
  induction as using reverseRecOn with
  | nil => rfl
  | append_singleton as a ih =>
      rw [eraseDups_concat, flatMap_append, flatMap_singleton]
      by_cases ha : a ∈ as
      · have hnothing : (f a).removeAll (as.flatMap f) = [] :=
          filter_eq_nil_iff.2 fun b hb => by simpa using ⟨a, ha, hb⟩
        rw [if_pos ha, ih, eraseDups_append, hnothing, eraseDups_nil, append_nil]
      · rw [if_neg ha, flatMap_append, flatMap_singleton, ← eraseDups_eraseDups_append, ih, eraseDups_eraseDups_append]

end

theorem takeWhile_append_eq {p : α → Bool} {as bs : List α} (has : ∀ a ∈ as, p a = true)
    (hbs : ∀ b ∈ bs.head?, p b = false) : (as ++ bs).takeWhile p = as ∧ (as ++ bs).dropWhile p = bs := by
  rw [takeWhile_append_of_pos has, dropWhile_append_of_pos has]
  cases bs with
  | nil => simp
  | cons b bs => simp [hbs b rfl]

theorem forall_getD {P : α → Prop} {as : List α} (has : ∀ a ∈ as, P a) {a : α} (ha : P a) (i : Nat) :
    P (as.getD i a) := by
  rw [getD_eq_getElem?_getD]
  cases hi : as[i]? with
  | none => exact ha
  | some b => exact has b (mem_of_getElem? hi)

theorem forall_mem_flatMap_toList {P : β → Prop} {a? : Option α} {f : α → List β} :
    (∀ b ∈ a?.toList.flatMap f, P b) ↔ ∀ a, a? = some a → ∀ b ∈ f a, P b := by
  cases a? <;> simp

theorem mapM_eq_some_iff {f : α → Option β} {as : List α} {bs : List β} :
    as.mapM f = some bs ↔ as.map f = bs.map some := by
  induction as generalizing bs with
  | nil => cases bs <;> simp
  | cons a as ih =>
      rw [mapM_cons]
      cases bs with
      | nil => cases f a <;> cases as.mapM f <;> simp
      | cons b bs =>
          simp only [map_cons, cons.injEq, ← ih]
          cases f a <;> cases as.mapM f <;> simp

theorem forall₂_iff_mapM {f : α → Option β} {as : List α} {bs : List β} :
    Forall₂ (fun a b => f a = some b) as bs ↔ as.mapM f = some bs := by
  rw [mapM_eq_some_iff, ← forall₂_eq_eq_eq, forall₂_map_left_iff, forall₂_map_right_iff]

theorem exists_of_mem_mapM {f : α → Option β} {as : List α} {bs : List β} (h : as.mapM f = some bs) {b : β}
    (hb : b ∈ bs) : ∃ a ∈ as, f a = some b := by
  have hmem : some b ∈ as.map f := mapM_eq_some_iff.1 h ▸ mem_map_of_mem hb
  exact mem_map.1 hmem

/-- A list is mapped to the same values by whatever finds all values that were found. -/
theorem map_eq_some_mono {f g : α → Option β} (h : ∀ {a : α} {b : β}, f a = some b → g a = some b) {as : List α}
    {bs : List β} (hmap : as.map f = bs.map some) : as.map g = bs.map some := by
  induction as generalizing bs with
  | nil => exact hmap
  | cons a as ih =>
      cases bs with
      | nil => cases hmap
      | cons b bs =>
          obtain ⟨hfirst, hrest⟩ := cons.inj hmap
          rw [map_cons, map_cons, h hfirst, ih hrest]

theorem getElem?_concat_eq_some_iff {as : List α} {a b : α} {n : Nat} :
    (as ++ [a])[n]? = some b ↔ as[n]? = some b ∨ (n = as.length ∧ a = b) := by
  grind

theorem map_modify_of_apply_eq {key : α → β} {f : α → α} (hf : ∀ a, key (f a) = key a) (n : Nat) (as : List α) :
    (as.modify n f).map key = as.map key := by
  refine ext_getElem? fun m => ?_
  rw [getElem?_map, getElem?_map, getElem?_modify]
  cases as[m]? with
  | none => rfl
  | some a =>
      by_cases h : n = m
      · simp [h, hf]
      · simp [h]

/-- What changes one place changes the only element with the key of this place. -/
theorem exists_of_mem_modify {as : List α} {key : α → β} (hnodup : (as.map key).Nodup) {n : Nat} {b : β}
    (hn : (as.map key)[n]? = some b) {f : α → α} {c : α} (hc : c ∈ as.modify n f) :
    ∃ a ∈ as, (key a = b ∧ f a = c) ∨ (key a ≠ b ∧ a = c) := by
  obtain ⟨m, hm⟩ := mem_iff_getElem?.1 hc
  rw [getElem?_modify] at hm
  obtain ⟨a, ha, hac⟩ := Option.map_eq_some_iff.1 hm
  refine ⟨a, mem_of_getElem? ha, ?_⟩
  have hkey : (as.map key)[m]? = some (key a) := by rw [getElem?_map, ha, Option.map_some]
  obtain ⟨hlt, -⟩ := getElem?_eq_some_iff.1 hn
  have hplace : n = m ↔ key a = b := by
    rw [← getElem?_inj hlt hnodup, hn, hkey, Option.some_inj, eq_comm]
  by_cases h : n = m
  · exact Or.inl ⟨hplace.1 h, by rw [← hac, if_pos h]⟩
  · exact Or.inr ⟨mt hplace.2 h, by rw [← hac, if_neg h]⟩

/-- A count of members pays for itself, if each counted member takes one away. -/
theorem sum_add_countP_le {f g : α → Nat} {counted : α → Bool} {as : List α}
    (h : ∀ a ∈ as, f a + (counted a).toNat ≤ g a) : (as.map f).sum + as.countP counted ≤ (as.map g).sum := by
  induction as with
  | nil => simp
  | cons a as ih =>
      have hhead := h a mem_cons_self
      have htail := ih fun b hb => h b (mem_cons_of_mem a hb)
      rw [map_cons, map_cons, sum_cons, sum_cons, countP_cons]
      cases hcounted : counted a <;> simp only [hcounted, Bool.toNat_false, Bool.toNat_true] at hhead <;> simp <;> omega

end List

theorem Except.exists_of_map_eq_ok {ε α β : Type} {f : α → β} {outcome : Except ε α} {b : β}
    (h : outcome.map f = .ok b) : ∃ a, outcome = .ok a ∧ f a = b := by
  cases outcome with
  | error e => cases h
  | ok a => exact ⟨a, rfl, Except.ok.inj h⟩

import Backslice.Proofs.AtomTransfer
import Backslice.Proofs.Lists
import Mathlib.Data.List.GetD
import Mathlib.Logic.Equiv.Basic

/-!
# Renaming of variables

A permutation of the names renames the variables of a term. Connectives compare
their operands, rules compare parts of a term with what they have bound, and
none of them looks into a name; so matching, replacing and splitting commute
with renaming. What does not mention the renamed variables is left alone.

The set before an assignment has no placeholder in it. A renaming that takes one
choice of placeholders to another one therefore shows that the choice does not
matter.
-/

namespace Backslice

namespace Term

mutual

/-- The term with other names for its variables. -/
@[simp]
def rename (π : Equiv.Perm String) : Term → Term
  | .const v => .const v
  | .var n => .var (π n)
  | .reg n o s => .reg n o s
  | .mem a => .mem (rename π a)
  | .unary op a => .unary op (rename π a)
  | .binary op a b => .binary op (rename π a) (rename π b)
  | .bool b => .bool b
  | .eq a b => .eq (rename π a) (rename π b)
  | .not a => .not (rename π a)
  | .and xs => .and (renameAll π xs)
  | .or xs => .or (renameAll π xs)
  | .quantified q a b => .quantified q (rename π a) (rename π b)
  | .ite c a b => .ite (rename π c) (rename π a) (rename π b)

def renameAll (π : Equiv.Perm String) : List Term → List Term
  | [] => []
  | x :: xs => rename π x :: renameAll π xs

end

section
variable (π : Equiv.Perm String)

@[simp]
theorem renameAll_eq_map (xs : List Term) : renameAll π xs = xs.map (rename π) := by
  induction xs with
  | nil => rfl
  | cons x xs ih => simp [renameAll, ih]

theorem children_rename (t : Term) : (t.rename π).children = t.children.map (rename π) := by
  cases t <;> simp [children]

theorem rename_symm_rename (t : Term) : (t.rename π).rename π.symm = t := by
  induction t using inductionOnChildren with
  | step t ih =>
      cases t with
      | and xs | or xs =>
          have hxs : xs.map (rename π.symm ∘ rename π) = xs := (List.map_congr_left ih).trans (List.map_id xs)
          simp only [rename, renameAll_eq_map, List.map_map, hxs]
      | _ => simp_all [children]

theorem rename_injective : Function.Injective (rename π) := fun t u h => by
  have hback := congrArg (rename π.symm) h
  rwa [rename_symm_rename, rename_symm_rename] at hback

@[simp]
theorem rename_inj {t u : Term} : t.rename π = u.rename π ↔ t = u :=
  (rename_injective π).eq_iff

theorem mem_map_rename {t : Term} {ts : List Term} : t.rename π ∈ ts.map (rename π) ↔ t ∈ ts := by
  simp

theorem rename_of_forall {t : Term} (h : ∀ n, .var n ∈ t.subterms → π n = n) : t.rename π = t := by
  induction t using inductionOnChildren with
  | step t ih =>
      have hchild : ∀ c ∈ t.children, c.rename π = c := fun c hc =>
        ih c hc fun n hn => h n (mem_subterms_of_mem_children hc hn)
      cases t with
      | var n => rw [rename, h n (mem_subterms_self _)]
      | and xs | or xs =>
          have hxs : xs.map (rename π) = xs := (List.map_congr_left hchild).trans (List.map_id xs)
          simp only [rename, renameAll_eq_map, hxs]
      | _ => simp_all [children]

theorem conjuncts_rename (t : Term) : (t.rename π).conjuncts = t.conjuncts.map (rename π) := by
  cases t with
  | const v => cases h : (v != 0) <;> simp [conjuncts, asFormula, h]
  | bool b => cases b <;> simp [conjuncts, asFormula]
  | _ => simp [conjuncts, asFormula]

theorem disjuncts_rename (t : Term) : (t.rename π).disjuncts = t.disjuncts.map (rename π) := by
  cases t with
  | const v => cases h : (v != 0) <;> simp [disjuncts, asFormula, h]
  | bool b => cases b <;> simp [disjuncts, asFormula]
  | _ => simp [disjuncts, asFormula]

theorem negate_rename (t : Term) : (t.rename π).negate = t.negate.rename π := by
  cases t <;> rfl

theorem joined_rename (unit : Bool) {wrap : List Term → Term} (hwrap : ∀ ts, (wrap ts).rename π = wrap (ts.map (rename π)))
    (ts : List Term) : joined unit wrap (ts.map (rename π)) = (joined unit wrap ts).rename π := by
  match ts with
  | [] => rfl
  | [_] => rfl
  | t :: u :: ts =>
      have hmem : .bool (!unit) ∈ t.rename π :: u.rename π :: ts.map (rename π) ↔ .bool (!unit) ∈ t :: u :: ts :=
        @mem_map_rename π (.bool !unit) (t :: u :: ts)
      simp only [List.map_cons, joined, hmem]
      split
      · rfl
      · exact (hwrap (t :: u :: ts)).symm

theorem conj_rename (ts : List Term) : conj (ts.map (rename π)) = (conj ts).rename π := by
  have hflat : (ts.map (rename π)).flatMap conjuncts = (ts.flatMap conjuncts).map (rename π) := by
    simp only [List.flatMap_map, List.map_flatMap, conjuncts_rename]
  rw [conj_eq, conj_eq, hflat, List.eraseDups_map (rename_injective π)]
  exact joined_rename π true (by simp) _

theorem disj_rename (ts : List Term) : disj (ts.map (rename π)) = (disj ts).rename π := by
  have hflat : (ts.map (rename π)).flatMap disjuncts = (ts.flatMap disjuncts).map (rename π) := by
    simp only [List.flatMap_map, List.map_flatMap, disjuncts_rename]
  rw [disj_eq, disj_eq, hflat, List.eraseDups_map (rename_injective π)]
  exact joined_rename π false (by simp) _

theorem withChildren_rename (t : Term) (cs : List Term) :
    (t.rename π).withChildren (cs.map (rename π)) = (t.withChildren cs).rename π := by
  cases t with
  | and xs => exact conj_rename π cs
  | or xs => exact disj_rename π cs
  | not a => simp only [rename, withChildren, List.getD_map, negate_rename]
  | _ => simp only [rename, withChildren, List.getD_map]

theorem updateChildren_rename (t : Term) (cs : List Term) :
    (t.rename π).updateChildren (cs.map (rename π)) = (t.updateChildren cs).rename π := by
  unfold updateChildren
  have hsame : cs.map (rename π) = t.children.map (rename π) ↔ cs = t.children :=
    List.map_inj_right fun _ _ => (rename_inj π).1
  simp only [children_rename, hsame, withChildren_rename]
  split <;> rfl

theorem withOperands_rename (t : Term) (cs : List Term) :
    (t.rename π).withOperands (cs.map (rename π)) = (t.withOperands cs).rename π := by
  cases t <;> simp only [rename, withOperands, List.getD_map, renameAll_eq_map]

/-- Bindings with other names for the variables. -/
def renameBindings (bindings : Bindings) : Bindings :=
  bindings.map (Prod.map (rename π) (rename π))

theorem lookup_renameBindings (bindings : Bindings) (t : Term) :
    (renameBindings π bindings).lookup (t.rename π) = (bindings.lookup t).map (rename π) := by
  induction bindings with
  | nil => rfl
  | cons b bindings ih =>
      obtain ⟨p, u⟩ := b
      have hbeq : (t.rename π == p.rename π) = (t == p) := by
        rw [Bool.eq_iff_iff, beq_iff_eq, beq_iff_eq, rename_inj]
      change List.lookup (t.rename π) ((p.rename π, u.rename π) :: renameBindings π bindings) = _
      rw [List.lookup_cons, List.lookup_cons, hbeq, ih]
      split <;> rfl

theorem bind?_rename (p t : Term) (bindings : Bindings) :
    bind? (p.rename π) (t.rename π) (renameBindings π bindings) = (bind? p t bindings).map (renameBindings π) := by
  unfold bind?
  rw [lookup_renameBindings]
  cases bindings.lookup p with
  | none => rfl
  | some u =>
      simp only [Option.map_some, rename_inj]
      split <;> rfl

theorem matchAll?_rename {free ps : List Term}
    (h : ∀ p ∈ ps, ∀ t b, matchWith? (p.rename π) (free.map (rename π)) (t.rename π) (renameBindings π b) =
      (matchWith? p free t b).map (renameBindings π)) :
    ∀ ts b, matchAll? (ps.map (rename π)) (free.map (rename π)) (ts.map (rename π)) (renameBindings π b) =
      (matchAll? ps free ts b).map (renameBindings π) := by
  induction ps with
  | nil =>
      intro ts b
      cases ts <;> rfl
  | cons p ps ih =>
      intro ts b
      cases ts with
      | nil => rfl
      | cons t ts =>
          have hrest := ih (fun q hq => h q (List.mem_cons_of_mem p hq)) ts
          simp only [List.map_cons, matchAll?, h p List.mem_cons_self]
          cases matchWith? p free t b with
          | none => rfl
          | some first => simp only [Option.map_some, Option.bind_some, hrest]

/-- A renamed pattern matches a renamed term as the pattern matches the term. -/
theorem matchWith?_rename (pattern : Term) (free : List Term) :
    ∀ t bindings, matchWith? (pattern.rename π) (free.map (rename π)) (t.rename π) (renameBindings π bindings) =
      (matchWith? pattern free t bindings).map (renameBindings π) := by
  induction pattern using inductionOnChildren with
  | step pattern ih =>
      intro t bindings
      by_cases hfree : pattern ∈ free
      · rw [matchWith?.eq_def, matchWith?.eq_def pattern, if_pos hfree, if_pos ((mem_map_rename π).2 hfree)]
        exact bind?_rename π pattern t bindings
      have hfree' : pattern.rename π ∉ free.map (rename π) := mt (mem_map_rename π).1 hfree
      by_cases hsame : pattern = t
      · rw [matchWith?_self hfree' (congrArg (rename π) hsame), matchWith?_self hfree hsame]
        rfl
      · have hsame' : pattern.rename π ≠ t.rename π := mt (rename_inj π).1 hsame
        rw [matchWith?_of_ne hfree' hsame', matchWith?_of_ne hfree hsame]
        simp only [children_rename, withOperands_rename, rename_inj]
        split
        next => exact matchAll?_rename π ih t.children bindings
        next => rfl

theorem instantiate_rename (bindings : Bindings) (t : Term) :
    (t.rename π).instantiate (renameBindings π bindings) = (t.instantiate bindings).rename π := by
  induction t using inductionOnChildren with
  | step t ih =>
      have hchildren : (t.rename π).children.map (instantiate (renameBindings π bindings)) =
          (t.children.map (instantiate bindings)).map (rename π) := by
        rw [children_rename, List.map_map, List.map_map]
        exact List.map_congr_left ih
      rw [instantiate_eq, instantiate_eq, lookup_renameBindings, hchildren, updateChildren_rename]
      cases bindings.lookup t <;> rfl

end

end Term

/-- The rule with other names for the variables. -/
def Rule.rename (π : Equiv.Perm String) (rule : Rule) : Rule :=
  ⟨rule.pattern.rename π, rule.free.map (Term.rename π), rule.replacement.rename π⟩

namespace Rule
variable (π : Equiv.Perm String)

theorem applyHead_rename (rule : Rule) (t : Term) :
    (rule.rename π).applyHead (t.rename π) = (rule.applyHead t).rename π := by
  have hmatch := Term.matchWith?_rename π rule.pattern rule.free t []
  rw [applyHead, applyHead, replacementFor?_eq, replacementFor?_eq, rename]
  change Term.matchWith? _ _ _ [] = _ at hmatch
  rw [hmatch]
  cases rule.pattern.matchWith? rule.free t [] with
  | none => rfl
  | some bindings => exact Term.instantiate_rename π bindings rule.replacement

theorem apply_rename (rule : Rule) (t : Term) : (rule.rename π).apply (t.rename π) = (rule.apply t).rename π := by
  induction t using Term.inductionOnChildren with
  | step t ih =>
      have hchildren : (t.rename π).children.map (rule.rename π).apply = (t.children.map rule.apply).map (Term.rename π) := by
        rw [Term.children_rename, List.map_map, List.map_map]
        exact List.map_congr_left ih
      rw [apply_eq, apply_eq, hchildren, Term.updateChildren_rename, applyHead_rename]

end Rule

namespace Term
variable (π : Equiv.Perm String)

theorem replace_rename (t old new : Term) :
    (t.rename π).replace (old.rename π) (new.rename π) = (t.replace old new).rename π :=
  Rule.apply_rename π ⟨old, [], new⟩ t

end Term

namespace Cases
variable (π : Equiv.Perm String)

/-- The tree of cases with other names for the variables. -/
def rename : Cases → Cases
  | .leaf t => .leaf (t.rename π)
  | .split c a b => .split (c.rename π) a.rename b.rename

theorem map_rename {f g : Term → Term} (hf : ∀ t, g (t.rename π) = (f t).rename π) (cases : Cases) :
    (cases.rename π).map g = (cases.map f).rename π := by
  induction cases with
  | leaf t => rw [rename, map, hf, map, rename]
  | split c a b iha ihb => rw [rename, map, iha, ihb, map, rename]

theorem combine_rename {f : Term → Term → Term} (hf : ∀ t u, f (t.rename π) (u.rename π) = (f t u).rename π)
    (cases other : Cases) :
    (cases.rename π).combine f (other.rename π) = (cases.combine f other).rename π := by
  induction cases with
  | leaf t => exact map_rename π (hf t) other
  | split c a b iha ihb => rw [rename, combine, iha, ihb, combine, rename]

theorem toTerm_rename (cases : Cases) : (cases.rename π).toTerm = cases.toTerm.rename π := by
  induction cases with
  | leaf t => rfl
  | split c a b iha ihb => rw [rename, toTerm, iha, ihb, toTerm, Term.rename]

theorem isSplit_rename (cases : Cases) : (cases.rename π).isSplit = cases.isSplit := by
  cases cases <;> rfl

end Cases

namespace Term
variable (π : Equiv.Perm String) (a v : Term)

theorem readCases_rename (e : Term) :
    (e.rename π).readCases (a.rename π) (v.rename π) = (e.readCases a v).rename π := by
  induction e using inductionOnChildren with
  | step e ih =>
      cases e with
      | unary op t =>
          rw [rename, readCases, readCases, ih t (by simp [children])]
          exact Cases.map_rename π (f := .unary op) (fun _ => rfl) _
      | binary op t u =>
          rw [rename, readCases, readCases, ih t (by simp [children]), ih u (by simp [children])]
          exact Cases.combine_rename π (f := .binary op) (fun _ _ => rfl) _ _
      | _ => rfl

theorem splitAliases_rename (t : Term) :
    (t.rename π).splitAliases (a.rename π) (v.rename π) =
      ((t.splitAliases a v).1.rename π, (t.splitAliases a v).2) := by
  induction t using inductionOnChildren with
  | step t ih =>
      -- The note that a read was split is taken over all operands, so it is followed beside the operands.
      have hall : ∀ xs : List Term, (∀ x ∈ xs, (x.rename π).splitAliases (a.rename π) (v.rename π) =
          ((x.splitAliases a v).1.rename π, (x.splitAliases a v).2)) →
          (xs.map (rename π)).any (fun x => (x.splitAliases (a.rename π) (v.rename π)).2) =
              xs.any (fun x => (x.splitAliases a v).2) ∧
            (xs.map (rename π)).map (fun x => (x.splitAliases (a.rename π) (v.rename π)).1) =
              (xs.map fun x => (x.splitAliases a v).1).map (rename π) := by
        intro xs hxs
        induction xs with
        | nil => exact ⟨rfl, rfl⟩
        | cons x xs ihxs =>
            obtain ⟨hany, hmap⟩ := ihxs fun y hy => hxs y (List.mem_cons_of_mem x hy)
            simp only [List.map_cons, List.any_cons, hany, hmap, hxs x List.mem_cons_self, and_self]
      cases t with
      | eq t u =>
          rw [rename, splitAliases_eq, splitAliases_eq, readCases_rename, readCases_rename,
            Cases.combine_rename π (f := .eq) fun _ _ => rfl, Cases.toTerm_rename, Cases.isSplit_rename]
      | not t =>
          rw [rename, splitAliases_not, splitAliases_not, ih t (by simp [children])]
          dsimp only
          rw [negate_rename]
          split <;> rfl
      | and xs =>
          obtain ⟨hany, hmap⟩ := hall xs ih
          rw [rename, renameAll_eq_map, splitAliases_and, splitAliases_and, hany, hmap, conj_rename]
          split <;> simp
      | or xs =>
          obtain ⟨hany, hmap⟩ := hall xs ih
          rw [rename, renameAll_eq_map, splitAliases_or, splitAliases_or, hany, hmap, disj_rename]
          split <;> simp
      | ite c t u =>
          rw [rename, splitAliases_ite, splitAliases_ite, ih c (by simp [children]), ih t (by simp [children]),
            ih u (by simp [children]), rename]
      | quantified q x t => simp only [rename, splitAliases, ih t (by simp [children])]
      | bool b => rfl
      | _ =>
          rw [splitAliases_of_isExpression rfl, splitAliases_of_isExpression rfl, readCases_rename,
            Cases.toTerm_rename, Cases.isSplit_rename]

end Term

/-- Whether a permutation of the names moves names of placeholders only. -/
def MovesPlaceholders (π : Equiv.Perm String) : Prop :=
  ∀ n, π n ≠ n → (Term.var n).IsPlaceholder

theorem movesPlaceholders_swap {n m : String} (hn : (Term.var n).IsPlaceholder) (hm : (Term.var m).IsPlaceholder) :
    MovesPlaceholders (Equiv.swap n m) := by
  intro k hk
  by_cases hkn : k = n
  · exact hkn ▸ hn
  · by_cases hkm : k = m
    · exact hkm ▸ hm
    · exact absurd (Equiv.swap_apply_of_ne_of_ne hkn hkm) hk

/-- Two different placeholders are renamed to any two different placeholders. -/
theorem exists_movesPlaceholders {x tag x' tag' : Term} (hx : x.IsPlaceholder) (htag : tag.IsPlaceholder)
    (hx' : x'.IsPlaceholder) (htag' : tag'.IsPlaceholder) (hne : x ≠ tag) (hne' : x' ≠ tag') :
    ∃ π, MovesPlaceholders π ∧ x.rename π = x' ∧ tag.rename π = tag' := by
  obtain ⟨n, rfl⟩ := Term.exists_of_isReserved hx.reserved
  obtain ⟨m, rfl⟩ := Term.exists_of_isReserved htag.reserved
  obtain ⟨n', rfl⟩ := Term.exists_of_isReserved hx'.reserved
  obtain ⟨m', rfl⟩ := Term.exists_of_isReserved htag'.reserved
  have hmn : m ≠ n := fun h => hne (by rw [h])
  -- The second name is taken from where the first swap has left it.
  have hmoved : (Term.var (Equiv.swap n n' m)).IsPlaceholder := by
    by_cases h : m = n'
    · rw [h, Equiv.swap_apply_right]
      exact hx
    · rw [Equiv.swap_apply_of_ne_of_ne hmn h]
      exact htag
  refine ⟨(Equiv.swap n n').trans (Equiv.swap (Equiv.swap n n' m) m'), fun k hk => ?_, ?_, ?_⟩
  · by_cases hfirst : Equiv.swap n n' k = k
    · rw [Equiv.trans_apply, hfirst] at hk
      exact movesPlaceholders_swap hmoved htag' k hk
    · exact movesPlaceholders_swap hx hx' k hfirst
  · have hkept : n' ≠ Equiv.swap n n' m := fun h => hmn (by
      rw [← Equiv.swap_apply_self n n' m, ← h, Equiv.swap_apply_right])
    rw [Term.rename, Equiv.trans_apply, Equiv.swap_apply_left,
      Equiv.swap_apply_of_ne_of_ne hkept fun h => hne' (by rw [h])]
  · rw [Term.rename, Equiv.trans_apply, Equiv.swap_apply_left]

theorem Term.NoPlaceholders.rename_eq {t : Term} {π : Equiv.Perm String} (hπ : MovesPlaceholders π)
    (h : t.NoPlaceholders) : t.rename π = t :=
  Term.rename_of_forall π fun n hn => by
    by_contra hmoved
    exact h _ hn (hπ n hmoved)

namespace ConditionalSet

open Term

section
variable {π : Equiv.Perm String} (hπ : MovesPlaceholders π)
include hπ

theorem member_rename (l : Term) : (member l).rename π = member (l.rename π) := by
  have hmarker : marker.rename π = marker := NoPlaceholders.rename_eq hπ isMarked_noPlaceholders.marker
  rw [member, rename, hmarker, member]

theorem beforeRegister_rename {s r v hidden : Term} (hs : s.NoPlaceholders) (hr : r.NoPlaceholders)
    (hv : v.NoPlaceholders) :
    beforeRegister s r v (hidden.rename π) = (beforeRegister s r v hidden).rename π := by
  have hset := hv.dependencies.rename_eq hπ
  have hmember : (member r).rename π = member r := by rw [member_rename hπ, hr.rename_eq hπ]
  rw [beforeRegister, beforeRegister, ← replace_rename, ← replace_rename, ← replace_rename, hs.rename_eq hπ, hset,
    hmember, hr.rename_eq hπ, hv.rename_eq hπ]

theorem maskRule_rename (x tag : Term) : (maskRule x tag).rename π = maskRule (x.rename π) (tag.rename π) := by
  simp only [Rule.rename, maskRule, member_rename hπ, rename, List.map_cons, List.map_nil]

theorem revealRule_rename {a v : Term} (ha : a.NoPlaceholders) (hv : v.NoPlaceholders) (x tag : Term) :
    (revealRule a v x tag).rename π = revealRule a v (x.rename π) (tag.rename π) := by
  simp only [Rule.rename, revealRule, member_rename hπ, rename, List.map_cons, List.map_nil,
    hv.dependencies.rename_eq hπ, ha.rename_eq hπ]

theorem beforeStore_rename {s a v x tag : Term} (hs : s.NoPlaceholders) (ha : a.NoPlaceholders)
    (hv : v.NoPlaceholders) :
    beforeStore s a v (x.rename π) (tag.rename π) = (beforeStore s a v x tag).rename π := by
  have hmask : (maskRule (x.rename π) (tag.rename π)).apply s = ((maskRule x tag).apply s).rename π := by
    rw [← Rule.apply_rename, maskRule_rename hπ, hs.rename_eq hπ]
  have hsplit := splitAliases_rename π a v ((maskRule x tag).apply s)
  rw [ha.rename_eq hπ, hv.rename_eq hπ] at hsplit
  rw [beforeStore_eq, beforeStore_eq, hmask, hsplit, ← Rule.apply_rename, revealRule_rename hπ ha hv]

end

/-- The set before the assignment of a register does not depend on the placeholder. -/
theorem beforeRegister_congr {s r v hidden hidden' : Term} (hs : s.NoPlaceholders) (hr : r.NoPlaceholders)
    (hv : v.NoPlaceholders) (h : hidden.IsPlaceholder) (h' : hidden'.IsPlaceholder)
    (hresult : (beforeRegister s r v hidden).NoPlaceholders) :
    beforeRegister s r v hidden' = beforeRegister s r v hidden := by
  obtain ⟨n, rfl⟩ := exists_of_isReserved h.reserved
  obtain ⟨n', rfl⟩ := exists_of_isReserved h'.reserved
  have hπ := movesPlaceholders_swap h h'
  have hmoved : (Term.var n).rename (Equiv.swap n n') = .var n' := by rw [rename, Equiv.swap_apply_left]
  rw [← hmoved, beforeRegister_rename hπ hs hr hv, hresult.rename_eq hπ]

theorem beforeStore_congr {s a v x tag x' tag' : Term} (hs : s.NoPlaceholders) (ha : a.NoPlaceholders)
    (hv : v.NoPlaceholders) (hx : x.IsPlaceholder) (htag : tag.IsPlaceholder) (hne : x ≠ tag) (hx' : x'.IsPlaceholder)
    (htag' : tag'.IsPlaceholder) (hne' : x' ≠ tag') (hresult : (beforeStore s a v x tag).NoPlaceholders) :
    beforeStore s a v x' tag' = beforeStore s a v x tag := by
  obtain ⟨π, hπ, rfl, rfl⟩ := exists_movesPlaceholders hx htag hx' htag' hne hne'
  rw [beforeStore_rename hπ hs ha hv, hresult.rename_eq hπ]

end ConditionalSet
end Backslice

import Backslice.Proofs.SymbolReplacement
import Mathlib

/-!
# Connectives of an arena

Nodes are stored without a look at their kind, and a connective that is built
from a stored one takes over its operands as they are. That no connective is
stored but in normal form is therefore a property of all that is ever stored. It
is one of terms, which every operation keeps; a node has the kind of its term,
and its children are the handles of the operands.
-/

namespace Backslice

open Term

namespace Node

/-- Words and truth values. -/
def isDecided : Node → Bool
  | .const _ | .bool _ => true
  | _ => false

def isNegation : Node → Bool
  | .not _ => true
  | _ => false

def isConjunction : Node → Bool
  | .and _ => true
  | _ => false

def isDisjunction : Node → Bool
  | .or _ => true
  | _ => false

section
variable {names : Array String} {read : Nat → Option Term} {node : Node} {t : Term}

theorem isDecided_eq (h : node.term? names read = some t) : node.isDecided = t.isDecided := by
  cases node <;>
    simp only [term?, Option.map_eq_some_iff, Option.bind_eq_bind, Option.bind_eq_some_iff, Option.some.injEq] at h <;>
    grind [isDecided, Term.isDecided]

theorem isNegation_eq_false (h : node.term? names read = some t) (hne : ∀ u, t ≠ .not u) : node.isNegation = false := by
  cases node with
  | not c =>
      obtain ⟨u, -, rfl⟩ := Option.map_eq_some_iff.1 h
      exact absurd rfl (hne u)
  | _ => rfl

theorem isConjunction_eq_false (h : node.term? names read = some t) (hne : ∀ us, t ≠ .and us) :
    node.isConjunction = false := by
  cases node with
  | and cs =>
      obtain ⟨us, -, rfl⟩ := Option.map_eq_some_iff.1 h
      exact absurd rfl (hne us)
  | _ => rfl

theorem isDisjunction_eq_false (h : node.term? names read = some t) (hne : ∀ us, t ≠ .or us) :
    node.isDisjunction = false := by
  cases node with
  | or cs =>
      obtain ⟨us, -, rfl⟩ := Option.map_eq_some_iff.1 h
      exact absurd rfl (hne us)
  | _ => rfl

end
end Node

namespace Term

theorem IsNormal.of_not {t : Term} (h : (Term.not t).IsNormal) : t.isDecided = false ∧ ∀ u, t ≠ .not u := by
  have hhead : t.negate = .not t := h.head
  cases t with
  | const v | bool b => cases hhead
  | not u =>
      have hsize := congrArg sizeOf (show u = .not (.not u) from hhead)
      simp only [not.sizeOf_spec] at hsize
      omega
  | _ => exact ⟨rfl, nofun⟩

theorem IsNormal.ne_and {ts : List Term} (h : (Term.and ts).IsNormal) : ∀ t ∈ ts, ∀ us, t ≠ .and us := by
  rintro t ht us rfl
  have hself : us = [.and us] := h.head.2.2.2 _ ht
  have hsize := congrArg sizeOf hself
  simp only [List.cons.sizeOf_spec, List.nil.sizeOf_spec, and.sizeOf_spec] at hsize
  omega

theorem IsNormal.ne_or {ts : List Term} (h : (Term.or ts).IsNormal) : ∀ t ∈ ts, ∀ us, t ≠ .or us := by
  rintro t ht us rfl
  have hself : us = [.or us] := h.head.2.2.2 _ ht
  have hsize := congrArg sizeOf hself
  simp only [List.cons.sizeOf_spec, List.nil.sizeOf_spec, or.sizeOf_spec] at hsize
  omega

end Term

namespace Arena

variable {a : Arena}

/-- Whether a handle is that of a node which is neither decided nor of the given kind. -/
def IsOperand (a : Arena) (kind : Node → Bool) (i : Nat) : Prop :=
  ∃ node, a.nodes.valueAt i = .ok node ∧ node.isDecided = false ∧ kind node = false

/-- Whether every connective of an arena is in normal form: the operand of a negation is neither decided nor a
negation; the operands of a conjunction (disjunction) are two at least, all different, and none of them decided or a
conjunction (disjunction). -/
structure HasNormalConnectives (a : Arena) : Prop where
  negation (i x : Nat) : a.nodes.valueAt i = .ok (.not x) → a.IsOperand Node.isNegation x
  conjunction (i : Nat) (xs : List Nat) : a.nodes.valueAt i = .ok (.and xs) →
    2 ≤ xs.length ∧ xs.Nodup ∧ ∀ x ∈ xs, a.IsOperand Node.isConjunction x
  disjunction (i : Nat) (xs : List Nat) : a.nodes.valueAt i = .ok (.or xs) →
    2 ≤ xs.length ∧ xs.Nodup ∧ ∀ x ∈ xs, a.IsOperand Node.isDisjunction x

namespace Holds

variable {ts : List Term} (h : a.Holds ts)
include h

theorem isOperand {kind : Node → Bool} {i : Nat} {t : Term} (hi : termAt ts i = some t) (hd : t.isDecided = false)
    (hkind : ∀ node : Node, node.term? a.names (termAt ts) = some t → kind node = false) : a.IsOperand kind i := by
  obtain ⟨node, hnode, hread⟩ := h.exists_valueAt hi
  exact ⟨node, hnode, (Node.isDecided_eq hread).trans hd, hkind node hread⟩

theorem operands_of_join {unit : Bool} {wrap : List Term → Term} {parts : Term → List Term} {join : List Term → Term}
    (J : IsJoin unit wrap parts join) {kind : Node → Bool} {xs : List Nat} {us : List Term}
    (hxs : xs.mapM (termAt ts) = some us) (hnormal : (wrap us).IsNormal)
    (hkind : ∀ u ∈ us, ∀ node : Node, node.term? a.names (termAt ts) = some u → kind node = false) :
    2 ≤ xs.length ∧ xs.Nodup ∧ ∀ x ∈ xs, a.IsOperand kind x := by
  have hmap := List.mapM_eq_some_iff.1 hxs
  have hlength : xs.length = us.length := by simpa using congrArg List.length hmap
  have hnodup : (xs.map (termAt ts)).Nodup := by
    rw [hmap]
    exact (J.operands_nodup hnormal).map (Option.some_injective Term)
  refine ⟨hlength ▸ J.operands_length hnormal, hnodup.of_map, fun x hx => ?_⟩
  have hmem : termAt ts x ∈ us.map some := hmap ▸ List.mem_map_of_mem hx
  obtain ⟨u, hu, hux⟩ := List.mem_map.1 hmem
  exact h.isOperand hux.symm (J.operands_undecided hnormal u hu) (hkind u hu)

theorem hasNormalConnectives (hts : ∀ t ∈ ts, t.IsNormal) : a.HasNormalConnectives where
  negation i x hi := by
    obtain ⟨t, ht, hread⟩ := h.exists_term hi
    obtain ⟨u, hu, rfl⟩ := Option.map_eq_some_iff.1 hread
    obtain ⟨hd, hne⟩ := (hts _ (mem_of_termAt ht)).of_not
    exact h.isOperand hu hd fun _ hnode => Node.isNegation_eq_false hnode hne
  conjunction i xs hi := by
    obtain ⟨t, ht, hread⟩ := h.exists_term hi
    obtain ⟨us, hus, rfl⟩ := Option.map_eq_some_iff.1 hread
    have hnormal := hts _ (mem_of_termAt ht)
    exact h.operands_of_join isJoin_conj hus hnormal fun u hu _ hnode =>
      Node.isConjunction_eq_false hnode (hnormal.ne_and u hu)
  disjunction i xs hi := by
    obtain ⟨t, ht, hread⟩ := h.exists_term hi
    obtain ⟨us, hus, rfl⟩ := Option.map_eq_some_iff.1 hread
    have hnormal := hts _ (mem_of_termAt ht)
    exact h.operands_of_join isJoin_disj hus hnormal fun u hu _ hnode =>
      Node.isDisjunction_eq_false hnode (hnormal.ne_or u hu)

end Holds
end Arena

namespace Manager

/-- Connectives are stored in normal form only. A manager of any admitted width is created, and whatever operations are
carried out on it one after the other, also such as are refused half way, every negation, conjunction and disjunction
of its arena is in normal form. -/
theorem connectives_normal {bits : Nat} (h : bits ≤ 31) (ops : List Operation) :
    ∃ created handles m, Manager.new bits = .ok created ∧ created.run ops = (handles, m) ∧
      m.arena.HasNormalConnectives := by
  obtain ⟨created, handles, m, ts, hcreated, hrun, hts, hnormal⟩ := exists_run isHereditary_isNormal h ops
  exact ⟨created, handles, m, hcreated, hrun, hts.hasNormalConnectives hnormal⟩

/-- A formula with every connective, in which a double negation, a repeated operand and a nested conjunction are
built, and then an operand is replaced by a truth value. -/
def nestedConnectives : List Operation :=
  [.var "a", .var "b", .conj [4, 5], .negate 6, .negate 7, .var "c", .negate 8, .conj [5, 9], .conj [6, 10],
    .disj [11, 4], .const 1, .replace 12 5 13, .simplify 12, .disjunctiveForm 12]

/-- The double negation is gone, the conjunctions have become one, and where the replaced operand was, nothing is left. -/
theorem connectives_normal_nested :
    0 ≤ 31 ∧
      ∃ created m, Manager.new 0 = .ok created ∧
        created.run nestedConnectives = ([4, 5, 6, 7, 6, 8, 9, 10, 11, 12, 13, 15, 12, 12], m) ∧
        m.arena.term? 12 = some (.or [.and [.var "a", .var "b", .not (.var "c")], .var "a"]) ∧
        m.arena.term? 15 = some (.or [.and [.var "a", .not (.var "c")], .var "a"]) ∧
        m.arena.HasNormalConnectives := by
  have hbuilt : (Manager.new 0).map (fun created => ((created.run nestedConnectives).1,
      [12, 15].map (created.run nestedConnectives).2.arena.term?)) =
        .ok ([4, 5, 6, 7, 6, 8, 9, 10, 11, 12, 13, 15, 12, 12],
          [some (.or [.and [.var "a", .var "b", .not (.var "c")], .var "a"]),
            some (.or [.and [.var "a", .not (.var "c")], .var "a"])]) := by
    decide +kernel
  obtain ⟨created, handles, m, hcreated, hrun, hnormal⟩ := connectives_normal (Nat.zero_le 31) nestedConnectives
  rw [hcreated, Except.map, hrun, Except.ok.injEq, Prod.mk.injEq] at hbuilt
  obtain ⟨rfl, hread⟩ := hbuilt
  simp only [List.map_cons, List.map_nil, List.cons.injEq, and_true] at hread
  exact ⟨Nat.zero_le 31, created, m, hcreated, hrun, hread.1, hread.2, hnormal⟩

end Manager
end Backslice

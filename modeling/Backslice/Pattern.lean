import Backslice.Connective

/-!
# Matching and replacing

A pattern is a term together with a list of free terms, as a rule variables. A
free term matches anything, but the same thing at each of its occurrences; the
rest of the pattern matches itself only. Replacing goes from the leaves up: the
matches in the children of a term are replaced first, and the term put together
from the new children is then matched. What replaces a match is never matched again.
-/

namespace Backslice

/-- What stands for the free terms of a pattern, the newest binding first. -/
abbrev Bindings := List (Term × Term)

namespace Term

/-- Bind `p` to `t`, unless `p` stands for something else already. -/
def bind? (p t : Term) (bindings : Bindings) : Option Bindings :=
  match bindings.lookup p with
  | some u => if u = t then some bindings else none
  | none => some ((p, t) :: bindings)

mutual

/-- Extend `bindings` so that the pattern becomes the term. -/
def matchWith? (pattern : Term) (free : List Term) (t : Term) (bindings : Bindings) : Option Bindings :=
  if pattern ∈ free then bind? pattern t bindings
  else if pattern = t then some bindings
  else
    match pattern, t with
    | .mem p, .mem a => matchWith? p free a bindings
    | .unary op p, .unary oq a => if op = oq then matchWith? p free a bindings else none
    | .binary op p q, .binary oq a b =>
        if op = oq then (matchWith? p free a bindings).bind (matchWith? q free b) else none
    | .eq p q, .eq a b => (matchWith? p free a bindings).bind (matchWith? q free b)
    | .not p, .not a => matchWith? p free a bindings
    | .and ps, .and as => matchAll? ps free as bindings
    | .or ps, .or as => matchAll? ps free as bindings
    | .quantified k p q, .quantified l a b =>
        if k = l then (matchWith? p free a bindings).bind (matchWith? q free b) else none
    | .ite p q r, .ite a b c =>
        ((matchWith? p free a bindings).bind (matchWith? q free b)).bind (matchWith? r free c)
    | _, _ => none

/-- Match patterns against as many terms, from left to right. -/
def matchAll? (patterns : List Term) (free ts : List Term) (bindings : Bindings) : Option Bindings :=
  match patterns, ts with
  | [], [] => some bindings
  | p :: ps, t :: ts => (matchWith? p free t bindings).bind (matchAll? ps free ts)
  | _, _ => none

end

/-- Go on with a second pair of terms after a first one. -/
def matchNext (first : Bool × Option Bindings) (bindings : Bindings)
    (second : Bindings → Bool × Option Bindings) : Bool × Option Bindings :=
  match first with
  | (same, some extended) =>
      let (same', found) := second extended
      (same && same', found)
  | (true, none) => ((second bindings).1, none)
  | (false, none) => (false, none)

theorem matchNext_eq (same same' : Bool) (found : Option Bindings) (bindings : Bindings)
    (second : Bindings → Option Bindings) :
    matchNext (same, found) bindings (fun b => (same', second b)) = (same && same', found.bind second) := by
  cases same <;> cases found <;> simp [matchNext]

mutual

/-- Whether the pattern is the term itself, and what it matches with, from one walk over both. -/
def matchOnce (pattern : Term) (free : List Term) (t : Term) (bindings : Bindings) : Bool × Option Bindings :=
  if pattern ∈ free then (pattern = t, bind? pattern t bindings)
  else
    let (same, found) : Bool × Option Bindings :=
      match pattern, t with
      | .mem p, .mem a => matchOnce p free a bindings
      | .unary op p, .unary oq a => if op = oq then matchOnce p free a bindings else (false, none)
      | .binary op p q, .binary oq a b =>
          if op = oq then matchNext (matchOnce p free a bindings) bindings (matchOnce q free b) else (false, none)
      | .eq p q, .eq a b => matchNext (matchOnce p free a bindings) bindings (matchOnce q free b)
      | .not p, .not a => matchOnce p free a bindings
      | .and ps, .and as => matchAllOnce ps free as bindings
      | .or ps, .or as => matchAllOnce ps free as bindings
      | .quantified k p q, .quantified l a b =>
          if k = l then matchNext (matchOnce p free a bindings) bindings (matchOnce q free b) else (false, none)
      | .ite p q r, .ite a b c =>
          matchNext (matchNext (matchOnce p free a bindings) bindings (matchOnce q free b)) bindings
            (matchOnce r free c)
      | p, t => (p = t, none)
    (same, if same then some bindings else found)

def matchAllOnce (patterns : List Term) (free ts : List Term) (bindings : Bindings) : Bool × Option Bindings :=
  match patterns, ts with
  | [], [] => (true, some bindings)
  | p :: ps, t :: ts => matchNext (matchOnce p free t bindings) bindings (matchAllOnce ps free ts)
  | _, _ => (false, none)

end

mutual

theorem matchOnce_eq (pattern : Term) (free : List Term) (t : Term) :
    matchOnce pattern free t = fun bindings => (decide (pattern = t), matchWith? pattern free t bindings) := by
  funext bindings
  rw [matchOnce.eq_def, matchWith?.eq_def]
  split
  next => rfl
  next =>
    match pattern with
    | .const _ | .var _ | .reg _ _ _ | .bool _ => cases t <;> simp
    | .mem p | .not p =>
        have hp := matchOnce_eq p free
        cases t <;> simp [hp]
    | .unary op p =>
        have hp := matchOnce_eq p free
        cases t <;> simp [hp]
        split <;> simp_all
    | .binary op p q | .quantified op p q =>
        have hp := matchOnce_eq p free
        have hq := matchOnce_eq q free
        cases t <;> simp [hp, hq, matchNext_eq]
        split <;> simp_all
    | .eq p q =>
        have hp := matchOnce_eq p free
        have hq := matchOnce_eq q free
        cases t <;> simp [hp, hq, matchNext_eq]
    | .and ps | .or ps =>
        have hps := matchAllOnce_eq ps free
        cases t <;> simp [hps]
    | .ite p q r =>
        have hp := matchOnce_eq p free
        have hq := matchOnce_eq q free
        have hr := matchOnce_eq r free
        cases t <;> simp [hp, hq, hr, matchNext_eq, Bool.and_assoc]

theorem matchAllOnce_eq (patterns : List Term) (free ts : List Term) :
    matchAllOnce patterns free ts = fun bindings => (decide (patterns = ts), matchAll? patterns free ts bindings) := by
  funext bindings
  match patterns with
  | [] => cases ts <;> simp [matchAllOnce, matchAll?]
  | p :: ps =>
      have hp := matchOnce_eq p free
      have hps := matchAllOnce_eq ps free
      cases ts <;> simp [matchAllOnce, matchAll?, hp, hps, matchNext_eq]

end

/-- Replace every bound term by what it stands for, the outermost first. -/
def instantiate (bindings : Bindings) : Term → Term :=
  foldUp fun t children => (bindings.lookup t).getD (t.updateChildren children)

theorem instantiate_eq (bindings : Bindings) (t : Term) :
    t.instantiate bindings =
      (bindings.lookup t).getD (t.updateChildren (t.children.map (instantiate bindings))) :=
  foldUp_eq _ t

end Term

/-- A rule: every match of the pattern becomes the instantiated replacement. -/
structure Rule where
  pattern : Term
  free : List Term
  replacement : Term

namespace Rule

/-- The replacement for `t`, where `t` matches the pattern. -/
def replacementFor? (rule : Rule) (t : Term) : Option Term :=
  (rule.pattern.matchOnce rule.free t []).2.map (rule.replacement.instantiate ·)

theorem replacementFor?_eq (rule : Rule) (t : Term) :
    rule.replacementFor? t = (rule.pattern.matchWith? rule.free t []).map (rule.replacement.instantiate ·) := by
  rw [replacementFor?, Term.matchOnce_eq]

/-- Replace every match from the leaves up, and tell whether anything was replaced. -/
def replaceAll (rule : Rule) : Term → Term × Bool :=
  Term.foldUpShared fun t results =>
    let rebuilt := t.updateChildren (results.map (·.1))
    match rule.replacementFor? rebuilt with
    | some u => (u, true)
    | none => (rebuilt, results.any (·.2))

theorem replaceAll_eq (rule : Rule) (t : Term) :
    rule.replaceAll t =
      let results := t.children.map rule.replaceAll
      let rebuilt := t.updateChildren (results.map (·.1))
      match rule.replacementFor? rebuilt with
      | some u => (u, true)
      | none => (rebuilt, results.any (·.2)) := by
  rw [replaceAll, Term.foldUpShared_eq_foldUp]
  exact Term.foldUp_eq _ t

end Rule

namespace Term

/-- Replace every occurrence of one term by another. -/
def replace (t old new : Term) : Term :=
  (Rule.replaceAll ⟨old, [], new⟩ t).1

end Term
end Backslice

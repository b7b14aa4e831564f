import Backslice.Backward

/-!
# The order in which terms are built

An operation on terms has one result, and builds other terms before it: what
the subterms become, the literals and clauses of a normal form, the
placeholders of an assignment. All of them stay in the arena of the operands.
The lists of this module name the terms that an operation builds, in order. A
term that is stored already may be listed or not; storing it again changes
nothing.
-/

namespace Backslice

namespace Term

/-- What is built where bound terms are replaced. Nothing is built below a bound term. -/
def instantiateBuilds (bindings : Bindings) : Term → List Term :=
  foldUp fun t below => if (bindings.lookup t).isSome then [] else below.flatten ++ [t.instantiate bindings]

end Term

/-- What is built where a rule replaces every match: after the children of a
subterm the subterm itself, and then the replacement if it matches. -/
def Rule.replaceAllBuilds (rule : Rule) : Term → List Term :=
  Term.foldUp fun t below =>
    let rebuilt := t.updateChildren (t.children.map fun c => (rule.replaceAll c).1)
    let replacement :=
      match rule.pattern.matchWith? rule.free rebuilt [] with
      | some bindings => rule.replacement.instantiateBuilds bindings
      | none => []
    below.flatten ++ [rebuilt] ++ replacement

namespace Term

/-- Simplification builds what each subterm becomes, the children of a subterm first. -/
def simplifyBuilds : Term → List Term :=
  foldUp fun t below => below.flatten ++ [t.simplify]

mutual

/-- The literals built for the clauses of a formula, or of its negation. -/
def clausesBuilds : Term → (negated : Bool) → List Term
  | .const _, _ | .bool _, _ => []
  | .not a, negated => clausesBuilds a !negated
  | .and xs, negated =>
      if negated then clausesAllBuilds xs negated else joinClausesBuilds xs negated [[]]
  | .or xs, negated =>
      if negated then joinClausesBuilds xs negated [[]] else clausesAllBuilds xs negated
  | .ite c a b, negated =>
      clausesBuilds c false ++ clausesBuilds a negated ++ clausesBuilds c true ++ clausesBuilds b negated
  | t, negated => if negated then [negate t] else []

def clausesAllBuilds : List Term → (negated : Bool) → List Term
  | [], _ => []
  | x :: xs, negated => clausesBuilds x negated ++ clausesAllBuilds xs negated

/-- Once there is no clause, the formulas that are left are not looked at. -/
def joinClausesBuilds : List Term → (negated : Bool) → List Clause → List Term
  | [], _, _ => []
  | x :: xs, negated, joined =>
      if joined.isEmpty then []
      else clausesBuilds x negated ++ joinClausesBuilds xs negated (Clause.product₂ joined (clauses x negated))

end

/-- The literals of a normal form, then its clauses. A clause that is true makes
the whole true, and no clause after it is built. -/
def disjunctiveFormBuilds (t : Term) : List Term :=
  t.clausesBuilds false ++ ((t.clauses false).map conj).takeWhile (· ≠ .bool true) ++ [t.disjunctiveForm]

end Term

namespace Cases

/-- The terms in the leaves, from left to right. -/
def leaves : Cases → List Term
  | .leaf t => [t]
  | .split _ a b => a.leaves ++ b.leaves

/-- The conditionals built for a tree of cases, the inner ones first. -/
def toTermBuilds : Cases → List Term
  | .leaf _ => []
  | .split c a b => a.toTermBuilds ++ b.toTermBuilds ++ [(Cases.split c a b).toTerm]

end Cases

namespace Term

/-- What is built for the cases of an expression: the condition of a read, and
after the operands of an operator its application to each pair of cases. -/
def readCasesBuilds (e address value : Term) : List Term :=
  match e with
  | .mem x => [.eq address x]
  | .unary op a => a.readCasesBuilds address value ++ ((Term.unary op a).readCases address value).leaves
  | .binary op a b =>
      a.readCasesBuilds address value ++ b.readCasesBuilds address value ++
        ((Term.binary op a b).readCases address value).leaves
  | _ => []

/-- What is built where the reads of a formula are split. -/
def splitAliasesBuilds (t address value : Term) : List Term :=
  foldUp (fun u below =>
    let result := (u.splitAliases address value).1
    match u, below with
    | .eq a b, _ =>
        let cases := (a.readCases address value).combine .eq (b.readCases address value)
        a.readCasesBuilds address value ++ b.readCasesBuilds address value ++ cases.leaves ++ cases.toTermBuilds
    -- the bound variable is no formula
    | .quantified _ _ _, [_, ofBody] => ofBody ++ [result]
    | u, below =>
        if u.isExpression then u.readCasesBuilds address value ++ (u.readCases address value).toTermBuilds
        else below.flatten ++ [result]) t

end Term

namespace ConditionalSet

/-- A new element builds its membership atom first. -/
def addBuilds (s : ConditionalSet) (e : Term) : List Term :=
  [member e, s.add e]

/-- What is built for the set of a list, element after element. -/
def ofListBuilds (es : List Term) : List Term :=
  (es.foldl (fun (s, builds) e => (s.add e, builds ++ s.addBuilds e)) (empty, [])).2

def flattenBuilds (s : ConditionalSet) : List Term :=
  s.possibleValues.map member ++ [s.flatten]

/-- What is built for the set before a register was assigned. -/
def beforeRegisterBuilds (s : ConditionalSet) (r v hidden : Term) : List Term :=
  let masked := s.replace (member r) hidden
  let moved := masked.replace r v
  [hidden, member r] ++ Rule.replaceAllBuilds ⟨member r, [], hidden⟩ s ++
    Rule.replaceAllBuilds ⟨r, [], v⟩ masked ++ Rule.replaceAllBuilds ⟨hidden, [], ofList v.dependencies⟩ moved

/-- What is built for the set before a store. -/
def beforeStoreBuilds (s : ConditionalSet) (a v x tag : Term) : List Term :=
  let watchedCell := member (.mem x)
  let hidden : Term := .eq tag x
  let resolved : Term := .ite (.eq a x) (ofList v.dependencies) watchedCell
  let masked := (Rule.replaceAll ⟨watchedCell, [x], hidden⟩ s).1
  let split := (masked.splitAliases a v).1
  [x, tag, .mem x, watchedCell, hidden] ++ Rule.replaceAllBuilds ⟨watchedCell, [x], hidden⟩ s ++
    masked.splitAliasesBuilds a v ++ [.eq a x, resolved] ++ Rule.replaceAllBuilds ⟨hidden, [x], resolved⟩ split

/-- What is built for the set before an assignment, not yet normalised. The
dependencies of the value are joined also where the assignment is then refused. -/
def beforeAssignmentBuilds (s : ConditionalSet) (location value : Term) (names : Fresh) : List Term :=
  ofListBuilds value.dependencies ++
    match location with
    | .reg _ _ _ => s.beforeRegisterBuilds location value (names.take "TMP").1
    | .mem a =>
        let (x, names) := names.take "X"
        s.beforeStoreBuilds a value x (names.take "ELT_ADDR").1
    | _ => []

def normalizeBuilds (s : ConditionalSet) (options : Options) : List Term :=
  let t := s.simplify.disjunctiveForm
  s.simplifyBuilds ++ s.simplify.disjunctiveFormBuilds ++ if options.flat then ConditionalSet.flattenBuilds t else []

/-- What is built for the set in front of an arrow. -/
def beforeBuilds (s : ConditionalSet) (options : Options) (arrow : Arrow) (names : Fresh) : List Term :=
  match arrow.statement with
  | .assign location value =>
      s.beforeAssignmentBuilds location value names ++
        match s.beforeAssignment location value names with
        | .error _ => []
        | .ok (t, _) =>
            let guarded := underGuard t options arrow.guard
            guarded :: normalizeBuilds guarded options
  | .jump | .skip | .external _ => [underGuard s options arrow.guard]

end ConditionalSet
end Backslice

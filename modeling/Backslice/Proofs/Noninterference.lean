import Backslice.Proofs.Execution
import Backslice.Proofs.LeastSolution

/-!
# Nothing but the watched locations matters

In a program that writes registers only, two states that agree on the variables
and on the locations watched at a point agree, after the assignments on any path
from this point to a seed, on the location of the seed. This is carried by the
agreement on all watched locations: the value of a location behind an assignment
is the value of what the location comes from in front of it, and this is watched
when the contexts are settled. Guards play no part.

No two different register cells of the assignments and seeds share bits, and all
of them are built of expressions.
-/

namespace Backslice

open Term ConditionalSet

/-- The value of an expression is a matter of the variables and of the locations it reads directly. -/
theorem Term.value_eq_of_dependencies {z : ZeroDivision} {s s' : Valuation} {t : Term} (ht : t.IsWord)
    (hvars : s.vars = s'.vars) (h : ∀ d ∈ t.dependencies, d.value z s = d.value z s') :
    t.value z s = t.value z s' := by
  simp only [mem_dependencies] at h
  induction t using inductionOnChildren with
  | step t ih =>
      rw [outermostLvalues_eq] at h
      split at h
      next => exact h t (by simp)
      next hlocation =>
        have child : ∀ c ∈ t.children, c.value z s = c.value z s' := fun c hc =>
          ih c hc (ht.child hc) fun d hd => h d (List.mem_flatMap.2 ⟨c, hc, hd⟩)
        cases t with
        | const _ => rfl
        | var n => simp only [value, hvars]
        | reg _ _ _ | mem _ => exact absurd rfl hlocation
        | unary op a => simp only [value, child a (by simp [children])]
        | binary op a b => simp only [value, child a (by simp [children]), child b (by simp [children])]
        | _ => exact absurd ht.isExpression Bool.false_ne_true

/-- Whether a statement writes nothing but a register cell, and there the value of a plain expression. -/
def Statement.WritesRegister : Statement → Prop
  | .assign l v => l.isRegister = true ∧ v.IsWord ∧ v.Plain
  | _ => True

theorem Statement.WritesRegister.isPlain {statement : Statement} (h : statement.WritesRegister) :
    statement.IsPlain := by
  cases statement with
  | assign l v =>
      obtain ⟨n, o, k, rfl⟩ := exists_of_isRegister h.1
      exact ⟨⟨rfl, by simp [Plain, subterms, isReserved]⟩, h.2.2⟩
  | _ => trivial

/-- Whether a seed is a location that is a plain expression. -/
structure Seed.IsWellSorted (e : Seed) : Prop where
  isLvalue : e.location.isLvalue = true
  isWord : e.location.IsWord
  plain : e.location.Plain

namespace Program

/-- The register cells of the assignments of a program and of seeds. -/
inductive HasCell (p : Program) (seeds : List Seed) : Term → Prop
  | assigned {arrow : Arrow} {r v : Term} (harrow : arrow ∈ p.arrows) (hassign : arrow.statement = .assign r v) :
      HasCell p seeds r
  | read {arrow : Arrow} {r v c : Term} (harrow : arrow ∈ p.arrows) (hassign : arrow.statement = .assign r v)
      (hc : c ∈ v.symbols) (hregister : c.isRegister = true) : HasCell p seeds c
  | seed {e : Seed} {c : Term} (he : e ∈ seeds) (hc : c ∈ e.location.symbols) (hregister : c.isRegister = true) :
      HasCell p seeds c

/-- A path along arrows with fixed targets. -/
inductive Path (p : Program) : Address → List Arrow → Address → Prop
  | nil (a : Address) : Path p a [] a
  | cons {arrow : Arrow} {arrows : List Arrow} {a b : Address} (harrow : arrow ∈ p.arrows)
      (htarget : arrow.target = .fixed a) (hpath : Path p a arrows b) : Path p arrow.source (arrow :: arrows) b

end Program

/-- The states before and after the statements of arrows, one after the other, whatever the guards. -/
inductive Arrow.ExecutesAll (z : ZeroDivision) : List Arrow → Valuation → Valuation → Prop
  | nil (s : Valuation) : ExecutesAll z [] s s
  | cons {arrow : Arrow} {arrows : List Arrow} {s s' s'' : Valuation} (hexec : arrow.statement.Executes z s s')
      (hrest : ExecutesAll z arrows s' s'') : ExecutesAll z (arrow :: arrows) s s''

theorem Program.Path.exists_executesAll {p : Program} {a b : Address} {arrows : List Arrow}
    (hwrites : ∀ arrow ∈ p.arrows, arrow.statement.WritesRegister) (hpath : p.Path a arrows b) (z : ZeroDivision)
    (s : Valuation) : ∃ t, Arrow.ExecutesAll z arrows s t := by
  induction hpath generalizing s with
  | nil a => exact ⟨s, .nil s⟩
  | @cons arrow arrows c b harrow _ _ ih =>
      have hlocation : ∀ l v, arrow.statement = .assign l v → l.isLvalue = true := by
        intro l v hassign
        have hwrite := hwrites arrow harrow
        rw [hassign] at hwrite
        rw [isLvalue, hwrite.1, Bool.true_or]
      obtain ⟨s', hexec⟩ := Statement.exists_executes z hlocation s
      obtain ⟨t, hrest⟩ := ih s'
      exact ⟨t, .cons hexec hrest⟩

section
variable {p : Program} {seeds : List Seed}

/-- Whether a term is a word term that reads no register cells but those of a program and its seeds. -/
def Program.Expresses (p : Program) (seeds : List Seed) (t : Term) : Prop :=
  t.IsWord ∧ ∀ c ∈ t.symbols, c.isRegister = true → p.HasCell seeds c

theorem Program.Expresses.simplify {t : Term} (h : p.Expresses seeds t) : p.Expresses seeds t.simplify :=
  ⟨isWord_simplify h.1, fun c hc => h.2 c (symbols_simplify hc)⟩

/-- Before an assignment of a register, locations are still expressions over the cells of the program. -/
theorem Program.Expresses.elementsBefore {arrow : Arrow} {m l : Term} (harrow : arrow ∈ p.arrows)
    (hwrites : arrow.statement.WritesRegister) (hm : p.Expresses seeds m)
    (hl : l ∈ arrow.statement.elementsBefore m) : p.Expresses seeds l := by
  cases hstatement : arrow.statement with
  | assign r v =>
      rw [hstatement] at hwrites hl
      obtain ⟨hr, hvw, hvp⟩ := hwrites
      have hv : p.Expresses seeds v := ⟨hvw, fun c hc hregister => .read harrow hstatement hc hregister⟩
      rw [Statement.elementsBefore_register hr] at hl
      split at hl
      next =>
        obtain ⟨d, hd, rfl⟩ := List.mem_map.1 hl
        have hsub := (mem_outermostLvalues (mem_dependencies.1 hd)).1
        have hdependency : p.Expresses seeds d :=
          ⟨hvw.of_mem_subterms hsub, fun c hc => hv.2 c (mem_symbols_of_mem_subterms hsub hc)⟩
        exact hdependency.simplify
      next =>
        rw [List.mem_singleton.1 hl]
        have hreplaced : p.Expresses seeds (m.replace r v) :=
          ⟨IsWord.replace_register hr v hm.1 hvw, fun c hc => (symbols_replace hc).elim (hm.2 c) (hv.2 c)⟩
        exact hreplaced.simplify
  | jump | skip | external name =>
      rw [hstatement] at hl
      rw [List.mem_singleton.1 hl]
      exact hm

/-- Agreement on the variables and on a set of locations. -/
structure Valuation.Agree (z : ZeroDivision) (locations : Term → Prop) (s s' : Valuation) : Prop where
  vars : s.vars = s'.vars
  value : ∀ l, locations l → l.value z s = l.value z s'

/-- The value of a location behind the assignment of a register is a matter of what the location comes from. -/
theorem value_eq_behind_register {z : ZeroDivision} {n : String} {o k : UInt16} {v m : Term} {s s' t t' : Valuation}
    (hv : v.IsWord) (hm : m.IsWord)
    (hseparated : ∀ c ∈ m.symbols, (Term.reg n o k).overlaps c = true → c = .reg n o k) (hvars : s.vars = s'.vars)
    (hbefore : ∀ l ∈ (Statement.assign (.reg n o k) v).elementsBefore m, l.value z s = l.value z s')
    (hexec : Statement.Executes z (.assign (.reg n o k) v) s t)
    (hexec' : Statement.Executes z (.assign (.reg n o k) v) s' t') : m.value z t = m.value z t' := by
  rw [Statement.elementsBefore_register rfl] at hbefore
  split at hbefore
  next hmr =>
    have hdependency : ∀ d ∈ v.dependencies, d.value z s = d.value z s' := by
      intro d hd
      have hword := hv.of_mem_subterms (mem_outermostLvalues (mem_dependencies.1 hd)).1
      rw [← value_simplify z s hword, ← value_simplify z s' hword]
      exact hbefore d.simplify (List.mem_map_of_mem hd)
    rw [hmr, value_self_of_executes hexec, value_self_of_executes hexec']
    exact value_eq_of_dependencies hv hvars hdependency
  next =>
    have hword : (m.replace (.reg n o k) v).IsWord := IsWord.replace_register rfl v hm hv
    rw [← value_replace_of_executes hm hexec hseparated, ← value_replace_of_executes hm hexec' hseparated,
      ← value_simplify z s hword, ← value_simplify z s' hword]
    exact hbefore _ (List.mem_singleton_self _)

/-- A statement that writes a register takes states that agree on what a set of locations comes from to states that
agree on the set. -/
theorem Valuation.Agree.executes {z : ZeroDivision} {arrow : Arrow} {before behind : Term → Prop}
    {s s' t t' : Valuation}
    (hcells : ∀ c d, p.HasCell seeds c → p.HasCell seeds d → c.overlaps d = true → c = d)
    (harrow : arrow ∈ p.arrows) (hwrites : arrow.statement.WritesRegister)
    (hbehind : ∀ m, behind m → p.Expresses seeds m)
    (hbefore : ∀ m, behind m → ∀ l ∈ arrow.statement.elementsBefore m, before l)
    (hagree : Agree z before s s') (hexec : arrow.statement.Executes z s t)
    (hexec' : arrow.statement.Executes z s' t') : Agree z behind t t' := by
  -- The cells of `m` are cells of the program, so the assigned one is separate from all others in `m`.
  refine ⟨by rw [hexec.vars, hexec'.vars, hagree.vars], fun m hm => ?_⟩
  have hvalues : ∀ l ∈ arrow.statement.elementsBefore m, l.value z s = l.value z s' := fun l hl =>
    hagree.value l (hbefore m hm l hl)
  cases hstatement : arrow.statement with
  | assign r v =>
      rw [hstatement] at hwrites hvalues hexec hexec'
      obtain ⟨hr, hvw, -⟩ := hwrites
      obtain ⟨n, o, k, rfl⟩ := exists_of_isRegister hr
      obtain ⟨hmw, hregisters⟩ := hbehind m hm
      refine value_eq_behind_register hvw hmw (fun c hc hover => ?_) hagree.vars hvalues hexec hexec'
      have hregister : c.isRegister = true := by
        cases c <;> first | rfl | exact absurd hover Bool.false_ne_true
      exact (hcells _ _ (.assigned harrow hstatement) (hregisters c hc hregister) hover).symm
  | jump | skip | external name =>
      rw [hstatement] at hvalues hexec hexec'
      cases hexec
      cases hexec'
      exact hvalues m (List.mem_singleton_self m)

end

namespace Analysis

/-- The watched locations are expressions over the register cells of the program and its seeds. -/
theorem Reaches.expresses {p : Program} {guarded : Bool} {seeds : List Seed} {s : Analysis} (hp : p.Built)
    (hwrites : ∀ arrow ∈ p.arrows, arrow.statement.WritesRegister) (hseeds : ∀ e ∈ seeds, e.IsWellSorted)
    (hs : Reaches p ⟨guarded, true⟩ seeds s) : Invariant p seeds (fun _ => p.Expresses seeds) [] s := by
  refine hs.invariant hp (fun arrow h => (hwrites arrow h).isPlain) (fun e he => ?_) ⟨fun e he => ?_, ?_⟩
  · exact ⟨(hseeds e he).isLvalue, (hseeds e he).plain⟩
  · exact ⟨(hseeds e he).isWord, fun c hc hregister => .seed he hc hregister⟩
  · intro arrow a m l harrow _ _ hm hl
    exact hm.elementsBefore harrow (hwrites arrow harrow) hl

/-- Agreement on the watched locations is carried along a path, when the contexts are settled. -/
theorem Invariant.agree_along {p : Program} {seeds : List Seed} {analysis : Analysis}
    (h : Invariant p seeds (fun _ => p.Expresses seeds) [] analysis)
    (hwrites : ∀ arrow ∈ p.arrows, arrow.statement.WritesRegister)
    (hcells : ∀ c d, p.HasCell seeds c → p.HasCell seeds d → c.overlaps d = true → c = d)
    (hsettled : analysis.pending = []) {a b : Address} {arrows : List Arrow} (hpath : p.Path a arrows b)
    {z : ZeroDivision} {s s' t t' : Valuation}
    (hagree : Valuation.Agree z (fun l => l ∈ (analysis.watched a).possibleValues) s s')
    (hexec : Arrow.ExecutesAll z arrows s t) (hexec' : Arrow.ExecutesAll z arrows s' t') :
    Valuation.Agree z (fun l => l ∈ (analysis.watched b).possibleValues) t t' := by
  induction hpath generalizing s s' with
  | nil a =>
      cases hexec
      cases hexec'
      exact hagree
  | @cons arrow arrows c b harrow htarget _ ih =>
      cases hexec with
      | cons hfirst hrest =>
          cases hexec' with
          | cons hfirst' hrest' =>
              have hbefore : ∀ m ∈ (analysis.watched c).possibleValues, ∀ l ∈ arrow.statement.elementsBefore m,
                  l ∈ (analysis.watched arrow.source).possibleValues := fun m hm l hl =>
                (h.closed hsettled).arrow harrow htarget ((h.explicit.watched c).isLocation hm) hm hl
              exact ih (hagree.executes hcells harrow (hwrites arrow harrow) (h.within c) hbefore hfirst hfirst')
                hrest hrest'

/-- Two states that agree on the variables and on what is watched at a point agree on a seed after any path of arrows
with fixed targets from there to the point of the seed, when the contexts are settled. -/
theorem seed_value_eq {p : Program} {guarded : Bool} {seeds : List Seed} {analysis : Analysis} (hp : p.Built)
    (hwrites : ∀ arrow ∈ p.arrows, arrow.statement.WritesRegister) (hseeds : ∀ e ∈ seeds, e.IsWellSorted)
    (hcells : ∀ c d, p.HasCell seeds c → p.HasCell seeds d → c.overlaps d = true → c = d)
    (hreaches : Reaches p ⟨guarded, true⟩ seeds analysis) (hsettled : analysis.pending = []) {e : Seed}
    (he : e ∈ seeds) {a : Address} {arrows : List Arrow} (hpath : p.Path a arrows e.point) {z : ZeroDivision}
    {s s' t t' : Valuation} (hvars : s.vars = s'.vars)
    (hvalues : ∀ l ∈ (analysis.watched a).possibleValues, l.value z s = l.value z s')
    (hexec : Arrow.ExecutesAll z arrows s t) (hexec' : Arrow.ExecutesAll z arrows s' t') :
    e.location.value z t = e.location.value z t' := by
  have hinvariant := hreaches.expresses hp hwrites hseeds
  have hagree := hinvariant.agree_along hwrites hcells hsettled hpath ⟨hvars, hvalues⟩ hexec hexec'
  exact hagree.value e.location (hinvariant.seeds e he)

/-- The address register is moved on, on the way back. -/
def moveOn : Arrow :=
  ⟨⟨1, 0⟩, none, .assign (.reg "r2" 0 0) (.reg "r3" 0 0), .fixed ⟨0, 0⟩⟩

def movingLoop : Program :=
  (Program.addArrow {} load).addArrow moveOn

def movingRegisters : List Term :=
  [.reg "r1" 0 0, .reg "r2" 0 0, .reg "r3" 0 0]

def settledMoving : Analysis :=
  ((Analysis.seed movingLoop {} loadedRegister).run movingLoop ⟨true, true⟩ 8).1

/-- The loaded register holds a given word, every other one holds 2. -/
def loaded (w : UInt64) : Valuation :=
  ⟨fun _ => 0, fun n _ _ => if n = "r1" then w else 2, fun a => a + 5⟩

theorem mem_movingLoop {arrow : Arrow} : arrow ∈ movingLoop.arrows ↔ arrow = load ∨ arrow = moveOn := by
  change arrow ∈ [load, moveOn] ↔ _
  simp

theorem writesRegister_movingLoop : ∀ arrow ∈ movingLoop.arrows, arrow.statement.WritesRegister := by
  intro arrow harrow
  rcases mem_movingLoop.1 harrow with rfl | rfl
  · exact ⟨rfl, by decide, by decide⟩
  · exact ⟨rfl, by decide, by decide⟩

theorem hasCell_movingLoop {c : Term} (hc : movingLoop.HasCell [loadedRegister] c) : c ∈ movingRegisters := by
  cases hc with
  | assigned harrow hassign => rcases mem_movingLoop.1 harrow with rfl | rfl <;> cases hassign <;> decide
  | read harrow hassign hc _ =>
      rcases mem_movingLoop.1 harrow with rfl | rfl <;> cases hassign
      · exact (by decide : ∀ c ∈ (Term.mem (.reg "r2" 0 0)).symbols, c ∈ movingRegisters) c hc
      · exact (by decide : ∀ c ∈ (Term.reg "r3" 0 0).symbols, c ∈ movingRegisters) c hc
  | seed he hc _ =>
      rw [List.mem_singleton.1 he] at hc
      exact (by decide : ∀ c ∈ loadedRegister.location.symbols, c ∈ movingRegisters) c hc

theorem watched_settledMoving :
    (settledMoving.watched ⟨0, 0⟩).possibleValues = [.mem (.reg "r2" 0 0), .mem (.reg "r3" 0 0)] := by
  cbv

theorem seed_value_eq_movingLoop :
    movingLoop.Built ∧ (∀ arrow ∈ movingLoop.arrows, arrow.statement.WritesRegister) ∧
      (∀ e ∈ [loadedRegister], e.IsWellSorted) ∧
      (∀ c d, movingLoop.HasCell [loadedRegister] c → movingLoop.HasCell [loadedRegister] d →
        c.overlaps d = true → c = d) ∧
      Reaches movingLoop ⟨true, true⟩ [loadedRegister] settledMoving ∧ settledMoving.pending = [] ∧
      movingLoop.Path ⟨0, 0⟩ [load, moveOn, load] loadedRegister.point ∧
      ∃ t t', Arrow.ExecutesAll (fun _ _ => 0) [load, moveOn, load] (loaded 0) t ∧
        Arrow.ExecutesAll (fun _ _ => 0) [load, moveOn, load] (loaded 1) t' ∧
        loadedRegister.location.value (fun _ _ => 0) t = loadedRegister.location.value (fun _ _ => 0) t' := by
  have hp : movingLoop.Built := (Program.Built.empty.addArrow load).addArrow moveOn
  have hseeds : ∀ e ∈ [loadedRegister], e.IsWellSorted := fun e he =>
    List.mem_singleton.1 he ▸ ⟨rfl, by decide, by decide⟩
  have hcells : ∀ c d, movingLoop.HasCell [loadedRegister] c → movingLoop.HasCell [loadedRegister] d →
      c.overlaps d = true → c = d := fun c d hc hd =>
    (by decide : ∀ c ∈ movingRegisters, ∀ d ∈ movingRegisters, c.overlaps d = true → c = d)
      c (hasCell_movingLoop hc) d (hasCell_movingLoop hd)
  have hreaches : Reaches movingLoop ⟨true, true⟩ [loadedRegister] settledMoving :=
    .run (.seed (.new ⟨0⟩) loadedRegister) 8
  have hsettled : settledMoving.pending = [] := by cbv
  have hload : load ∈ movingLoop.arrows := mem_movingLoop.2 (Or.inl rfl)
  have hmoveOn : moveOn ∈ movingLoop.arrows := mem_movingLoop.2 (Or.inr rfl)
  have hpath : movingLoop.Path ⟨0, 0⟩ [load, moveOn, load] loadedRegister.point :=
    .cons hload rfl (.cons hmoveOn rfl (.cons hload rfl (.nil _)))
  have hvars : (loaded 0).vars = (loaded 1).vars := rfl
  obtain ⟨t, hexec⟩ := hpath.exists_executesAll writesRegister_movingLoop (fun _ _ => 0) (loaded 0)
  obtain ⟨t', hexec'⟩ := hpath.exists_executesAll writesRegister_movingLoop (fun _ _ => 0) (loaded 1)
  refine ⟨hp, writesRegister_movingLoop, hseeds, hcells, hreaches, hsettled, hpath, t, t', hexec, hexec', ?_⟩
  refine seed_value_eq hp writesRegister_movingLoop hseeds hcells hreaches hsettled (by simp) hpath hvars
    (fun l hl => ?_) hexec hexec'
  rw [watched_settledMoving] at hl
  rcases List.mem_cons.1 hl with rfl | hl
  · rfl
  · rw [List.mem_singleton.1 hl]
    rfl

end Analysis
end Backslice

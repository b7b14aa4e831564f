import Backslice.Connective
import Backslice.Program

/-!
# Sample programs

Small programs to try the analyses on. Every point is the first micro-step of
an instruction.
-/

namespace Backslice.SampleProgram

/-- A register as a whole. -/
def register (name : String) : Term :=
  .reg name 0 0

def assign (source target : UInt64) (location value : Term) : Arrow :=
  ⟨.ofInstruction source, none, .assign location value, .fixed (.ofInstruction target)⟩

def skip (source target : UInt64) (guard : Option Term) : Arrow :=
  ⟨.ofInstruction source, guard, .skip, .fixed (.ofInstruction target)⟩

def ofArrows (arrows : List Arrow) : Program :=
  arrows.foldl Program.addArrow {}

/-- Four assignments in a row. -/
def straight : Program :=
  ofArrows
    [assign 0x0 0x4 (register "r1") (.const 5),
      assign 0x4 0x8 (register "r4") (.const 7),
      assign 0x8 0xc (register "r2") (.binary .add (register "r1") (.const 1)),
      assign 0xc 0x10 (register "r3") (register "r2")]

/-- An assignment that is overwritten at once. -/
def dead : Program :=
  ofArrows
    [assign 0x0 0x4 (register "r1") (.const 1),
      assign 0x4 0x8 (register "r1") (.const 2),
      assign 0x8 0xc (register "r2") (register "r1")]

/-- Two stores whose addresses may be equal, and two reads. -/
def aliasing : Program :=
  let top : Term := .mem (.binary .add (register "sp") (.const 8))
  ofArrows
    [assign 0x0 0x4 top (register "r1"),
      assign 0x4 0x8 (.mem (register "y")) (register "v"),
      assign 0x8 0xc (register "r2") (.binary .add (.mem (register "x")) top)]

/-- A sum over a counter, left through a jump with a computed target. -/
def loop : Program :=
  ofArrows
    [assign 0x0 0x4 (register "i") (.const 0),
      assign 0x4 0x8 (register "acc") (.binary .add (register "acc") (register "i")),
      assign 0x8 0x4 (register "i") (.binary .add (register "i") (.const 1)),
      skip 0x8 0xc none,
      ⟨.ofInstruction 0xc, none, .jump, .computed (register "lr")⟩]

/-- Two ways that join again. -/
def branch : Program :=
  let taken : Term := .eq (register "c") (.const 0)
  ofArrows
    [assign 0x0 0x4 (register "c") (.mem (register "sp")),
      skip 0x4 0x8 (some taken),
      skip 0x4 0xc (some taken.negate),
      assign 0x8 0x10 (register "r0") (register "a"),
      assign 0xc 0x10 (register "r0") (register "c")]

/-- The sample programs by their names. -/
def all : List (String × Program) :=
  [("straight", straight), ("dead", dead), ("alias", aliasing), ("loop", loop), ("branch", branch)]

def byName? (name : String) : Option Program :=
  all.lookup name

/-- The names of the sample programs, as a list in a sentence. -/
def names : String :=
  ", ".intercalate (all.map (·.1))

end Backslice.SampleProgram

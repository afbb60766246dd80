import FragmentAssembly.Binary32.Basic
import FragmentAssembly.Instruction.Register

/-!
# Condition codes

A condition code says how a result compares with zero.  A rule accepts some of the four codes, and
a test applies one rule to four codes at once.
-/

namespace FragmentAssembly

inductive CondCode where
  | gt
  | lt
  | eq
  /-- The result was not a number. -/
  | un
deriving DecidableEq, Repr, Inhabited

def CondCode.ofValue (a : Binary32) : CondCode :=
  if a.isNaN then un
  else if Binary32.lt .zero a then gt
  else if Binary32.lt a .zero then lt
  else eq

inductive CondRule where
  | eq
  | ge
  | gt
  | le
  | lt
  | ne
  | tr
  | fl
deriving DecidableEq, Repr, Inhabited

namespace CondRule

def all : List CondRule :=
  [eq, ge, gt, le, lt, ne, tr, fl]

def name : CondRule → String
  | eq => "EQ"
  | ge => "GE"
  | gt => "GT"
  | le => "LE"
  | lt => "LT"
  | ne => "NE"
  | tr => "TR"
  | fl => "FL"

def ofName? (name : String) : Option CondRule :=
  all.find? (·.name = name)

/-- An unordered code differs from zero and is neither greater nor less. -/
def accepts : CondRule → CondCode → Bool
  | eq, code => code = .eq
  | ne, code => code ≠ .eq
  | gt, code => code = .gt
  | ge, code => code = .gt || code = .eq
  | lt, code => code = .lt
  | le, code => code = .lt || code = .eq
  | tr, _ => true
  | fl, _ => false

theorem ofName?_name (r : CondRule) : ofName? r.name = some r := by
  cases r <;> rfl

end CondRule

structure CondTest where
  rule : CondRule := .tr
  /-- The code that is tested for each component. -/
  swizzle : Swizzle := Swizzle.identity
deriving DecidableEq, Repr

namespace CondTest

def text (t : CondTest) : String :=
  t.rule.name ++ Swizzle.suffix t.swizzle

def isAlways (t : CondTest) : Bool :=
  t.rule = .tr

/-- Which components pass. -/
def passes (t : CondTest) (codes : Quad CondCode) : Quad Bool :=
  (codes.select t.swizzle).map t.rule.accepts

end CondTest

end FragmentAssembly

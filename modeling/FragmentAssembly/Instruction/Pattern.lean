import FragmentAssembly.Instruction.Basic
import FragmentAssembly.Text.EditDistance

/-!
# Instruction patterns

A pattern says which operands an opcode takes and which suffixes its mnemonic may carry.  A
mnemonic is read as the name of a pattern followed by suffixes: a precision letter, `C` for an
update of the condition codes, and `_SAT` for saturation, each of them optional.
-/

namespace FragmentAssembly

/-- The source operands of an opcode. -/
inductive Operands where
  | vectors (count : Nat)
  | scalars (count : Nat)
  /-- Vectors followed by a texture image. -/
  | lookup (vectors : Nat)
  /-- A condition test alone. -/
  | condition
deriving DecidableEq, Repr

structure Suffixes where
  precision : Option Precision := none
  update : Bool := false
  saturate : Bool := false
deriving DecidableEq, Repr

namespace Suffixes

def takePrecision : List Char → Option Precision × List Char
  | 'R' :: cs => (some .full, cs)
  | 'H' :: cs => (some .half, cs)
  | 'X' :: cs => (some .fixed, cs)
  | cs => (none, cs)

/-- Whether a text begins with `mark`, and what follows it then. -/
def takeMark (mark : List Char) (cs : List Char) : Bool × List Char :=
  if mark.isPrefixOf cs then (true, cs.drop mark.length) else (false, cs)

/-- Reads suffixes; nothing else may be left. -/
def ofChars? (cs : List Char) : Option Suffixes :=
  let (precision, cs) := takePrecision cs
  let (update, cs) := takeMark ['C'] cs
  let (saturate, cs) := takeMark ['_', 'S', 'A', 'T'] cs
  if cs.isEmpty then some ⟨precision, update, saturate⟩ else none

end Suffixes

structure SuffixRule where
  precisions : List Precision
  /-- Whether `C` and `_SAT` may be written. -/
  flags : Bool
deriving DecidableEq, Repr

namespace SuffixRule

def all : SuffixRule := ⟨[.full, .half, .fixed], true⟩

def noFixed : SuffixRule := ⟨[.full, .half], true⟩

def flagsOnly : SuffixRule := ⟨[], true⟩

def none : SuffixRule := ⟨[], false⟩

def allows (rule : SuffixRule) (s : Suffixes) : Bool :=
  s.precision.all rule.precisions.contains && (rule.flags || !s.update && !s.saturate)

end SuffixRule

structure Pattern where
  name : String
  opcode : Opcode
  operands : Operands
  writes : Bool
  suffixes : SuffixRule
deriving DecidableEq, Repr

namespace Pattern

def table : List Pattern := [
  ⟨"ADD", .add, .vectors 2, true, .all⟩,
  ⟨"COS", .cos, .scalars 1, true, .noFixed⟩,
  ⟨"DDX", .ddx, .vectors 1, true, .noFixed⟩,
  ⟨"DDY", .ddy, .vectors 1, true, .noFixed⟩,
  ⟨"DP3", .dp3, .vectors 2, true, .all⟩,
  ⟨"DP4", .dp4, .vectors 2, true, .all⟩,
  ⟨"DST", .dst, .vectors 2, true, .noFixed⟩,
  ⟨"EX2", .ex2, .scalars 1, true, .noFixed⟩,
  ⟨"FLR", .flr, .vectors 1, true, .all⟩,
  ⟨"FRC", .frc, .vectors 1, true, .all⟩,
  ⟨"KIL", .kil, .condition, false, .none⟩,
  ⟨"LG2", .lg2, .scalars 1, true, .noFixed⟩,
  ⟨"LIT", .lit, .vectors 1, true, .noFixed⟩,
  ⟨"LRP", .lrp, .vectors 3, true, .all⟩,
  ⟨"MAD", .mad, .vectors 3, true, .all⟩,
  ⟨"MAX", .max, .vectors 2, true, .all⟩,
  ⟨"MIN", .min, .vectors 2, true, .all⟩,
  ⟨"MOV", .mov, .vectors 1, true, .all⟩,
  ⟨"MUL", .mul, .vectors 2, true, .all⟩,
  ⟨"PK2H", .pk2h, .vectors 1, true, .none⟩,
  ⟨"PK2US", .pk2us, .vectors 1, true, .none⟩,
  ⟨"PK4B", .pk4b, .vectors 1, true, .none⟩,
  ⟨"PK4UB", .pk4ub, .vectors 1, true, .none⟩,
  ⟨"POW", .pow, .scalars 2, true, .noFixed⟩,
  ⟨"RCP", .rcp, .scalars 1, true, .noFixed⟩,
  ⟨"RFL", .rfl, .vectors 2, true, .noFixed⟩,
  ⟨"RSQ", .rsq, .scalars 1, true, .noFixed⟩,
  ⟨"SEQ", .seq, .vectors 2, true, .all⟩,
  ⟨"SFL", .sfl, .vectors 2, true, .all⟩,
  ⟨"SGE", .sge, .vectors 2, true, .all⟩,
  ⟨"SGT", .sgt, .vectors 2, true, .all⟩,
  ⟨"SIN", .sin, .scalars 1, true, .noFixed⟩,
  ⟨"SLE", .sle, .vectors 2, true, .all⟩,
  ⟨"SLT", .slt, .vectors 2, true, .all⟩,
  ⟨"SNE", .sne, .vectors 2, true, .all⟩,
  ⟨"STR", .str, .vectors 2, true, .all⟩,
  ⟨"SUB", .sub, .vectors 2, true, .all⟩,
  ⟨"TEX", .tex, .lookup 1, true, .flagsOnly⟩,
  ⟨"TXB", .txb, .lookup 1, true, .flagsOnly⟩,
  ⟨"TXD", .txd, .lookup 3, true, .flagsOnly⟩,
  ⟨"TXP", .txp, .lookup 1, true, .flagsOnly⟩,
  ⟨"UP2H", .up2h, .scalars 1, true, .flagsOnly⟩,
  ⟨"UP2US", .up2us, .scalars 1, true, .flagsOnly⟩,
  ⟨"UP4B", .up4b, .scalars 1, true, .flagsOnly⟩,
  ⟨"UP4UB", .up4ub, .scalars 1, true, .flagsOnly⟩,
  ⟨"X2D", .x2d, .vectors 3, true, .noFixed⟩
]

/-- Enters a pattern in front of the first one whose name is no longer. -/
def enter (p : Pattern) : List Pattern → List Pattern
  | [] => [p]
  | q :: rest => if q.name.length ≤ p.name.length then p :: q :: rest else q :: enter p rest

/-- The table with longer names first, and names of one length in their order. -/
def longestFirst : List Pattern :=
  table.foldr enter []

/-- The pattern whose name a mnemonic begins with, and what follows the name. -/
def ofMnemonic? (mnemonic : String) : Option (Pattern × List Char) := do
  let cs := mnemonic.toList
  let p ← longestFirst.find? fun p => p.name.toList.isPrefixOf cs
  return (p, cs.drop p.name.length)

/-- The greatest edit distance at which a name is still suggested. -/
def maxSuggestionDistance : Nat := 2

/-- The closer one of two suggestions, the earlier one of two that are equally close. -/
def closer (a b : Nat × String) : Nat × String :=
  if b.1 < a.1 then b else a

/-- The name that an unknown mnemonic most likely stands for. -/
def suggest? (mnemonic : String) : Option String :=
  let ranked := longestFirst.map fun p => (editDistance mnemonic.toList p.name.toList, p.name)
  match ranked.filter (·.1 ≤ maxSuggestionDistance) with
  | [] => none
  | first :: rest => some (rest.foldl closer first).2

end Pattern

end FragmentAssembly

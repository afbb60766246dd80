import FragmentAssembly.Binary32.Basic

/-!
# Parameter tables

The values that instructions read besides registers: constants and parameters with names, and
literals.  An entry keeps its index for ever, since entries are only added at the end.  A literal
that is already in the table is not added again.  Beside the entries a table has a map from names
to indices, in which names are looked up.
-/

namespace FragmentAssembly

inductive ParameterKind where
  /-- A name whose value is fixed. -/
  | constant
  /-- A name whose value can be set later. -/
  | declared
  /-- A value written in an operand. -/
  | literal
deriving DecidableEq, Repr, Inhabited

structure Parameter where
  name : Option String
  kind : ParameterKind
  value : Vec4
deriving DecidableEq, Repr, Inhabited

/-- A map from names to indices.  The pairs stand in the order in which they were entered. -/
structure NameMap where
  pairs : List (String × Nat) := []
deriving DecidableEq, Repr, Inhabited

namespace NameMap

def find? (m : NameMap) (name : String) : Option Nat :=
  (m.pairs.find? fun pair => pair.1 = name).map Prod.snd

/-- Enters an index for a name, in place of the one that it had. -/
def insert (m : NameMap) (name : String) (index : Nat) : NameMap :=
  ⟨m.pairs.filter (fun pair => pair.1 ≠ name) ++ [(name, index)]⟩

/-- Whether two maps have the same indices for the same names, in whatever order. -/
def agrees (m n : NameMap) : Bool :=
  m.pairs.length = n.pairs.length &&
    m.pairs.all fun (name, index) => n.find? name = some index

end NameMap

structure ParameterTable where
  entries : List Parameter := []
  /-- The indices of the entries with names. -/
  names : NameMap := {}
deriving DecidableEq, Repr, Inhabited

namespace ParameterTable

def size (t : ParameterTable) : Nat :=
  t.entries.length

def get? (t : ParameterTable) (index : Nat) : Option Parameter :=
  t.entries[index]?

/-- The value of an entry; zero past the end. -/
def value (t : ParameterTable) (index : Nat) : Vec4 :=
  ((t.get? index).map Parameter.value).getD (Quad.replicate .zero)

/-- The index of the entry that a name denotes. -/
def lookup? (t : ParameterTable) (name : String) : Option Nat :=
  t.names.find? name

/-- Adds an entry and returns its index.  Callers have looked up the name before. -/
def addNamed (t : ParameterTable) (name : String) (kind : ParameterKind) (value : Vec4) :
    Nat × ParameterTable :=
  (t.size, ⟨t.entries ++ [⟨some name, kind, value⟩], t.names.insert name t.size⟩)

/-- Returns the index of the literal with the same bits, which is added if there is none. -/
def addLiteral (t : ParameterTable) (value : Vec4) : Nat × ParameterTable :=
  match t.entries.findIdx? fun entry => entry.kind = .literal && entry.value = value with
  | some index => (index, t)
  | none => (t.size, { t with entries := t.entries ++ [⟨none, .literal, value⟩] })

def setValue (t : ParameterTable) (index : Nat) (value : Vec4) : ParameterTable :=
  { t with entries := t.entries.modify index fun entry => { entry with value } }

/-- Whether two vectors are equal as numbers: a NaN differs from itself, and zeros are equal. -/
def sameNumbers (a b : Vec4) : Bool :=
  (Quad.zipWith Binary32.eq a b).all id

def sameEntry (a b : Parameter) : Bool :=
  a.name = b.name && a.kind = b.kind && sameNumbers a.value b.value

/-- Whether two tables have the same entries in the same order, values compared as numbers, and
the same names for them. -/
def agrees (s t : ParameterTable) : Bool :=
  s.size = t.size && (s.entries.zip t.entries).all (fun (a, b) => sameEntry a b) &&
    s.names.agrees t.names

end ParameterTable

end FragmentAssembly

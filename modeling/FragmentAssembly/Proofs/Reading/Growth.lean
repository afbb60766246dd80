import FragmentAssembly.Proofs.Reading.Course
import Mathlib.Logic.Relation

/-!
# Growth of tables while reading

While a text is read, its table is changed in two ways only: a name that is neither reserved nor
taken is added, or a literal is entered.  This is so whether the text is read to its end or not.
-/

namespace FragmentAssembly

/-! ## Steps of a draft -/

/-- What a single reading action does to a draft: it leaves the table alone, enters a literal, or
adds a name that is new. -/
inductive Draft.Step (d : Draft) : Draft → Prop where
  | aside {e : Draft} (same : e.parameters = d.parameters) : Step d e
  | literal {e : Draft} (v : Vec4) (added : e.parameters = (d.parameters.addLiteral v).2) :
    Step d e
  | define {e : Draft} {name : String} {kind : ParameterKind} (v : Vec4) (isName : IsName name)
    (free : isReserved name = false) (new : d.parameters.lookup? name = none)
    (known : kind ≠ .literal) (added : e.parameters = (d.parameters.addNamed name kind v).2) :
    Step d e

/-- Any number of steps. -/
def Draft.Grows : Draft → Draft → Prop :=
  Relation.ReflTransGen Draft.Step

namespace Draft.Grows

theorem refl (d : Draft) : d.Grows d :=
  Relation.ReflTransGen.refl

theorem trans {d e f : Draft} (hde : d.Grows e) (hef : e.Grows f) : d.Grows f :=
  Relation.ReflTransGen.trans hde hef

theorem single {d e : Draft} (h : d.Step e) : d.Grows e :=
  Relation.ReflTransGen.single h

theorem aside {d e : Draft} (h : e.parameters = d.parameters) : d.Grows e :=
  single (.aside h)

end Draft.Grows

theorem Draft.Step.extends {d e : Draft} (h : d.Step e) : e.parameters.Extends d.parameters := by
  cases h with
  | aside same =>
    rw [same]
    exact .refl _
  | literal v added =>
    rw [added]
    exact ParameterTable.extends_addLiteral _ v
  | define v _ _ _ _ added =>
    rw [added]
    exact ParameterTable.extends_addNamed _ _ _ v

/-- An entry keeps its index, its name, its kind and its value. -/
theorem Draft.Grows.extends {d e : Draft} (h : d.Grows e) :
    e.parameters.Extends d.parameters := by
  unfold Grows at h
  induction h with
  | refl => exact .refl _
  | tail _ hstep ih => exact ih.trans hstep.extends

/-! ## Actions -/

namespace Compile

/-- From this draft the action takes steps of a draft only. -/
def GrowsFrom {α : Type} (m : Compile α) (d : Draft) : Prop :=
  d.Grows (m.leaves d)

/-- It does so from every draft. -/
def Grows {α : Type} (m : Compile α) : Prop :=
  ∀ d, m.GrowsFrom d

end Compile

theorem Draft.Grows.course : Draft.Course Draft.Grows where
  refl := .refl
  trans := .trans
  aside same _ := .aside same
  literal v added _ := .single (.literal v added)
  define v isName free new known added _ := .single (.define v isName free new known added)
  entry _ _ _ := .aside rfl

namespace Compile

open Draft.Grows

theorem Grows.lift {α : Type} (m : Scan α) : (liftM m : Compile α).Grows :=
  course.lift m

theorem Grows.within {α : Type} {m : Compile α} (around : Construct) (h : m.Grows) :
    Grows (FragmentAssembly.within around m) :=
  Leads.within around h

theorem grows_note (n : Note) : (note n).Grows :=
  fun _ => .aside rfl

theorem grows_namedOperand (name : String) : (namedOperand name).Grows :=
  course.namedOperand name

theorem grows_operand : operand.Grows :=
  course.operand

theorem grows_vectorSource : vectorSource.Grows :=
  course.vectorSource

theorem grows_scalarSource : scalarSource.Grows :=
  course.scalarSource

theorem grows_textureImage : textureImage.Grows :=
  course.textureImage

theorem grows_commaSeparated {α : Type} {item : Compile α} (h : item.Grows) (count : Nat) :
    (commaSeparated item count).Grows :=
  course.commaSeparated h count

theorem grows_destinationOf (ins : Instruction) (writes : Bool) :
    (destinationOf ins writes).Grows :=
  course.destinationOf ins writes

theorem grows_statement (count : Nat) : (statement count).Grows :=
  course.statement (fun _ _ _ => grows_note _) count

theorem grows_statements (fuel count : Nat) : (statements fuel count).Grows :=
  course.statements (fun _ _ _ => grows_note _) fuel count

theorem grows_program : program.Grows :=
  course.program fun _ _ _ => grows_note _

end Compile

end FragmentAssembly

import FragmentAssembly.Compile

/-!
# Assemblies

What a program text builds, without the text.  An inventory is what statements have entered so
far: the registers and texture units in use, and the parameters.  `Assembles i body j` says that
statements with the instructions `body` take inventory `i` to `j`, with definitions anywhere
between them.
-/

namespace FragmentAssembly

/-! ## Shapes of instructions -/

namespace Operands

/-- Whether a texture image follows the vectors. -/
def samples : Operands → Bool
  | lookup _ => true
  | _ => false

/-- The source operands that are called for.  A scalar is one component, repeated. -/
def Admits : Operands → List Source → Prop
  | vectors count, sources => sources.length = count
  | scalars count, sources =>
    sources.length = count ∧ ∀ s ∈ sources, ∃ c, s.swizzle = Quad.replicate c
  | lookup count, sources => sources.length = count
  | condition, sources => sources = []

/-- How many source operands are called for. -/
def count : Operands → Nat
  | vectors count => count
  | scalars count => count
  | lookup count => count
  | condition => 0

theorem Admits.length_eq {operands : Operands} {sources : List Source}
    (h : operands.Admits sources) : sources.length = operands.count := by
  cases operands with
  | vectors count => exact h
  | scalars count => exact h.1
  | lookup count => exact h
  | condition => exact List.length_eq_zero_iff.mpr h

end Operands

/-- An instruction has the operands that the pattern of its opcode calls for, and only flags that
the pattern allows. -/
structure Instruction.Fits (ins : Instruction) (p : Pattern) : Prop where
  opcode : ins.opcode = p.opcode
  destination : ins.destination.isSome = p.writes
  sources : p.operands.Admits ins.sources
  texture : ins.texture.isSome = p.operands.samples
  suffixes : ∃ s : Suffixes, p.suffixes.allows s = true ∧ ins.precision = s.precision.getD .full ∧
    ins.updateCodes = s.update ∧ ins.saturate = s.saturate

/-- Only an operand between bars has a sign in front of the bars. -/
def Source.IsRegular (s : Source) : Prop :=
  s.negateAbsolute = true → s.absolute = true

/-- Some component is written. -/
def Destination.IsRegular (d : Destination) : Prop :=
  d.mask.any id = true

/-- Names begin with a letter and go on with letters, digits, `_` and `$`. -/
def IsName (name : String) : Prop :=
  ∃ c cs, name.toList = c :: cs ∧ c.isAlpha = true ∧ cs.all Token.isNameChar = true

/-! ## Inventories -/

structure Inventory where
  inputsRead : Nat := 0
  outputsWritten : Nat := 0
  textures : TextureUse := Vector.replicate _ none
  parameters : ParameterTable := {}
deriving DecidableEq, Repr

def Draft.inventory (d : Draft) : Inventory :=
  ⟨d.inputsRead, d.outputsWritten, d.textures, d.parameters⟩

def Program.inventory (p : Program) : Inventory :=
  ⟨p.inputsRead, p.outputsWritten, p.textures, p.parameters⟩

namespace Inventory

/-- Entering a register or constant that an operand reads. -/
inductive Reads : Inventory → Readable → Inventory → Prop where
  | temporary (i : Inventory) (t : TemporaryIndex) : Reads i (.temporary t) i
  | input (i : Inventory) (n : InputIndex) :
    Reads i (.input n) { i with inputsRead := i.inputsRead ||| (1 <<< n.val) }
  | localParameter (i : Inventory) (n : LocalParameterIndex) : Reads i (.localParameter n) i
  | named {i : Inventory} {name : String} {index : Nat}
    (hname : IsName name) (hfound : i.parameters.lookup? name = some index) :
    Reads i (.parameter index) i
  | literal (i : Inventory) (v : Vec4) :
    Reads i (.parameter (i.parameters.addLiteral v).1)
      { i with parameters := (i.parameters.addLiteral v).2 }

/-- Entering a register that an instruction writes. -/
inductive Writes : Inventory → Writable → Inventory → Prop where
  | temporary (i : Inventory) (t : TemporaryIndex) : Writes i (.temporary t) i
  | conditionOnly (i : Inventory) (r : ConditionRegister) : Writes i (.conditionOnly r) i
  | output {i : Inventory} {n : OutputIndex}
    (hcolors : Compile.writesBothColors (i.outputsWritten ||| (1 <<< n.val)) = false) :
    Writes i (.output n) { i with outputsWritten := i.outputsWritten ||| (1 <<< n.val) }

/-- Entering a source operand. -/
def ReadsSource (i : Inventory) (s : Source) (j : Inventory) : Prop :=
  s.IsRegular ∧ i.Reads s.register j

/-- Entering a destination. -/
def WritesDestination (i : Inventory) (d : Destination) (j : Inventory) : Prop :=
  d.IsRegular ∧ i.Writes d.register j

/-- Entering a texture image. -/
inductive Samples : Inventory → TextureImage → Inventory → Prop where
  | fresh {i : Inventory} {image : TextureImage} (hunused : i.textures.get image.unit = none) :
    Samples i image
      { i with textures := i.textures.set image.unit.val (some image.target) image.unit.isLt }
  | again {i : Inventory} {image : TextureImage}
    (hused : i.textures.get image.unit = some image.target) : Samples i image i

/-- Entering a named parameter. -/
inductive Defines : Inventory → Inventory → Prop where
  | named {i : Inventory} {name : String} {kind : ParameterKind} (v : Vec4) (hname : IsName name)
    (hfree : isReserved name = false) (hnew : i.parameters.lookup? name = none)
    (hkind : kind ≠ .literal) :
    Defines i { i with parameters := (i.parameters.addNamed name kind v).2 }

end Inventory

/-- Steps for the elements of a list, in their order. -/
inductive Chain {σ α : Type} (step : σ → α → σ → Prop) : σ → List α → σ → Prop where
  | nil (s : σ) : Chain step s [] s
  | cons {s t u : σ} {a : α} {as : List α} (head : step s a t) (tail : Chain step t as u) :
    Chain step s (a :: as) u

/-- What each step preserves is true at the end. -/
theorem Chain.preserves {σ α : Type} {step : σ → α → σ → Prop} {P : σ → Prop}
    (hstep : ∀ {s a t}, step s a t → P s → P t) {s t : σ} {as : List α} (h : Chain step s as t)
    (hs : P s) : P t := by
  induction h with
  | nil s => exact hs
  | cons head _ ih => exact ih (hstep head hs)

/-- What no step changes is the same at the end. -/
theorem Chain.keeps {σ α β : Type} {step : σ → α → σ → Prop} {f : σ → β}
    (hstep : ∀ {s a t}, step s a t → f t = f s) {s t : σ} {as : List α} (h : Chain step s as t) :
    f t = f s :=
  h.preserves (P := fun u => f u = f s) (fun head hsame => (hstep head).trans hsame) rfl

/-- What is true at the end was true at the start, or comes from an element. -/
theorem Chain.origin {σ α : Type} {step : σ → α → σ → Prop} {P : σ → Prop} {Q : α → Prop}
    (hstep : ∀ {s a t}, step s a t → P t → P s ∨ Q a) {s t : σ} {as : List α}
    (h : Chain step s as t) (ht : P t) : P s ∨ ∃ a ∈ as, Q a := by
  induction h with
  | nil s => exact .inl ht
  | cons head _ ih =>
    rcases ih ht with hmiddle | ⟨a, ha, hQ⟩
    · rcases hstep head hmiddle with hfirst | hQ
      · exact .inl hfirst
      · exact .inr ⟨_, List.mem_cons_self, hQ⟩
    · exact .inr ⟨a, List.mem_cons_of_mem _ ha, hQ⟩

/-- Each element adds its own, and nothing is taken back. -/
theorem Chain.iff {σ α : Type} {step : σ → α → σ → Prop} {P : σ → Prop} {Q : α → Prop}
    (hstep : ∀ {s a t}, step s a t → (P t ↔ P s ∨ Q a)) {s t : σ} {as : List α}
    (h : Chain step s as t) : P t ↔ P s ∨ ∃ a ∈ as, Q a := by
  induction h with
  | nil s => simp only [List.not_mem_nil, false_and, exists_false, or_false]
  | cons head _ ih => simp only [ih, hstep head, List.mem_cons, exists_eq_or_imp, or_assoc]

/-- A fact about every element of a chain. -/
theorem Chain.and_forall {σ α : Type} {step : σ → α → σ → Prop} {P : α → Prop} {s t : σ}
    {as : List α} (h : Chain (fun s a t => step s a t ∧ P a) s as t) :
    Chain step s as t ∧ ∀ a ∈ as, P a := by
  induction h with
  | nil s => exact ⟨.nil s, fun a ha => nomatch ha⟩
  | cons head tail ih =>
    refine ⟨.cons head.1 ih.1, fun a ha => ?_⟩
    rcases List.mem_cons.mp ha with rfl | ha
    · exact head.2
    · exact ih.2 a ha

namespace Inventory

/-- Entering an instruction: its destination, its source operands and its texture image. -/
inductive Enters : Inventory → Instruction → Inventory → Prop where
  | operands {i j k l : Inventory} {ins : Instruction}
    (written : Chain WritesDestination i ins.destination.toList j)
    (read : Chain ReadsSource j ins.sources k)
    (sampled : Chain Samples k ins.texture.toList l) :
    Enters i ins l

end Inventory

/-- What a statement adds to a program whose inventory it takes from `i` to `j`. -/
def Compile.Statement.Adds : Compile.Statement → Inventory → Inventory → Prop
  | definition, i, j => i.Defines j
  | instruction ins, i, j => ∃ p ∈ Pattern.table, ins.Fits p ∧ i.Enters ins j
  | finish ins, i, j => (∃ position, ins = { opcode := .halt, position }) ∧ i = j

inductive Assembles : Inventory → List Instruction → Inventory → Prop where
  | nil (i : Inventory) : Assembles i [] i
  | define {i j k : Inventory} {body : List Instruction}
    (entry : i.Defines j) (rest : Assembles j body k) : Assembles i body k
  | instruction {i j k : Inventory} {p : Pattern} {ins : Instruction} {body : List Instruction}
    (listed : p ∈ Pattern.table) (fits : ins.Fits p) (entry : i.Enters ins j)
    (rest : Assembles j body k) : Assembles i (ins :: body) k

/-- What definitions and instructions preserve is true in the end. -/
theorem Assembles.preserves {P : Inventory → Prop} {i j : Inventory} {body : List Instruction}
    (h : Assembles i body j) (hdefines : ∀ {i j}, i.Defines j → P i → P j)
    (henters : ∀ {i ins j}, i.Enters ins j → P i → P j) (hi : P i) : P j := by
  induction h with
  | nil i => exact hi
  | define entry _ ih => exact ih (hdefines entry hi)
  | instruction _ _ entry _ ih => exact ih (henters entry hi)

/-- What is true in the end was true at first, or comes from an instruction. -/
theorem Assembles.origin {P : Inventory → Prop} {Q : Instruction → Prop} {i j : Inventory}
    {body : List Instruction} (h : Assembles i body j)
    (hdefines : ∀ {i j}, i.Defines j → P j → P i)
    (henters : ∀ {i ins j}, i.Enters ins j → P j → P i ∨ Q ins) (hj : P j) :
    P i ∨ ∃ ins ∈ body, Q ins := by
  induction h with
  | nil i => exact .inl hj
  | define entry _ ih => exact (ih hj).imp_left (hdefines entry)
  | instruction _ _ entry _ ih =>
    rcases ih hj with hmiddle | ⟨ins, hins, hQ⟩
    · rcases henters entry hmiddle with hfirst | hQ
      · exact .inl hfirst
      · exact .inr ⟨_, List.mem_cons_self, hQ⟩
    · exact .inr ⟨ins, List.mem_cons_of_mem _ hins, hQ⟩

/-- Each instruction adds its own, and nothing is taken back. -/
theorem Assembles.iff {P : Inventory → Prop} {Q : Instruction → Prop} {i j : Inventory}
    {body : List Instruction} (h : Assembles i body j)
    (hdefines : ∀ {i j}, i.Defines j → (P j ↔ P i))
    (henters : ∀ {i ins j}, i.Enters ins j → (P j ↔ P i ∨ Q ins)) :
    P j ↔ P i ∨ ∃ ins ∈ body, Q ins := by
  induction h with
  | nil i => simp only [List.not_mem_nil, false_and, exists_false, or_false]
  | define entry _ ih => rw [ih, hdefines entry]
  | instruction _ _ entry _ ih =>
    simp only [ih, henters entry, List.mem_cons, exists_eq_or_imp, or_assoc]

end FragmentAssembly

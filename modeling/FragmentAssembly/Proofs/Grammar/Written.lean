import FragmentAssembly.Proofs.Grammar.Basic

/-!
# How operands are written

The grammar once more, with what the operands of its instructions are written as.  A parameter is
written as its name or as its value; which register another operand is does not matter here.
-/

namespace FragmentAssembly

namespace Grammar

/-- How the operand that reads a parameter is written. -/
inductive Spelling where
  | name (name : String)
  | literal (value : Vec4)
deriving DecidableEq, Repr

/-- The operands of an instruction in their order.  Those that are registers have no spelling. -/
abbrev Wording := List (Option Spelling)

/-! ## Values -/

def numberOf (value : Binary32) : Phrase :=
  .ofItem fun cs rest => ∃ n, Binary32.ofNumeral n = value ∧ Number n cs rest

def unsignedNumberOf (value : Binary32) : Phrase :=
  .ofItem fun cs rest => ∃ n, Binary32.ofNumeral n = value ∧ n.sign = none ∧ Number n cs rest

/-- These numbers with a comma in front of each. -/
def moreNumbersOf : List Binary32 → Phrase
  | [] => .empty
  | value :: values => (mark ',').andThen ((numberOf value).andThen (moreNumbersOf values))

/-- The numbers of a vector behind its opening brace. -/
def vectorRestOf (first : Binary32) (more : List Binary32) : Phrase :=
  (numberOf first).andThen ((moreNumbersOf more).andThen (mark '\x7d'))

def vectorOf (value : Vec4) : Phrase :=
  (mark '\x7b').andThen (.anyOf fun first => .anyOf fun more =>
    (vectorRestOf first more).given (more.length ≤ 3 ∧ Scan.vectorOfList first more = value))

/-- A literal is a number, which stands for all four components, or a vector. -/
def literalOf (value : Vec4) : Phrase :=
  (Phrase.anyOf fun x => (unsignedNumberOf x).given (Quad.replicate x = value)).orElse
    (vectorOf value)

/-! ## Operands -/

def baseOf : Option Spelling → Phrase
  | none => register
  | some (.name name) => (word name).andThen (.mentioning (.use name))
  | some (.literal value) => literalOf value

def selectionOf (suffix : Bool → Phrase) (w : Option Spelling) : Phrase :=
  (baseOf w).andThen (suffix w.isSome)

def sourceOf (suffix : Bool → Phrase) (w : Option Spelling) : Phrase :=
  sign.andThen (((mark '|').andThen (sign.andThen ((selectionOf suffix w).andThen
    (mark '|')))).orElse (selectionOf suffix w))

/-- One phrase for each index, with commas between them. -/
def separatedOf {ι : Type} (p : ι → Phrase) : List ι → Phrase
  | [] => .empty
  | [x] => p x
  | x :: y :: more => (p x).andThen ((mark ',').andThen (separatedOf p (y :: more)))

/-- As many sources as `count`. -/
def sourcesOf (suffix : Bool → Phrase) (count : Nat) (ws : Wording) : Phrase :=
  (separatedOf (sourceOf suffix) ws).given (ws.length = count)

def operandsOf : Operands → Wording → Phrase
  | .vectors count, ws => sourcesOf vectorSuffix count ws
  | .scalars count, ws => sourcesOf scalarSuffix count ws
  | .lookup vectors, ws => (sourcesOf vectorSuffix vectors ws).andThen ((mark ',').andThen image)
  | .condition, ws => condition.given (ws = [])

/-! ## Statements -/

def instructionOf (ws : Wording) : Phrase :=
  .anyOf fun pattern => (wordOf (IsMnemonic · pattern)).andThen
    ((destinationOf pattern.writes).andThen ((operandsOf pattern.operands ws).andThen (mark ';')))

/-- Statements with the wordings of their instructions, the `END` included. -/
inductive StatementsOf : List Char → List Mention → List Wording → Prop where
  | finish {cs : List Char} (finish : word "END" cs [] []) : StatementsOf cs [] [[]]
  | definition {cs mid : List Char} {ms more : List Mention} {wss : List Wording}
    (first : definition cs ms mid) (rest : StatementsOf mid more wss) :
    StatementsOf cs (ms ++ more) wss
  | instruction {cs mid : List Char} {ms more : List Mention} {ws : Wording}
    {wss : List Wording} (first : instructionOf ws cs ms mid) (rest : StatementsOf mid more wss) :
    StatementsOf cs (ms ++ more) (ws :: wss)

/-- What the instructions of a text are written with, if its mentions agree. -/
def IsWritten (source : String) (wss : List Wording) : Prop :=
  ∃ text cs ms, source.toList = "!!FP1.0".toList ++ text ∧ Skips text cs ∧
    StatementsOf cs ms wss ∧ Consistent [] ms

/-! ## Nothing else is written -/

/-- Every item has some value. -/
theorem ofItem_eq_anyOf {ι κ : Type} (f : ι → κ) (item : ι → List Char → List Char → Prop) :
    (Phrase.ofItem fun cs rest => ∃ x, item x cs rest) =
      .anyOf fun value => .ofItem fun cs rest => ∃ x, f x = value ∧ item x cs rest := by
  funext cs ms rest
  apply propext
  constructor
  · rintro ⟨⟨x, hx⟩, hms⟩
    exact ⟨_, ⟨x, rfl, hx⟩, hms⟩
  · rintro ⟨_, ⟨x, -, hx⟩, hms⟩
    exact ⟨⟨x, hx⟩, hms⟩

theorem number_eq_anyOf : number = .anyOf numberOf :=
  ofItem_eq_anyOf Binary32.ofNumeral Number

theorem unsignedNumber_eq_anyOf : unsignedNumber = .anyOf unsignedNumberOf :=
  ofItem_eq_anyOf Binary32.ofNumeral fun n cs rest => n.sign = none ∧ Number n cs rest

theorem moreNumbers_eq_anyOf (count : Nat) :
    moreNumbers count = .anyOf fun values => (moreNumbersOf values).given
      (values.length ≤ count) := by
  funext cs ms rest
  apply propext
  induction count generalizing cs ms rest with
  | zero =>
    constructor
    · exact fun h => ⟨[], Nat.le_refl 0, h⟩
    · rintro ⟨values, hlength, h⟩
      obtain rfl : values = [] := List.eq_nil_of_length_eq_zero (Nat.le_zero.mp hlength)
      exact h
  | succ count ih =>
    rw [moreNumbers, number_eq_anyOf]
    constructor
    · rintro (⟨mid, before, _, hmark, ⟨_, _, _, ⟨value, hvalue⟩, hmore, rfl⟩, rfl⟩ | hempty)
      · obtain ⟨values, hlength, hvalues⟩ := (ih _ _ _).mp hmore
        exact ⟨value :: values, Nat.succ_le_succ hlength,
          mid, before, _, hmark, ⟨_, _, _, hvalue, hvalues, rfl⟩, rfl⟩
      · exact ⟨[], Nat.zero_le _, hempty⟩
    · rintro ⟨values, hlength, h⟩
      cases values with
      | nil => exact .inr h
      | cons value values =>
        obtain ⟨mid, before, _, hmark, ⟨_, _, _, hvalue, hvalues, rfl⟩, rfl⟩ := h
        have hmore := (ih _ _ _).mpr ⟨values, Nat.le_of_succ_le_succ hlength, hvalues⟩
        exact .inl ⟨mid, before, _, hmark, ⟨_, _, _, ⟨value, hvalue⟩, hmore, rfl⟩, rfl⟩

theorem vector_eq_anyOf : vector = .anyOf vectorOf := by
  unfold vector vectorOf vectorRestOf
  rw [number_eq_anyOf, moreNumbers_eq_anyOf, ← Phrase.andThen_anyOf]
  congr 1
  funext cs ms rest
  apply propext
  constructor
  · rintro ⟨_, _, _, ⟨first, hfirst⟩, ⟨_, _, _, ⟨more, hlength, hmore⟩, hclose, rfl⟩, rfl⟩
    exact ⟨_, first, more, ⟨hlength, rfl⟩, _, _, _, hfirst, ⟨_, _, _, hmore, hclose, rfl⟩, rfl⟩
  · rintro ⟨_, first, more, ⟨hlength, -⟩, _, _, _, hfirst, ⟨_, _, _, hmore, hclose, rfl⟩, rfl⟩
    exact ⟨_, _, _, ⟨first, hfirst⟩, ⟨_, _, _, ⟨more, hlength, hmore⟩, hclose, rfl⟩, rfl⟩

/-- A constant is written somehow. -/
theorem base_true_eq_anyOf : base true = .anyOf fun x => baseOf (some x) := by
  unfold base
  rw [if_pos rfl, unsignedNumber_eq_anyOf, vector_eq_anyOf]
  funext cs ms rest
  apply propext
  constructor
  · -- a number is spelled like the vector of which it is each component
    rintro (⟨x, hx⟩ | ⟨value, hvalue⟩ | ⟨name, hname⟩)
    · exact ⟨.literal (Quad.replicate x), .inl ⟨x, rfl, hx⟩⟩
    · exact ⟨.literal value, .inr hvalue⟩
    · exact ⟨.name name, hname⟩
  · rintro ⟨name | value, h⟩
    · exact .inr (.inr ⟨name, h⟩)
    · rcases h with ⟨x, -, hx⟩ | hvalue
      · exact .inl ⟨x, hx⟩
      · exact .inr (.inl ⟨value, hvalue⟩)

theorem selection_eq_anyOf (suffix : Bool → Phrase) :
    selection suffix = .anyOf (selectionOf suffix) := by
  funext cs ms rest
  apply propext
  constructor
  · -- the suffix knows only whether there is a spelling, so the cases are those of the base
    rintro ⟨isConstant, mid, before, after, hbase, hsuffix, hms⟩
    cases isConstant with
    | false => exact ⟨none, mid, before, after, hbase, hsuffix, hms⟩
    | true =>
      rw [base_true_eq_anyOf] at hbase
      obtain ⟨x, hx⟩ := hbase
      exact ⟨some x, mid, before, after, hx, hsuffix, hms⟩
  · rintro ⟨_ | x, mid, before, after, hbase, hsuffix, hms⟩
    · exact ⟨false, mid, before, after, hbase, hsuffix, hms⟩
    · refine ⟨true, mid, before, after, ?_, hsuffix, hms⟩
      rw [base_true_eq_anyOf]
      exact ⟨x, hbase⟩

theorem source_eq_anyOf (suffix : Bool → Phrase) :
    source suffix = .anyOf (sourceOf suffix) := by
  -- one selection stands in both alternatives, so the choice of its wording moves to the front
  unfold source
  rw [selection_eq_anyOf]
  simp only [Phrase.anyOf_andThen, Phrase.andThen_anyOf, Phrase.anyOf_orElse]
  rfl

theorem separated_eq_anyOf {ι : Type} (p : ι → Phrase) (count : Nat) :
    separated (.anyOf p) count = .anyOf fun xs => (separatedOf p xs).given
      (xs.length = count) := by
  funext cs ms rest
  apply propext
  -- the separator stands between two, so there are cases for none, one and more
  induction count generalizing cs ms rest with
  | zero =>
    constructor
    · exact fun h => ⟨[], rfl, h⟩
    · rintro ⟨xs, hlength, h⟩
      obtain rfl : xs = [] := List.eq_nil_of_length_eq_zero hlength
      exact h
  | succ count ih =>
    cases count with
    | zero =>
      constructor
      · rintro ⟨x, hx⟩
        exact ⟨[x], rfl, hx⟩
      · rintro ⟨xs, hlength, h⟩
        obtain ⟨x, rfl⟩ := List.length_eq_one_iff.mp hlength
        exact ⟨x, h⟩
    | succ count =>
      constructor
      · rintro ⟨mid, _, _, ⟨x, hx⟩, ⟨mid', before, _, hmark, hmore, rfl⟩, rfl⟩
        obtain ⟨xs, hlength, hxs⟩ := (ih _ _ _).mp hmore
        obtain ⟨y, ys, rfl⟩ := List.exists_cons_of_length_eq_add_one hlength
        refine ⟨x :: y :: ys, congrArg (· + 1) hlength, ?_⟩
        exact ⟨mid, _, _, hx, ⟨mid', before, _, hmark, hxs, rfl⟩, rfl⟩
      · rintro ⟨xs, hlength, h⟩
        obtain ⟨x, ys, rfl⟩ := List.exists_cons_of_length_eq_add_one hlength
        have hlength' : ys.length = count + 1 := Nat.succ.inj hlength
        obtain ⟨y, zs, rfl⟩ := List.exists_cons_of_length_eq_add_one hlength'
        obtain ⟨mid, _, _, hx, ⟨mid', before, _, hmark, hxs, rfl⟩, rfl⟩ := h
        have hmore := (ih _ _ _).mpr ⟨y :: zs, hlength', hxs⟩
        exact ⟨mid, _, _, ⟨x, hx⟩, ⟨mid', before, _, hmark, hmore, rfl⟩, rfl⟩

theorem operands_eq_anyOf (shape : Operands) : operands shape = .anyOf (operandsOf shape) := by
  cases shape with
  | vectors count =>
    rw [operands, source_eq_anyOf, separated_eq_anyOf]
    rfl
  | scalars count =>
    rw [operands, source_eq_anyOf, separated_eq_anyOf]
    rfl
  | lookup count =>
    rw [operands, source_eq_anyOf, separated_eq_anyOf, Phrase.anyOf_andThen]
    rfl
  | condition => exact (Phrase.anyOf_given_eq (fun _ => condition) []).symm

theorem instruction_eq_anyOf : instruction = .anyOf instructionOf := by
  unfold instruction instructionOf
  simp only [operands_eq_anyOf, Phrase.anyOf_andThen, Phrase.andThen_anyOf]
  exact Phrase.anyOf_comm _

theorem StatementsOf.statements {cs : List Char} {ms : List Mention} {wss : List Wording}
    (h : StatementsOf cs ms wss) : ∃ count, wss.length = count + 1 ∧ Statements cs ms count := by
  -- the wording of `END` is the one that the count leaves out
  induction h with
  | finish hend => exact ⟨0, rfl, .finish hend⟩
  | definition first _ ih =>
    obtain ⟨count, hlength, hrest⟩ := ih
    exact ⟨count, hlength, .definition first hrest⟩
  | @instruction _ _ _ _ ws _ first _ ih =>
    obtain ⟨count, hlength, hrest⟩ := ih
    refine ⟨count + 1, congrArg (· + 1) hlength, .instruction ?_ hrest⟩
    rw [instruction_eq_anyOf]
    exact ⟨ws, first⟩

/-- What is derived is written somehow, with a wording for each instruction and the `END`. -/
theorem statements_iff {cs : List Char} {ms : List Mention} {count : Nat} :
    Statements cs ms count ↔ ∃ wss, wss.length = count + 1 ∧ StatementsOf cs ms wss := by
  constructor
  · intro h
    induction h with
    | finish hend => exact ⟨[[]], rfl, .finish hend⟩
    | definition first _ ih =>
      obtain ⟨wss, hlength, hrest⟩ := ih
      exact ⟨wss, hlength, .definition first hrest⟩
    | instruction first _ ih =>
      rw [instruction_eq_anyOf] at first
      obtain ⟨ws, hws⟩ := first
      obtain ⟨wss, hlength, hrest⟩ := ih
      exact ⟨ws :: wss, congrArg (· + 1) hlength, .instruction hws hrest⟩
  · rintro ⟨wss, hlength, h⟩
    obtain ⟨other, hlength', hstatements⟩ := h.statements
    obtain rfl : other = count := Nat.succ.inj (hlength'.symm.trans hlength)
    exact hstatements

end Grammar

end FragmentAssembly

import FragmentAssembly.Proofs.Coupling
import FragmentAssembly.Proofs.Disassembly.Recompilation
import FragmentAssembly.Proofs.Execution.Total
import FragmentAssembly.Proofs.Execution.Trace
import FragmentAssembly.Proofs.Program.Equivalent

/-!
# Runs of equivalent programs

Equivalent programs go through the same states, and they ask the sampler for the same.  All that
observers can see of the difference is where the instructions stand in their texts.
-/

namespace FragmentAssembly

/-! ## States -/

/-- Events that show the same, up to the position of an instruction. -/
inductive Event.Alike : Event → Event → Prop where
  | same (e : Event) : Alike e e
  | instruction (pc position position' : Nat) (opcode : Opcode) :
    Alike (.instruction pc position opcode) (.instruction pc position' opcode)

/-- States of two runs that started in `s₀`. -/
structure ExecState.Abreast (s₀ s t : ExecState) : Prop where
  machine : t.machine = s.machine
  tooDeep : t.tooDeep = s.tooDeep
  requests : t.requests = s.requests
  events : ∃ shown shown', s.events = s₀.events.dispatchAll shown ∧
    t.events = s₀.events.dispatchAll shown' ∧ List.Forall₂ Event.Alike shown shown'
  notes : t.notes = s.notes

theorem ExecState.Abreast.start (s : ExecState) : s.Abreast s s :=
  ⟨rfl, rfl, rfl, ⟨[], [], rfl, rfl, .nil⟩, rfl⟩

/-- Two runs from `s₀` end with the same outcome, or meet the same fault. -/
inductive ExecState.EndsAlike {α : Type} (s₀ : ExecState) :
    EStateM.Result Fault ExecState α → EStateM.Result Fault ExecState α → Prop where
  | outcome {a : α} {s t : ExecState} (h : s₀.Abreast s t) : EndsAlike s₀ (.ok a s) (.ok a t)
  | fault {e : Fault} {s t : ExecState} : EndsAlike s₀ (.error e s) (.error e t)

/-- Runs that started in `s₀` stay abreast to the end. -/
def ExecState.abreast (s₀ : ExecState) : Coupling Fault ExecState where
  beside := s₀.Abreast
  alike := Eq
  spent := Never
  last := Never

/-- The run of another program in the same place. -/
def Job.on (job : Job) (q : Program) : Job :=
  { job with program := q }

section Actions

variable {s₀ : ExecState} {j : Job} {q : Program} {ins ins' : Instruction}
  {derive derive' : Deriver}

theorem ExecState.endsAlike_of_pairs {α : Type} {x y : EStateM.Result Fault ExecState α}
    (h : s₀.abreast.Pairs Eq Never x y) : s₀.EndsAlike x y := by
  cases h with
  | ok value state => exact value ▸ .outcome state
  | error h => exact h ▸ .fault
  | spent value => exact value.elim
  | last h => exact h.elim

/-! ## Traces -/

namespace Exec

theorem equals_note (n : Note) : s₀.abreast.Keeps Never (note n) :=
  .modify fun _ _ h => ⟨h.machine, h.tooDeep, h.requests, h.events, by rw [h.notes]⟩

theorem equals_setTooDeep (b : Bool) : s₀.abreast.Keeps Never (setTooDeep b) :=
  .modify fun _ _ h => ⟨h.machine, rfl, h.requests, h.events, h.notes⟩

theorem equals_emit (depth : Nat) {e e' : Event} (he : e.Alike e') :
    s₀.abreast.Together Eq Never (emit depth e) (emit depth e') := by
  apply Coupling.Together.modify
  intro s t h
  split
  · obtain ⟨shown, shown', hs, ht, halike⟩ := h.events
    refine ⟨h.machine, h.tooDeep, h.requests, ⟨shown ++ [e], shown' ++ [e'], ?_, ?_, ?_⟩, h.notes⟩
    · rw [hs, Listeners.dispatch_dispatchAll]
    · rw [ht, Listeners.dispatch_dispatchAll]
    · exact List.rel_append halike (.cons he .nil)
  · exact h

theorem equals_sample (sampler : Sampler) (request : Request) :
    s₀.abreast.Keeps Never (sample sampler request) := by
  intro s t h
  show Coupling.Pairs _ Eq Never (.ok (sampler.answer s.requests request) _)
    (.ok (sampler.answer t.requests request) _)
  rw [h.requests]
  exact .ok rfl ⟨h.machine, h.tooDeep, rfl, h.events, h.notes⟩

end Exec

/-! ## Machines -/

/-- Operands that are equivalent read the same. -/
theorem Machine.fetch_equivalent {p : Program} (hq : p.Equivalent q) {r r' : Source}
    (h : r.Equivalent p.parameters q.parameters r') (m : Machine) : m.fetch q r' = m.fetch p r := by
  have hread : m.read q r'.register = m.read p r.register := by
    have hregister := h.register
    generalize r.register = a, r'.register = b at hregister ⊢
    cases hregister with
    | temporary i => rfl
    | input i => rfl
    | localParameter i => exact congrArg (·.get i) hq.localParameters
    | parameter h => exact h
  unfold Machine.fetch Source.modify
  rw [hread, h.swizzle, h.negateBase, h.absolute, h.negateAbsolute]

theorem Source.Equivalent.modifyDerivative {s t : ParameterTable} {r r' : Source}
    (h : r.Equivalent s t r') (value derivative : Vec4) :
    r'.modifyDerivative value derivative = r.modifyDerivative value derivative := by
  unfold Source.modifyDerivative
  rw [h.negateBase, h.absolute, h.negateAbsolute]

/-- Instructions that are equivalent store the same. -/
theorem Machine.store_equivalent {s t : ParameterTable} (h : ins.Equivalent s t ins') (m : Machine)
    (value : Vec4) : m.store ins' value = m.store ins value := by
  unfold Machine.store Machine.result Machine.updateCodes Instruction.enabled Instruction.declared
    Instruction.computed
  rw [h.destination, h.saturate, h.updateCodes, h.condition, h.opcode]

namespace Job

/-! ## Instructions -/

/-- Operands of the same number are equivalent, or there are none. -/
theorem equals_source (hins : ins.Equivalent j.program.parameters q.parameters ins') (n : Nat) :
    s₀.abreast.Together (Source.Equivalent j.program.parameters q.parameters) Never (source ins n)
      (source ins' n) := by
  unfold source
  rcases getElem?_of_forall₂ hins.sources n with ⟨hr, hr'⟩ | ⟨r, r', hr, hr', h⟩
  · rw [hr, hr']
    exact fun _ _ _ => .error rfl
  · rw [hr, hr']
    exact .pure h

theorem equals_vector (hq : j.program.Equivalent q)
    (hins : ins.Equivalent j.program.parameters q.parameters ins') (n : Nat) :
    s₀.abreast.Together Eq Never (j.vector ins n) ((j.on q).vector ins' n) := by
  apply (equals_source hins n).andThen
  intro r r' hr
  apply Coupling.Together.look
  intro s t h
  rw [h.machine]
  exact .ok (Machine.fetch_equivalent hq hr s.machine).symm h

theorem equals_scalar (hq : j.program.Equivalent q)
    (hins : ins.Equivalent j.program.parameters q.parameters ins') (n : Nat) :
    s₀.abreast.Together Eq Never (j.scalar ins n) ((j.on q).scalar ins' n) :=
  (equals_vector hq hins n).andThen fun _ _ h => .pure (congrArg Quad.x h)

theorem equals_fragmentLambda (unit : TextureUnit) :
    s₀.abreast.Together Eq Never (j.fragmentLambda unit) ((j.on q).fragmentLambda unit) := by
  unfold fragmentLambda on
  cases j.span.fragments[j.fragment]? with
  | none => exact fun _ _ _ => .error rfl
  | some f => exact .pure rfl

theorem equals_request (hq : j.program.Equivalent q)
    (hins : ins.Equivalent j.program.parameters q.parameters ins') (image : TextureImage)
    (mode : LookupMode) :
    s₀.abreast.Together Eq Never (j.request ins image mode) ((j.on q).request ins' image mode) := by
  have hvector : ∀ n, s₀.abreast.Together Eq Never (j.vector ins n) ((j.on q).vector ins' n) :=
    equals_vector hq hins
  apply (hvector 0).andThen
  rintro coordinates _ rfl
  apply (equals_fragmentLambda image.unit).andThen
  rintro lambda _ rfl
  cases mode with
  | plain => exact .pure rfl
  | biased => exact .pure rfl
  | projective => exact .pure rfl
  | derivatives =>
    apply (hvector 1).andThen
    rintro ddx _ rfl
    apply (hvector 2).andThen
    rintro ddy _ rfl
    apply Coupling.Together.look
    intro s t h
    rw [h.requests]
    exact .ok rfl h

theorem equals_lookup (hq : j.program.Equivalent q)
    (hins : ins.Equivalent j.program.parameters q.parameters ins') (mode : LookupMode) :
    s₀.abreast.Together Eq Never (j.lookup ins mode) ((j.on q).lookup ins' mode) := by
  unfold lookup
  rw [hins.texture]
  cases ins.texture with
  | none => exact fun _ _ _ => .error rfl
  | some image =>
    apply (equals_request hq hins image mode).andThen
    rintro request _ rfl
    exact Exec.equals_sample j.sampler request

/-- Two ways to find derivatives give the same for operands that are equivalent. -/
def EqualDerivatives (s₀ : ExecState) (p q : Program) (derive derive' : Deriver) : Prop :=
  ∀ pc r r' axis, r.Equivalent p.parameters q.parameters r' →
    s₀.abreast.Together Eq Never (derive pc r axis) (derive' pc r' axis)

theorem equals_compute (hq : j.program.Equivalent q)
    (hins : ins.Equivalent j.program.parameters q.parameters ins')
    (hderive : EqualDerivatives s₀ j.program q derive derive') (pc : Nat) (c : Computation) :
    s₀.abreast.Together Eq Never (j.compute derive pc ins c)
      ((j.on q).compute derive' pc ins' c) := by
  have hvector : ∀ n, s₀.abreast.Together Eq Never (j.vector ins n) ((j.on q).vector ins' n) :=
    equals_vector hq hins
  have hscalar : ∀ n, s₀.abreast.Together Eq Never (j.scalar ins n) ((j.on q).scalar ins' n) :=
    equals_scalar hq hins
  cases c with
  | constant value => exact .pure rfl
  | vector1 f => exact (hvector 0).andThen fun _ _ ha => .pure (ha ▸ rfl)
  | vector2 f =>
    exact (hvector 0).andThen fun _ _ ha => (hvector 1).andThen fun _ _ hb => .pure (ha ▸ hb ▸ rfl)
  | vector3 f =>
    exact (hvector 0).andThen fun _ _ ha => (hvector 1).andThen fun _ _ hb =>
      (hvector 2).andThen fun _ _ hc => .pure (ha ▸ hb ▸ hc ▸ rfl)
  | scalar1 f => exact (hscalar 0).andThen fun _ _ ha => .pure (ha ▸ rfl)
  | scalar2 f =>
    exact (hscalar 0).andThen fun _ _ ha => (hscalar 1).andThen fun _ _ hb => .pure (ha ▸ hb ▸ rfl)
  | derivative axis => exact (equals_source hins 0).andThen fun r r' hr => hderive pc r r' axis hr
  | lookup mode => exact equals_lookup hq hins mode

theorem equals_store {s t : ParameterTable} (hins : ins.Equivalent s t ins') (depth : Nat)
    (value : Vec4) :
    s₀.abreast.Together Eq Never (store depth ins value) (store depth ins' value) := by
  apply Coupling.Together.look
  intro s t h
  rw [h.machine, Machine.store_equivalent hins]
  have hset : s₀.abreast.beside { s with machine := (s.machine.store ins value).1 }
      { t with machine := (s.machine.store ins value).1 } :=
    ⟨rfl, h.tooDeep, h.requests, h.events, h.notes⟩
  dsimp only
  cases (s.machine.store ins value).2 with
  | none => exact .ok rfl hset
  | some written => exact Exec.equals_emit depth (.same _) _ _ hset

theorem equals_step (hq : j.program.Equivalent q)
    (hins : ins.Equivalent j.program.parameters q.parameters ins')
    (hderive : EqualDerivatives s₀ j.program q derive derive') (depth pc : Nat) :
    s₀.abreast.Together Eq Never (j.step depth derive pc ins)
      ((j.on q).step depth derive' pc ins') := by
  unfold step
  rw [hins.opcode]
  cases ins.opcode.action with
  | compute c =>
    apply (equals_compute hq hins hderive pc c).andThen
    rintro value _ rfl
    exact (equals_store hins depth value).andThen fun _ _ _ => .pure rfl
  | kill =>
    apply Coupling.Together.look
    intro s t h
    rw [h.machine, hins.condition]
    exact .ok rfl h
  | halt => exact .pure rfl

theorem equals_discard (depth pc : Nat) :
    s₀.abreast.Together Eq Never (j.discard depth pc) ((j.on q).discard depth pc) := by
  have hrest : s₀.abreast.Keeps Never
      (do Exec.emit depth (.kill pc); return Outcome.killed : Exec Outcome) :=
    (Exec.equals_emit depth (.same _)).andThen fun _ _ _ => .pure rfl
  unfold discard
  dsimp only
  split
  · exact (Exec.equals_note _).andThen fun _ _ _ => hrest
  · exact hrest

/-! ## Runs -/

theorem equals_runFrom (hq : j.program.Equivalent q)
    (hderive : EqualDerivatives s₀ j.program q derive derive') (depth : Nat)
    {instructions instructions' : List Instruction}
    (h : List.Forall₂ (Instruction.Equivalent j.program.parameters q.parameters) instructions
      instructions') (pc : Nat) :
    s₀.abreast.Together Eq Never (j.runFrom depth derive pc instructions)
      ((j.on q).runFrom depth derive' pc instructions') := by
  induction h generalizing pc with
  | nil => exact .pure rfl
  | @cons ins ins' _ _ hins _ ih =>
    have hevent : Event.Alike (.instruction pc ins.position ins.opcode)
        (.instruction pc ins'.position ins'.opcode) := by
      rw [hins.opcode]
      exact .instruction pc ins.position ins'.position ins.opcode
    apply (Exec.equals_emit depth hevent).andThen
    intro _ _ _
    apply (equals_step hq hins hderive depth pc).andThen
    rintro flow _ rfl
    cases flow with
    | halt => exact .pure rfl
    | kill => exact equals_discard depth pc
    | next =>
      apply Coupling.Together.look
      intro s t h
      rw [h.tooDeep]
      split
      · exact .ok rfl h
      · exact ih (pc + 1) s t h

theorem inputDerivative_on (m : Machine) (i : InputIndex) (axis : Axis) :
    (j.on q).inputDerivative m i axis = j.inputDerivative m i axis :=
  rfl

theorem inputOperandDerivative_on {s t : ParameterTable} {r r' : Source} (h : r.Equivalent s t r')
    (m : Machine) (i : InputIndex) (axis : Axis) :
    (j.on q).inputOperandDerivative m r' i axis = j.inputOperandDerivative m r i axis := by
  unfold inputOperandDerivative
  rw [h.modifyDerivative, h.swizzle, inputDerivative_on]

theorem neighbour_on (hq : j.program.Equivalent q) (m : Machine) (axis : Axis) :
    (j.on q).neighbour m axis = j.neighbour m axis := by
  have hreads : ∀ i, q.readsInput i = j.program.readsInput i := fun i => by
    unfold Program.readsInput
    rw [hq.inputsRead]
  unfold neighbour
  simp only [on, hreads]
  rfl

theorem equals_onMachine (m : Machine) {action action' : Exec Outcome}
    (h : s₀.abreast.Together Eq Never action action') :
    s₀.abreast.Together Eq Never (onMachine m action) (onMachine m action') := by
  intro s t hst
  have hrun := h { s with machine := m, tooDeep := false } { t with machine := m, tooDeep := false }
    ⟨rfl, rfl, hst.requests, hst.events, hst.notes⟩
  unfold onMachine
  generalize action { s with machine := m, tooDeep := false } = x at hrun
  generalize action' { t with machine := m, tooDeep := false } = y at hrun
  cases hrun with
  | ok value state =>
    dsimp only
    rw [state.machine, state.tooDeep]
    exact .ok rfl ⟨hst.machine, hst.tooDeep, state.requests, state.events, state.notes⟩
  | error h => exact .error h
  | spent value => exact value.elim
  | last h => exact h.elim

theorem equals_difference (hq : j.program.Equivalent q)
    (hderive : EqualDerivatives s₀ j.program q derive derive') (depth : Nat) :
    EqualDerivatives s₀ j.program q (j.difference depth derive)
      ((j.on q).difference depth derive') := by
  intro pc r r' axis hr
  apply (Exec.equals_note _).andThen
  intro _ _ _
  apply Coupling.Together.look
  intro s t h
  have htake := List.forall₂_take pc hq.instructions
  have hnested := equals_runFrom hq hderive (depth + 1) htake 0
  rw [h.machine, neighbour_on hq]
  refine (equals_onMachine (j.neighbour s.machine axis) hnested).andThen ?_ s t h
  rintro shadow _ rfl
  cases shadow with
  | none => exact (Exec.equals_setTooDeep true).andThen fun _ _ _ => .pure rfl
  | some shadow =>
    apply Coupling.Together.pure
    show _ = Quad.zipWith Binary32.sub (shadow.fetch q r') (s.machine.fetch q r')
    rw [Machine.fetch_equivalent hq hr, Machine.fetch_equivalent hq hr]

theorem equals_settle (depth pc : Nat) (value : Vec4) :
    s₀.abreast.Keeps Never (settle depth pc value) := by
  apply Coupling.Together.look
  intro s t h
  rw [h.tooDeep]
  split
  · refine (Exec.equals_note _).andThen (fun _ _ _ => ?_) s t h
    exact (Exec.equals_setTooDeep false).andThen fun _ _ _ => .pure rfl
  · exact .ok rfl h

/-- Derivatives are the same at every level of nesting. -/
theorem equals_derivative (hq : j.program.Equivalent q) (levels : Nat) :
    EqualDerivatives s₀ j.program q (j.derivative levels) ((j.on q).derivative levels) := by
  have hinput : ∀ (r r' : Source) (i : InputIndex) (axis : Axis),
      r.Equivalent j.program.parameters q.parameters r' →
      s₀.abreast.Together Eq Never
        (return j.inputOperandDerivative (← get).machine r i axis)
        (return (j.on q).inputOperandDerivative (← get).machine r' i axis) := by
    intro r r' i axis hr
    apply Coupling.Together.look
    intro s t h
    rw [h.machine, inputOperandDerivative_on hr]
    exact .ok rfl h
  -- without levels only a temporary fails, and with levels only its nested run needs the induction
  induction levels with
  | zero =>
    intro pc r r' axis hr
    have hregister := hr.register
    unfold derivative
    generalize r.register = a, r'.register = b at hregister ⊢
    cases hregister with
    | input i => exact hinput r r' i axis hr
    | parameter h => exact .pure rfl
    | localParameter i => exact .pure rfl
    | temporary i => exact (Exec.equals_setTooDeep true).andThen fun _ _ _ => .pure rfl
  | succ levels ih =>
    intro pc r r' axis hr
    have hregister := hr.register
    unfold derivative
    generalize r.register = a, r'.register = b at hregister ⊢
    cases hregister with
    | input i => exact hinput r r' i axis hr
    | parameter h => exact .pure rfl
    | localParameter i => exact .pure rfl
    | temporary i =>
      apply (equals_difference hq ih (depthAt (levels + 1)) pc r r' axis hr).andThen
      rintro value _ rfl
      exact equals_settle _ pc value

theorem equals_run (hq : j.program.Equivalent q) (stop : Nat) :
    s₀.abreast.Together Eq Never (j.run stop) ((j.on q).run stop) :=
  equals_runFrom hq (equals_derivative hq maxDerivativeDepth) 0
    (List.forall₂_take stop hq.instructions) 0

end Job

end Actions

namespace Interpreter

variable {s₀ : ExecState} {p q : Program} {sampler : Sampler}

theorem equals_executeUntil (hq : p.Equivalent q) (span : Span) (fragment stop : Nat) :
    s₀.abreast.Together Eq Never (executeUntil p sampler span fragment stop)
      (executeUntil q sampler span fragment stop) := by
  apply (Exec.equals_setTooDeep false).andThen
  intro _ _ _
  apply Coupling.Together.look
  intro s t h
  rw [h.machine]
  exact Job.equals_run (j := job p sampler span fragment s.machine.codes) hq stop s t h

theorem equals_load (hq : p.Equivalent q) (span : Span) (fragment : Nat) :
    s₀.abreast.Together Eq Never (load p span fragment) (load q span fragment) := by
  unfold load
  cases span.fragments[fragment]? with
  | none => exact fun _ _ _ => .error rfl
  | some f =>
    apply Coupling.Together.modify
    intro s t h
    refine ⟨?_, h.tooDeep, h.requests, h.events, h.notes⟩
    unfold Machine.load Program.readsInput
    rw [h.machine, hq.inputsRead]

theorem equals_execute (hq : p.Equivalent q) (span : Span) (fragment : Nat) :
    s₀.abreast.Together Eq Never (execute p sampler span fragment)
      (execute q sampler span fragment) := by
  unfold execute
  rw [← hq.instructions.length_eq]
  exact (equals_load hq span fragment).andThen fun _ _ _ => equals_executeUntil hq span fragment _

theorem finish_equivalent (hq : p.Equivalent q) (m : Machine) (f : Fragment) (outcome : Outcome) :
    finish q m f outcome = finish p m f outcome := by
  unfold finish color Program.writesOutput
  rw [hq.outputsWritten]

theorem equals_runFragments (hq : p.Equivalent q) (fragments : List Nat) (span : Span) :
    s₀.abreast.Together Eq Never (runFragments p sampler fragments span)
      (runFragments q sampler fragments span) := by
  induction fragments generalizing span with
  | nil => exact .pure rfl
  | cons i rest ih =>
    unfold runFragments
    cases span.fragments[i]? with
    | none => exact ih span
    | some f =>
      cases hlive : f.live with
      | false =>
        simp only [hlive, Bool.false_eq_true, if_false]
        exact ih span
      | true =>
        simp only [hlive, if_true]
        apply (equals_execute hq span i).andThen
        rintro outcome _ rfl
        apply Coupling.Together.look
        intro s t h
        rw [h.machine, finish_equivalent hq]
        refine (ih _).andThen ?_ s t h
        rintro result _ rfl
        exact .pure rfl

theorem equals_runSpan (hq : p.Equivalent q) (span : Span) :
    s₀.abreast.Together Eq Never (runSpan p sampler span) (runSpan q sampler span) := by
  apply (equals_runFragments hq _ span).andThen
  rintro result _ rfl
  exact (Exec.equals_note _).andThen fun _ _ _ => .pure rfl

end Interpreter

/-! ## Programs -/

/-- The runs of two programs end alike, from every state, on every fragment and with every sampler.
On a fragment of the span they meet no fault. -/
structure Program.RunsLike (p q : Program) : Prop where
  executeUntil : ∀ sampler span fragment stop (s : ExecState),
    s.EndsAlike (Interpreter.executeUntil p sampler span fragment stop s)
      (Interpreter.executeUntil q sampler span fragment stop s)
  execute : ∀ sampler span fragment (s : ExecState),
    s.EndsAlike (Interpreter.execute p sampler span fragment s)
      (Interpreter.execute q sampler span fragment s)
  runSpan : ∀ sampler span (s : ExecState),
    s.EndsAlike (Interpreter.runSpan p sampler span s) (Interpreter.runSpan q sampler span s)
  total : ∀ sampler span fragment, fragment < span.size → ∀ stop (s : ExecState),
    (∃ outcome t, Interpreter.executeUntil p sampler span fragment stop s = .ok outcome t) ∧
      ∃ outcome t, Interpreter.execute p sampler span fragment s = .ok outcome t

theorem Program.Equivalent.runsLike {p q : Program} (h : p.Equivalent q) (hwell : p.WellFormed) :
    p.RunsLike q := by
  refine ⟨?_, ?_, ?_, ?_⟩
  · intro sampler span fragment stop s
    exact ExecState.endsAlike_of_pairs
      (Interpreter.equals_executeUntil h span fragment stop s s (.start s))
  · intro sampler span fragment s
    exact ExecState.endsAlike_of_pairs (Interpreter.equals_execute h span fragment s s (.start s))
  · intro sampler span s
    exact ExecState.endsAlike_of_pairs (Interpreter.equals_runSpan h span s s (.start s))
  · intro sampler span fragment hfragment stop s
    exact ⟨Interpreter.total_executeUntil hwell hfragment stop s,
      Interpreter.total_execute hwell hfragment s⟩

/-- A program that was restored is equivalent, once it has got the local parameters. -/
theorem Program.Restores.equivalent {q r : Program} (h : q.Restores r) :
    q.Equivalent { r with localParameters := q.localParameters } where
  instructions := h.instructions.imp fun _ _ => Instruction.Alike.equivalent
  inputsRead := h.inputsRead
  outputsWritten := h.outputsWritten
  localParameters := rfl

/-- What a program does depends on nothing but what its operands denote.  So a compiled program,
whatever its parameters have been set to since, and the program that is read from its text do the
same. -/
theorem runsLike_of_equivalent :
    (∀ p q : Program, p.WellFormed → p.Equivalent q → p.RunsLike q) ∧
      ∀ source p q r, compile source = .ok p → p.Updates q → compile q.disassembly = .ok r →
        q.RunsLike { r with localParameters := q.localParameters } := by
  refine ⟨fun p q hwell h => h.runsLike hwell, fun source p q r hcompile hupdates hr => ?_⟩
  have hwell : q.WellFormed :=
    (wellFormed_of_compile hcompile).retuned (Program.retuned_of_updates hupdates)
  exact (restores_of_compile hcompile hupdates hr).equivalent.runsLike hwell

/-- The program of `lateText` with one more parameter, another name, another order and another
precision. -/
def earlyText : String :=
  "!!FP1.0 DEFINE unused = 2; DECLARE hue = \x7b1.0, 0.5\x7d;\n"
    ++ "MIN R0, f[COL0], 0.25;\nMULX o[COLR].xyz (GT), -|R0.x|, hue;\nEND"

theorem compile_earlyText : ∃ p q, compile lateText = .ok p ∧ compile earlyText = .ok q ∧
    p.parameters.IsFinite ∧ p.Equivalent q := by
  obtain ⟨p, hp, hfinite, hboth⟩ : ∃ p, compile lateText = .ok p ∧ p.parameters.IsFinite ∧
      (compile earlyText).toOption.any (fun q => decide (p.Equivalent q)) = true :=
    exists_of_decide (by decide +kernel)
  obtain ⟨q, hq, h⟩ := exists_of_decide hboth
  exact ⟨p, q, hp, hq, hfinite, h⟩

theorem runsLike_of_equivalent_late : ∃ p q r, compile lateText = .ok p ∧
    compile earlyText = .ok q ∧ p.WellFormed ∧ p.Equivalent q ∧ p.RunsLike q ∧ p.Updates p ∧
    compile p.disassembly = .ok r ∧
    p.RunsLike { r with localParameters := p.localParameters } := by
  obtain ⟨p, q, hp, hq, hfinite, h⟩ := compile_earlyText
  obtain ⟨haccepted, -⟩ :=
    compile_of_decides (decides_disassembly hp Relation.ReflTransGen.refl) fun _ _ h => h.1
  obtain ⟨r, hr⟩ := haccepted.mpr hfinite
  have hwell := wellFormed_of_compile hp
  exact ⟨p, q, r, hp, hq, hwell, h, runsLike_of_equivalent.1 p q hwell h, .refl, hr,
    runsLike_of_equivalent.2 lateText p p r hp .refl hr⟩

end FragmentAssembly

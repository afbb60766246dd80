import FragmentAssembly.Proofs.Execution.Trace

/-!
# The run of the fragment itself

The outermost run goes from instruction to instruction without ever seeing the flag, so it ends at
its stop, at the `END`, or at a `KIL`, and at no derivative.  Each of its derivatives is that of
the reference, or zero where the reference has none.
-/

namespace FragmentAssembly

namespace Job

/-! ## States between instructions -/

/-- The outermost run comes from state `start` to state `s` before instruction `pc`.  Here a run
goes on after an instruction whatever the flag says. -/
inductive Reaches (job : Job) (start : ExecState) : Nat → ExecState → Prop where
  | start : Reaches job start 0 start
  | next {pc : Nat} {s t : ExecState} {ins : Instruction} (before : Reaches job start pc s)
    (here : job.program.instructions[pc]? = some ins)
    (advance : job.advance 0 (job.derivative maxDerivativeDepth) pc ins s = .ok .next t) :
    Reaches job start (pc + 1) t

/-- The ways in which an outermost run can end that do not depend on the flag. -/
inductive Ends (job : Job) (start : ExecState) (stop : Nat) : Outcome → ExecState → Prop where
  | stopped {pc : Nat} {s : ExecState} (before : job.Reaches start pc s)
    (last : pc = min stop job.program.instructions.length) : Ends job start stop .complete s
  | halted {pc : Nat} {s t : ExecState} {ins : Instruction} (before : job.Reaches start pc s)
    (inside : pc < stop) (here : job.program.instructions[pc]? = some ins)
    (action : ins.opcode.action = .halt)
    (advance : job.advance 0 (job.derivative maxDerivativeDepth) pc ins s = .ok .halt t) :
    Ends job start stop .complete t
  | killed {pc : Nat} {s t u : ExecState} {ins : Instruction} (before : job.Reaches start pc s)
    (inside : pc < stop) (here : job.program.instructions[pc]? = some ins)
    (action : ins.opcode.action = .kill) (kills : s.machine.kills ins.condition = true)
    (advance : job.advance 0 (job.derivative maxDerivativeDepth) pc ins s = .ok .kill t)
    (discard : job.discard 0 pc t = .ok .killed u) : Ends job start stop .killed u

variable {job : Job} {ins : Instruction} {pc : Nat} {s start : ExecState}

theorem emit_outermost (e : Event) (s : ExecState) :
    Exec.emit 0 e s = .ok () { s with events := s.events.dispatch e } :=
  rfl

/-- An instruction with a result stores the value of the reference, or zero where the reference
has none, and the flag is clear afterwards. -/
theorem advance_outermost {c : Computation} (hfragment : job.fragment < job.span.size)
    (hcomplete : ∀ ins ∈ job.program.instructions, ins.Complete) (hins : ins.Complete)
    (haction : ins.opcode.action = .compute c) (hflag : s.tooDeep = false) (pc : Nat) :
    ∃ value t, job.advance 0 (job.derivative maxDerivativeDepth) pc ins s = .ok .next t ∧
      t.machine = (s.machine.store ins value).1 ∧ t.tooDeep = false ∧
      t.Agrees (value = Quad.zero) value
        (Reference.compute job (Reference.derivative job maxDerivativeDepth) pc ins s.machine
          s.requests c) := by
  obtain ⟨hsources, htexture⟩ := hins c haction
  have hemit := emit_outermost (.instruction pc ins.position ins.opcode) s
  obtain ⟨value, t, hvalue, hmachine, hagrees⟩ := refinesOn_compute hfragment
    (refines_derivative_outermost hfragment hcomplete) hsources htexture pc
    { s with events := s.events.dispatch (.instruction pc ins.position ins.opcode) } rfl hflag
  obtain ⟨events, hadvance⟩ := advance_compute haction hemit hvalue
  refine ⟨value, _, hadvance, by rw [hmachine], ?_⟩
  dsimp only at hagrees ⊢
  cases hfound : Reference.compute job (Reference.derivative job maxDerivativeDepth) pc ins
      s.machine s.requests c with
  | none =>
    rw [hfound] at hagrees
    exact ⟨hagrees.2, hagrees.1⟩
  | some found =>
    rw [hfound] at hagrees
    exact ⟨hagrees.2.2, hagrees⟩

/-- The flag is clear between any two instructions. -/
theorem Reaches.clear (hfragment : job.fragment < job.span.size)
    (hcomplete : ∀ ins ∈ job.program.instructions, ins.Complete) (hstart : start.tooDeep = false)
    (h : job.Reaches start pc s) : s.tooDeep = false := by
  induction h with
  | start => exact hstart
  | @next pc s t ins before here advance ih =>
    have hemit := emit_outermost (.instruction pc ins.position ins.opcode) s
    cases haction : ins.opcode.action with
    | compute c =>
      -- a derivative that was too deep has cleared the flag itself
      obtain ⟨value, u, hadvance, -, hclear, -⟩ := advance_outermost hfragment hcomplete
        (hcomplete ins (List.mem_of_getElem? here)) haction ih pc
      rw [hadvance, EStateM.Result.ok.injEq] at advance
      exact advance.2 ▸ hclear
    | kill =>
      rw [advance_kill job _ haction hemit, EStateM.Result.ok.injEq] at advance
      exact advance.2 ▸ ih
    | halt =>
      rw [advance_halt haction hemit, EStateM.Result.ok.injEq] at advance
      cases advance.1

/-! ## Ends -/

theorem discard_outermost (job : Job) (pc : Nat) (s : ExecState) :
    job.discard 0 pc s = .ok .killed
      { s with
        notes := s.notes.push (.fragmentKilled pc job.fragment)
        events := s.events.dispatch (.kill pc) } :=
  rfl

/-- From any state that it reaches, the outermost run comes to one of its ends. -/
theorem Reaches.ends (stop : Nat) (hfragment : job.fragment < job.span.size)
    (hcomplete : ∀ ins ∈ job.program.instructions, ins.Complete) (hstart : start.tooDeep = false)
    {rest : List Instruction} (h : job.Reaches start pc s)
    (hrest : (job.program.instructions.take stop).drop pc = rest)
    (hinside : pc ≤ (job.program.instructions.take stop).length) :
    ∃ outcome t, job.runFrom 0 (job.derivative maxDerivativeDepth) pc rest s = .ok outcome t ∧
      job.Ends start stop outcome t := by
  induction rest generalizing pc s with
  | nil =>
    refine ⟨.complete, s, rfl, .stopped h ?_⟩
    rw [List.drop_eq_nil_iff] at hrest
    rw [← List.length_take]
    exact Nat.le_antisymm hinside hrest
  | cons ins rest ih =>
    have hhere : (job.program.instructions.take stop)[pc]? = some ins := by
      rw [← List.head?_drop, hrest, List.head?_cons]
    have hlater : (job.program.instructions.take stop).drop (pc + 1) = rest := by
      rw [← List.tail_drop, hrest, List.tail_cons]
    obtain ⟨hlt, -⟩ := List.getElem?_eq_some_iff.mp hhere
    obtain ⟨hstop, hins⟩ : pc < stop ∧ job.program.instructions[pc]? = some ins := by
      rw [List.getElem?_take] at hhere
      by_cases hstop : pc < stop
      · rw [if_pos hstop] at hhere
        exact ⟨hstop, hhere⟩
      · rw [if_neg hstop] at hhere
        cases hhere
    -- only the flag could end the run anywhere else
    have hclear := h.clear hfragment hcomplete hstart
    have hemit := emit_outermost (.instruction pc ins.position ins.opcode) s
    cases haction : ins.opcode.action with
    | compute c =>
      obtain ⟨value, t, hadvance, -, hflag, -⟩ := advance_outermost hfragment hcomplete
        (hcomplete ins (List.mem_of_getElem? hins)) haction hclear pc
      obtain ⟨outcome, u, hrun, hends⟩ := ih (h.next hins hadvance) hlater hlt
      exact ⟨outcome, u, runFrom_next hadvance hflag hrun, hends⟩
    | kill =>
      have hadvance : job.advance 0 (job.derivative maxDerivativeDepth) pc ins s = .ok _ _ :=
        advance_kill job _ haction hemit
      dsimp only at hadvance
      by_cases hkills : s.machine.kills ins.condition = true
      · rw [if_pos hkills] at hadvance
        exact ⟨.killed, _, runFrom_kill hadvance (discard_outermost job pc _),
          .killed h hstop hins haction hkills hadvance (discard_outermost job pc _)⟩
      · rw [if_neg hkills] at hadvance
        obtain ⟨outcome, u, hrun, hends⟩ := ih (h.next hins hadvance) hlater hlt
        exact ⟨outcome, u, runFrom_next hadvance hclear hrun, hends⟩
    | halt =>
      have hadvance : job.advance 0 (job.derivative maxDerivativeDepth) pc ins s = .ok _ _ :=
        advance_halt haction hemit
      exact ⟨.complete, _, runFrom_halt hadvance, .halted h hstop hins haction hadvance⟩

end Job

/-! ## Compiled programs -/

/-- What was found, and zero if nothing was. -/
def Reference.valueOrZero (found : Option (Vec4 × Array Request)) : Vec4 :=
  (found.map Prod.fst).getD Quad.zero

theorem ExecState.Agrees.eq_valueOrZero {t : ExecState} {value : Vec4}
    {found : Option (Vec4 × Array Request)} (h : t.Agrees (value = Quad.zero) value found) :
    value = Reference.valueOrZero found := by
  cases found with
  | none => exact h
  | some found => exact h.1

/-- In the run of the beginning of a program the flag is clear between any two instructions, the
value of a derivative is that of the reference or zero where it is undefined, and the run goes on
after it.  The run ends in one of the ways that do not depend on the flag, and no run that is
nested in it is deeper than allowed. -/
theorem executeUntil_refines_reference {source : String} {p q : Program}
    (hcompile : compile source = .ok p) (hupdates : p.Updates q) {span : Span} {fragment : Nat}
    (hfragment : fragment < span.size) (sampler : Sampler) (stop : Nat) (s : ExecState) :
    let job := Interpreter.job q sampler span fragment s.machine.codes
    (∀ pc t, job.Reaches { s with tooDeep := false } pc t → t.tooDeep = false ∧
      ∀ ins axis, q.instructions[pc]? = some ins →
        ins.opcode.action = .compute (.derivative axis) →
        ∃ r u, ins.sources[0]? = some r ∧
          job.advance 0 (job.derivative maxDerivativeDepth) pc ins t = .ok .next u ∧
          u.machine = (t.machine.store ins (Reference.valueOrZero
            (Reference.derivative job maxDerivativeDepth pc r axis t.machine t.requests))).1) ∧
    ∃ outcome u, Interpreter.executeUntil q sampler span fragment stop s = .ok outcome u ∧
      job.Ends { s with tooDeep := false } stop outcome u ∧
      ∃ added, u.notes = s.notes ++ added ∧
        ∀ pc depth axis, .rerun pc depth axis ∈ added → depth ≤ maxDerivativeDepth := by
  intro job
  have hcomplete : ∀ ins ∈ job.program.instructions, ins.Complete :=
    ((wellFormed_of_compile hcompile).retuned (Program.retuned_of_updates hupdates)).complete
  refine ⟨fun pc t ht => ?_, ?_⟩
  · have hclear := ht.clear hfragment hcomplete rfl
    refine ⟨hclear, fun ins axis hins haction => ?_⟩
    have hown := hcomplete ins (List.mem_of_getElem? hins)
    have hlength : 0 < ins.sources.length := (hown _ haction).1
    have hsource : ins.sources[0]? = some ins.sources[0] := List.getElem?_eq_getElem hlength
    -- where the reference finds nothing, the value that is stored is zero
    obtain ⟨value, u, hadvance, hmachine, -, hagrees⟩ :=
      Job.advance_outermost hfragment hcomplete hown haction hclear pc
    refine ⟨_, u, hsource, hadvance, ?_⟩
    have hvalue := hagrees.eq_valueOrZero
    simp only [Reference.compute, hsource, Option.bind_eq_bind, Option.bind_some] at hvalue
    rw [hmachine, hvalue]
  · have hstart : job.Reaches { s with tooDeep := false } 0 { s with tooDeep := false } := .start
    obtain ⟨outcome, u, hrun, hends⟩ :=
      hstart.ends stop hfragment hcomplete rfl rfl (Nat.zero_le _)
    have hexecute : Interpreter.executeUntil q sampler span fragment stop s = .ok outcome u :=
      bind_eq_ok.mpr ⟨(), { s with tooDeep := false }, rfl, bind_eq_ok.mpr ⟨_, _, rfl, hrun⟩⟩
    obtain ⟨added, hnotes, hadded⟩ :=
      Interpreter.shallow_executeUntil q sampler span fragment stop s outcome u hexecute
    exact ⟨outcome, u, hexecute, hends, added, hnotes, fun pc depth axis hn => (hadded _ hn).2⟩

theorem executeUntil_refines_reference_tinted :
    ∃ p, compile tintedText = .ok p ∧ p.Updates p ∧
      (Interpreter.job p (.solid Quad.zero) (.single {}) 0 (Quad.replicate .eq)).Reaches {} 0 {} ∧
      ∃ outcome u,
        Interpreter.executeUntil p (.solid Quad.zero) (.single {}) 0 3 {} = .ok outcome u := by
  obtain ⟨p, hp⟩ := compile_tintedText
  have hkept : p.Updates p := Relation.ReflTransGen.refl
  obtain ⟨-, outcome, u, hrun, -⟩ := executeUntil_refines_reference hp hkept
    (show 0 < (Span.single {}).size by decide) (.solid Quad.zero) 3 {}
  exact ⟨p, hp, hkept, .start, outcome, u, hrun⟩

end FragmentAssembly

import FragmentAssembly.Execution.Interpreter
import FragmentAssembly.Proofs.Program.WellFormed

/-!
# Runs without faults

An instruction of a compiled program has every operand that its action reads.  So a run of such a
program ends with an outcome, whatever state it starts from, and so do the runs nested in it.
-/

namespace FragmentAssembly

/-! ## Actions without faults -/

/-- The action gives a result from every state. -/
def Total {ε σ α : Type} (m : EStateM ε σ α) : Prop :=
  ∀ s, ∃ a t, m s = .ok a t

namespace Total

variable {ε σ α β : Type}

theorem pure (a : α) : Total (pure a : EStateM ε σ α) :=
  fun s => ⟨a, s, rfl⟩

theorem bind {m : EStateM ε σ α} {f : α → EStateM ε σ β} (hm : Total m) (hf : ∀ a, Total (f a)) :
    Total (m >>= f) := by
  intro s
  obtain ⟨a, t, ha⟩ := hm s
  obtain ⟨b, u, hb⟩ := hf a t
  exact ⟨b, u, bind_eq_ok.mpr ⟨a, t, ha, hb⟩⟩

theorem get : Total (get : EStateM ε σ σ) :=
  fun s => ⟨s, s, rfl⟩

theorem set (t : σ) : Total (set t : EStateM ε σ PUnit) :=
  fun _ => ⟨⟨⟩, t, rfl⟩

theorem modify (f : σ → σ) : Total (modify f : EStateM ε σ PUnit) :=
  fun s => ⟨⟨⟩, f s, rfl⟩

theorem modifyGet (f : σ → α × σ) : Total (modifyGet f : EStateM ε σ α) :=
  fun s => ⟨(f s).1, (f s).2, rfl⟩

end Total

/-! ## Operands of actions -/

/-- How many operands a computation reads. -/
def Computation.arity : Computation → Nat
  | .constant _ => 0
  | .vector1 _ => 1
  | .vector2 _ => 2
  | .vector3 _ => 3
  | .scalar1 _ => 1
  | .scalar2 _ => 2
  | .derivative _ => 1
  | .lookup .derivatives => 3
  | .lookup _ => 1

/-- Whether a computation asks the sampler. -/
def Computation.samples : Computation → Bool
  | .lookup _ => true
  | _ => false

/-- Whether an action finds all that it reads among the operands. -/
def Action.isServed : Action → Operands → Bool
  | .compute c, operands => c.arity ≤ operands.count && (!c.samples || operands.samples)
  | .kill, _ => true
  | .halt, _ => true

theorem Pattern.isServed : ∀ p ∈ Pattern.table, p.opcode.action.isServed p.operands = true := by
  decide

/-- An instruction has the operands that its computation reads. -/
def Instruction.Complete (ins : Instruction) : Prop :=
  ∀ c, ins.opcode.action = .compute c →
    c.arity ≤ ins.sources.length ∧ (c.samples = true → ins.texture.isSome = true)

theorem Instruction.WellFormed.complete {ins : Instruction} {t : ParameterTable}
    (h : ins.WellFormed t) : ins.Complete := by
  intro c haction
  obtain ⟨p, hlisted, hfits⟩ := h.fits
  have hserved := Pattern.isServed p hlisted
  rw [← hfits.opcode, haction] at hserved
  simp only [Action.isServed, Bool.and_eq_true, decide_eq_true_eq, Bool.or_eq_true,
    Bool.not_eq_true'] at hserved
  obtain ⟨hcount, hsamples⟩ := hserved
  rw [hfits.sources.length_eq, hfits.texture]
  refine ⟨hcount, fun hasks => ?_⟩
  rcases hsamples with hnot | hsamples
  · rw [hasks] at hnot
    cases hnot
  · exact hsamples

theorem Program.WellFormed.complete {p : Program} (h : p.WellFormed) :
    ∀ ins ∈ p.instructions, ins.Complete := by
  intro ins hins
  obtain ⟨position, hended⟩ := h.ended
  rw [hended] at hins
  rcases List.mem_append.mp hins with hbody | hlast
  · exact (h.instruction ins hbody).complete
  · rw [List.mem_singleton] at hlast
    subst hlast
    intro c haction
    cases haction

/-! ## Instructions -/

namespace Exec

theorem total_note (n : Note) : Total (note n) :=
  Total.modify _

theorem total_emit (depth : Nat) (e : Event) : Total (emit depth e) :=
  Total.modify _

theorem total_setTooDeep (b : Bool) : Total (setTooDeep b) :=
  Total.modify _

theorem total_sample (sampler : Sampler) (request : Request) : Total (sample sampler request) :=
  Total.modifyGet _

end Exec

namespace Job

variable {job : Job} {ins : Instruction} {derive : Deriver}

theorem total_fetch (s : Source) : Total (job.fetch s) :=
  .bind .get fun _ => .pure _

theorem total_source {n : Nat} (h : n < ins.sources.length) : Total (source ins n) := by
  unfold source
  rw [List.getElem?_eq_getElem h]
  exact .pure _

theorem total_vector {n : Nat} (h : n < ins.sources.length) : Total (job.vector ins n) :=
  .bind (total_source h) fun s => total_fetch s

theorem total_scalar {n : Nat} (h : n < ins.sources.length) : Total (job.scalar ins n) :=
  .bind (total_vector h) fun _ => .pure _

theorem total_fragmentLambda (hfragment : job.fragment < job.span.size) (unit : TextureUnit) :
    Total (job.fragmentLambda unit) := by
  unfold fragmentLambda
  rw [List.getElem?_eq_getElem hfragment]
  exact .pure _

theorem total_request {image : TextureImage} {mode : LookupMode}
    (hfragment : job.fragment < job.span.size)
    (hsources : (Computation.lookup mode).arity ≤ ins.sources.length) :
    Total (job.request ins image mode) := by
  have hfirst : 0 < ins.sources.length := by
    refine Nat.lt_of_lt_of_le ?_ hsources
    cases mode <;> decide
  refine .bind (total_vector hfirst) fun coordinates =>
    .bind (total_fragmentLambda hfragment _) fun lambda => ?_
  cases mode with
  | plain => exact .pure _
  | biased => exact .pure _
  | projective => exact .pure _
  | derivatives =>
    change 3 ≤ _ at hsources
    exact .bind (total_vector (by omega)) fun ddx => .bind (total_vector (by omega)) fun ddy =>
      .bind .get fun _ => .pure _

theorem total_lookup {mode : LookupMode} (hfragment : job.fragment < job.span.size)
    (hsources : (Computation.lookup mode).arity ≤ ins.sources.length)
    (htexture : ins.texture.isSome = true) : Total (job.lookup ins mode) := by
  obtain ⟨image, himage⟩ := Option.isSome_iff_exists.mp htexture
  unfold lookup
  rw [himage]
  exact .bind (total_request hfragment hsources) fun _ => Exec.total_sample _ _

theorem total_compute {pc : Nat} {c : Computation} (hfragment : job.fragment < job.span.size)
    (hderive : ∀ pc s axis, Total (derive pc s axis)) (hsources : c.arity ≤ ins.sources.length)
    (htexture : c.samples = true → ins.texture.isSome = true) :
    Total (job.compute derive pc ins c) := by
  cases c with
  | constant value => exact .pure _
  | vector1 f => exact .bind (total_vector hsources) fun _ => .pure _
  | vector2 f =>
    change 2 ≤ _ at hsources
    exact .bind (total_vector (by omega)) fun _ => .bind (total_vector (by omega)) fun _ => .pure _
  | vector3 f =>
    change 3 ≤ _ at hsources
    exact .bind (total_vector (by omega)) fun _ => .bind (total_vector (by omega)) fun _ =>
      .bind (total_vector (by omega)) fun _ => .pure _
  | scalar1 f => exact .bind (total_scalar hsources) fun _ => .pure _
  | scalar2 f =>
    change 2 ≤ _ at hsources
    exact .bind (total_scalar (by omega)) fun _ => .bind (total_scalar (by omega)) fun _ => .pure _
  | derivative axis => exact .bind (total_source hsources) fun s => hderive pc s axis
  | lookup mode => exact total_lookup hfragment hsources (htexture rfl)

theorem total_store (depth : Nat) (ins : Instruction) (value : Vec4) :
    Total (store depth ins value) := by
  refine .bind .get fun s => .bind (.set _) fun _ => ?_
  split
  · exact Exec.total_emit _ _
  · exact .pure _

theorem total_step {depth pc : Nat} (hfragment : job.fragment < job.span.size)
    (hderive : ∀ pc s axis, Total (derive pc s axis)) (hins : ins.Complete) :
    Total (job.step depth derive pc ins) := by
  unfold step
  cases haction : ins.opcode.action with
  | compute c =>
    obtain ⟨hsources, htexture⟩ := hins c haction
    exact .bind (total_compute hfragment hderive hsources htexture) fun value =>
      .bind (total_store depth ins value) fun _ => .pure _
  | kill => exact .bind .get fun _ => .pure _
  | halt => exact .pure _

theorem total_discard (depth pc : Nat) : Total (job.discard depth pc) := by
  have hrest : Total (do Exec.emit depth (.kill pc); return Outcome.killed) :=
    .bind (Exec.total_emit _ _) fun _ => .pure _
  unfold discard
  dsimp only
  split
  · exact .bind (Exec.total_note _) fun _ => hrest
  · exact hrest

/-! ## Runs -/

/-- Instructions run to an outcome if each of them has its operands. -/
theorem total_runFrom {depth : Nat} {instructions : List Instruction}
    (hfragment : job.fragment < job.span.size) (hderive : ∀ pc s axis, Total (derive pc s axis))
    (hcomplete : ∀ ins ∈ instructions, ins.Complete) (pc : Nat) :
    Total (job.runFrom depth derive pc instructions) := by
  induction instructions generalizing pc with
  | nil => exact .pure _
  | cons ins rest ih =>
    refine .bind (Exec.total_emit _ _) fun _ =>
      .bind (total_step hfragment hderive (hcomplete ins List.mem_cons_self)) fun flow => ?_
    cases flow with
    | halt => exact .pure _
    | kill => exact total_discard _ _
    | next =>
      refine .bind .get fun s => ?_
      cases s.tooDeep with
      | true => exact .pure _
      | false =>
        exact ih (fun ins hins => hcomplete ins (List.mem_cons_of_mem _ hins)) (pc + 1)

theorem total_onMachine {other : Machine} {action : Exec Outcome} (h : Total action) :
    Total (onMachine other action) := by
  intro s
  obtain ⟨outcome, t, hrun⟩ := h { s with machine := other, tooDeep := false }
  unfold onMachine
  rw [hrun]
  exact ⟨_, _, rfl⟩

theorem total_difference {depth : Nat} {inner : Deriver}
    (hfragment : job.fragment < job.span.size) (hinner : ∀ pc s axis, Total (inner pc s axis))
    (hcomplete : ∀ ins ∈ job.program.instructions, ins.Complete) (pc : Nat) (s : Source)
    (axis : Axis) : Total (job.difference depth inner pc s axis) := by
  have hnested : Total (job.runFrom (depth + 1) inner 0 (job.program.instructions.take pc)) :=
    total_runFrom hfragment hinner (fun ins hins => hcomplete ins (List.mem_of_mem_take hins)) 0
  refine .bind (Exec.total_note _) fun _ => .bind .get fun t =>
    .bind (total_onMachine hnested) fun shadow => ?_
  cases shadow with
  | some shadow => exact .pure _
  | none => exact .bind (Exec.total_setTooDeep _) fun _ => .pure _

theorem total_settle (depth pc : Nat) (value : Vec4) : Total (settle depth pc value) := by
  refine .bind .get fun s => ?_
  split
  · exact .bind (Exec.total_note _) fun _ => .bind (Exec.total_setTooDeep _) fun _ => .pure _
  · exact .pure _

/-- A derivative is found at any level of nesting. -/
theorem total_derivative {levels : Nat} (hfragment : job.fragment < job.span.size)
    (hcomplete : ∀ ins ∈ job.program.instructions, ins.Complete) (pc : Nat) (s : Source)
    (axis : Axis) : Total (job.derivative levels pc s axis) := by
  induction levels generalizing pc s axis with
  | zero =>
    unfold derivative
    cases s.register with
    | input i => exact .bind .get fun _ => .pure _
    | parameter i => exact .pure _
    | localParameter i => exact .pure _
    | temporary i => exact .bind (Exec.total_setTooDeep _) fun _ => .pure _
  | succ levels ih =>
    unfold derivative
    cases s.register with
    | input i => exact .bind .get fun _ => .pure _
    | parameter i => exact .pure _
    | localParameter i => exact .pure _
    | temporary i =>
      -- the nested run looks for derivatives with one level less
      exact .bind (total_difference hfragment ih hcomplete pc s axis) fun _ => total_settle _ _ _

/-- A run at any depth, of any beginning of the program. -/
theorem total_nested (job : Job) {levels depth stop : Nat}
    (hfragment : job.fragment < job.span.size)
    (hcomplete : ∀ ins ∈ job.program.instructions, ins.Complete) :
    Total (job.runFrom depth (job.derivative levels) 0 (job.program.instructions.take stop)) :=
  total_runFrom hfragment (total_derivative hfragment hcomplete)
    (fun ins hins => hcomplete ins (List.mem_of_mem_take hins)) 0

end Job

namespace Interpreter

variable {p : Program} {sampler : Sampler} {span : Span} {fragment : Nat}

theorem total_load (h : fragment < span.size) : Total (load p span fragment) := by
  unfold load
  rw [List.getElem?_eq_getElem h]
  exact .modify _

theorem total_executeUntil (hp : p.WellFormed) (h : fragment < span.size) (stop : Nat) :
    Total (executeUntil p sampler span fragment stop) := by
  refine .bind (Exec.total_setTooDeep _) fun _ => .bind .get fun s => ?_
  exact Job.total_nested (job p sampler span fragment s.machine.codes) h hp.complete

theorem total_execute (hp : p.WellFormed) (h : fragment < span.size) :
    Total (execute p sampler span fragment) :=
  .bind (total_load h) fun _ => total_executeUntil hp h _

end Interpreter

/-- The operand text of an entry that exists is its name or its value. -/
theorem ParameterTable.operandText_of_inRange {t : ParameterTable} {index : Nat}
    (h : (Readable.parameter index).InRange t) :
    ∃ entry, t.get? index = some entry ∧ t.value index = entry.value ∧
      t.operandText index = entry.name.getD entry.value.literal := by
  have hentry : t.get? index = some t.entries[index] := List.getElem?_eq_getElem h
  refine ⟨t.entries[index], hentry, ?_, ?_⟩
  · rw [value, hentry, Option.map_some, Option.getD_some]
  · rw [operandText, hentry]
    rcases t.entries[index] with ⟨name, kind, v⟩
    cases name <;> rfl

/-- A program with a lookup, a derivative, a test and both kinds of parameters. -/
def tintedText : String :=
  "!!FP1.0 DECLARE tint = \x7b1.0, 0.5\x7d; TEX R0, f[TEX0], TEX0, 2D; DDX R1, R0; "
    ++ "MULC RC.x, R1, p[0]; KIL GT.x; MAD o[COLR], R0, tint, 0.25; END"

theorem compile_tintedText : ∃ p, compile tintedText = .ok p :=
  exists_of_isOk (by decide +kernel)

/-- A program that was compiled is well formed, also after its parameters were set.  It runs from
every state to an outcome, at every depth of nesting, and its operands have their texts. -/
theorem runs_of_compile {source : String} {p q : Program} (hcompile : compile source = .ok p)
    (hupdates : p.Updates q) :
    q.WellFormed ∧
      (∀ sampler span fragment, fragment < span.size → ∀ stop (s : ExecState),
        (∃ outcome t,
          Interpreter.executeUntil q sampler span fragment stop s = .ok outcome t) ∧
        (∃ outcome t, Interpreter.execute q sampler span fragment s = .ok outcome t) ∧
        ∀ startCodes depth levels, ∃ outcome t,
          (Interpreter.job q sampler span fragment startCodes).runFrom depth
            ((Interpreter.job q sampler span fragment startCodes).derivative levels) 0
            (q.instructions.take stop) s = .ok outcome t) ∧
      ∀ ins ∈ q.body, ∀ r ∈ ins.sources, ∀ index, r.register = .parameter index →
        ∃ entry, q.parameters.get? index = some entry ∧
          q.parameters.value index = entry.value ∧
          q.parameters.operandText index = entry.name.getD entry.value.literal := by
  -- updates keep programs well formed, and all the rest follows from that
  have hwell : q.WellFormed :=
    (wellFormed_of_compile hcompile).retuned (Program.retuned_of_updates hupdates)
  refine ⟨hwell, fun sampler span fragment hfragment stop s =>
    ⟨?_, ?_, fun startCodes depth levels => ?_⟩, fun ins hins r hr index hindex => ?_⟩
  · exact Interpreter.total_executeUntil hwell hfragment stop s
  · exact Interpreter.total_execute hwell hfragment s
  · exact Job.total_nested (Interpreter.job q sampler span fragment startCodes) hfragment
      hwell.complete s
  · have hrange := (hwell.instruction ins hins).register r hr
    rw [hindex] at hrange
    exact ParameterTable.operandText_of_inRange hrange

theorem runs_of_compile_tinted :
    ∃ p q, compile tintedText = .ok p ∧ p.Updates q ∧
      q.localParameters.get 0 = Quad.replicate .one ∧
      ∃ outcome t, Interpreter.execute q (.solid Quad.zero) (.single {}) 0 {} = .ok outcome t := by
  obtain ⟨p, hp⟩ := compile_tintedText
  have hupdate := Program.Update.setLocal p 0 (Quad.replicate .one) (by decide)
  have hupdates : p.Updates _ := Relation.ReflTransGen.single hupdate
  refine ⟨p, _, hp, hupdates, ?_,
    ((runs_of_compile hp hupdates).2.1 (.solid Quad.zero) (.single {}) 0 (by decide) 0 {}).2.1⟩
  exact Vector.getElem_set_self _

end FragmentAssembly

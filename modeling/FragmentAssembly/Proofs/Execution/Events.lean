import FragmentAssembly.Proofs.Execution.Isolation
import FragmentAssembly.Proofs.Execution.Step

/-!
# Events of a run

Listeners are shown every instruction of the outermost run and every register that it writes, so
they can follow its registers.  Whether there are any has no effect on the run.
-/

namespace FragmentAssembly

/-! ## Narration -/

/-- What a register holds.  There is nothing but codes in a condition register. -/
def Machine.held? (m : Machine) : Writable → Option Vec4
  | .temporary i => some (m.temporaries.get i)
  | .output i => some (m.outputs.get i)
  | .conditionOnly _ => none

/-- What was written is what the register holds then. -/
theorem Machine.held?_write (m : Machine) (mask : WriteMask) (value : Vec4) (r : Writable) :
    (m.write mask value r).1.held? r = (m.write mask value r).2 := by
  cases r with
  | temporary i =>
    dsimp only [write, held?]
    rw [get_set, if_pos rfl]
  | output i =>
    dsimp only [write, held?]
    rw [get_set, if_pos rfl]
  | conditionOnly r => rfl

theorem Quad.any_id (q : Quad Bool) : q.any id = true ↔ ∃ c, q.get c = true := by
  simp only [any, id_eq, Bool.or_eq_true]
  constructor
  · rintro (((h | h) | h) | h)
    exacts [⟨.x, h⟩, ⟨.y, h⟩, ⟨.z, h⟩, ⟨.w, h⟩]
  · rintro ⟨_ | _ | _ | _, h⟩
    exacts [.inl (.inl (.inl h)), .inl (.inl (.inr h)), .inl (.inr h), .inr h]

namespace Instruction

/-- Some component of the destination is in the mask and passes the condition.  The last component
of a reflection does not count, as it is not computed. -/
def Lets (ins : Instruction) (d : Destination) (codes : Quad CondCode) : Prop :=
  ∃ c, d.mask.get c = true ∧ (ins.condition.passes codes).get c = true ∧
    ¬(ins.opcode = .rfl ∧ c = .w)

theorem get_computed (ins : Instruction) (c : Component) :
    ins.computed.get c = true ↔ ¬(ins.opcode = .rfl ∧ c = .w) := by
  unfold computed
  split
  · next hopcode => cases c <;> simp [hopcode, Quad.get]
  · next hopcode => simpa using fun hrfl => (hopcode hrfl).elim

theorem any_enabled (ins : Instruction) (d : Destination) (codes : Quad CondCode) :
    (ins.enabled d codes).any id = true ↔ ins.Lets d codes := by
  rw [Quad.any_id]
  refine exists_congr fun c => ?_
  rw [enabled, declared, Quad.get_zipWith, Quad.get_zipWith, Bool.and_eq_true, Bool.and_eq_true,
    get_computed]
  exact and_right_comm.trans and_assoc

instance (ins : Instruction) (d : Destination) (codes : Quad CondCode) :
    Decidable (ins.Lets d codes) :=
  decidable_of_iff _ (ins.any_enabled d codes)

/-- The write that an instruction shows: that of the whole register, if anything is let into it. -/
def writes (ins : Instruction) (before after : Machine) : List Event :=
  match ins.destination with
  | some d =>
    if ins.Lets d before.codes then (after.held? d.register).toList.map (.write d.register) else []
  | none => []

/-- What instruction `pc` shows when it takes the machine `before` to `after`. -/
def narration (ins : Instruction) (pc : Nat) (before after : Machine) : List Event :=
  .instruction pc ins.position ins.opcode :: ins.writes before after

end Instruction

/-- What the first instructions of a program show, if `machine` holds the machine before each. -/
def Program.narration (p : Program) (count : Nat) (machine : Nat → Machine) : List Event :=
  (p.instructions.take count).zipIdx.flatMap fun (ins, pc) =>
    ins.narration pc (machine pc) (machine (pc + 1))

theorem Program.narration_succ {p : Program} {pc : Nat} {ins : Instruction}
    (h : p.instructions[pc]? = some ins) (machine : Nat → Machine) :
    p.narration (pc + 1) machine =
      p.narration pc machine ++ ins.narration pc (machine pc) (machine (pc + 1)) := by
  obtain ⟨hlt, hget⟩ := List.getElem?_eq_some_iff.mp h
  unfold narration
  rw [List.take_add_one, h, Option.toList_some, List.zipIdx_append, List.flatMap_append,
    List.length_take, Nat.min_eq_left (Nat.le_of_lt hlt), List.zipIdx_singleton, Nat.zero_add,
    List.flatMap_singleton]

/-- No instruction shows by itself that the fragment is discarded. -/
theorem Program.kill_notMem_narration (p : Program) (count : Nat) (machine : Nat → Machine)
    (n : Nat) : .kill n ∉ p.narration count machine := by
  intro hmem
  obtain ⟨⟨ins, pc⟩, -, hshown⟩ := List.mem_flatMap.mp hmem
  unfold Instruction.narration Instruction.writes at hshown
  cases hdestination : ins.destination with
  | none => simp [hdestination] at hshown
  | some d =>
    simp only [hdestination, List.mem_cons, reduceCtorEq, false_or] at hshown
    split at hshown
    · simp at hshown
    · simp at hshown

/-- It is shown behind them, for the instruction that was the last one. -/
theorem Program.kill_mem_shown (p : Program) {count : Nat} (machine : Nat → Machine)
    {outcome : Outcome} (hcount : outcome = .killed → 0 < count) (pc : Nat) :
    .kill pc ∈ p.narration count machine ++
        (if outcome = .killed then [.kill (count - 1)] else []) ↔
      outcome = .killed ∧ count = pc + 1 := by
  rw [List.mem_append, or_iff_right (p.kill_notMem_narration count machine pc)]
  by_cases houtcome : outcome = .killed
  · have hpositive := hcount houtcome
    rw [if_pos houtcome, List.mem_singleton, Event.kill.injEq, and_iff_right houtcome]
    omega
  · simp [houtcome]

theorem Machine.writes_store (m : Machine) (ins : Instruction) (value : Vec4) :
    Event.ofWritten (m.store ins value).2 = ins.writes m (m.store ins value).1 := by
  unfold Instruction.writes store
  cases ins.destination with
  | none => rfl
  | some d =>
    dsimp only
    by_cases hlets : ins.Lets d m.codes
    · rw [if_pos ((ins.any_enabled d m.codes).mpr hlets), if_pos hlets]
      dsimp only
      rw [held?_write]
      cases (Machine.write _ _ _ d.register).2 <;> rfl
    · rw [if_neg (mt (ins.any_enabled d m.codes).mp hlets), if_neg hlets]
      rfl

/-! ## Replay -/

/-- Enters an event in a machine. -/
def Machine.replay (m : Machine) : Event → Machine
  | .write (.temporary i) v => { m with temporaries := m.temporaries.set i.val v i.isLt }
  | .write (.output i) v => { m with outputs := m.outputs.set i.val v i.isLt }
  | .write (.conditionOnly _) _ => m
  | .instruction _ _ _ => m
  | .kill _ => m

/-- Machines with the same values in the registers that can be written. -/
structure Machine.SameRegisters (m n : Machine) : Prop where
  temporaries : n.temporaries = m.temporaries
  outputs : n.outputs = m.outputs

namespace Machine.SameRegisters

variable {m n : Machine}

theorem write (h : m.SameRegisters n) (mask : WriteMask) (value : Vec4) (r : Writable) :
    (m.write mask value r).1.SameRegisters
      ((Event.ofWritten ((m.write mask value r).2.map fun v => (r, v))).foldl replay n) := by
  cases r with
  | temporary i => exact ⟨by rw [Machine.write, ← h.temporaries]; rfl, h.outputs⟩
  | output i => exact ⟨h.temporaries, by rw [Machine.write, ← h.outputs]; rfl⟩
  | conditionOnly r => exact h

theorem store (h : m.SameRegisters n) (ins : Instruction) (value : Vec4) :
    (m.store ins value).1.SameRegisters
      ((Event.ofWritten (m.store ins value).2).foldl replay n) := by
  unfold Machine.store
  cases ins.destination with
  | none => exact h
  | some d =>
    have hupdated : (m.updateCodes ins d (result ins value)).SameRegisters n := by
      unfold updateCodes
      split
      · exact ⟨h.temporaries, h.outputs⟩
      · exact h
    dsimp only
    split
    · exact hupdated.write _ _ d.register
    · exact hupdated

end Machine.SameRegisters

/-- The state comes from `start` after the events `shown`, which lead from the registers there to
those here. -/
structure ExecState.Narrated (start : ExecState) (shown : List Event) (t : ExecState) : Prop where
  events : t.events = start.events.dispatchAll shown
  registers : t.machine.SameRegisters (shown.foldl Machine.replay start.machine)

/-! ## Instructions with a result -/

/-- Only an instruction that computes something has a destination. -/
def Instruction.IsTidy (ins : Instruction) : Prop :=
  (∃ c, ins.opcode.action = .compute c) ∨ ins.destination = none

def Action.hasResult : Action → Bool
  | .compute _ => true
  | .kill => false
  | .halt => false

theorem Pattern.hasResult_of_writes :
    ∀ p ∈ Pattern.table, p.writes = true → p.opcode.action.hasResult = true := by
  decide

theorem Instruction.WellFormed.isTidy {ins : Instruction} {t : ParameterTable}
    (h : ins.WellFormed t) : ins.IsTidy := by
  obtain ⟨p, hlisted, hfits⟩ := h.fits
  have hresult := Pattern.hasResult_of_writes p hlisted
  rw [← hfits.destination, ← hfits.opcode] at hresult
  cases hdestination : ins.destination with
  | none => exact .inr hdestination
  | some d =>
    rw [hdestination] at hresult
    have hresult := hresult rfl
    cases haction : ins.opcode.action with
    | compute c => exact .inl ⟨c, haction⟩
    | kill =>
      rw [haction] at hresult
      cases hresult
    | halt =>
      rw [haction] at hresult
      cases hresult

theorem Program.WellFormed.isTidy {p : Program} (h : p.WellFormed) :
    ∀ ins ∈ p.instructions, ins.IsTidy := by
  intro ins hins
  obtain ⟨position, hended⟩ := h.ended
  rw [hended] at hins
  rcases List.mem_append.mp hins with hbody | hlast
  · exact (h.instruction ins hbody).isTidy
  · rw [List.mem_singleton] at hlast
    exact .inr (by rw [hlast])

theorem Opcode.eq_kil_of_action {opcode : Opcode} (h : opcode.action = .kill) : opcode = .kil := by
  cases opcode <;> first | rfl | cases h

theorem Opcode.eq_halt_of_action {opcode : Opcode} (h : opcode.action = .halt) :
    opcode = .halt := by
  cases opcode <;> first | rfl | cases h

/-- The program ends at its only `END`. -/
theorem Program.WellFormed.halt_last {p : Program} (h : p.WellFormed) {pc : Nat}
    {ins : Instruction} (hins : p.instructions[pc]? = some ins)
    (haction : ins.opcode.action = .halt) : pc + 1 = p.instructions.length := by
  obtain ⟨position, hended⟩ := h.ended
  rw [hended, List.getElem?_append] at hins
  rw [hended, List.length_append, List.length_singleton]
  split at hins
  · exact absurd (Opcode.eq_halt_of_action haction) (h.unfinished ins (List.mem_of_getElem? hins))
  · next hle =>
    obtain ⟨hlt, -⟩ := List.getElem?_eq_some_iff.mp hins
    rw [List.length_singleton] at hlt
    omega

/-! ## Runs -/

namespace Job

variable {job : Job} {ins : Instruction} {pc : Nat} {s t u start : ExecState} {flow : Flow}
  {shown : List Event} {machine : Nat → Machine}

/-- An instruction shows what it does. -/
theorem Performs.narrated (h : Performs ins pc s flow t) (htidy : ins.IsTidy)
    (hs : start.Narrated shown s) :
    start.Narrated (shown ++ ins.narration pc s.machine t.machine) t := by
  have hquiet : (∀ c, ins.opcode.action ≠ .compute c) → ins.narration pc s.machine s.machine =
      [.instruction pc ins.position ins.opcode] := by
    intro hnone
    rcases htidy with ⟨c, hc⟩ | hdestination
    · exact absurd hc (hnone c)
    · rw [Instruction.narration, Instruction.writes, hdestination]
  -- an instruction without a result shows itself and nothing else
  have hpush : ins.narration pc s.machine s.machine =
        [.instruction pc ins.position ins.opcode] →
      start.Narrated (shown ++ ins.narration pc s.machine s.machine)
        { s with events := s.events.dispatch (.instruction pc ins.position ins.opcode) } := by
    intro hshown
    rw [hshown]
    refine ⟨?_, ?_⟩
    · rw [hs.events, Listeners.dispatch_dispatchAll]
    · rw [List.foldl_append]
      exact hs.registers
  cases h with
  | @stores c value _ action hmachine clear events =>
    have hwrites := s.machine.writes_store ins value
    rw [← hmachine] at hwrites
    refine ⟨?_, ?_⟩
    · rw [events, hs.events, hwrites, Listeners.dispatchAll_append]
      rfl
    · rw [List.foldl_append, Instruction.narration, ← hwrites, hmachine]
      exact hs.registers.store ins value
  | tests action => exact hpush (hquiet fun c => by rw [action]; nofun)
  | ends action => exact hpush (hquiet fun c => by rw [action]; nofun)

/-- The machines before the instructions of a run are those of `machine`. -/
def Records (job : Job) (start : ExecState) (machine : Nat → Machine) : Prop :=
  ∀ n outcome t, job.run n start = .ok outcome t → machine n = t.machine

section Runs

variable (hfragment : job.fragment < job.span.size)
  (hcomplete : ∀ ins ∈ job.program.instructions, ins.Complete) (hclear : start.tooDeep = false)
  (htidy : ∀ ins ∈ job.program.instructions, ins.IsTidy) (hrecords : job.Records start machine)

include hfragment hcomplete hclear htidy hrecords

/-- One more instruction is narrated, whether or not the run goes on after it. -/
theorem Reaches.narrated_step (h : job.Reaches start pc s)
    (here : job.program.instructions[pc]? = some ins)
    (advance : job.advance 0 (job.derivative maxDerivativeDepth) pc ins s = .ok flow t)
    (hmachine : machine (pc + 1) = t.machine)
    (hs : start.Narrated (job.program.narration pc machine) s) :
    start.Narrated (job.program.narration (pc + 1) machine) t := by
  have hins := List.mem_of_getElem? here
  have hperforms := advance_performs hfragment hcomplete hins
    (h.clear hfragment hcomplete hclear) advance
  rw [Program.narration_succ here, hmachine,
    hrecords pc _ _ (h.run_here hfragment hcomplete hclear)]
  exact hperforms.narrated (htidy ins hins) hs

/-- What was shown so far is what the instructions so far show. -/
theorem Reaches.narrated (h : job.Reaches start pc s) :
    start.Narrated (job.program.narration pc machine) s := by
  -- each instruction is narrated with the machines on both sides of it
  induction h with
  | start => exact ⟨rfl, rfl, rfl⟩
  | @next pc s t ins before here advance ih =>
    have hmachine := hrecords (pc + 1) _ _
      ((before.next here advance).run_here hfragment hcomplete hclear)
    exact before.narrated_step hfragment hcomplete hclear htidy hrecords here advance hmachine ih

/-- At the end all instructions that were executed have been narrated, and a discarded fragment
last. -/
theorem Ends.narrated {stop : Nat} {outcome : Outcome} (h : job.Ends start stop outcome u) :
    ∃ count, count ≤ min stop job.program.instructions.length ∧
      start.Narrated (job.program.narration count machine ++
        if outcome = .killed then [.kill (count - 1)] else []) u ∧
      (outcome = .killed → ∃ pc ins, count = pc + 1 ∧
        job.program.instructions[pc]? = some ins ∧ ins.opcode = .kil) ∧
      (outcome = .complete → count = min stop job.program.instructions.length ∨
        ∃ pc ins, count = pc + 1 ∧ job.program.instructions[pc]? = some ins ∧
          ins.opcode.action = .halt) := by
  cases h with
  | @stopped pc _ before last =>
    -- the instruction that would come next has not shown itself yet
    refine ⟨pc, Nat.le_of_eq last, ?_, nofun, fun _ => .inl last⟩
    rw [if_neg nofun, List.append_nil]
    exact before.narrated hfragment hcomplete hclear htidy hrecords
  | @halted pc s _ ins before inside here action advance =>
    obtain ⟨hlt, -⟩ := List.getElem?_eq_some_iff.mp here
    have hrun : job.run (pc + 1) start = .ok .complete u := by
      refine before.run hfragment hcomplete hclear (Nat.le_succ pc) ?_
      rw [drop_take_eq_cons here (Nat.lt_succ_self pc)]
      exact runFrom_halt advance
    refine ⟨pc + 1, by omega, ?_, nofun, fun _ => .inr ⟨pc, ins, rfl, here, action⟩⟩
    rw [if_neg nofun, List.append_nil]
    exact before.narrated_step hfragment hcomplete hclear htidy hrecords here advance
      (hrecords _ _ _ hrun) (before.narrated hfragment hcomplete hclear htidy hrecords)
  | @killed pc s t _ ins before inside here action kills advance discard =>
    obtain ⟨hlt, -⟩ := List.getElem?_eq_some_iff.mp here
    have hrun : job.run (pc + 1) start = .ok .killed u := by
      refine before.run hfragment hcomplete hclear (Nat.le_succ pc) ?_
      rw [drop_take_eq_cons here (Nat.lt_succ_self pc)]
      exact runFrom_kill advance discard
    -- the `KIL` shows itself, and the discarded fragment comes behind it
    rw [discard_outermost, EStateM.Result.ok.injEq] at discard
    obtain ⟨-, rfl⟩ := discard
    have hmachine := hrecords _ _ _ hrun
    have ht := before.narrated_step hfragment hcomplete hclear htidy hrecords here advance
      hmachine (before.narrated hfragment hcomplete hclear htidy hrecords)
    refine ⟨pc + 1, by omega, ⟨?_, ?_⟩,
      fun _ => ⟨pc, ins, rfl, here, Opcode.eq_kil_of_action action⟩, nofun⟩
    · rw [if_pos rfl, Nat.add_sub_cancel, ← Listeners.dispatch_dispatchAll, ← ht.events]
    · rw [if_pos rfl, List.foldl_append]
      exact ht.registers

end Runs

end Job

/-! ## Listeners -/

theorem ExecState.Alongside.refl_of {p : Program} {s t : ExecState}
    (hmachine : t.machine = s.machine) (htooDeep : t.tooDeep = s.tooDeep) :
    Alongside p s t s t := by
  refine ⟨⟨?_, fun _ _ => ?_, ?_, ?_⟩, htooDeep, ⟨#[], ?_, ?_⟩, ⟨[], rfl, rfl⟩⟩
  · rw [hmachine]
  · rw [hmachine]
  · rw [hmachine]
  · rw [hmachine]
  all_goals exact (Array.append_empty).symm

namespace Interpreter

variable {p : Program} {sampler : Sampler} {span : Span} {fragment stop : Nat}
  {s s' t : ExecState} {outcome : Outcome}

theorem executeUntil_eq (p : Program) (sampler : Sampler) (span : Span) (fragment stop : Nat)
    (s : ExecState) :
    executeUntil p sampler span fragment stop s =
      (job p sampler span fragment s.machine.codes).run stop { s with tooDeep := false } :=
  rfl

/-- The machine that the instructions before `stop` leave. -/
def machineAfter (p : Program) (sampler : Sampler) (span : Span) (fragment : Nat) (s : ExecState)
    (stop : Nat) : Machine :=
  match executeUntil p sampler span fragment stop s with
  | .ok _ t => t.machine
  | .error _ t => t.machine

theorem records_machineAfter (p : Program) (sampler : Sampler) (span : Span) (fragment : Nat)
    (s : ExecState) :
    (job p sampler span fragment s.machine.codes).Records { s with tooDeep := false }
      (machineAfter p sampler span fragment s) := by
  intro n outcome t h
  rw [machineAfter, executeUntil_eq, h]

theorem inputs_executeUntil (hwell : p.WellFormed) (hfragment : fragment < span.size)
    (h : executeUntil p sampler span fragment stop s = .ok outcome t) :
    t.machine.inputs = s.machine.inputs := by
  rw [executeUntil_eq] at h
  have hends := Job.run_ends hfragment hwell.complete rfl h
  obtain ⟨pc, u, hreaches, hmachine⟩ := hends.exists_reaches
  rw [hmachine]
  exact hreaches.preserves (P := fun m => m.inputs = s.machine.inputs) hfragment hwell.complete rfl
    (fun ins _ value m hm => (m.inputs_store ins value).trans hm) rfl

/-- Whether there are listeners has no effect on a run, nor has what they were shown before. -/
theorem executeUntil_unobserved (hwell : p.WellFormed) (hmarks : p.MarksInputs)
    (hfragment : fragment < span.size)
    (h : executeUntil p sampler span fragment stop s = .ok outcome t)
    (hmachine : s'.machine = s.machine) (hrequests : s'.requests = s.requests) :
    ∃ t', executeUntil p sampler span fragment stop s' = .ok outcome t' ∧
      t'.machine = t.machine ∧ t'.requests = t.requests ∧
      ∃ shown, t.events = s.events.dispatchAll shown ∧
        t'.events = s'.events.dispatchAll shown := by
  have hfound : span.fragments[fragment]? = some span.fragments[fragment] :=
    List.getElem?_eq_getElem hfragment
  have hpeers : (job p sampler span fragment s.machine.codes).Peers
      (job p sampler span fragment s'.machine.codes) { s with tooDeep := false }
      { s' with tooDeep := false } :=
    ⟨rfl, hmarks, fun _ _ _ => rfl, ⟨_, _, hfound, hfound, fun _ _ _ _ => rfl⟩,
      by rw [hmachine],
      fun asked request => congrArg (fun r => sampler.answer (r ++ asked) request) hrequests,
      fun asked unit => congrArg (fun r => sampler.imageSize (r ++ asked) unit) hrequests⟩
  obtain ⟨t', hrun, halong⟩ :=
    Job.run_alongside hpeers (.refl_of hmachine rfl) h
  have hinputs := inputs_executeUntil hwell hfragment h
  have hinputs' := inputs_executeUntil hwell hfragment hrun
  obtain ⟨asked, hasked, hasked'⟩ := halong.requests
  refine ⟨t', hrun, ?_, ?_, halong.events⟩
  · -- the two runs may differ in inputs only, and no run changes these
    rw [Machine.mk.injEq]
    exact ⟨halong.machine.temporaries, by rw [hinputs', hinputs, hmachine], halong.machine.outputs,
      halong.machine.codes⟩
  · rw [hasked', hasked]
    exact congrArg (· ++ asked) hrequests

theorem machineAfter_congr (hwell : p.WellFormed) (hmarks : p.MarksInputs)
    (hfragment : fragment < span.size) (hmachine : s'.machine = s.machine)
    (hrequests : s'.requests = s.requests) :
    machineAfter p sampler span fragment s' = machineAfter p sampler span fragment s := by
  funext stop
  obtain ⟨outcome, t, hrun⟩ : ∃ outcome t,
      executeUntil p sampler span fragment stop s = .ok outcome t :=
    total_executeUntil hwell hfragment stop s
  obtain ⟨t', hrun', hsame, -⟩ :=
    executeUntil_unobserved hwell hmarks hfragment hrun hmachine hrequests
  rw [machineAfter, machineAfter, hrun, hrun']
  exact hsame

end Interpreter

/-- The events of a run of the beginning of a program, from any state, are complete and faithful.
They are those of the instructions `0` to `count - 1`, each with the write of a whole register if
something is let into its destination, and a discarded fragment last, if its `KIL` was one of them.
From the registers at the start they lead to those at the end.  No derivative shows any event, and
whether there are listeners has no effect on the run. -/
theorem executeUntil_narrated {source : String} {p q : Program}
    (hcompile : compile source = .ok p) (hupdates : p.Updates q) {span : Span} {fragment : Nat}
    (hfragment : fragment < span.size) (sampler : Sampler) (stop : Nat) (s : ExecState) :
    (∃ outcome t count shown,
      Interpreter.executeUntil q sampler span fragment stop s = .ok outcome t ∧
      t.events = s.events.dispatchAll shown ∧
      shown = q.narration count (Interpreter.machineAfter q sampler span fragment s) ++
        (if outcome = .killed then [.kill (count - 1)] else []) ∧
      count ≤ min stop q.instructions.length ∧
      (outcome = .complete → count = min stop q.instructions.length) ∧
      (∀ pc, .kill pc ∈ shown ↔ outcome = .killed ∧ count = pc + 1) ∧
      (outcome = .killed → ∃ pc ins, count = pc + 1 ∧ q.instructions[pc]? = some ins ∧
        ins.opcode = .kil) ∧
      (shown.foldl Machine.replay s.machine).temporaries = t.machine.temporaries ∧
      (shown.foldl Machine.replay s.machine).outputs = t.machine.outputs ∧
      ∀ s' : ExecState, s'.machine = s.machine → s'.requests = s.requests →
        ∃ t', Interpreter.executeUntil q sampler span fragment stop s' = .ok outcome t' ∧
          t'.machine = t.machine ∧ t'.requests = t.requests ∧
          t'.events = s'.events.dispatchAll shown) ∧
    ∀ levels ≤ maxDerivativeDepth, ∀ pc r axis u value v,
      (Interpreter.job q sampler span fragment s.machine.codes).derivative levels pc r axis u =
        .ok value v → v.events = u.events := by
  have hretuned := Program.retuned_of_updates hupdates
  have hwell := (wellFormed_of_compile hcompile).retuned hretuned
  have hmarks := (marksInputs_of_compile hcompile).retuned hretuned
  refine ⟨?_, fun levels hlevels pc r axis u value v h => ?_⟩
  · -- a run with a listener, from which the events of all others can be told
    let heard : ExecState := { s with events := some #[] }
    obtain ⟨outcome, u, hrun⟩ : ∃ outcome u,
        Interpreter.executeUntil q sampler span fragment stop heard = .ok outcome u :=
      Interpreter.total_executeUntil hwell hfragment stop heard
    have hends := Job.run_ends hfragment hwell.complete rfl hrun
    obtain ⟨count, hcount, hnarrated, hkilled, hcomplete⟩ :=
      hends.narrated hfragment hwell.complete rfl hwell.isTidy
        (Interpreter.records_machineAfter q sampler span fragment heard)
    have hafter : Interpreter.machineAfter q sampler span fragment heard =
        Interpreter.machineAfter q sampler span fragment s :=
      Interpreter.machineAfter_congr hwell hmarks hfragment rfl rfl
    rw [hafter] at hnarrated
    have hall : ∀ s' : ExecState, s'.machine = s.machine → s'.requests = s.requests →
        ∃ t', Interpreter.executeUntil q sampler span fragment stop s' = .ok outcome t' ∧
          t'.machine = u.machine ∧ t'.requests = u.requests ∧
          t'.events = s'.events.dispatchAll
            (q.narration count (Interpreter.machineAfter q sampler span fragment s) ++
              if outcome = .killed then [.kill (count - 1)] else []) := by
      intro s' hmachine hrequests
      obtain ⟨t', hrun', hmachine', hrequests', added, hadded, hadded'⟩ :=
        Interpreter.executeUntil_unobserved hwell hmarks hfragment hrun hmachine hrequests
      obtain rfl := Listeners.dispatchAll_some_inj (hnarrated.events.symm.trans hadded)
      exact ⟨t', hrun', hmachine', hrequests', hadded'⟩
    obtain ⟨t, ht, hmachine, hrequests, hevents⟩ := hall s rfl rfl
    have hregisters := hnarrated.registers
    rw [← hmachine] at hregisters
    refine ⟨outcome, t, count, _, ht, hevents, rfl, hcount, fun houtcome => ?_,
      fun pc => ?_, hkilled, hregisters.temporaries, hregisters.outputs, ?_⟩
    · rcases hcomplete houtcome with hall | ⟨pc, ins, rfl, hins, haction⟩
      · exact hall
      · -- the `END` is the last instruction
        have hlast := hwell.halt_last hins haction
        have hle : pc + 1 ≤ min stop q.instructions.length := hcount
        omega
    · refine q.kill_mem_shown _ (fun houtcome => ?_) pc
      obtain ⟨n, ins, rfl, -⟩ := hkilled houtcome
      exact Nat.succ_pos n
    · rw [hmachine, hrequests]
      exact hall
  · exact (Job.within_derivative (Allowance.covers_withoutEvents q) hlevels pc r axis u value v
      h).events_eq

theorem executeUntil_narrated_tinted :
    ∃ p, compile tintedText = .ok p ∧ p.Updates p ∧ 0 < (Span.single {}).size ∧
      ∃ outcome t count,
        Interpreter.executeUntil p (.solid Quad.zero) (.single {}) 0 3 { events := some #[] } =
          .ok outcome t ∧
        t.events = some ((#[] : Array Event) ++
          (p.narration count (Interpreter.machineAfter p (.solid Quad.zero) (.single {}) 0
              { events := some #[] }) ++
            if outcome = .killed then [.kill (count - 1)] else [])) := by
  obtain ⟨p, hp⟩ := compile_tintedText
  have hsize : 0 < (Span.single {}).size := by decide
  obtain ⟨⟨outcome, t, count, shown, hrun, hevents, hshown, -⟩, -⟩ :=
    executeUntil_narrated hp .refl hsize (.solid Quad.zero) 3 { events := some #[] }
  subst hshown
  exact ⟨p, hp, .refl, hsize, outcome, t, count, hrun,
    hevents.trans (Listeners.dispatchAll_some _ _)⟩

/-- A reflection into the one component that it does not compute. -/
def reflection : Instruction where
  opcode := .rfl
  sources := [{ register := .input 1 }, { register := .input 2 }]
  destination := some ⟨.temporary 0, ⟨false, false, false, true⟩⟩
  position := 8

/-- What a run has shown. -/
def eventsOf : EStateM.Result Fault ExecState Outcome → List Event
  | .ok _ t => (t.events.getD #[]).toList
  | .error _ t => (t.events.getD #[]).toList

/-- The component is in the mask and passes the condition, but no write is shown. -/
theorem reflection_shows_no_write :
    ∃ p, compile "!!FP1.0 RFL R0.w, f[COL0], f[COL1]; MOV o[COLR], f[COL0]; END" = .ok p ∧
      p.instructions[0]? = some reflection ∧
      reflection.destination = some ⟨.temporary 0, ⟨false, false, false, true⟩⟩ ∧
      (reflection.condition.passes (Quad.replicate .eq)).get .w = true ∧
      eventsOf (Interpreter.execute p (.solid Quad.zero) (.single {}) 0 { events := some #[] }) =
        [.instruction 0 8 .rfl, .instruction 1 36 .mov, .write (.output .colr) Quad.zero,
          .instruction 2 58 .halt] :=
  exists_of_decide (by decide +kernel)

end FragmentAssembly

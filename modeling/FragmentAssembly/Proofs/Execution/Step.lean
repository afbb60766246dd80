import FragmentAssembly.Proofs.Execution.Outermost
import FragmentAssembly.Proofs.Program.Usage

/-!
# Steps of the outermost run

All that one instruction of the outermost run does to the machine and shows to observers.  What
every store keeps is true at each state that the run comes to.
-/

namespace FragmentAssembly

/-! ## Stores -/

namespace Machine

theorem inputs_store (m : Machine) (ins : Instruction) (value : Vec4) :
    (m.store ins value).1.inputs = m.inputs := by
  have hupdated : ∀ d v, (m.updateCodes ins d v).inputs = m.inputs := by
    intro d v
    unfold updateCodes
    split <;> rfl
  unfold store
  cases ins.destination with
  | none => rfl
  | some d =>
    dsimp only
    split
    · rw [← hupdated d (result ins value)]
      cases d.register <;> rfl
    · exact hupdated d _

/-- A store changes no output but that of its destination. -/
theorem get_outputs_store (m : Machine) {ins : Instruction} (value : Vec4) {o : OutputIndex}
    (h : ∀ d, ins.destination = some d → d.register ≠ .output o) :
    (m.store ins value).1.outputs.get o = m.outputs.get o := by
  have hupdated : ∀ d v, (m.updateCodes ins d v).outputs = m.outputs := by
    intro d v
    unfold updateCodes
    split <;> rfl
  unfold store
  cases hdestination : ins.destination with
  | none => rfl
  | some d =>
    have hother := h d hdestination
    dsimp only
    split
    · rw [← hupdated d (result ins value)]
      cases hregister : d.register with
      | temporary i => rfl
      | conditionOnly r => rfl
      | output n =>
        rw [hregister] at hother
        dsimp only [write]
        rw [get_set, if_neg fun hn => hother (by rw [hn])]
    · rw [hupdated]

end Machine

/-! ## Single instructions -/

/-- The trace of a store: the register that was written, with its new value. -/
def Event.ofWritten : Option (Writable × Vec4) → List Event
  | some (register, value) => [.write register value]
  | none => []

/-- Events are of no one's concern but the outermost run's. -/
def Allowance.withoutEvents : Allowance :=
  ⟨fun _ => True, fun _ => False, fun _ => True⟩

theorem Allowance.covers_withoutEvents (p : Program) : withoutEvents.Covers p :=
  ⟨fun _ _ _ _ _ _ _ => trivial, fun _ _ => trivial⟩

theorem ExecState.Adds.events_eq {s t : ExecState} (h : s.Adds .withoutEvents t) :
    t.events = s.events := by
  obtain ⟨shown, ht, hnone⟩ := h.events
  rw [ht, List.eq_nil_iff_forall_not_mem.mpr hnone]
  rfl

theorem ExecState.Agrees.clear {α : Type} {t : ExecState} {absent : Prop} {a : α}
    {found : Option (α × Array Request)} (h : t.Agrees absent a found)
    (habsent : absent → t.tooDeep = false) : t.tooDeep = false := by
  cases found with
  | none => exact habsent h
  | some found => exact h.2.2

namespace Job

variable {job : Job} {ins : Instruction} {pc : Nat} {s t start : ExecState} {flow : Flow}

/-- What instruction `pc` does to the run that is in state `s`. -/
inductive Performs (ins : Instruction) (pc : Nat) (s : ExecState) : Flow → ExecState → Prop where
  | stores {c : Computation} {value : Vec4} {t : ExecState}
    (action : ins.opcode.action = .compute c)
    (machine : t.machine = (s.machine.store ins value).1) (clear : t.tooDeep = false)
    (events : t.events = s.events.dispatchAll (.instruction pc ins.position ins.opcode ::
      Event.ofWritten (s.machine.store ins value).2)) : Performs ins pc s .next t
  | tests (action : ins.opcode.action = .kill) :
    Performs ins pc s (if s.machine.kills ins.condition then .kill else .next)
      { s with events := s.events.dispatch (.instruction pc ins.position ins.opcode) }
  | ends (action : ins.opcode.action = .halt) :
    Performs ins pc s .halt
      { s with events := s.events.dispatch (.instruction pc ins.position ins.opcode) }

theorem store_outermost (ins : Instruction) (value : Vec4) (h : store 0 ins value s = .ok () t) :
    t.machine = (s.machine.store ins value).1 ∧ t.tooDeep = s.tooDeep ∧
      t.events = s.events.dispatchAll (Event.ofWritten (s.machine.store ins value).2) := by
  simp only [store, bind_eq_ok, get_eq_ok, set_eq_ok] at h
  obtain ⟨_, _, ⟨rfl, rfl⟩, _, _, rfl, hemit⟩ := h
  cases hwritten : (s.machine.store ins value).2 with
  | none =>
    rw [hwritten] at hemit
    obtain ⟨-, rfl⟩ := pure_eq_ok.mp hemit
    exact ⟨rfl, rfl, rfl⟩
  | some written =>
    obtain ⟨register, stored⟩ := written
    rw [hwritten] at hemit
    obtain rfl := modify_eq_ok.mp hemit
    exact ⟨rfl, rfl, rfl⟩

/-- A value is found without any event. -/
theorem compute_outermost {c : Computation} {value : Vec4}
    (hfragment : job.fragment < job.span.size)
    (hcomplete : ∀ ins ∈ job.program.instructions, ins.Complete)
    (hins : ins ∈ job.program.instructions) (haction : ins.opcode.action = .compute c)
    (hclear : s.tooDeep = false)
    (h : job.compute (job.derivative maxDerivativeDepth) pc ins c s = .ok value t) :
    t.machine = s.machine ∧ t.tooDeep = false ∧ t.events = s.events := by
  obtain ⟨hsources, htexture⟩ := hcomplete ins hins c haction
  obtain ⟨value', t', hvalue, hmachine, hagrees⟩ := refinesOn_compute hfragment
    (refines_derivative_outermost hfragment hcomplete) hsources htexture pc s rfl hclear
  rw [h, EStateM.Result.ok.injEq] at hvalue
  obtain ⟨rfl, rfl⟩ := hvalue
  refine ⟨hmachine, hagrees.clear And.right, ?_⟩
  have hcovers := Allowance.covers_withoutEvents job.program
  exact (within_compute hcovers hins (within_derivative hcovers (Nat.le_refl _)) pc c s value t
    h).events_eq

theorem advance_performs (hfragment : job.fragment < job.span.size)
    (hcomplete : ∀ ins ∈ job.program.instructions, ins.Complete)
    (hins : ins ∈ job.program.instructions) (hclear : s.tooDeep = false)
    (h : job.advance 0 (job.derivative maxDerivativeDepth) pc ins s = .ok flow t) :
    Performs ins pc s flow t := by
  have hemit := emit_outermost (.instruction pc ins.position ins.opcode) s
  cases haction : ins.opcode.action with
  | compute c =>
    obtain ⟨_, u, hshown, hstep⟩ := bind_eq_ok.mp h
    rw [hemit, EStateM.Result.ok.injEq] at hshown
    obtain ⟨-, rfl⟩ := hshown
    unfold step at hstep
    rw [haction] at hstep
    obtain ⟨value, v, hvalue, hstep⟩ := bind_eq_ok.mp hstep
    obtain ⟨⟨⟩, w, hstore, hflow⟩ := bind_eq_ok.mp hstep
    obtain ⟨rfl, rfl⟩ := pure_eq_ok.mp hflow
    -- the nested runs leave nothing behind that the store could see
    obtain ⟨hmachine, hfound, hevents⟩ :=
      compute_outermost hfragment hcomplete hins haction (by exact hclear) hvalue
    obtain ⟨hstored, hkept, hwritten⟩ := store_outermost ins value hstore
    rw [hmachine] at hstored hwritten
    refine .stores haction hstored (hkept.trans hfound) ?_
    rw [hwritten, hevents]
    rfl
  | kill =>
    rw [advance_kill job _ haction hemit, EStateM.Result.ok.injEq] at h
    obtain ⟨rfl, rfl⟩ := h
    exact .tests haction
  | halt =>
    rw [advance_halt haction hemit, EStateM.Result.ok.injEq] at h
    obtain ⟨rfl, rfl⟩ := h
    exact .ends haction

/-- An instruction changes the machine by a store, if it changes it. -/
theorem Performs.machine (h : Performs ins pc s flow t) :
    t.machine = s.machine ∨ ∃ value, t.machine = (s.machine.store ins value).1 := by
  cases h with
  | stores _ machine _ _ => exact .inr ⟨_, machine⟩
  | tests => exact .inl rfl
  | ends => exact .inl rfl

/-! ## Runs -/

theorem drop_take_eq_cons {α : Type} {l : List α} {n stop : Nat} {a : α} (h : l[n]? = some a)
    (hstop : n < stop) : (l.take stop).drop n = a :: (l.take stop).drop (n + 1) := by
  have hhere : (l.take stop)[n]? = some a := by rw [List.getElem?_take_of_lt hstop, h]
  obtain ⟨hlt, hget⟩ := List.getElem?_eq_some_iff.mp hhere
  rw [List.drop_eq_getElem_cons hlt, hget]

/-- The machine at the end is that of a state which the run came to. -/
theorem Ends.exists_reaches {stop : Nat} {outcome : Outcome} (h : job.Ends start stop outcome t) :
    ∃ pc s, job.Reaches start pc s ∧ t.machine = s.machine := by
  cases h with
  | @stopped pc _ before last => exact ⟨pc, _, before, rfl⟩
  | @halted pc s _ ins before inside here action advance =>
    refine ⟨pc, s, before, ?_⟩
    rw [advance_halt action (emit_outermost _ s), EStateM.Result.ok.injEq] at advance
    rw [← advance.2]
  | @killed pc s u _ ins before inside here action kills advance discard =>
    refine ⟨pc, s, before, ?_⟩
    rw [advance_kill job _ action (emit_outermost _ s), EStateM.Result.ok.injEq] at advance
    obtain ⟨-, rfl⟩ := advance
    rw [discard_outermost, EStateM.Result.ok.injEq] at discard
    rw [← discard.2]

section Runs

variable (hfragment : job.fragment < job.span.size)
  (hcomplete : ∀ ins ∈ job.program.instructions, ins.Complete) (hclear : start.tooDeep = false)

include hfragment hcomplete hclear

/-- What every store keeps is true at each state that the run comes to. -/
theorem Reaches.preserves {P : Machine → Prop}
    (hstore : ∀ ins ∈ job.program.instructions, ∀ value m, P m → P (m.store ins value).1)
    (h : job.Reaches start pc s) (hstart : P start.machine) : P s.machine := by
  induction h with
  | start => exact hstart
  | @next pc s t ins before here advance ih =>
    have hins := List.mem_of_getElem? here
    have hperforms := advance_performs hfragment hcomplete hins
      (before.clear hfragment hcomplete hclear) advance
    rcases hperforms.machine with hsame | ⟨value, hstored⟩
    · rw [hsame]
      exact ih
    · rw [hstored]
      exact hstore ins hins value _ ih

/-- The run goes on behind every instruction that computes something. -/
theorem Reaches.exists_next {c : Computation} (h : job.Reaches start pc s)
    (here : job.program.instructions[pc]? = some ins) (haction : ins.opcode.action = .compute c) :
    ∃ t, job.Reaches start (pc + 1) t := by
  obtain ⟨value, t, hadvance, -⟩ := advance_outermost hfragment hcomplete
    (hcomplete ins (List.mem_of_getElem? here)) haction (h.clear hfragment hcomplete hclear) pc
  exact ⟨t, h.next here hadvance⟩

/-- A run goes on from any state that it comes to. -/
theorem Reaches.run {stop : Nat} {outcome : Outcome} (h : job.Reaches start pc s)
    (hstop : pc ≤ stop)
    (hrest : job.runFrom 0 (job.derivative maxDerivativeDepth) pc
      ((job.program.instructions.take stop).drop pc) s = .ok outcome t) :
    job.run stop start = .ok outcome t := by
  -- the instructions before are put back in front of the rest, the last one first
  induction h with
  | start => exact hrest
  | @next pc s u ins before here advance ih =>
    refine ih (Nat.le_of_succ_le hstop) ?_
    rw [drop_take_eq_cons here hstop]
    exact runFrom_next advance ((before.next here advance).clear hfragment hcomplete hclear) hrest

/-- The run of the instructions before one that is reached ends there. -/
theorem Reaches.run_here (h : job.Reaches start pc s) : job.run pc start = .ok .complete s := by
  refine h.run hfragment hcomplete hclear (Nat.le_refl _) ?_
  rw [List.drop_eq_nil_of_le (List.length_take_le _ _)]
  rfl

theorem run_ends {stop : Nat} {outcome : Outcome} (h : job.run stop start = .ok outcome t) :
    job.Ends start stop outcome t := by
  have hstart : job.Reaches start 0 start := .start
  obtain ⟨outcome', t', hrun, hends⟩ :=
    hstart.ends stop hfragment hcomplete hclear rfl (Nat.zero_le _)
  have hsame : job.run stop start = .ok outcome' t' := hrun
  rw [h, EStateM.Result.ok.injEq] at hsame
  obtain ⟨rfl, rfl⟩ := hsame
  exact hends

end Runs

end Job

end FragmentAssembly

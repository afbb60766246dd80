import FragmentAssembly.Proofs.Execution.Events
import FragmentAssembly.Proofs.Execution.Footprint
import FragmentAssembly.Proofs.Execution.Neighbour

/-!
# Shadow runs

The nested run for a derivative goes through the instructions before it one after the other, like
the run of the fragment itself.  It ends early at a `KIL` that passes for the neighbour, and the
derivative compares with what the operand is there.
-/

namespace FragmentAssembly

namespace Job

variable {job : Job} {ins : Instruction} {depth pc : Nat} {derive : Deriver}
  {start s t u : ExecState} {outcome : Outcome}

/-! ## States between instructions -/

/-- The state before instruction `pc` in a run from `start`, if the run executes all instructions
in front of it. -/
def stateBefore (job : Job) (depth : Nat) (derive : Deriver) (start : ExecState) :
    Nat → Option ExecState
  | 0 => some start
  | pc + 1 => do
    let s ← stateBefore job depth derive start pc
    let ins ← job.program.instructions[pc]?
    match job.advance depth derive pc ins s with
    | .ok .next t => some t
    | _ => none

theorem stateBefore_succ_eq_some :
    job.stateBefore depth derive start (pc + 1) = some t ↔
      ∃ s ins, job.stateBefore depth derive start pc = some s ∧
        job.program.instructions[pc]? = some ins ∧
        job.advance depth derive pc ins s = .ok .next t := by
  simp only [stateBefore, Option.bind_eq_bind, Option.bind_eq_some_iff]
  constructor
  · rintro ⟨s, hs, ins, hins, hadvance⟩
    refine ⟨s, ins, hs, hins, ?_⟩
    split at hadvance
    · next hnext => rw [hnext, Option.some.inj hadvance]
    · cases hadvance
  · rintro ⟨s, ins, hs, hins, hadvance⟩
    refine ⟨s, hs, ins, hins, ?_⟩
    rw [hadvance]

/-- The outermost run passes the same states. -/
theorem reaches_iff : job.Reaches start pc t ↔
    job.stateBefore 0 (job.derivative maxDerivativeDepth) start pc = some t := by
  constructor
  · intro h
    induction h with
    | start => rfl
    | next _ here advance ih => exact stateBefore_succ_eq_some.mpr ⟨_, _, ih, here, advance⟩
  · intro h
    induction pc generalizing t with
    | zero =>
      cases h
      exact .start
    | succ pc ih =>
      obtain ⟨s, ins, hs, hins, hadvance⟩ := stateBefore_succ_eq_some.mp h
      exact (ih hs).next hins hadvance

/-! ## Ends of nested runs -/

/-- The run goes on behind an instruction with a result. -/
theorem flow_of_compute {c : Computation} {flow : Flow} (haction : ins.opcode.action = .compute c)
    (h : job.advance depth derive pc ins s = .ok flow t) : flow = .next := by
  obtain ⟨_, _, -, hstep⟩ := bind_eq_ok.mp h
  unfold step at hstep
  rw [haction] at hstep
  obtain ⟨_, _, -, hstore⟩ := bind_eq_ok.mp hstep
  obtain ⟨_, _, -, hflow⟩ := bind_eq_ok.mp hstore
  exact (pure_eq_ok.mp hflow).1.symm

theorem eq_of_advance_kill (hdepth : depth ≠ 0)
    (h : job.advance depth derive pc ins s = .ok .kill t) :
    ins.opcode.action = .kill ∧ s.machine.kills ins.condition = true ∧ t = s := by
  have hemit := emit_eq hdepth (.instruction pc ins.position ins.opcode) s
  cases haction : ins.opcode.action with
  | compute c => cases flow_of_compute haction h
  | kill =>
    rw [advance_kill job derive haction hemit, EStateM.Result.ok.injEq] at h
    obtain ⟨hflow, rfl⟩ := h
    refine ⟨rfl, ?_, rfl⟩
    by_contra hgoes
    rw [if_neg hgoes] at hflow
    cases hflow
  | halt =>
    rw [advance_halt haction hemit, EStateM.Result.ok.injEq] at h
    cases h.1

theorem action_of_advance_halt (hdepth : depth ≠ 0)
    (h : job.advance depth derive pc ins s = .ok .halt t) : ins.opcode.action = .halt := by
  have hemit := emit_eq hdepth (.instruction pc ins.position ins.opcode) s
  cases haction : ins.opcode.action with
  | compute c => cases flow_of_compute haction h
  | kill =>
    rw [advance_kill job derive haction hemit, EStateM.Result.ok.injEq] at h
    obtain ⟨hflow, -⟩ := h
    split at hflow <;> cases hflow
  | halt => rfl

theorem of_drop_take_eq_cons {α : Type} {l rest : List α} {n stop : Nat} {a : α}
    (h : (l.take stop).drop n = a :: rest) :
    n < stop ∧ l[n]? = some a ∧ (l.take stop).drop (n + 1) = rest := by
  have hhere : (l.take stop)[n]? = some a := by rw [← List.head?_drop, h, List.head?_cons]
  rw [List.getElem?_take] at hhere
  split at hhere
  · next hlt => exact ⟨hlt, hhere, by rw [← List.tail_drop, h, List.tail_cons]⟩
  · cases hhere

/-- A nested run that is not too deep executes all its instructions, or those in front of a `KIL`
that passes on its machine. -/
theorem stateBefore_of_runFrom (hdepth : depth ≠ 0) {stop : Nat}
    (hgoes : ∀ n ins, n < stop → job.program.instructions[n]? = some ins →
      ins.opcode.action ≠ .halt)
    (hstop : stop ≤ job.program.instructions.length) {rest : List Instruction}
    (hrest : (job.program.instructions.take stop).drop pc = rest) (hinside : pc ≤ stop)
    (hbefore : job.stateBefore depth derive start pc = some s)
    (hrun : job.runFrom depth derive pc rest s = .ok outcome t) (hclear : t.tooDeep = false) :
    ∃ k u, job.stateBefore depth derive start k = some u ∧ u.machine = t.machine ∧
      (k = stop ∨ k < stop ∧ ∃ kil, job.program.instructions[k]? = some kil ∧
        kil.opcode.action = .kill ∧ u.machine.kills kil.condition = true) := by
  induction rest generalizing pc s with
  | nil =>
    obtain ⟨-, rfl⟩ := pure_eq_ok.mp hrun
    refine ⟨pc, s, hbefore, rfl, .inl ?_⟩
    rw [List.drop_eq_nil_iff, List.length_take, Nat.min_eq_left hstop] at hrest
    exact Nat.le_antisymm hinside hrest
  | cons ins rest ih =>
    obtain ⟨hlt, hins, hlater⟩ := of_drop_take_eq_cons hrest
    obtain ⟨flow, v, hadvance, hflow⟩ := runFrom_cons.mp hrun
    cases flow with
    | next =>
      obtain ⟨_, _, hget, hflow⟩ := bind_eq_ok.mp hflow
      obtain ⟨rfl, rfl⟩ := get_eq_ok.mp hget
      cases hdeep : v.tooDeep with
      | true =>
        -- the flag would still be set at the end
        rw [hdeep, if_pos rfl] at hflow
        obtain ⟨-, rfl⟩ := pure_eq_ok.mp hflow
        exact absurd (hclear.symm.trans hdeep) Bool.false_ne_true
      | false =>
        rw [hdeep, if_neg Bool.false_ne_true] at hflow
        exact ih hlater hlt (stateBefore_succ_eq_some.mpr ⟨s, ins, hbefore, hins, hadvance⟩) hflow
    | kill =>
      obtain ⟨haction, hkills, rfl⟩ := eq_of_advance_kill hdepth hadvance
      have hdiscard : job.discard depth pc v = .ok outcome t := hflow
      rw [discard_eq hdepth, EStateM.Result.ok.injEq] at hdiscard
      exact ⟨pc, v, hbefore, congrArg _ hdiscard.2, .inr ⟨hlt, ins, hins, haction, hkills⟩⟩
    | halt => exact absurd (action_of_advance_halt hdepth hadvance) (hgoes pc ins hlt hins)

/-! ## The outermost shadow run -/

/-- The state in which the shadow run for a derivative of the outermost run starts. -/
def shadowStart (job : Job) (pc : Nat) (axis : Axis) (t : ExecState) : ExecState :=
  { t with
    machine := job.neighbour t.machine axis
    tooDeep := false
    notes := t.notes.push (.rerun pc 1 axis) }

/-- The shadow run of a derivative that is not too deep comes to what the derivative compares
with. -/
theorem exists_shadow (hfragment : job.fragment < job.span.size)
    (hcomplete : ∀ ins ∈ job.program.instructions, ins.Complete) {r : Source} {axis : Axis}
    (hclear : t.tooDeep = false) (hdepth : ¬job.ExceedsDepth pc r axis t) :
    ∃ outcome u asked, job.runFrom 1 (job.derivative (maxDerivativeDepth - 1)) 0
        (job.program.instructions.take pc) (job.shadowStart pc axis t) = .ok outcome u ∧
      u.tooDeep = false ∧
      Reference.difference job (Reference.derivative job (maxDerivativeDepth - 1)) pc r axis
        t.machine t.requests =
          some (Quad.zipWith Binary32.sub (u.machine.fetch job.program r)
            (t.machine.fetch job.program r), asked) := by
  rw [exceedsDepth_iff hfragment hcomplete hclear] at hdepth
  obtain ⟨⟨value, asked⟩, hfound⟩ := Option.ne_none_iff_exists'.mp hdepth
  have hinner := refines_derivative (Nat.lt_succ_self 3) hfragment hcomplete
  obtain ⟨outcome, u, hrun, hagrees⟩ := runFrom_agrees Nat.one_ne_zero hfragment
    (hinner.weaken fun _ _ => And.right)
    (fun ins hins => hcomplete ins (List.mem_of_mem_take hins)) 0 (job.shadowStart pc axis t) rfl
  -- the reference run of the neighbour is the same one
  simp only [Reference.difference, Option.bind_eq_bind, Option.bind_eq_some_iff, Option.some.injEq,
    Prod.mk.injEq] at hfound
  obtain ⟨⟨shadow, later⟩, hshadow, -, -⟩ := hfound
  have hsame : Reference.runFrom job (Reference.derivative job 3) 0
      (job.program.instructions.take pc) (job.shadowStart pc axis t).machine
      (job.shadowStart pc axis t).requests = some (shadow, later) := hshadow
  rw [hsame] at hagrees
  obtain ⟨rfl, -, hflag⟩ := hagrees
  refine ⟨outcome, u, later, hrun, hflag, ?_⟩
  unfold Reference.difference
  rw [hshadow]
  rfl

end Job

/-- The derivative of a temporary that is not too deep is the difference between what the operand
is in a shadow run and what it is in the run of the fragment, in front of the same instruction.  The
shadow run has executed all instructions in front of it as well, or those in front of a `KIL` that
passes for the neighbour. -/
theorem derivative_by_shadow {source : String} {p q : Program}
    (hcompile : compile source = .ok p) (hupdates : p.Updates q) {sampler : Sampler} {span : Span}
    {fragment : Nat} (hfragment : fragment < span.size) {codes : Quad CondCode}
    {start t : ExecState} (hstart : start.tooDeep = false) {pc : Nat}
    (hreaches : (Interpreter.job q sampler span fragment codes).Reaches start pc t)
    {ins : Instruction} {axis : Axis} {r : Source} {i : TemporaryIndex}
    (hins : q.instructions[pc]? = some ins)
    (haction : ins.opcode.action = .compute (.derivative axis)) (hr : ins.sources[0]? = some r)
    (hi : r.register = .temporary i)
    (hdepth : ¬(Interpreter.job q sampler span fragment codes).ExceedsDepth pc r axis t) :
    let job := Interpreter.job q sampler span fragment codes
    ∃ k u value w,
      job.stateBefore 1 (job.derivative (maxDerivativeDepth - 1)) (job.shadowStart pc axis t) k =
        some u ∧
      (k = pc ∨ k < pc ∧ ∃ kil, q.instructions[k]? = some kil ∧ kil.opcode.action = .kill ∧
        u.machine.kills kil.condition = true) ∧
      (∀ c, value.get c = ((u.machine.fetch q r).get c).sub ((t.machine.fetch q r).get c)) ∧
      job.advance 0 (job.derivative maxDerivativeDepth) pc ins t = .ok .next w ∧
      w.machine = (t.machine.store ins value).1 := by
  intro job
  have hwell := (wellFormed_of_compile hcompile).retuned (Program.retuned_of_updates hupdates)
  have hcomplete : ∀ ins ∈ job.program.instructions, ins.Complete := hwell.complete
  have hclear : t.tooDeep = false := hreaches.clear hfragment hcomplete hstart
  obtain ⟨outcome, v, asked, hrun, hflag, hfound⟩ :=
    Job.exists_shadow hfragment hcomplete hclear hdepth
  obtain ⟨hlt, -⟩ := List.getElem?_eq_some_iff.mp hins
  -- there is no `END` in front of the derivative
  have hgoes : ∀ n ins, n < pc → job.program.instructions[n]? = some ins →
      ins.opcode.action ≠ .halt := fun n ins hn hhere hhalt => by
    have hlast := hwell.halt_last hhere hhalt
    omega
  obtain ⟨k, u, hbefore, hmachine, hend⟩ := Job.stateBefore_of_runFrom Nat.one_ne_zero hgoes
    (Nat.le_of_lt hlt) rfl (Nat.zero_le pc) rfl hrun hflag
  have hderivative : Reference.derivative job maxDerivativeDepth pc r axis t.machine t.requests =
      some (Quad.zipWith Binary32.sub (v.machine.fetch q r) (t.machine.fetch q r), asked) := by
    unfold maxDerivativeDepth Reference.derivative
    rw [hi]
    exact hfound
  obtain ⟨value, w, hadvance, hstored, -, hagrees⟩ := Job.advance_outermost hfragment hcomplete
    (hcomplete ins (List.mem_of_getElem? hins)) haction hclear pc
  simp only [Reference.compute, hr, Option.bind_eq_bind, Option.bind_some, hderivative] at hagrees
  obtain ⟨rfl, -, -⟩ := hagrees
  refine ⟨k, u, _, w, hbefore, hend, fun c => ?_, hadvance, hstored⟩
  rw [Quad.get_zipWith, hmachine]

/-! ## A fragment at an edge -/

/-- Discards fragments whose first color begins with a negative number, and gives the others its
slope. -/
def edgeText : String :=
  "!!FP1.0 MOVC RC.x, f[COL0].x; KIL LT.x; MOV R0, f[COL0]; DDX o[COLR], R0; END"

def edgeInputs : Vector Vec4 inputCount :=
  (Vector.replicate _ Quad.zero).set 1 ⟨.one, .zero, .zero, .zero⟩ one_lt_inputCount

/-- One fragment, whose neighbour along the x axis is discarded. -/
def edgeSpan : Span where
  fragments := [{ inputs := edgeInputs }]
  stepX := (Vector.replicate _ Quad.zero).set 1 ⟨(Binary32.ofNat 2).neg, .zero, .zero, .zero⟩
    one_lt_inputCount

def edgeJob (p : Program) : Job :=
  Interpreter.job p (.solid Quad.zero) edgeSpan 0 (Quad.replicate .eq)

def edgeStart (p : Program) : ExecState where
  machine := ({} : Machine).load p edgeInputs

/-- The run of the fragment comes to its derivative, and the shadow run does not. -/
theorem exists_edge : ∃ p t ins, compile edgeText = .ok p ∧
    (edgeJob p).Reaches (edgeStart p) 3 t ∧ p.instructions[3]? = some ins ∧
    ins.opcode = .ddx ∧ ins.sources = [{ register := .temporary 0 }] ∧
    ¬(edgeJob p).ExceedsDepth 3 { register := .temporary 0 } .x t ∧
    (edgeJob p).stateBefore 1 ((edgeJob p).derivative (maxDerivativeDepth - 1))
      ((edgeJob p).shadowStart 3 .x t) 3 = none := by
  obtain ⟨p, hp, hins, hfew, hshadow⟩ : ∃ p, compile edgeText = .ok p ∧
      p.instructions[3]?.map (fun ins => (ins.opcode, ins.sources)) =
        some (.ddx, [{ register := .temporary 0 }]) ∧
      (p.instructions.take 3).countP Instruction.isNested < maxDerivativeDepth ∧
      ((edgeJob p).stateBefore 0 ((edgeJob p).derivative maxDerivativeDepth) (edgeStart p) 3).any
        (fun t => ((edgeJob p).stateBefore 1 ((edgeJob p).derivative (maxDerivativeDepth - 1))
          ((edgeJob p).shadowStart 3 .x t) 3).isNone) = true :=
    exists_of_decide (by decide +kernel)
  rw [Option.any_eq_true] at hshadow
  obtain ⟨t, hbefore, hnone⟩ := hshadow
  rw [Option.map_eq_some_iff] at hins
  obtain ⟨ins, hins, hshape⟩ := hins
  obtain ⟨hopcode, hsources⟩ := Prod.mk.inj hshape
  -- that the levels suffice follows from a count of the instructions that need nested runs
  have hreaches := Job.reaches_iff.mpr hbefore
  have hcomplete := (wellFormed_of_compile hp).complete
  have hclear := hreaches.clear (show 0 < edgeSpan.size by decide) hcomplete rfl
  refine ⟨p, t, ins, hp, hreaches, hins, hopcode, hsources, fun hdeep => ?_,
    Option.isNone_iff_eq_none.mp hnone⟩
  exact absurd (hdeep.count rfl (show 0 < edgeSpan.size by decide) hcomplete hclear)
    (Nat.not_le_of_lt hfew)

theorem derivative_by_shadow_edge :
    ∃ p t ins k u value w, compile edgeText = .ok p ∧ p.Updates p ∧
      (edgeJob p).Reaches (edgeStart p) 3 t ∧ p.instructions[3]? = some ins ∧
      ¬(edgeJob p).ExceedsDepth 3 { register := .temporary 0 } .x t ∧
      (edgeJob p).stateBefore 1 ((edgeJob p).derivative (maxDerivativeDepth - 1))
        ((edgeJob p).shadowStart 3 .x t) k = some u ∧
      k < 3 ∧ (∃ kil, p.instructions[k]? = some kil ∧ kil.opcode.action = .kill) ∧
      (edgeJob p).advance 0 ((edgeJob p).derivative maxDerivativeDepth) 3 ins t = .ok .next w ∧
      w.machine = (t.machine.store ins value).1 := by
  obtain ⟨p, t, ins, hp, hreaches, hins, hopcode, hsources, hdepth, hnone⟩ := exists_edge
  have haction : ins.opcode.action = .compute (.derivative .x) := by rw [hopcode]; rfl
  obtain ⟨k, u, value, w, hbefore, hend, -, hadvance, hstored⟩ :=
    derivative_by_shadow hp .refl (show 0 < edgeSpan.size by decide) rfl hreaches hins haction
      (by rw [hsources]; rfl) rfl hdepth
  rcases hend with rfl | ⟨hlt, kil, hkil, hkills, -⟩
  · -- the shadow run does not come to the derivative
    exact absurd (hbefore.symm.trans hnone) nofun
  · exact ⟨p, t, ins, k, u, value, w, hp, .refl, hreaches, hins, hdepth, hbefore, hlt,
      ⟨kil, hkil, hkills⟩, hadvance, hstored⟩

/-- The shadow run of a derivative that is not too deep need not come to the derivative, and its
value need not be that of complete runs, which would be minus two. -/
theorem shadow_ends_at_edge :
    ∃ p t, compile edgeText = .ok p ∧ (edgeJob p).Reaches (edgeStart p) 3 t ∧
      (∃ ins, p.instructions[3]? = some ins ∧ ins.opcode = .ddx) ∧
      ¬(edgeJob p).ExceedsDepth 3 { register := .temporary 0 } .x t ∧
      (∀ u, (edgeJob p).stateBefore 1 ((edgeJob p).derivative (maxDerivativeDepth - 1))
        ((edgeJob p).shadowStart 3 .x t) 3 ≠ some u) ∧
      colorOf (Interpreter.execute p (.solid Quad.zero) edgeSpan 0 {}) =
        some ⟨Binary32.one.neg, .zero, .zero, .zero⟩ := by
  obtain ⟨p, t, ins, hp, hreaches, hins, hopcode, -, hdepth, hnone⟩ := exists_edge
  obtain ⟨p', hp', hcolor⟩ : ∃ p, compile edgeText = .ok p ∧
      colorOf (Interpreter.execute p (.solid Quad.zero) edgeSpan 0 {}) =
        some ⟨Binary32.one.neg, .zero, .zero, .zero⟩ :=
    exists_of_decide (by decide +kernel)
  rw [hp, Except.ok.injEq] at hp'
  subst hp'
  exact ⟨p, t, hp, hreaches, ⟨ins, hins, hopcode⟩, hdepth,
    fun u hu => absurd (hu.symm.trans hnone) nofun, hcolor⟩

end FragmentAssembly

import FragmentAssembly.Proofs.Execution.Isolation
import FragmentAssembly.Proofs.Execution.Step

/-!
# Neighbouring fragments

The derivative of a temporary is a difference to the neighbouring fragment: to what a run of its own
finds there, from a fresh machine and with all levels of nesting.  The nested run that computes it
has one level less, but a derivative that is found with fewer levels is the same with more of them.
-/

namespace FragmentAssembly

/-! ## More levels -/

namespace Reference

variable {job : Job} {derive derive' : Deriver}

/-- What the first deriver finds, the second one finds as well. -/
def Deriver.Le (derive derive' : Deriver) : Prop :=
  ∀ pc r axis m requests found, derive pc r axis m requests = some found →
    derive' pc r axis m requests = some found

theorem compute_mono (hle : derive.Le derive') {pc : Nat} {ins : Instruction} {m : Machine}
    {requests : Array Request} {c : Computation} {found : Vec4 × Array Request}
    (h : compute job derive pc ins m requests c = some found) :
    compute job derive' pc ins m requests c = some found := by
  cases c with
  | derivative axis =>
    simp only [compute, Option.bind_eq_bind, Option.bind_eq_some_iff] at h ⊢
    obtain ⟨r, hr, hfound⟩ := h
    exact ⟨r, hr, hle _ _ _ _ _ _ hfound⟩
  -- nothing else looks for derivatives
  | constant value => exact h
  | vector1 f => exact h
  | vector2 f => exact h
  | vector3 f => exact h
  | scalar1 f => exact h
  | scalar2 f => exact h
  | lookup mode => exact h

theorem runFrom_mono (hle : derive.Le derive') {instructions : List Instruction} {pc : Nat}
    {m : Machine} {requests : Array Request} {found : Machine × Array Request}
    (h : runFrom job derive pc instructions m requests = some found) :
    runFrom job derive' pc instructions m requests = some found := by
  induction instructions generalizing pc m requests with
  | nil => exact h
  | cons ins rest ih =>
    unfold runFrom at h ⊢
    cases haction : ins.opcode.action with
    | compute c =>
      simp only [haction, Option.bind_eq_bind, Option.bind_eq_some_iff] at h ⊢
      obtain ⟨value, hvalue, hrest⟩ := h
      exact ⟨value, compute_mono hle hvalue, ih hrest⟩
    | kill =>
      simp only [haction] at h ⊢
      split at h
      · next hkills => rw [if_pos hkills, h]
      · next hgoes => rw [if_neg hgoes, ih h]
    | halt =>
      simp only [haction] at h ⊢
      exact h

theorem difference_mono (hle : derive.Le derive') :
    Deriver.Le (difference job derive) (difference job derive') := by
  intro pc r axis m requests found h
  simp only [difference, Option.bind_eq_bind, Option.bind_eq_some_iff] at h ⊢
  obtain ⟨shadow, hrun, hfound⟩ := h
  exact ⟨shadow, runFrom_mono hle hrun, hfound⟩

/-- The derivative of anything but a temporary needs no levels. -/
theorem derivative_flat (job : Job) (levels levels' : Nat) {r : Source}
    (hflat : ∀ i, r.register ≠ .temporary i) (pc : Nat) (axis : Axis) (m : Machine)
    (requests : Array Request) :
    derivative job levels pc r axis m requests = derivative job levels' pc r axis m requests := by
  unfold derivative
  cases hregister : r.register with
  | temporary i => exact absurd hregister (hflat i)
  | input i => rfl
  | parameter i => rfl
  | localParameter i => rfl

/-- A derivative that is found with some levels is found with one more. -/
theorem derivative_le (job : Job) (levels : Nat) :
    Deriver.Le (derivative job levels) (derivative job (levels + 1)) := by
  induction levels with
  | zero =>
    intro pc r axis m requests found h
    rcases r.register.temporary_or_not with ⟨i, hi⟩ | hflat
    · -- without any level there is none
      unfold derivative at h
      rw [hi] at h
      cases h
    · rw [derivative_flat job 1 0 hflat]
      exact h
  | succ levels ih =>
    intro pc r axis m requests found h
    rcases r.register.temporary_or_not with ⟨i, hi⟩ | hflat
    · unfold derivative at h ⊢
      rw [hi] at h ⊢
      exact difference_mono ih pc r axis m requests found h
    · rw [derivative_flat job (levels + 2) (levels + 1) hflat]
      exact h

end Reference

/-! ## The outermost run and its reference -/

namespace Job

variable {job : Job}

/-- Where the reference run has a result, the outermost run comes to it. -/
theorem runFrom_outermost (hfragment : job.fragment < job.span.size)
    (hcomplete : ∀ ins ∈ job.program.instructions, ins.Complete) {instructions : List Instruction}
    (hinside : ∀ ins ∈ instructions, ins ∈ job.program.instructions) {pc : Nat} {s : ExecState}
    (hclear : s.tooDeep = false) {m : Machine} {requests : Array Request}
    (h : Reference.runFrom job (Reference.derivative job maxDerivativeDepth) pc instructions
      s.machine s.requests = some (m, requests)) :
    ∃ outcome t, job.runFrom 0 (job.derivative maxDerivativeDepth) pc instructions s =
      .ok outcome t ∧ t.machine = m ∧ t.requests = requests := by
  induction instructions generalizing pc s with
  | nil =>
    rw [Reference.runFrom, Option.some.injEq, Prod.mk.injEq] at h
    exact ⟨.complete, s, rfl, h.1, h.2⟩
  | cons ins rest ih =>
    have hlater := fun ins hins => hinside ins (List.mem_cons_of_mem _ hins)
    have hemit := emit_outermost (.instruction pc ins.position ins.opcode) s
    cases haction : ins.opcode.action with
    | compute c =>
      obtain ⟨value, t, hadvance, hmachine, hflag, hagrees⟩ := advance_outermost hfragment hcomplete
        (hcomplete ins (hinside ins List.mem_cons_self)) haction hclear pc
      rw [Reference.runFrom_compute haction, Option.bind_eq_some_iff] at h
      obtain ⟨⟨found, later⟩, hfound, hrest⟩ := h
      -- the value is that of the reference, so the rest starts from the same machine
      rw [hfound] at hagrees
      obtain ⟨rfl, hrequests, -⟩ := hagrees
      rw [← hmachine, ← hrequests] at hrest
      obtain ⟨outcome, u, hrun, hu⟩ := ih hlater hflag hrest
      exact ⟨outcome, u, runFrom_next hadvance hflag hrun, hu⟩
    | kill =>
      have hadvance : job.advance 0 (job.derivative maxDerivativeDepth) pc ins s = .ok _ _ :=
        advance_kill job _ haction hemit
      dsimp only at hadvance
      rw [Reference.runFrom, haction] at h
      dsimp only at h
      by_cases hkills : s.machine.kills ins.condition = true
      · rw [if_pos hkills, Option.some.injEq, Prod.mk.injEq] at h
        rw [if_pos hkills] at hadvance
        exact ⟨.killed, _, runFrom_kill hadvance (discard_outermost job pc _), h.1, h.2⟩
      · rw [if_neg hkills] at h hadvance
        let shown : ExecState :=
          { s with events := s.events.dispatch (.instruction pc ins.position ins.opcode) }
        have hshown : shown.tooDeep = false := hclear
        obtain ⟨outcome, u, hrun, hu⟩ := ih hlater hshown h
        exact ⟨outcome, u, runFrom_next hadvance hclear hrun, hu⟩
    | halt =>
      rw [Reference.runFrom, haction] at h
      dsimp only at h
      rw [Option.some.injEq, Prod.mk.injEq] at h
      exact ⟨.complete, _, runFrom_halt (advance_halt haction hemit), h.1, h.2⟩

/-- The derivative needs more nested runs than are allowed. -/
def ExceedsDepth (job : Job) (pc : Nat) (r : Source) (axis : Axis) (s : ExecState) : Prop :=
  ∃ value t, job.difference 0 (job.derivative (maxDerivativeDepth - 1)) pc r axis s = .ok value t ∧
    t.tooDeep = true

/-- The flag says that the reference has no difference either. -/
theorem exceedsDepth_iff (hfragment : job.fragment < job.span.size)
    (hcomplete : ∀ ins ∈ job.program.instructions, ins.Complete) {s : ExecState}
    (hclear : s.tooDeep = false) (pc : Nat) (r : Source) (axis : Axis) :
    job.ExceedsDepth pc r axis s ↔
      Reference.difference job (Reference.derivative job (maxDerivativeDepth - 1)) pc r axis
        s.machine s.requests = none := by
  -- the run agrees with the reference, which says what the flag stands for
  obtain ⟨value, t, hvalue, -, hagrees⟩ := refinesOn_difference 0 hfragment
    (refines_derivative (Nat.lt_succ_self 3) hfragment hcomplete) hcomplete pc r axis s.machine s
    rfl hclear
  constructor
  · rintro ⟨value', t', hvalue', hdeep⟩
    change job.difference 0 (job.derivative 3) pc r axis s = _ at hvalue'
    rw [hvalue, EStateM.Result.ok.injEq] at hvalue'
    obtain ⟨rfl, rfl⟩ := hvalue'
    cases hfound : Reference.difference job (Reference.derivative job (maxDerivativeDepth - 1)) pc r
        axis s.machine s.requests with
    | none => rfl
    | some found =>
      change ExecState.Agrees _ _ _ (Reference.difference job
        (Reference.derivative job (maxDerivativeDepth - 1)) pc r axis _ _) at hagrees
      rw [hfound] at hagrees
      exact absurd hdeep (Bool.eq_false_iff.mp hagrees.2.2)
  · intro hnone
    change ExecState.Agrees _ _ _ (Reference.difference job
      (Reference.derivative job (maxDerivativeDepth - 1)) pc r axis _ _) at hagrees
    rw [hnone] at hagrees
    exact ⟨value, t, hvalue, hagrees.2⟩

/-- Only a derivative behind as many others can need more nested runs than are allowed. -/
theorem ExceedsDepth.count {pc : Nat} {r : Source} {axis : Axis} {s : ExecState}
    (h : job.ExceedsDepth pc r axis s) {i : TemporaryIndex} (hi : r.register = .temporary i)
    (hfragment : job.fragment < job.span.size)
    (hcomplete : ∀ ins ∈ job.program.instructions, ins.Complete) (hclear : s.tooDeep = false) :
    maxDerivativeDepth ≤ (job.program.instructions.take pc).countP Instruction.isNested := by
  have hnone := (exceedsDepth_iff hfragment hcomplete hclear pc r axis).mp h
  have hmissing : Reference.derivative job maxDerivativeDepth pc r axis s.machine s.requests =
      none := by
    unfold maxDerivativeDepth Reference.derivative
    rw [hi]
    exact hnone
  exact Reference.levels_le_count hfragment hcomplete hmissing

end Job

/-! ## Moved fragments -/

namespace Interpreter

/-- The step of an input from a fragment to its neighbour.  Texture coordinates are divided by the
last one of the fragment itself. -/
def inputStep (span : Span) (axis : Axis) (f : Fragment) (i : InputIndex) : Vec4 :=
  let step := (span.step axis).get i
  if i.isTextureCoordinate then step.map (·.mul (f.inputs.get i).w.reciprocal) else step

/-- The neighbour of a fragment: every input that the program reads is moved by its step. -/
def moved (p : Program) (span : Span) (axis : Axis) (f : Fragment) : Fragment :=
  { f with
    inputs := Vector.ofFn fun i =>
      if p.readsInput i then Quad.zipWith Binary32.add (f.inputs.get i) (inputStep span axis f i)
      else f.inputs.get i }

/-- The span with a neighbour in place of a fragment. -/
def movedSpan (p : Program) (span : Span) (axis : Axis) (fragment : Nat) : Span :=
  { span with fragments := span.fragments.modify fragment (moved p span axis) }

variable {p : Program} {sampler : Sampler} {span : Span} {fragment pc : Nat} {f : Fragment}
  {s t : ExecState} {axis : Axis}

theorem getElem?_movedSpan (p : Program) (axis : Axis) (hf : span.fragments[fragment]? = some f) :
    (movedSpan p span axis fragment).fragments[fragment]? = some (moved p span axis f) := by
  rw [movedSpan, List.getElem?_modify_eq, hf]
  rfl

/-- Before every instruction the machine holds the inputs of the fragment. -/
theorem inputs_reaches (hwell : p.WellFormed) (hf : span.fragments[fragment]? = some f)
    (h : (job p sampler span fragment (Quad.replicate .eq)).Reaches (loaded p f s) pc t)
    {i : InputIndex} (hi : p.readsInput i = true) : t.machine.inputs.get i = f.inputs.get i := by
  have hloaded : (loaded p f s).machine.inputs.get i = f.inputs.get i := by
    simp only [loaded, Machine.load, get_ofFn, hi, if_true]
  have hfragment : fragment < span.size := (List.getElem?_eq_some_iff.mp hf).1
  refine h.preserves (P := fun m => m.inputs.get i = f.inputs.get i) hfragment hwell.complete rfl
    (fun ins _ value m hm => ?_) hloaded
  rw [m.inputs_store, hm]

/-- The machine of a nested run is that of the neighbour, loaded afresh. -/
theorem neighbour_sameFor (hwell : p.WellFormed) (hf : span.fragments[fragment]? = some f)
    (h : (job p sampler span fragment (Quad.replicate .eq)).Reaches (loaded p f s) pc t)
    (axis : Axis) (s' : ExecState) :
    ((job p sampler span fragment (Quad.replicate .eq)).neighbour t.machine axis).SameFor p
      (loaded p (moved p span axis f) s').machine := by
  refine ⟨rfl, fun i hi => ?_, rfl, rfl⟩
  simp only [loaded, Machine.load, Job.neighbour, get_ofFn, job, moved, hi, if_true]
  rw [Job.inputDerivative, inputs_reaches hwell hf h hi]
  rfl

/-- A fresh run on the moved span comes to what a nested run finds. -/
theorem run_moved (hwell : p.WellFormed) (hmarks : p.MarksInputs)
    (hmemoryless : sampler.IsMemoryless) (hf : span.fragments[fragment]? = some f)
    (h : (job p sampler span fragment (Quad.replicate .eq)).Reaches (loaded p f s) pc t)
    {shadow : Machine} {asked : Array Request}
    (hshadow : Reference.runFrom (job p sampler span fragment (Quad.replicate .eq))
      (Reference.derivative (job p sampler span fragment (Quad.replicate .eq)) maxDerivativeDepth) 0
      (p.instructions.take pc)
      ((job p sampler span fragment (Quad.replicate .eq)).neighbour t.machine axis) t.requests =
        some (shadow, asked)) (s' : ExecState) :
    ∃ outcome u, (do
        load p (movedSpan p span axis fragment) fragment
        executeUntil p sampler (movedSpan p span axis fragment) fragment pc : Exec Outcome) s' =
          .ok outcome u ∧ shadow.SameFor p u.machine := by
  have hfragment : fragment < span.size := (List.getElem?_eq_some_iff.mp hf).1
  have hmoved := getElem?_movedSpan p axis hf
  -- the nested run, as an outermost one
  let nested : ExecState :=
    { machine := (job p sampler span fragment (Quad.replicate .eq)).neighbour t.machine axis
      requests := t.requests }
  obtain ⟨outcome, u₀, hrun, rfl, -⟩ := Job.runFrom_outermost hfragment hwell.complete
    (fun _ hins => List.mem_of_mem_take hins) (s := nested) rfl hshadow
  -- the same on the moved span
  have hpeers : (job p sampler span fragment (Quad.replicate .eq)).Peers
      (job p sampler (movedSpan p span axis fragment) fragment (Quad.replicate .eq)) nested s' :=
    ⟨rfl, hmarks, fun axis' i _ => by cases axis' <;> rfl,
      ⟨f, _, hf, hmoved, fun _ _ _ _ => rfl⟩, rfl, fun _ _ => hmemoryless.answer _ _ _,
      fun _ _ => hmemoryless.imageSize _ _ _⟩
  have hstart : ExecState.Alongside p nested s' nested (loaded p (moved p span axis f) s') :=
    ⟨neighbour_sameFor hwell hf h axis s', rfl, ⟨#[], by simp, by simp [loaded]⟩,
      ⟨[], rfl, rfl⟩⟩
  obtain ⟨u, hu, halong⟩ := Job.run_alongside hpeers hstart hrun
  refine ⟨outcome, u, ?_, halong.machine⟩
  have hload : load p (movedSpan p span axis fragment) fragment s' =
      .ok () { s' with machine := s'.machine.load p (moved p span axis f).inputs } := by
    unfold load
    rw [hmoved]
    rfl
  exact bind_eq_ok.mpr ⟨(), _, hload, hu⟩

end Interpreter

/-- The derivative of a temporary, as long as its nested runs are not too deep, is the difference
between what the operand is in a fresh run of the instructions before it on the neighbouring
fragment and what it is here.  This value is what the instruction stores. -/
theorem derivative_is_difference {source : String} {p q : Program}
    (hcompile : compile source = .ok p) (hupdates : p.Updates q) {sampler : Sampler}
    (hmemoryless : sampler.IsMemoryless) {span : Span} {fragment : Nat} {f : Fragment}
    (hf : span.fragments[fragment]? = some f) {s t : ExecState} {pc : Nat}
    (hreaches : (Interpreter.job q sampler span fragment (Quad.replicate .eq)).Reaches
      (Interpreter.loaded q f s) pc t)
    {ins : Instruction} {axis : Axis} {r : Source} {i : TemporaryIndex}
    (hins : q.instructions[pc]? = some ins)
    (haction : ins.opcode.action = .compute (.derivative axis)) (hr : ins.sources[0]? = some r)
    (hi : r.register = .temporary i)
    (hdepth : ¬(Interpreter.job q sampler span fragment (Quad.replicate .eq)).ExceedsDepth pc r
      axis t) (s' : ExecState) :
    let job := Interpreter.job q sampler span fragment (Quad.replicate .eq)
    let neighbours := Interpreter.movedSpan q span axis fragment
    ∃ outcome u value v w, (do
        Interpreter.load q neighbours fragment
        Interpreter.executeUntil q sampler neighbours fragment pc : Exec Outcome) s' =
          .ok outcome u ∧
      job.derivative maxDerivativeDepth pc r axis t = .ok value v ∧
      (∀ c, value.get c = ((u.machine.fetch q r).get c).sub ((t.machine.fetch q r).get c)) ∧
      job.advance 0 (job.derivative maxDerivativeDepth) pc ins t = .ok .next w ∧
      w.machine = (t.machine.store ins value).1 := by
  intro job neighbours
  have hretuned := Program.retuned_of_updates hupdates
  have hwell := (wellFormed_of_compile hcompile).retuned hretuned
  have hmarks := (marksInputs_of_compile hcompile).retuned hretuned
  have hfragment : job.fragment < job.span.size := (List.getElem?_eq_some_iff.mp hf).1
  have hcomplete : ∀ ins ∈ job.program.instructions, ins.Complete := hwell.complete
  have hclear : t.tooDeep = false := hreaches.clear hfragment hcomplete rfl
  rw [Job.exceedsDepth_iff hfragment hcomplete hclear] at hdepth
  obtain ⟨⟨value, asked⟩, hfound⟩ := Option.ne_none_iff_exists'.mp hdepth
  have hderivative : Reference.derivative job maxDerivativeDepth pc r axis t.machine t.requests =
      some (value, asked) := by
    unfold maxDerivativeDepth Reference.derivative
    rw [hi]
    exact hfound
  simp only [Reference.difference, Option.bind_eq_bind, Option.bind_eq_some_iff, Option.some.injEq,
    Prod.mk.injEq] at hfound
  obtain ⟨⟨shadow, later⟩, hshadow, hvalue, -⟩ := hfound
  -- the nested run has one level less than the fresh one
  obtain ⟨outcome, u, hrun, hsame⟩ := Interpreter.run_moved hwell hmarks hmemoryless hf hreaches
    (Reference.runFrom_mono (Reference.derivative_le job 3) hshadow) s'
  have hmarked : r.Marked q := fun n hn => by
    rw [hi] at hn
    cases hn
  obtain ⟨value', v, hv, -, hagrees⟩ := Job.refines_derivative_outermost hfragment hcomplete pc r
    axis t.machine t rfl hclear
  rw [hderivative] at hagrees
  obtain ⟨rfl, -, -⟩ := hagrees
  obtain ⟨stored, w, hadvance, hmachine, -, hagrees⟩ := Job.advance_outermost hfragment hcomplete
    (hcomplete ins (List.mem_of_getElem? hins)) haction hclear pc
  simp only [Reference.compute, hr, Option.bind_eq_bind, Option.bind_some, hderivative] at hagrees
  obtain ⟨rfl, -, -⟩ := hagrees
  refine ⟨outcome, u, _, v, w, hrun, hv, fun c => ?_, hadvance, hmachine⟩
  rw [← hvalue, Quad.get_zipWith, hsame.fetch hmarked]
  rfl

theorem derivative_is_difference_oneSlope :
    compile oneSlope.source = .ok oneSlope ∧ (Sampler.solid Quad.zero).IsMemoryless ∧
      ∃ f t ins r, slopeSpan.fragments[0]? = some f ∧
        (Interpreter.job oneSlope (.solid Quad.zero) slopeSpan 0 (Quad.replicate .eq)).Reaches
          (Interpreter.loaded oneSlope f {}) 1 t ∧
        oneSlope.instructions[1]? = some ins ∧
        ins.opcode.action = .compute (.derivative .x) ∧ ins.sources[0]? = some r ∧
        r.register = .temporary 0 ∧
        ¬(Interpreter.job oneSlope (.solid Quad.zero) slopeSpan 0
          (Quad.replicate .eq)).ExceedsDepth 1 r .x t ∧
        ∃ outcome u, (do
          Interpreter.load oneSlope (Interpreter.movedSpan oneSlope slopeSpan .x 0) 0
          Interpreter.executeUntil oneSlope (.solid Quad.zero)
            (Interpreter.movedSpan oneSlope slopeSpan .x 0) 0 1 : Exec Outcome) {} =
            .ok outcome u := by
  have hcompile : compile oneSlope.source = .ok oneSlope := by decide +kernel
  have hmemoryless := Sampler.isMemoryless_solid Quad.zero
  have hcomplete := (wellFormed_of_compile hcompile).complete
  have hfew : (oneSlope.instructions.take 1).countP Instruction.isNested < maxDerivativeDepth := by
    decide +kernel
  obtain ⟨f, hf⟩ : ∃ f, slopeSpan.fragments[0]? = some f := ⟨_, rfl⟩
  have hfragment : 0 < slopeSpan.size := (List.getElem?_eq_some_iff.mp hf).1
  -- the multiplication takes the run to the derivative
  obtain ⟨first, c, hfirst, hmultiply⟩ : ∃ first c, oneSlope.instructions[0]? = some first ∧
      first.opcode.action = .compute c := ⟨_, _, rfl, rfl⟩
  obtain ⟨ins, r, hins, haction, hr, hi⟩ : ∃ ins r, oneSlope.instructions[1]? = some ins ∧
      ins.opcode.action = .compute (.derivative .x) ∧ ins.sources[0]? = some r ∧
      r.register = .temporary 0 := ⟨_, _, rfl, rfl, rfl, rfl⟩
  have hstart : (Interpreter.job oneSlope (.solid Quad.zero) slopeSpan 0
      (Quad.replicate .eq)).Reaches (Interpreter.loaded oneSlope f {}) 0
        (Interpreter.loaded oneSlope f {}) := .start
  obtain ⟨t, hreaches⟩ := hstart.exists_next hfragment hcomplete rfl hfirst hmultiply
  have hclear := hreaches.clear hfragment hcomplete rfl
  have hdepth : ¬(Interpreter.job oneSlope (.solid Quad.zero) slopeSpan 0
      (Quad.replicate .eq)).ExceedsDepth 1 r .x t := fun hdeep =>
    absurd (hdeep.count hi hfragment hcomplete hclear) (Nat.not_le_of_lt hfew)
  obtain ⟨outcome, u, -, -, -, hrun, -⟩ := derivative_is_difference hcompile .refl hmemoryless hf
    hreaches hins haction hr hi hdepth {}
  exact ⟨hcompile, hmemoryless, f, t, ins, r, hf, hreaches, hins, haction, hr, hi, hdepth, outcome,
    u, hrun⟩

end FragmentAssembly

import FragmentAssembly.Proofs.Execution.Refinement

/-!
# Traces of runs

A run only adds to its trace.  It asks for the texture images of its instructions, it shows events
to listeners only if it is the outermost one, and it notes every nested run with its depth before
it starts.
-/

namespace FragmentAssembly

/-! ## Events -/

namespace Listeners

/-- Shows events one by one. -/
def dispatchAll (l : Listeners) (shown : List Event) : Listeners :=
  shown.foldl dispatch l

variable (l : Listeners) (shown more : List Event)

theorem dispatchAll_append : l.dispatchAll (shown ++ more) =
    (l.dispatchAll shown).dispatchAll more :=
  List.foldl_append

theorem dispatch_dispatchAll (e : Event) :
    (l.dispatchAll shown).dispatch e = l.dispatchAll (shown ++ [e]) :=
  (l.dispatchAll_append shown [e]).symm

/-- Listeners keep all that they are shown. -/
theorem dispatchAll_some (before : Array Event) :
    dispatchAll (some before) shown = some (before ++ shown) := by
  induction shown generalizing before with
  | nil => simp [dispatchAll]
  | cons e shown ih =>
    have hsame : before.push e ++ shown = before ++ (e :: shown) := by
      apply Array.ext'
      simp
    exact (ih (before.push e)).trans (congrArg some hsame)

variable {shown more} in
/-- So what they were shown can be told from what they keep. -/
theorem dispatchAll_some_inj {before : Array Event}
    (h : dispatchAll (some before) shown = dispatchAll (some before) more) : shown = more := by
  rw [dispatchAll_some, dispatchAll_some, Option.some.injEq] at h
  simpa using congrArg Array.toList h

end Listeners

/-! ## Additions to a trace -/

/-- What may be added to a trace. -/
structure Allowance where
  request : Request → Prop
  event : Event → Prop
  note : Note → Prop

/-- The trace of the second state is that of the first one with allowed additions. -/
structure ExecState.Adds (allowed : Allowance) (s t : ExecState) : Prop where
  requests : ∃ asked, t.requests = s.requests ++ asked ∧ ∀ r ∈ asked, allowed.request r
  events : ∃ shown, t.events = s.events.dispatchAll shown ∧ ∀ e ∈ shown, allowed.event e
  notes : ∃ noted, t.notes = s.notes ++ noted ∧ ∀ n ∈ noted, allowed.note n

section Arrays

variable {α : Type} {P : α → Prop} {a b c : Array α}

theorem adds_none (h : b = a) : ∃ added, b = a ++ added ∧ ∀ x ∈ added, P x :=
  ⟨#[], by rw [h, Array.append_empty], fun x hx => absurd hx (Array.not_mem_empty x)⟩

theorem adds_push {x : α} (hx : P x) : ∃ added, a.push x = a ++ added ∧ ∀ y ∈ added, P y := by
  refine ⟨#[x], Array.push_eq_append, fun y hy => ?_⟩
  rw [List.mem_toArray, List.mem_singleton] at hy
  exact hy ▸ hx

theorem adds_trans (hab : ∃ added, b = a ++ added ∧ ∀ x ∈ added, P x)
    (hbc : ∃ added, c = b ++ added ∧ ∀ x ∈ added, P x) :
    ∃ added, c = a ++ added ∧ ∀ x ∈ added, P x := by
  obtain ⟨first, hb, hfirst⟩ := hab
  obtain ⟨second, hc, hsecond⟩ := hbc
  refine ⟨first ++ second, by rw [hc, hb, Array.append_assoc], fun x hx => ?_⟩
  rcases Array.mem_append.mp hx with hx | hx
  · exact hfirst x hx
  · exact hsecond x hx

end Arrays

section Listeners

variable {P : Event → Prop} {a b c : Listeners}

theorem shows_none (h : b = a) : ∃ shown, b = a.dispatchAll shown ∧ ∀ e ∈ shown, P e :=
  ⟨[], h, fun _ he => absurd he List.not_mem_nil⟩

theorem shows_dispatch {e : Event} (he : P e) :
    ∃ shown, a.dispatch e = a.dispatchAll shown ∧ ∀ e ∈ shown, P e :=
  ⟨[e], rfl, List.forall_mem_singleton.mpr he⟩

theorem shows_trans (hab : ∃ shown, b = a.dispatchAll shown ∧ ∀ e ∈ shown, P e)
    (hbc : ∃ shown, c = b.dispatchAll shown ∧ ∀ e ∈ shown, P e) :
    ∃ shown, c = a.dispatchAll shown ∧ ∀ e ∈ shown, P e := by
  obtain ⟨first, hb, hfirst⟩ := hab
  obtain ⟨second, hc, hsecond⟩ := hbc
  exact ⟨first ++ second, by rw [hc, hb, Listeners.dispatchAll_append],
    List.forall_mem_append.mpr ⟨hfirst, hsecond⟩⟩

end Listeners

variable {allowed : Allowance}

/-- Nothing is added. -/
theorem ExecState.Adds.none {s t : ExecState} (hrequests : t.requests = s.requests)
    (hevents : t.events = s.events) (hnotes : t.notes = s.notes) : s.Adds allowed t :=
  ⟨adds_none hrequests, shows_none hevents, adds_none hnotes⟩

/-- All that the action adds to the trace is allowed. -/
def Within {α : Type} (allowed : Allowance) (m : Exec α) : Prop :=
  ∀ s a t, m s = .ok a t → s.Adds allowed t

namespace Within

variable {α β : Type}

/-- An action that adds nothing. -/
theorem quiet {m : Exec α} (h : ∀ s a t, m s = .ok a t →
    t.requests = s.requests ∧ t.events = s.events ∧ t.notes = s.notes) : Within allowed m := by
  intro s a t hm
  obtain ⟨hrequests, hevents, hnotes⟩ := h s a t hm
  exact .none hrequests hevents hnotes

theorem pure (a : α) : Within allowed (pure a) := by
  refine quiet fun s b t h => ?_
  rw [(pure_eq_ok.mp h).2]
  exact ⟨rfl, rfl, rfl⟩

theorem throw (fault : Fault) : Within allowed (throw fault : Exec α) :=
  fun _ _ _ h => nomatch h

theorem get : Within allowed (get : Exec ExecState) := by
  refine quiet fun s b t h => ?_
  rw [(get_eq_ok.mp h).2]
  exact ⟨rfl, rfl, rfl⟩

theorem bind {m : Exec α} {f : α → Exec β} (hm : Within allowed m)
    (hf : ∀ a, Within allowed (f a)) : Within allowed (m >>= f) := by
  intro s b u h
  obtain ⟨a, t, ha, hb⟩ := bind_eq_ok.mp h
  have hfirst := hm s a t ha
  have hsecond := hf a t b u hb
  exact ⟨adds_trans hfirst.requests hsecond.requests, shows_trans hfirst.events hsecond.events,
    adds_trans hfirst.notes hsecond.notes⟩

end Within

namespace Exec

theorem within_note {n : Note} (h : allowed.note n) : Within allowed (note n) := by
  intro s a t hnote
  obtain rfl := modify_eq_ok.mp hnote
  exact ⟨adds_none rfl, shows_none rfl, adds_push h⟩

/-- Only the outermost run shows an event. -/
theorem within_emit {depth : Nat} {e : Event} (h : depth = 0 → allowed.event e) :
    Within allowed (emit depth e) := by
  intro s a t hemit
  obtain rfl := modify_eq_ok.mp hemit
  split
  · next hdepth => exact ⟨adds_none rfl, shows_dispatch (h hdepth), adds_none rfl⟩
  · exact .none rfl rfl rfl

theorem within_setTooDeep (b : Bool) : Within allowed (setTooDeep b) := by
  refine .quiet fun s a t h => ?_
  obtain rfl := modify_eq_ok.mp h
  exact ⟨rfl, rfl, rfl⟩

theorem within_sample {request : Request} (sampler : Sampler) (h : allowed.request request) :
    Within allowed (sample sampler request) := by
  intro s a t hsample
  obtain ⟨-, rfl⟩ := modifyGet_eq_ok.mp hsample
  exact ⟨adds_push h, shows_none rfl, adds_none rfl⟩

end Exec

/-! ## Instructions -/

/-- A nested run has one of the depths that are allowed. -/
def Note.IsShallow : Note → Prop
  | .rerun _ depth _ => 1 ≤ depth ∧ depth ≤ maxDerivativeDepth
  | _ => True

/-- What the program can ask for and what its runs note is allowed. -/
structure Allowance.Covers (allowed : Allowance) (p : Program) : Prop where
  request : ∀ ins ∈ p.instructions, ∀ image, ins.texture = some image →
    ∀ request : Request, request.unit = image.unit → request.target = image.target →
      allowed.request request
  note : ∀ n : Note, n.IsShallow → allowed.note n

namespace Job

variable {job : Job} {ins : Instruction} {derive : Deriver} {depth : Nat}

theorem within_source (n : Nat) : Within allowed (source ins n) := by
  unfold source
  cases ins.sources[n]? with
  | some s => exact .pure s
  | none => exact .throw _

theorem within_vector (n : Nat) : Within allowed (job.vector ins n) :=
  .bind (within_source n) fun _ => .bind .get fun _ => .pure _

theorem within_scalar (n : Nat) : Within allowed (job.scalar ins n) :=
  .bind (within_vector n) fun _ => .pure _

theorem within_fragmentLambda (unit : TextureUnit) : Within allowed (job.fragmentLambda unit) := by
  unfold fragmentLambda
  cases job.span.fragments[job.fragment]? with
  | some f => exact .pure _
  | none => exact .throw _

theorem within_request (image : TextureImage) (mode : LookupMode) :
    Within allowed (job.request ins image mode) := by
  refine .bind (within_vector 0) fun _ => .bind (within_fragmentLambda _) fun _ => ?_
  cases mode with
  | plain => exact .pure _
  | biased => exact .pure _
  | projective => exact .pure _
  | derivatives =>
    exact .bind (within_vector 1) fun _ => .bind (within_vector 2) fun _ =>
      .bind .get fun _ => .pure _

/-- A request is for the texture image of its instruction. -/
theorem image_of_request {image : TextureImage} {mode : LookupMode} {s t : ExecState}
    {asked : Request} (h : job.request ins image mode s = .ok asked t) :
    asked.unit = image.unit ∧ asked.target = image.target := by
  unfold request at h
  obtain ⟨coordinates, u, -, h⟩ := bind_eq_ok.mp h
  obtain ⟨lambda, v, -, h⟩ := bind_eq_ok.mp h
  cases mode with
  | plain =>
    obtain ⟨rfl, -⟩ := pure_eq_ok.mp h
    exact ⟨rfl, rfl⟩
  | biased =>
    obtain ⟨rfl, -⟩ := pure_eq_ok.mp h
    exact ⟨rfl, rfl⟩
  | projective =>
    obtain ⟨rfl, -⟩ := pure_eq_ok.mp h
    exact ⟨rfl, rfl⟩
  | derivatives =>
    obtain ⟨ddx, w, -, h⟩ := bind_eq_ok.mp h
    obtain ⟨ddy, x, -, h⟩ := bind_eq_ok.mp h
    obtain ⟨y, z, -, h⟩ := bind_eq_ok.mp h
    obtain ⟨rfl, -⟩ := pure_eq_ok.mp h
    exact ⟨rfl, rfl⟩

theorem within_lookup (hcovers : allowed.Covers job.program) (hins : ins ∈ job.program.instructions)
    (mode : LookupMode) : Within allowed (job.lookup ins mode) := by
  unfold lookup
  cases himage : ins.texture with
  | none => exact .throw _
  | some image =>
    intro s a t h
    obtain ⟨asked, u, hrequest, hsample⟩ := bind_eq_ok.mp h
    obtain ⟨hunit, htarget⟩ := image_of_request hrequest
    -- the request is known only from the state that it was made in
    have hallowed := hcovers.request ins hins image himage asked hunit htarget
    have hboth : Within allowed (do
        let _ ← job.request ins image mode
        Exec.sample job.sampler asked) :=
      .bind (within_request image mode) fun _ => Exec.within_sample _ hallowed
    exact hboth s a t (bind_eq_ok.mpr ⟨asked, u, hrequest, hsample⟩)

theorem within_compute (hcovers : allowed.Covers job.program)
    (hins : ins ∈ job.program.instructions)
    (hderive : ∀ pc s axis, Within allowed (derive pc s axis)) (pc : Nat) (c : Computation) :
    Within allowed (job.compute derive pc ins c) := by
  cases c with
  | constant value => exact .pure _
  | vector1 f => exact .bind (within_vector 0) fun _ => .pure _
  | vector2 f => exact .bind (within_vector 0) fun _ => .bind (within_vector 1) fun _ => .pure _
  | vector3 f =>
    exact .bind (within_vector 0) fun _ => .bind (within_vector 1) fun _ =>
      .bind (within_vector 2) fun _ => .pure _
  | scalar1 f => exact .bind (within_scalar 0) fun _ => .pure _
  | scalar2 f => exact .bind (within_scalar 0) fun _ => .bind (within_scalar 1) fun _ => .pure _
  | derivative axis => exact .bind (within_source 0) fun s => hderive pc s axis
  | lookup mode => exact within_lookup hcovers hins mode

theorem within_store (hevents : depth = 0 → ∀ e, allowed.event e) (ins : Instruction)
    (value : Vec4) : Within allowed (store depth ins value) := by
  intro s a t h
  obtain ⟨u, v, hget, h⟩ := bind_eq_ok.mp h
  obtain ⟨rfl, rfl⟩ := get_eq_ok.mp hget
  generalize s.machine.store ins value = stored at h
  obtain ⟨machine, written⟩ := stored
  obtain ⟨⟨⟩, w, hset, h⟩ := bind_eq_ok.mp h
  obtain rfl := set_eq_ok.mp hset
  have hadds : { s with machine }.Adds allowed t := by
    cases written with
    | some written => exact Exec.within_emit (fun hdepth => hevents hdepth _) _ a t h
    | none => exact Within.pure _ _ a t h
  -- the machine is not part of the trace
  exact ⟨hadds.requests, hadds.events, hadds.notes⟩

theorem within_step (hcovers : allowed.Covers job.program) (hins : ins ∈ job.program.instructions)
    (hevents : depth = 0 → ∀ e, allowed.event e)
    (hderive : ∀ pc s axis, Within allowed (derive pc s axis)) (pc : Nat) :
    Within allowed (job.step depth derive pc ins) := by
  unfold step
  cases ins.opcode.action with
  | compute c =>
    exact .bind (within_compute hcovers hins hderive pc c) fun _ =>
      .bind (within_store hevents ins _) fun _ => .pure _
  | kill => exact .bind .get fun _ => .pure _
  | halt => exact .pure _

theorem within_discard (hcovers : allowed.Covers job.program)
    (hevents : depth = 0 → ∀ e, allowed.event e) (pc : Nat) :
    Within allowed (job.discard depth pc) := by
  have hrest : Within allowed (do Exec.emit depth (.kill pc); return Outcome.killed) :=
    .bind (Exec.within_emit fun hdepth => hevents hdepth _) fun _ => .pure _
  unfold discard
  dsimp only
  split
  · exact .bind (Exec.within_note (hcovers.note _ trivial)) fun _ => hrest
  · exact hrest

/-! ## Runs -/

theorem within_runFrom (hcovers : allowed.Covers job.program)
    (hevents : depth = 0 → ∀ e, allowed.event e)
    (hderive : ∀ pc s axis, Within allowed (derive pc s axis)) {instructions : List Instruction}
    (hinside : ∀ ins ∈ instructions, ins ∈ job.program.instructions) (pc : Nat) :
    Within allowed (job.runFrom depth derive pc instructions) := by
  induction instructions generalizing pc with
  | nil => exact .pure _
  | cons ins rest ih =>
    refine .bind (Exec.within_emit fun hdepth => hevents hdepth _) fun _ =>
      .bind (within_step hcovers (hinside ins List.mem_cons_self) hevents hderive pc)
        fun flow => ?_
    cases flow with
    | halt => exact .pure _
    | kill => exact within_discard hcovers hevents pc
    | next =>
      refine .bind .get fun s => ?_
      split
      · exact .pure _
      · exact ih (fun ins hins => hinside ins (List.mem_cons_of_mem _ hins)) (pc + 1)

theorem within_onMachine (other : Machine) {action : Exec Outcome} (h : Within allowed action) :
    Within allowed (onMachine other action) := by
  intro s a t hrun
  unfold onMachine at hrun
  cases haction : action { s with machine := other, tooDeep := false } with
  | error fault u => simp only [haction, reduceCtorEq] at hrun
  | ok outcome u =>
    simp only [haction, EStateM.Result.ok.injEq] at hrun
    -- the machine and the flag are put back, but the trace stays
    have hadds := h _ outcome u haction
    rw [← hrun.2]
    exact ⟨hadds.requests, hadds.events, hadds.notes⟩

theorem within_settle (hcovers : allowed.Covers job.program) (pc : Nat) (value : Vec4) :
    Within allowed (settle depth pc value) := by
  refine .bind .get fun s => ?_
  split
  · exact .bind (Exec.within_note (hcovers.note _ trivial)) fun _ =>
      .bind (Exec.within_setTooDeep _) fun _ => .pure _
  · exact .pure _

/-- A derivative shows no events.  With at most `maxDerivativeDepth` levels left, the nested run is
not deeper than that. -/
theorem within_derivative (hcovers : allowed.Covers job.program) {levels : Nat}
    (hlevels : levels ≤ maxDerivativeDepth) (pc : Nat) (s : Source) (axis : Axis) :
    Within allowed (job.derivative levels pc s axis) := by
  induction levels generalizing pc s axis with
  | zero =>
    unfold derivative
    cases s.register with
    | input i => exact .bind .get fun _ => .pure _
    | parameter i => exact .pure _
    | localParameter i => exact .pure _
    | temporary i => exact .bind (Exec.within_setTooDeep _) fun _ => .pure _
  | succ levels ih =>
    -- the depth is the number of levels that are used up, this one included
    have hdepth : 1 ≤ depthAt (levels + 1) + 1 ∧ depthAt (levels + 1) + 1 ≤ maxDerivativeDepth := by
      unfold depthAt
      omega
    have hnested : Within allowed (job.runFrom (depthAt (levels + 1) + 1) (job.derivative levels) 0
        (job.program.instructions.take pc)) :=
      within_runFrom hcovers (fun hzero => absurd hzero (Nat.succ_ne_zero _))
        (ih (Nat.le_of_succ_le hlevels)) (fun _ hins => List.mem_of_mem_take hins) 0
    unfold derivative
    cases s.register with
    | input i => exact .bind .get fun _ => .pure _
    | parameter i => exact .pure _
    | localParameter i => exact .pure _
    | temporary i =>
      refine .bind ?_ fun _ => within_settle hcovers _ _
      refine .bind (Exec.within_note (hcovers.note _ hdepth)) fun _ => .bind .get fun _ =>
        .bind (within_onMachine _ hnested) fun shadow => ?_
      cases shadow with
      | some shadow => exact .pure _
      | none => exact .bind (Exec.within_setTooDeep _) fun _ => .pure _

end Job

namespace Interpreter

variable {p : Program}

/-- A run of the beginning of a program adds only what is allowed to its trace. -/
theorem within_executeUntil (hcovers : allowed.Covers p) (hevents : ∀ e, allowed.event e)
    (sampler : Sampler) (span : Span) (fragment stop : Nat) :
    Within allowed (executeUntil p sampler span fragment stop) := by
  refine .bind (Exec.within_setTooDeep _) fun _ => .bind .get fun s => ?_
  exact Job.within_runFrom hcovers (fun _ => hevents)
    (Job.within_derivative hcovers (Nat.le_refl _)) (fun _ hins => List.mem_of_mem_take hins) 0

theorem within_load (span : Span) (fragment : Nat) : Within allowed (load p span fragment) := by
  unfold load
  cases span.fragments[fragment]? with
  | none => exact .throw _
  | some f =>
    refine .quiet fun s a t h => ?_
    obtain rfl := modify_eq_ok.mp h
    exact ⟨rfl, rfl, rfl⟩

theorem within_execute (hcovers : allowed.Covers p) (hevents : ∀ e, allowed.event e)
    (sampler : Sampler) (span : Span) (fragment : Nat) :
    Within allowed (execute p sampler span fragment) :=
  .bind (within_load span fragment) fun _ => within_executeUntil hcovers hevents sampler span _ _

end Interpreter

/-! ## Depths -/

/-- The notes that the action adds are shallow. -/
def Shallow {α : Type} (m : Exec α) : Prop :=
  ∀ s a t, m s = .ok a t → ∃ added, t.notes = s.notes ++ added ∧ ∀ n ∈ added, n.IsShallow

/-- No run that is nested in a run of the beginning of a program is deeper than allowed. -/
theorem Interpreter.shallow_executeUntil (p : Program) (sampler : Sampler) (span : Span)
    (fragment stop : Nat) : Shallow (executeUntil p sampler span fragment stop) := by
  intro s a t h
  have hcovers : Allowance.Covers ⟨fun _ => True, fun _ => True, Note.IsShallow⟩ p :=
    ⟨fun _ _ _ _ _ _ _ => trivial, fun _ h => h⟩
  exact (within_executeUntil hcovers (fun _ => trivial) sampler span fragment stop s a t h).notes

end FragmentAssembly

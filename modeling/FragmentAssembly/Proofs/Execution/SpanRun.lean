import FragmentAssembly.Proofs.Execution.Fragments
import FragmentAssembly.Proofs.Program.Usage

/-!
# Accounts of span runs

A span run takes its fragments one after the other.  What one step does to its fragment is said
once, and the counts of a run follow from it by induction on the fragments.
-/

namespace FragmentAssembly

/-! ## Spans that look the same to a fragment -/

namespace Job

section Congruence

variable (job : Job) {span' : Span} (hstep : ∀ axis, span'.step axis = job.span.step axis)
  (hfragment : span'.fragments[job.fragment]? = job.span.fragments[job.fragment]?)

include hfragment in
theorem lookup_congr (ins : Instruction) (mode : LookupMode) :
    ({ job with span := span' } : Job).lookup ins mode = job.lookup ins mode := by
  have hlambda : ∀ unit,
      ({ job with span := span' } : Job).fragmentLambda unit = job.fragmentLambda unit :=
    fun unit => by simp only [fragmentLambda, hfragment]
  have hrequest : ∀ image, ({ job with span := span' } : Job).request ins image mode =
      job.request ins image mode := fun image => by
    unfold request
    rw [hlambda]
    rfl
  unfold lookup
  simp only [hrequest]

include hfragment in
theorem step_congr (depth : Nat) (derive : Deriver) (pc : Nat) (ins : Instruction) :
    ({ job with span := span' } : Job).step depth derive pc ins = job.step depth derive pc ins := by
  have hcompute : ∀ c, ({ job with span := span' } : Job).compute derive pc ins c =
      job.compute derive pc ins c := fun c => by
    cases c with
    | lookup mode => exact lookup_congr job hfragment ins mode
    | constant | vector1 | vector2 | vector3 | scalar1 | scalar2 | derivative => rfl
  unfold step
  simp only [hcompute]

include hfragment in
theorem runFrom_congr (depth : Nat) (derive : Deriver) (pc : Nat)
    (instructions : List Instruction) :
    ({ job with span := span' } : Job).runFrom depth derive pc instructions =
      job.runFrom depth derive pc instructions := by
  induction instructions generalizing pc with
  | nil => rfl
  | cons ins rest ih =>
    unfold runFrom
    simp only [step_congr job hfragment, ih]
    rfl

include hstep in
theorem inputDerivative_congr (m : Machine) (i : InputIndex) (axis : Axis) :
    ({ job with span := span' } : Job).inputDerivative m i axis =
      job.inputDerivative m i axis := by
  simp only [inputDerivative, hstep]

include hstep hfragment in
theorem derivative_congr (levels : Nat) :
    ({ job with span := span' } : Job).derivative levels = job.derivative levels := by
  have hneighbour : ∀ m axis, ({ job with span := span' } : Job).neighbour m axis =
      job.neighbour m axis := fun m axis => by
    simp only [neighbour, inputDerivative_congr job hstep]
  induction levels with
  | zero =>
    funext pc s axis
    simp only [derivative, inputOperandDerivative, inputDerivative_congr job hstep]
  | succ levels ih =>
    funext pc s axis
    simp only [derivative, inputOperandDerivative, inputDerivative_congr job hstep, ih, difference,
      hneighbour, runFrom_congr job hfragment]

end Congruence

end Job

namespace Interpreter

variable {p : Program} {sampler : Sampler} {span span' : Span} {i : Nat}

/-- A run does not look at other fragments of the span, whatever the sampler. -/
theorem execute_congr (hstep : ∀ axis, span'.step axis = span.step axis)
    (hfragment : span'.fragments[i]? = span.fragments[i]?) :
    execute p sampler span' i = execute p sampler span i := by
  have hload : load p span' i = load p span i := by
    simp only [load, hfragment]
  have hrun : ∀ codes stop, (job p sampler span' i codes).run stop =
      (job p sampler span i codes).run stop := fun codes stop => by
    have hderive := Job.derivative_congr (job p sampler span i codes) hstep hfragment
      maxDerivativeDepth
    have hfrom := Job.runFrom_congr (job p sampler span i codes) hfragment 0
    unfold Job.run
    exact (hfrom _ _ _).trans (by rw [← hderive]; rfl)
  unfold execute executeUntil
  simp only [hload, hrun]

/-! ## One fragment -/

/-- What a span run does to fragment `i`: it is `f` in state `s` and `g` in state `t` behind its
turn.  The run on it is that in the span before all turns. -/
inductive Turn (p : Program) (sampler : Sampler) (span : Span) (i : Nat) :
    Fragment → ExecState → Fragment → ExecState → Prop where
  | skip {f : Fragment} {s : ExecState} (dead : f.live = false) : Turn p sampler span i f s f s
  | kill {f : Fragment} {s t : ExecState} (live : f.live = true)
    (run : execute p sampler span i s = .ok .killed t) :
    Turn p sampler span i f s { f with live := false } t
  | finish {f : Fragment} {s t : ExecState} (live : f.live = true)
    (run : execute p sampler span i s = .ok .complete t) :
    Turn p sampler span i f s
      { f with
        color := t.machine.outputs.get
          (if p.writesOutput OutputIndex.colh then OutputIndex.colh else OutputIndex.colr)
        depth := if p.writesOutput OutputIndex.depr then
          (t.machine.outputs.get OutputIndex.depr).z else f.depth } t

/-- What a span run does to a list of fragments, the first of which is number `i`. -/
inductive Turns (p : Program) (sampler : Sampler) (span : Span) :
    Nat → List Fragment → ExecState → List Fragment → ExecState → Prop where
  | nil {i : Nat} {s : ExecState} : Turns p sampler span i [] s [] s
  | cons {i : Nat} {f g : Fragment} {fs gs : List Fragment} {s u t : ExecState}
    (first : Turn p sampler span i f s g u) (rest : Turns p sampler span (i + 1) fs u gs t) :
    Turns p sampler span i (f :: fs) s (g :: gs) t

/-- The fragment was discarded in between. -/
def dies (f g : Fragment) : Bool :=
  f.live && !g.live

theorem turn_finish {f : Fragment} {s t : ExecState} {outcome : Outcome} (live : f.live = true)
    (run : execute p sampler span i s = .ok outcome t) :
    Turn p sampler span i f s (finish p t.machine f outcome) t ∧
      dies f (finish p t.machine f outcome) = decide (outcome = .killed) := by
  cases outcome with
  | killed =>
    refine ⟨.kill live run, ?_⟩
    rw [dies, live]
    rfl
  | complete =>
    have hcolor : color p t.machine = t.machine.outputs.get
        (if p.writesOutput OutputIndex.colh then OutputIndex.colh else OutputIndex.colr) := by
      rw [color, apply_ite t.machine.outputs.get]
    refine ⟨?_, ?_⟩
    · rw [finish, hcolor]
      exact .finish live run
    · rw [dies, finish, live]
      rfl

section Turn

variable {f g : Fragment} {s t : ExecState}

theorem Turn.inputs (h : Turn p sampler span i f s g t) : g.inputs = f.inputs := by
  cases h <;> rfl

theorem Turn.lambda (h : Turn p sampler span i f s g t) : g.lambda = f.lambda := by
  cases h <;> rfl

/-- No fragment comes to life. -/
theorem Turn.live (h : Turn p sampler span i f s g t) (hg : g.live = true) : f.live = true := by
  cases h with
  | skip => exact hg
  | kill live => exact live
  | finish live => exact live

theorem Turn.eq_of_dead (h : Turn p sampler span i f s g t) (hf : f.live = false) :
    g = f ∧ t = s := by
  cases h with
  | skip => exact ⟨rfl, rfl⟩
  | kill live | finish live => rw [hf] at live; cases live

end Turn

/-! ## All fragments -/

section Turns

variable {fs gs : List Fragment} {s t : ExecState}

theorem Turns.length (h : Turns p sampler span i fs s gs t) : gs.length = fs.length := by
  induction h with
  | nil => rfl
  | cons _ _ ih => rw [List.length_cons, List.length_cons, ih]

/-- Every fragment has its turn, from the state that the one before it has left. -/
theorem Turns.exists_states (h : Turns p sampler span i fs s gs t) :
    ∃ states : Nat → ExecState, states i = s ∧ ∀ k f g, fs[k]? = some f → gs[k]? = some g →
      Turn p sampler span (i + k) f (states (i + k)) g (states (i + k + 1)) := by
  induction h with
  | nil => exact ⟨fun _ => _, rfl, fun k f g hf => by cases hf⟩
  | @cons i f g fs gs s u t first _ ih =>
    obtain ⟨states, rfl, hturn⟩ := ih
    refine ⟨fun n => if n = i then s else states n, if_pos rfl, fun k f' g' hf hg => ?_⟩
    dsimp only
    rw [if_neg (show i + k + 1 ≠ i by omega)]
    cases k with
    | zero =>
      cases hf
      cases hg
      rw [if_pos (Nat.add_zero i)]
      exact first
    | succ k =>
      have hplace : i + (k + 1) = i + 1 + k := by omega
      rw [if_neg (show i + (k + 1) ≠ i by omega), hplace]
      exact hturn k f' g' hf hg

/-- The live fragments are those that stay alive and those that are discarded. -/
theorem Turns.countP_live (h : Turns p sampler span i fs s gs t) :
    fs.countP Fragment.live =
      gs.countP Fragment.live + (fs.zip gs).countP fun pair => dies pair.1 pair.2 := by
  induction h with
  | nil => rfl
  | @cons i f g fs gs s u t first _ ih =>
    rw [List.zip_cons_cons, List.countP_cons, List.countP_cons, List.countP_cons, ih]
    dsimp only
    have hone : (if f.live then 1 else 0) =
        (if g.live then 1 else 0) + if dies f g then 1 else 0 := by
      rw [dies]
      cases hg : g.live with
      | true => rw [first.live hg]; rfl
      | false => cases f.live <;> rfl
    omega

end Turns

/-- The fragments behind the first ones have their turns one after the other. -/
theorem runFragments_turns (hwell : p.WellFormed) (sampler : Sampler) (span : Span)
    (done rest : List Fragment) (hrest : ∀ k, span.fragments[done.length + k]? = rest[k]?)
    (s : ExecState) :
    ∃ rest' t,
      runFragments p sampler (List.range' done.length rest.length)
          { span with fragments := done ++ rest } s =
        .ok ((rest.zip rest').countP fun pair => dies pair.1 pair.2,
          { span with fragments := done ++ rest' }) t ∧
      Turns p sampler span done.length rest s rest' t := by
  -- the induction is on the fragments that are left, and those behind their turns are carried along
  induction rest generalizing done s with
  | nil => exact ⟨[], s, rfl, .nil⟩
  | cons f rest ih =>
    have hhere : (done ++ f :: rest)[done.length]? = some f := by
      rw [List.getElem?_append_right (Nat.le_refl _), Nat.sub_self]
      rfl
    have hrange : List.range' done.length (f :: rest).length =
        done.length :: List.range' (done.length + 1) rest.length := by
      rw [List.length_cons, List.range'_succ]
    -- behind its turn the fragment belongs to the first ones
    have hnext : ∀ (g : Fragment) (u : ExecState), ∃ rest' t,
        runFragments p sampler (List.range' (done.length + 1) rest.length)
            { span with fragments := done ++ g :: rest } u =
          .ok ((rest.zip rest').countP fun pair => dies pair.1 pair.2,
            { span with fragments := done ++ g :: rest' }) t ∧
        Turns p sampler span (done.length + 1) rest u rest' t := fun g u => by
      have hdone : (done ++ [g]).length = done.length + 1 := List.length_append
      have hbehind : ∀ k, span.fragments[(done ++ [g]).length + k]? = rest[k]? := fun k => by
        rw [hdone, Nat.add_assoc, hrest, Nat.add_comm 1 k]
        rfl
      have hturns := ih (done ++ [g]) hbehind u
      rw [hdone] at hturns
      simpa only [List.append_assoc, List.singleton_append] using hturns
    rw [hrange]
    cases hlive : f.live with
    | false =>
      obtain ⟨rest', t, hrun, hturns⟩ := hnext f s
      refine ⟨f :: rest', t, ?_, .cons (.skip hlive) hturns⟩
      rw [runFragments_dead hhere hlive, hrun, List.zip_cons_cons, List.countP_cons, dies, hlive]
      rfl
    | true =>
      have hsame : ({ span with fragments := done ++ f :: rest } : Span).fragments[done.length]? =
          span.fragments[done.length]? := hhere.trans (hrest 0).symm
      have hexecute : execute p sampler { span with fragments := done ++ f :: rest } done.length =
          execute p sampler span done.length :=
        execute_congr (fun axis => by cases axis <;> rfl) hsame
      have hlt : done.length < span.size := (List.getElem?_eq_some_iff.mp (hrest 0)).1
      obtain ⟨outcome, u, hu⟩ := total_execute hwell hlt s
      obtain ⟨hturn, hdies⟩ := turn_finish hlive hu
      obtain ⟨rest', t, hrun, hturns⟩ := hnext (finish p u.machine f outcome) u
      refine ⟨finish p u.machine f outcome :: rest', t, ?_, .cons hturn hturns⟩
      have hset : (done ++ f :: rest).set done.length (finish p u.machine f outcome) =
          done ++ finish p u.machine f outcome :: rest := by
        rw [List.set_append_right _ _ (Nat.le_refl _), Nat.sub_self]
        rfl
      rw [← hset] at hrun
      rw [← hexecute] at hu
      rw [runFragments_live hhere hlive hu hrun, List.zip_cons_cons, List.countP_cons, hdies]
      cases outcome <;> rfl

/-- A span run gives every fragment its turn, and counts those that are discarded. -/
theorem runSpan_turns (hwell : p.WellFormed) (sampler : Sampler) (span : Span) (s : ExecState) :
    ∃ killed after t behind, runSpan p sampler span s = .ok (killed, after) t ∧
      after.stepX = span.stepX ∧ after.stepY = span.stepY ∧
      killed = (span.fragments.zip after.fragments).countP (fun pair => dies pair.1 pair.2) ∧
      Turns p sampler span 0 span.fragments s after.fragments behind ∧
      t = { behind with notes := behind.notes.push (.spanDone span.size killed) } := by
  obtain ⟨fragments, behind, hrun, hturns⟩ :=
    runFragments_turns hwell sampler span [] span.fragments
      (fun k => by rw [List.length_nil, Nat.zero_add]) s
  let killed := (span.fragments.zip fragments).countP fun pair => dies pair.1 pair.2
  let after : Span := { span with fragments }
  have hsize : after.size = span.size := hturns.length
  refine ⟨killed, after, _, behind, ?_, rfl, rfl, rfl, hturns, rfl⟩
  unfold runSpan
  rw [bind_eq_ok]
  refine ⟨(killed, after), behind, ?_, ?_⟩
  · rw [List.range_eq_range']
    exact hrun
  · rw [← hsize]
    rfl

/-! ## Running again -/

/-- A fragment that was run is left as it is by another run. -/
theorem settled_settled (hwell : p.WellFormed) (hmarks : p.MarksInputs)
    (hmemoryless : sampler.IsMemoryless) (span : Span) (f : Fragment) :
    settled p sampler span (settled p sampler span f) = settled p sampler span f := by
  cases hlive : f.live with
  | false =>
    have hdead : settled p sampler span f = f := by rw [settled, hlive, if_neg Bool.false_ne_true]
    rw [hdead, hdead]
  | true =>
    let single (g : Fragment) : Span := { span with fragments := [g] }
    obtain ⟨outcome, t, ht⟩ : ∃ outcome t, execute p sampler (single f) 0 {} = .ok outcome t :=
      total_execute hwell Nat.one_pos {}
    have hfirst : settled p sampler span f = finish p t.machine f outcome := by
      rw [settled, hlive, if_pos rfl, alone, ht]
    rw [hfirst]
    cases outcome with
    | killed => rfl
    | complete =>
      -- both runs are on the same inputs
      have hsteps : ∀ axis, (single (finish p t.machine f .complete)).step axis =
          (single f).step axis := fun axis => by cases axis <;> rfl
      have hf : (single f).fragments[0]? = some f := rfl
      have hg : (single (finish p t.machine f .complete)).fragments[0]? =
          some (finish p t.machine f .complete) := rfl
      obtain ⟨outcome, u, t', hu, ht', halongside⟩ :=
        execute_alongside hwell hmarks hmemoryless hsteps hf hg rfl rfl {} {}
      rw [ht] at hu
      cases hu
      have hlive' : (finish p t.machine f .complete).live = true := hlive
      rw [settled, hlive', if_pos rfl, alone, ht']
      dsimp only
      rw [finish_alongside halongside]
      unfold finish
      cases p.writesOutput .depr <;> rfl

/-- A second span run kills nothing and changes nothing. -/
theorem runSpan_again (hwell : p.WellFormed) (hmarks : p.MarksInputs)
    (hmemoryless : sampler.IsMemoryless) {span after : Span} {s t : ExecState} {killed : Nat}
    (hrun : runSpan p sampler span s = .ok (killed, after) t) (s' : ExecState) :
    ∃ t', runSpan p sampler after s' = .ok (0, after) t' := by
  obtain ⟨_, _, hfirst, -⟩ := runSpan_settled hwell hmarks hmemoryless span s
  rw [hrun] at hfirst
  cases hfirst
  let after : Span := { span with fragments := span.fragments.map (settled p sampler span) }
  obtain ⟨killed', t', hsecond, -⟩ := runSpan_settled hwell hmarks hmemoryless after s'
  have hsame : after.fragments.map (settled p sampler after) = after.fragments := by
    rw [List.map_map]
    refine List.map_congr_left fun f _ => ?_
    rw [Function.comp_apply, settled_congr fun axis => by cases axis <;> rfl]
    exact settled_settled hwell hmarks hmemoryless span f
  rw [hsame] at hsecond
  -- as many fragments are alive as before
  obtain ⟨_, _, _, _, hturned, -, -, hcount, hturns, -⟩ :=
    runSpan_turns hwell sampler after s'
  rw [hsecond] at hturned
  cases hturned
  have hlive : after.fragments.countP Fragment.live = after.fragments.countP Fragment.live +
      (after.fragments.zip after.fragments).countP fun pair => dies pair.1 pair.2 :=
    hturns.countP_live
  obtain rfl : killed' = 0 := by
    rw [← hcount] at hlive
    omega
  exact ⟨t', hsecond⟩

end Interpreter

/-- A span run of a compiled program accounts for every fragment.  It returns how many were
discarded, and the others stay alive.  The states are those between the runs on the fragments. -/
theorem runSpan_accounts {source : String} {p q : Program} (hcompile : compile source = .ok p)
    (hupdates : p.Updates q) (sampler : Sampler) (span : Span) (s : ExecState) :
    ∃ killed after t, Interpreter.runSpan q sampler span s = .ok (killed, after) t ∧
      killed = (span.fragments.zip after.fragments).countP (fun pair =>
        pair.1.live && !pair.2.live) ∧
      span.liveCount = after.liveCount + killed ∧
      after.stepX = span.stepX ∧ after.stepY = span.stepY ∧ after.size = span.size ∧
      (∃ states : Nat → ExecState, states 0 = s ∧
        ∀ i f g, span.fragments[i]? = some f → after.fragments[i]? = some g →
          g.inputs = f.inputs ∧ g.lambda = f.lambda ∧ (g.live = true → f.live = true) ∧
          (f.live = false → g = f ∧ states (i + 1) = states i) ∧
          (f.live = true → ∃ outcome,
            Interpreter.execute q sampler span i (states i) = .ok outcome (states (i + 1)) ∧
            (outcome = .killed → g = { f with live := false }) ∧
            (outcome = .complete →
              let outputs := (states (i + 1)).machine.outputs
              g = { f with
                color := outputs.get
                  (if q.writesOutput OutputIndex.colh then OutputIndex.colh else OutputIndex.colr)
                depth := if q.writesOutput OutputIndex.depr then
                  (outputs.get OutputIndex.depr).z else f.depth }))) ∧
      (∀ o : OutputIndex, q.writesOutput o = true ↔
        ∃ ins ∈ q.instructions, ins.WritesOutput o.val) ∧
      (sampler.IsMemoryless →
        ∀ s', ∃ t', Interpreter.runSpan q sampler after s' = .ok (0, after) t') := by
  have hretuned := Program.retuned_of_updates hupdates
  have hwell := (wellFormed_of_compile hcompile).retuned hretuned
  have hsummary := (isSummarized_of_compile hcompile).retuned hretuned
  obtain ⟨killed, after, t, behind, hrun, hx, hy, hkilled, hturns, -⟩ :=
    Interpreter.runSpan_turns hwell sampler span s
  refine ⟨killed, after, t, hrun, hkilled, ?_, hx, hy, hturns.length, ?_,
    fun o => hsummary.outputsWritten o.val, fun hmemoryless s' =>
      Interpreter.runSpan_again hwell hsummary.marksInputs hmemoryless hrun s'⟩
  · rw [Span.liveCount, Span.liveCount, hkilled]
    exact hturns.countP_live
  · -- the states between the turns are those of the chain of turns
    obtain ⟨states, hstart, hturn⟩ := hturns.exists_states
    refine ⟨states, hstart, fun i f g hf hg => ?_⟩
    have hhere := hturn i f g hf hg
    rw [Nat.zero_add] at hhere
    refine ⟨hhere.inputs, hhere.lambda, hhere.live, hhere.eq_of_dead, fun hlive => ?_⟩
    generalize states i = before at hhere ⊢
    generalize states (i + 1) = behind at hhere ⊢
    cases hhere with
    | skip dead => exact absurd (hlive.symm.trans dead) (by decide)
    | kill _ run => exact ⟨.killed, run, fun _ => rfl, nofun⟩
    | finish _ run => exact ⟨.complete, run, nofun, fun _ => rfl⟩

/-- Discards fragments whose first color begins with a negative number. -/
def positiveText : String :=
  "!!FP1.0 MOVC RC.x, f[COL0].x; KIL LT.x; MOV o[COLR], f[COL0]; MOV o[DEPR].z, 0.25; END"

/-- A fragment that is kept, one that is discarded and one that was discarded before. -/
def threeFragments : Span where
  fragments := [{ inputs := Vector.replicate _ (Quad.replicate .one) },
    { inputs := Vector.replicate _ (Quad.replicate Binary32.one.neg) }, { live := false }]

/-- How many of the three fragments a program discards. -/
def discardedOf (p : Program) : Option Nat :=
  match Interpreter.runSpan p (.solid Quad.zero) threeFragments {} with
  | .ok (killed, _) _ => some killed
  | .error _ _ => none

theorem runSpan_accounts_positive :
    ∃ p, compile positiveText = .ok p ∧ p.Updates p ∧
      ∃ after t t', Interpreter.runSpan p (.solid Quad.zero) threeFragments {} =
          .ok (1, after) t ∧
        threeFragments.liveCount = after.liveCount + 1 ∧
        Interpreter.runSpan p (.solid Quad.zero) after t = .ok (0, after) t' := by
  obtain ⟨p, hp, hone⟩ : ∃ p, compile positiveText = .ok p ∧ discardedOf p = some 1 :=
    exists_of_decide (by decide +kernel)
  obtain ⟨killed, after, t, hrun, -, hlive, -, -, -, -, -, hagain⟩ :=
    runSpan_accounts hp .refl (.solid Quad.zero) threeFragments {}
  obtain ⟨t', hrun'⟩ := hagain (Sampler.isMemoryless_solid Quad.zero) t
  rw [discardedOf, hrun] at hone
  cases hone
  exact ⟨p, hp, .refl, after, t, t', hrun, hlive, hrun'⟩

end FragmentAssembly

import FragmentAssembly.Proofs.Execution.Isolation

/-!
# Independent fragments

Fragments that look the same to a program are run alike, whatever the machine holds and whatever
else is in their spans.  So a span run gives every live fragment what a run on it alone gives, and
makes the lookups of these runs one after the other.
-/

namespace FragmentAssembly

namespace Interpreter

variable {p q : Program} {sampler : Sampler} {span span' : Span}

/-! ## Runs on single fragments -/

/-- Runs of a compiled program on fragments that it cannot tell apart go alongside each other. -/
theorem execute_peers (hwell : p.WellFormed) {sampler' : Sampler} {i i' : Nat} {f f' : Fragment}
    (hf : span.fragments[i]? = some f) (hf' : span'.fragments[i']? = some f') {s s' : ExecState}
    (hpeers : (job p sampler span i (Quad.replicate .eq)).Peers
      (job p sampler' span' i' (Quad.replicate .eq)) s s')
    (hinputs : ∀ n, p.readsInput n = true → f'.inputs.get n = f.inputs.get n) :
    ∃ outcome t t', execute p sampler span i s = .ok outcome t ∧
      execute p sampler' span' i' s' = .ok outcome t' ∧ ExecState.Alongside p s s' t t' := by
  -- the marked inputs are loaded, and everything else is reset
  have hloaded : ExecState.Alongside p s s' (loaded p f s) (loaded p f' s') := by
    refine ⟨⟨rfl, fun n hn => ?_, rfl, rfl⟩, rfl, ⟨#[], ?_, ?_⟩, ⟨[], rfl, rfl⟩⟩
    · simp only [loaded, Machine.load, get_ofFn, hn, if_true, hinputs]
    all_goals exact (Array.append_empty).symm
  obtain ⟨outcome, t, ht⟩ : ∃ outcome t, execute p sampler span i s = .ok outcome t :=
    total_execute hwell (List.getElem?_eq_some_iff.mp hf).1 s
  have hrun := ht
  rw [execute_run hf] at hrun
  obtain ⟨t', ht', halongside⟩ := Job.run_alongside hpeers hloaded hrun
  refine ⟨outcome, t, t', ht, ?_, halongside⟩
  rw [execute_run hf']
  exact ht'

/-- Runs of a compiled program on fragments that look the same to it go alongside each other. -/
theorem execute_alongside (hwell : p.WellFormed) (hmarks : p.MarksInputs)
    (hmemoryless : sampler.IsMemoryless) (hstep : ∀ axis, span'.step axis = span.step axis)
    {i i' : Nat} {f f' : Fragment} (hf : span.fragments[i]? = some f)
    (hf' : span'.fragments[i']? = some f') (hinputs : f'.inputs = f.inputs)
    (hlambda : f'.lambda = f.lambda) (s s' : ExecState) :
    ∃ outcome t t', execute p sampler span i s = .ok outcome t ∧
      execute p sampler span' i' s' = .ok outcome t' ∧ ExecState.Alongside p s s' t t' := by
  have hpeers : (job p sampler span i (Quad.replicate .eq)).Peers
      (job p sampler span' i' (Quad.replicate .eq)) s s' :=
    ⟨rfl, hmarks, fun axis n _ => congrArg (·.get n) (hstep axis),
      ⟨f, f', hf, hf', fun _ _ image _ => congrArg (·.get image.unit) hlambda⟩, rfl,
      fun _ _ => hmemoryless.answer _ _ _, fun _ _ => hmemoryless.imageSize _ _ _⟩
  exact execute_peers hwell hf hf' hpeers fun n _ => congrArg (·.get n) hinputs

/-- The fragment after a run on it alone, in a span of its own and from a fresh machine, with the
lookups of this run. -/
def alone (p : Program) (sampler : Sampler) (span : Span) (f : Fragment) :
    Fragment × List Request :=
  match execute p sampler { span with fragments := [f] } 0 {} with
  | .ok outcome t => (finish p t.machine f outcome, t.requests.toList)
  | .error _ t => (f, t.requests.toList)

/-- A fragment after a span run. -/
def settled (p : Program) (sampler : Sampler) (span : Span) (f : Fragment) : Fragment :=
  if f.live then (alone p sampler span f).1 else f

/-- What a span run asks for a fragment. -/
def asked (p : Program) (sampler : Sampler) (span : Span) (f : Fragment) : List Request :=
  if f.live then (alone p sampler span f).2 else []

theorem finish_alongside {s₀ t₀ s t : ExecState} (h : ExecState.Alongside p s₀ t₀ s t)
    (f : Fragment) (outcome : Outcome) :
    finish p t.machine f outcome = finish p s.machine f outcome := by
  unfold finish color
  rw [h.machine.outputs]

/-- In any span with the same steps and from any state a fragment is run as it is run alone. -/
theorem execute_alone (hwell : p.WellFormed) (hmarks : p.MarksInputs)
    (hmemoryless : sampler.IsMemoryless) (hstep : ∀ axis, span'.step axis = span.step axis)
    {i : Nat} {f : Fragment} (hf : span'.fragments[i]? = some f) (s : ExecState) :
    ∃ outcome t, execute p sampler span' i s = .ok outcome t ∧
      finish p t.machine f outcome = (alone p sampler span f).1 ∧
      t.requests.toList = s.requests.toList ++ (alone p sampler span f).2 := by
  let single : Span := { span with fragments := [f] }
  have hsingle : single.fragments[0]? = some f := rfl
  have hsteps : ∀ axis, span'.step axis = single.step axis := fun axis => by
    rw [hstep]
    cases axis <;> rfl
  obtain ⟨outcome, t, t', ht, ht', halongside⟩ :=
    execute_alongside hwell hmarks hmemoryless hsteps hsingle hf rfl rfl {} s
  refine ⟨outcome, t', ht', ?_, ?_⟩
  · rw [finish_alongside halongside, alone, ht]
  · obtain ⟨found, hfound, hfound'⟩ := halongside.requests
    rw [hfound', Array.toList_append, alone, ht]
    dsimp only
    rw [hfound, Array.toList_append]
    rfl

/-! ## Span runs -/

/-- A fragment that is not live is passed over. -/
theorem runFragments_dead {i : Nat} {f : Fragment} (hf : span.fragments[i]? = some f)
    (hlive : f.live = false) (rest : List Nat) :
    runFragments p sampler (i :: rest) span = runFragments p sampler rest span := by
  rw [runFragments, hf]
  exact if_neg (Bool.eq_false_iff.mp hlive)

/-- A live fragment is run, and the others are run in the span that holds what it has become. -/
theorem runFragments_live {i : Nat} {f : Fragment} (hf : span.fragments[i]? = some f)
    (hlive : f.live = true) {rest : List Nat} {s u t : ExecState} {outcome : Outcome}
    (hrun : execute p sampler span i s = .ok outcome u) {killed : Nat}
    (hrest : runFragments p sampler rest
      { span with fragments := span.fragments.set i (finish p u.machine f outcome) } u =
        .ok (killed, span') t) :
    runFragments p sampler (i :: rest) span s =
      .ok (if outcome = .killed then killed + 1 else killed, span') t := by
  rw [runFragments, hf]
  dsimp only
  rw [if_pos hlive, bind_eq_ok]
  refine ⟨outcome, u, hrun, ?_⟩
  rw [bind_eq_ok]
  refine ⟨u, u, rfl, ?_⟩
  rw [bind_eq_ok]
  exact ⟨(killed, span'), t, hrest, rfl⟩

/-- The fragments behind the first ones are run one after the other. -/
theorem runFragments_settled (hwell : p.WellFormed) (hmarks : p.MarksInputs)
    (hmemoryless : sampler.IsMemoryless) (span : Span) (done rest : List Fragment)
    (s : ExecState) :
    ∃ killed t,
      runFragments p sampler (List.range' done.length rest.length)
          { span with fragments := done ++ rest } s =
        .ok (killed, { span with fragments := done ++ rest.map (settled p sampler span) }) t ∧
      t.requests.toList = s.requests.toList ++ rest.flatMap (asked p sampler span) := by
  -- as a run looks at no other fragment, it does not matter that those in front are settled
  induction rest generalizing done s with
  | nil => exact ⟨0, s, rfl, (List.append_nil _).symm⟩
  | cons f rest ih =>
    have hhere : (done ++ f :: rest)[done.length]? = some f := by
      rw [List.getElem?_append_right (Nat.le_refl _), Nat.sub_self]
      rfl
    have hrange : List.range' done.length (f :: rest).length =
        done.length :: List.range' (done ++ [f]).length rest.length := by
      rw [List.length_cons, List.range'_succ, List.length_append, List.length_singleton]
    have hdone : ∀ g : Fragment, (done ++ [g]).length = (done ++ [f]).length := fun g => by
      rw [List.length_append, List.length_append]
      rfl
    rw [hrange]
    cases hlive : f.live with
    | false =>
      obtain ⟨killed, t, hrun, hasked⟩ := ih (done ++ [f]) s
      refine ⟨killed, t, ?_, ?_⟩
      · have hsettled : settled p sampler span f = f := by
          rw [settled, hlive, if_neg Bool.false_ne_true]
        rw [runFragments_dead hhere hlive, List.append_cons done f rest, hrun, List.map_cons,
          hsettled, List.append_cons done f (rest.map _)]
      · rw [hasked, List.flatMap_cons, asked, hlive, if_neg Bool.false_ne_true, List.nil_append]
    | true =>
      have hstep : ∀ axis, ({ span with fragments := done ++ f :: rest } : Span).step axis =
          span.step axis := fun axis => by cases axis <;> rfl
      obtain ⟨outcome, u, hexecute, hfinish, hrequests⟩ :=
        execute_alone hwell hmarks hmemoryless hstep hhere s
      obtain ⟨killed, t, hrun, hasked⟩ := ih (done ++ [settled p sampler span f]) u
      have hsettled : settled p sampler span f = (alone p sampler span f).1 := by
        rw [settled, hlive, if_pos rfl]
      have hset : (done ++ f :: rest).set done.length (settled p sampler span f) =
          done ++ [settled p sampler span f] ++ rest := by
        rw [List.set_append_right _ _ (Nat.le_refl _), Nat.sub_self, ← List.append_cons]
        rfl
      refine ⟨if outcome = .killed then killed + 1 else killed, t, ?_, ?_⟩
      · refine runFragments_live hhere hlive hexecute ?_
        rw [hfinish, ← hsettled, hset, ← hdone (settled p sampler span f), List.map_cons,
          List.append_cons done (settled p sampler span f) (rest.map _)]
        exact hrun
      · rw [hasked, hrequests, List.flatMap_cons, asked, hlive, if_pos rfl, List.append_assoc]

/-- A span run settles every fragment on its own. -/
theorem runSpan_settled (hwell : p.WellFormed) (hmarks : p.MarksInputs)
    (hmemoryless : sampler.IsMemoryless) (span : Span) (s : ExecState) :
    ∃ killed t, runSpan p sampler span s =
        .ok (killed, { span with fragments := span.fragments.map (settled p sampler span) }) t ∧
      t.requests.toList =
        s.requests.toList ++ span.fragments.flatMap (asked p sampler span) := by
  obtain ⟨killed, t, hrun, hasked⟩ :=
    runFragments_settled hwell hmarks hmemoryless span [] span.fragments s
  let after : Span := { span with fragments := span.fragments.map (settled p sampler span) }
  refine ⟨killed, { t with notes := t.notes.push (.spanDone after.size killed) }, ?_, hasked⟩
  unfold runSpan
  rw [bind_eq_ok]
  refine ⟨(killed, after), t, ?_, rfl⟩
  rw [List.range_eq_range']
  exact hrun

theorem settled_congr (h : ∀ axis, span'.step axis = span.step axis) (f : Fragment) :
    settled p sampler span' f = settled p sampler span f := by
  have hspan : ({ span' with fragments := [f] } : Span) = { span with fragments := [f] } := by
    have hx : span'.stepX = span.stepX := h .x
    have hy : span'.stepY = span.stepY := h .y
    rw [hx, hy]
  unfold settled alone
  rw [hspan]

end Interpreter

/-- A run of a compiled program on a fragment depends on nothing but the steps of the span and the
inputs and levels of detail of the fragment.  A span run gives each live fragment what a run on it
alone gives, so it does not matter in which order the fragments stand, and it asks what these runs
ask, in their order. -/
theorem execute_independent {source : String} {p q : Program}
    (hcompile : compile source = .ok p) (hupdates : p.Updates q) {sampler : Sampler}
    (hmemoryless : sampler.IsMemoryless) {span span' : Span} (hx : span'.stepX = span.stepX)
    (hy : span'.stepY = span.stepY) (s s' : ExecState) :
    (∀ i i' f f', span.fragments[i]? = some f → span'.fragments[i']? = some f' →
      f'.inputs = f.inputs → f'.lambda = f.lambda →
      ∃ outcome t t', Interpreter.execute q sampler span i s = .ok outcome t ∧
        Interpreter.execute q sampler span' i' s' = .ok outcome t' ∧
        t'.machine.temporaries = t.machine.temporaries ∧
        t'.machine.outputs = t.machine.outputs ∧ t'.machine.codes = t.machine.codes ∧
        (∃ asked, t.requests = s.requests ++ asked ∧ t'.requests = s'.requests ++ asked) ∧
        ∃ shown, t.events = s.events.dispatchAll shown ∧
          t'.events = s'.events.dispatchAll shown) ∧
    ∃ killed after t, Interpreter.runSpan q sampler span s = .ok (killed, after) t ∧
      after = { span with
        fragments := span.fragments.map fun f =>
          if f.live then (Interpreter.alone q sampler span f).1 else f } ∧
      t.requests.toList = s.requests.toList ++ span.fragments.flatMap (fun f =>
        if f.live then (Interpreter.alone q sampler span f).2 else []) ∧
      ∀ place : Nat → Nat, (∀ i, span'.fragments[i]? = span.fragments[place i]?) →
        ∃ killed' after' t', Interpreter.runSpan q sampler span' s' = .ok (killed', after') t' ∧
          ∀ i, after'.fragments[i]? = after.fragments[place i]? := by
  have hretuned := Program.retuned_of_updates hupdates
  have hwell := (wellFormed_of_compile hcompile).retuned hretuned
  have hmarks := (marksInputs_of_compile hcompile).retuned hretuned
  have hstep : ∀ axis, span'.step axis = span.step axis := fun axis => by
    cases axis
    · exact hx
    · exact hy
  constructor
  · intro i i' f f' hf hf' hinputs hlambda
    obtain ⟨outcome, t, t', ht, ht', h⟩ := Interpreter.execute_alongside hwell hmarks hmemoryless
      hstep hf hf' hinputs hlambda s s'
    exact ⟨outcome, t, t', ht, ht', h.machine.temporaries, h.machine.outputs, h.machine.codes,
      h.requests, h.events⟩
  · -- both spans settle fragment by fragment, whatever their order
    obtain ⟨killed, t, hrun, hasked⟩ := Interpreter.runSpan_settled hwell hmarks hmemoryless span s
    refine ⟨killed, _, t, hrun, rfl, hasked, fun place hplace => ?_⟩
    obtain ⟨killed', t', hrun', -⟩ :=
      Interpreter.runSpan_settled hwell hmarks hmemoryless span' s'
    refine ⟨killed', _, t', hrun', fun i => ?_⟩
    rw [List.getElem?_map, List.getElem?_map, hplace i]
    congr 1
    exact funext (Interpreter.settled_congr hstep)

/-- A span of a white fragment and a discarded one. -/
def whiteFirst : Span where
  fragments := [{ inputs := Vector.replicate _ (Quad.replicate .one) }, { live := false }]

/-- The same fragments in the other order. -/
def whiteLast : Span where
  fragments := [{ live := false }, { inputs := Vector.replicate _ (Quad.replicate .one) }]

/-- A state that a run has left its outputs in. -/
def usedState : ExecState where
  machine := { outputs := Vector.replicate _ (Quad.replicate .one) }

theorem execute_independent_tinted :
    ∃ p, compile tintedText = .ok p ∧ p.Updates p ∧ (Sampler.solid Quad.zero).IsMemoryless ∧
      whiteLast.stepX = whiteFirst.stepX ∧ whiteLast.stepY = whiteFirst.stepY ∧
      ∃ killed after t killed' after' t',
        Interpreter.runSpan p (.solid Quad.zero) whiteFirst {} = .ok (killed, after) t ∧
        Interpreter.runSpan p (.solid Quad.zero) whiteLast usedState = .ok (killed', after') t' ∧
        after'.fragments[1]? = after.fragments[0]? := by
  obtain ⟨p, hp⟩ := compile_tintedText
  have hmemoryless := Sampler.isMemoryless_solid Quad.zero
  have hx : whiteLast.stepX = whiteFirst.stepX := rfl
  have hy : whiteLast.stepY = whiteFirst.stepY := rfl
  obtain ⟨-, killed, after, t, hrun, -, -, hpermuted⟩ :=
    execute_independent hp .refl hmemoryless hx hy {} usedState
  obtain ⟨killed', after', t', hrun', hplace⟩ :=
    hpermuted (fun i => if i = 0 then 1 else if i = 1 then 0 else i)
      (by rintro (_ | _ | n) <;> rfl)
  exact ⟨p, hp, .refl, hmemoryless, hx, hy, killed, after, t, killed', after', t', hrun, hrun',
    hplace 1⟩

end FragmentAssembly

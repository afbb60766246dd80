import FragmentAssembly.Proofs.Execution.Fragments
import FragmentAssembly.Proofs.Execution.Step

/-!
# Footprints of runs

The summary of a program bounds what its runs do, at any depth of nesting.  They read no inputs,
steps or levels of detail besides those of marked inputs and of units in use, they ask for no other
texture images, and they leave the other outputs alone.
-/

namespace FragmentAssembly

theorem Program.mem_textureImages {p : Program} {image : TextureImage} :
    image ∈ p.textureImages ↔ p.textures.get image.unit = some image.target := by
  obtain ⟨unit, target⟩ := image
  simp only [textureImages, List.mem_filterMap, List.mem_finRange, true_and, Option.map_eq_some_iff,
    TextureImage.mk.injEq]
  constructor
  · rintro ⟨_, _, hget, rfl, rfl⟩
    exact hget
  · intro hget
    exact ⟨unit, target, hget, rfl, rfl⟩

/-! ## Requests -/

/-- Requests for the texture images of a program. -/
def Allowance.imagesOf (p : Program) : Allowance :=
  ⟨fun request => ⟨request.unit, request.target⟩ ∈ p.textureImages, fun _ => True, fun _ => True⟩

theorem Program.IsSummarized.mem_textureImages {p : Program} (h : p.IsSummarized)
    {ins : Instruction} (hins : ins ∈ p.instructions) {image : TextureImage}
    (himage : ins.texture = some image) : image ∈ p.textureImages :=
  Program.mem_textureImages.mpr ((h.textures _ _).mpr ⟨ins, hins, himage⟩)

theorem Program.IsSummarized.covers_imagesOf {p : Program} (h : p.IsSummarized) :
    (Allowance.imagesOf p).Covers p := by
  refine ⟨fun ins hins image himage request hunit htarget => ?_, fun _ _ => trivial⟩
  show ⟨request.unit, request.target⟩ ∈ p.textureImages
  rw [hunit, htarget]
  exact h.mem_textureImages hins himage

/-! ## Outputs -/

/-- The outputs that the program does not write are zero. -/
def Program.Spares (p : Program) (m : Machine) : Prop :=
  ∀ o, p.writesOutput o = false → m.outputs.get o = Quad.zero

theorem Program.IsSummarized.spares_store {p : Program} (h : p.IsSummarized) {ins : Instruction}
    (hins : ins ∈ p.instructions) (value : Vec4) {m : Machine} (hm : p.Spares m) :
    p.Spares (m.store ins value).1 := by
  intro o ho
  rw [m.get_outputs_store value, hm o ho]
  -- an output that is a destination is marked
  intro d hd hregister
  have hmark : p.writesOutput o = true :=
    (h.outputsWritten o.val).mpr ⟨ins, hins, d, by rw [hd]; exact .head _, o, hregister, rfl⟩
  rw [ho] at hmark
  cases hmark

namespace Interpreter

variable {p : Program} {sampler : Sampler} {span : Span} {i : Nat} {f : Fragment}

theorem spares_loaded (s : ExecState) : p.Spares (loaded p f s).machine := by
  intro o _
  show (Vector.replicate outputCount Quad.zero)[o.val] = Quad.zero
  exact Vector.getElem_replicate _

/-- After a run on a fragment the outputs that the program does not write are zero. -/
theorem spares_execute (hwell : p.WellFormed) (hsummary : p.IsSummarized)
    (hf : span.fragments[i]? = some f) {s t : ExecState} {outcome : Outcome}
    (hrun : execute p sampler span i s = .ok outcome t) : p.Spares t.machine := by
  have hfragment : i < span.size := (List.getElem?_eq_some_iff.mp hf).1
  rw [execute_run hf] at hrun
  have hends := Job.run_ends hfragment hwell.complete rfl hrun
  obtain ⟨pc, u, hreaches, hmachine⟩ := hends.exists_reaches
  rw [hmachine]
  exact hreaches.preserves hfragment hwell.complete rfl
    (fun ins hins value m hm => hsummary.spares_store hins value hm) (spares_loaded s)

end Interpreter

/-! ## Whole runs -/

/-- Runs of a compiled program on two fragments do the same if the fragments agree on the inputs
that are marked, on their steps, and on the levels of detail of the units in use.  All requests are
for texture images of the program, and an output that is not marked is zero at the end. -/
theorem execute_footprint {source : String} {p q : Program} (hcompile : compile source = .ok p)
    (hupdates : p.Updates q) {sampler : Sampler} (hmemoryless : sampler.IsMemoryless)
    {span span' : Span} {i i' : Nat} {f f' : Fragment} (hf : span.fragments[i]? = some f)
    (hf' : span'.fragments[i']? = some f')
    (hinputs : ∀ n, q.readsInput n = true → f'.inputs.get n = f.inputs.get n)
    (hsteps : ∀ axis n, q.readsInput n = true → (span'.step axis).get n = (span.step axis).get n)
    (hlambda : ∀ image ∈ q.textureImages, f'.lambda.get image.unit = f.lambda.get image.unit)
    (s s' : ExecState) :
    ∃ outcome t t' asked shown, Interpreter.execute q sampler span i s = .ok outcome t ∧
      Interpreter.execute q sampler span' i' s' = .ok outcome t' ∧
      t'.machine.temporaries = t.machine.temporaries ∧ t'.machine.outputs = t.machine.outputs ∧
      t'.machine.codes = t.machine.codes ∧
      t.requests = s.requests ++ asked ∧ t'.requests = s'.requests ++ asked ∧
      t.events = s.events.dispatchAll shown ∧ t'.events = s'.events.dispatchAll shown ∧
      (∀ request ∈ asked, ⟨request.unit, request.target⟩ ∈ q.textureImages) ∧
      ∀ o, q.writesOutput o = false → t.machine.outputs.get o = Quad.zero := by
  have hretuned := Program.retuned_of_updates hupdates
  have hwell := (wellFormed_of_compile hcompile).retuned hretuned
  have hsummary := (isSummarized_of_compile hcompile).retuned hretuned
  have hpeers : (Interpreter.job q sampler span i (Quad.replicate .eq)).Peers
      (Interpreter.job q sampler span' i' (Quad.replicate .eq)) s s' :=
    ⟨rfl, hsummary.marksInputs, hsteps,
      ⟨f, f', hf, hf', fun ins hins image himage =>
        hlambda image (hsummary.mem_textureImages hins himage)⟩,
      rfl, fun _ _ => hmemoryless.answer _ _ _, fun _ _ => hmemoryless.imageSize _ _ _⟩
  obtain ⟨outcome, t, t', ht, ht', hrun⟩ :=
    Interpreter.execute_peers hwell hf hf' hpeers hinputs
  obtain ⟨asked, hasked, hasked'⟩ := hrun.requests
  obtain ⟨shown, hshown, hshown'⟩ := hrun.events
  -- what is asked is known twice: to be the same in both runs, and to be allowed
  obtain ⟨allowed, hallowed, hlisted⟩ := (Interpreter.within_execute hsummary.covers_imagesOf
    (fun _ => trivial) sampler span i s outcome t ht).requests
  obtain rfl : asked = allowed := (Array.append_right_inj _).mp (hasked.symm.trans hallowed)
  exact ⟨outcome, t, t', asked, shown, ht, ht', hrun.machine.temporaries, hrun.machine.outputs,
    hrun.machine.codes, hasked, hasked', hshown, hshown', hlisted,
    Interpreter.spares_execute hwell hsummary hf ht⟩

theorem one_lt_inputCount : 1 < inputCount := by
  decide

theorem one_lt_textureUnitCount : 1 < textureUnitCount := by
  decide

/-- A fragment whose color, color steps and second texture unit differ from those of a blank one. -/
def coloredSpan : Span where
  fragments := [{
    inputs := (Vector.replicate _ Quad.zero).set 1 (Quad.replicate .one) one_lt_inputCount
    lambda := (Vector.replicate _ .zero).set 1 .one one_lt_textureUnitCount }]
  stepX := (Vector.replicate _ Quad.zero).set 1 (Quad.replicate .one) one_lt_inputCount

theorem execute_footprint_tinted :
    ∃ p, compile tintedText = .ok p ∧ p.Updates p ∧ (Sampler.solid Quad.zero).IsMemoryless ∧
      ∃ outcome t t',
        Interpreter.execute p (.solid Quad.zero) (.single {}) 0 {} = .ok outcome t ∧
        Interpreter.execute p (.solid Quad.zero) coloredSpan 0 usedState = .ok outcome t' ∧
        t'.machine.outputs = t.machine.outputs ∧
        t.machine.outputs.get OutputIndex.depr = Quad.zero := by
  obtain ⟨p, hp, hread, hunits, hdepth⟩ : ∃ p, compile tintedText = .ok p ∧
      (∀ n, p.readsInput n = true → n = 4) ∧ (∀ image ∈ p.textureImages, image.unit = 0) ∧
      p.writesOutput .depr = false := exists_of_decide (by decide +kernel)
  have hmemoryless := Sampler.isMemoryless_solid Quad.zero
  have hf : (Span.single {}).fragments[0]? = some ({} : Fragment) := rfl
  have hf' : coloredSpan.fragments[0]? = some coloredSpan.fragments[0] :=
    List.getElem?_eq_getElem (by decide)
  obtain ⟨outcome, t, t', -, -, ht, ht', -, houtputs, -, -, -, -, -, -, hspared⟩ :=
    execute_footprint hp .refl hmemoryless hf hf' (fun n hn => by rw [hread n hn]; rfl)
      (fun axis n hn => by rw [hread n hn]; cases axis <;> rfl)
      (fun image himage => by rw [hunits image himage]; rfl) {} usedState
  exact ⟨p, hp, .refl, hmemoryless, outcome, t, t', ht, ht', houtputs, hspared _ hdepth⟩

end FragmentAssembly

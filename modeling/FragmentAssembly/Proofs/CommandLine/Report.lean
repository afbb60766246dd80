import FragmentAssembly.Proofs.CommandLine.Arguments
import FragmentAssembly.Proofs.CommandLine.Setting
import FragmentAssembly.Proofs.Execution.Total

/-!
# Reports

The report on a program that compiles begins with its disassembly.  It goes on with what one run
of the program leaves in the registers that it writes, unless there is an argument that is not
valid.
-/

namespace FragmentAssembly.CommandLine

/-! ## Results of a run -/

/-- The text shows how a run of `p` ended: that the fragment was killed, or a line for each output
that the program writes, in the order of the registers. -/
inductive Shows (p : Program) (m : Machine) : Outcome → String → Prop where
  | killed : Shows p m .killed "fragment killed\n"
  | complete {outputs : List OutputIndex} (hsorted : outputs.Pairwise (· < ·))
      (hwritten : ∀ i, i ∈ outputs ↔ ∃ ins ∈ p.instructions, ins.WritesOutput i.val) :
      Shows p m .complete (String.join (outputs.map fun i =>
        "o[" ++ outputNames.get i ++ "] = " ++ Vec4.text .plain "(" ")" (m.outputs.get i) ++ "\n"))

theorem shows_results {p : Program} (h : p.IsSummarized) (m : Machine) (outcome : Outcome) :
    Shows p m outcome (results p m outcome) := by
  cases outcome with
  | killed => exact .killed
  | complete =>
    refine .complete ((List.pairwise_lt_finRange outputCount).filter _) fun i => ?_
    rw [List.mem_filter, ← h.outputsWritten]
    exact and_iff_right (List.mem_finRange i)

/-- A run of `p` on one fragment in the setting `s` ends with `outcome` and leaves the machine
`m`. -/
def Setting.Runs (s : Setting) (p : Program) (outcome : Outcome) (m : Machine) : Prop :=
  ∃ state, Interpreter.execute { p with localParameters := s.params } (.solid s.texture)
    (Span.single { inputs := s.inputs }) 0 {} = .ok outcome state ∧ state.machine = m

theorem shows_runOutput {source : String} {p : Program} (h : compile source = .ok p)
    (s : Setting) : ∃ outcome m, s.Runs p outcome m ∧ Shows p m outcome (runOutput p s) := by
  have hwell : { p with localParameters := s.params }.WellFormed :=
    (wellFormed_of_compile h).retuned ⟨rfl, ParameterTable.Retuned.refl _⟩
  -- the span has a single fragment, whose number is in range
  have htotal : Total (Interpreter.execute { p with localParameters := s.params }
      (.solid s.texture) (Span.single { inputs := s.inputs }) 0) :=
    Interpreter.total_execute hwell Nat.zero_lt_one
  obtain ⟨outcome, state, hexecute⟩ := htotal {}
  refine ⟨outcome, state.machine, ⟨state, hexecute, rfl⟩, ?_⟩
  have houtput : runOutput p s = results p state.machine outcome := by
    simp only [runOutput, hexecute]
    rfl
  rw [houtput]
  exact shows_results (isSummarized_of_compile h) state.machine outcome

/-! ## Reports on calls -/

theorem mem_ordered {r : Request} {a : OptionKind × String} : a ∈ r.ordered ↔ a ∈ r.values := by
  obtain ⟨kind, text⟩ := a
  cases kind <;> simp [Request.ordered]

theorem report_of_error {source : String} {e : ParseError} (h : compile source = .error e)
    (r : Request) :
    report r (some source) = ⟨"", "Parse error " ++ e.locatedMessage source ++ "\n", 1⟩ := by
  simp only [report, h]

theorem report_of_ok {source : String} {p : Program} (h : compile source = .ok p) (r : Request) :
    report r (some source) = runProgram p r := by
  simp only [report, h]

/-- The report on a call tells what the library computes.  A program that does not compile leaves
nothing but its error.  Otherwise the disassembly is printed, and the call fails with the error of
the first argument that is not valid, or ends with the results of running the program once in the
setting that the arguments give. -/
theorem respond_exact (source file : String) (front back : List Use) (hfile : IsOrdinary file)
    (hsupported : ∀ u ∈ front ++ back, u.IsSupported)
    (htexture : ((front ++ back).map Use.kind).count .texture ≤ 1) :
    let arguments := front.flatMap Use.words ++ file :: back.flatMap Use.words
    let r := requestOf (some file) (front ++ back)
    requestedFile? arguments = some file ∧
    (∀ e, compile source = .error e → respond arguments (some source) =
      ⟨"", "Parse error " ++ e.locatedMessage source ++ "\n", 1⟩) ∧
    (∀ p, compile source = .ok p →
      (∃ e, FirstFault Valid Fault r.ordered e ∧ respond arguments (some source) =
        ⟨p.disassembly, "Invalid argument: " ++ e.message ++ "\n", 1⟩) ∨
      ((∀ u ∈ front ++ back, Valid u.argument) ∧ ∃ (s : Setting) (outcome : Outcome)
        (m : Machine) (shown : String), s.IsGiven r ∧ s.Runs p outcome m ∧
          Shows p m outcome shown ∧
          respond arguments (some source) = ⟨p.disassembly ++ shown, "", 0⟩)) ∧
    ∀ text v, vector text = .ok v ↔ IsVector text v := by
  intro arguments r
  have hread : readArguments arguments = .ok r := readArguments_call hfile hsupported htexture
  have hrespond : respond arguments (some source) = report r (some source) := by
    rw [respond, hread]
  have hone : (r.valuesOf .texture).length ≤ 1 := by
    rw [length_valuesOf]
    exact htexture
  rw [hrespond]
  refine ⟨?_, fun e he => report_of_error he r, fun p hp => ?_, fun text v => vector_eq_ok_iff⟩
  · rw [requestedFile?, hread]
    rfl
  · rw [report_of_ok hp]
    -- the arguments are checked in their order, and the first fault ends the check
    rcases FirstFault.cases exists_fault r.ordered with hvalid | ⟨e, he⟩
    · obtain ⟨s, hs, hgiven⟩ := setting_eq_ok hvalid hone
      obtain ⟨outcome, m, hruns, hshows⟩ := shows_runOutput hp s
      refine .inr ⟨fun u hu => hvalid _ (mem_ordered.mpr ?_), s, outcome, m, _, hgiven, hruns,
        hshows, ?_⟩
      · exact List.mem_map_of_mem hu
      · rw [runProgram, hs]
    · refine .inl ⟨e, he, ?_⟩
      rw [runProgram, setting_eq_error he hone]

theorem ne_cons_of_head {cs : List Char} {c : Char} (h : cs.head? ≠ some c) (rest : List Char) :
    cs ≠ c :: rest :=
  fun heq => h (heq ▸ rfl)

/-- An input and a local parameter on both sides of the file. -/
theorem respond_exact_tinted :
    let source := "!!FP1.0 MUL o[COLR], f[COL0], p[0].x; END"
    let uses : List Use := [⟨.input, .short, "COL0=1,2"⟩] ++ [⟨.param, .shortAttached, "0=0.5"⟩]
    IsOrdinary "tint.fp" ∧ (∀ u ∈ uses, u.IsSupported) ∧
      (uses.map Use.kind).count .texture ≤ 1 ∧ ∃ p, compile source = .ok p ∧
        ∃ (s : Setting) (outcome : Outcome) (m : Machine) (shown : String),
          s.IsGiven (requestOf (some "tint.fp") uses) ∧ s.Runs p outcome m ∧
          Shows p m outcome shown ∧
          respond ["-i", "COL0=1,2", "tint.fp", "-p0=0.5"] (some source) =
            ⟨p.disassembly ++ shown, "", 0⟩ := by
  intro source uses
  have hfile : IsOrdinary "tint.fp" := fun _ _ => ne_cons_of_head (by decide) _
  have hsupported : ∀ u ∈ uses, u.IsSupported := by
    intro u hu
    rcases List.mem_cons.mp hu with rfl | hu
    · exact fun _ _ => ne_cons_of_head (by decide) _
    · rcases List.mem_singleton.mp hu with rfl
      exact ⟨by decide, ne_cons_of_head (by decide)⟩
  have htexture : (uses.map Use.kind).count .texture ≤ 1 := by decide
  obtain ⟨p, hp⟩ : ∃ p, compile source = .ok p := exists_of_isOk (by decide +kernel)
  refine ⟨hfile, hsupported, htexture, p, hp, ?_⟩
  obtain ⟨-, -, hreport, -⟩ :=
    respond_exact source "tint.fp" [⟨.input, .short, "COL0=1,2"⟩]
      [⟨.param, .shortAttached, "0=0.5"⟩] hfile hsupported htexture
  rcases hreport p hp with ⟨e, -, hfails⟩ | ⟨-, hruns⟩
  · have hcode : (respond ["-i", "COL0=1,2", "tint.fp", "-p0=0.5"] (some source)).code = 0 := by
      decide +kernel
    exact absurd (hcode.symm.trans (congrArg Report.code hfails)) Nat.zero_ne_one
  · exact hruns

end FragmentAssembly.CommandLine

import FragmentAssembly.Proofs.Context.History
import FragmentAssembly.Proofs.Context.Isolation

/-!
# Operations that fail

What an operation that fails leaves behind: the programs of a context and of its handles are as
before, but a program that a handle names was copied if it was a parameter that could not be set
by its name.
-/

namespace FragmentAssembly

/-- The span of the caller, which holds the results if the program ran. -/
def Answer.spanAfter (before : Span) : Answer → Span
  | executed (.ok run) => run.span
  | _ => before

namespace Context

/-- Whether a handle names the bound program decides whether it is copied. -/
theorem replace_same {c : Context} {p : Program} (h : c.program? = some p) :
    ((∃ handle, c.isBoundTo handle = true) ∧ c.replace p = c.bind p) ∨
      ((∀ handle, c.isBoundTo handle = false) ∧ c.replace p = c) := by
  obtain ⟨place, hbound, hfound⟩ := Option.bind_eq_some_iff.mp h
  unfold replace
  simp only [hbound]
  by_cases hshared : c.handles.contains place = true
  · rw [if_pos hshared]
    rw [Array.contains_iff_mem] at hshared
    obtain ⟨handle, hhandle⟩ := Array.mem_iff_getElem?.mp hshared
    exact .inl ⟨⟨handle, isBoundTo_eq_true.mpr ⟨place, hbound, hhandle⟩⟩, rfl⟩
  · rw [if_neg hshared]
    rw [Array.contains_iff_mem] at hshared
    exact .inr ⟨isBoundTo_of_notMem hbound hshared, put_self hfound⟩

/-- A program in a new place is none of those that handles name. -/
theorem Valid.handleProgram?_bind {c : Context} (hc : c.Valid) (p : Program) (handle : Nat) :
    (c.bind p).handleProgram? handle = c.handleProgram? handle := by
  cases hplace : c.handles[handle]? with
  | none => simp only [handleProgram?, bind, hplace, Option.bind_none]
  | some place =>
    have hlt := hc.handles place (Array.mem_of_getElem? hplace)
    simp only [handleProgram?, bind, hplace, Option.bind_some, Array.getElem?_push_lt hlt,
      Array.getElem?_eq_getElem hlt]

/-- Without a program there is no place that a handle could name. -/
theorem Valid.isBoundTo_of_none {c : Context} (hc : c.Valid) (h : c.program? = none)
    (handle : Nat) : c.isBoundTo handle = false := by
  rw [Bool.eq_false_iff]
  intro hbound
  obtain ⟨place, hplace, -⟩ := isBoundTo_eq_true.mp hbound
  rw [program?, hplace, Option.bind_some, Array.getElem?_eq_getElem (hc.bound place hplace)] at h
  cases h

/-- What an operation that fails leaves behind.  A text that cannot be loaded changes what is told
of errors and nothing else.  If a parameter cannot be set by its name, a bound program that a
handle names is copied.  In all other cases the context is the same. -/
def Survives (c : Context) (operation : Operation) (answer : Answer) (d : Context) : Prop :=
  match operation with
  | .load _ => ∃ e : ParseError, d = { c with
      errorPosition := some e.position, errorText := e.cause.message, notes := d.notes }
  | .setNamedParameter _ _ =>
    (∃ p, c.program? = some p ∧ (∃ handle, c.isBoundTo handle = true) ∧ d = c.bind p) ∨
      ((∀ handle, c.isBoundTo handle = false) ∧ d = c)
  | .executeSpan span _ => d = c ∧ answer.spanAfter span = span
  | _ => d = c

theorem Does.survives {c d : Context} {operation : Operation} {answer : Answer}
    (h : c.Does operation answer d) (hc : c.Valid) (herror : answer.IsError) :
    c.Survives operation answer d := by
  cases h with
  | @rejected _ e failed notes => exact ⟨e, rfl⟩
  | refusedLocal => exact rfl
  | unboundLocal => exact rfl
  | @refusedNamed p _ _ _ bound wrong =>
    -- the program is made the context's own before the name is looked up in it
    rcases replace_same bound with ⟨hshared, hcopy⟩ | hown
    · exact .inl ⟨p, bound, hshared, hcopy⟩
    · exact .inr hown
  | unboundNamed unbound => exact .inr ⟨hc.isBoundTo_of_none unbound, rfl⟩
  | unboundExecute => exact ⟨rfl, rfl⟩
  | _ => exact herror.elim

/-- Whatever failed, the programs of the context and of the handles are as before. -/
theorem Survives.keeps {c d : Context} {operation : Operation} {answer : Answer}
    (h : c.Survives operation answer d) (hc : c.Valid) :
    d.program? = c.program? ∧ d.handles = c.handles ∧
      ∀ handle, d.handleProgram? handle = c.handleProgram? handle := by
  have hsame : d = c → d.program? = c.program? ∧ d.handles = c.handles ∧
      ∀ handle, d.handleProgram? handle = c.handleProgram? handle := by
    rintro rfl
    exact ⟨rfl, rfl, fun _ => rfl⟩
  cases operation with
  | load source =>
    obtain ⟨e, hd⟩ := h
    rw [hd]
    exact ⟨rfl, rfl, fun _ => rfl⟩
  | setNamedParameter name value =>
    rcases h with ⟨p, hp, -, rfl⟩ | ⟨-, hd⟩
    · exact ⟨(c.program?_bind p).trans hp.symm, rfl, hc.handleProgram?_bind p⟩
    · exact hsame hd
  | executeSpan span sampler => exact hsame h.1
  | setLocalParameter index value => exact hsame h
  | handOut => exact hsame h

end Context

/-- An operation that fails leaves the bound program and those of the handles as they were, and
the rest as `Survives` says. -/
theorem context_of_failure (operations : List Operation) {operation : Operation} {answer : Answer}
    {d : Context} (h : (({} : Context).after operations).context.perform operation = (answer, d))
    (herror : answer.IsError) :
    d.program? = (({} : Context).after operations).context.program? ∧
    d.handles = (({} : Context).after operations).context.handles ∧
    (∀ handle, d.handleProgram? handle =
      (({} : Context).after operations).context.handleProgram? handle) ∧
    (({} : Context).after operations).context.Survives operation answer d := by
  have hvalid := Context.valid_after operations
  have hdoes := (({} : Context).after operations).context.does_perform operation
  rw [h] at hdoes
  have hsurvives := hdoes.survives hvalid herror
  obtain ⟨hprogram, hhandles, hhandle⟩ := hsurvives.keeps hvalid
  exact ⟨hprogram, hhandles, hhandle, hsurvives⟩

/-- A context with a program that was handed out, and what it answers if a constant is to be set. -/
theorem perform_blend : ∃ p c, compile blendText = .ok p ∧
    (({} : Context).after [.load blendText, .handOut]).context = c ∧ c.program? = some p ∧
    c.isBoundTo 0 = true ∧
    c.perform (.setNamedParameter "white" Quad.zero) =
      (.set (.error (.constantParameter "white")), c.bind p) := by
  obtain ⟨p, hp, hparameters⟩ := compile_blendText
  obtain ⟨notes, hcontext⟩ := Context.after_load hp
  let c : Context := { programs := #[p], bound := some 0, handles := #[0], notes }
  refine ⟨p, c, hp, ?_, rfl, rfl, ?_⟩
  · rw [show [Operation.load blendText, .handOut] = [.load blendText] ++ [.handOut] from rfl,
      Context.after_concat, Session.call, hcontext]
    rfl
  · have hwrong : p.withNamed "white" Quad.zero = .error (.constantParameter "white") := by
      unfold Program.withNamed
      rw [hparameters]
      rfl
    have hcopy : c.replace p = c.bind p := by
      rcases Context.replace_same (show c.program? = some p from rfl) with h | ⟨hown, -⟩
      · exact h.2
      · exact absurd (hown 0) (by simp [Context.isBoundTo, c])
    rw [Context.perform, Context.setNamedParameter_of_program? (show c.program? = some p from rfl),
      hwrong, ← hcopy]
    rfl

theorem context_of_failure_blend :
    ∃ c d, (({} : Context).after [.load blendText, .handOut]).context = c ∧
      c.perform (.setNamedParameter "white" Quad.zero) =
        (.set (.error (.constantParameter "white")), d) ∧
      d.program? = c.program? ∧ d.handleProgram? 0 = c.handleProgram? 0 := by
  obtain ⟨p, c, -, rfl, -, -, hperform⟩ := perform_blend
  obtain ⟨hprogram, -, hhandle, -⟩ :=
    context_of_failure [.load blendText, .handOut] hperform trivial
  exact ⟨_, _, rfl, hperform, hprogram, hhandle 0⟩

/-- A constant cannot be set, but the attempt leaves the context with a copy of its program: the
handle does not name the bound program any more. -/
theorem failure_copies_blend :
    ∃ c d, (({} : Context).after [.load blendText, .handOut]).context = c ∧
      c.perform (.setNamedParameter "white" Quad.zero) =
        (.set (.error (.constantParameter "white")), d) ∧
      c.isBoundTo 0 = true ∧ d.isBoundTo 0 = false ∧ d.bound ≠ c.bound := by
  obtain ⟨p, c, -, hc, hbound, hhandle, hperform⟩ := perform_blend
  have hvalid := Context.valid_after [.load blendText, .handOut]
  rw [hc] at hvalid
  have hdetached := Context.isBoundTo_bind hvalid.size_notMem p 0
  refine ⟨c, _, hc, hperform, hhandle, hdetached, fun hsame => ?_⟩
  have hstill : (c.bind p).isBoundTo 0 = c.isBoundTo 0 := by
    rw [Context.isBoundTo, hsame]
    rfl
  rw [hdetached, hhandle] at hstill
  cases hstill

end FragmentAssembly

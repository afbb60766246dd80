import FragmentAssembly.Proofs.Context.Operation

/-!
# Isolation of handles

A handle keeps the program that was bound when it was handed out, whatever is asked of the context
afterwards.  It names the place of the bound program for as long as no text is loaded and no
parameter is set.
-/

namespace FragmentAssembly

namespace Context

/-! ## Places -/

/-- The bound program and the handles have places that exist. -/
structure Valid (c : Context) : Prop where
  bound : ∀ place, c.bound = some place → place < c.programs.size
  handles : ∀ place ∈ c.handles, place < c.programs.size

theorem valid_empty : Valid {} :=
  ⟨fun _ h => (nomatch h), fun _ h => absurd h (Array.not_mem_empty _)⟩

/-- What an operation can do to the programs, their places and the handles. -/
inductive Moves (c d : Context) : Prop where
  | still (programs : d.programs = c.programs) (bound : d.bound = c.bound)
    (handles : d.handles = c.handles)
  | placed (p : Program) (programs : d.programs = c.programs.push p)
    (bound : d.bound = some c.programs.size) (handles : d.handles = c.handles)
  | overwritten (place : Nat) (p : Program) (own : place ∉ c.handles)
    (programs : d.programs = c.programs.setIfInBounds place p) (bound : d.bound = c.bound)
    (before : c.bound = some place) (handles : d.handles = c.handles)
  | shared (place : Nat) (programs : d.programs = c.programs) (bound : d.bound = c.bound)
    (before : c.bound = some place) (handles : d.handles = c.handles.push place)

theorem moves_replace (c : Context) (q : Program) : c.Moves (c.replace q) := by
  unfold replace
  cases hbound : c.bound with
  | none => exact .still rfl rfl rfl
  | some place =>
    by_cases hshared : c.handles.contains place = true
    · simp only [hshared, if_true]
      exact .placed q rfl rfl rfl
    · simp only [hshared, Bool.false_eq_true, if_false]
      rw [Array.contains_iff_mem] at hshared
      exact .overwritten place q hshared rfl rfl hbound rfl

theorem Does.moves {c d : Context} {operation : Operation} {answer : Answer}
    (h : c.Does operation answer d) : c.Moves d := by
  cases h with
  | loaded => exact .placed _ rfl rfl rfl
  | rejected => exact .still rfl rfl rfl
  | setLocal => exact c.moves_replace _
  | refusedLocal => exact .still rfl rfl rfl
  | unboundLocal => exact .still rfl rfl rfl
  | setNamed => exact c.moves_replace _
  | refusedNamed => exact c.moves_replace _
  | unboundNamed => exact .still rfl rfl rfl
  | executed => exact .still rfl rfl rfl
  | unboundExecute => exact .still rfl rfl rfl
  | handedOut bound => exact .shared _ rfl rfl bound rfl
  | unboundHandOut => exact .still rfl rfl rfl

theorem Moves.valid {c d : Context} (h : c.Moves d) (hc : c.Valid) : d.Valid := by
  cases h with
  | still programs bound handles =>
    refine ⟨?_, ?_⟩
    · rw [bound, programs]
      exact hc.bound
    · rw [handles, programs]
      exact hc.handles
  | placed p programs bound handles =>
    refine ⟨fun place hplace => ?_, fun place hplace => ?_⟩
    · rw [bound, Option.some.injEq] at hplace
      rw [programs, Array.size_push, ← hplace]
      exact Nat.lt_succ_self _
    · rw [handles] at hplace
      rw [programs, Array.size_push]
      exact Nat.lt_succ_of_lt (hc.handles place hplace)
  | overwritten place p own programs bound before handles =>
    refine ⟨?_, ?_⟩
    · rw [bound, programs, Array.size_setIfInBounds]
      exact hc.bound
    · rw [handles, programs, Array.size_setIfInBounds]
      exact hc.handles
  | shared place programs bound before handles =>
    refine ⟨?_, fun held hheld => ?_⟩
    · rw [bound, programs]
      exact hc.bound
    · rw [programs]
      rw [handles, Array.mem_push] at hheld
      rcases hheld with hheld | rfl
      · exact hc.handles held hheld
      · exact hc.bound held before

/-! ## What handles keep -/

/-- Handles still name their places, which hold the same programs, and none has come to name the
bound program again. -/
structure Preserves (c d : Context) : Prop where
  place : ∀ (handle place : Nat), c.handles[handle]? = some place →
    d.handles[handle]? = some place
  program : ∀ place ∈ c.handles, d.programs[place]? = c.programs[place]?
  detached : ∀ handle < c.handles.size, c.isBoundTo handle = false → d.isBoundTo handle = false

theorem Preserves.refl (c : Context) : c.Preserves c :=
  ⟨fun _ _ h => h, fun _ _ => rfl, fun _ _ h => h⟩

theorem Preserves.trans {b c d : Context} (hbc : b.Preserves c) (hcd : c.Preserves d) :
    b.Preserves d where
  place handle place h := hcd.place handle place (hbc.place handle place h)
  program place h := by
    obtain ⟨handle, hhandle⟩ := Array.mem_iff_getElem?.mp h
    rw [hcd.program place (Array.mem_of_getElem? (hbc.place handle place hhandle)),
      hbc.program place h]
  detached handle h hdetached := by
    have hkept := hbc.place handle _ (Array.getElem?_eq_getElem h)
    exact hcd.detached handle (Array.getElem?_eq_some_iff.mp hkept).1
      (hbc.detached handle h hdetached)

theorem isBoundTo_eq_true {c : Context} {handle : Nat} :
    c.isBoundTo handle = true ↔
      ∃ place, c.bound = some place ∧ c.handles[handle]? = some place := by
  unfold isBoundTo
  cases c.bound with
  | none => simp only [Bool.false_eq_true, reduceCtorEq, false_and, exists_false]
  | some place =>
    cases c.handles[handle]? with
    | none => simp only [Bool.false_eq_true, reduceCtorEq, and_false, exists_false]
    | some held =>
      simp only [decide_eq_true_eq, Option.some.injEq]
      exact ⟨fun h => ⟨place, rfl, h.symm⟩, fun ⟨_, h, h'⟩ => h.trans h'.symm⟩

/-- A place that no handle names is not that of a handle. -/
theorem isBoundTo_of_notMem {c : Context} {place : Nat} (hbound : c.bound = some place)
    (hown : place ∉ c.handles) (handle : Nat) : c.isBoundTo handle = false := by
  rw [Bool.eq_false_iff]
  intro h
  obtain ⟨held, hheld, hhandle⟩ := isBoundTo_eq_true.mp h
  rw [hbound, Option.some.injEq] at hheld
  exact hown (hheld ▸ Array.mem_of_getElem? hhandle)

theorem isBoundTo_bind {c : Context} (hnew : c.programs.size ∉ c.handles) (p : Program)
    (handle : Nat) : (c.bind p).isBoundTo handle = false :=
  isBoundTo_of_notMem (c := c.bind p) rfl hnew handle

theorem Valid.size_notMem {c : Context} (hc : c.Valid) : c.programs.size ∉ c.handles :=
  fun h => Nat.lt_irrefl _ (hc.handles _ h)

theorem Moves.preserves {c d : Context} (h : c.Moves d) (hc : c.Valid) : c.Preserves d := by
  cases h with
  | still programs bound handles =>
    refine ⟨by rw [handles]; exact fun _ _ h => h, fun _ _ => by rw [programs], fun _ _ h => ?_⟩
    rwa [isBoundTo, bound, handles]
  | placed p programs bound handles =>
    refine ⟨by rw [handles]; exact fun _ _ h => h, fun place hplace => ?_, fun handle _ _ => ?_⟩
    · -- the new program lies behind the places of all handles
      rw [programs, Array.getElem?_push_lt (hc.handles place hplace),
        Array.getElem?_eq_getElem (hc.handles place hplace)]
    · exact isBoundTo_of_notMem bound (by rw [handles]; exact hc.size_notMem) handle
  | overwritten place p own programs bound before handles =>
    refine ⟨by rw [handles]; exact fun _ _ h => h, fun held hheld => ?_, fun _ _ h => ?_⟩
    · have hother : place ≠ held := fun h => own (h ▸ hheld)
      rw [programs, Array.getElem?_setIfInBounds_ne hother]
    · rwa [isBoundTo, bound, handles]
  | shared place programs bound before handles =>
    have hkept : ∀ handle < c.handles.size, d.handles[handle]? = c.handles[handle]? := by
      intro handle hhandle
      rw [handles, Array.getElem?_push_lt hhandle, Array.getElem?_eq_getElem hhandle]
    refine ⟨fun handle held hheld => ?_, fun _ _ => by rw [programs], fun handle hhandle h => ?_⟩
    · rw [hkept handle (Array.getElem?_eq_some_iff.mp hheld).1]
      exact hheld
    · rwa [isBoundTo, bound, hkept handle hhandle]

theorem Preserves.handleProgram? {c d : Context} (h : c.Preserves d) {handle : Nat} {p : Program}
    (hp : c.handleProgram? handle = some p) : d.handleProgram? handle = some p := by
  obtain ⟨place, hplace, hprogram⟩ := Option.bind_eq_some_iff.mp hp
  rw [Context.handleProgram?, h.place handle place hplace, Option.bind_some,
    h.program place (Array.mem_of_getElem? hplace)]
  exact hprogram

/-! ## Programs that are bound anew -/

end Context

/-- The operation has loaded a text or set a parameter. -/
def Answer.Rebinds : Answer → Prop
  | loaded (.ok _) => True
  | set (.ok _) => True
  | _ => False

namespace Context

/-- What replaces the bound program lies in a place that no handle names. -/
theorem isBoundTo_replace {c : Context} {p : Program} (hc : c.Valid) (h : c.program? = some p)
    (q : Program) (handle : Nat) : (c.replace q).isBoundTo handle = false := by
  obtain ⟨place, hbound, -⟩ := Option.bind_eq_some_iff.mp h
  unfold replace
  simp only [hbound]
  by_cases hshared : c.handles.contains place = true
  · rw [if_pos hshared]
    exact isBoundTo_bind hc.size_notMem q handle
  · rw [if_neg hshared]
    rw [Array.contains_iff_mem] at hshared
    exact isBoundTo_of_notMem (c := c.put place q) hbound hshared handle

theorem Does.isBoundTo {c d : Context} {operation : Operation} {answer : Answer}
    (h : c.Does operation answer d) (hc : c.Valid) (hrebinds : answer.Rebinds) (handle : Nat) :
    d.isBoundTo handle = false := by
  cases h with
  | @loaded _ p _ _ => exact isBoundTo_bind hc.size_notMem p handle
  | setLocal bound => exact isBoundTo_replace hc bound _ handle
  | setNamed bound => exact isBoundTo_replace hc bound _ handle
  | _ => exact hrebinds.elim

/-- What a span run answers depends on nothing but the bound program. -/
theorem executeSpan_congr {c d : Context} (h : c.program? = d.program?) (span : Span)
    (sampler : Sampler) : (c.executeSpan span sampler).1 = (d.executeSpan span sampler).1 := by
  unfold executeSpan
  rw [h]
  cases d.program? with
  | none => rfl
  | some p =>
    dsimp only
    cases Interpreter.runSpan p sampler span {} <;> rfl

end Context

namespace Session

/-- The places exist, and handles keep what they had in an earlier context.  If one of them still
names the bound program, no call since then has bound another one. -/
structure Follows (c : Context) (s : Session) : Prop where
  valid : s.context.Valid
  preserves : c.Preserves s.context
  rebound : (∃ call ∈ s.calls, call.answer.Rebinds) →
    ∀ handle < c.handles.size, s.context.isBoundTo handle = false

theorem follows_after {c : Context} (hc : c.Valid) (operations : List Operation) :
    (c.after operations).Follows c := by
  apply run_preserves
  · intro s operation hs
    have hdoes := s.context.does_perform operation
    have hpreserves := hdoes.moves.preserves hs.valid
    refine ⟨hdoes.moves.valid hs.valid, hs.preserves.trans hpreserves, ?_⟩
    rintro ⟨call, hcall, hrebinds⟩ handle hhandle
    rcases List.mem_cons.mp hcall with rfl | hcall
    · exact hdoes.isBoundTo hs.valid hrebinds handle
    · -- the handle was detached before, and stays so
      have hkept := hs.preserves.place handle _ (Array.getElem?_eq_getElem hhandle)
      exact hpreserves.detached handle (Array.getElem?_eq_some_iff.mp hkept).1
        (hs.rebound ⟨call, hcall, hrebinds⟩ handle hhandle)
  · refine ⟨hc, .refl c, ?_⟩
    rintro ⟨call, hcall, -⟩
    cases hcall

end Session

namespace Context

theorem valid_after (operations : List Operation) :
    (({} : Context).after operations).context.Valid :=
  (Session.follows_after valid_empty operations).valid

/-- The handle that is handed out names the bound program. -/
theorem Valid.program?_of_handOut {c d : Context} {handle : Nat} (hc : c.Valid)
    (h : c.handOut = (some handle, d)) :
    handle < d.handles.size ∧ d.isBoundTo handle = true ∧
      ∃ p, c.program? = some p ∧ d.handleProgram? handle = some p := by
  cases hbound : c.bound with
  | none =>
    rw [handOut_of_none hbound] at h
    cases h
  | some place =>
    rw [handOut_of_bound hbound] at h
    cases h
    have hlast : (c.handles.push place)[c.handles.size]? = some place := Array.getElem?_push_size
    obtain ⟨p, hp⟩ : ∃ p, c.programs[place]? = some p :=
      ⟨_, Array.getElem?_eq_getElem (hc.bound place hbound)⟩
    refine ⟨?_, isBoundTo_eq_true.mpr ⟨place, hbound, hlast⟩, p, ?_, ?_⟩
    · rw [Array.size_push]
      exact Nat.lt_succ_self _
    · rw [program?, hbound]
      exact hp
    · simp only [handleProgram?, hlast]
      exact hp

/-- Runs the program of a handle on a span, as a context does with its bound program. -/
def executeHandle (c : Context) (handle : Nat) (span : Span) (sampler : Sampler) :
    Except ContextError SpanRun :=
  match c.handleProgram? handle with
  | none => .error .noProgram
  | some p => ((({} : Context).bind p).executeSpan span sampler).1

end Context

/-- A handle keeps the program that was bound when it was handed out, and runs as that program did
then.  It names the bound program until a text is loaded or a parameter is set, at the latest, and
once a parameter was set no handle does. -/
theorem handle_isolated (earlier later : List Operation) {handle : Nat} {c : Context}
    (h : (({} : Context).after earlier).context.handOut = (some handle, c)) :
    c.isBoundTo handle = true ∧
    (∃ p, (({} : Context).after earlier).context.program? = some p ∧
      (c.after later).context.handleProgram? handle = some p) ∧
    (∀ span sampler, (c.after later).context.executeHandle handle span sampler =
      ((({} : Context).after earlier).context.executeSpan span sampler).1) ∧
    ((c.after later).context.isBoundTo handle = true →
      ∀ call ∈ (c.after later).calls, ¬ call.answer.Rebinds) ∧
    ∀ operation d, (c.after later).context.perform operation = (.set (.ok ()), d) →
      ∀ other, d.isBoundTo other = false := by
  have hvalid := Context.valid_after earlier
  obtain ⟨hhandle, hbound, p, hbefore, hprogram⟩ := hvalid.program?_of_handOut h
  have hstep := (({} : Context).after earlier).context.does_perform .handOut
  have hc : c.Valid := by
    have hsame : (({} : Context).after earlier).context.handOut.2 = c := by rw [h]
    exact hsame ▸ hstep.moves.valid hvalid
  have hfollows := Session.follows_after hc later
  have hkept := hfollows.preserves.handleProgram? hprogram
  refine ⟨hbound, ⟨p, hbefore, hkept⟩, fun span sampler => ?_, fun hstill call hcall hrebinds => ?_,
    fun operation d hset other => ?_⟩
  · unfold Context.executeHandle
    rw [hkept]
    exact Context.executeSpan_congr (hbefore.symm ▸ rfl) span sampler
  · rw [hfollows.rebound ⟨call, hcall, hrebinds⟩ handle hhandle] at hstill
    cases hstill
  · have hdoes := (c.after later).context.does_perform operation
    rw [hset] at hdoes
    exact hdoes.isBoundTo hfollows.valid trivial other

/-- Setting a parameter leaves the program that was handed out alone, and binds a copy. -/
theorem handle_isolated_blend :
    ∃ c p, (({} : Context).after [.load blendText]).context.handOut = (some 0, c) ∧
      p.parameters.value 0 = Quad.replicate .one ∧ c.isBoundTo 0 = true ∧
      (c.after [.setNamedParameter "tint" Quad.zero]).context.handleProgram? 0 = some p ∧
      (c.after [.setNamedParameter "tint" Quad.zero]).context.isBoundTo 0 = false := by
  obtain ⟨p, hp, hparameters⟩ := compile_blendText
  obtain ⟨notes, hcontext⟩ := Context.after_load hp
  let c : Context := { programs := #[p], bound := some 0, handles := #[0], notes }
  have hout : (({} : Context).after [.load blendText]).context.handOut = (some 0, c) := by
    rw [hcontext]
    rfl
  obtain ⟨hbound, ⟨q, hbefore, hkept⟩, -, hrebound, -⟩ :=
    handle_isolated [.load blendText] [.setNamedParameter "tint" Quad.zero] hout
  have hset : (c.perform (.setNamedParameter "tint" Quad.zero)).1 = .set (.ok ()) := by
    rw [Context.perform, Context.setNamedParameter_of_program? (show c.program? = some p from rfl),
      withNamed_blend hparameters]
    rfl
  rw [hcontext] at hbefore
  cases hbefore
  refine ⟨c, p, hout, ?_, hbound, hkept, ?_⟩
  · rw [hparameters]
    rfl
  · rw [Bool.eq_false_iff]
    intro hstill
    refine hrebound hstill _ List.mem_cons_self ?_
    dsimp only [List.foldl_nil]
    rw [hset]
    trivial

end FragmentAssembly

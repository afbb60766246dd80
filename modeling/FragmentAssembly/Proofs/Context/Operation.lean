import FragmentAssembly.Proofs.Outcome
import FragmentAssembly.Proofs.Program.Update

/-!
# Operations on a context

What can be asked of a context, as data, with what it answers.  A context is asked one operation
after the other, and all that one of them can do to it is said by `Context.Does`.
-/

namespace FragmentAssembly

/-! ## Operations and answers -/

inductive Operation where
  | load (source : String)
  | setLocalParameter (index : Nat) (value : Vec4)
  | setNamedParameter (name : String) (value : Vec4)
  | executeSpan (span : Span) (sampler : Sampler)
  | handOut

inductive Answer where
  | loaded (result : Except ParseError Unit)
  | set (result : Except ContextError Unit)
  | executed (result : Except ContextError Context.SpanRun)
  | handedOut (handle : Option Nat)

/-- Whether an operation failed.  That there is no program to hand out is no failure. -/
def Answer.IsError : Answer → Prop
  | loaded (.error _) => True
  | set (.error _) => True
  | executed (.error _) => True
  | _ => False

/-- An operation with its answer. -/
structure Call where
  operation : Operation
  answer : Answer

/-- A context with the calls made on it, the last one first. -/
structure Session where
  context : Context := {}
  calls : List Call := []

def Context.perform (c : Context) : Operation → Answer × Context
  | .load source => ((c.load source).map .loaded id)
  | .setLocalParameter index value => ((c.setLocalParameter index value).map .set id)
  | .setNamedParameter name value => ((c.setNamedParameter name value).map .set id)
  | .executeSpan span sampler => ((c.executeSpan span sampler).map .executed id)
  | .handOut => (c.handOut.map .handedOut id)

namespace Session

def call (s : Session) (operation : Operation) : Session where
  context := (s.context.perform operation).2
  calls := ⟨operation, (s.context.perform operation).1⟩ :: s.calls

def run (s : Session) (operations : List Operation) : Session :=
  operations.foldl call s

theorem run_concat (s : Session) (operations : List Operation) (operation : Operation) :
    s.run (operations ++ [operation]) = (s.run operations).call operation :=
  List.foldl_append

/-- What every call keeps is true after all of them. -/
theorem run_preserves {P : Session → Prop} (hcall : ∀ s operation, P s → P (s.call operation))
    {s : Session} (hs : P s) (operations : List Operation) : P (s.run operations) := by
  induction operations generalizing s with
  | nil => exact hs
  | cons operation operations ih => exact ih (hcall s operation hs)

end Session

/-- The session in which a context is asked some operations. -/
def Context.after (c : Context) (operations : List Operation) : Session :=
  (Session.mk c []).run operations

theorem Context.after_concat (c : Context) (operations : List Operation) (operation : Operation) :
    c.after (operations ++ [operation]) = (c.after operations).call operation :=
  Session.run_concat _ operations operation

/-! ## Changes of a program -/

namespace Program

/-- A program with a local parameter set. -/
def withLocal (p : Program) (index : Nat) (value : Vec4) : Except ContextError Program :=
  if h : index < localParameterCount then
    .ok { p with localParameters := p.localParameters.set index value h }
  else .error (.invalidLocalParameter index)

/-- A program with a declared parameter set. -/
def withNamed (p : Program) (name : String) (value : Vec4) : Except ContextError Program :=
  match p.parameters.lookup? name with
  | none => .error (.undefinedParameter name)
  | some index =>
    if (p.parameters.get? index).any (·.kind = .declared) then
      .ok { p with parameters := p.parameters.setValue index value }
    else .error (.constantParameter name)

theorem withNamed_ok {p q : Program} {name : String} {value : Vec4}
    (h : p.withNamed name value = .ok q) :
    ∃ index, p.parameters.lookup? name = some index ∧
      (p.parameters.get? index).any (·.kind = .declared) = true ∧
      q = { p with parameters := p.parameters.setValue index value } := by
  unfold withNamed at h
  cases hfound : p.parameters.lookup? name with
  | none => simp only [hfound, reduceCtorEq] at h
  | some index =>
    simp only [hfound] at h
    split at h
    · rename_i hdeclared
      exact ⟨index, rfl, hdeclared, (Except.ok.inj h).symm⟩
    · cases h

end Program

namespace Context

/-- Puts a program in the place of the bound one, or in a new place if a handle names that
place. -/
def replace (c : Context) (q : Program) : Context :=
  match c.bound with
  | none => c
  | some place => if c.handles.contains place then c.bind q else c.put place q

theorem put_bind (c : Context) (p q : Program) : (c.bind p).put c.programs.size q = c.bind q := by
  have hpush : (c.programs.push p).setIfInBounds c.programs.size q = c.programs.push q := by
    have hlast : c.programs.size < (c.programs.push p).size := by
      rw [Array.size_push]
      exact Nat.lt_succ_self _
    rw [Array.setIfInBounds_def, dif_pos hlast, Array.set_push, dif_neg (Nat.lt_irrefl _)]
  simp only [put, bind, hpush]

theorem put_self {c : Context} {place : Nat} {p : Program} (h : c.programs[place]? = some p) :
    c.put place p = c := by
  have hsame : c.programs.setIfInBounds place p = c.programs := by
    obtain ⟨hplace, rfl⟩ := Array.getElem?_eq_some_iff.mp h
    rw [Array.setIfInBounds_def, dif_pos hplace, Array.set_getElem_self]
  rw [put, hsame]

/-- A program that was made the context's own is changed by replacing the bound one. -/
theorem own_of_program? {c : Context} {p : Program} (h : c.program? = some p) :
    ∃ place, c.own = .ok (place, p, c.replace p) ∧
      ∀ q, (c.replace p).put place q = c.replace q := by
  obtain ⟨place, hbound, hfound⟩ := Option.bind_eq_some_iff.mp h
  unfold own replace
  simp only [hbound, hfound]
  by_cases hshared : c.handles.contains place = true
  · simp only [hshared, if_true]
    exact ⟨c.programs.size, rfl, put_bind c p⟩
  · simp only [hshared, Bool.false_eq_true, if_false, put_self hfound]
    exact ⟨place, rfl, fun q => rfl⟩

theorem program?_bind (c : Context) (p : Program) : (c.bind p).program? = some p := by
  rw [program?, bind, Option.bind_some, Array.getElem?_push_size]

theorem program?_replace {c : Context} {p : Program} (h : c.program? = some p) (q : Program) :
    (c.replace q).program? = some q := by
  obtain ⟨place, hbound, hfound⟩ := Option.bind_eq_some_iff.mp h
  unfold replace
  simp only [hbound]
  split
  · exact program?_bind c q
  · exact program?_put hbound (Array.getElem?_eq_some_iff.mp hfound).1

theorem own_of_none {c : Context} (h : c.program? = none) : c.own = .error .noProgram := by
  unfold own
  cases hbound : c.bound with
  | none => rfl
  | some place =>
    have hnone : c.programs[place]? = none := by
      rw [program?, hbound] at h
      exact h
    simp only [hnone]

theorem handOut_of_bound {c : Context} {place : Nat} (h : c.bound = some place) :
    c.handOut = (some c.handles.size, { c with handles := c.handles.push place }) := by
  simp only [handOut, h]

theorem handOut_of_none {c : Context} (h : c.bound = none) : c.handOut = (none, c) := by
  simp only [handOut, h]

/-! ## What one operation does -/

theorem load_of_compile (c : Context) {source : String} {p : Program}
    (h : compile source = .ok p) :
    ∃ notes, c.load source =
      (.ok (), { c with errorPosition := none, errorText := "", notes }.bind p) := by
  rw [compile] at h
  unfold load
  dsimp only
  rw [h]
  exact ⟨_, rfl⟩

theorem load_of_error (c : Context) {source : String} {e : ParseError}
    (h : compile source = .error e) :
    ∃ notes, c.load source =
      (.error e, { c with
        errorPosition := some e.position, errorText := e.cause.message, notes }) := by
  rw [compile] at h
  unfold load
  dsimp only
  rw [h]
  exact ⟨_, rfl⟩

theorem setLocalParameter_of_program? {c : Context} {p : Program} (h : c.program? = some p)
    (index : Nat) (value : Vec4) :
    c.setLocalParameter index value = match p.withLocal index value with
      | .ok q => (.ok (), c.replace q)
      | .error e => (.error e, c) := by
  obtain ⟨place, hown, hput⟩ := own_of_program? h
  unfold setLocalParameter Program.withLocal
  by_cases hindex : index < localParameterCount
  · rw [dif_pos hindex, dif_pos hindex, hown]
    dsimp only
    rw [hput]
  · rw [dif_neg hindex, dif_neg hindex]

/-- The program is made the context's own even if the name turns out to be wrong. -/
theorem setNamedParameter_of_program? {c : Context} {p : Program} (h : c.program? = some p)
    (name : String) (value : Vec4) :
    c.setNamedParameter name value = match p.withNamed name value with
      | .ok q => (.ok (), c.replace q)
      | .error e => (.error e, c.replace p) := by
  obtain ⟨place, hown, hput⟩ := own_of_program? h
  unfold setNamedParameter Program.withNamed
  rw [hown]
  dsimp only
  cases p.parameters.lookup? name with
  | none => rfl
  | some index =>
    dsimp only
    by_cases hdeclared : (p.parameters.get? index).any (·.kind = .declared) = true
    · rw [if_pos hdeclared, if_pos hdeclared, hput]
    · rw [if_neg hdeclared, if_neg hdeclared]

/-- All that an operation can do: its answer, and the context behind it. -/
inductive Does (c : Context) : Operation → Answer → Context → Prop where
  | loaded {source : String} {p : Program} (compiled : compile source = .ok p)
    (notes : Array Note) :
    Does c (.load source) (.loaded (.ok ()))
      ({ c with errorPosition := none, errorText := "", notes }.bind p)
  | rejected {source : String} {e : ParseError} (failed : compile source = .error e)
    (notes : Array Note) :
    Does c (.load source) (.loaded (.error e))
      { c with errorPosition := some e.position, errorText := e.cause.message, notes }
  | setLocal {p q : Program} {index : Nat} {value : Vec4} (bound : c.program? = some p)
    (changed : p.withLocal index value = .ok q) :
    Does c (.setLocalParameter index value) (.set (.ok ())) (c.replace q)
  | refusedLocal {index : Nat} {value : Vec4} (outside : ¬ index < localParameterCount) :
    Does c (.setLocalParameter index value) (.set (.error (.invalidLocalParameter index))) c
  | unboundLocal {index : Nat} {value : Vec4} (inside : index < localParameterCount)
    (unbound : c.program? = none) :
    Does c (.setLocalParameter index value) (.set (.error .noProgram)) c
  | setNamed {p q : Program} {name : String} {value : Vec4} (bound : c.program? = some p)
    (changed : p.withNamed name value = .ok q) :
    Does c (.setNamedParameter name value) (.set (.ok ())) (c.replace q)
  | refusedNamed {p : Program} {name : String} {value : Vec4} {e : ContextError}
    (bound : c.program? = some p) (wrong : p.withNamed name value = .error e) :
    Does c (.setNamedParameter name value) (.set (.error e)) (c.replace p)
  | unboundNamed {name : String} {value : Vec4} (unbound : c.program? = none) :
    Does c (.setNamedParameter name value) (.set (.error .noProgram)) c
  | executed {p : Program} {span : Span} {sampler : Sampler} (bound : c.program? = some p)
    (run : SpanRun) (notes : Array Note) :
    Does c (.executeSpan span sampler) (.executed (.ok run)) { c with notes }
  | unboundExecute {span : Span} {sampler : Sampler} (unbound : c.program? = none) :
    Does c (.executeSpan span sampler) (.executed (.error .noProgram)) c
  | handedOut {place : Nat} (bound : c.bound = some place) :
    Does c .handOut (.handedOut (some c.handles.size)) { c with handles := c.handles.push place }
  | unboundHandOut (unbound : c.bound = none) : Does c .handOut (.handedOut none) c

theorem does_load (c : Context) (source : String) :
    Does c (.load source) (c.perform (.load source)).1 (c.perform (.load source)).2 := by
  unfold perform
  dsimp only
  cases hmade : compile source with
  | ok p =>
    obtain ⟨notes, hload⟩ := c.load_of_compile hmade
    rw [hload]
    exact .loaded hmade notes
  | error e =>
    obtain ⟨notes, hload⟩ := c.load_of_error hmade
    rw [hload]
    exact .rejected hmade notes

theorem does_setLocalParameter (c : Context) (index : Nat) (value : Vec4) :
    Does c (.setLocalParameter index value) (c.perform (.setLocalParameter index value)).1
      (c.perform (.setLocalParameter index value)).2 := by
  unfold perform
  dsimp only
  by_cases hindex : index < localParameterCount
  · cases hbound : c.program? with
    | none =>
      rw [setLocalParameter, dif_pos hindex, own_of_none hbound]
      exact .unboundLocal hindex hbound
    | some p =>
      rw [setLocalParameter_of_program? hbound, Program.withLocal, dif_pos hindex]
      exact .setLocal hbound (dif_pos hindex)
  · -- a wrong index is found out before the program is looked at
    rw [setLocalParameter, dif_neg hindex]
    exact .refusedLocal hindex

theorem does_setNamedParameter (c : Context) (name : String) (value : Vec4) :
    Does c (.setNamedParameter name value) (c.perform (.setNamedParameter name value)).1
      (c.perform (.setNamedParameter name value)).2 := by
  unfold perform
  dsimp only
  cases hbound : c.program? with
  | none =>
    unfold setNamedParameter
    rw [own_of_none hbound]
    exact .unboundNamed hbound
  | some p =>
    rw [setNamedParameter_of_program? hbound]
    cases hchanged : p.withNamed name value with
    | ok q => exact .setNamed hbound hchanged
    | error e => exact .refusedNamed hbound hchanged

theorem does_executeSpan (c : Context) (span : Span) (sampler : Sampler) :
    Does c (.executeSpan span sampler) (c.perform (.executeSpan span sampler)).1
      (c.perform (.executeSpan span sampler)).2 := by
  unfold perform executeSpan
  cases hbound : c.program? with
  | none => exact .unboundExecute hbound
  | some p =>
    dsimp only
    cases Interpreter.runSpan p sampler span {} with
    | ok a s => exact .executed hbound _ _
    | error e s => exact .executed hbound _ _

theorem does_handOut (c : Context) :
    Does c .handOut (c.perform .handOut).1 (c.perform .handOut).2 := by
  unfold perform
  dsimp only
  cases hbound : c.bound with
  | none =>
    rw [handOut_of_none hbound]
    exact .unboundHandOut hbound
  | some place =>
    rw [handOut_of_bound hbound]
    exact .handedOut hbound

theorem does_perform (c : Context) (operation : Operation) :
    Does c operation (c.perform operation).1 (c.perform operation).2 := by
  cases operation with
  | load source => exact c.does_load source
  | setLocalParameter index value => exact c.does_setLocalParameter index value
  | setNamedParameter name value => exact c.does_setNamedParameter name value
  | executeSpan span sampler => exact c.does_executeSpan span sampler
  | handOut => exact c.does_handOut

end Context

/-! ## A context with a program -/

/-- A program with a parameter, a constant and a literal of the same value. -/
def blendText : String :=
  "!!FP1.0 DECLARE tint = 1.0; DEFINE white = 1.0; MAD R0, tint, white, p[0]; "
    ++ "MUL o[COLR], R0, 1.0; END"

def blendTable : ParameterTable :=
  .ofEntries [⟨some "tint", .declared, Quad.replicate .one⟩,
    ⟨some "white", .constant, Quad.replicate .one⟩, ⟨none, .literal, Quad.replicate .one⟩]

theorem compile_blendText : ∃ p, compile blendText = .ok p ∧ p.parameters = blendTable :=
  exists_of_decide (by decide +kernel)

/-- Its parameter can be set. -/
theorem withNamed_blend {p : Program}
    (h : p.parameters = blendTable) (value : Vec4) :
    p.withNamed "tint" value =
      .ok { p with parameters := p.parameters.setValue 0 value } := by
  have hfound : p.parameters.lookup? "tint" = some 0 := by
    rw [h]
    decide
  have hdeclared : (p.parameters.get? 0).any (·.kind = .declared) = true := by
    rw [h]
    decide
  unfold Program.withNamed
  rw [hfound]
  exact if_pos hdeclared

/-- After a first text was loaded, its program stands alone in place 0. -/
theorem Context.after_load {source : String} {p : Program} (h : compile source = .ok p) :
    ∃ notes, (({} : Context).after [.load source]).context =
      { programs := #[p], bound := some 0, notes } := by
  obtain ⟨notes, hload⟩ := ({} : Context).load_of_compile h
  refine ⟨notes, ?_⟩
  simp only [after, Session.run, List.foldl_cons, List.foldl_nil, Session.call, perform, hload,
    Prod.map_snd, id, bind]
  rfl

end FragmentAssembly

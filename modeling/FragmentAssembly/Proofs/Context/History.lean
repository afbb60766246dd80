import FragmentAssembly.Proofs.Context.Operation
import FragmentAssembly.Proofs.Program.Parameters

/-!
# Contexts by their histories

What is bound, and what is known of an error, can be told from the calls made so far: the program
of the last text that was loaded, with the values set since then, and the outcome of the last
attempt to load one.
-/

namespace FragmentAssembly

/-! ## What calls did -/

namespace Call

/-- The text of a call that loaded one. -/
def loads? : Call → Option String
  | ⟨.load source, .loaded (.ok _)⟩ => some source
  | _ => none

/-- What an attempt to load a text gave. -/
def attempts? : Call → Option (Except ParseError Unit)
  | ⟨.load _, .loaded result⟩ => some result
  | _ => none

/-- The value that a call set a local parameter to. -/
def setsLocal? (index : Nat) : Call → Option Vec4
  | ⟨.setLocalParameter i value, .set (.ok _)⟩ => if i = index then some value else none
  | _ => none

/-- The value that a call set a declared parameter to. -/
def setsNamed? (name : String) : Call → Option Vec4
  | ⟨.setNamedParameter other value, .set (.ok _)⟩ => if other = name then some value else none
  | _ => none

end Call

/-- A declared entry has the value that it was last set to, if it was set. -/
def Parameter.tuned (calls : List Call) (entry : Parameter) : Parameter :=
  match entry.kind, entry.name with
  | .declared, some name =>
    { entry with value := (calls.findSome? (Call.setsNamed? name)).getD entry.value }
  | _, _ => entry

/-- The program with the values that calls have set, and zero for other local parameters. -/
def Program.tuned (p : Program) (calls : List Call) : Program :=
  { p with
    parameters := { p.parameters with entries := p.parameters.entries.map (Parameter.tuned calls) }
    localParameters := Vector.ofFn fun index =>
      (calls.findSome? (Call.setsLocal? index.val)).getD Quad.zero }

/-- The text that was loaded last, by calls of which the last comes first. -/
def lastLoaded? (calls : List Call) : Option String :=
  calls.findSome? Call.loads?

/-- The calls since a text was loaded. -/
def sinceLoaded (calls : List Call) : List Call :=
  calls.takeWhile (·.loads?.isNone)

/-- The program that should be bound after some calls. -/
def programAfter? (calls : List Call) : Option Program :=
  (lastLoaded? calls).bind fun source =>
    (compile source).toOption.map (·.tuned (sinceLoaded calls))

/-- Place and text of the error of the last attempt to load a text, if it failed. -/
def errorAfter (calls : List Call) : Option Nat × String :=
  match calls.findSome? Call.attempts? with
  | some (.error e) => (some e.position, e.cause.message)
  | _ => (none, "")

/-! ## Tuned programs -/

namespace Parameter

@[simp] theorem name_tuned (calls : List Call) (entry : Parameter) :
    (entry.tuned calls).name = entry.name := by
  unfold tuned
  split <;> rfl

@[simp] theorem kind_tuned (calls : List Call) (entry : Parameter) :
    (entry.tuned calls).kind = entry.kind := by
  unfold tuned
  split <;> rfl

theorem tuned_declared {entry : Parameter} {name : String} (hkind : entry.kind = .declared)
    (hname : entry.name = some name) (calls : List Call) :
    entry.tuned calls =
      { entry with value := (calls.findSome? (Call.setsNamed? name)).getD entry.value } := by
  simp only [tuned, hkind, hname]

/-- A call that sets no parameter of this name makes no difference. -/
theorem tuned_cons {call : Call} {entry : Parameter}
    (h : ∀ name, entry.name = some name → call.setsNamed? name = none) (calls : List Call) :
    entry.tuned (call :: calls) = entry.tuned calls := by
  unfold tuned
  split
  · rename_i name _ hname
    rw [List.findSome?_cons, h name hname]
  · rfl

end Parameter

namespace Program

/-- Without calls a compiled program is as it is. -/
theorem tuned_nil {p : Program} (h : p.localParameters = Vector.replicate _ Quad.zero) :
    p.tuned [] = p := by
  have hentries : Parameter.tuned [] = id := by
    funext entry
    unfold Parameter.tuned
    split <;> rfl
  have hlocals : (Vector.ofFn fun index : Fin localParameterCount =>
      (([] : List Call).findSome? (Call.setsLocal? index.val)).getD Quad.zero) =
        p.localParameters := by
    rw [h]
    ext i hi
    simp
  unfold tuned
  rw [hentries, List.map_id, hlocals]

/-- A call that sets nothing makes no difference. -/
theorem tuned_cons {call : Call} (hlocal : ∀ index, call.setsLocal? index = none)
    (hnamed : ∀ name, call.setsNamed? name = none) (p : Program) (calls : List Call) :
    p.tuned (call :: calls) = p.tuned calls := by
  have hentries : Parameter.tuned (call :: calls) = Parameter.tuned calls :=
    funext fun entry => Parameter.tuned_cons (fun name _ => hnamed name) calls
  simp only [tuned, hentries, List.findSome?_cons, hlocal]

theorem withLocal_tuned {p q : Program} {calls : List Call} {index : Nat} {value : Vec4}
    (h : (p.tuned calls).withLocal index value = .ok q) :
    q = p.tuned (⟨.setLocalParameter index value, .set (.ok ())⟩ :: calls) := by
  let call : Call := ⟨.setLocalParameter index value, .set (.ok ())⟩
  unfold withLocal at h
  split at h
  · rename_i hindex
    obtain rfl := Except.ok.inj h
    have hentries : Parameter.tuned (call :: calls) = Parameter.tuned calls :=
      funext fun entry => Parameter.tuned_cons (fun _ _ => rfl) calls
    have hlocals : (p.tuned calls).localParameters.set index value hindex =
        (p.tuned (call :: calls)).localParameters := by
      ext i hi
      simp only [tuned, Vector.getElem_set, Vector.getElem_ofFn, List.findSome?_cons,
        Call.setsLocal?, call]
      split <;> rfl
    rw [hlocals]
    simp only [tuned, hentries, call]
  · cases h

theorem retuned_tuned (p : Program) (calls : List Call) : p.Retuned (p.tuned calls) := by
  refine ⟨rfl, List.forall₂_map_right_iff.mpr (List.forall₂_same.mpr fun entry _ => ?_), rfl⟩
  refine ⟨entry.name_tuned calls, entry.kind_tuned calls, fun hkind => ?_⟩
  unfold Parameter.tuned
  split
  · rename_i hdeclared _
    exact absurd hdeclared hkind
  · rfl

/-- The name of a declared parameter is that of no other entry, so no other one is set. -/
theorem setValue_tuned {p : Program} {calls : List Call} {name : String} {value : Vec4}
    {index : Nat} (hregular : p.parameters.IsRegular)
    (hfound : (p.tuned calls).parameters.lookup? name = some index)
    (hdeclared : ((p.tuned calls).parameters.get? index).any (·.kind = .declared) = true) :
    (p.tuned calls).parameters.setValue index value =
      (p.tuned (⟨.setNamedParameter name value, .set (.ok ())⟩ :: calls)).parameters := by
  let call : Call := ⟨.setNamedParameter name value, .set (.ok ())⟩
  have hstep := (p.retuned_tuned calls).parameters.inStep hregular.inStep
  obtain ⟨found, hget, hname⟩ := ParameterTable.get?_of_lookup? hstep hfound
  rw [hget, Option.any_some, decide_eq_true_eq] at hdeclared
  -- the entry as it was compiled
  have htuned : (p.parameters.entries[index]?).map (Parameter.tuned calls) = some found := by
    rw [← List.getElem?_map]
    exact hget
  obtain ⟨entry, hentry, rfl⟩ := Option.map_eq_some_iff.mp htuned
  rw [Parameter.name_tuned] at hname
  rw [Parameter.kind_tuned] at hdeclared
  unfold ParameterTable.setValue tuned
  rw [ParameterTable.mk.injEq]
  refine ⟨?_, rfl⟩
  refine List.ext_getElem? fun k => ?_
  rw [List.getElem?_modify, List.getElem?_map, List.getElem?_map]
  cases hk : p.parameters.entries[k]? with
  | none => simp only [Option.map_none, Option.map_eq_map]
  | some other =>
    by_cases hsame : index = k
    · subst hsame
      rw [hentry, Option.some.injEq] at hk
      subst hk
      simp [Parameter.tuned_declared hdeclared hname, Call.setsNamed?]
    · have hother : ∀ n, other.name = some n → call.setsNamed? n = none := by
        intro n hn
        refine if_neg fun hnames => hsame ?_
        exact hregular.index_eq hentry hk hname (by rw [hn, hnames])
      simp [hsame, Parameter.tuned_cons hother, call]

theorem withNamed_tuned {p q : Program} {calls : List Call} {name : String} {value : Vec4}
    (hregular : p.parameters.IsRegular)
    (h : (p.tuned calls).withNamed name value = .ok q) :
    q = p.tuned (⟨.setNamedParameter name value, .set (.ok ())⟩ :: calls) := by
  obtain ⟨index, hfound, hdeclared, rfl⟩ := withNamed_ok h
  rw [setValue_tuned hregular hfound hdeclared]
  simp only [tuned, List.findSome?_cons, Call.setsLocal?]

/-- What can be set by its name are the declared entries. -/
theorem withNamed_ok_iff {p : Program} (hregular : p.parameters.IsRegular) {name : String}
    {value : Vec4} : (∃ q, p.withNamed name value = .ok q) ↔
      ∃ entry ∈ p.parameters.entries, entry.name = some name ∧ entry.kind = .declared := by
  constructor
  · rintro ⟨q, hq⟩
    obtain ⟨index, hfound, hdeclared, -⟩ := withNamed_ok hq
    obtain ⟨entry, hentry, hname⟩ := ParameterTable.get?_of_lookup? hregular.inStep hfound
    rw [hentry, Option.any_some, decide_eq_true_eq] at hdeclared
    exact ⟨entry, ParameterTable.mem_of_get? hentry, hname, hdeclared⟩
  · rintro ⟨entry, hmem, hname, hkind⟩
    obtain ⟨index, hindex⟩ := List.mem_iff_getElem?.mp hmem
    have hfound := hregular.lookup?_eq_some.mpr ⟨entry, hindex, hname⟩
    have hdeclared : (p.parameters.get? index).any (·.kind = .declared) = true := by
      rw [ParameterTable.get?, hindex, Option.any_some, hkind]
      rfl
    unfold withNamed
    rw [hfound]
    exact ⟨_, if_pos hdeclared⟩

/-- The values of entries that can be set are the only things that an entry keeps of calls. -/
theorem declares_tuned {p : Program} {calls : List Call} {name : String} :
    (∃ entry ∈ (p.tuned calls).parameters.entries,
        entry.name = some name ∧ entry.kind = .declared) ↔
      ∃ entry ∈ p.parameters.entries, entry.name = some name ∧ entry.kind = .declared := by
  simp [tuned]

end Program

theorem localParameters_of_compile {source : String} {p : Program} (h : compile source = .ok p) :
    p.localParameters = Vector.replicate _ Quad.zero := by
  unfold compile compilation at h
  cases hprogram : Compile.program { cursor := Cursor.ofText source } with
  | error e d => simp only [hprogram, Draft.failure, reduceCtorEq] at h
  | ok instructions d =>
    simp only [hprogram, Draft.success] at h
    split at h
    · simp only [Draft.failure, reduceCtorEq] at h
    · simp only [Except.ok.injEq] at h
      subst h
      rfl

/-! ## Sessions -/

section Calls

variable {call : Call} {calls : List Call}

theorem lastLoaded?_cons (h : call.loads? = none) :
    lastLoaded? (call :: calls) = lastLoaded? calls := by
  rw [lastLoaded?, List.findSome?_cons, h]
  rfl

theorem sinceLoaded_cons (h : call.loads? = none) :
    sinceLoaded (call :: calls) = call :: sinceLoaded calls := by
  rw [sinceLoaded, List.takeWhile_cons, h]
  rfl

/-- A call that neither loads nor sets anything leaves the bound program as it was. -/
theorem programAfter?_cons (hloads : call.loads? = none)
    (hlocal : ∀ index, call.setsLocal? index = none)
    (hnamed : ∀ name, call.setsNamed? name = none) :
    programAfter? (call :: calls) = programAfter? calls := by
  unfold programAfter?
  simp only [lastLoaded?_cons hloads, sinceLoaded_cons hloads, Program.tuned_cons hlocal hnamed]

theorem programAfter?_eq_some {q : Program} : programAfter? calls = some q ↔
    ∃ source p, lastLoaded? calls = some source ∧ compile source = .ok p ∧
      q = p.tuned (sinceLoaded calls) := by
  unfold programAfter?
  rw [Option.bind_eq_some_iff]
  refine exists_congr fun source => ?_
  cases compile source with
  | error e => simp [Except.toOption]
  | ok p => simp [Except.toOption, eq_comm]

end Calls

namespace Context

variable {c : Context} {p : Program}

theorem errors_replace (c : Context) (q : Program) :
    (c.replace q).errorPosition = c.errorPosition ∧ (c.replace q).errorText = c.errorText := by
  unfold replace
  split
  · exact ⟨rfl, rfl⟩
  · split <;> exact ⟨rfl, rfl⟩

/-- Only an attempt to load a text concerns the error. -/
theorem Does.errors {d : Context} {operation : Operation} {answer : Answer}
    (h : c.Does operation answer d) (hother : ∀ source, operation ≠ .load source) :
    d.errorPosition = c.errorPosition ∧ d.errorText = c.errorText := by
  cases h with
  | loaded => exact absurd rfl (hother _)
  | rejected => exact absurd rfl (hother _)
  | setLocal => exact c.errors_replace _
  | setNamed => exact c.errors_replace _
  | refusedNamed => exact c.errors_replace _
  | _ => exact ⟨rfl, rfl⟩

theorem setLocalParameter_ok {index : Nat} {value : Vec4} :
    (c.setLocalParameter index value).1 = .ok () ↔
      index < localParameterCount ∧ c.program?.isSome = true := by
  by_cases hindex : index < localParameterCount
  · cases hbound : c.program? with
    | none =>
      rw [setLocalParameter, dif_pos hindex, own_of_none hbound]
      simp only [reduceCtorEq, Option.isSome_none, Bool.false_eq_true, and_false]
    | some p =>
      rw [setLocalParameter_of_program? hbound, Program.withLocal, dif_pos hindex]
      exact iff_of_true rfl ⟨hindex, rfl⟩
  · rw [setLocalParameter, dif_neg hindex]
    simp only [reduceCtorEq, hindex, false_and]

end Context

namespace Session

/-- The context is as its calls tell, and every text that was loaded compiles. -/
structure Told (s : Session) : Prop where
  program : s.context.program? = programAfter? s.calls
  error : (s.context.errorPosition, s.context.errorText) = errorAfter s.calls
  compiles : ∀ source, lastLoaded? s.calls = some source → ∃ p, compile source = .ok p

/-- A call that attempts to load nothing tells no error. -/
theorem Told.quiet {s : Session} {call : Call} {d : Context} (h : s.Told)
    (hattempts : call.attempts? = none) (hloads : call.loads? = none)
    (herrors : d.errorPosition = s.context.errorPosition ∧ d.errorText = s.context.errorText)
    (hprogram : d.program? = programAfter? (call :: s.calls)) :
    Told ⟨d, call :: s.calls⟩ where
  program := hprogram
  error := by
    rw [herrors.1, herrors.2, h.error, errorAfter, errorAfter, List.findSome?_cons, hattempts]
  compiles source hsource := by
    rw [lastLoaded?_cons hloads] at hsource
    exact h.compiles source hsource

/-- Setting a parameter of the bound program sets it in what the calls tell. -/
theorem Told.set {s : Session} {call : Call} {p q : Program} (h : s.Told)
    (hattempts : call.attempts? = none) (hloads : call.loads? = none)
    (hbound : s.context.program? = some p)
    (hchanged : ∀ (r : Program) (calls : List Call), r.parameters.IsRegular →
      p = r.tuned calls → q = r.tuned (call :: calls)) :
    Told ⟨s.context.replace q, call :: s.calls⟩ := by
  refine h.quiet hattempts hloads (s.context.errors_replace q) ?_
  rw [Context.program?_replace hbound]
  rw [h.program] at hbound
  obtain ⟨source, r, hloaded, hcompile, rfl⟩ := programAfter?_eq_some.mp hbound
  refine (programAfter?_eq_some.mpr ⟨source, r, ?_, hcompile, ?_⟩).symm
  · rw [lastLoaded?_cons hloads, hloaded]
  · rw [sinceLoaded_cons hloads]
    exact hchanged r _ (isRegular_of_compile hcompile) rfl

theorem Told.step {s : Session} {operation : Operation} {answer : Answer} {d : Context}
    (h : s.Told) (hdoes : s.context.Does operation answer d) :
    Told ⟨d, ⟨operation, answer⟩ :: s.calls⟩ := by
  cases hdoes with
  | @loaded source p compiled notes =>
    refine ⟨?_, rfl, ?_⟩
    · have hnone : p.tuned [] = p := Program.tuned_nil (localParameters_of_compile compiled)
      refine (s.context.program?_bind p).trans (programAfter?_eq_some.mpr ?_).symm
      exact ⟨source, p, rfl, compiled, hnone.symm⟩
    · rintro _ ⟨⟩
      exact ⟨p, compiled⟩
  | rejected failed notes =>
    refine ⟨?_, rfl, h.compiles⟩
    rw [programAfter?_cons rfl (fun _ => rfl) fun _ => rfl, ← h.program]
    rfl
  | setLocal bound changed =>
    refine h.set rfl rfl bound fun r calls _ hr => ?_
    rw [hr] at changed
    exact Program.withLocal_tuned changed
  | setNamed bound changed =>
    refine h.set rfl rfl bound fun r calls hregular hr => ?_
    rw [hr] at changed
    exact Program.withNamed_tuned hregular changed
  | refusedNamed bound wrong =>
    -- the copy holds what was bound before
    refine h.quiet rfl rfl (s.context.errors_replace _) ?_
    rw [Context.program?_replace bound, programAfter?_cons rfl (fun _ => rfl) fun _ => rfl,
      ← h.program, bound]
  | _ =>
    exact h.quiet rfl rfl ⟨rfl, rfl⟩
      (h.program.trans (programAfter?_cons rfl (fun _ => rfl) fun _ => rfl).symm)

/-- A text that was loaded is bound, in a tuned form. -/
theorem Told.isSome_program? {s : Session} (h : s.Told) :
    s.context.program?.isSome = true ↔ ∃ call ∈ s.calls, call.loads?.isSome = true := by
  rw [h.program, ← List.findSome?_isSome_iff, Option.isSome_iff_exists, Option.isSome_iff_exists]
  constructor
  · rintro ⟨q, hq⟩
    obtain ⟨source, -, hloaded, -⟩ := programAfter?_eq_some.mp hq
    exact ⟨source, hloaded⟩
  · rintro ⟨source, hloaded⟩
    obtain ⟨p, hcompile⟩ := h.compiles source hloaded
    exact ⟨_, programAfter?_eq_some.mpr ⟨source, p, hloaded, hcompile, rfl⟩⟩

/-- A name can be set if the text that was loaded last declares it. -/
theorem Told.setNamedParameter_ok {s : Session} (h : s.Told) (name : String) (value : Vec4) :
    (s.context.setNamedParameter name value).1 = .ok () ↔
      ∃ source p, lastLoaded? s.calls = some source ∧ compile source = .ok p ∧
        ∃ entry ∈ p.parameters.entries, entry.name = some name ∧ entry.kind = .declared := by
  have hprogram := h.program
  cases hbound : s.context.program? with
  | none =>
    -- then no text was loaded
    rw [Context.setNamedParameter, Context.own_of_none hbound]
    refine ⟨fun h => (nomatch h), ?_⟩
    rintro ⟨source, p, hloaded, hcompile, -⟩
    rw [hbound, programAfter?_eq_some.mpr ⟨source, p, hloaded, hcompile, rfl⟩] at hprogram
    cases hprogram
  | some q =>
    rw [hbound] at hprogram
    obtain ⟨source, p, hloaded, hcompile, rfl⟩ := programAfter?_eq_some.mp hprogram.symm
    have htuned := p.retuned_tuned (sinceLoaded s.calls)
    have hregular := (isRegular_of_compile hcompile).retuned htuned.parameters
    have hset : (s.context.setNamedParameter name value).1 = .ok () ↔
        ∃ q, (p.tuned (sinceLoaded s.calls)).withNamed name value = .ok q := by
      rw [Context.setNamedParameter_of_program? hbound]
      cases (p.tuned (sinceLoaded s.calls)).withNamed name value with
      | ok q => exact ⟨fun _ => ⟨q, rfl⟩, fun _ => rfl⟩
      | error e => exact ⟨fun h => (nomatch h), fun ⟨_, h⟩ => (nomatch h)⟩
    rw [hset, Program.withNamed_ok_iff hregular, Program.declares_tuned]
    constructor
    · exact fun hdeclares => ⟨source, p, hloaded, hcompile, hdeclares⟩
    · rintro ⟨source', p', hloaded', hcompile', hdeclares⟩
      rw [hloaded] at hloaded'
      cases hloaded'
      rw [hcompile] at hcompile'
      cases hcompile'
      exact hdeclares

theorem told_after (operations : List Operation) : (({} : Context).after operations).Told :=
  run_preserves (fun s operation h => h.step (s.context.does_perform operation))
    ⟨rfl, rfl, fun _ h => nomatch h⟩ operations

end Session

/-- What is bound, and what is told of errors, follows from the calls made so far.  Which calls
succeed follows from what is bound. -/
theorem context_of_calls (operations : List Operation) :
    let s := ({} : Context).after operations
    s.context.program? = programAfter? s.calls ∧
    (s.context.program?.isSome = true ↔ ∃ call ∈ s.calls, call.loads?.isSome = true) ∧
    (s.context.errorPosition, s.context.errorText) = errorAfter s.calls ∧
    (∀ source, (s.context.perform (.load source)).1 =
      .loaded ((compile source).map fun _ => ())) ∧
    (∀ operation, (∀ source, operation ≠ .load source) →
      (s.context.perform operation).2.errorPosition = s.context.errorPosition ∧
      (s.context.perform operation).2.errorText = s.context.errorText) ∧
    (∀ name value, (s.context.perform (.setNamedParameter name value)).1 = .set (.ok ()) ↔
      ∃ source p, lastLoaded? s.calls = some source ∧ compile source = .ok p ∧
        ∃ entry ∈ p.parameters.entries, entry.name = some name ∧ entry.kind = .declared) ∧
    ∀ index value, (s.context.perform (.setLocalParameter index value)).1 = .set (.ok ()) ↔
      index < localParameterCount ∧ s.context.program?.isSome = true := by
  intro s
  have htold : s.Told := Session.told_after operations
  refine ⟨htold.program, ?_, htold.error, fun source => ?_, fun operation hother => ?_,
    fun name value => ?_, fun index value => ?_⟩
  · exact htold.isSome_program?
  · cases hcompile : compile source with
    | ok p =>
      obtain ⟨notes, hload⟩ := s.context.load_of_compile hcompile
      rw [Context.perform, hload]
      rfl
    | error e =>
      obtain ⟨notes, hload⟩ := s.context.load_of_error hcompile
      rw [Context.perform, hload]
      rfl
  · exact (s.context.does_perform operation).errors hother
  · rw [← htold.setNamedParameter_ok name value]
    exact ⟨Answer.set.inj, congrArg _⟩
  · rw [← Context.setLocalParameter_ok]
    exact ⟨Answer.set.inj, congrArg _⟩

end FragmentAssembly

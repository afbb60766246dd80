import FragmentAssembly.Proofs.Execution.Reference
import FragmentAssembly.Proofs.Execution.Total

/-!
# Derivatives refine their reference

A nested run sets its flag exactly if the reference run is undefined, and ends like the reference
run otherwise.  The flag goes up through the enclosing derivatives and is cleared at the outermost
one, so the run of the fragment itself never sees it.
-/

namespace FragmentAssembly

/-! ## Results -/

/-- A state in which a value was found agrees with what the reference has found: with its value and
its lookups.  If the reference has found nothing, `absent` says what holds instead. -/
def ExecState.Agrees {α : Type} (t : ExecState) (absent : Prop) (a : α) :
    Option (α × Array Request) → Prop
  | some (b, requests) => a = b ∧ t.requests = requests ∧ t.tooDeep = false
  | none => absent

/-- From every state with machine `m` and without the flag, the action gives what the reference
finds, and it keeps the machine. -/
def RefinesOn (absent : Vec4 → ExecState → Prop) (m : Machine) (action : Exec Vec4)
    (found : Array Request → Option (Vec4 × Array Request)) : Prop :=
  ∀ s : ExecState, s.machine = m → s.tooDeep = false →
    ∃ a t, action s = .ok a t ∧ t.machine = m ∧ t.Agrees (absent a t) a (found s.requests)

/-- A way to find derivatives refines another one on every machine. -/
def Deriver.Refines (absent : Vec4 → ExecState → Prop) (derive : Deriver)
    (reference : Reference.Deriver) : Prop :=
  ∀ pc r axis m, RefinesOn absent m (derive pc r axis) (reference pc r axis m)

/-- In a nested run the flag stands for a derivative that is undefined. -/
def Flagged (_ : Vec4) (t : ExecState) : Prop :=
  t.tooDeep = true

/-- Zero comes with the flag, though no one is going to use it. -/
def Dropped (value : Vec4) (t : ExecState) : Prop :=
  value = Quad.zero ∧ Flagged value t

/-- In the run of the fragment itself zero stands for it. -/
def Zeroed (value : Vec4) (t : ExecState) : Prop :=
  value = Quad.zero ∧ t.tooDeep = false

theorem ExecState.Agrees.weaken {α : Type} {t : ExecState} {absent absent' : Prop} {a : α}
    {found : Option (α × Array Request)} (h : t.Agrees absent a found)
    (habsent : absent → absent') : t.Agrees absent' a found := by
  cases found with
  | none => exact habsent h
  | some found => exact h

theorem Deriver.Refines.weaken {absent absent' : Vec4 → ExecState → Prop} {derive : Deriver}
    {reference : Reference.Deriver} (h : Deriver.Refines absent derive reference)
    (habsent : ∀ value t, absent value t → absent' value t) :
    Deriver.Refines absent' derive reference := by
  intro pc r axis m s hm hflag
  obtain ⟨a, t, ha, hkept, hagrees⟩ := h pc r axis m s hm hflag
  exact ⟨a, t, ha, hkept, hagrees.weaken (habsent a t)⟩

theorem Readable.temporary_or_not (r : Readable) :
    (∃ i, r = .temporary i) ∨ ∀ i, r ≠ .temporary i := by
  cases r with
  | temporary i => exact .inl ⟨i, rfl⟩
  | input i => exact .inr nofun
  | localParameter i => exact .inr nofun
  | parameter i => exact .inr nofun

section Combinators

variable {α : Type} {absent : Vec4 → ExecState → Prop} {m : Machine}

theorem refinesOn_pure (value : Vec4) :
    RefinesOn absent m (pure value) fun requests => some (value, requests) :=
  fun s hm hflag => ⟨value, s, rfl, hm, rfl, rfl, hflag⟩

/-- An action that only reads the state goes before one that refines. -/
theorem refinesOn_bind {action : Exec α} {a : α} {f : α → Exec Vec4}
    {found : Array Request → Option (Vec4 × Array Request)}
    (hread : ∀ s : ExecState, s.machine = m → action s = .ok a s)
    (hf : RefinesOn absent m (f a) found) : RefinesOn absent m (action >>= f) found := by
  intro s hm hflag
  obtain ⟨b, t, hb, hkept, hagrees⟩ := hf s hm hflag
  exact ⟨b, t, bind_eq_ok.mpr ⟨a, s, hread s hm, hb⟩, hkept, hagrees⟩

end Combinators

namespace Job

variable {job : Job} {ins : Instruction} {absent : Vec4 → ExecState → Prop} {m : Machine}

theorem source_eq {n : Nat} {r : Source} (h : ins.sources[n]? = some r) (s : ExecState) :
    source ins n s = .ok r s := by
  unfold source
  rw [h]
  rfl

theorem vector_eq (job : Job) {n : Nat} {r : Source} (h : ins.sources[n]? = some r) {s : ExecState}
    (hm : s.machine = m) : job.vector ins n s = .ok (m.fetch job.program r) s := by
  unfold vector
  rw [bind_eq_ok]
  refine ⟨r, s, source_eq h s, ?_⟩
  rw [← hm]
  rfl

theorem scalar_eq (job : Job) {n : Nat} {r : Source} (h : ins.sources[n]? = some r) {s : ExecState}
    (hm : s.machine = m) : job.scalar ins n s = .ok (m.fetch job.program r).x s :=
  bind_eq_ok.mpr ⟨_, s, vector_eq job h hm, rfl⟩

/-- A request depends on the machine and on the lookups before it. -/
theorem request_eq (image : TextureImage) {mode : LookupMode}
    (hfragment : job.fragment < job.span.size)
    (hsources : (Computation.lookup mode).arity ≤ ins.sources.length) {s : ExecState}
    (hm : s.machine = m) :
    ∃ asked, Reference.request job m s.requests ins image mode = some asked ∧
      job.request ins image mode s = .ok asked s := by
  have hsource : ∀ n, n < (Computation.lookup mode).arity → ∃ r, ins.sources[n]? = some r :=
    fun n hn => ⟨_, List.getElem?_eq_getElem (Nat.lt_of_lt_of_le hn hsources)⟩
  obtain ⟨r, hr⟩ := hsource 0 (by cases mode <;> decide)
  have hfound : job.span.fragments[job.fragment]? = some job.span.fragments[job.fragment] :=
    List.getElem?_eq_getElem hfragment
  have hlambda : job.fragmentLambda image.unit s =
      .ok (job.span.fragments[job.fragment].lambda.get image.unit) s := by
    unfold fragmentLambda
    rw [hfound]
    rfl
  have hfirst := vector_eq job hr hm
  cases mode with
  | plain =>
    refine ⟨_, ?_, bind_eq_ok.mpr ⟨_, s, hfirst, bind_eq_ok.mpr ⟨_, s, hlambda, rfl⟩⟩⟩
    simp only [Reference.request, Reference.vector, hr, hfound, Option.map_some,
      Option.bind_eq_bind, Option.bind_some]
  | biased =>
    refine ⟨_, ?_, bind_eq_ok.mpr ⟨_, s, hfirst, bind_eq_ok.mpr ⟨_, s, hlambda, rfl⟩⟩⟩
    simp only [Reference.request, Reference.vector, hr, hfound, Option.map_some,
      Option.bind_eq_bind, Option.bind_some]
  | projective =>
    refine ⟨_, ?_, bind_eq_ok.mpr ⟨_, s, hfirst, bind_eq_ok.mpr ⟨_, s, hlambda, rfl⟩⟩⟩
    simp only [Reference.request, Reference.vector, hr, hfound, Option.map_some,
      Option.bind_eq_bind, Option.bind_some]
  | derivatives =>
    -- these lookups also read the lookups before them, for the size of the image
    obtain ⟨r', hr'⟩ := hsource 1 (by decide)
    obtain ⟨r'', hr''⟩ := hsource 2 (by decide)
    refine ⟨_, ?_, bind_eq_ok.mpr ⟨_, s, hfirst, bind_eq_ok.mpr ⟨_, s, hlambda,
      bind_eq_ok.mpr ⟨_, s, vector_eq job hr' hm, bind_eq_ok.mpr ⟨_, s, vector_eq job hr'' hm,
        bind_eq_ok.mpr ⟨s, s, rfl, rfl⟩⟩⟩⟩⟩⟩
    simp only [Reference.request, Reference.vector, hr, hr', hr'', hfound, Option.map_some,
      Option.bind_eq_bind, Option.bind_some]

theorem refinesOn_lookup {mode : LookupMode} (hfragment : job.fragment < job.span.size)
    (hsources : (Computation.lookup mode).arity ≤ ins.sources.length)
    (htexture : ins.texture.isSome = true) (derive : Reference.Deriver) (pc : Nat) :
    RefinesOn absent m (job.lookup ins mode)
      fun requests => Reference.compute job derive pc ins m requests (.lookup mode) := by
  intro s hm hflag
  obtain ⟨image, himage⟩ := Option.isSome_iff_exists.mp htexture
  obtain ⟨asked, hreference, hasked⟩ := request_eq image hfragment hsources hm
  refine ⟨job.sampler.answer s.requests asked, { s with requests := s.requests.push asked }, ?_, hm,
    ?_⟩
  · unfold lookup
    rw [himage]
    exact bind_eq_ok.mpr ⟨asked, s, hasked, rfl⟩
  · simp only [Reference.compute, himage, hreference, Option.bind_eq_bind, Option.bind_some]
    exact ⟨rfl, rfl, hflag⟩

theorem refinesOn_compute {derive : Deriver} {reference : Reference.Deriver} {c : Computation}
    (hfragment : job.fragment < job.span.size)
    (hderive : derive.Refines absent reference) (hsources : c.arity ≤ ins.sources.length)
    (htexture : c.samples = true → ins.texture.isSome = true) (pc : Nat) :
    RefinesOn absent m (job.compute derive pc ins c)
      fun requests => Reference.compute job reference pc ins m requests c := by
  have hsource : ∀ n, n < c.arity → ∃ r, ins.sources[n]? = some r := fun n hn =>
    ⟨_, List.getElem?_eq_getElem (Nat.lt_of_lt_of_le hn hsources)⟩
  -- what is fetched is the same in both, so each case follows the order of the reads
  cases c with
  | constant value => exact refinesOn_pure value
  | vector1 f =>
    obtain ⟨r, hr⟩ := hsource 0 (Nat.zero_lt_succ _)
    simp only [Reference.compute, Reference.vector, hr, Option.map_some, Option.bind_eq_bind,
      Option.bind_some]
    exact refinesOn_bind (fun s hm => vector_eq job hr hm) (refinesOn_pure _)
  | vector2 f =>
    obtain ⟨r, hr⟩ := hsource 0 (Nat.zero_lt_succ _)
    obtain ⟨r', hr'⟩ := hsource 1 Nat.one_lt_two
    simp only [Reference.compute, Reference.vector, hr, hr', Option.map_some, Option.bind_eq_bind,
      Option.bind_some]
    exact refinesOn_bind (fun s hm => vector_eq job hr hm)
      (refinesOn_bind (fun s hm => vector_eq job hr' hm) (refinesOn_pure _))
  | vector3 f =>
    obtain ⟨r, hr⟩ := hsource 0 (Nat.zero_lt_succ _)
    obtain ⟨r', hr'⟩ := hsource 1 (show 1 < 3 by decide)
    obtain ⟨r'', hr''⟩ := hsource 2 (show 2 < 3 by decide)
    simp only [Reference.compute, Reference.vector, hr, hr', hr'', Option.map_some,
      Option.bind_eq_bind, Option.bind_some]
    exact refinesOn_bind (fun s hm => vector_eq job hr hm)
      (refinesOn_bind (fun s hm => vector_eq job hr' hm)
        (refinesOn_bind (fun s hm => vector_eq job hr'' hm) (refinesOn_pure _)))
  | scalar1 f =>
    obtain ⟨r, hr⟩ := hsource 0 (Nat.zero_lt_succ _)
    simp only [Reference.compute, Reference.vector, hr, Option.map_some, Option.bind_eq_bind,
      Option.bind_some]
    exact refinesOn_bind (fun s hm => scalar_eq job hr hm) (refinesOn_pure _)
  | scalar2 f =>
    obtain ⟨r, hr⟩ := hsource 0 (Nat.zero_lt_succ _)
    obtain ⟨r', hr'⟩ := hsource 1 Nat.one_lt_two
    simp only [Reference.compute, Reference.vector, hr, hr', Option.map_some, Option.bind_eq_bind,
      Option.bind_some]
    exact refinesOn_bind (fun s hm => scalar_eq job hr hm)
      (refinesOn_bind (fun s hm => scalar_eq job hr' hm) (refinesOn_pure _))
  | derivative axis =>
    obtain ⟨r, hr⟩ := hsource 0 (Nat.zero_lt_succ _)
    simp only [Reference.compute, hr, Option.bind_eq_bind, Option.bind_some]
    exact refinesOn_bind (fun s _ => source_eq hr s) (hderive pc r axis m)
  | lookup mode => exact refinesOn_lookup hfragment hsources (htexture rfl) reference pc

/-! ## Instructions -/

/-- A store changes the machine, and nothing else but the events. -/
theorem store_eq (depth : Nat) (ins : Instruction) (value : Vec4) (s : ExecState) :
    ∃ events, store depth ins value s =
      .ok () { s with machine := (s.machine.store ins value).1, events } := by
  obtain ⟨⟨⟩, t, hstore⟩ := total_store depth ins value s
  rw [hstore]
  simp only [store, bind_eq_ok, get_eq_ok, set_eq_ok] at hstore
  obtain ⟨_, _, ⟨rfl, rfl⟩, _, _, rfl, hemit⟩ := hstore
  cases hwritten : (s.machine.store ins value).2 with
  | none =>
    rw [hwritten] at hemit
    obtain ⟨-, rfl⟩ := pure_eq_ok.mp hemit
    exact ⟨_, rfl⟩
  | some written =>
    rw [hwritten] at hemit
    obtain rfl := modify_eq_ok.mp hemit
    split
    · exact ⟨_, rfl⟩
    · exact ⟨_, rfl⟩

theorem emit_eq {depth : Nat} (hdepth : depth ≠ 0) (e : Event) (s : ExecState) :
    Exec.emit depth e s = .ok () s := by
  unfold Exec.emit
  rw [modify_eq_ok, if_neg hdepth]

theorem discard_eq {depth : Nat} (hdepth : depth ≠ 0) (pc : Nat) (s : ExecState) :
    job.discard depth pc s = .ok .killed s := by
  unfold discard
  dsimp only
  rw [if_neg hdepth, bind_eq_ok]
  exact ⟨(), s, emit_eq hdepth _ s, rfl⟩

/-- Shows an instruction to the observers and executes it. -/
def advance (job : Job) (depth : Nat) (derive : Deriver) (pc : Nat) (ins : Instruction) :
    Exec Flow := do
  Exec.emit depth (.instruction pc ins.position ins.opcode)
  job.step depth derive pc ins

section Advance

variable {depth pc : Nat} {derive : Deriver} {s t u : ExecState}

theorem advance_compute {c : Computation} {value : Vec4} (haction : ins.opcode.action = .compute c)
    (hemit : Exec.emit depth (.instruction pc ins.position ins.opcode) s = .ok () t)
    (hvalue : job.compute derive pc ins c t = .ok value u) :
    ∃ events, job.advance depth derive pc ins s =
      .ok .next { u with machine := (u.machine.store ins value).1, events } := by
  obtain ⟨events, hstore⟩ := store_eq depth ins value u
  refine ⟨events, bind_eq_ok.mpr ⟨(), t, hemit, ?_⟩⟩
  unfold step
  rw [haction]
  exact bind_eq_ok.mpr ⟨value, u, hvalue, bind_eq_ok.mpr ⟨(), _, hstore, rfl⟩⟩

theorem step_kill (job : Job) (derive : Deriver) (haction : ins.opcode.action = .kill)
    (s : ExecState) : job.step depth derive pc ins s =
      .ok (if s.machine.kills ins.condition then .kill else .next) s := by
  unfold step
  rw [haction]
  rfl

theorem step_halt (haction : ins.opcode.action = .halt) (s : ExecState) :
    job.step depth derive pc ins s = .ok .halt s := by
  unfold step
  rw [haction]
  rfl

theorem advance_kill (job : Job) (derive : Deriver) (haction : ins.opcode.action = .kill)
    (hemit : Exec.emit depth (.instruction pc ins.position ins.opcode) s = .ok () t) :
    job.advance depth derive pc ins s =
      .ok (if t.machine.kills ins.condition then .kill else .next) t :=
  bind_eq_ok.mpr ⟨(), t, hemit, step_kill job derive haction t⟩

theorem advance_halt (haction : ins.opcode.action = .halt)
    (hemit : Exec.emit depth (.instruction pc ins.position ins.opcode) s = .ok () t) :
    job.advance depth derive pc ins s = .ok .halt t :=
  bind_eq_ok.mpr ⟨(), t, hemit, step_halt haction t⟩

end Advance

/-! ## Runs -/

section Runs

variable {depth pc : Nat} {derive : Deriver} {rest : List Instruction} {s t u : ExecState}
  {outcome : Outcome}

theorem runFrom_cons :
    job.runFrom depth derive pc (ins :: rest) s = .ok outcome u ↔
      ∃ flow t, job.advance depth derive pc ins s = .ok flow t ∧
        (match flow with
          | .halt => pure .complete
          | .kill => job.discard depth pc
          | .next => do
            if (← get).tooDeep then return .complete
            else job.runFrom depth derive (pc + 1) rest : Exec Outcome) t = .ok outcome u := by
  simp only [runFrom, advance, bind_eq_ok]
  constructor
  · rintro ⟨_, r, hemit, flow, t, hstep, hrest⟩
    exact ⟨flow, t, ⟨_, r, hemit, hstep⟩, hrest⟩
  · rintro ⟨flow, t, ⟨_, r, hemit, hstep⟩, hrest⟩
    exact ⟨_, r, hemit, flow, t, hstep, hrest⟩

theorem runFrom_halt (h : job.advance depth derive pc ins s = .ok .halt t) :
    job.runFrom depth derive pc (ins :: rest) s = .ok .complete t :=
  runFrom_cons.mpr ⟨.halt, t, h, rfl⟩

theorem runFrom_kill (h : job.advance depth derive pc ins s = .ok .kill t)
    (hdiscard : job.discard depth pc t = .ok outcome u) :
    job.runFrom depth derive pc (ins :: rest) s = .ok outcome u :=
  runFrom_cons.mpr ⟨.kill, t, h, hdiscard⟩

/-- Without the flag a run goes on after an instruction. -/
theorem runFrom_next (h : job.advance depth derive pc ins s = .ok .next t)
    (hflag : t.tooDeep = false)
    (hrest : job.runFrom depth derive (pc + 1) rest t = .ok outcome u) :
    job.runFrom depth derive pc (ins :: rest) s = .ok outcome u := by
  refine runFrom_cons.mpr ⟨.next, t, h, bind_eq_ok.mpr ⟨t, t, rfl, ?_⟩⟩
  simp only [hflag, Bool.false_eq_true, if_false]
  exact hrest

/-- With the flag a run ends after the instruction that set it. -/
theorem runFrom_abort (h : job.advance depth derive pc ins s = .ok .next t)
    (hflag : t.tooDeep = true) :
    job.runFrom depth derive pc (ins :: rest) s = .ok .complete t := by
  refine runFrom_cons.mpr ⟨.next, t, h, bind_eq_ok.mpr ⟨t, t, rfl, ?_⟩⟩
  simp only [hflag, if_true]
  rfl

end Runs

/-- A nested run ends like the reference run, or with the flag where that is undefined. -/
theorem runFrom_agrees {depth : Nat} {derive : Deriver} {reference : Reference.Deriver}
    {instructions : List Instruction} (hdepth : depth ≠ 0)
    (hfragment : job.fragment < job.span.size) (hderive : derive.Refines Flagged reference)
    (hcomplete : ∀ ins ∈ instructions, ins.Complete) (pc : Nat) (s : ExecState)
    (hflag : s.tooDeep = false) :
    ∃ outcome t, job.runFrom depth derive pc instructions s = .ok outcome t ∧
      t.Agrees (t.tooDeep = true) t.machine
        (Reference.runFrom job reference pc instructions s.machine s.requests) := by
  -- in front of every instruction that is run the flag is clear
  induction instructions generalizing pc s with
  | nil => exact ⟨.complete, s, rfl, rfl, rfl, hflag⟩
  | cons ins rest ih =>
    have hrest := ih fun ins hins => hcomplete ins (List.mem_cons_of_mem _ hins)
    have hemit := emit_eq hdepth (.instruction pc ins.position ins.opcode) s
    unfold Reference.runFrom
    cases haction : ins.opcode.action with
    | compute c =>
      obtain ⟨hsources, htexture⟩ := hcomplete ins List.mem_cons_self c haction
      obtain ⟨value, u, hvalue, hmachine, hagrees⟩ :=
        refinesOn_compute hfragment hderive hsources htexture pc s rfl hflag
      obtain ⟨events, hadvance⟩ := advance_compute haction hemit hvalue
      dsimp only at hagrees ⊢
      cases hfound : Reference.compute job reference pc ins s.machine s.requests c with
      | none =>
        -- the flag stays set when the value is stored, and the run ends there
        rw [hfound] at hagrees
        exact ⟨.complete, _, runFrom_abort hadvance hagrees, hagrees⟩
      | some found =>
        obtain ⟨found, requests⟩ := found
        rw [hfound] at hagrees
        obtain ⟨hsame, hrequests, hclear⟩ := hagrees
        obtain ⟨outcome, t, hrun, hagrees⟩ := hrest (pc + 1)
          { u with machine := (u.machine.store ins value).1, events } hclear
        refine ⟨outcome, t, runFrom_next hadvance hclear hrun, ?_⟩
        dsimp only at hagrees
        rw [hmachine, hsame, hrequests] at hagrees
        exact hagrees
    | kill =>
      have hadvance : job.advance depth derive pc ins s =
          .ok (if s.machine.kills ins.condition then .kill else .next) s :=
        advance_kill job derive haction hemit
      dsimp only
      by_cases hkills : s.machine.kills ins.condition = true
      · rw [if_pos hkills] at hadvance ⊢
        exact ⟨.killed, s, runFrom_kill hadvance (discard_eq hdepth pc s), rfl, rfl, hflag⟩
      · rw [if_neg hkills] at hadvance ⊢
        obtain ⟨outcome, t, hrun, hagrees⟩ := hrest (pc + 1) s hflag
        exact ⟨outcome, t, runFrom_next hadvance hflag hrun, hagrees⟩
    | halt =>
      exact ⟨.complete, s, runFrom_halt (advance_halt haction hemit), rfl, rfl, hflag⟩

/-! ## Derivatives -/

/-- A nested run leaves the machine and the flag of the enclosing run as they are. -/
theorem onMachine_eq {other : Machine} {action : Exec Outcome} {s t : ExecState} {outcome : Outcome}
    (h : action { s with machine := other, tooDeep := false } = .ok outcome t) :
    onMachine other action s =
      .ok (if t.tooDeep then none else some t.machine)
        { t with machine := s.machine, tooDeep := s.tooDeep } := by
  unfold onMachine
  rw [h]

theorem refinesOn_difference (depth : Nat) {inner : Deriver} {reference : Reference.Deriver}
    (hfragment : job.fragment < job.span.size) (hinner : inner.Refines Dropped reference)
    (hcomplete : ∀ ins ∈ job.program.instructions, ins.Complete) (pc : Nat) (r : Source)
    (axis : Axis) (m : Machine) :
    RefinesOn Dropped m (job.difference depth inner pc r axis)
      (Reference.difference job reference pc r axis m) := by
  intro s hm hflag
  subst hm
  have hnested : ∀ ins ∈ job.program.instructions.take pc, ins.Complete :=
    fun ins hins => hcomplete ins (List.mem_of_mem_take hins)
  let noted : ExecState := { s with notes := s.notes.push (.rerun pc (depth + 1) axis) }
  obtain ⟨outcome, t, hrun, hagrees⟩ := runFrom_agrees (Nat.succ_ne_zero depth) hfragment
    (hinner.weaken fun _ _ => And.right) hnested 0
    { noted with machine := job.neighbour s.machine axis, tooDeep := false } rfl
  have hother := @onMachine_eq _ _ noted _ _ hrun
  unfold Reference.difference
  cases hfound : Reference.runFrom job reference 0 (job.program.instructions.take pc)
      (job.neighbour s.machine axis) s.requests with
  | none =>
    -- the nested run was cut short, and this run takes over its flag
    have hdeep : t.tooDeep = true := by
      dsimp only [noted] at hagrees
      rw [hfound] at hagrees
      exact hagrees
    rw [if_pos hdeep] at hother
    refine ⟨Quad.zero, { t with machine := s.machine, tooDeep := true }, ?_, rfl, rfl, rfl⟩
    exact bind_eq_ok.mpr ⟨(), noted, rfl, bind_eq_ok.mpr ⟨noted, noted, rfl,
      bind_eq_ok.mpr ⟨none, _, hother, rfl⟩⟩⟩
  | some found =>
    -- the nested run is complete, and this run gets its own clear flag back
    obtain ⟨shadow, requests⟩ := found
    obtain ⟨hshadow, hrequests, hclear⟩ : t.machine = shadow ∧ t.requests = requests ∧
        t.tooDeep = false := by
      dsimp only [noted] at hagrees
      rw [hfound] at hagrees
      exact hagrees
    rw [if_neg (Bool.eq_false_iff.mp hclear), hshadow] at hother
    refine ⟨Quad.zipWith Binary32.sub (shadow.fetch job.program r) (s.machine.fetch job.program r),
      { t with machine := s.machine, tooDeep := s.tooDeep }, ?_, rfl, rfl, hrequests, hflag⟩
    exact bind_eq_ok.mpr ⟨(), noted, rfl, bind_eq_ok.mpr ⟨noted, noted, rfl,
      bind_eq_ok.mpr ⟨some shadow, _, hother, rfl⟩⟩⟩

theorem settle_eq {depth : Nat} (hdepth : depth ≠ 0) (pc : Nat) (value : Vec4) (s : ExecState) :
    settle depth pc value s = .ok value s := by
  refine bind_eq_ok.mpr ⟨s, s, rfl, ?_⟩
  simp only [hdepth, decide_false, Bool.false_and, Bool.false_eq_true, if_false]
  rfl

/-- Without the flag there is nothing to settle. -/
theorem settle_clear (depth pc : Nat) (value : Vec4) {s : ExecState} (h : s.tooDeep = false) :
    settle depth pc value s = .ok value s := by
  refine bind_eq_ok.mpr ⟨s, s, rfl, ?_⟩
  simp only [h, Bool.and_false, Bool.false_eq_true, if_false]
  rfl

/-- The outermost derivative is zero if the flag is set, and it clears the flag. -/
theorem settle_deep (pc : Nat) (value : Vec4) {s : ExecState} (h : s.tooDeep = true) :
    settle 0 pc value s =
      .ok Quad.zero { s with tooDeep := false, notes := s.notes.push (.derivativeTooDeep pc) } := by
  refine bind_eq_ok.mpr ⟨s, s, rfl, ?_⟩
  simp only [h, decide_true, Bool.and_true, if_true]
  rfl

/-- The derivative of anything but a temporary needs no nested run, at no level. -/
theorem refinesOn_derivative_flat {levels pc : Nat} {r : Source} {axis : Axis}
    (hflat : ∀ i, r.register ≠ .temporary i) (m : Machine) :
    RefinesOn absent m (job.derivative levels pc r axis)
      (Reference.derivative job levels pc r axis m) := by
  intro s hm hflag
  unfold derivative Reference.derivative
  cases hregister : r.register with
  | temporary i => exact absurd hregister (hflat i)
  | parameter i => exact ⟨_, s, rfl, hm, rfl, rfl, hflag⟩
  | localParameter i => exact ⟨_, s, rfl, hm, rfl, rfl, hflag⟩
  | input i => exact ⟨_, s, bind_eq_ok.mpr ⟨s, s, rfl, rfl⟩, hm, by rw [hm], rfl, hflag⟩

/-- Inside a nested run derivatives refine the reference with as many levels left. -/
theorem refines_derivative {levels : Nat} (hlevels : levels < maxDerivativeDepth)
    (hfragment : job.fragment < job.span.size)
    (hcomplete : ∀ ins ∈ job.program.instructions, ins.Complete) :
    Deriver.Refines Dropped (job.derivative levels) (Reference.derivative job levels) := by
  induction levels with
  | zero =>
    intro pc r axis m
    rcases r.register.temporary_or_not with ⟨i, hi⟩ | hflat
    · intro s hm hflag
      unfold derivative Reference.derivative
      rw [hi]
      -- no level is left
      exact ⟨Quad.zero, { s with tooDeep := true }, rfl, hm, rfl, rfl⟩
    · exact refinesOn_derivative_flat hflat m
  | succ levels ih =>
    have hinner := ih (Nat.lt_of_succ_lt hlevels)
    -- the flag is not cleared here, since the derivative is not the outermost one
    have hdepth : depthAt (levels + 1) ≠ 0 := Nat.sub_ne_zero_of_lt hlevels
    intro pc r axis m
    rcases r.register.temporary_or_not with ⟨i, hi⟩ | hflat
    · intro s hm hflag
      obtain ⟨value, t, hvalue, hkept, hagrees⟩ := refinesOn_difference (depthAt (levels + 1))
        hfragment hinner hcomplete pc r axis m s hm hflag
      unfold derivative Reference.derivative
      rw [hi]
      exact ⟨value, t, bind_eq_ok.mpr ⟨value, t, hvalue, settle_eq hdepth pc value t⟩, hkept,
        hagrees⟩
    · exact refinesOn_derivative_flat hflat m

/-- The flag of a derivative in the run of the fragment itself is cleared at once, and its value is
zero then. -/
theorem refines_derivative_outermost (hfragment : job.fragment < job.span.size)
    (hcomplete : ∀ ins ∈ job.program.instructions, ins.Complete) :
    Deriver.Refines Zeroed (job.derivative maxDerivativeDepth)
      (Reference.derivative job maxDerivativeDepth) := by
  have hinner := refines_derivative (Nat.lt_succ_self 3) hfragment hcomplete
  intro pc r axis m
  rcases r.register.temporary_or_not with ⟨i, hi⟩ | hflat
  · intro s hm hflag
    obtain ⟨value, t, hvalue, hkept, hagrees⟩ :=
      refinesOn_difference 0 hfragment hinner hcomplete pc r axis m s hm hflag
    unfold maxDerivativeDepth derivative Reference.derivative
    rw [hi]
    dsimp only
    cases hfound : Reference.difference job (Reference.derivative job 3) pc r axis m s.requests with
    | none =>
      rw [hfound] at hagrees
      -- the value that came with the flag is dropped
      exact ⟨Quad.zero, { t with tooDeep := false, notes := t.notes.push (.derivativeTooDeep pc) },
        bind_eq_ok.mpr ⟨value, t, hvalue, settle_deep pc value hagrees.2⟩, hkept, rfl, rfl⟩
    | some found =>
      rw [hfound] at hagrees
      exact ⟨value, t, bind_eq_ok.mpr ⟨value, t, hvalue, settle_clear _ pc value hagrees.2.2⟩,
        hkept, hagrees⟩
  · exact refinesOn_derivative_flat hflat m

end Job

end FragmentAssembly

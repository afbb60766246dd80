import FragmentAssembly.Proofs.Execution.Embedding
import FragmentAssembly.Proofs.Execution.Outermost

/-!
# Insertion of a derivative

A `DDX` or `DDY` into a temporary that is used nowhere else does not change what a program does,
unless it takes a level that a later derivative needs: every nested run executes the derivatives
before it once more, whether their results are used or not.
-/

namespace FragmentAssembly

/-- The second program has one more instruction, at place `n`. -/
structure Program.Inserts (p q : Program) (n : Nat) (extra : Instruction) : Prop where
  before : List.Forall₂ (Instruction.Alike p.parameters q.parameters) (p.instructions.take n)
    (q.instructions.take n)
  here : q.instructions[n]? = some extra
  after : List.Forall₂ (Instruction.Alike p.parameters q.parameters) (p.instructions.drop n)
    (q.instructions.drop (n + 1))
  localParameters : q.localParameters = p.localParameters

instance (p q : Program) (n : Nat) (extra : Instruction) : Decidable (p.Inserts q n extra) :=
  decidable_of_iff
    (List.Forall₂ (Instruction.Alike p.parameters q.parameters) (p.instructions.take n)
        (q.instructions.take n) ∧
      q.instructions[n]? = some extra ∧
      List.Forall₂ (Instruction.Alike p.parameters q.parameters) (p.instructions.drop n)
        (q.instructions.drop (n + 1)) ∧
      q.localParameters = p.localParameters)
    ⟨fun h => ⟨h.1, h.2.1, h.2.2.1, h.2.2.2⟩, fun h => ⟨h.1, h.2, h.3, h.4⟩⟩

/-- Before instruction `pc` the outermost run looks for a derivative, and `found` says whether the
levels are enough for it. -/
def Job.Finds (job : Job) (start : ExecState) (pc : Nat) (found : Bool) : Prop :=
  ∃ s ins axis r, job.Reaches start pc s ∧ job.program.instructions[pc]? = some ins ∧
    ins.opcode.action = .compute (.derivative axis) ∧ ins.sources[0]? = some r ∧
    (Reference.derivative job maxDerivativeDepth pc r axis s.machine s.requests).isSome = found

/-- From place `n` on, some derivative is found in the first run only. -/
def Job.Loses (j k : Job) (start start' : ExecState) (n : Nat) : Prop :=
  ∃ pc, n ≤ pc ∧ j.Finds start pc true ∧ k.Finds start' (pc + 1) false

/-- Two actions give the same result without the flag, and their machines agree but for `d`. -/
def ResultsAlike {α : Type} (d : TemporaryIndex) (isRead : InputIndex → Prop)
    (x y : EStateM.Result Fault ExecState α) : Prop :=
  ∃ a s t, x = .ok a s ∧ y = .ok a t ∧ s.tooDeep = false ∧ t.tooDeep = false ∧
    s.machine.SameBut d isRead t.machine

/-- One of two derivatives is found, and the other one is not. -/
def Lost (x y : Option (Vec4 × Array Request)) : Prop :=
  x.isSome = true ∧ y.isSome = false

/-- If the values that two results stand for differ, the second one is lost. -/
theorem Follows.valueOrZero_eq {lost : Prop} {x y : Option (Vec4 × Array Request)}
    (h : Follows lost SameValue y x) :
    Reference.valueOrZero y = Reference.valueOrZero x ∨ lost ∧ Lost x y := by
  cases h with
  | missing h x =>
    cases x with
    | none => exact .inl rfl
    | some found => exact .inr ⟨h, rfl, rfl⟩
  | neither => exact .inl rfl
  | both h => exact .inl h

/-- Runs on the same fragment of a program and of one with insertions from `X`. -/
structure Job.Pairs (j k : Job) (d : TemporaryIndex) (X : Instruction → Prop) (lost : Prop) :
    Prop where
  twins : j.Twins k
  fragment : j.fragment < j.span.size
  left : ∀ ins ∈ j.program.instructions, ins.Complete
  right : ∀ ins ∈ k.program.instructions, ins.Complete
  inserted : ∀ x, X x → k.Inserted d lost x

section Insertion

variable {j k : Job} {d : TemporaryIndex} {lost : Prop} {X : Instruction → Prop}
  {a b : Instruction} {before before' : List Instruction} {s t : ExecState}

theorem Job.Pairs.fragment_right (hpairs : j.Pairs k d X lost) :
    k.fragment < k.span.size := by
  rw [hpairs.twins.fragment, hpairs.twins.span]
  exact hpairs.fragment

/-- Corresponding instructions that store a value store the same one, unless it is that of a
derivative that only one of the outermost runs finds. -/
theorem advance_compute_twin (hpairs : j.Pairs k d X lost)
    (hbegin : j.Beginnings k d X before before') (hab : a.Twin j k d b)
    (ha : a ∈ j.program.instructions) (hb : b ∈ k.program.instructions)
    (hs : s.tooDeep = false) (ht : t.tooDeep = false)
    (hsame : s.machine.SameBut d (j.BothRead k) t.machine) {c : Computation}
    (haction : a.opcode.action = .compute c) :
    ResultsAlike d (j.BothRead k)
        (j.advance 0 (j.derivative maxDerivativeDepth) before.length a s)
        (k.advance 0 (k.derivative maxDerivativeDepth) before'.length b t) ∨
      lost ∧ ∃ axis r r', c = .derivative axis ∧
        a.sources[0]? = some r ∧ b.sources[0]? = some r' ∧
        Lost
          (Reference.derivative j maxDerivativeDepth before.length r axis s.machine s.requests)
          (Reference.derivative k maxDerivativeDepth before'.length r' axis t.machine
            t.requests) := by
  have haction' : b.opcode.action = .compute c := by rw [hab.alike.opcode, haction]
  obtain ⟨value, u, hadvance, hmachine, hclear, hagrees⟩ :=
    Job.advance_outermost hpairs.fragment hpairs.left (hpairs.left a ha) haction hs before.length
  obtain ⟨value', v, hadvance', hmachine', hclear', hagrees'⟩ :=
    Job.advance_outermost hpairs.fragment_right hpairs.right (hpairs.right b hb) haction' ht
      before'.length
  have hfollows := compute_follows hpairs.twins hsame hab
    (derivative_follows maxDerivativeDepth hpairs.twins hpairs.fragment_right hpairs.inserted
      hbegin) s.requests t.requests c
  -- what was not found is zero, so both store the same unless only one value is missing
  rcases hfollows.valueOrZero_eq with hvalue | ⟨hlost, hfound, hmissed⟩
  · rw [← hagrees.eq_valueOrZero, ← hagrees'.eq_valueOrZero] at hvalue
    refine .inl ⟨.next, u, v, hadvance, hadvance', hclear, hclear', ?_⟩
    rw [hmachine, hmachine', store_twin hab, hvalue]
    exact sameBut_store hsame hab.avoids value
  · -- a value can only be missing at a derivative
    rw [Option.isSome_eq_false_iff, Option.isNone_iff_eq_none] at hmissed
    obtain ⟨axis, r', rfl, hr', hnone⟩ :=
      Reference.compute_eq_none hpairs.fragment_right (hpairs.right b hb) haction' hmissed
    rcases hab.source 0 with ⟨-, hnone'⟩ | ⟨r, r'', hr, hr'', -⟩
    · rw [hnone'] at hr'
      cases hr'
    · simp only [Reference.compute, hr, Option.bind_eq_bind, Option.bind_some] at hfound
      refine .inr ⟨hlost, axis, r, r', rfl, hr, hr', hfound, ?_⟩
      rw [hnone]
      rfl

/-- The two outermost runs do the same at corresponding instructions, unless only one of them
finds a derivative there. -/
theorem advance_twin (hpairs : j.Pairs k d X lost) (hbegin : j.Beginnings k d X before before')
    (hab : a.Twin j k d b) (ha : a ∈ j.program.instructions) (hb : b ∈ k.program.instructions)
    (hs : s.tooDeep = false) (ht : t.tooDeep = false)
    (hsame : s.machine.SameBut d (j.BothRead k) t.machine) :
    ResultsAlike d (j.BothRead k)
        (j.advance 0 (j.derivative maxDerivativeDepth) before.length a s)
        (k.advance 0 (k.derivative maxDerivativeDepth) before'.length b t) ∨
      lost ∧ ∃ axis r r', a.opcode.action = .compute (.derivative axis) ∧
        a.sources[0]? = some r ∧ b.sources[0]? = some r' ∧
        Lost
          (Reference.derivative j maxDerivativeDepth before.length r axis s.machine s.requests)
          (Reference.derivative k maxDerivativeDepth before'.length r' axis t.machine
            t.requests) := by
  have hemit := Job.emit_outermost (.instruction before.length a.position a.opcode) s
  have hemit' := Job.emit_outermost (.instruction before'.length b.position b.opcode) t
  have hopcode := hab.alike.opcode
  cases haction : a.opcode.action with
  | compute c =>
    rcases advance_compute_twin hpairs hbegin hab ha hb hs ht hsame haction with
      halike | ⟨hlost, axis, r, r', rfl, hrest⟩
    · exact .inl halike
    · exact .inr ⟨hlost, axis, r, r', rfl, hrest⟩
  | kill =>
    have haction' : b.opcode.action = .kill := by rw [hopcode, haction]
    have hadvance := Job.advance_kill j (j.derivative maxDerivativeDepth) haction hemit
    have hadvance' := Job.advance_kill k (k.derivative maxDerivativeDepth) haction' hemit'
    dsimp only at hadvance hadvance'
    rw [kills_twin hsame hab] at hadvance'
    exact .inl ⟨_, _, _, hadvance, hadvance', hs, ht, hsame⟩
  | halt =>
    have haction' : b.opcode.action = .halt := by rw [hopcode, haction]
    exact .inl ⟨.halt, _, _, Job.advance_halt haction hemit, Job.advance_halt haction' hemit', hs,
      ht, hsame⟩

/-- Corresponding instructions are run to the same result, if what follows them is and if no
derivative is lost. -/
theorem runFrom_twin {result : Prop} {start start' : ExecState} {added : Nat}
    {as bs cs ds : List Instruction} (hpairs : j.Pairs k d X lost)
    (hbefore : Embeds (Instruction.Twin j k d) X before before')
    (has : List.Forall₂ (Instruction.Twin j k d) as bs)
    (hleft : j.program.instructions = before ++ (as ++ cs))
    (hright : k.program.instructions = before' ++ (bs ++ ds))
    (hadded : before'.length = before.length + added)
    (hlost : ∀ pc, lost → before.length ≤ pc → j.Finds start pc true →
      k.Finds start' (pc + added) false → result)
    (hrest : ∀ s t, j.Reaches start (before.length + as.length) s →
      k.Reaches start' (before'.length + bs.length) t → s.tooDeep = false → t.tooDeep = false →
      s.machine.SameBut d (j.BothRead k) t.machine →
      ResultsAlike d (j.BothRead k)
        (j.runFrom 0 (j.derivative maxDerivativeDepth) (before.length + as.length) cs s)
        (k.runFrom 0 (k.derivative maxDerivativeDepth) (before'.length + bs.length) ds t) ∨ result)
    (hs : j.Reaches start before.length s) (ht : k.Reaches start' before'.length t)
    (hclear : s.tooDeep = false) (hclear' : t.tooDeep = false)
    (hsame : s.machine.SameBut d (j.BothRead k) t.machine) :
    ResultsAlike d (j.BothRead k)
      (j.runFrom 0 (j.derivative maxDerivativeDepth) before.length (as ++ cs) s)
      (k.runFrom 0 (k.derivative maxDerivativeDepth) before'.length (bs ++ ds) t) ∨ result := by
  -- the induction is on the corresponding instructions that are left, and what was run is carried
  -- along
  induction has generalizing before before' s t with
  | nil => exact hrest s t hs ht hclear hclear' hsame
  | @cons a b as bs head _ ih =>
    have hhere : j.program.instructions[before.length]? = some a := by
      rw [hleft, List.getElem?_append_right (Nat.le_refl _), Nat.sub_self]
      rfl
    have hhere' : k.program.instructions[before'.length]? = some b := by
      rw [hright, List.getElem?_append_right (Nat.le_refl _), Nat.sub_self]
      rfl
    have hbegin : j.Beginnings k d X before before' :=
      ⟨hbefore, ⟨_, hleft.symm⟩, ⟨_, hright.symm⟩⟩
    rcases advance_twin hpairs hbegin head (List.mem_of_getElem? hhere)
      (List.mem_of_getElem? hhere') hclear hclear' hsame with
      ⟨flow, u, v, hadvance, hadvance', hu, hv, huv⟩ |
      ⟨hmissing, axis, r, r', haction, hr, hr', hfound, hmissed⟩
    · cases flow with
      | next =>
        have hlength : (before ++ [a]).length = before.length + 1 := by simp
        have hlength' : (before' ++ [b]).length = before'.length + 1 := by simp
        have hcount : before.length + (a :: as).length = before.length + 1 + as.length := by
          rw [List.length_cons, Nat.add_assoc, Nat.add_comm 1]
        have hcount' : before'.length + (b :: bs).length = before'.length + 1 + bs.length := by
          rw [List.length_cons, Nat.add_assoc, Nat.add_comm 1]
        rw [hcount, hcount', ← hlength, ← hlength'] at hrest
        have hu' : j.Reaches start (before ++ [a]).length u := by
          rw [hlength]
          exact hs.next hhere hadvance
        have hv' : k.Reaches start' (before' ++ [b]).length v := by
          rw [hlength']
          exact ht.next hhere' hadvance'
        rcases ih (hbefore.concat_both head) (by simpa using hleft) (by simpa using hright)
          (by omega) (fun pc hl hpc => hlost pc hl (by omega)) hrest hu' hv' hu hv huv with
          ⟨outcome, x, y, hx, hy, hend⟩ | hresult
        · rw [hlength] at hx
          rw [hlength'] at hy
          exact .inl ⟨outcome, x, y, Job.runFrom_next hadvance hu hx,
            Job.runFrom_next hadvance' hv hy, hend⟩
        · exact .inr hresult
      | kill =>
        exact .inl ⟨.killed, _, _, Job.runFrom_kill hadvance rfl, Job.runFrom_kill hadvance' rfl,
          hu, hv, huv⟩
      | halt =>
        exact .inl ⟨.complete, u, v, Job.runFrom_halt hadvance, Job.runFrom_halt hadvance', hu, hv,
          huv⟩
    · -- this is the place where a derivative is lost
      have haction' : b.opcode.action = .compute (.derivative axis) := by
        rw [head.alike.opcode, haction]
      refine .inr (hlost before.length hmissing (Nat.le_refl _)
        ⟨s, a, axis, r, hs, hhere, haction, hr, hfound⟩ ?_)
      rw [← hadded]
      exact ⟨t, b, axis, r', ht, hhere', haction', hr', hmissed⟩

end Insertion

/-! ## Whole runs -/

/-- The state in which the program is executed on a fragment. -/
def Interpreter.loaded (p : Program) (f : Fragment) (s : ExecState) : ExecState :=
  { s with machine := s.machine.load p f.inputs, tooDeep := false }

theorem Interpreter.execute_run {p : Program} {sampler : Sampler} {span : Span} {fragment : Nat}
    {f : Fragment} (h : span.fragments[fragment]? = some f) (s : ExecState) :
    execute p sampler span fragment s =
      (job p sampler span fragment (Quad.replicate .eq)).run p.instructions.length
        (loaded p f s) := by
  have hload : load p span fragment s = .ok () { s with machine := s.machine.load p f.inputs } := by
    unfold load
    rw [h]
    rfl
  show EStateM.bind _ _ s = _
  unfold EStateM.bind
  rw [hload]
  rfl

theorem Interpreter.execute_eq {p : Program} {sampler : Sampler} {span : Span} {fragment : Nat}
    {f : Fragment} (h : span.fragments[fragment]? = some f) (s : ExecState) :
    execute p sampler span fragment s =
      (job p sampler span fragment (Quad.replicate .eq)).runFrom 0
        ((job p sampler span fragment (Quad.replicate .eq)).derivative maxDerivativeDepth) 0
        p.instructions (loaded p f s) := by
  rw [execute_run h]
  show Job.runFrom _ _ _ _ (p.instructions.take p.instructions.length) _ = _
  rw [List.take_length]

/-- Fresh machines with the same inputs agree on all that both programs read. -/
theorem sameBut_loaded {p q : Program} {f : Fragment} {s t : ExecState} {d : TemporaryIndex}
    {j k : Job} (hj : j.program = p) (hk : k.program = q) :
    (Interpreter.loaded p f s).machine.SameBut d (j.BothRead k)
      (Interpreter.loaded q f t).machine := by
  subst hj hk
  refine ⟨fun _ _ => rfl, fun i hi => ?_, rfl, rfl⟩
  simp only [Interpreter.loaded, Machine.load, get_ofFn, hi.1, hi.2, if_true]

/-- The levels have run out for a derivative behind as many instructions that need nested runs. -/
theorem Job.Finds.count {job : Job} {start : ExecState} {pc : Nat}
    (h : job.Finds start pc false) (hfragment : job.fragment < job.span.size)
    (hcomplete : ∀ ins ∈ job.program.instructions, ins.Complete) :
    maxDerivativeDepth ≤ (job.program.instructions.take pc).countP Instruction.isNested := by
  obtain ⟨s, ins, axis, r, -, -, -, -, hmissed⟩ := h
  rw [Option.isSome_eq_false_iff, Option.isNone_iff_eq_none] at hmissed
  exact Reference.levels_le_count hfragment hcomplete hmissed

/-- Instructions that are alike are twins if they avoid `d`. -/
theorem twin_of_alike (j k : Job) {d : TemporaryIndex} {a b : Instruction}
    (hj : j.program.MarksInputs) (hk : k.program.MarksInputs) (ha : a ∈ j.program.instructions)
    (hb : b ∈ k.program.instructions) (havoids : a.Avoids d)
    (halike : a.Alike j.program.parameters k.program.parameters b) : a.Twin j k d b := by
  refine ⟨halike, havoids, fun r hr i hi => ⟨hj a ha r hr i hi, ?_⟩⟩
  -- the other instruction reads the same input, so the other program marks it too
  obtain ⟨r', hr', hrr'⟩ := exists_of_forall₂ halike.sources hr
  apply hk b hb r' hr' i
  rcases hrr'.register.cases with ⟨heq, -⟩ | ⟨l, l', entry, hl, -⟩
  · rw [← heq, hi]
  · rw [hi] at hl
    cases hl

/-- What stands before the inserted instruction, and what stands behind it. -/
theorem Program.Inserts.split {p q : Program} {n : Nat} {extra : Instruction}
    (h : p.Inserts q n extra) :
    ∃ as bs cs ds, p.instructions = as ++ cs ∧ q.instructions = bs ++ extra :: ds ∧
      as.length = n ∧ bs.length = n ∧
      List.Forall₂ (Instruction.Alike p.parameters q.parameters) as bs ∧
      List.Forall₂ (Instruction.Alike p.parameters q.parameters) cs ds := by
  obtain ⟨hn, hget⟩ := List.getElem?_eq_some_iff.mp h.here
  have hlength : (q.instructions.take n).length = n := by
    rw [List.length_take]
    omega
  refine ⟨_, _, _, _, (List.take_append_drop n _).symm, ?_, ?_, hlength, h.before, h.after⟩
  · rw [← hget, ← List.drop_eq_getElem_cons, List.take_append_drop]
  · rw [h.before.length_eq, hlength]

/-- From the inserted instruction on, both programs do the same unless a derivative is lost. -/
theorem runFrom_extra {j k : Job} {extra : Instruction} {d : TemporaryIndex}
    {as bs cs ds : List Instruction} (hprobes : extra.Probes d)
    (hpairs : j.Pairs k d (· = extra) (extra.isNested = true))
    (hbefore : List.Forall₂ (Instruction.Twin j k d) as bs)
    (hafter : List.Forall₂ (Instruction.Twin j k d) cs ds)
    (hp : j.program.instructions = as ++ cs) (hq : k.program.instructions = bs ++ extra :: ds)
    {start start' s t : ExecState} (hs : j.Reaches start as.length s)
    (ht : k.Reaches start' bs.length t) (hclear : s.tooDeep = false) (hclear' : t.tooDeep = false)
    (hsame : s.machine.SameBut d (j.BothRead k) t.machine) :
    ResultsAlike d (j.BothRead k)
        (j.runFrom 0 (j.derivative maxDerivativeDepth) as.length cs s)
        (k.runFrom 0 (k.derivative maxDerivativeDepth) bs.length (extra :: ds) t) ∨
      extra.isNested = true ∧ j.Loses k start start' as.length := by
  have hhere : k.program.instructions[bs.length]? = some extra := by
    rw [hq, List.getElem?_append_right (Nat.le_refl _), Nat.sub_self]
    rfl
  have hextra : extra ∈ k.program.instructions := List.mem_of_getElem? hhere
  -- the inserted instruction itself changes nothing but its destination
  obtain ⟨axis, haction⟩ := hprobes.action
  obtain ⟨value, u, hadvance, hmachine, hu, -⟩ :=
    Job.advance_outermost hpairs.fragment_right hpairs.right (hpairs.right extra hextra) haction
      hclear' bs.length
  have hconcat : (bs ++ [extra]).length = bs.length + 1 := by
    rw [List.length_append, List.length_singleton]
  have hlength : (bs ++ [extra]).length = as.length + 1 := by
    rw [hconcat, hbefore.length_eq]
  have hreach : k.Reaches start' (bs ++ [extra]).length u := by
    rw [hconcat]
    exact ht.next hhere hadvance
  have hsame' : s.machine.SameBut d (j.BothRead k) u.machine := by
    rw [hmachine]
    exact sameBut_store_probe hsame hprobes value
  have hembeds : Embeds (Instruction.Twin j k d) (· = extra) as (bs ++ [extra]) :=
    (Embeds.of_forall₂ hbefore).concat_extra rfl
  have hrun : _ ∨ extra.isNested = true ∧ j.Loses k start start' as.length :=
    runFrom_twin hpairs hembeds hafter (by rw [List.append_nil, hp])
      (by rw [List.append_nil, hq, List.append_cons]) hlength
      (fun pc hnested hpc hfound hmissed => ⟨hnested, pc, hpc, hfound, hmissed⟩)
      (fun x y _ _ hx hy hxy => .inl ⟨.complete, x, y, rfl, rfl, hx, hy, hxy⟩) hs hreach hclear hu
      hsame'
  rw [List.append_nil, List.append_nil, hconcat] at hrun
  rcases hrun with ⟨outcome, x, y, hx, hy, hend⟩ | hresult
  · exact .inl ⟨outcome, x, y, hx, Job.runFrom_next hadvance hu hy, hend⟩
  · exact .inr hresult

/-- The outermost runs of a program and of one with an insertion. -/
theorem runFrom_inserted {j k : Job} {n : Nat} {extra : Instruction} {d : TemporaryIndex}
    (hinserts : j.program.Inserts k.program n extra) (hprobes : extra.Probes d)
    (htwins : j.Twins k) (hfragment : j.fragment < j.span.size)
    (hleft : ∀ ins ∈ j.program.instructions, ins.Complete)
    (hright : ∀ ins ∈ k.program.instructions, ins.Complete)
    (htwin : ∀ a ∈ j.program.instructions, ∀ b ∈ k.program.instructions,
      a.Alike j.program.parameters k.program.parameters b → a.Twin j k d b)
    {s t : ExecState} (hsame : s.machine.SameBut d (j.BothRead k) t.machine)
    (hs : s.tooDeep = false) (ht : t.tooDeep = false) :
    ResultsAlike d (j.BothRead k)
        (j.runFrom 0 (j.derivative maxDerivativeDepth) 0 j.program.instructions s)
        (k.runFrom 0 (k.derivative maxDerivativeDepth) 0 k.program.instructions t) ∨
      extra.isNested = true ∧ j.Loses k s t n := by
  have hextra : extra ∈ k.program.instructions := List.mem_of_getElem? hinserts.here
  obtain ⟨as, bs, cs, ds, hp, hq, rfl, hlength, hbefore, hafter⟩ := hinserts.split
  have hbefore : List.Forall₂ (Instruction.Twin j k d) as bs :=
    forall₂_imp_of_mem hbefore fun a ha b hb =>
      htwin a (hp ▸ List.mem_append_left _ ha) b (hq ▸ List.mem_append_left _ hb)
  have hafter : List.Forall₂ (Instruction.Twin j k d) cs ds :=
    forall₂_imp_of_mem hafter fun a ha b hb =>
      htwin a (hp ▸ List.mem_append_right _ ha) b
        (hq ▸ List.mem_append_right _ (List.mem_cons_of_mem _ hb))
  have hsecond : j.Pairs k d (· = extra) (extra.isNested = true) := by
    refine ⟨htwins, hfragment, hleft, hright, fun x hx => ?_⟩
    subst hx
    exact ⟨hprobes, hright x hextra, id⟩
  -- nothing is inserted before place `n`, and nothing is lost there
  have hfirst : j.Pairs k d (fun _ => False) False :=
    ⟨htwins, hfragment, hleft, hright, fun x hx => hx.elim⟩
  have hlater : ∀ u v, j.Reaches s (0 + as.length) u → k.Reaches t (0 + bs.length) v →
      u.tooDeep = false → v.tooDeep = false → u.machine.SameBut d (j.BothRead k) v.machine →
      ResultsAlike d (j.BothRead k)
          (j.runFrom 0 (j.derivative maxDerivativeDepth) (0 + as.length) cs u)
          (k.runFrom 0 (k.derivative maxDerivativeDepth) (0 + bs.length) (extra :: ds) v) ∨
        extra.isNested = true ∧ j.Loses k s t as.length := by
    rw [Nat.zero_add, Nat.zero_add]
    intro u v hu hv
    exact runFrom_extra hprobes hsecond hbefore hafter hp hq hu hv
  rw [hp, hq]
  exact runFrom_twin hfirst .nil hbefore hp hq (Nat.zero_add 0).symm (fun _ hlost => hlost.elim)
    hlater .start .start hs ht hsame

/-- A program and the same program with a derivative inserted, whose result goes into a temporary
that is not used otherwise, do the same on every fragment, unless the inserted derivative is one of
a temporary and a later one that the first program finds is then nested too deep. -/
theorem execute_insert {source source' : String} {p p' q q' : Program} {n : Nat}
    {extra : Instruction} {d : TemporaryIndex} (hcompile : compile source = .ok p)
    (hcompile' : compile source' = .ok p') (hupdates : p.Updates q) (hupdates' : p'.Updates q')
    (hinserts : q.Inserts q' n extra) (hprobes : extra.Probes d)
    (hunused : ∀ ins ∈ q.instructions, ins.Avoids d) {sampler : Sampler}
    (hmemoryless : sampler.IsMemoryless) {span : Span} {fragment : Nat} {f : Fragment}
    (hfragment : span.fragments[fragment]? = some f) (s s' : ExecState) :
    (∃ outcome t t', Interpreter.execute q sampler span fragment s = .ok outcome t ∧
        Interpreter.execute q' sampler span fragment s' = .ok outcome t' ∧
        t'.machine.outputs = t.machine.outputs ∧ t'.machine.codes = t.machine.codes ∧
        ∀ i, i ≠ d → t'.machine.temporaries.get i = t.machine.temporaries.get i) ∨
      extra.isNested = true ∧ ∃ pc, n ≤ pc ∧
        (Interpreter.job q sampler span fragment (Quad.replicate .eq)).Finds
          (Interpreter.loaded q f s) pc true ∧
        (Interpreter.job q' sampler span fragment (Quad.replicate .eq)).Finds
          (Interpreter.loaded q' f s') (pc + 1) false ∧
        maxDerivativeDepth ≤ (q'.instructions.take (pc + 1)).countP Instruction.isNested := by
  have hpq := Program.retuned_of_updates hupdates
  have hpq' := Program.retuned_of_updates hupdates'
  have hcomplete := ((wellFormed_of_compile hcompile).retuned hpq).complete
  have hcomplete' := ((wellFormed_of_compile hcompile').retuned hpq').complete
  have hmarks := (marksInputs_of_compile hcompile).retuned hpq
  have hmarks' := (marksInputs_of_compile hcompile').retuned hpq'
  have hlt : fragment < span.size := (List.getElem?_eq_some_iff.mp hfragment).1
  let j := Interpreter.job q sampler span fragment (Quad.replicate .eq)
  let k := Interpreter.job q' sampler span fragment (Quad.replicate .eq)
  have htwins : j.Twins k := ⟨rfl, rfl, rfl, rfl, hinserts.localParameters, hmemoryless⟩
  have htwin : ∀ a ∈ q.instructions, ∀ b ∈ q'.instructions,
      a.Alike q.parameters q'.parameters b → a.Twin j k d b := fun a ha b hb =>
    twin_of_alike j k hmarks hmarks' ha hb (hunused a ha)
  have hrun := runFrom_inserted hinserts hprobes htwins hlt hcomplete hcomplete' htwin
    (sameBut_loaded rfl rfl : (Interpreter.loaded q f s).machine.SameBut d (j.BothRead k)
      (Interpreter.loaded q' f s').machine) rfl rfl
  rw [Interpreter.execute_eq hfragment, Interpreter.execute_eq hfragment]
  rcases hrun with ⟨outcome, t, t', ht, ht', -, -, hsame⟩ | ⟨hnested, pc, hpc, hfound, hmissed⟩
  · exact .inl ⟨outcome, t, t', ht, ht', hsame.outputs, hsame.codes, hsame.temporaries⟩
  · exact .inr ⟨hnested, pc, hpc, hfound, hmissed, hmissed.count hlt hcomplete'⟩

/-! ## Squares and their slopes -/

/-- A program that squares an input and takes the derivative of the square again and again.  The
derivatives go to the registers of `targets`, and stand at the given positions. -/
def slopeProgram (text : String) (targets : List (Writable × Nat)) (last : Nat) : Program where
  instructions :=
    { opcode := .mul, sources := [{ register := .input 1 }, { register := .input 1 }]
      destination := some { register := .temporary 0 }, position := 8 } ::
    targets.map (fun (register, position) =>
      { opcode := .ddx, sources := [{ register := .temporary 0 }]
        destination := some { register }, position }) ++
    [{ opcode := .halt, position := last }]
  inputsRead := 2
  outputsWritten := 1
  textures := Vector.replicate _ none
  parameters := {}
  localParameters := Vector.replicate _ Quad.zero
  source := text

def oneSlope : Program :=
  slopeProgram "!!FP1.0 MUL R0, f[COL0], f[COL0]; DDX o[COLR], R0; END" [(.output .colr, 34)] 51

def oneSlopeProbed : Program :=
  slopeProgram "!!FP1.0 MUL R0, f[COL0], f[COL0]; DDX R4, R0; DDX o[COLR], R0; END"
    [(.temporary 4, 34), (.output .colr, 46)] 63

def fourSlopes : Program :=
  slopeProgram ("!!FP1.0 MUL R0, f[COL0], f[COL0]; DDX R1, R0; DDX R2, R0; DDX R3, R0; " ++
    "DDX o[COLR], R0; END")
    [(.temporary 1, 34), (.temporary 2, 46), (.temporary 3, 58), (.output .colr, 70)] 87

def fourSlopesProbed : Program :=
  slopeProgram ("!!FP1.0 MUL R0, f[COL0], f[COL0]; DDX R4, R0; DDX R1, R0; DDX R2, R0; " ++
    "DDX R3, R0; DDX o[COLR], R0; END")
    [(.temporary 4, 34), (.temporary 1, 46), (.temporary 2, 58), (.temporary 3, 70),
      (.output .colr, 82)] 99

/-- The derivative that the second of two such programs has and the first one has not. -/
def slopeProbe : Instruction where
  opcode := .ddx
  sources := [{ register := .temporary 0 }]
  destination := some { register := .temporary 4 }
  position := 34

theorem slopeProbe_probes : slopeProbe.Probes 4 :=
  ⟨.inl rfl, rfl, _, rfl⟩

/-- One fragment, whose square changes from one to four along the x axis. -/
def slopeSpan : Span where
  fragments := [{ inputs := (Vector.replicate _ Quad.zero).set 1 ⟨.one, .zero, .zero, .zero⟩ }]
  stepX := (Vector.replicate _ Quad.zero).set 1 ⟨.one, .zero, .zero, .zero⟩

/-- The colour that a complete run leaves. -/
def colorOf : EStateM.Result Fault ExecState Outcome → Option Vec4
  | .ok .complete t => some (t.machine.outputs.get OutputIndex.colr)
  | _ => none

theorem execute_insert_oneSlope :
    compile oneSlope.source = .ok oneSlope ∧ compile oneSlopeProbed.source = .ok oneSlopeProbed ∧
      oneSlope.Inserts oneSlopeProbed 1 slopeProbe ∧ slopeProbe.Probes 4 ∧
      (∀ ins ∈ oneSlope.instructions, ins.Avoids 4) ∧ (Sampler.solid Quad.zero).IsMemoryless ∧
      slopeSpan.fragments[0]?.isSome = true ∧
      ∃ outcome t t',
        Interpreter.execute oneSlope (.solid Quad.zero) slopeSpan 0 {} = .ok outcome t ∧
        Interpreter.execute oneSlopeProbed (.solid Quad.zero) slopeSpan 0 {} = .ok outcome t' ∧
        t'.machine.outputs = t.machine.outputs := by
  have hcompile : compile oneSlope.source = .ok oneSlope := by decide +kernel
  have hcompile' : compile oneSlopeProbed.source = .ok oneSlopeProbed := by decide +kernel
  have hinserts : oneSlope.Inserts oneSlopeProbed 1 slopeProbe := by decide +kernel
  have hunused : ∀ ins ∈ oneSlope.instructions, ins.Avoids 4 := by decide +kernel
  have hmemoryless := Sampler.isMemoryless_solid Quad.zero
  refine ⟨hcompile, hcompile', hinserts, slopeProbe_probes, hunused, hmemoryless, rfl, ?_⟩
  rcases execute_insert hcompile hcompile' .refl .refl hinserts slopeProbe_probes hunused
    hmemoryless (show slopeSpan.fragments[0]? = some _ from rfl) {} {} with
    ⟨outcome, t, t', ht, ht', houtputs, -⟩ | ⟨-, pc, -, -, -, hcount⟩
  · exact ⟨outcome, t, t', ht, ht', houtputs⟩
  · -- the longer program has two derivatives only
    have htwo : oneSlopeProbed.instructions.countP Instruction.isNested = 2 := by decide +kernel
    have hle : (oneSlopeProbed.instructions.take (pc + 1)).countP Instruction.isNested ≤
        oneSlopeProbed.instructions.countP Instruction.isNested :=
      (List.take_sublist _ _).countP_le
    have hfour : maxDerivativeDepth = 4 := rfl
    omega

/-- With a fifth derivative the last one reads as zero, although it does not use the others. -/
theorem execute_insert_fourSlopes :
    compile fourSlopes.source = .ok fourSlopes ∧
      compile fourSlopesProbed.source = .ok fourSlopesProbed ∧
      fourSlopes.Inserts fourSlopesProbed 1 slopeProbe ∧ slopeProbe.Probes 4 ∧
      (∀ ins ∈ fourSlopes.instructions, ins.Avoids 4) ∧ (Sampler.solid Quad.zero).IsMemoryless ∧
      colorOf (Interpreter.execute fourSlopes (.solid Quad.zero) slopeSpan 0 {}) =
        some ⟨⟨0x40400000⟩, .zero, .zero, .zero⟩ ∧
      colorOf (Interpreter.execute fourSlopesProbed (.solid Quad.zero) slopeSpan 0 {}) =
        some Quad.zero := by
  refine ⟨?_, ?_, ?_, slopeProbe_probes, ?_, Sampler.isMemoryless_solid Quad.zero, ?_, ?_⟩
  all_goals decide +kernel

end FragmentAssembly

import FragmentAssembly.Proofs.Execution.Refinement

/-!
# Levels and instructions

A nested run executes all derivatives of temporaries that stand before the one it is for, so it is
by their number that the levels run out.
-/

namespace FragmentAssembly

def Readable.isTemporary : Readable → Bool
  | .temporary _ => true
  | _ => false

/-- Whether an instruction needs a nested run. -/
def Instruction.isNested (ins : Instruction) : Bool :=
  match ins.opcode.action with
  | .compute (.derivative _) => ins.sources[0]?.any (·.register.isTemporary)
  | _ => false

theorem Instruction.isNested_of {ins : Instruction} {axis : Axis} {r : Source} {i : TemporaryIndex}
    (haction : ins.opcode.action = .compute (.derivative axis)) (hr : ins.sources[0]? = some r)
    (hi : r.register = .temporary i) : ins.isNested = true := by
  unfold isNested
  rw [haction, hr]
  dsimp only
  rw [Option.any_some, hi]
  rfl

namespace Reference

variable {job : Job} {ins : Instruction} {derive : Deriver} {pc : Nat} {m : Machine}
  {requests : Array Request}

/-- Nothing but a derivative can keep an instruction from having a value. -/
theorem compute_eq_none {c : Computation} (hfragment : job.fragment < job.span.size)
    (hins : ins.Complete) (haction : ins.opcode.action = .compute c)
    (h : compute job derive pc ins m requests c = none) :
    ∃ axis r, c = .derivative axis ∧ ins.sources[0]? = some r ∧
      derive pc r axis m requests = none := by
  obtain ⟨hsources, htexture⟩ := hins c haction
  have hsource : ∀ n, n < c.arity → ∃ r, ins.sources[n]? = some r := fun n hn =>
    ⟨_, List.getElem?_eq_getElem (Nat.lt_of_lt_of_le hn hsources)⟩
  -- a complete instruction has all that it reads, so no case but one can miss anything
  cases c with
  | constant value => cases h
  | vector1 f =>
    obtain ⟨r, hr⟩ := hsource 0 (Nat.zero_lt_succ _)
    simp [compute, vector, hr] at h
  | vector2 f =>
    obtain ⟨r, hr⟩ := hsource 0 (Nat.zero_lt_succ _)
    obtain ⟨r', hr'⟩ := hsource 1 Nat.one_lt_two
    simp [compute, vector, hr, hr'] at h
  | vector3 f =>
    obtain ⟨r, hr⟩ := hsource 0 (Nat.zero_lt_succ _)
    obtain ⟨r', hr'⟩ := hsource 1 (show 1 < 3 by decide)
    obtain ⟨r'', hr''⟩ := hsource 2 (show 2 < 3 by decide)
    simp [compute, vector, hr, hr', hr''] at h
  | scalar1 f =>
    obtain ⟨r, hr⟩ := hsource 0 (Nat.zero_lt_succ _)
    simp [compute, vector, hr] at h
  | scalar2 f =>
    obtain ⟨r, hr⟩ := hsource 0 (Nat.zero_lt_succ _)
    obtain ⟨r', hr'⟩ := hsource 1 Nat.one_lt_two
    simp [compute, vector, hr, hr'] at h
  | derivative axis =>
    obtain ⟨r, hr⟩ := hsource 0 (Nat.zero_lt_succ _)
    simp only [compute, hr, Option.bind_eq_bind, Option.bind_some] at h
    exact ⟨axis, r, rfl, hr, h⟩
  | lookup mode =>
    obtain ⟨image, himage⟩ := Option.isSome_iff_exists.mp (htexture rfl)
    obtain ⟨asked, hasked, -⟩ := Job.request_eq image hfragment hsources
      (show ({ machine := m, requests } : ExecState).machine = m from rfl)
    simp [compute, himage, hasked] at h

theorem derivative_isSome (job : Job) (levels : Nat) {r : Source} (axis : Axis)
    (hflat : ∀ i, r.register ≠ .temporary i) :
    ∃ value, derivative job levels pc r axis m requests = some (value, requests) := by
  unfold derivative
  cases hregister : r.register with
  | temporary i => exact absurd hregister (hflat i)
  | input i => exact ⟨_, rfl⟩
  | parameter i => exact ⟨_, rfl⟩
  | localParameter i => exact ⟨_, rfl⟩

/-- A run is undefined at the derivative of some temporary. -/
theorem runFrom_eq_none {levels : Nat} {instructions : List Instruction}
    (hfragment : job.fragment < job.span.size) (hcomplete : ∀ ins ∈ instructions, ins.Complete)
    (h : runFrom job (derivative job levels) pc instructions m requests = none) :
    ∃ before ins after r axis n later, instructions = before ++ ins :: after ∧
      ins.isNested = true ∧
      derivative job levels (pc + before.length) r axis n later = none := by
  induction instructions generalizing pc m requests with
  | nil => cases h
  | cons ins rest ih =>
    -- a rest without a result has none at some instruction further on
    have hrest : ∀ {m : Machine} {requests : Array Request},
        runFrom job (derivative job levels) (pc + 1) rest m requests = none →
        ∃ before found after r axis n later, ins :: rest = before ++ found :: after ∧
          found.isNested = true ∧
          derivative job levels (pc + before.length) r axis n later = none := by
      intro m requests hnone
      obtain ⟨before, found, after, r, axis, n, later, rfl, hnested, hderive⟩ :=
        ih (fun ins hins => hcomplete ins (List.mem_cons_of_mem _ hins)) hnone
      refine ⟨ins :: before, found, after, r, axis, n, later, rfl, hnested, ?_⟩
      rw [List.length_cons, Nat.add_comm before.length 1, ← Nat.add_assoc]
      exact hderive
    unfold runFrom at h
    cases haction : ins.opcode.action with
    | compute c =>
      simp only [haction] at h
      cases hvalue : compute job (derivative job levels) pc ins m requests c with
      | none =>
        obtain ⟨axis, r, rfl, hr, hderive⟩ :=
          compute_eq_none hfragment (hcomplete ins List.mem_cons_self) haction hvalue
        rcases r.register.temporary_or_not with ⟨i, hi⟩ | hflat
        · exact ⟨[], ins, rest, r, axis, m, requests, rfl, ins.isNested_of haction hr hi, hderive⟩
        · obtain ⟨value, hsome⟩ := derivative_isSome job levels axis hflat
          rw [hsome] at hderive
          cases hderive
      | some found =>
        rw [hvalue] at h
        exact hrest h
    | kill =>
      simp only [haction] at h
      by_cases hkills : m.kills ins.condition = true
      · rw [if_pos hkills] at h
        cases h
      · rw [if_neg hkills] at h
        exact hrest h
    | halt =>
      simp only [haction] at h
      cases h

/-- A derivative for which `levels` levels are not enough stands behind as many instructions that
need nested runs themselves. -/
theorem levels_le_count {levels : Nat} {r : Source} {axis : Axis}
    (hfragment : job.fragment < job.span.size)
    (hcomplete : ∀ ins ∈ job.program.instructions, ins.Complete)
    (h : derivative job levels pc r axis m requests = none) :
    levels ≤ (job.program.instructions.take pc).countP Instruction.isNested := by
  induction levels generalizing pc r axis m requests with
  | zero => exact Nat.zero_le _
  | succ levels ih =>
    rcases r.register.temporary_or_not with ⟨i, hi⟩ | hflat
    · unfold derivative at h
      simp only [hi, difference, Option.bind_eq_bind, Option.bind_eq_none_iff, reduceCtorEq] at h
      have hnone : runFrom job (derivative job levels) 0 (job.program.instructions.take pc)
          (job.neighbour m axis) requests = none := by
        cases hrun : runFrom job (derivative job levels) 0 (job.program.instructions.take pc)
            (job.neighbour m axis) requests with
        | none => rfl
        | some found => exact (h found hrun).elim
      -- an earlier derivative was not found with one level less, so the induction goes on there
      obtain ⟨before, ins, after, r', axis', n, later, hsplit, hnested, hderive⟩ :=
        runFrom_eq_none hfragment (fun ins hins => hcomplete ins (List.mem_of_mem_take hins)) hnone
      rw [Nat.zero_add] at hderive
      have hcount := ih hderive
      have hbefore : job.program.instructions.take before.length = before := by
        have hlength : before.length ≤ pc := by
          have hle := List.length_take_le pc job.program.instructions
          rw [hsplit, List.length_append] at hle
          omega
        rw [← Nat.min_eq_left hlength, ← List.take_take, hsplit, List.take_left]
      rw [hbefore] at hcount
      -- that derivative itself is one more
      rw [hsplit, List.countP_append, List.countP_cons, if_pos hnested]
      omega
    · obtain ⟨value, hsome⟩ := derivative_isSome job (levels + 1) axis hflat
      rw [hsome] at h
      cases h

end Reference

end FragmentAssembly

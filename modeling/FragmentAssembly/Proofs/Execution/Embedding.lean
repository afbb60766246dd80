import FragmentAssembly.Proofs.Execution.Twin

/-!
# Derivatives of embedded programs

The reference finds the same derivatives in a program with inserted instructions, except that some
may be lost: an inserted derivative of a temporary takes a level of its own.
-/

namespace FragmentAssembly

/-! ## Results that follow each other -/

/-- The first result is related to the second one.  It may be missing alone only if something can
be `lost`. -/
inductive Follows {α β : Type} (lost : Prop) (R : α → β → Prop) : Option α → Option β → Prop where
  | missing (h : lost) (y : Option β) : Follows lost R none y
  | neither : Follows lost R none none
  | both {a : α} {b : β} (h : R a b) : Follows lost R (some a) (some b)

theorem Follows.bind {α β γ δ : Type} {lost : Prop} {R : α → β → Prop} {S : γ → δ → Prop}
    {x : Option α} {y : Option β} {f : α → Option γ} {g : β → Option δ} (h : Follows lost R x y)
    (hf : ∀ a b, R a b → Follows lost S (f a) (g b)) : Follows lost S (x.bind f) (y.bind g) := by
  cases h with
  | missing h y => exact .missing h _
  | neither => exact .neither
  | both h => exact hf _ _ h

/-- Both results begin with the same part. -/
theorem Follows.bind_same {α β γ : Type} {lost : Prop} {S : β → γ → Prop} (x : Option α)
    {f : α → Option β} {g : α → Option γ} (hf : ∀ a, Follows lost S (f a) (g a)) :
    Follows lost S (x.bind f) (x.bind g) := by
  cases x with
  | none => exact .neither
  | some a => exact hf a

/-- The same value, after whatever lookups. -/
def SameValue (x y : Vec4 × Array Request) : Prop :=
  x.1 = y.1

/-- The second list is the first one with elements of `X` inserted. -/
inductive Embeds {α : Type} (R : α → α → Prop) (X : α → Prop) : List α → List α → Prop where
  | nil : Embeds R X [] []
  | both {a b : α} {as bs : List α} (head : R a b) (tail : Embeds R X as bs) :
    Embeds R X (a :: as) (b :: bs)
  | extra {x : α} {as bs : List α} (head : X x) (tail : Embeds R X as bs) :
    Embeds R X as (x :: bs)

namespace Embeds

variable {α : Type} {R : α → α → Prop} {X : α → Prop} {as bs : List α}

theorem of_forall₂ (h : List.Forall₂ R as bs) : Embeds R X as bs := by
  induction h with
  | nil => exact .nil
  | cons head _ ih => exact .both head ih

theorem concat_both {a b : α} (h : Embeds R X as bs) (hab : R a b) :
    Embeds R X (as ++ [a]) (bs ++ [b]) := by
  induction h with
  | nil => exact .both hab .nil
  | both head _ ih => exact .both head ih
  | extra head _ ih => exact .extra head ih

theorem concat_extra {x : α} (h : Embeds R X as bs) (hx : X x) : Embeds R X as (bs ++ [x]) := by
  induction h with
  | nil => exact .extra hx .nil
  | both head _ ih => exact .both head ih
  | extra head _ ih => exact .extra head ih

end Embeds

section Reference

variable {j k : Job} {d : TemporaryIndex} {m n : Machine} {a b : Instruction}
  {lost : Prop} {X : Instruction → Prop}

/-- What is found before instruction `pc'` of one program follows what is found before instruction
`pc` of the other, on machines that agree. -/
def FollowsAt (j k : Job) (d : TemporaryIndex) (lost : Prop) (derive derive' : Reference.Deriver)
    (pc pc' : Nat) : Prop :=
  ∀ r r' axis m n before before', r.Twin j k d r' → m.SameBut d (j.BothRead k) n →
    Follows lost SameValue (derive' pc' r' axis n before') (derive pc r axis m before)

theorem compute_follows {derive derive' : Reference.Deriver} {pc pc' : Nat}
    (htwins : j.Twins k) (hsame : m.SameBut d (j.BothRead k) n) (h : a.Twin j k d b)
    (hderive : FollowsAt j k d lost derive derive' pc pc') (before before' : Array Request)
    (c : Computation) :
    Follows lost SameValue (Reference.compute k derive' pc' b n before' c)
      (Reference.compute j derive pc a m before c) := by
  have hvector := vector_twin htwins hsame h
  cases c with
  | constant value => exact .both rfl
  | vector1 f =>
    simp only [Reference.compute, Option.bind_eq_bind, hvector]
    exact .bind_same _ fun v => .both rfl
  | vector2 f =>
    simp only [Reference.compute, Option.bind_eq_bind, hvector]
    exact .bind_same _ fun u => .bind_same _ fun v => .both rfl
  | vector3 f =>
    simp only [Reference.compute, Option.bind_eq_bind, hvector]
    exact .bind_same _ fun u => .bind_same _ fun v => .bind_same _ fun w => .both rfl
  | scalar1 f =>
    simp only [Reference.compute, Option.bind_eq_bind, hvector]
    exact .bind_same _ fun v => .both rfl
  | scalar2 f =>
    simp only [Reference.compute, Option.bind_eq_bind, hvector]
    exact .bind_same _ fun u => .bind_same _ fun v => .both rfl
  | derivative axis =>
    simp only [Reference.compute, Option.bind_eq_bind]
    rcases h.source 0 with ⟨hnone, hnone'⟩ | ⟨r, r', hr, hr', htwin⟩
    · rw [hnone, hnone']
      exact .neither
    · rw [hr, hr']
      exact hderive r r' axis m n before before' htwin hsame
  | lookup mode =>
    simp only [Reference.compute, Option.bind_eq_bind]
    rw [h.alike.texture]
    cases a.texture with
    | none => exact .neither
    | some image =>
      simp only [Option.bind_some]
      rw [request_twin htwins hsame h before before' image mode, htwins.sampler]
      exact .bind_same _ fun asked => .both (htwins.memoryless.answer _ _ _)

/-- Of the inserted instructions every one writes `d` alone, and it loses nothing unless it needs a
nested run itself. -/
structure Job.Inserted (k : Job) (d : TemporaryIndex) (lost : Prop) (x : Instruction) : Prop where
  probes : x.Probes d
  complete : x.Complete
  losing : x.isNested = true → lost

/-- Beginnings of two programs, one with insertions. -/
structure Job.Beginnings (j k : Job) (d : TemporaryIndex) (X : Instruction → Prop)
    (before before' : List Instruction) : Prop where
  embeds : Embeds (Instruction.Twin j k d) X before before'
  left : before <+: j.program.instructions
  right : before' <+: k.program.instructions

/-- A run of `bs` from `pc'` in one program follows a run of `as` from `pc` in the other, on
machines that agree, and leaves machines that agree. -/
def RunsFollow (j k : Job) (d : TemporaryIndex) (lost : Prop) (derive derive' : Reference.Deriver)
    (pc pc' : Nat) (as bs : List Instruction) : Prop :=
  ∀ m n before before', m.SameBut d (j.BothRead k) n →
    Follows lost (fun x y => y.1.SameBut d (j.BothRead k) x.1)
      (Reference.runFrom k derive' pc' bs n before') (Reference.runFrom j derive pc as m before)

/-- Corresponding instructions in front of runs that follow each other. -/
theorem RunsFollow.both {derive derive' : Reference.Deriver} {pc pc' : Nat}
    {as bs : List Instruction} (htwins : j.Twins k) (head : a.Twin j k d b)
    (hderive : FollowsAt j k d lost derive derive' pc pc')
    (hrest : RunsFollow j k d lost derive derive' (pc + 1) (pc' + 1) as bs) :
    RunsFollow j k d lost derive derive' pc pc' (a :: as) (b :: bs) := by
  intro m n asked asked' hsame
  unfold Reference.runFrom
  rw [head.alike.opcode]
  cases a.opcode.action with
  | compute c =>
    simp only [Option.bind_eq_bind]
    refine (compute_follows htwins hsame head hderive asked asked' c).bind fun x y hxy => ?_
    obtain ⟨value, after'⟩ := x
    obtain ⟨_, after⟩ := y
    obtain rfl : value = _ := hxy
    dsimp only
    rw [store_twin head]
    exact hrest _ _ after after' (sameBut_store hsame head.avoids value)
  | kill =>
    simp only [kills_twin hsame head]
    split
    · exact .both hsame
    · exact hrest _ _ asked asked' hsame
  | halt => exact .both hsame

/-- An inserted instruction in front of the run that follows. -/
theorem RunsFollow.extra {levels pc pc' : Nat} {x : Instruction} {as bs : List Instruction}
    (hfragment : k.fragment < k.span.size) (head : k.Inserted d lost x)
    (hrest : RunsFollow j k d lost (Reference.derivative j levels) (Reference.derivative k levels)
      pc (pc' + 1) as bs) :
    RunsFollow j k d lost (Reference.derivative j levels) (Reference.derivative k levels)
      pc pc' as (x :: bs) := by
  intro m n asked asked' hsame
  obtain ⟨axis, haction⟩ := head.probes.action
  rw [Reference.runFrom_compute haction]
  cases hvalue : Reference.compute k (Reference.derivative k levels) pc' x n asked'
      (.derivative axis) with
  | none =>
    -- an inserted derivative without a value can only be that of a temporary
    obtain ⟨_, r, -, hr, hnone⟩ :=
      Reference.compute_eq_none hfragment head.complete haction hvalue
    rcases r.register.temporary_or_not with ⟨i, hi⟩ | hflat
    · exact .missing (head.losing (x.isNested_of haction hr hi)) _
    · obtain ⟨value, hsome⟩ := Reference.derivative_isSome k levels _ hflat
      rw [hsome] at hnone
      cases hnone
  | some found =>
    exact hrest _ _ asked found.2 (sameBut_store_probe hsame head.probes found.1)

/-- A run of the rest of two beginnings.  The machine of the program without insertions goes where
that of the other goes. -/
theorem runFrom_follows {levels : Nat} (htwins : j.Twins k)
    (hfragment : k.fragment < k.span.size) (hinserted : ∀ x, X x → k.Inserted d lost x)
    (hderive : ∀ before before', j.Beginnings k d X before before' →
      FollowsAt j k d lost (Reference.derivative j levels) (Reference.derivative k levels)
        before.length before'.length)
    {before before' as bs : List Instruction}
    (hbefore : Embeds (Instruction.Twin j k d) X before before')
    (hembeds : Embeds (Instruction.Twin j k d) X as bs)
    (hleft : before ++ as <+: j.program.instructions)
    (hright : before' ++ bs <+: k.program.instructions) :
    RunsFollow j k d lost (Reference.derivative j levels) (Reference.derivative k levels)
      before.length before'.length as bs := by
  induction hembeds generalizing before before' with
  | nil => exact fun _ _ _ _ hsame => .both hsame
  | @both a b as bs head tail ih =>
    have hrest := ih (hbefore.concat_both head) (by simpa using hleft) (by simpa using hright)
    rw [List.length_append, List.length_append] at hrest
    -- both runs stand behind corresponding beginnings, which is all that a derivative here depends
    -- on
    have hhere := hderive before before' ⟨hbefore, (List.prefix_append _ _).trans hleft,
      (List.prefix_append _ _).trans hright⟩
    exact hrest.both htwins head hhere
  | @extra x as bs head tail ih =>
    have hrest := ih (hbefore.concat_extra head) hleft (by simpa using hright)
    rw [List.length_append] at hrest
    exact hrest.extra hfragment (hinserted x head)

theorem inputOperandDerivative_twin (htwins : j.Twins k) (hsame : m.SameBut d (j.BothRead k) n)
    {r r' : Source} (h : r.Twin j k d r') {i : InputIndex} (hi : r.register = .input i)
    (axis : Axis) :
    k.inputOperandDerivative n r' i axis = j.inputOperandDerivative m r i axis := by
  have hread := h.isRead i hi
  unfold Job.inputOperandDerivative Source.modifyDerivative
  rw [inputDerivative_twin htwins hsame hread, hsame.inputs i hread, h.alike.swizzle,
    h.alike.negateBase, h.alike.absolute, h.alike.negateAbsolute]

/-- The derivative of anything but a temporary is found in both programs. -/
theorem derivative_follows_flat (htwins : j.Twins k) (hsame : m.SameBut d (j.BothRead k) n)
    {r r' : Source} (h : r.Twin j k d r') (hflat : ∀ i, r.register ≠ .temporary i)
    (levels pc pc' : Nat) (axis : Axis) (asked asked' : Array Request) :
    Follows lost SameValue (Reference.derivative k levels pc' r' axis n asked')
      (Reference.derivative j levels pc r axis m asked) := by
  unfold Reference.derivative
  rcases h.alike.register.cases with ⟨heq, -⟩ | ⟨i, i', entry, hi, hi', -, -⟩
  · rw [← heq]
    cases hregister : r.register with
    | parameter i => exact .both rfl
    | localParameter i => exact .both rfl
    | input i => exact .both (inputOperandDerivative_twin htwins hsame h hregister axis)
    | temporary i => exact absurd hregister (hflat i)
  · rw [hi, hi']
    exact .both rfl

theorem Source.Twin.temporary {r r' : Source} (h : r.Twin j k d r') {i : TemporaryIndex}
    (hi : r.register = .temporary i) : r'.register = .temporary i := by
  rcases h.alike.register.cases with ⟨heq, -⟩ | ⟨l, l', entry, hl, -⟩
  · rw [← heq, hi]
  · rw [hi] at hl
    cases hl

/-- Derivatives before corresponding instructions, at every level. -/
theorem derivative_follows (levels : Nat) (htwins : j.Twins k)
    (hfragment : k.fragment < k.span.size) (hinserted : ∀ x, X x → k.Inserted d lost x)
    {before before' : List Instruction} (hbegin : j.Beginnings k d X before before') :
    FollowsAt j k d lost (Reference.derivative j levels) (Reference.derivative k levels)
      before.length before'.length := by
  induction levels generalizing before before' with
  | zero =>
    intro r r' axis m n asked asked' htwin hsame
    rcases r.register.temporary_or_not with ⟨i, hi⟩ | hflat
    · unfold Reference.derivative
      rw [hi, htwin.temporary hi]
      exact .neither
    · exact derivative_follows_flat htwins hsame htwin hflat _ _ _ axis asked asked'
  | succ levels ih =>
    intro r r' axis m n asked asked' htwin hsame
    rcases r.register.temporary_or_not with ⟨i, hi⟩ | hflat
    · have htake : j.program.instructions.take before.length = before :=
        (List.prefix_iff_eq_take.mp hbegin.left).symm
      have htake' : k.program.instructions.take before'.length = before' :=
        (List.prefix_iff_eq_take.mp hbegin.right).symm
      -- the shadow runs are those of the two beginnings themselves, with one level less
      have hrun := runFrom_follows htwins hfragment hinserted (fun _ _ => ih) .nil hbegin.embeds
        hbegin.left hbegin.right _ _ asked asked' (sameBut_neighbour htwins hsame axis)
      unfold Reference.derivative
      rw [hi, htwin.temporary hi]
      simp only [Reference.difference, htake, htake', Option.bind_eq_bind]
      refine hrun.bind fun x y hxy => .both ?_
      show Quad.zipWith _ _ _ = Quad.zipWith _ _ _
      rw [fetch_twin htwins hxy htwin, fetch_twin htwins hsame htwin]
    · exact derivative_follows_flat htwins hsame htwin hflat _ _ _ axis asked asked'

end Reference

end FragmentAssembly

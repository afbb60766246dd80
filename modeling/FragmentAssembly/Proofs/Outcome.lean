import FragmentAssembly.Compile.Draft

/-!
# Outcomes of actions

Reading and running are actions on a state that end with a result or with an error.  The lemmas
below take a successful action apart into its parts.
-/

namespace FragmentAssembly

variable {ε σ α β : Type}

/-! ## Successful actions -/

/-- The second action starts where the first one ends. -/
theorem bind_apply (m : EStateM ε σ α) (f : α → EStateM ε σ β) (s : σ) :
    (m >>= f) s = match m s with
      | .ok a t => f a t
      | .error e t => .error e t :=
  rfl

theorem bind_eq_ok {m : EStateM ε σ α} {f : α → EStateM ε σ β} {s t : σ} {b : β} :
    (m >>= f) s = .ok b t ↔ ∃ a u, m s = .ok a u ∧ f a u = .ok b t := by
  rw [bind_apply]
  constructor
  · intro h
    cases hm : m s with
    | ok a u =>
      rw [hm] at h
      exact ⟨a, u, rfl, h⟩
    | error e u =>
      rw [hm] at h
      cases h
  · rintro ⟨a, u, hm, hf⟩
    rw [hm]
    exact hf

theorem pure_eq_ok {s t : σ} {a b : α} :
    (pure a : EStateM ε σ α) s = .ok b t ↔ a = b ∧ s = t := by
  change EStateM.Result.ok a s = .ok b t ↔ _
  rw [EStateM.Result.ok.injEq]

theorem get_eq_ok {s t u : σ} :
    (get : EStateM ε σ σ) s = .ok t u ↔ s = t ∧ s = u := by
  change EStateM.Result.ok s s = .ok t u ↔ _
  rw [EStateM.Result.ok.injEq]

theorem set_eq_ok {s t u : σ} {a : PUnit} :
    (set t : EStateM ε σ PUnit) s = .ok a u ↔ t = u := by
  change EStateM.Result.ok ⟨⟩ t = .ok a u ↔ _
  rw [EStateM.Result.ok.injEq]
  exact and_iff_right rfl

theorem modify_eq_ok {f : σ → σ} {s t : σ} {a : PUnit} :
    (modify f : EStateM ε σ PUnit) s = .ok a t ↔ f s = t := by
  change EStateM.Result.ok ⟨⟩ (f s) = .ok a t ↔ _
  rw [EStateM.Result.ok.injEq]
  exact and_iff_right rfl

theorem modifyGet_eq_ok {f : σ → α × σ} {s t : σ} {a : α} :
    (modifyGet f : EStateM ε σ α) s = .ok a t ↔ (f s).1 = a ∧ (f s).2 = t := by
  change EStateM.Result.ok (f s).1 (f s).2 = .ok a t ↔ _
  rw [EStateM.Result.ok.injEq]

theorem exists_of_isOk {r : Except ε α} (h : r.isOk = true) : ∃ a, r = .ok a := by
  cases r with
  | ok a => exact ⟨a, rfl⟩
  | error e => cases h

theorem exists_of_decide {r : Except ε α} {P : α → Prop} [DecidablePred P]
    (h : r.toOption.any (fun a => decide (P a)) = true) : ∃ a, r = .ok a ∧ P a := by
  cases r with
  | ok a => exact ⟨a, rfl, of_decide_eq_true h⟩
  | error e => cases h

theorem within_eq_ok {c : Construct} {m : EStateM ParseError σ α} {s t : σ} {a : α} :
    within c m s = .ok a t ↔ m s = .ok a t := by
  unfold within
  cases m s with
  | ok b u => exact Iff.rfl
  | error e u => simp only [reduceCtorEq]

theorem fail_eq_ok {cause : ErrorCause} {k l : Cursor} {a : α} :
    (Scan.fail cause : Scan α) k = .ok a l ↔ False := by
  simp only [Scan.fail, reduceCtorEq]

section OnRest

variable {read : Cursor → EStateM.Result ParseError Cursor α} {k l : Cursor}

theorem onRest_apply (h : k.inside = []) : Scan.onRest read k = read k := by
  rw [Scan.onRest, h, List.isEmpty_nil, if_pos rfl]

theorem onRest_of_ne_nil (h : k.inside ≠ []) :
    Scan.onRest read k = .error ⟨.splitCharacter, k.position, []⟩ k := by
  rw [Scan.onRest, if_neg (mt List.isEmpty_iff.mp h)]

theorem onRest_eq_ok {a : α} :
    Scan.onRest read k = .ok a l ↔ k.inside = [] ∧ read k = .ok a l := by
  by_cases hinside : k.inside = []
  · rw [onRest_apply hinside, and_iff_right hinside]
  · rw [onRest_of_ne_nil hinside]
    simp only [hinside, reduceCtorEq, false_and]

end OnRest

theorem failAhead_eq_ok {cause : ErrorCause} {k l : Cursor} {a : α} :
    (Scan.failAhead cause : Scan α) k = .ok a l ↔ False := by
  simp only [Scan.failAhead, onRest_eq_ok, reduceCtorEq, and_false]

/-- An action on the cursor leaves the rest of a draft as it is. -/
theorem lift_apply (m : Scan α) (d : Draft) :
    (liftM m : Compile α) d = match m d.cursor with
      | .ok a cursor => .ok a { d with cursor }
      | .error e cursor => .error e { d with cursor } :=
  rfl

theorem lift_eq_ok {m : Scan α} {d e : Draft} {a : α} :
    (liftM m : Compile α) d = .ok a e ↔
      ∃ k, m d.cursor = .ok a k ∧ { d with cursor := k } = e := by
  rw [lift_apply]
  cases m d.cursor with
  | ok b k =>
    simp only [EStateM.Result.ok.injEq]
    constructor
    · rintro ⟨hb, hk⟩
      exact ⟨k, ⟨hb, rfl⟩, hk⟩
    · rintro ⟨l, ⟨hb, rfl⟩, hk⟩
      exact ⟨hb, hk⟩
  | error e k => simp only [reduceCtorEq, false_and, exists_false]

theorem Compile.lift_fail_ne_ok {cause : ErrorCause} {d e : Draft} {a : α}
    (h : (liftM (Scan.fail cause : Scan α) : Compile α) d = .ok a e) : False := by
  obtain ⟨k, hk, -⟩ := lift_eq_ok.mp h
  exact fail_eq_ok.mp hk

end FragmentAssembly

import FragmentAssembly.Proofs.Outcome

/-!
# Actions side by side

Two runs of the same action, or of similar ones, can be followed step by step.  A coupling says
which states the two runs may be in at the same time and which errors they may end with.  It also
allows that the first run has nothing left of what the two share: from then on the second one may
do as it likes.
-/

namespace FragmentAssembly

structure Coupling (ε σ : Type) where
  /-- States that the runs may be in at the same time. -/
  beside : σ → σ → Prop
  /-- Errors that they may end with. -/
  alike : ε → ε → Prop
  /-- States in which the first run has nothing left of what the runs share. -/
  spent : σ → Prop
  /-- Errors that the first run ends with in such a state. -/
  last : ε → Prop

/-- No value. -/
def Never {α : Type} (_ : α) : Prop :=
  False

/-- Any value. -/
def Always {α : Type} (_ : α) : Prop :=
  True

namespace Coupling

variable {ε σ α β γ δ : Type}

/-- The results of two runs: values that are related by `V`, or errors that are alike.  The first
run can be spent with a value in `D`. -/
inductive Pairs (c : Coupling ε σ) (V : α → β → Prop) (D : α → Prop) :
    EStateM.Result ε σ α → EStateM.Result ε σ β → Prop where
  | ok {a : α} {b : β} {s t : σ} (value : V a b) (state : c.beside s t) :
    Pairs c V D (.ok a s) (.ok b t)
  | error {e f : ε} {s t : σ} (h : c.alike e f) : Pairs c V D (.error e s) (.error f t)
  | spent {a : α} {s : σ} (value : D a) (state : c.spent s) (y : EStateM.Result ε σ β) :
    Pairs c V D (.ok a s) y
  | last {e : ε} {s : σ} (h : c.last e) (y : EStateM.Result ε σ β) : Pairs c V D (.error e s) y

/-- From states side by side, two actions have results side by side. -/
def Together (c : Coupling ε σ) (V : α → β → Prop) (D : α → Prop) (m : EStateM ε σ α)
    (n : EStateM ε σ β) : Prop :=
  ∀ s t, c.beside s t → c.Pairs V D (m s) (n t)

/-- The action and itself, with the same values. -/
abbrev Keeps (c : Coupling ε σ) (D : α → Prop) (m : EStateM ε σ α) : Prop :=
  c.Together Eq D m m

/-- A run that is spent remains so, with a value in `D`, or ends with a last error. -/
def Stays (c : Coupling ε σ) (D : α → Prop) (m : EStateM ε σ α) : Prop :=
  ∀ s, c.spent s → (∃ a t, m s = .ok a t ∧ D a ∧ c.spent t) ∨ ∃ e t, m s = .error e t ∧ c.last e

/-- Two actions have results side by side, and where the first one is spent it remains so. -/
structure Follows (c : Coupling ε σ) (V : α → β → Prop) (D : α → Prop) (m : EStateM ε σ α)
    (n : EStateM ε σ β) : Prop where
  together : c.Together V D m n
  stays : c.Stays D m

variable {c : Coupling ε σ} {V : α → β → Prop} {W : γ → δ → Prop} {D : α → Prop} {E : γ → Prop}

namespace Pairs

variable {x : EStateM.Result ε σ α} {y : EStateM.Result ε σ β}

theorem weaken {V' : α → β → Prop} {D' : α → Prop} (h : c.Pairs V D x y)
    (hV : ∀ a b, V a b → V' a b) (hD : ∀ a, D a → D' a) : c.Pairs V' D' x y := by
  cases h with
  | ok value state => exact .ok (hV _ _ value) state
  | error h => exact .error h
  | spent value state => exact .spent (hD _ value) state y
  | last h => exact .last h y

end Pairs

namespace Stays

variable {m : EStateM ε σ α} {f : α → EStateM ε σ γ}

theorem pure {a : α} (h : D a) : c.Stays D (pure a : EStateM ε σ α) :=
  fun s hs => .inl ⟨a, s, rfl, h, hs⟩

theorem bind (h : c.Stays D m) (hf : ∀ a, D a → c.Stays E (f a)) : c.Stays E (m >>= f) := by
  intro s hs
  rw [bind_apply]
  rcases h s hs with ⟨a, t, ha, hD, ht⟩ | ⟨e, t, he, hlast⟩
  · rw [ha]
    exact hf a hD t ht
  · rw [he]
    exact .inr ⟨e, t, rfl, hlast⟩

/-- Where the first run is spent, the second one does not matter. -/
theorem pairs (h : c.Stays D m) {s : σ} (hs : c.spent s) (y : EStateM.Result ε σ β) :
    c.Pairs V D (m s) y := by
  rcases h s hs with ⟨a, t, ha, hD, ht⟩ | ⟨e, t, he, hlast⟩
  · rw [ha]
    exact .spent hD ht y
  · rw [he]
    exact .last hlast y

/-- An action that a spent run does not come out of goes before any other. -/
theorem andThen (h : c.Stays Never m) : c.Stays E (m >>= f) :=
  h.bind fun _ hnever => hnever.elim

end Stays

/-- The results of the actions that follow. -/
theorem Pairs.bind {m : EStateM ε σ α} {n : EStateM ε σ β} {f : α → EStateM ε σ γ}
    {g : β → EStateM ε σ δ} {s t : σ} (h : c.Pairs V D (m s) (n t))
    (hf : ∀ a b s' t', m s = .ok a s' → V a b → c.beside s' t' → c.Pairs W E (f a s') (g b t'))
    (hstay : ∀ a, D a → c.Stays E (f a)) : c.Pairs W E ((m >>= f) s) ((n >>= g) t) := by
  rw [bind_apply, bind_apply]
  generalize hx : m s = x at h hf
  generalize n t = y at h
  cases h with
  | ok value state => exact hf _ _ _ _ rfl value state
  | error h => exact .error h
  | @spent a u value state =>
    -- what the second run does no longer matters, as the first one stays spent
    exact (hstay a value).pairs state _
  | last h => exact .last h _

namespace Together

variable {m : EStateM ε σ α} {n : EStateM ε σ β} {f : α → EStateM ε σ γ} {g : β → EStateM ε σ δ}

theorem pure {a : α} {b : β} (h : V a b) :
    c.Together V D (pure a : EStateM ε σ α) (pure b : EStateM ε σ β) :=
  fun _ _ hst => .ok h hst

/-- Where the first action can be spent, the second one must stay so. -/
theorem bind (h : c.Together V D m n) (hf : ∀ a b, V a b → c.Together W E (f a) (g b))
    (hstay : ∀ a, D a → c.Stays E (f a)) : c.Together W E (m >>= f) (n >>= g) :=
  fun s t hst => (h s t hst).bind (fun a b s t _ hab hst => hf a b hab s t hst) hstay

/-- An action that is never spent goes before any other. -/
theorem andThen (h : c.Together V Never m n)
    (hf : ∀ a b, V a b → c.Together W E (f a) (g b)) : c.Together W E (m >>= f) (n >>= g) :=
  h.bind hf fun _ hnever => hnever.elim

/-- The last action only returns something, and it does so at any rate. -/
theorem map {f : α → γ} {g : β → δ} (h : c.Together V D m n) (hfg : ∀ a b, V a b → W (f a) (g b)) :
    c.Together W Always (m >>= fun a => Pure.pure (f a)) (n >>= fun b => Pure.pure (g b)) :=
  h.bind (fun a b hab => .pure (hfg a b hab)) fun _ _ => .pure trivial

theorem weaken {V' : α → β → Prop} {D' : α → Prop} (h : c.Together V D m n)
    (hV : ∀ a b, V a b → V' a b) (hD : ∀ a, D a → D' a) : c.Together V' D' m n :=
  fun s t hst => (h s t hst).weaken hV hD

/-- The states are looked at. -/
theorem look {f : σ → EStateM ε σ γ} {g : σ → EStateM ε σ δ}
    (h : ∀ s t, c.beside s t → c.Pairs W E (f s s) (g t t)) :
    c.Together W E (get >>= f) (get >>= g) :=
  h

theorem modify {f g : σ → σ} {D : PUnit → Prop} (h : ∀ s t, c.beside s t → c.beside (f s) (g t)) :
    c.Together Eq D (modify f : EStateM ε σ PUnit) (modify g : EStateM ε σ PUnit) :=
  fun s t hst => .ok rfl (h s t hst)

end Together

namespace Follows

variable {m : EStateM ε σ α} {n : EStateM ε σ β} {f : α → EStateM ε σ γ} {g : β → EStateM ε σ δ}

theorem pure {a : α} {b : β} (h : V a b) (hD : D a) :
    c.Follows V D (pure a : EStateM ε σ α) (pure b : EStateM ε σ β) :=
  ⟨.pure h, .pure hD⟩

theorem bind (h : c.Follows V D m n) (hf : ∀ a b, V a b → c.Together W E (f a) (g b))
    (hstay : ∀ a, D a → c.Stays E (f a)) : c.Follows W E (m >>= f) (n >>= g) :=
  ⟨h.together.bind hf hstay, h.stays.bind hstay⟩

/-- An action that is never spent goes before any other. -/
theorem andThen (h : c.Follows V Never m n) (hf : ∀ a b, V a b → c.Together W E (f a) (g b)) :
    c.Follows W E (m >>= f) (n >>= g) :=
  h.bind hf fun _ hnever => hnever.elim

theorem map {f : α → γ} {g : β → δ} (h : c.Follows V D m n) (hfg : ∀ a b, V a b → W (f a) (g b)) :
    c.Follows W Always (m >>= fun a => Pure.pure (f a)) (n >>= fun b => Pure.pure (g b)) :=
  h.bind (fun a b hab => .pure (hfg a b hab)) fun _ _ => .pure trivial

end Follows

end Coupling

end FragmentAssembly

import FragmentAssembly.Context
import FragmentAssembly.Proofs.ParameterTable
import Mathlib.Data.List.Forall2
import Mathlib.Logic.Relation

/-!
# Parameter updates

The parameters of a bound program can be set at any time after it was compiled.  An update keeps
everything but values: those of local parameters, and those of entries that were declared.
-/

namespace FragmentAssembly

/-! ## Updates -/

/-- Setting a parameter of the bound program of a context turns one program into another. -/
inductive Program.Update : Program → Program → Prop where
  | localParameter {c c' : Context} {p q : Program} {index : Nat} {value : Vec4}
    (before : c.program? = some p) (set : c.setLocalParameter index value = (.ok (), c'))
    (after : c'.program? = some q) : Update p q
  | named {c c' : Context} {p q : Program} {name : String} {value : Vec4}
    (before : c.program? = some p) (set : c.setNamedParameter name value = (.ok (), c'))
    (after : c'.program? = some q) : Update p q

/-- Any number of updates, one after the other. -/
def Program.Updates : Program → Program → Prop :=
  Relation.ReflTransGen Program.Update

namespace Context

/-- The place that a context owns holds its bound program. -/
theorem own_eq_ok {c c' : Context} {place : Nat} {p : Program} (h : c.own = .ok (place, p, c')) :
    c.program? = some p ∧ c'.bound = some place ∧ place < c'.programs.size := by
  unfold own at h
  cases hbound : c.bound with
  | none => simp only [hbound, reduceCtorEq] at h
  | some held =>
    simp only [hbound] at h
    cases hfound : c.programs[held]? with
    | none => simp only [hfound, reduceCtorEq] at h
    | some found =>
      simp only [hfound] at h
      have hbefore : c.program? = some found := by
        rw [program?, hbound, Option.bind_some, hfound]
      -- a shared program is copied to a new place before it is changed
      split at h
      · cases h
        refine ⟨hbefore, rfl, ?_⟩
        rw [bind, Array.size_push]
        exact Nat.lt_succ_self _
      · cases h
        exact ⟨hbefore, hbound, (Array.getElem?_eq_some_iff.mp hfound).1⟩

theorem program?_put {c : Context} {place : Nat} {p : Program} (hbound : c.bound = some place)
    (hplace : place < c.programs.size) : (c.put place p).program? = some p := by
  unfold put program?
  rw [hbound, Option.bind_some, Array.getElem?_setIfInBounds_self, if_pos hplace]

/-- A program that was bound alone is owned. -/
theorem own_bind (p : Program) :
    (({} : Context).bind p).own = .ok (0, p, ({} : Context).bind p) := by
  simp [own, bind]

end Context

/-- Every local parameter can be set. -/
theorem Program.Update.setLocal (p : Program) (index : Nat) (value : Vec4)
    (h : index < localParameterCount) :
    p.Update { p with localParameters := p.localParameters.set index value h } := by
  have hset : (({} : Context).bind p).setLocalParameter index value =
      (.ok (), (({} : Context).bind p).put 0
        { p with localParameters := p.localParameters.set index value h }) := by
    unfold Context.setLocalParameter
    rw [dif_pos h, Context.own_bind]
  exact .localParameter rfl hset (Context.program?_put rfl Nat.zero_lt_one)

/-- So can every declared one. -/
theorem Program.Update.setNamed (p : Program) {name : String} {index : Nat} (value : Vec4)
    (hfound : p.parameters.lookup? name = some index)
    (hdeclared : (p.parameters.get? index).any (·.kind = .declared) = true) :
    p.Update { p with parameters := p.parameters.setValue index value } := by
  have hset : (({} : Context).bind p).setNamedParameter name value =
      (.ok (), (({} : Context).bind p).put 0
        { p with parameters := p.parameters.setValue index value }) := by
    unfold Context.setNamedParameter
    rw [Context.own_bind]
    dsimp only
    rw [hfound]
    dsimp only
    rw [if_pos hdeclared]
  exact .named rfl hset (Context.program?_put rfl Nat.zero_lt_one)

/-! ## What an update keeps -/

/-- Only a declared entry has got another value. -/
structure Parameter.Retuned (a b : Parameter) : Prop where
  name : b.name = a.name
  kind : b.kind = a.kind
  value : a.kind ≠ .declared → b.value = a.value

theorem Parameter.Retuned.refl (a : Parameter) : a.Retuned a :=
  ⟨rfl, rfl, fun _ => rfl⟩

theorem Parameter.Retuned.trans {a b c : Parameter} (hab : a.Retuned b) (hbc : b.Retuned c) :
    a.Retuned c where
  name := hbc.name.trans hab.name
  kind := hbc.kind.trans hab.kind
  value hfixed := by
    have hkept : b.kind ≠ .declared := by
      rw [hab.kind]
      exact hfixed
    rw [hbc.value hkept, hab.value hfixed]

namespace ParameterTable

/-- Only declared entries have got other values, and the names denote what they did. -/
structure Retuned (s t : ParameterTable) : Prop where
  entries : List.Forall₂ Parameter.Retuned s.entries t.entries
  names : t.names = s.names

theorem Retuned.refl (t : ParameterTable) : t.Retuned t :=
  ⟨List.forall₂_same.mpr fun a _ => Parameter.Retuned.refl a, rfl⟩

theorem Retuned.trans {s t u : ParameterTable} (hst : s.Retuned t) (htu : t.Retuned u) :
    s.Retuned u := by
  have hentries : ∀ {as bs cs : List Parameter}, List.Forall₂ Parameter.Retuned as bs →
      List.Forall₂ Parameter.Retuned bs cs → List.Forall₂ Parameter.Retuned as cs := by
    intro as bs cs hab hbc
    induction hab generalizing cs with
    | nil => exact hbc
    | cons hfirst _ ih =>
      cases hbc with
      | cons hsecond hrest => exact .cons (hfirst.trans hsecond) (ih hrest)
  exact ⟨hentries hst.entries htu.entries, htu.names.trans hst.names⟩

theorem Retuned.size {s t : ParameterTable} (h : s.Retuned t) : t.size = s.size :=
  h.entries.length_eq.symm

theorem Retuned.inStep {s t : ParameterTable} (h : s.Retuned t) (hs : s.InStep) : t.InStep := by
  have hentries : ∀ {as bs : List Parameter}, List.Forall₂ Parameter.Retuned as bs →
      bs.map Parameter.name = as.map Parameter.name := by
    intro as bs hall
    induction hall with
    | nil => rfl
    | cons hab _ ih => rw [List.map_cons, List.map_cons, hab.name, ih]
  exact hs.of_names h.names (hentries h.entries)

/-- Setting the value of a declared entry changes no other one. -/
theorem retuned_setValue {t : ParameterTable} {index : Nat} {value : Vec4}
    (h : (t.get? index).any (·.kind = .declared) = true) : t.Retuned (t.setValue index value) := by
  obtain ⟨entries, names⟩ := t
  refine ⟨?_, rfl⟩
  unfold get? at h
  unfold setValue
  dsimp only at h ⊢
  induction entries generalizing index with
  | nil =>
    rw [List.modify_nil]
    exact .nil
  | cons a as ih =>
    cases index with
    | zero =>
      -- the entry that is set was declared, so its value may change
      rw [List.getElem?_cons_zero, Option.any_some, decide_eq_true_eq] at h
      rw [List.modify_zero_cons]
      exact .cons ⟨rfl, rfl, fun hfixed => absurd h hfixed⟩
        (List.forall₂_same.mpr fun a _ => Parameter.Retuned.refl a)
    | succ index =>
      rw [List.getElem?_cons_succ] at h
      rw [List.modify_succ_cons]
      exact .cons (Parameter.Retuned.refl a) (ih h)

end ParameterTable

namespace Program

/-- Nothing but values of parameters differs, and only of those that can be set. -/
structure Retuned (p q : Program) : Prop where
  same : q = { p with parameters := q.parameters, localParameters := q.localParameters }
  parameters : p.parameters.Retuned q.parameters

theorem Retuned.refl (p : Program) : p.Retuned p :=
  ⟨rfl, ParameterTable.Retuned.refl _⟩

theorem Retuned.trans {p q r : Program} (hpq : p.Retuned q) (hqr : q.Retuned r) : p.Retuned r := by
  refine ⟨?_, hpq.parameters.trans hqr.parameters⟩
  rw [hqr.same, hpq.same]

theorem Retuned.instructions {p q : Program} (h : p.Retuned q) :
    q.instructions = p.instructions := by
  rw [h.same]

theorem retuned_of_update {p q : Program} (h : Update p q) : p.Retuned q := by
  -- both setters put back the program that they found, with one value replaced
  cases h with
  | @localParameter c c' _ _ index value before set after =>
    unfold Context.setLocalParameter at set
    split at set
    · split at set
      · cases set
      · rename_i place found owned howned
        cases set
        obtain ⟨hfound, hbound, hplace⟩ := Context.own_eq_ok howned
        rw [before] at hfound
        rw [Context.program?_put hbound hplace] at after
        cases hfound
        cases after
        exact ⟨rfl, ParameterTable.Retuned.refl _⟩
    · cases set
  | @named c c' _ _ name value before set after =>
    unfold Context.setNamedParameter at set
    split at set
    · cases set
    · rename_i place found owned howned
      obtain ⟨hfound, hbound, hplace⟩ := Context.own_eq_ok howned
      rw [before] at hfound
      cases hfound
      split at set
      · cases set
      · split at set
        · rename_i hdeclared
          cases set
          rw [Context.program?_put hbound hplace] at after
          cases after
          exact ⟨rfl, ParameterTable.retuned_setValue hdeclared⟩
        · cases set

theorem retuned_of_updates {p q : Program} (h : Updates p q) : p.Retuned q := by
  unfold Updates at h
  induction h with
  | refl => exact .refl p
  | tail _ hupdate ih => exact ih.trans (retuned_of_update hupdate)

end Program

end FragmentAssembly

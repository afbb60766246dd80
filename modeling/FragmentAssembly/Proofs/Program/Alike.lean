import FragmentAssembly.Program.Basic
import Mathlib.Data.List.Forall2

/-!
# Instructions of different programs

The same operand can have another index in another program, since literals are numbered as they
are read.  Instructions are alike if they differ in no more than that and in their positions.
-/

namespace FragmentAssembly

/-- What an operand denotes: a register, or the entry of the table that it names. -/
def Readable.meaning (t : ParameterTable) : Readable → Option (Readable ⊕ Parameter)
  | .parameter i => (t.get? i).map .inr
  | r => some (.inl r)

/-- Operands of programs with tables `s` and `t` that denote the same. -/
structure Readable.Alike (s t : ParameterTable) (a b : Readable) : Prop where
  denoted : (a.meaning s).isSome = true
  same : b.meaning t = a.meaning s

structure Source.Alike (s t : ParameterTable) (a b : Source) : Prop where
  register : a.register.Alike s t b.register
  swizzle : b.swizzle = a.swizzle
  negateBase : b.negateBase = a.negateBase
  absolute : b.absolute = a.absolute
  negateAbsolute : b.negateAbsolute = a.negateAbsolute

structure Instruction.Alike (s t : ParameterTable) (a b : Instruction) : Prop where
  opcode : b.opcode = a.opcode
  sources : List.Forall₂ (Source.Alike s t) a.sources b.sources
  destination : b.destination = a.destination
  condition : b.condition = a.condition
  precision : b.precision = a.precision
  saturate : b.saturate = a.saturate
  updateCodes : b.updateCodes = a.updateCodes
  texture : b.texture = a.texture

variable {s t : ParameterTable}

namespace Readable.Alike

/-- Operands that are alike name the same register, or entries that are equal. -/
theorem cases {a b : Readable} (h : a.Alike s t b) :
    (a = b ∧ ∀ i, a ≠ .parameter i) ∨
      ∃ i j entry, a = .parameter i ∧ b = .parameter j ∧ s.get? i = some entry ∧
        t.get? j = some entry := by
  obtain ⟨hdenoted, hsame⟩ := h
  cases a with
  | parameter i =>
    obtain ⟨entry, hentry⟩ : ∃ entry, s.get? i = some entry := by
      rw [← Option.isSome_iff_exists, ← Option.isSome_map]
      exact hdenoted
    have hi : (Readable.parameter i).meaning s = some (.inr entry) := by
      rw [meaning, hentry, Option.map_some]
    rw [hi] at hsame
    cases b with
    | parameter j =>
      obtain ⟨found, hfound, hinr⟩ := Option.map_eq_some_iff.mp hsame
      cases hinr
      exact .inr ⟨i, j, entry, rfl, rfl, hentry, hfound⟩
    | temporary j => cases hsame
    | input j => cases hsame
    | localParameter j => cases hsame
  | temporary i =>
    left
    refine ⟨?_, nofun⟩
    cases b <;> simp_all [meaning]
  | input i =>
    left
    refine ⟨?_, nofun⟩
    cases b <;> simp_all [meaning]
  | localParameter i =>
    left
    refine ⟨?_, nofun⟩
    cases b <;> simp_all [meaning]

/-- A register is alike to itself in any tables. -/
theorem of_register {r : Readable} (h : ∀ i, r ≠ .parameter i) : r.Alike s t r := by
  cases r with
  | temporary i => exact ⟨rfl, rfl⟩
  | input i => exact ⟨rfl, rfl⟩
  | localParameter i => exact ⟨rfl, rfl⟩
  | parameter i => exact absurd rfl (h i)

theorem of_entry {i j : Nat} {entry : Parameter} (hi : s.get? i = some entry)
    (hj : t.get? j = some entry) : (Readable.parameter i).Alike s t (.parameter j) := by
  constructor
  · rw [meaning, hi]
    rfl
  · rw [meaning, meaning, hi, hj]

end Readable.Alike

instance (s t : ParameterTable) (a b : Readable) : Decidable (a.Alike s t b) :=
  decidable_of_iff ((a.meaning s).isSome = true ∧ b.meaning t = a.meaning s)
    ⟨fun h => ⟨h.1, h.2⟩, fun h => ⟨h.1, h.2⟩⟩

instance (s t : ParameterTable) (a b : Source) : Decidable (a.Alike s t b) :=
  decidable_of_iff (a.register.Alike s t b.register ∧ b.swizzle = a.swizzle ∧
      b.negateBase = a.negateBase ∧ b.absolute = a.absolute ∧
      b.negateAbsolute = a.negateAbsolute)
    ⟨fun h => ⟨h.1, h.2.1, h.2.2.1, h.2.2.2.1, h.2.2.2.2⟩, fun h => ⟨h.1, h.2, h.3, h.4, h.5⟩⟩

instance (s t : ParameterTable) (a b : Instruction) : Decidable (a.Alike s t b) :=
  decidable_of_iff (b.opcode = a.opcode ∧ List.Forall₂ (Source.Alike s t) a.sources b.sources ∧
      b.destination = a.destination ∧ b.condition = a.condition ∧ b.precision = a.precision ∧
      b.saturate = a.saturate ∧ b.updateCodes = a.updateCodes ∧ b.texture = a.texture)
    ⟨fun h => ⟨h.1, h.2.1, h.2.2.1, h.2.2.2.1, h.2.2.2.2.1, h.2.2.2.2.2.1, h.2.2.2.2.2.2.1,
      h.2.2.2.2.2.2.2⟩, fun h => ⟨h.1, h.2, h.3, h.4, h.5, h.6, h.7, h.8⟩⟩

/-- Elements of the same number are related, or there are none. -/
theorem getElem?_of_forall₂ {α β : Type} {R : α → β → Prop} {as : List α} {bs : List β}
    (h : List.Forall₂ R as bs) (n : Nat) :
    (as[n]? = none ∧ bs[n]? = none) ∨ ∃ a b, as[n]? = some a ∧ bs[n]? = some b ∧ R a b := by
  induction h generalizing n with
  | nil => exact .inl ⟨rfl, rfl⟩
  | @cons a b _ _ head _ ih =>
    cases n with
    | zero => exact .inr ⟨a, b, rfl, rfl, head⟩
    | succ n => exact ih n

theorem exists_of_forall₂ {α β : Type} {R : α → β → Prop} {as : List α} {bs : List β}
    (h : List.Forall₂ R as bs) {a : α} (ha : a ∈ as) : ∃ b ∈ bs, R a b := by
  obtain ⟨n, hn⟩ := List.mem_iff_getElem?.mp ha
  rcases getElem?_of_forall₂ h n with ⟨hnone, -⟩ | ⟨a', b, ha', hb, hab⟩
  · rw [hnone] at hn
    cases hn
  · rw [ha', Option.some.injEq] at hn
    exact ⟨b, List.mem_of_getElem? hb, hn ▸ hab⟩

theorem map_eq_of_forall₂ {α β γ : Type} {R : α → β → Prop} {as : List α} {bs : List β}
    {f : α → γ} {g : β → γ} (h : List.Forall₂ R as bs) (hR : ∀ a b, R a b → g b = f a) :
    bs.map g = as.map f := by
  induction h with
  | nil => rfl
  | cons head _ ih => rw [List.map_cons, List.map_cons, hR _ _ head, ih]

theorem forall₂_imp_of_mem {α β : Type} {R S : α → β → Prop} {as : List α} {bs : List β}
    (h : List.Forall₂ R as bs) (hRS : ∀ a ∈ as, ∀ b ∈ bs, R a b → S a b) :
    List.Forall₂ S as bs := by
  induction h with
  | nil => exact .nil
  | cons head _ ih =>
    exact .cons (hRS _ List.mem_cons_self _ List.mem_cons_self head)
      (ih fun a ha b hb => hRS a (List.mem_cons_of_mem _ ha) b (List.mem_cons_of_mem _ hb))

end FragmentAssembly

import FragmentAssembly.Proofs.Disassembly.Operand
import FragmentAssembly.Proofs.Program.Usage

/-!
# Values that are written

Every value of a table is in the text of a program: that of a named entry where it is defined, and
that of a literal where it is an operand.
-/

namespace FragmentAssembly

/-! ## Finite values -/

/-- All components of all values are finite. -/
def ParameterTable.IsFinite (t : ParameterTable) : Prop :=
  ∀ entry ∈ t.entries, ∀ c, (entry.value.get c).isFinite = true

instance (t : ParameterTable) : Decidable t.IsFinite :=
  decidable_of_iff (∀ entry ∈ t.entries, entry.value.all Binary32.isFinite = true) <| by
    simp only [ParameterTable.IsFinite, forall_isFinite_iff, Quad.all, Bool.and_eq_true, and_assoc]

/-- Named entries are written where they are defined, and literals where they are used. -/
theorem isFinite_iff {p q : Program} {body : List Instruction}
    (h : Assembles {} body p.inventory) (htuned : p.parameters.Retuned q.parameters) :
    ((∀ entry ∈ q.parameters.named, ∀ c, (entry.value.get c).isFinite = true) ∧
        ∀ ins ∈ body, ∀ s ∈ ins.sources, s.register.IsPrintable q.parameters) ↔
      q.parameters.IsFinite := by
  constructor
  · rintro ⟨hnamed, hprintable⟩ entry hentry
    cases hname : entry.name with
    | some name => exact hnamed entry (ParameterTable.mem_named hentry hname)
    | none =>
      obtain ⟨index, hindex⟩ := List.mem_iff_getElem?.mp hentry
      rcases getElem?_of_forall₂ htuned.entries index with ⟨-, hnone⟩ | ⟨a, b, ha, hb, hab⟩
      · rw [hindex] at hnone
        cases hnone
      · rw [hindex, Option.some.injEq] at hb
        subst hb
        have haname : a.name = none := by rw [← hab.name, hname]
        have hget : p.parameters.get? index = some a := ha
        -- a literal is an operand of some instruction, where its text is read
        rcases h.used hget (.inl haname) with hempty | ⟨ins, hins, s, hs, hregister⟩
        · cases hempty
        · exact hprintable ins hins s hs index entry hregister hindex hname
  · intro hfinite
    refine ⟨fun entry hentry => hfinite entry (List.mem_filter.mp hentry).1, ?_⟩
    intro ins _ s _ index entry _ hentry _
    exact hfinite entry (ParameterTable.mem_of_get? hentry)

end FragmentAssembly

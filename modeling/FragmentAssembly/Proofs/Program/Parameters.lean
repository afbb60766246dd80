import FragmentAssembly.Proofs.Disassembly.Table
import FragmentAssembly.Proofs.Grammar.Spelling

/-!
# Sound parameter tables

In a sound table a name denotes the only entry that has it, and no literal stands twice.  What
instructions and definitions enter keeps tables sound, and so does setting parameters.
-/

namespace FragmentAssembly

/-- Only one element can be so related to others. -/
theorem eq_of_pairwise {α : Type} {R : α → α → Prop} {as : List α} (h : as.Pairwise R) {i j : Nat}
    {a b : α} (hi : as[i]? = some a) (hj : as[j]? = some b) (hab : ¬R a b) (hba : ¬R b a) :
    i = j := by
  obtain ⟨hilt, rfl⟩ := List.getElem?_eq_some_iff.mp hi
  obtain ⟨hjlt, rfl⟩ := List.getElem?_eq_some_iff.mp hj
  rw [List.pairwise_iff_getElem] at h
  rcases Nat.lt_trichotomy i j with hlt | heq | hlt
  · exact absurd (h i j hilt hjlt hlt) hab
  · exact heq
  · exact absurd (h j i hjlt hilt hlt) hba

namespace ParameterTable

/-- Entries with names are known by their names, and the others by their bits.  The map, in which
names are looked up, is in step with the entries. -/
structure IsSound (t : ParameterTable) : Prop where
  inStep : t.InStep
  distinct : ∀ {i j : Nat} {a b : Parameter} {name : String}, t.get? i = some a →
    t.get? j = some b → a.name = some name → b.name = some name → i = j
  free : ∀ entry ∈ t.entries, ∀ name, entry.name = some name → ¬Grammar.IsReserved name
  lookup : ∀ name index, t.lookup? name = some index ↔
    ∃ entry, t.get? index = some entry ∧ entry.name = some name
  anonymous : ∀ entry ∈ t.entries, entry.name = none ↔ entry.kind = .literal
  literal : ∀ {i j : Nat} {a b : Parameter}, t.get? i = some a → t.get? j = some b →
    a.kind = .literal → b.kind = .literal → a.value = b.value → i = j

/-- No literal stands twice. -/
def SharesLiterals (t : ParameterTable) : Prop :=
  t.entries.Pairwise fun a b => a.kind = .literal → b.kind = .literal → a.value ≠ b.value

theorem IsRegular.index_eq {t : ParameterTable} (h : t.IsRegular) {i j : Nat} {a b : Parameter}
    {name : String} (hi : t.get? i = some a) (hj : t.get? j = some b) (ha : a.name = some name)
    (hb : b.name = some name) : i = j :=
  eq_of_pairwise h.distinct hi hj (fun hab => hab name ha hb) (fun hba => hba name hb ha)

theorem IsRegular.lookup?_eq_some {t : ParameterTable} (h : t.IsRegular) {name : String}
    {index : Nat} : t.lookup? name = some index ↔
      ∃ entry, t.get? index = some entry ∧ entry.name = some name := by
  constructor
  · exact get?_of_lookup? h.inStep
  · rintro ⟨entry, hentry, hname⟩
    cases hfound : t.lookup? name with
    | none => exact absurd hname ((lookup?_eq_none h.inStep).mp hfound entry (mem_of_get? hentry))
    | some last =>
      obtain ⟨other, hother, hname'⟩ := get?_of_lookup? h.inStep hfound
      rw [h.index_eq hother hentry hname' hname]

/-- A name denotes what it did before other entries were added. -/
theorem IsSound.lookup?_extends {s t : ParameterTable} (hs : s.IsSound) (ht : t.IsSound)
    (hmore : t.Extends s) {name : String} {index : Nat} (h : s.lookup? name = some index) :
    t.lookup? name = some index := by
  obtain ⟨entry, hentry, hname⟩ := (hs.lookup name index).mp h
  exact (ht.lookup name index).mpr ⟨entry, hmore.get? hentry, hname⟩

theorem IsRegular.isSound {t : ParameterTable} (h : t.IsRegular) (hshares : t.SharesLiterals) :
    t.IsSound where
  inStep := h.inStep
  distinct hi hj ha hb := h.index_eq hi hj ha hb
  free entry hentry name hname := by
    rw [isReserved_iff, Bool.not_eq_true]
    rcases h.entry entry hentry with ⟨hnone, -⟩ | ⟨found, hfound, -, hfree, -⟩
    · rw [hnone] at hname
      cases hname
    · rw [hfound] at hname
      cases hname
      exact hfree
  lookup name index := h.lookup?_eq_some
  anonymous entry hentry := by
    refine ⟨(h.entry entry hentry).kind_eq, fun hkind => ?_⟩
    rcases h.entry entry hentry with ⟨hnone, -⟩ | ⟨name, -, -, -, hother⟩
    · exact hnone
    · exact absurd hkind hother
  literal hi hj ha hb hvalue :=
    eq_of_pairwise hshares hi hj (fun hab => hab ha hb hvalue) fun hba => hba hb ha hvalue.symm

/-! ## What keeps tables sound -/

theorem sharesLiterals_addNamed {t : ParameterTable} {kind : ParameterKind} (h : t.SharesLiterals)
    (hkind : kind ≠ .literal) (name : String) (v : Vec4) :
    (t.addNamed name kind v).2.SharesLiterals := by
  refine List.pairwise_append.mpr ⟨h, List.pairwise_singleton _ _, fun a _ b hb _ hliteral => ?_⟩
  rw [List.mem_singleton] at hb
  subst hb
  exact absurd hliteral hkind

theorem sharesLiterals_addLiteral {t : ParameterTable} (h : t.SharesLiterals) (v : Vec4) :
    (t.addLiteral v).2.SharesLiterals := by
  rcases addLiteral_cases t v with ⟨-, hsame⟩ | ⟨hother, hadded⟩
  · rw [hsame]
    exact h
  · rw [hadded]
    -- the bits were looked for and not found
    refine List.pairwise_append.mpr ⟨h, List.pairwise_singleton _ _, fun a ha b hb hkind _ => ?_⟩
    rw [List.mem_singleton] at hb
    subst hb
    exact fun hvalue => hother a ha ⟨hkind, hvalue⟩

theorem SharesLiterals.retuned {s t : ParameterTable} (h : s.SharesLiterals)
    (hst : s.Retuned t) : t.SharesLiterals := by
  refine List.pairwise_iff_getElem.mpr fun i j hi hj hij hleft hright => ?_
  -- a literal is no declared entry, so its bits are those that it had
  have hback : ∀ (k : Nat) (hk : k < t.entries.length), t.entries[k].kind = .literal →
      ∃ a, s.entries[k]? = some a ∧ a.kind = .literal ∧ t.entries[k].value = a.value := by
    intro k hk hkind
    rcases getElem?_of_forall₂ hst.entries k with ⟨-, hnone⟩ | ⟨a, b, ha, hb, hab⟩
    · rw [List.getElem?_eq_getElem hk] at hnone
      cases hnone
    · rw [List.getElem?_eq_getElem hk, Option.some.injEq] at hb
      subst hb
      have hliteral : a.kind = .literal := by rw [← hab.kind, hkind]
      refine ⟨a, ha, hliteral, hab.value ?_⟩
      rw [hliteral]
      decide
  obtain ⟨a, ha, hakind, havalue⟩ := hback i hi hleft
  obtain ⟨b, hb, hbkind, hbvalue⟩ := hback j hj hright
  intro hvalue
  have hsame : i = j := eq_of_pairwise h ha hb
    (fun hab => hab hakind hbkind (by rw [← havalue, ← hbvalue, hvalue]))
    (fun hba => hba hbkind hakind (by rw [← havalue, ← hbvalue, hvalue]))
  exact Nat.ne_of_lt hij hsame

end ParameterTable

namespace Inventory

variable {i j : Inventory}

theorem sharesLiterals_of_defines (h : i.Defines j) (hi : i.parameters.SharesLiterals) :
    j.parameters.SharesLiterals := by
  cases h with
  | @named name _ v _ _ _ hkind => exact ParameterTable.sharesLiterals_addNamed hi hkind name v

theorem sharesLiterals_of_reads {r : Readable} (h : i.Reads r j)
    (hi : i.parameters.SharesLiterals) : j.parameters.SharesLiterals := by
  cases h with
  | temporary => exact hi
  | input => exact hi
  | localParameter => exact hi
  | named => exact hi
  | literal v => exact ParameterTable.sharesLiterals_addLiteral hi v

theorem Enters.sharesLiterals {ins : Instruction} (h : i.Enters ins j)
    (hi : i.parameters.SharesLiterals) : j.parameters.SharesLiterals := by
  obtain ⟨written, read, sampled⟩ := h
  rw [sampled.keeps (f := Inventory.parameters) Samples.parameters]
  apply read.preserves (P := (·.parameters.SharesLiterals)) fun hread =>
    sharesLiterals_of_reads hread.2
  rw [written.keeps (f := Inventory.parameters) fun hwrites => hwrites.2.parameters]
  exact hi

end Inventory

theorem ParameterTable.isRegular_empty : IsRegular {} :=
  ⟨fun _ h => absurd h List.not_mem_nil, .nil, inStep_empty⟩

/-! ## Compiled programs -/

theorem isRegular_of_compile {source : String} {p : Program} (h : compile source = .ok p) :
    p.parameters.IsRegular := by
  obtain ⟨body, position, -, -, hassembles, -⟩ := assembles_of_compile h
  exact hassembles.isRegular ParameterTable.isRegular_empty

theorem sharesLiterals_of_compile {source : String} {p : Program} (h : compile source = .ok p) :
    p.parameters.SharesLiterals := by
  obtain ⟨body, position, -, -, hassembles, -⟩ := assembles_of_compile h
  exact hassembles.preserves (P := (·.parameters.SharesLiterals))
    Inventory.sharesLiterals_of_defines Inventory.Enters.sharesLiterals .nil

/-- Tables of programs are sound, also after parameters were set. -/
theorem isSound_of_compile {source : String} {p q : Program} (hcompile : compile source = .ok p)
    (hretuned : p.Retuned q) : q.parameters.IsSound :=
  ((isRegular_of_compile hcompile).retuned hretuned.parameters).isSound
    ((sharesLiterals_of_compile hcompile).retuned hretuned.parameters)

end FragmentAssembly

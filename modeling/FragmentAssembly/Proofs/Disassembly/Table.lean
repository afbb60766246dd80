import FragmentAssembly.Proofs.Disassembly.Components
import FragmentAssembly.Proofs.Program.Alike
import FragmentAssembly.Proofs.Program.WellFormed

/-!
# Tables of printed programs

The text of a program defines its named parameters first, so that reading it gives a table with
the named entries in front of the literals.
-/

namespace FragmentAssembly

/-! ## Regular tables -/

/-- A literal has no name, and a parameter has one that can be read. -/
def Parameter.IsRegular (entry : Parameter) : Prop :=
  (entry.name = none ∧ entry.kind = .literal) ∨
    ∃ name, entry.name = some name ∧ IsName name ∧ isReserved name = false ∧
      entry.kind ≠ .literal

/-- A literal is known by its value. -/
theorem Parameter.IsRegular.eq_literal {entry : Parameter} {v : Vec4} (h : entry.IsRegular)
    (hkind : entry.kind = .literal) (hvalue : entry.value = v) :
    entry = ⟨none, .literal, v⟩ := by
  rcases h with ⟨hname, -⟩ | ⟨name, -, -, -, hother⟩
  · obtain ⟨name, kind, value⟩ := entry
    dsimp only at hname hkind hvalue
    rw [hname, hkind, hvalue]
  · exact absurd hkind hother

theorem Parameter.IsRegular.kind_eq {entry : Parameter} (h : entry.IsRegular)
    (hname : entry.name = none) : entry.kind = .literal := by
  rcases h with ⟨-, hkind⟩ | ⟨name, hother, -⟩
  · exact hkind
  · rw [hname] at hother
    cases hother

namespace ParameterTable

/-- Entries are regular, no name is given twice, and the map has them all. -/
structure IsRegular (t : ParameterTable) : Prop where
  entry : ∀ entry ∈ t.entries, entry.IsRegular
  distinct : t.entries.Pairwise fun a b => ∀ name, a.name = some name → b.name ≠ some name
  inStep : t.InStep

/-- The entries with names. -/
def named (t : ParameterTable) : List Parameter :=
  t.entries.filter (·.name.isSome)

/-- The entries without names. -/
def literals (t : ParameterTable) : List Parameter :=
  t.entries.filter (·.name.isNone)

/-- The table with its named entries in front. -/
def namedFirst (t : ParameterTable) : ParameterTable :=
  ofEntries (t.named ++ t.literals)

theorem name_of_mem_literals {t : ParameterTable} {entry : Parameter} (h : entry ∈ t.literals) :
    entry.name = none :=
  Option.isNone_iff_eq_none.mp (List.mem_filter.mp h).2

theorem mem_named {t : ParameterTable} {entry : Parameter} {name : String}
    (h : entry ∈ t.entries) (hname : entry.name = some name) : entry ∈ t.named :=
  List.mem_filter.mpr ⟨h, by rw [hname]; rfl⟩

theorem mem_of_get? {t : ParameterTable} {index : Nat} {entry : Parameter}
    (h : t.get? index = some entry) : entry ∈ t.entries :=
  List.mem_of_getElem? h

/-- A name denotes one entry only. -/
theorem IsRegular.eq_of_name {t : ParameterTable} (h : t.IsRegular) {a b : Parameter}
    {name : String} (ha : a ∈ t.entries) (hb : b ∈ t.entries) (hname : a.name = some name)
    (hname' : b.name = some name) : a = b := by
  have hforward : t.entries.Pairwise fun a b =>
      ∀ name, a.name = some name → b.name = some name → a = b :=
    h.distinct.imp fun hab name ha hb => absurd hb (hab name ha)
  have hbackward : t.entries.Pairwise fun a b =>
      ∀ name, b.name = some name → a.name = some name → b = a :=
    h.distinct.imp fun hab name hb ha => absurd hb (hab name ha)
  exact List.Pairwise.forall_of_forall_of_flip (fun _ _ _ _ _ => rfl) hforward hbackward ha hb
    name hname hname'

/-! ## Beginnings of a table -/

/-- The table is the beginning of one that has become `t` when values were set. -/
def GrowsInto (s t : ParameterTable) : Prop :=
  ∃ u : ParameterTable, u.Extends s ∧ u.Retuned t

theorem GrowsInto.of_extends {r s t : ParameterTable} (h : s.GrowsInto t) (hmore : s.Extends r) :
    r.GrowsInto t := by
  obtain ⟨u, hu, htuned⟩ := h
  exact ⟨u, hmore.trans hu, htuned⟩

theorem GrowsInto.get? {s t : ParameterTable} (h : s.GrowsInto t) {index : Nat} {entry : Parameter}
    (hentry : s.get? index = some entry) :
    ∃ entry', t.get? index = some entry' ∧ entry.Retuned entry' := by
  obtain ⟨u, hu, htuned⟩ := h
  rcases getElem?_of_forall₂ htuned.entries index with ⟨hnone, -⟩ | ⟨a, b, ha, hb, hab⟩
  · have hfound := hu.get? hentry
    rw [ParameterTable.get?, hnone] at hfound
    cases hfound
  · have hfound := hu.get? hentry
    rw [ParameterTable.get?, ha, Option.some.injEq] at hfound
    exact ⟨b, hb, hfound ▸ hab⟩

/-- Only the values of named entries can be set. -/
theorem Retuned.literals {s t : ParameterTable} (h : s.Retuned t)
    (hregular : ∀ entry ∈ t.entries, entry.IsRegular) : t.literals = s.literals := by
  have hentries := h.entries
  unfold ParameterTable.literals
  generalize s.entries = as at hentries ⊢
  generalize t.entries = bs at hentries hregular ⊢
  induction hentries with
  | nil => rfl
  | @cons a b as bs hab _ ih =>
    rw [List.forall_mem_cons] at hregular
    rw [List.filter_cons, List.filter_cons, hab.name, ih hregular.2]
    by_cases hnone : a.name.isNone = true
    · have hb : b.name = none := by rw [hab.name, Option.isNone_iff_eq_none.mp hnone]
      -- an entry without a name is a literal, whose value stays
      have hkind : a.kind ≠ .declared := by
        rw [← hab.kind, hregular.1.kind_eq hb]
        decide
      have hsame : b = a := by
        obtain ⟨name, kind, value⟩ := a
        obtain ⟨name', kind', value'⟩ := b
        obtain ⟨hname, hkind', hvalue⟩ := hab
        have hvalue := hvalue hkind
        dsimp only at hname hkind' hvalue
        rw [hname, hkind', hvalue]
      rw [if_pos hnone, if_pos hnone, hsame]
    · rw [if_neg hnone, if_neg hnone]

/-- The literals of a beginning are the first literals. -/
theorem GrowsInto.literals {s t : ParameterTable} (h : s.GrowsInto t) (hregular : t.IsRegular) :
    s.literals <+: t.literals := by
  obtain ⟨u, hu, htuned⟩ := h
  rw [htuned.literals hregular.entry]
  exact List.IsPrefix.filter _ hu

theorem GrowsInto.regular {s t : ParameterTable} (h : s.GrowsInto t) (hregular : t.IsRegular) :
    ∀ entry ∈ s.entries, entry.IsRegular := by
  intro entry hentry
  obtain ⟨index, hindex⟩ := List.mem_iff_getElem?.mp hentry
  obtain ⟨entry', hentry', htuned⟩ := h.get? hindex
  have hown := hregular.entry entry' (mem_of_get? hentry')
  unfold Parameter.IsRegular at *
  rwa [htuned.name, htuned.kind] at hown

/-! ## Reading from the table of a printed program -/

/-- A name denotes the same entry if the named entries stand in front of literals. -/
theorem lookup?_named {t u : ParameterTable} {more : List Parameter} {entry : Parameter}
    {name : String} (hregular : t.IsRegular) (hstep : u.InStep)
    (hu : u.entries = t.named ++ more)
    (hmore : ∀ literal ∈ more, literal.name = none) (hentry : entry ∈ t.entries)
    (hname : entry.name = some name) :
    ∃ index, u.lookup? name = some index ∧ u.get? index = some entry := by
  cases hfound : u.lookup? name with
  | none =>
    have hmem : entry ∈ u.entries := by
      rw [hu]
      exact List.mem_append_left _ (mem_named hentry hname)
    exact absurd hname ((lookup?_eq_none hstep).mp hfound entry hmem)
  | some index =>
    obtain ⟨found, hget, hfoundName⟩ := get?_of_lookup? hstep hfound
    have hmem := mem_of_get? hget
    rw [hu, List.mem_append] at hmem
    -- the last entry with the name is the only one
    rcases hmem with hmem | hmem
    · have hsame := hregular.eq_of_name (List.mem_filter.mp hmem).1 hentry hfoundName hname
      exact ⟨index, rfl, hsame ▸ hget⟩
    · rw [hmore found hmem] at hfoundName
      cases hfoundName

/-- A literal is added behind the entries, unless it is there. -/
theorem addLiteral_cases (t : ParameterTable) (v : Vec4) :
    ((∃ entry ∈ t.entries, entry.kind = .literal ∧ entry.value = v) ∧ (t.addLiteral v).2 = t) ∨
      ((∀ entry ∈ t.entries, ¬(entry.kind = .literal ∧ entry.value = v)) ∧
        (t.addLiteral v).2 = { t with entries := t.entries ++ [⟨none, .literal, v⟩] }) := by
  unfold addLiteral
  cases hfound : t.entries.findIdx? fun entry => entry.kind = .literal && entry.value = v with
  | some index =>
    obtain ⟨hindex, hentry, -⟩ := List.findIdx?_eq_some_iff_getElem.mp hfound
    rw [Bool.and_eq_true, decide_eq_true_eq, decide_eq_true_eq] at hentry
    exact .inl ⟨⟨_, List.getElem_mem hindex, hentry⟩, rfl⟩
  | none =>
    refine .inr ⟨fun entry hentry => ?_, rfl⟩
    have hother := List.findIdx?_eq_none_iff.mp hfound entry hentry
    rw [Bool.and_eq_false_iff, decide_eq_false_iff_not, decide_eq_false_iff_not] at hother
    tauto

/-- Literals are added to the literals of both tables, or to none. -/
theorem addLiteral_mirror {s t u : ParameterTable} {v : Vec4}
    (hs : ∀ entry ∈ s.entries, entry.IsRegular) (ht : ∀ entry ∈ t.entries, entry.IsRegular)
    (hu : u.entries = t.named ++ s.literals) :
    (u.addLiteral v).2.entries = t.named ++ (s.addLiteral v).2.literals := by
  -- the entries of both tables that are literals are the same
  have hmem : ∀ entry : Parameter, entry.kind = .literal →
      (entry ∈ u.entries ↔ entry ∈ s.entries) := by
    intro entry hkind
    have hnamed : entry ∉ t.named := by
      intro hnamed
      obtain ⟨hentry, hname⟩ := List.mem_filter.mp hnamed
      rcases ht entry hentry with ⟨hnone, -⟩ | ⟨name, -, -, -, hother⟩
      · rw [hnone] at hname
        cases hname
      · exact hother hkind
    rw [hu, List.mem_append, or_iff_right hnamed, ParameterTable.literals, List.mem_filter]
    refine ⟨And.left, fun hentry => ⟨hentry, ?_⟩⟩
    rcases hs entry hentry with ⟨hnone, -⟩ | ⟨name, -, -, -, hother⟩
    · rw [hnone]
      rfl
    · exact absurd hkind hother
  -- so the search for an equal literal has the same result in both
  rcases addLiteral_cases s v with ⟨⟨entry, hentry, hkind, hvalue⟩, hsame⟩ | ⟨hother, hadded⟩
  · have hin := (hmem entry hkind).mpr hentry
    rcases addLiteral_cases u v with ⟨-, hsame'⟩ | ⟨hother', -⟩
    · rw [hsame, hsame', hu]
    · exact absurd ⟨hkind, hvalue⟩ (hother' entry hin)
  · rcases addLiteral_cases u v with ⟨⟨entry, hentry, hkind, hvalue⟩, -⟩ | ⟨-, hadded'⟩
    · exact absurd ⟨hkind, hvalue⟩ (hother entry ((hmem entry hkind).mp hentry))
    · rw [hadded, hadded', hu, ParameterTable.literals, ParameterTable.literals,
        List.filter_append, List.append_assoc]
      rfl

end ParameterTable

/-! ## Assembled tables -/

namespace Inventory

variable {i j : Inventory}

theorem isRegular_of_defines (h : i.Defines j) (hi : i.parameters.IsRegular) :
    j.parameters.IsRegular := by
  cases h with
  | @named name kind v hname hfree hnew hkind =>
    have hothers := (ParameterTable.lookup?_eq_none hi.inStep).mp hnew
    refine ⟨fun entry hentry => ?_, ?_, hi.inStep.addNamed name kind v⟩
    · rcases List.mem_append.mp hentry with hentry | hlast
      · exact hi.entry entry hentry
      · rw [List.mem_singleton] at hlast
        subst hlast
        exact .inr ⟨name, rfl, hname, hfree, hkind⟩
    · refine List.pairwise_append.mpr ⟨hi.distinct, List.pairwise_singleton _ _, ?_⟩
      intro a ha b hb other hother
      rw [List.mem_singleton] at hb
      subst hb
      rintro ⟨rfl⟩
      exact hothers a ha hother

theorem isRegular_of_reads {r : Readable} (h : i.Reads r j) (hi : i.parameters.IsRegular) :
    j.parameters.IsRegular := by
  cases h with
  | temporary => exact hi
  | input => exact hi
  | localParameter => exact hi
  | named => exact hi
  | literal v =>
    have hstep := hi.inStep.addLiteral v
    dsimp only
    -- a literal that is in the table is shared
    rcases ParameterTable.addLiteral_cases i.parameters v with ⟨-, hsame⟩ | ⟨-, hadded⟩
    · rw [hsame]
      exact hi
    · rw [hadded] at hstep ⊢
      refine ⟨fun entry hentry => ?_, ?_, hstep⟩
      · rcases List.mem_append.mp hentry with hentry | hlast
        · exact hi.entry entry hentry
        · rw [List.mem_singleton] at hlast
          subst hlast
          exact .inl ⟨rfl, rfl⟩
      · -- a literal has no name that could be given twice
        refine List.pairwise_append.mpr ⟨hi.distinct, List.pairwise_singleton _ _, ?_⟩
        intro a _ b hb name _
        rw [List.mem_singleton] at hb
        subst hb
        simp

theorem Enters.isRegular {ins : Instruction} (h : i.Enters ins j) (hi : i.parameters.IsRegular) :
    j.parameters.IsRegular := by
  obtain ⟨written, read, sampled⟩ := h
  rw [sampled.keeps (f := Inventory.parameters) Samples.parameters]
  apply read.preserves (P := (·.parameters.IsRegular)) fun hread => isRegular_of_reads hread.2
  rw [written.keeps (f := Inventory.parameters) fun hwrites => hwrites.2.parameters]
  exact hi

end Inventory

theorem Assembles.isRegular {i j : Inventory} {body : List Instruction} (h : Assembles i body j)
    (hi : i.parameters.IsRegular) : j.parameters.IsRegular :=
  h.preserves (P := (·.parameters.IsRegular)) Inventory.isRegular_of_defines
    Inventory.Enters.isRegular hi

theorem ParameterTable.IsRegular.retuned {s t : ParameterTable} (h : s.IsRegular)
    (hst : s.Retuned t) : t.IsRegular := by
  refine ⟨fun b hb => ?_, ?_, hst.inStep h.inStep⟩
  · obtain ⟨a, ha, hab⟩ := exists_of_forall₂ hst.entries.flip hb
    have hown := h.entry a ha
    unfold Parameter.IsRegular at *
    rwa [hab.name, hab.kind]
  · have hdistinct := h.distinct
    have hentries := hst.entries
    generalize s.entries = as at hdistinct hentries
    generalize t.entries = bs at hentries ⊢
    induction hentries with
    | nil => exact .nil
    | cons hab hrest ih =>
      rw [List.pairwise_cons] at hdistinct ⊢
      refine ⟨fun b hb name hname => ?_, ih hdistinct.2⟩
      obtain ⟨a', ha', hab'⟩ := exists_of_forall₂ hrest.flip hb
      rw [hab.name] at hname
      rw [hab'.name]
      exact hdistinct.1 a' ha' name hname

end FragmentAssembly

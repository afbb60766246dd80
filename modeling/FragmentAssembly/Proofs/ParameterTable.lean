import FragmentAssembly.ParameterTable
import Mathlib.Data.List.Induction

/-!
# Entries of parameter tables

Entries are only added at the end, so an index that was given out once denotes the same entry in
every later table.  The map of the names keeps in step with the entries: whatever is entered or
set, a name is found at the last entry that has it.
-/

namespace FragmentAssembly

/-! ## Maps of names -/

namespace NameMap

theorem find?_insert (m : NameMap) (name : String) (index : Nat) (other : String) :
    (m.insert name index).find? other = if other = name then some index else m.find? other := by
  have hkept : ((m.pairs.filter fun pair => pair.1 ≠ name).find? fun pair => pair.1 = other) =
      if other = name then none else m.pairs.find? fun pair => pair.1 = other := by
    induction m.pairs with
    | nil => simp
    | cons pair pairs ih => grind
  rw [insert, find?, List.find?_append, hkept]
  by_cases hsame : other = name
  · rw [if_pos hsame, if_pos hsame, hsame]
    simp
  · have hlast : ¬name = other := fun h => hsame h.symm
    rw [if_neg hsame, if_neg hsame]
    simp [find?, hlast]

/-- The map of a list of names, some of which may be missing: each of them is entered with its
place, and a later one takes the place of an earlier one. -/
def ofNames (names : List (Option String)) : NameMap :=
  names.zipIdx.foldl (fun m (name?, index) =>
    match name? with
    | some name => m.insert name index
    | none => m) {}

theorem ofNames_concat_some (names : List (Option String)) (name : String) :
    ofNames (names ++ [some name]) = (ofNames names).insert name names.length := by
  simp [ofNames, List.zipIdx_append]

theorem ofNames_concat_none (names : List (Option String)) :
    ofNames (names ++ [none]) = ofNames names := by
  simp [ofNames, List.zipIdx_append]

theorem getElem?_of_find?_ofNames {names : List (Option String)} {name : String} {index : Nat}
    (h : (ofNames names).find? name = some index) : names[index]? = some (some name) := by
  induction names using List.reverseRecOn with
  | nil => cases h
  | append_singleton names last ih =>
    have hold : (ofNames names).find? name = some index →
        (names ++ [last])[index]? = some (some name) := by
      intro hfound
      have hplace := ih hfound
      rw [List.getElem?_append_left (List.getElem?_eq_some_iff.mp hplace).1]
      exact hplace
    cases last with
    | none => exact hold (ofNames_concat_none names ▸ h)
    | some other =>
      rw [ofNames_concat_some, find?_insert] at h
      split at h
      · rename_i hsame
        cases h
        rw [hsame, List.getElem?_concat_length]
      · exact hold h

theorem find?_ofNames_eq_none {names : List (Option String)} {name : String} :
    (ofNames names).find? name = none ↔ some name ∉ names := by
  induction names using List.reverseRecOn with
  | nil => exact iff_of_true rfl List.not_mem_nil
  | append_singleton names last ih =>
    rw [List.mem_append, List.mem_singleton, not_or]
    cases last with
    | none =>
      rw [ofNames_concat_none, ih]
      simp
    | some other =>
      rw [ofNames_concat_some, find?_insert]
      split
      · simp [*]
      · rw [ih]
        simp [*]

end NameMap

namespace ParameterTable

/-! ## Tables in step -/

/-- The map says of every name where it stands among the entries. -/
def InStep (t : ParameterTable) : Prop :=
  t.names = .ofNames (t.entries.map Parameter.name)

/-- The table with the given entries. -/
def ofEntries (entries : List Parameter) : ParameterTable :=
  ⟨entries, .ofNames (entries.map Parameter.name)⟩

theorem inStep_ofEntries (entries : List Parameter) : (ofEntries entries).InStep :=
  rfl

theorem InStep.eq_ofEntries {t : ParameterTable} (h : t.InStep) : t = ofEntries t.entries :=
  congrArg (ParameterTable.mk t.entries) h

theorem inStep_empty : InStep {} :=
  rfl

theorem InStep.addNamed {t : ParameterTable} (h : t.InStep) (name : String) (kind : ParameterKind)
    (v : Vec4) : (t.addNamed name kind v).2.InStep := by
  show t.names.insert name t.entries.length = _
  rw [h]
  simp [ParameterTable.addNamed, NameMap.ofNames_concat_some]

theorem addNamed_ofEntries (entries : List Parameter) (name : String) (kind : ParameterKind)
    (v : Vec4) : ((ofEntries entries).addNamed name kind v).2 =
      ofEntries (entries ++ [⟨some name, kind, v⟩]) :=
  ((inStep_ofEntries entries).addNamed name kind v).eq_ofEntries

theorem InStep.addLiteral {t : ParameterTable} (h : t.InStep) (v : Vec4) :
    (t.addLiteral v).2.InStep := by
  unfold ParameterTable.addLiteral
  split
  · exact h
  · show t.names = _
    rw [h]
    simp [NameMap.ofNames_concat_none]

/-- What keeps the names of the entries keeps the table in step. -/
theorem InStep.of_names {s t : ParameterTable} (h : s.InStep) (hmap : t.names = s.names)
    (hnames : t.entries.map Parameter.name = s.entries.map Parameter.name) : t.InStep := by
  rw [InStep, hmap, hnames]
  exact h

theorem InStep.setValue {t : ParameterTable} (h : t.InStep) (index : Nat) (v : Vec4) :
    (t.setValue index v).InStep := by
  refine h.of_names rfl ?_
  unfold ParameterTable.setValue
  apply List.ext_getElem?
  intro i
  simp only [List.getElem?_map, List.getElem?_modify]
  cases t.entries[i]? with
  | none => rfl
  | some entry => by_cases hi : index = i <;> simp [hi]

/-! ## Names -/

/-- The entry that a name denotes has this name. -/
theorem get?_of_lookup? {t : ParameterTable} (hstep : t.InStep) {name : String} {index : Nat}
    (h : t.lookup? name = some index) :
    ∃ entry, t.get? index = some entry ∧ entry.name = some name := by
  rw [lookup?, hstep] at h
  have hplace := NameMap.getElem?_of_find?_ofNames h
  rwa [List.getElem?_map, Option.map_eq_some_iff] at hplace

theorem lookup?_eq_none {t : ParameterTable} (hstep : t.InStep) {name : String} :
    t.lookup? name = none ↔ ∀ entry ∈ t.entries, entry.name ≠ some name := by
  rw [lookup?, hstep, NameMap.find?_ofNames_eq_none, List.mem_map]
  simp only [not_exists, not_and, ne_eq]

/-- A new name denotes its entry, and the others denote what they did. -/
theorem lookup?_addNamed (t : ParameterTable) (name : String) (kind : ParameterKind) (v : Vec4)
    (other : String) : (t.addNamed name kind v).2.lookup? other =
      if other = name then some t.size else t.lookup? other :=
  NameMap.find?_insert t.names name t.size other

/-- Literals have no names. -/
theorem lookup?_addLiteral (t : ParameterTable) (v : Vec4) (name : String) :
    (t.addLiteral v).2.lookup? name = t.lookup? name := by
  unfold addLiteral
  split <;> rfl

/-! ## Literals -/

/-- The entry of a literal has its bits. -/
theorem get?_addLiteral (t : ParameterTable) (v : Vec4) :
    ∃ entry, (t.addLiteral v).2.get? (t.addLiteral v).1 = some entry ∧ entry.kind = .literal ∧
      entry.value = v := by
  unfold addLiteral
  cases hfound : t.entries.findIdx? fun entry => entry.kind = .literal && entry.value = v with
  | some index =>
    obtain ⟨hindex, hentry, -⟩ := List.findIdx?_eq_some_iff_getElem.mp hfound
    rw [Bool.and_eq_true, decide_eq_true_eq, decide_eq_true_eq] at hentry
    exact ⟨t.entries[index], List.getElem?_eq_getElem hindex, hentry⟩
  | none =>
    refine ⟨⟨none, .literal, v⟩, ?_, rfl, rfl⟩
    simp only [get?, size, List.getElem?_concat_length]

/-! ## Growth -/

/-- A later table begins with the entries of an earlier one. -/
def Extends (t s : ParameterTable) : Prop :=
  s.entries <+: t.entries

theorem Extends.refl (t : ParameterTable) : t.Extends t :=
  List.prefix_refl _

theorem Extends.trans {s t u : ParameterTable} (hts : t.Extends s) (hut : u.Extends t) :
    u.Extends s :=
  List.IsPrefix.trans hts hut

theorem extends_addNamed (t : ParameterTable) (name : String) (kind : ParameterKind) (v : Vec4) :
    (t.addNamed name kind v).2.Extends t :=
  List.prefix_append _ _

theorem extends_addLiteral (t : ParameterTable) (v : Vec4) : (t.addLiteral v).2.Extends t := by
  unfold addLiteral
  split
  · exact .refl t
  · exact List.prefix_append _ _

theorem Extends.get? {s t : ParameterTable} {index : Nat} {entry : Parameter} (h : t.Extends s)
    (hentry : s.get? index = some entry) : t.get? index = some entry := by
  obtain ⟨more, hmore⟩ := h
  obtain ⟨hindex, -⟩ := List.getElem?_eq_some_iff.mp hentry
  rw [ParameterTable.get?, ← hmore, List.getElem?_append_left hindex]
  exact hentry

end ParameterTable

end FragmentAssembly

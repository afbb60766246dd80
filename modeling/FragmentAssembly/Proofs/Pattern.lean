import FragmentAssembly.Instruction.Pattern

/-!
# The table of patterns

Names are tried from the longest to the shortest.  No name begins another one, so a mnemonic is read
by the only name of the table that it begins with, and the order makes no difference.
-/

namespace FragmentAssembly

namespace Pattern

/-! ## The order of the names -/

/-- Whether no name comes behind a shorter one. -/
def Descends (patterns : List Pattern) : Prop :=
  patterns.Pairwise fun p q => q.name.length ≤ p.name.length

theorem perm_enter (p : Pattern) (patterns : List Pattern) :
    (enter p patterns).Perm (p :: patterns) := by
  induction patterns with
  | nil => exact .refl _
  | cons q patterns ih =>
    rw [enter]
    split
    · exact .refl _
    · exact (ih.cons q).trans (.swap p q patterns)

theorem Descends.enter {patterns : List Pattern} (h : Descends patterns) (p : Pattern) :
    Descends (enter p patterns) := by
  induction patterns with
  | nil => exact List.pairwise_singleton _ p
  | cons q patterns ih =>
    obtain ⟨hq, hrest⟩ := List.pairwise_cons.mp h
    rw [Pattern.enter]
    split
    · rename_i hle
      refine .cons (fun r hr => ?_) h
      rcases List.mem_cons.mp hr with rfl | hr
      · exact hle
      · exact Nat.le_trans (hq r hr) hle
    · rename_i hlt
      refine .cons (fun r hr => ?_) (ih hrest)
      rcases List.mem_cons.mp ((perm_enter p patterns).mem_iff.mp hr) with rfl | hr
      · exact Nat.le_of_not_le hlt
      · exact hq r hr

/-- A pattern stays in front of those whose names are as long. -/
theorem filter_enter (p : Pattern) (patterns : List Pattern) (n : Nat) :
    (enter p patterns).filter (·.name.length = n) =
      (p :: patterns).filter (·.name.length = n) := by
  induction patterns with
  | nil => rfl
  | cons q patterns ih =>
    rw [enter]
    split
    · rfl
    · rename_i hlt
      rw [List.filter_cons, ih, List.filter_cons, List.filter_cons, List.filter_cons]
      -- not both names have this length
      by_cases hp : p.name.length = n
      · have hq : q.name.length ≠ n := by omega
        simp only [hp, hq, decide_true, decide_false, if_true, Bool.false_eq_true, if_false]
      · simp only [hp, decide_false, Bool.false_eq_true, if_false]

section Sorting

variable (patterns : List Pattern)

theorem perm_foldr_enter : (patterns.foldr enter []).Perm patterns := by
  induction patterns with
  | nil => exact .refl _
  | cons p patterns ih => exact (perm_enter p _).trans (ih.cons p)

theorem descends_foldr_enter : Descends (patterns.foldr enter []) := by
  induction patterns with
  | nil => exact .nil
  | cons p patterns ih => exact ih.enter p

theorem filter_foldr_enter (n : Nat) : (patterns.foldr enter []).filter (·.name.length = n) =
    patterns.filter (·.name.length = n) := by
  induction patterns with
  | nil => rfl
  | cons p patterns ih =>
    rw [List.foldr_cons, filter_enter, List.filter_cons, ih, List.filter_cons]

end Sorting

/-- Names are tried from the longest to the shortest, and those of one length in the order of the
table. -/
theorem longestFirst_sorted : Descends longestFirst ∧ ∀ n : Nat,
    longestFirst.filter (·.name.length = n) = table.filter (·.name.length = n) :=
  ⟨descends_foldr_enter table, filter_foldr_enter table⟩

theorem mem_longestFirst {p : Pattern} : p ∈ longestFirst ↔ p ∈ table :=
  (perm_foldr_enter table).mem_iff

/-! ## Names and mnemonics -/

/-- A mnemonic is written with the name that it is read by. -/
theorem name_eq_mnemonic : ∀ pattern ∈ table, pattern.name = pattern.opcode.mnemonic := by
  decide

/-- No name of the table begins another one. -/
theorem eq_of_name_begins : ∀ a ∈ table, ∀ b ∈ table, a.name.toList <+: b.name.toList → a = b := by
  decide +kernel

/-- A mnemonic is read as the only name that it begins with. -/
theorem ofMnemonic?_append {pattern : Pattern} (hlisted : pattern ∈ table) {mnemonic : String}
    {rest : List Char} (htext : mnemonic.toList = pattern.name.toList ++ rest) :
    ofMnemonic? mnemonic = some (pattern, rest) := by
  have hbegins : pattern.name.toList <+: mnemonic.toList := ⟨rest, htext.symm⟩
  have hfound : longestFirst.find? (fun p => p.name.toList.isPrefixOf mnemonic.toList) =
      some pattern := by
    cases hfind : longestFirst.find? fun p => p.name.toList.isPrefixOf mnemonic.toList with
    | none =>
      have hnot := List.find?_eq_none.mp hfind pattern (mem_longestFirst.mpr hlisted)
      exact absurd (List.isPrefixOf_iff_prefix.mpr hbegins) hnot
    | some found =>
      have hprefix := List.find?_some hfind
      have hother := List.isPrefixOf_iff_prefix.mp hprefix
      have hmem := mem_longestFirst.mp (List.mem_of_find?_eq_some hfind)
      -- of two beginnings of the mnemonic one begins the other
      rcases List.prefix_or_prefix_of_prefix hother hbegins with h | h
      · rw [eq_of_name_begins found hmem pattern hlisted h]
      · rw [eq_of_name_begins pattern hlisted found hmem h]
  have hrest : mnemonic.toList.drop pattern.name.length = rest := by
    rw [htext, ← String.length_toList, List.drop_left]
  unfold ofMnemonic?
  simp only [hfound, hrest, Option.bind_eq_bind, Option.bind_some, Option.pure_def]

end Pattern

end FragmentAssembly

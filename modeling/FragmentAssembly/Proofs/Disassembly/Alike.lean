import FragmentAssembly.Proofs.Disassembly.Table

/-!
# Texts of programs that are alike

Programs have the same text if their instructions are alike and the named entries of their tables
are the same, whatever stands between these.
-/

namespace FragmentAssembly

/-! ## Instructions -/

section Texts

variable {p r : Program}

theorem Readable.Alike.registerText_eq {a b : Readable}
    (h : a.Alike p.parameters r.parameters b) : r.registerText b = p.registerText a := by
  rcases h.cases with ⟨rfl, hregister⟩ | ⟨i, j, entry, rfl, rfl, hi, hj⟩
  · cases a with
    | temporary i => rfl
    | input i => rfl
    | localParameter i => rfl
    | parameter i => exact absurd rfl (hregister i)
  · rw [Program.registerText, Program.registerText, ParameterTable.operandText,
      ParameterTable.operandText, hi, hj]
    obtain ⟨name, kind, value⟩ := entry
    cases name <;> rfl

theorem Source.Alike.sourceText_eq {a b : Source} (h : a.Alike p.parameters r.parameters b) :
    r.sourceText b = p.sourceText a := by
  rw [Program.sourceText, Program.sourceText, h.register.registerText_eq, h.swizzle, h.negateBase,
    h.absolute, h.negateAbsolute]

theorem Instruction.Alike.instructionText_eq {a b : Instruction}
    (h : a.Alike p.parameters r.parameters b) : r.instructionText b = p.instructionText a := by
  have hmnemonic : b.mnemonic = a.mnemonic := by
    rw [Instruction.mnemonic, Instruction.mnemonic, h.opcode, h.precision, h.updateCodes,
      h.saturate]
  have hdestination : Program.destinationText b = Program.destinationText a := by
    rw [Program.destinationText, Program.destinationText, h.destination, h.condition]
  have htexture : Program.textureText b = Program.textureText a := by
    rw [Program.textureText, Program.textureText, h.texture]
  have hsources : r.sourcesText b = p.sourcesText a := by
    have hsources := h.sources
    rw [Program.sourcesText, Program.sourcesText, h.destination]
    generalize a.sources = as, b.sources = bs at hsources
    cases hsources with
    | nil => rfl
    | cons head tail =>
      dsimp only
      rw [map_eq_of_forall₂ (.cons head tail) fun _ _ => Source.Alike.sourceText_eq]
  rw [Program.instructionText, Program.instructionText, hmnemonic, hdestination, h.opcode,
    h.condition, hsources, htexture]

end Texts

/-! ## Definitions -/

namespace ParameterTable

/-- Only entries with names have statements. -/
theorem filterMap_statement? (t : ParameterTable) :
    t.entries.filterMap Parameter.statement? = t.named.filterMap Parameter.statement? := by
  rw [named, List.filterMap_filter]
  congr 1
  funext ⟨name, kind, value⟩
  cases name with
  | some name => rfl
  | none => cases kind <;> rfl

theorem named_namedFirst (t : ParameterTable) : t.namedFirst.named = t.named := by
  unfold namedFirst named literals ofEntries
  rw [List.filter_append, List.filter_filter, List.filter_filter]
  -- no literal has a name
  have hnone : t.entries.filter (fun entry => entry.name.isSome && entry.name.isNone) = [] := by
    refine List.filter_eq_nil_iff.mpr fun entry _ => ?_
    rw [← Option.not_isSome, Bool.and_not_self]
    exact Bool.false_ne_true
  rw [hnone, List.append_nil]
  simp only [Bool.and_self]

/-- Nothing moves if the named entries stand in front of the literals. -/
theorem namedFirst_eq {t : ParameterTable} (hstep : t.InStep)
    (h : t.entries.Pairwise fun a b => a.name = none → b.name = none) : t.namedFirst = t := by
  have hentries : t.named ++ t.literals = t.entries := by
    unfold named literals
    generalize t.entries = entries at h ⊢
    induction h with
    | nil => rfl
    | @cons a as hfirst _ ih =>
      by_cases hname : a.name = none
      · have hnone : a.name.isNone = true := Option.isNone_iff_eq_none.mpr hname
        have hsome : ¬a.name.isSome = true := Option.not_isSome_iff_eq_none.mpr hname
        -- behind the first literal there are literals only
        have hrest : ∀ b ∈ as, b.name = none := fun b hb => hfirst b hb hname
        have hnamed : as.filter (·.name.isSome) = [] :=
          List.filter_eq_nil_iff.mpr fun b hb => Option.not_isSome_iff_eq_none.mpr (hrest b hb)
        have hliterals : as.filter (·.name.isNone) = as :=
          List.filter_eq_self.mpr fun b hb => Option.isNone_iff_eq_none.mpr (hrest b hb)
        rw [List.filter_cons, List.filter_cons, if_neg hsome, if_pos hnone, hnamed, hliterals,
          List.nil_append]
      · have hsome : a.name.isSome = true := Option.isSome_iff_ne_none.mpr hname
        have hnone : ¬a.name.isNone = true := by
          rwa [Option.isNone_iff_eq_none]
        rw [List.filter_cons, List.filter_cons, if_pos hsome, if_neg hnone, List.cons_append, ih]
  rw [namedFirst, hentries]
  exact hstep.eq_ofEntries.symm

end ParameterTable

theorem Program.disassembly_eq {p r : Program}
    (hparameters : r.parameters = p.parameters.namedFirst)
    (hbody : List.Forall₂ (Instruction.Alike p.parameters r.parameters) p.body r.body) :
    r.disassembly = p.disassembly := by
  have hlines : (r.body.map fun ins => r.instructionText ins ++ "\n") =
      p.body.map fun ins => p.instructionText ins ++ "\n" :=
    map_eq_of_forall₂ hbody fun a b h => by rw [h.instructionText_eq]
  rw [disassembly, disassembly, hlines, ParameterTable.filterMap_statement?,
    ParameterTable.filterMap_statement? p.parameters, hparameters,
    ParameterTable.named_namedFirst]

end FragmentAssembly

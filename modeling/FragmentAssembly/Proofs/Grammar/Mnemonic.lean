import FragmentAssembly.Proofs.Grammar.Spelling
import FragmentAssembly.Proofs.Program.WellFormed

/-!
# The mnemonic language

A mnemonic is the name of a pattern followed by suffixes that the pattern allows.  No name of the
table begins another one, and the letters of the suffixes determine these, so the first name that
a mnemonic is found to begin with is the only one that can be meant.
-/

namespace FragmentAssembly

/-! ## Spelling -/

namespace Pattern

/-- The mnemonic begins with a name of the table. -/
def Begins (mnemonic : String) : Prop :=
  ∃ pattern ∈ table, pattern.name.toList <+: mnemonic.toList

variable {p q : Pattern} {s t : Suffixes} {mnemonic : String}

theorem ofMnemonic?_eq_none : ofMnemonic? mnemonic = none ↔ ¬Begins mnemonic := by
  constructor
  · rintro h ⟨p, hp, rest, hrest⟩
    rw [ofMnemonic?_append hp hrest.symm] at h
    cases h
  · intro h
    rw [Option.eq_none_iff_forall_ne_some]
    rintro ⟨p, rest⟩ hfound
    exact h ⟨p, Compile.mem_table_of_ofMnemonic? hfound, rest, (toList_of_ofMnemonic? hfound).symm⟩

/-- A mnemonic is spelt by one pattern with one choice of suffixes. -/
theorem Spells.unique (hp : p.Spells s mnemonic) (hq : q.Spells t mnemonic) : p = q ∧ s = t := by
  have hread := hp.readMnemonic
  rw [hq.readMnemonic, Except.ok.injEq, Prod.mk.injEq] at hread
  exact ⟨hread.1.symm, hread.2.symm⟩

end Pattern

/-! ## Reading -/

section Reading

variable {mnemonic : String}

theorem readMnemonic_of_not_begins (h : ¬Pattern.Begins mnemonic) : readMnemonic mnemonic =
    .error (.unknownInstruction mnemonic (Pattern.suggest? mnemonic)) := by
  rw [readMnemonic, Pattern.ofMnemonic?_eq_none.mpr h]

/-- Behind a name there can only be wrong suffixes. -/
theorem readMnemonic_of_begins (h : Pattern.Begins mnemonic)
    (hspells : ¬∃ p s, Pattern.Spells p s mnemonic) :
    readMnemonic mnemonic = .error .invalidSuffix := by
  cases hread : readMnemonic mnemonic with
  | ok found => exact absurd ⟨found.1, found.2, readMnemonic_eq_ok.mp hread⟩ hspells
  | error cause =>
    unfold readMnemonic at hread
    split at hread
    · rename_i hnone
      exact absurd h (Pattern.ofMnemonic?_eq_none.mp hnone)
    · split at hread
      · exact hread.symm
      · split at hread
        · cases hread
        · exact hread.symm

theorem readMnemonic_unknown : (∃ name suggestion,
    readMnemonic mnemonic = .error (.unknownInstruction name suggestion)) ↔
      ¬Pattern.Begins mnemonic := by
  constructor
  · rintro ⟨name, suggestion, h⟩ hbegins
    by_cases hspells : ∃ p s, Pattern.Spells p s mnemonic
    · obtain ⟨p, s, hspells⟩ := hspells
      rw [hspells.readMnemonic] at h
      cases h
    · rw [readMnemonic_of_begins hbegins hspells] at h
      cases h
  · exact fun h => ⟨_, _, readMnemonic_of_not_begins h⟩

theorem readMnemonic_invalidSuffix : readMnemonic mnemonic = .error .invalidSuffix ↔
    Pattern.Begins mnemonic ∧ ¬∃ p s, Pattern.Spells p s mnemonic := by
  constructor
  · intro h
    refine ⟨by_contra fun hbegins => ?_, ?_⟩
    · rw [readMnemonic_of_not_begins hbegins] at h
      cases h
    · rintro ⟨p, s, hspells⟩
      rw [hspells.readMnemonic] at h
      cases h
  · exact fun h => readMnemonic_of_begins h.1 h.2

end Reading

/-! ## Instructions -/

/-- The instruction has the opcode of the pattern and the flags of the suffixes. -/
structure Instruction.Flagged (ins : Instruction) (pattern : Pattern) (s : Suffixes) : Prop where
  opcode : ins.opcode = pattern.opcode
  precision : ins.precision = s.precision.getD .full
  updateCodes : ins.updateCodes = s.update
  saturate : ins.saturate = s.saturate

theorem Instruction.Fits.flagged {ins : Instruction} {pattern : Pattern} (h : ins.Fits pattern) :
    ins.Flagged pattern ins.written :=
  ⟨h.opcode, ins.precision_written.symm, rfl, rfl⟩

namespace Compile

variable {d e : Draft} {ins : Instruction}

/-- The operands leave the flags as the mnemonic has set them, and the position where it starts. -/
theorem begins_of_instruction {mnemonic : String} (h : instruction mnemonic d = .ok ins e) :
    ins.position = d.cursor.tokenStart ∧
      ∃ pattern s, pattern.Spells s mnemonic ∧ ins.Flagged pattern s := by
  simp only [instruction, bind_eq_ok, get_eq_ok] at h
  obtain ⟨f, g, ⟨rfl, rfl⟩, h⟩ := h
  cases hmnemonic : readMnemonic mnemonic with
  | error cause => simp only [hmnemonic, lift_eq_ok, fail_eq_ok, false_and, exists_false] at h
  | ok found =>
    obtain ⟨pattern, s⟩ := found
    simp only [hmnemonic, bind_eq_ok, lift_eq_ok, pure_eq_ok] at h
    obtain ⟨target, f, htarget, filled, g, hfilled, _, _, ⟨k, -, rfl⟩, rfl, rfl⟩ := h
    obtain ⟨-, -, destination, guard, rfl⟩ := enters_of_destinationOf rfl htarget
    obtain ⟨-, -, -, sources, texture, condition, rfl⟩ := enters_of_operands rfl rfl hfilled
    exact ⟨rfl, pattern, s, readMnemonic_eq_ok.mp hmnemonic, rfl, rfl, rfl, rfl⟩

theorem flagged_of_instruction {mnemonic : String} (h : instruction mnemonic d = .ok ins e) :
    ∃ pattern s, pattern.Spells s mnemonic ∧ ins.Flagged pattern s :=
  (begins_of_instruction h).2

end Compile

/-- The mnemonic of a compiled instruction spells its opcode and its flags. -/
theorem spells_of_compile {source : String} {p : Program} (hp : compile source = .ok p)
    {ins : Instruction} (hins : ins ∈ p.instructions) (hended : ins.opcode ≠ .halt) :
    ∃ pattern s, pattern.Spells s ins.mnemonic ∧ ins.Flagged pattern s := by
  have hwell := wellFormed_of_compile hp
  obtain ⟨position, hbody⟩ := hwell.ended
  have hins : ins ∈ p.body := by
    rw [hbody] at hins
    rcases List.mem_append.mp hins with hins | hins
    · exact hins
    · rw [List.mem_singleton.mp hins] at hended
      exact absurd rfl hended
  obtain ⟨pattern, hlisted, hfits⟩ := (hwell.instruction ins hins).fits
  exact ⟨pattern, ins.written, hfits.spells hlisted, hfits.flagged⟩

/-- A mnemonic is read as the one pattern and the one choice of suffixes that spell it, and the
instruction behind it has their opcode and flags.  What begins with no name is unknown; behind a
name it is the suffixes that are refused.  The mnemonics of compiled instructions are read back. -/
theorem mnemonic_language :
    (∀ mnemonic : String,
      (∀ pattern s, readMnemonic mnemonic = .ok (pattern, s) ↔ pattern.Spells s mnemonic) ∧
      (∀ p s q t, Pattern.Spells p s mnemonic → Pattern.Spells q t mnemonic → p = q ∧ s = t) ∧
      ((∃ name suggestion, readMnemonic mnemonic = .error (.unknownInstruction name suggestion)) ↔
        ¬Pattern.Begins mnemonic) ∧
      (readMnemonic mnemonic = .error .invalidSuffix ↔
        Pattern.Begins mnemonic ∧ ¬∃ p s, Pattern.Spells p s mnemonic) ∧
      ∀ d e ins, Compile.instruction mnemonic d = .ok ins e →
        ∃ pattern s, pattern.Spells s mnemonic ∧ ins.Flagged pattern s) ∧
    ∀ source p, compile source = .ok p → ∀ ins ∈ p.instructions, ins.opcode ≠ .halt →
      ∃ pattern s, readMnemonic ins.mnemonic = .ok (pattern, s) ∧ ins.Flagged pattern s := by
  refine ⟨fun mnemonic => ⟨fun pattern s => readMnemonic_eq_ok, fun p s q t hp hq => hp.unique hq,
    readMnemonic_unknown, readMnemonic_invalidSuffix, fun d e ins h =>
      Compile.flagged_of_instruction h⟩, fun source p hp ins hins hended => ?_⟩
  obtain ⟨pattern, s, hspells, hflagged⟩ := spells_of_compile hp hins hended
  exact ⟨pattern, s, hspells.readMnemonic, hflagged⟩

/-- `R` is the default and is left out when the mnemonic is printed; `UP2H` ends with its name and
not with a suffix. -/
theorem mnemonic_language_short :
    readMnemonic "UP2H" = .ok (⟨"UP2H", .up2h, .scalars 1, true, .flagsOnly⟩, {}) ∧
      ∃ p, compile "!!FP1.0 ADDRC_SAT o[COLR], f[COL0], f[COL1]; END" = .ok p ∧
        ∃ ins ∈ p.instructions, ins.mnemonic = "ADDC_SAT" ∧
          ∃ pattern s, readMnemonic "ADDC_SAT" = .ok (pattern, s) ∧ ins.Flagged pattern s := by
  obtain ⟨hread, hcompiled⟩ := mnemonic_language
  refine ⟨((hread "UP2H").1 _ _).mpr ⟨by decide +kernel, rfl, rfl⟩, ?_⟩
  obtain ⟨p, hp, hmnemonics⟩ : ∃ p,
      compile "!!FP1.0 ADDRC_SAT o[COLR], f[COL0], f[COL1]; END" = .ok p ∧
        (p.instructions.map fun ins => (ins.mnemonic, ins.opcode)) =
          [("ADDC_SAT", .add), ("END", .halt)] :=
    exists_of_decide (by decide +kernel)
  obtain ⟨ins, rest, hinstructions, hins, -⟩ := List.map_eq_cons_iff.mp hmnemonics
  obtain ⟨hmnemonic, hopcode⟩ := Prod.mk.injEq .. ▸ hins
  have hmem : ins ∈ p.instructions := hinstructions ▸ List.mem_cons_self
  refine ⟨p, hp, ins, hmem, hmnemonic, ?_⟩
  rw [← hmnemonic]
  exact hcompiled _ p hp ins hmem (by rw [hopcode]; decide)

end FragmentAssembly

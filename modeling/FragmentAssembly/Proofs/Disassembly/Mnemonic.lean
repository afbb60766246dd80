import FragmentAssembly.Proofs.Disassembly.Components
import FragmentAssembly.Proofs.Pattern

/-!
# Mnemonics read back

The mnemonic of an instruction names its pattern and its suffixes.  It is read as these because no
name of the table begins another one.
-/

namespace FragmentAssembly

/-! ## Suffixes -/

/-- The suffixes that the mnemonic of an instruction is written with. -/
def Instruction.written (ins : Instruction) : Suffixes :=
  ⟨if ins.precision = .full then none else some ins.precision, ins.updateCodes, ins.saturate⟩

theorem Instruction.precision_written (ins : Instruction) :
    ins.written.precision.getD .full = ins.precision := by
  unfold Instruction.written
  cases ins.precision <;> rfl

theorem Instruction.Fits.allows {ins : Instruction} {pattern : Pattern} (h : ins.Fits pattern) :
    pattern.suffixes.allows ins.written = true := by
  obtain ⟨⟨precision, update, saturate⟩, hallows, hprecision, hupdate, hsaturate⟩ := h.suffixes
  unfold Instruction.written
  rw [hprecision, hupdate, hsaturate]
  rw [SuffixRule.allows, Bool.and_eq_true] at hallows ⊢
  refine ⟨?_, hallows.2⟩
  cases precision with
  | none => rfl
  | some precision =>
    cases precision with
    | full => rfl
    | half => exact hallows.1
    | fixed => exact hallows.1

/-- The letters of suffixes. -/
def Suffixes.chars (s : Suffixes) : List Char :=
  (match s.precision with
    | none => []
    | some .full => ['R']
    | some .half => ['H']
    | some .fixed => ['X'])
  ++ (if s.update then ['C'] else [])
  ++ (if s.saturate then ['_', 'S', 'A', 'T'] else [])

theorem Suffixes.ofChars?_chars (s : Suffixes) : Suffixes.ofChars? s.chars = some s := by
  obtain ⟨precision, update, saturate⟩ := s
  cases update <;> cases saturate <;> rcases precision with _ | _ | _ | _ <;> rfl

theorem Suffixes.all_isNameChar (s : Suffixes) : s.chars.all Token.isNameChar = true := by
  obtain ⟨precision, update, saturate⟩ := s
  cases update <;> cases saturate <;> rcases precision with _ | _ | _ | _ <;> rfl

theorem Instruction.toList_mnemonic (ins : Instruction) :
    ins.mnemonic.toList = ins.opcode.mnemonic.toList ++ ins.written.chars := by
  unfold Instruction.mnemonic Instruction.written Suffixes.chars
  cases ins.precision <;> cases ins.updateCodes <;> cases ins.saturate <;> simp

/-! ## Patterns -/

/-- The words that begin other statements than instructions. -/
def keywords : List String :=
  ["DEFINE", "DECLARE", "END"]

namespace Pattern

theorem isName_name : ∀ pattern ∈ table, IsName pattern.name := by
  decide +kernel

theorem not_prefix_keyword : ∀ pattern ∈ table, ∀ word ∈ keywords,
    ¬pattern.name.toList <+: word.toList := by
  decide +kernel

/-- What writes reads some sources, and `KIL` reads a condition instead. -/
theorem shape : ∀ pattern ∈ table,
    (pattern.writes = true ∧ pattern.opcode ≠ .kil ∧ 0 < pattern.operands.count) ∨
      (pattern.writes = false ∧ pattern.opcode = .kil ∧ pattern.operands = .condition) := by
  decide +kernel

end Pattern

/-- The mnemonic is the name of the pattern with suffixes that the pattern allows. -/
structure Pattern.Spells (pattern : Pattern) (s : Suffixes) (mnemonic : String) : Prop where
  listed : pattern ∈ table
  allows : pattern.suffixes.allows s = true
  text : mnemonic.toList = pattern.name.toList ++ s.chars

theorem Pattern.Spells.readMnemonic {pattern : Pattern} {s : Suffixes} {mnemonic : String}
    (h : pattern.Spells s mnemonic) :
    FragmentAssembly.readMnemonic mnemonic = .ok (pattern, s) := by
  unfold FragmentAssembly.readMnemonic
  rw [ofMnemonic?_append h.listed h.text]
  dsimp only
  rw [Suffixes.ofChars?_chars]
  dsimp only
  rw [if_pos h.allows]

theorem Instruction.Fits.spells {ins : Instruction} {pattern : Pattern} (h : ins.Fits pattern)
    (hlisted : pattern ∈ Pattern.table) : pattern.Spells ins.written ins.mnemonic := by
  refine ⟨hlisted, h.allows, ?_⟩
  rw [ins.toList_mnemonic, h.opcode, Pattern.name_eq_mnemonic pattern hlisted]

/-- A mnemonic is a name that is read as the pattern and the suffixes of the instruction. -/
theorem Instruction.Fits.readMnemonic {ins : Instruction} {pattern : Pattern}
    (h : ins.Fits pattern) (hlisted : pattern ∈ Pattern.table) :
    IsName ins.mnemonic ∧ ins.mnemonic ∉ keywords ∧
      readMnemonic ins.mnemonic = .ok (pattern, ins.written) := by
  have hspells := h.spells hlisted
  refine ⟨?_, fun hkeyword => ?_, hspells.readMnemonic⟩
  · obtain ⟨c, cs, hname, halpha, hcs⟩ := Pattern.isName_name pattern hlisted
    refine ⟨c, cs ++ ins.written.chars, ?_, halpha, ?_⟩
    · rw [hspells.text, hname, List.cons_append]
    · rw [List.all_append, hcs, Suffixes.all_isNameChar]
      rfl
  · exact Pattern.not_prefix_keyword pattern hlisted _ hkeyword ⟨_, hspells.text.symm⟩

end FragmentAssembly

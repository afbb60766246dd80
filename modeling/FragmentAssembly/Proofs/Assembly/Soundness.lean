import FragmentAssembly.Proofs.Assembly.Basic
import FragmentAssembly.Proofs.Outcome
import FragmentAssembly.Proofs.Pattern

/-!
# Compilation assembles

Every reading action that succeeds enters what it has read into the inventory of its draft, so a
program that was compiled is assembled from nothing.
-/

namespace FragmentAssembly

/-! ## Names -/

theorem isName_of_lead? {cs : List Char} {name : String}
    (h : Token.lead? cs = some (.identifier name)) : IsName name := by
  cases cs with
  | nil => simp only [Token.lead?, reduceCtorEq] at h
  | cons c cs =>
    simp only [Token.lead?] at h
    split at h
    · simp only [Option.some.injEq, reduceCtorEq] at h
    · split at h
      · rename_i halpha
        simp only [Option.some.injEq, Token.identifier.injEq] at h
        refine ⟨c, cs.takeWhile Token.isNameChar, ?_, halpha, ?_⟩
        · rw [← h, String.toList_ofList]
        · exact List.all_takeWhile
      · simp only [Option.some.injEq, reduceCtorEq] at h

namespace Scan

theorem token?_identifier {k l : Cursor} {name : String}
    (h : token? k = .ok (some (.identifier name)) l) : IsName name := by
  simp only [token?, onRest_eq_ok, EStateM.Result.ok.injEq] at h
  obtain ⟨hinside, hnext, -⟩ := h
  unfold Cursor.next at hnext
  dsimp only at hnext
  split at hnext
  · simp only [reduceCtorEq] at hnext
  · rename_i found
    dsimp only at hnext
    have hskipped : k.skipIgnored.markToken.inside = [] := k.skipIgnored_inside.trans hinside
    rw [hnext, Cursor.lead?_of_inside hskipped] at found
    exact isName_of_lead? found

theorem token_identifier {k l : Cursor} {name : String}
    (h : token k = .ok (.identifier name) l) : IsName name := by
  simp only [token, bind_eq_ok] at h
  obtain ⟨t?, m, htoken, h⟩ := h
  cases t? with
  | none => exact (fail_eq_ok.mp h).elim
  | some t =>
    obtain ⟨rfl, -⟩ := pure_eq_ok.mp h
    exact token?_identifier htoken

theorem isName_of_identifier {k l : Cursor} {name : String} (h : identifier k = .ok name l) :
    IsName name := by
  simp only [identifier, bind_eq_ok] at h
  obtain ⟨t, m, htoken, h⟩ := h
  cases t with
  | identifier found =>
    obtain ⟨rfl, -⟩ := pure_eq_ok.mp h
    exact token_identifier htoken
  | integer digits => exact (fail_eq_ok.mp h).elim
  | punctuation mark => exact (fail_eq_ok.mp h).elim

end Scan

/-! ## Masks -/

theorem mem_of_componentsInOrder? {allowed found : List Component} {letters : List Char}
    (h : componentsInOrder? allowed letters = some found) (hne : letters ≠ []) : found ≠ [] := by
  cases letters with
  | nil => exact absurd rfl hne
  | cons letter letters =>
    simp only [componentsInOrder?] at h
    split at h
    · simp only [reduceCtorEq] at h
    · obtain ⟨later, -, rfl⟩ := Option.map_eq_some_iff.mp h
      exact List.cons_ne_nil _ _

theorem any_of_writeMask_ofName? {letters : String} {mask : WriteMask} (hname : IsName letters)
    (h : WriteMask.ofName? letters = some mask) : mask.any id = true := by
  obtain ⟨chosen, hchosen, rfl⟩ := Option.map_eq_some_iff.mp h
  obtain ⟨c, cs, hletters, -, -⟩ := hname
  -- a name has a letter at least, so something was chosen
  have hne : chosen ≠ [] := by
    apply mem_of_componentsInOrder? hchosen
    rw [hletters]
    exact List.cons_ne_nil _ _
  obtain ⟨first, rest, rfl⟩ := List.exists_cons_of_ne_nil hne
  cases first <;> simp [Quad.any, Quad.ofFn]

theorem any_of_destinationMask {k l : Cursor} {mask : WriteMask}
    (h : Compile.destinationMask k = .ok mask l) : mask.any id = true := by
  simp only [Compile.destinationMask, bind_eq_ok] at h
  obtain ⟨dot, m, -, h⟩ := h
  cases dot with
  | false =>
    obtain ⟨rfl, -⟩ := pure_eq_ok.mp h
    rfl
  | true =>
    rw [if_pos rfl] at h
    simp only [Scan.writeMask, bind_eq_ok] at h
    obtain ⟨t, n, htoken, h⟩ := h
    cases t with
    | identifier letters =>
      cases hfound : WriteMask.ofName? letters with
      | none => simp only [hfound, fail_eq_ok] at h
      | some found =>
        simp only [hfound] at h
        obtain ⟨rfl, -⟩ := pure_eq_ok.mp h
        exact any_of_writeMask_ofName? (Scan.token_identifier htoken) hfound
    | integer digits => exact (fail_eq_ok.mp h).elim
    | punctuation mark => exact (fail_eq_ok.mp h).elim

namespace Compile

variable {d e : Draft}

/-! ## Destinations -/

theorem reads_of_inputRegister {n : InputIndex} (h : inputRegister d = .ok n e) :
    d.inventory.Reads (.input n) e.inventory := by
  simp only [inputRegister, bind_eq_ok, lift_eq_ok] at h
  obtain ⟨-, -, ⟨k, -, rfl⟩, name, -, ⟨l, -, rfl⟩, h⟩ := h
  cases hfound : registerNamed? inputNames name with
  | none => simp only [hfound, lift_eq_ok, fail_eq_ok, false_and, exists_false] at h
  | some found =>
    simp only [hfound, bind_eq_ok, lift_eq_ok, markInput, modify_eq_ok, pure_eq_ok] at h
    obtain ⟨-, -, ⟨m, -, rfl⟩, -, -, rfl, rfl, rfl⟩ := h
    exact .input _ _

theorem writes_of_outputRegister {n : OutputIndex} (h : outputRegister d = .ok n e) :
    d.inventory.Writes (.output n) e.inventory := by
  simp only [outputRegister, bind_eq_ok, lift_eq_ok] at h
  obtain ⟨-, -, ⟨k, -, rfl⟩, name, -, ⟨l, -, rfl⟩, h⟩ := h
  cases hfound : registerNamed? outputNames name with
  | none => simp only [hfound, lift_eq_ok, fail_eq_ok, false_and, exists_false] at h
  | some found =>
    simp only [hfound, bind_eq_ok, lift_eq_ok, markOutput, modify_eq_ok, get_eq_ok] at h
    obtain ⟨-, -, ⟨m, -, rfl⟩, -, -, rfl, -, -, ⟨rfl, rfl⟩, h⟩ := h
    split at h
    · simp only [lift_eq_ok, fail_eq_ok, false_and, exists_false] at h
    · rename_i hcolors
      obtain ⟨rfl, rfl⟩ := pure_eq_ok.mp h
      exact .output (Bool.eq_false_iff.mpr hcolors)

theorem writes_of_writable {name : String} {r : Writable} (h : writable name d = .ok r e) :
    d.inventory.Writes r e.inventory := by
  unfold writable at h
  cases hcondition : ConditionRegister.ofName? name with
  | some register =>
    simp only [hcondition] at h
    obtain ⟨rfl, rfl⟩ := pure_eq_ok.mp h
    exact .conditionOnly _ _
  | none =>
    simp only [hcondition] at h
    split at h
    · simp only [bind_eq_ok, pure_eq_ok] at h
      obtain ⟨n, f, hout, rfl, rfl⟩ := h
      exact writes_of_outputRegister hout
    · cases hnumber : temporaryNumber? name with
      | none => simp only [hnumber, lift_eq_ok, fail_eq_ok, false_and, exists_false] at h
      | some number =>
        simp only [hnumber, bind_eq_ok, lift_eq_ok, pure_eq_ok] at h
        obtain ⟨t, -, ⟨k, -, rfl⟩, rfl, rfl⟩ := h
        exact .temporary _ _

theorem writes_of_destination {target : Destination × CondTest}
    (h : destination d = .ok target e) : d.inventory.WritesDestination target.1 e.inventory := by
  simp only [destination, bind_eq_ok, lift_eq_ok] at h
  obtain ⟨t, -, ⟨k, -, rfl⟩, h⟩ := h
  cases t with
  | identifier name =>
    simp only [bind_eq_ok, lift_eq_ok, pure_eq_ok] at h
    obtain ⟨r, f, hwritable, mask, -, ⟨l, hmask, rfl⟩, guard, -, ⟨m, -, rfl⟩, rfl, rfl⟩ := h
    have hwrites := writes_of_writable hwritable
    exact ⟨any_of_destinationMask hmask, hwrites⟩
  | integer digits => simp only [lift_eq_ok, fail_eq_ok, false_and, exists_false] at h
  | punctuation mark => simp only [lift_eq_ok, fail_eq_ok, false_and, exists_false] at h

/-! ## Sources -/

theorem reads_of_scalarLiteral {o : Operand} (h : scalarLiteral d = .ok o e) :
    d.inventory.Reads o.readable e.inventory := by
  simp only [scalarLiteral, bind_eq_ok, lift_eq_ok, addLiteral, modifyGet_eq_ok, note,
    modify_eq_ok, pure_eq_ok] at h
  obtain ⟨v, -, ⟨k, -, rfl⟩, index, -, ⟨rfl, rfl⟩, -, -, rfl, rfl, rfl⟩ := h
  exact .literal _ _

theorem reads_of_vectorLiteral {o : Operand} (h : vectorLiteral d = .ok o e) :
    d.inventory.Reads o.readable e.inventory := by
  simp only [vectorLiteral, bind_eq_ok, lift_eq_ok, addLiteral, modifyGet_eq_ok, note,
    modify_eq_ok, pure_eq_ok] at h
  obtain ⟨v, -, ⟨k, -, rfl⟩, index, -, ⟨rfl, rfl⟩, -, -, rfl, rfl, rfl⟩ := h
  exact .literal _ _

theorem reads_of_namedOperand {name : String} {o : Operand} (hname : IsName name)
    (h : namedOperand name d = .ok o e) : d.inventory.Reads o.readable e.inventory := by
  unfold namedOperand at h
  -- the name is tried as that of a register before it is looked up
  split at h
  · simp only [lift_eq_ok, fail_eq_ok, false_and, exists_false] at h
  · split at h
    · simp only [bind_eq_ok, pure_eq_ok] at h
      obtain ⟨n, f, hinput, rfl, rfl⟩ := h
      exact reads_of_inputRegister hinput
    · split at h
      · simp only [bind_eq_ok, lift_eq_ok, pure_eq_ok] at h
        obtain ⟨n, -, ⟨k, -, rfl⟩, rfl, rfl⟩ := h
        exact .localParameter _ _
      · cases hnumber : temporaryNumber? name with
        | some number =>
          simp only [hnumber, bind_eq_ok, lift_eq_ok, pure_eq_ok] at h
          obtain ⟨t, -, ⟨k, -, rfl⟩, rfl, rfl⟩ := h
          exact .temporary _ _
        | none =>
          simp only [hnumber, bind_eq_ok, get_eq_ok] at h
          obtain ⟨f, g, ⟨rfl, rfl⟩, h⟩ := h
          cases hfound : d.parameters.lookup? name with
          | none => simp only [hfound, lift_eq_ok, fail_eq_ok, false_and, exists_false] at h
          | some index =>
            simp only [hfound] at h
            obtain ⟨rfl, rfl⟩ := pure_eq_ok.mp h
            exact .named hname hfound

theorem reads_of_operand {o : Operand} (h : operand d = .ok o e) :
    d.inventory.Reads o.readable e.inventory := by
  simp only [operand, bind_eq_ok, lift_eq_ok] at h
  obtain ⟨t, -, ⟨k, hpeek, rfl⟩, h⟩ := h
  split at h
  · have hreads := reads_of_scalarLiteral h
    exact hreads
  · simp only [bind_eq_ok, lift_eq_ok] at h
    obtain ⟨t, -, ⟨l, htoken, rfl⟩, h⟩ := h
    cases t with
    | identifier name =>
      have hreads := reads_of_namedOperand (Scan.token_identifier htoken) h
      exact hreads
    | integer digits => simp only [lift_eq_ok, fail_eq_ok, false_and, exists_false] at h
    | punctuation mark =>
      by_cases hbrace : mark = '\x7b'
      · subst hbrace
        have hreads := reads_of_vectorLiteral h
        exact hreads
      · simp [hbrace, lift_eq_ok, fail_eq_ok] at h

/-- The parts of a source operand that was read. -/
theorem reads_of_sourceWith {suffix : Operand → Scan Swizzle} {s : Source}
    (h : sourceWith suffix d = .ok s e) :
    d.inventory.ReadsSource s e.inventory ∧ ∃ o k l, suffix o k = .ok s.swizzle l := by
  simp only [sourceWith, bind_eq_ok, lift_eq_ok] at h
  obtain ⟨outer, -, ⟨k, -, rfl⟩, absolute, -, ⟨l, -, rfl⟩, h⟩ := h
  cases absolute with
  | false =>
    simp only [Bool.false_eq_true, if_false, bind_eq_ok, lift_eq_ok, pure_eq_ok] at h
    obtain ⟨inner, -, ⟨-, rfl⟩, o, f, hoperand, swizzle, -, ⟨m, hsuffix, rfl⟩, rfl, rfl⟩ := h
    have hreads := reads_of_operand hoperand
    exact ⟨⟨fun hfalse => by simp at hfalse, hreads⟩, o, _, _, hsuffix⟩
  | true =>
    simp only [if_true, bind_eq_ok, lift_eq_ok, pure_eq_ok] at h
    obtain ⟨inner, g, ⟨n, -, rfl⟩, o, f, hoperand, swizzle, g, ⟨m, hsuffix, rfl⟩, -, g,
      ⟨n', -, rfl⟩, rfl, rfl⟩ := h
    have hreads := reads_of_operand hoperand
    exact ⟨⟨fun _ => rfl, hreads⟩, o, _, _, hsuffix⟩

/-- A scalar operand reads one component. -/
theorem replicate_of_scalarSuffix {o : Operand} {s : Swizzle} {k l : Cursor}
    (h : scalarSuffix o k = .ok s l) : ∃ c, s = Quad.replicate c := by
  simp only [scalarSuffix, bind_eq_ok] at h
  obtain ⟨dot, m, -, h⟩ := h
  cases dot with
  | true =>
    simp only [if_true, bind_eq_ok] at h
    obtain ⟨found, n, -, h⟩ := h
    split at h
    · rename_i hall
      obtain ⟨rfl, -⟩ := pure_eq_ok.mp h
      simp only [Quad.all, decide_true, Bool.true_and, Bool.and_eq_true, decide_eq_true_eq] at hall
      obtain ⟨⟨hy, hz⟩, hw⟩ := hall
      refine ⟨found.x, Quad.ext_get fun c => ?_⟩
      cases c <;> simp [Quad.get, Quad.replicate, hy, hz, hw]
    · exact (fail_eq_ok.mp h).elim
  | false =>
    simp only [Bool.false_eq_true, if_false] at h
    cases o with
    | constant index =>
      obtain ⟨rfl, -⟩ := pure_eq_ok.mp h
      exact ⟨.x, rfl⟩
    | register r => exact (failAhead_eq_ok.mp h).elim

theorem reads_of_vectorSource {s : Source} (h : vectorSource d = .ok s e) :
    d.inventory.ReadsSource s e.inventory :=
  (reads_of_sourceWith (within_eq_ok.mp h)).1

theorem reads_of_scalarSource {s : Source} (h : scalarSource d = .ok s e) :
    d.inventory.ReadsSource s e.inventory ∧ ∃ c, s.swizzle = Quad.replicate c := by
  obtain ⟨hreads, o, k, l, hsuffix⟩ := reads_of_sourceWith (within_eq_ok.mp h)
  exact ⟨hreads, replicate_of_scalarSuffix hsuffix⟩

/-! ## Texture images -/

theorem samples_of_useTexture {image : TextureImage} {a : Unit}
    (h : useTexture image d = .ok a e) : d.inventory.Samples image e.inventory := by
  simp only [useTexture, bind_eq_ok, get_eq_ok] at h
  obtain ⟨f, g, ⟨rfl, rfl⟩, h⟩ := h
  cases hused : d.textures.get image.unit with
  | some used =>
    simp only [hused] at h
    split at h
    · simp only [lift_eq_ok, fail_eq_ok, false_and, exists_false] at h
    · rename_i hsame
      obtain ⟨-, rfl⟩ := pure_eq_ok.mp h
      rw [ne_eq, Decidable.not_not] at hsame
      exact .again (hsame ▸ hused)
  | none =>
    simp only [hused, set_eq_ok] at h
    subst h
    exact .fresh hused

theorem samples_of_textureImage {image : TextureImage} (h : textureImage d = .ok image e) :
    d.inventory.Samples image e.inventory := by
  simp only [textureImage, bind_eq_ok, lift_eq_ok, pure_eq_ok] at h
  obtain ⟨unit, f, ⟨k, -, rfl⟩, _, f, ⟨l, -, rfl⟩, target, f, ⟨m, -, rfl⟩, _, g, huse, rfl, rfl⟩ :=
    h
  have hsamples := samples_of_useTexture huse
  exact hsamples

/-! ## Instructions -/

/-- Items with commas between them are entered one after the other. -/
theorem chain_of_commaSeparated {α : Type} {item : Compile α}
    (step : Inventory → α → Inventory → Prop)
    (hitem : ∀ {d e : Draft} {a : α}, item d = .ok a e → step d.inventory a e.inventory) :
    ∀ {count : Nat} {d e : Draft} {as : List α}, commaSeparated item count d = .ok as e →
      as.length = count ∧ Chain step d.inventory as e.inventory := by
  intro count
  induction count with
  | zero =>
    intro d e as h
    obtain ⟨rfl, rfl⟩ := pure_eq_ok.mp h
    exact ⟨rfl, .nil _⟩
  | succ count ih =>
    intro d e as h
    -- only between two items a comma is read
    cases count with
    | zero =>
      simp only [commaSeparated, bind_eq_ok, pure_eq_ok] at h
      obtain ⟨a, f, ha, rfl, rfl⟩ := h
      exact ⟨rfl, .cons (hitem ha) (.nil _)⟩
    | succ count =>
      simp only [commaSeparated, bind_eq_ok, lift_eq_ok, pure_eq_ok] at h
      obtain ⟨a, f, ha, -, g, ⟨k, -, rfl⟩, rest, g, hrest, rfl, rfl⟩ := h
      obtain ⟨hlength, hchain⟩ := ih hrest
      exact ⟨congrArg (· + 1) hlength, .cons (hitem ha) hchain⟩

/-- The instruction behind its mnemonic, as the operands are filled in. -/
theorem enters_of_destinationOf {ins filled : Instruction} {writes : Bool}
    (hnone : ins.destination = none) (h : destinationOf ins writes d = .ok filled e) :
    filled.destination.isSome = writes ∧
      Chain Inventory.WritesDestination d.inventory filled.destination.toList e.inventory ∧
      ∃ destination condition, filled = { ins with destination, condition } := by
  cases writes with
  | false =>
    obtain ⟨rfl, rfl⟩ := pure_eq_ok.mp h
    rw [hnone]
    exact ⟨rfl, .nil _, none, ins.condition, by rw [← hnone]⟩
  | true =>
    simp only [destinationOf, if_true, bind_eq_ok, within_eq_ok, lift_eq_ok, pure_eq_ok] at h
    obtain ⟨⟨target, condition⟩, f, htarget, _, g, ⟨k, -, rfl⟩, rfl, rfl⟩ := h
    have hwrites := writes_of_destination htarget
    exact ⟨rfl, .cons hwrites (.nil _), some target, condition, rfl⟩

/-- The operands behind the destination. -/
theorem enters_of_operands {ins filled : Instruction} {operands : Operands}
    (hsources : ins.sources = []) (htexture : ins.texture = none)
    (h : Compile.operands ins operands d = .ok filled e) :
    operands.Admits filled.sources ∧ filled.texture.isSome = operands.samples ∧
      (∃ i, Chain Inventory.ReadsSource d.inventory filled.sources i ∧
        Chain Inventory.Samples i filled.texture.toList e.inventory) ∧
      ∃ sources texture condition, filled = { ins with sources, texture, condition } := by
  -- only a lookup samples, and only a condition leaves the sources as they are
  cases operands with
  | vectors count =>
    simp only [Compile.operands, bind_eq_ok, pure_eq_ok] at h
    obtain ⟨sources, f, hread, rfl, rfl⟩ := h
    obtain ⟨hlength, hchain⟩ := chain_of_commaSeparated Inventory.ReadsSource
      reads_of_vectorSource hread
    refine ⟨hlength, by rw [htexture]; rfl, ⟨_, hchain, ?_⟩, sources, ins.texture, ins.condition,
      rfl⟩
    rw [htexture]
    exact .nil _
  | scalars count =>
    simp only [Compile.operands, bind_eq_ok, pure_eq_ok] at h
    obtain ⟨sources, f, hread, rfl, rfl⟩ := h
    obtain ⟨hlength, hchain⟩ := chain_of_commaSeparated
      (fun i s j => i.ReadsSource s j ∧ ∃ c, s.swizzle = Quad.replicate c)
      reads_of_scalarSource hread
    obtain ⟨hchain, hscalar⟩ := hchain.and_forall
    refine ⟨⟨hlength, hscalar⟩, by rw [htexture]; rfl, ⟨_, hchain, ?_⟩, sources, ins.texture,
      ins.condition, rfl⟩
    rw [htexture]
    exact .nil _
  | lookup count =>
    simp only [Compile.operands, bind_eq_ok, within_eq_ok, lift_eq_ok, pure_eq_ok] at h
    obtain ⟨sources, f, hread, _, g, ⟨k, -, rfl⟩, image, f, himage, rfl, rfl⟩ := h
    obtain ⟨hlength, hchain⟩ := chain_of_commaSeparated Inventory.ReadsSource
      reads_of_vectorSource hread
    have hsamples := samples_of_textureImage himage
    exact ⟨hlength, rfl, ⟨_, hchain, .cons hsamples (.nil _)⟩, sources, some image, ins.condition,
      rfl⟩
  | condition =>
    simp only [Compile.operands, bind_eq_ok, lift_eq_ok, pure_eq_ok] at h
    obtain ⟨condition, f, ⟨k, -, rfl⟩, rfl, rfl⟩ := h
    dsimp only
    rw [hsources, htexture]
    exact ⟨rfl, rfl, ⟨_, .nil _, .nil _⟩, [], none, condition, by rw [← hsources, ← htexture]⟩

theorem mem_table_of_ofMnemonic? {mnemonic : String} {p : Pattern} {rest : List Char}
    (h : Pattern.ofMnemonic? mnemonic = some (p, rest)) : p ∈ Pattern.table := by
  simp only [Pattern.ofMnemonic?, Option.bind_eq_bind, Option.bind_eq_some_iff, Option.pure_def,
    Option.some.injEq, Prod.mk.injEq] at h
  obtain ⟨found, hfound, rfl, -⟩ := h
  exact Pattern.mem_longestFirst.mp (List.mem_of_find?_eq_some hfound)

theorem readMnemonic_ok {mnemonic : String} {p : Pattern} {s : Suffixes}
    (h : readMnemonic mnemonic = .ok (p, s)) :
    p ∈ Pattern.table ∧ p.suffixes.allows s = true := by
  unfold readMnemonic at h
  split at h
  · cases h
  · rename_i pattern rest hpattern
    split at h
    · cases h
    · split at h
      · rename_i hallows
        cases h
        exact ⟨mem_table_of_ofMnemonic? hpattern, hallows⟩
      · cases h

theorem enters_of_instruction {mnemonic : String} {ins : Instruction}
    (h : instruction mnemonic d = .ok ins e) :
    ∃ p ∈ Pattern.table, ins.Fits p ∧ d.inventory.Enters ins e.inventory := by
  simp only [instruction, bind_eq_ok, get_eq_ok] at h
  obtain ⟨f, g, ⟨rfl, rfl⟩, h⟩ := h
  cases hmnemonic : readMnemonic mnemonic with
  | error cause => simp only [hmnemonic, lift_eq_ok, fail_eq_ok, false_and, exists_false] at h
  | ok found =>
    obtain ⟨p, s⟩ := found
    simp only [hmnemonic, bind_eq_ok, lift_eq_ok, pure_eq_ok] at h
    obtain ⟨target, f, htarget, filled, g, hfilled, _, _, ⟨k, -, rfl⟩, rfl, rfl⟩ := h
    obtain ⟨hlisted, hallows⟩ := readMnemonic_ok hmnemonic
    obtain ⟨hwrites, hwritten, destination, guard, rfl⟩ := enters_of_destinationOf rfl htarget
    obtain ⟨hadmits, hsamples, ⟨i, hread, hsampled⟩, sources, texture, condition, rfl⟩ :=
      enters_of_operands rfl rfl hfilled
    exact ⟨p, hlisted, ⟨rfl, hwrites, hadmits, hsamples, s, hallows, rfl, rfl, rfl⟩,
      .operands hwritten hread hsampled⟩

/-! ## Statements -/

theorem defines_of_definition {kind : ParameterKind} {a : Unit} (hkind : kind ≠ .literal)
    (h : definition kind d = .ok a e) : d.inventory.Defines e.inventory := by
  simp only [definition, bind_eq_ok, lift_eq_ok] at h
  obtain ⟨name, f, ⟨k, hname, rfl⟩, h⟩ := h
  split at h
  · simp only [bind_eq_ok, lift_eq_ok, fail_eq_ok, false_and, exists_false] at h
  · rename_i hfree
    simp only [bind_eq_ok, get_eq_ok] at h
    obtain ⟨f, g, ⟨rfl, rfl⟩, h⟩ := h
    split at h
    · simp only [bind_eq_ok, lift_eq_ok, fail_eq_ok, false_and, exists_false] at h
    · rename_i hnew
      simp only [bind_eq_ok, lift_eq_ok, addNamed, modifyGet_eq_ok, note, modify_eq_ok] at h
      obtain ⟨v, f, ⟨l, -, rfl⟩, _, f, ⟨m, -, rfl⟩, index, f, ⟨rfl, rfl⟩, rfl⟩ := h
      exact .named v (Scan.isName_of_identifier hname) (Bool.eq_false_iff.mpr hfree)
        (Option.not_isSome_iff_eq_none.mp hnew) hkind

/-- A statement with this name was read, where the draft `d` stands behind the name. -/
inductive Named (name : String) (d : Draft) : Statement → Draft → Prop where
  | definition {e : Draft} {kind : ParameterKind}
    (hname : name = "DEFINE" ∧ kind = .constant ∨ name = "DECLARE" ∧ kind = .declared)
    (hkind : kind ≠ .literal) (read : definition kind d = .ok () e) : Named name d .definition e
  | finish {e : Draft} {ins : Instruction} (hname : name = "END") (read : finish d = .ok ins e) :
    Named name d (.finish ins) e
  | instruction {e : Draft} {ins : Instruction} (hdefine : name ≠ "DEFINE")
    (hdeclare : name ≠ "DECLARE") (read : instruction name d = .ok ins e) :
    Named name d (.instruction ins) { e with
      notes := e.notes.push (.instructionRead ins.opcode ins.position e.cursor.line) }

/-- The name says what a statement is, if there is room for one. -/
theorem named_of_statement {count : Nat} {added : Statement}
    (h : statement count d = .ok added e) : count < maxInstructions ∧ ∃ name k,
      statementName d.cursor = .ok name k ∧ Named name { d with cursor := k } added e := by
  simp only [statement, bind_eq_ok, lift_eq_ok] at h
  obtain ⟨name, f, ⟨k, hname, rfl⟩, h⟩ := h
  split at h
  · exact (lift_fail_ne_ok h).elim
  rename_i hcount
  refine ⟨Nat.lt_of_not_le hcount, name, k, hname, ?_⟩
  split at h
  · rename_i hdefine
    simp only [bind_eq_ok, within_eq_ok, pure_eq_ok] at h
    obtain ⟨_, f, hdefinition, rfl, rfl⟩ := h
    exact .definition (.inl ⟨hdefine, rfl⟩) ParameterKind.noConfusion hdefinition
  rename_i hdefine
  split at h
  · rename_i hdeclare
    simp only [bind_eq_ok, within_eq_ok, pure_eq_ok] at h
    obtain ⟨_, f, hdefinition, rfl, rfl⟩ := h
    exact .definition (.inr ⟨hdeclare, rfl⟩) ParameterKind.noConfusion hdefinition
  rename_i hdeclare
  split at h
  · rename_i hend
    simp only [bind_eq_ok, pure_eq_ok] at h
    obtain ⟨ins, f, hfinish, rfl, rfl⟩ := h
    exact .finish hend hfinish
  · simp only [bind_eq_ok, within_eq_ok, get_eq_ok, note, modify_eq_ok, pure_eq_ok] at h
    obtain ⟨ins, f, hinstruction, g, g', ⟨rfl, rfl⟩, _, f', rfl, rfl, rfl⟩ := h
    exact .instruction hdefine hdeclare hinstruction

/-- The `END` begins with the token that was read last. -/
theorem finish_eq {ins : Instruction} (h : finish d = .ok ins e) :
    ins = { opcode := .halt, position := d.cursor.tokenStart } ∧ d.cursor.peek? = none ∧
      e = d := by
  simp only [finish, bind_eq_ok, get_eq_ok, lift_eq_ok, Scan.atEnd, pure_eq_ok, Scan.peek?,
    onRest_eq_ok, EStateM.Result.ok.injEq] at h
  obtain ⟨_, _, ⟨rfl, rfl⟩, found, _, ⟨_, ⟨t, _, ⟨-, rfl, rfl⟩, rfl, rfl⟩, rfl⟩, h⟩ := h
  split at h
  · rename_i hnone
    obtain ⟨rfl, rfl⟩ := pure_eq_ok.mp h
    exact ⟨rfl, Option.isNone_iff_eq_none.mp hnone, rfl⟩
  · simp only [lift_eq_ok, failAhead_eq_ok, false_and, exists_false] at h

/-- What a statement adds to a program, and to the inventory of its draft. -/
theorem assembles_of_statement {count : Nat} {added : Statement}
    (h : statement count d = .ok added e) :
    count < maxInstructions ∧ added.Adds d.inventory e.inventory := by
  obtain ⟨hcount, name, k, -, hnamed⟩ := named_of_statement h
  -- what was counted before this statement leaves room for it, whichever it is
  refine ⟨hcount, ?_⟩
  cases hnamed with
  | definition _ hkind read =>
    have hdefines := defines_of_definition hkind read
    exact hdefines
  | finish _ read =>
    obtain ⟨rfl, -, rfl⟩ := finish_eq read
    exact ⟨⟨_, rfl⟩, rfl⟩
  | instruction _ _ read =>
    have henters := enters_of_instruction read
    exact henters

theorem assembles_of_statements {fuel : Nat} :
    ∀ {count : Nat} {d e : Draft} {instructions : List Instruction},
      statements fuel count d = .ok instructions e →
        ∃ body position, instructions = body ++ [{ opcode := .halt, position }] ∧
          count + instructions.length ≤ maxInstructions ∧
          Assembles d.inventory body e.inventory := by
  -- the count goes up with the instructions, so the bound is carried to the `END`
  induction fuel with
  | zero =>
    intro count d e instructions h
    simp only [statements, lift_eq_ok, fail_eq_ok, false_and, exists_false] at h
  | succ fuel ih =>
    intro count d e instructions h
    simp only [statements, bind_eq_ok] at h
    obtain ⟨added, f, hadded, h⟩ := h
    obtain ⟨hcount, hmeaning⟩ := assembles_of_statement hadded
    cases added with
    | definition =>
      obtain ⟨body, position, hbody, hlength, hrest⟩ := ih h
      exact ⟨body, position, hbody, hlength, .define hmeaning hrest⟩
    | instruction ins =>
      simp only [bind_eq_ok, pure_eq_ok] at h
      obtain ⟨rest, g, hstatements, rfl, rfl⟩ := h
      obtain ⟨p, hlisted, hfits, henters⟩ := hmeaning
      obtain ⟨body, position, rfl, hlength, hrest⟩ := ih hstatements
      refine ⟨ins :: body, position, rfl, ?_, .instruction hlisted hfits henters hrest⟩
      rw [List.length_cons]
      omega
    | finish ins =>
      obtain ⟨rfl, rfl⟩ := pure_eq_ok.mp h
      obtain ⟨⟨position, rfl⟩, hsame⟩ := hmeaning
      refine ⟨[], position, rfl, ?_, hsame ▸ .nil _⟩
      rw [List.length_singleton]
      omega

end Compile

/-- A compiled program is assembled from nothing, with an `END` behind its body, and it writes
some output. -/
theorem assembles_of_compile {source : String} {p : Program} (h : compile source = .ok p) :
    ∃ body position, p.instructions = body ++ [{ opcode := .halt, position }] ∧
      p.instructions.length ≤ maxInstructions ∧ Assembles {} body p.inventory ∧
      p.outputsWritten ≠ 0 := by
  unfold compile compilation at h
  cases hprogram : Compile.program { cursor := Cursor.ofText source } with
  | error e d => simp only [hprogram, Draft.failure, reduceCtorEq] at h
  | ok instructions d =>
    simp only [hprogram, Draft.success] at h
    split at h
    · simp only [Draft.failure, reduceCtorEq] at h
    · rename_i houtputs
      simp only [Except.ok.injEq] at h
      subst h
      simp only [Compile.program, bind_eq_ok, lift_eq_ok, get_eq_ok] at hprogram
      obtain ⟨_, f, ⟨k, -, rfl⟩, g, g', ⟨rfl, rfl⟩, hstatements⟩ := hprogram
      obtain ⟨body, position, hbody, hlength, hassembles⟩ :=
        Compile.assembles_of_statements hstatements
      rw [Nat.zero_add] at hlength
      exact ⟨body, position, hbody, hlength, hassembles, houtputs⟩

end FragmentAssembly

import FragmentAssembly.Proofs.Reading.Composition
import FragmentAssembly.Proofs.Reading.Fuel

/-!
# Statements behind another text

Statements that were read once are read again behind another text, if the two are compatible and
there is room for the instructions of both.
-/

namespace FragmentAssembly

namespace Compile

/-! ## Instructions -/

theorem Comparison.Lasts.forall₂ {α : Type} {V : Comparison α} (h : V.Lasts) :
    Comparison.Lasts fun as as' s t => List.Forall₂ (fun a a' => V a a' s t) as as' :=
  fun _ _ _ _ _ _ has hs ht => has.imp fun _ _ ha => h ha hs ht

theorem carries_commaSeparated {α : Type} {item : Compile α} {V : Comparison α} (hlasts : V.Lasts)
    (hitem : Carries item item V) : ∀ count, Carries (commaSeparated item count)
      (commaSeparated item count) fun as as' s t => List.Forall₂ (fun a a' => V a a' s t) as as'
  | 0 => .pure fun _ _ => .nil
  | 1 => hitem.collect hlasts fun _ _ => .pure fun _ _ ha => .cons ha .nil
  | count + 2 => by
    refine hitem.collect hlasts fun a a' => (Carries.lift (Scan.isLocal_expect rfl)).andThen
      fun _ => ?_
    refine (carries_commaSeparated hlasts hitem (count + 1)).collect hlasts.forall₂
      fun as as' => .pure fun _ _ has ha => .cons ha has

theorem lasts_source : Comparison.Lasts fun r r' s t => Source.Alike s t r r' :=
  fun _ _ _ _ _ _ => Source.Alike.extends

theorem lasts_instruction : Comparison.Lasts fun ins ins' s t => Instruction.Alike s t ins ins' :=
  fun _ _ _ _ _ _ => Instruction.Alike.extends

theorem carries_operands (ins ins' : Instruction) (shape : Operands) :
    Carries (operands ins shape) (operands ins' shape) fun r r' s t =>
      ins.Alike s t ins' → r.Alike s t r' := by
  cases shape with
  | vectors count =>
    exact (carries_commaSeparated lasts_source carries_vectorSource count).collect
      lasts_source.forall₂ fun _ _ => .pure fun _ _ hsources h => { h with sources := hsources }
  | scalars count =>
    exact (carries_commaSeparated lasts_source carries_scalarSource count).collect
      lasts_source.forall₂ fun _ _ => .pure fun _ _ hsources h => { h with sources := hsources }
  | lookup count =>
    exact (carries_commaSeparated lasts_source carries_vectorSource count).collect
      lasts_source.forall₂ fun _ _ => (Carries.lift (Scan.isLocal_expect rfl)).andThen fun _ =>
        carries_textureImage.within.andThen fun _ =>
          .pure fun _ _ hsources h => { h with sources := hsources, texture := rfl }
  | condition =>
    exact (Carries.lift Scan.isLocal_condition.within).andThen fun _ =>
      .pure fun _ _ h => { h with condition := rfl }

theorem carries_destinationOf {ins ins' : Instruction} (h : ∀ s t, ins.Alike s t ins')
    (writes : Bool) : Carries (destinationOf ins writes) (destinationOf ins' writes)
      fun r r' s t => r.Alike s t r' := by
  unfold destinationOf
  split
  · exact carries_destination.within.andThen fun _ =>
      (Carries.lift (Scan.isLocal_expect rfl)).andThen fun _ =>
        .pure fun s t => { h s t with destination := rfl, condition := rfl }
  · exact .pure h

/-! ## Statements -/

/-- What the first action reads up to a semicolon, the second one reads behind a text whose
inventory `b` is compatible, and it fails behind any other text. -/
def Closes {α : Type} (m n : Compile α) (V : Comparison α) : Prop :=
  ∀ ⦃d e : Draft⦄ ⦃a : α⦄, m d = .ok a e → d.inventory.Grows e.inventory ∧
    ∃ text, d.cursor.ahead = text ++ ';' :: e.cursor.rest ∧
      ∀ (v : List Char) (b i : Inventory), b.Joined d.inventory i →
        n.Builds (text ++ ';' :: v) i (b.Compatible e.inventory) v fun a' j =>
          b.Joined e.inventory j ∧ j.parameters.Extends i.parameters ∧
            V a a' e.parameters j.parameters

theorem Closes.within {α : Type} {m n : Compile α} {V : Comparison α} {c : Construct}
    (h : Closes m n V) : Closes (within c m) (FragmentAssembly.within c n) V := by
  intro d e a hok
  obtain ⟨hgrows, text, htext, hbuilds⟩ := h (within_eq_ok.mp hok)
  exact ⟨hgrows, text, htext, fun v b i hi => (hbuilds v b i hi).within⟩

/-- The cursor is right behind the mark. -/
theorem ahead_of_expect {mark : String} {c : Char} {k l : Cursor} {a : Unit}
    (hmark : mark.toList = [c]) (h : Scan.expect mark k = .ok a l) : k.ahead = c :: l.rest := by
  have hlength : mark.length = 1 := by rw [← String.length_toList, hmark, List.length_singleton]
  simp only [Scan.expect, bind_eq_ok] at h
  obtain ⟨found, l', haccept, h⟩ := h
  have hinside := (onRest_eq_ok.mp haccept).1
  rw [Scan.accept_apply mark hinside, hmark, hlength] at haccept
  split at haccept
  · rename_i hprefix
    cases haccept
    obtain ⟨-, rfl⟩ := pure_eq_ok.mp h
    obtain ⟨rest, hrest⟩ := List.isPrefixOf_iff_prefix.mp hprefix
    rw [Cursor.advance_rest]
    show k.ahead = c :: k.skipIgnored.rest.drop 1
    rw [Cursor.rest_skipIgnored hinside, ← hrest]
    rfl
  · cases haccept
    simp only [Bool.false_eq_true, if_false, bind_eq_ok] at h
    obtain ⟨t, l'', -, h⟩ := h
    cases t <;> exact (fail_eq_ok.mp h).elim

/-- The destination and the operands of an instruction, and the semicolon. -/
theorem closes_instruction (mnemonic : String) :
    Closes (instruction mnemonic) (instruction mnemonic) fun ins ins' s t =>
      ins.Alike s t ins' := by
  intro d e ins hok
  simp only [instruction, bind_eq_ok, get_eq_ok] at hok
  obtain ⟨f, g, ⟨rfl, rfl⟩, hok⟩ := hok
  cases hmnemonic : readMnemonic mnemonic with
  | error cause =>
    rw [hmnemonic] at hok
    exact (lift_fail_ne_ok hok).elim
  | ok found =>
    obtain ⟨pattern, suffixes⟩ := found
    simp only [hmnemonic, bind_eq_ok, lift_eq_ok, pure_eq_ok] at hok
    obtain ⟨target, f, htarget, filled, g, hfilled, _, _, ⟨k, hexpect, rfl⟩, rfl, rfl⟩ := hok
    have hstart : ∀ (position position' : Nat) (s t : ParameterTable), Instruction.Alike s t
        { opcode := pattern.opcode, precision := suffixes.precision.getD .full,
          updateCodes := suffixes.update, saturate := suffixes.saturate, position }
        { opcode := pattern.opcode, precision := suffixes.precision.getD .full,
          updateCodes := suffixes.update, saturate := suffixes.saturate, position := position' } :=
      fun _ _ _ _ => ⟨rfl, .nil, rfl, rfl, rfl, rfl, rfl, rfl⟩
    have hcarries := fun position' : Nat =>
      (carries_destinationOf (hstart d.cursor.tokenStart position') pattern.writes).collect
        lasts_instruction fun ins ins' => carries_operands ins ins' pattern.operands
    have hread := (bind_eq_ok (f := fun ins => operands ins pattern.operands)).mpr
      ⟨target, f, htarget, hfilled⟩
    have hahead : g.cursor.ahead = [] ++ ';' :: k.rest := ahead_of_expect rfl hexpect
    obtain ⟨hgrows, hrest⟩ := hcarries 0 hread
    obtain ⟨text, htext, -⟩ := hrest rfl hahead
    refine ⟨hgrows, text, htext, fun v b i hi => Builds.look fun d' _ _ => ?_⟩
    -- only the position depends on the draft
    obtain ⟨-, hrest'⟩ := hcarries d'.cursor.tokenStart hread
    obtain ⟨text', htext', hbuilds⟩ := hrest' rfl hahead
    obtain rfl : text' = text := List.append_cancel_right (htext'.symm.trans htext)
    rw [hmnemonic]
    dsimp only
    rw [← bind_assoc]
    refine (hbuilds v b i hi).followedBy fun filled' j hj => ?_
    exact Builds.read (Scan.reads_expect_char rfl rfl v) (.pure hj v)

/-- A name that is defined in the one text is not free in the other one. -/
theorem closes_definition {kind : ParameterKind} (hknown : kind ≠ .literal) :
    Closes (definition kind) (definition kind) same := by
  intro d e a hok
  simp only [definition, bind_eq_ok, lift_eq_ok] at hok
  obtain ⟨name, f, ⟨k, hname, rfl⟩, hok⟩ := hok
  have hisName := Scan.isName_of_identifier hname
  split at hok
  · simp only [bind_eq_ok, lift_eq_ok, fail_eq_ok, false_and, exists_false] at hok
  rename_i hfree
  simp only [bind_eq_ok, get_eq_ok] at hok
  obtain ⟨f, g, ⟨rfl, rfl⟩, hok⟩ := hok
  split at hok
  · simp only [bind_eq_ok, lift_eq_ok, fail_eq_ok, false_and, exists_false] at hok
  rename_i hnew
  simp only [bind_eq_ok, lift_eq_ok, addNamed, modifyGet_eq_ok, note, modify_eq_ok] at hok
  obtain ⟨v, f, ⟨l, hvalue, rfl⟩, _, f, ⟨m, hexpect, rfl⟩, index, f, ⟨rfl, rfl⟩, rfl⟩ := hok
  have hahead : l.ahead = [] ++ ';' :: m.rest := ahead_of_expect rfl hexpect
  obtain ⟨text, htext, hvalue'⟩ := isLocal_definitionValue kind hvalue rfl hahead
  obtain ⟨text', htext', hname'⟩ := Scan.isLocal_identifier hname rfl htext
  -- behind the other text the name may be taken, and then nothing else is looked at
  refine ⟨.define _ name kind v, text', htext', fun behind b i hi => ?_⟩
  have hcompatible := hi.compatible_define (Option.not_isSome_iff_eq_none.mp hnew) kind v
  refine Builds.read (hname' behind) ?_
  rw [if_neg hfree]
  refine Builds.look fun d' _ hd' => ?_
  have hparameters : d'.parameters = i.parameters := congrArg Inventory.parameters hd'
  rw [hparameters]
  split
  · rename_i hdefined
    exact .fail_bind fun hpossible => hcompatible.mp hpossible hdefined
  · rename_i hnew'
    have hpossible := hcompatible.mpr hnew'
    refine Builds.congr_possible (iff_true_intro hpossible) ?_
    refine Builds.read (hvalue' behind) ?_
    refine Builds.read (Scan.reads_expect_char rfl rfl behind) ?_
    refine (builds_addNamed name kind v).andThen ?_
    rintro index _ rfl
    refine (builds_note _).weaken ?_
    rintro _ _ rfl
    exact ⟨hi.define v hisName (Bool.eq_false_iff.mpr hfree)
      (Option.not_isSome_iff_eq_none.mp hnew') hknown hpossible,
      ParameterTable.extends_addNamed _ name kind v, rfl⟩

/-- What statements add is the same, up to what tells instructions of two programs apart. -/
inductive Statement.Alike (s t : ParameterTable) : Statement → Statement → Prop where
  | definition : Alike s t .definition .definition
  | instruction {ins ins' : Instruction} (h : ins.Alike s t ins') :
    Alike s t (.instruction ins) (.instruction ins')

theorem closes_definitionStatement (c : Construct) {kind : ParameterKind}
    (hknown : kind ≠ .literal) : Closes (do
        within c (definition kind)
        return Statement.definition) (do
        within c (definition kind)
        return Statement.definition) fun added added' s t => added.Alike s t added' := by
  intro d e added hok
  simp only [bind_eq_ok, pure_eq_ok] at hok
  obtain ⟨_, f, hdefinition, rfl, rfl⟩ := hok
  obtain ⟨hgrows, text, htext, hbuilds⟩ := (closes_definition hknown).within hdefinition
  refine ⟨hgrows, text, htext, fun v b i hi => ?_⟩
  refine (hbuilds v b i hi).followedBy fun _ j hj => ?_
  exact .pure ⟨hj.1, hj.2.1, .definition⟩ v

theorem closes_instructionStatement (name : String) : Closes (do
        let ins ← within .instruction (instruction name)
        note (.instructionRead ins.opcode ins.position (← get).cursor.line)
        return Statement.instruction ins) (do
        let ins ← within .instruction (instruction name)
        note (.instructionRead ins.opcode ins.position (← get).cursor.line)
        return Statement.instruction ins) fun added added' s t => added.Alike s t added' := by
  intro d e added hok
  simp only [bind_eq_ok, get_eq_ok, note, modify_eq_ok, pure_eq_ok] at hok
  obtain ⟨ins, f, hinstruction, g, g', ⟨rfl, rfl⟩, _, f', rfl, rfl, rfl⟩ := hok
  obtain ⟨hgrows, text, htext, hbuilds⟩ := (closes_instruction name).within hinstruction
  refine ⟨hgrows, text, htext, fun v b i hi => ?_⟩
  refine (hbuilds v b i hi).followedBy fun ins' j hj => Builds.look fun d' _ _ => ?_
  refine (builds_note _).andThen ?_
  rintro _ _ rfl
  exact .pure ⟨hj.1, hj.2.1, .instruction hj.2.2⟩ v

/-- What follows the first word of a statement. -/
theorem closes_named {name : String} (hname : name ≠ "END") : Closes
    (if name = "DEFINE" then do
        within .defineStatement (definition .constant)
        return Statement.definition
      else if name = "DECLARE" then do
        within .declareStatement (definition .declared)
        return Statement.definition
      else if name = "END" then
        return Statement.finish (← finish)
      else do
        let ins ← within .instruction (instruction name)
        note (.instructionRead ins.opcode ins.position (← get).cursor.line)
        return Statement.instruction ins)
    (if name = "DEFINE" then do
        within .defineStatement (definition .constant)
        return Statement.definition
      else if name = "DECLARE" then do
        within .declareStatement (definition .declared)
        return Statement.definition
      else if name = "END" then
        return Statement.finish (← finish)
      else do
        let ins ← within .instruction (instruction name)
        note (.instructionRead ins.opcode ins.position (← get).cursor.line)
        return Statement.instruction ins) fun added added' s t => added.Alike s t added' := by
  split
  · exact closes_definitionStatement .defineStatement ParameterKind.noConfusion
  · split
    · exact closes_definitionStatement .declareStatement ParameterKind.noConfusion
    · exact closes_instructionStatement name

/-- A statement other than the `END`, behind a text that leaves room for it. -/
theorem builds_statement_again {count : Nat} {d e : Draft} {added : Statement}
    (hok : statement count d = .ok added e) (hnot : ∀ ins, added ≠ .finish ins) :
    d.inventory.Grows e.inventory ∧ ∃ text, d.cursor.ahead = text ++ ';' :: e.cursor.rest ∧
      ∀ (v : List Char) (b i : Inventory) (count' : Nat), count' < maxInstructions →
        b.Joined d.inventory i →
          (statement count').Builds (text ++ ';' :: v) i (b.Compatible e.inventory) v
            fun added' j => b.Joined e.inventory j ∧ j.parameters.Extends i.parameters ∧
              added.Alike e.parameters j.parameters added' := by
  obtain ⟨name, _, hfirst, hok⟩ := bind_eq_ok.mp hok
  obtain ⟨k, hname, rfl⟩ := lift_eq_ok.mp hfirst
  split at hok
  · exact (lift_fail_ne_ok hok).elim
  have hend : name ≠ "END" := by
    rintro rfl
    rw [if_neg (by decide), if_neg (by decide), if_pos rfl] at hok
    obtain ⟨ins, _, -, hok⟩ := bind_eq_ok.mp hok
    exact hnot ins (pure_eq_ok.mp hok).1.symm
  obtain ⟨hgrows, text, htext, hbuilds⟩ := closes_named hend hok
  obtain ⟨text', htext', hreads⟩ := isLocal_statementName hname rfl htext
  refine ⟨hgrows, text', htext', fun v b i count' hcount hi => ?_⟩
  refine Builds.read (hreads v) ?_
  rw [if_neg (Nat.not_le_of_lt hcount)]
  exact hbuilds v b i hi

/-! ## Passing statements -/

/-- The instructions that a statement adds, except for the `END`. -/
def Statement.body : Statement → List Instruction
  | .instruction ins => [ins]
  | _ => []

/-- Statements other than the `END` are read, with the instructions `body`. -/
inductive Passes : Nat → Draft → List Instruction → Draft → Prop where
  | nil (count : Nat) (d : Draft) : Passes count d [] d
  | cons {count : Nat} {d e f : Draft} {added : Statement} {body : List Instruction}
    (read : statement count d = .ok added e) (inner : ∀ ins, added ≠ .finish ins)
    (rest : Passes (count + added.body.length) e body f) : Passes count d (added.body ++ body) f

section Passing

variable {fuel count : Nat} {d e f : Draft} {body instructions : List Instruction}

/-- What follows a statement is read behind it. -/
theorem statements_succ {added : Statement} (read : statement count d = .ok added e)
    (inner : ∀ ins, added ≠ .finish ins) : statements (fuel + 1) count d = .ok instructions f ↔
      ∃ rest, statements fuel (count + added.body.length) e = .ok rest f ∧
        instructions = added.body ++ rest := by
  rw [statements, bind_apply, read]
  cases added with
  | definition =>
    show statements fuel count e = _ ↔ ∃ rest, statements fuel count e = _ ∧ instructions = rest
    simp only [exists_eq_right']
  | instruction ins =>
    simp only [bind_eq_ok, pure_eq_ok]
    constructor
    · rintro ⟨rest, _, hrest, rfl, rfl⟩
      exact ⟨rest, hrest, rfl⟩
    · rintro ⟨rest, hrest, rfl⟩
      exact ⟨rest, f, hrest, rfl, rfl⟩
  | finish ins => exact absurd rfl (inner ins)

/-- In front of the last statement the others were passed. -/
theorem passes_of_statements (h : statements fuel count d = .ok instructions f) :
    ∃ body ins e, instructions = body ++ [ins] ∧ Passes count d body e ∧
      statement (count + body.length) e = .ok (.finish ins) f := by
  induction fuel generalizing count d instructions with
  | zero => exact (lift_fail_ne_ok h).elim
  | succ fuel ih =>
    obtain ⟨added, m, hadded, hmore⟩ := bind_eq_ok.mp h
    by_cases hfinish : ∃ ins, added = .finish ins
    · obtain ⟨ins, rfl⟩ := hfinish
      obtain ⟨rfl, rfl⟩ := pure_eq_ok.mp hmore
      exact ⟨[], ins, d, rfl, .nil count d, hadded⟩
    · have hinner := not_exists.mp hfinish
      obtain ⟨rest, hrest, rfl⟩ := (statements_succ hadded hinner).mp h
      obtain ⟨body, ins, e, rfl, hpasses, hlast⟩ := ih hrest
      refine ⟨added.body ++ body, ins, e, (List.append_assoc _ _ _).symm,
        .cons hadded hinner hpasses, ?_⟩
      rw [List.length_append, ← Nat.add_assoc]
      exact hlast

/-- Statements that can be passed are read before those that follow. -/
theorem Passes.statements_ok (h : Passes count d body e)
    (hok : statements fuel count d = .ok instructions f) :
    ∃ fuel' rest, instructions = body ++ rest ∧
      statements fuel' (count + body.length) e = .ok rest f := by
  induction h generalizing fuel instructions with
  | nil count d => exact ⟨fuel, instructions, rfl, hok⟩
  | @cons count d m e added body read inner _ ih =>
    cases fuel with
    | zero => exact (lift_fail_ne_ok hok).elim
    | succ fuel =>
      obtain ⟨rest, hrest, rfl⟩ := (statements_succ read inner).mp hok
      obtain ⟨fuel', following, rfl, hfollowing⟩ := ih hrest
      rw [List.length_append, ← Nat.add_assoc]
      exact ⟨fuel', following, (List.append_assoc _ _ _).symm, hfollowing⟩

/-- As much fuel as there is text is enough. -/
theorem Passes.statements_eq {ins : Instruction} (h : Passes count d body e)
    (hlast : statement (count + body.length) e = .ok (.finish ins) f) :
    statements (d.cursor.rest.length + 1) count d = .ok (body ++ [ins]) f := by
  induction h with
  | nil count d =>
    rw [List.length_nil, Nat.add_zero] at hlast
    rw [statements, bind_apply, hlast]
    rfl
  | @cons count d m e added body read inner _ ih =>
    rw [List.length_append, ← Nat.add_assoc] at hlast
    have hlt := rest_lt_of_statement read
    refine (statements_succ read inner).mpr ⟨body ++ [ins], ?_, List.append_assoc _ _ _⟩
    rw [statements_of_le hlt (Nat.lt_succ_self _), ih hlast]

theorem Passes.append {body' : List Instruction} (h : Passes count d body e)
    (h' : Passes (count + body.length) e body' f) : Passes count d (body ++ body') f := by
  induction h with
  | nil count d => exact h'
  | @cons count d m e added body read inner _ ih =>
    rw [List.length_append, ← Nat.add_assoc] at h'
    rw [List.append_assoc]
    exact .cons read inner (ih h')

end Passing

/-! ## Passing them again -/

/-- In front of what the cursor sees there is a gap. -/
theorem rest_of_ahead {k : Cursor} {c : Char} {text behind : List Char} (hinside : k.inside = [])
    (h : k.ahead = text ++ c :: behind) :
    ∃ gap, Token.IsGap gap ∧ k.rest = gap ++ (text ++ c :: behind) := by
  rw [Cursor.ahead_of_inside hinside] at h
  rw [← h]
  apply Token.exists_gap_of_ne_nil
  rw [h]
  exact List.append_ne_nil_of_right_ne_nil _ (List.cons_ne_nil _ _)

/-- Statements that led to the instructions `body` and the inventory `i` are read once more, from
the draft `d` behind a text with inventory `b`.  What they leave is `rest`. -/
structure Repeats (body : List Instruction) (i : Inventory) (rest : List Char) (b : Inventory)
    (count : Nat) (d : Draft) : Prop where
  passed : b.Compatible i → count + body.length < maxInstructions →
    ∃ body' e, Passes count d body' e ∧ e.cursor.ahead = Token.visible rest ∧
      b.Joined i e.inventory ∧ e.parameters.Extends d.parameters ∧
      List.Forall₂ (Instruction.Alike i.parameters e.parameters) body body'
  impossible : ¬(b.Compatible i ∧ count + body.length < maxInstructions) →
    ∀ fuel instructions e, statements fuel count d ≠ .ok instructions e

theorem Statement.Alike.body {s t : ParameterTable} {added added' : Statement}
    (h : added.Alike s t added') : List.Forall₂ (Instruction.Alike s t) added.body added'.body := by
  cases h with
  | definition => exact .nil
  | instruction h => exact .cons h .nil

theorem Statement.Alike.inner {s t : ParameterTable} {added added' : Statement}
    (h : added.Alike s t added') (ins : Instruction) : added' ≠ .finish ins := by
  cases h <;> exact Statement.noConfusion

namespace Repeats

variable {body : List Instruction} {i b : Inventory} {rest : List Char} {count : Nat} {d : Draft}

theorem of_gap {gap : List Char} (hgap : Token.IsGap gap)
    (h : Repeats body i (gap ++ rest) b count d) : Repeats body i rest b count d := by
  refine ⟨fun hcompatible hroom => ?_, h.impossible⟩
  rw [← hgap.visible_append]
  exact h.passed hcompatible hroom

/-- Behind a statement that is refused nothing is read. -/
theorem refused (himpossible : ¬(b.Compatible i ∧ count + body.length < maxInstructions))
    (h : ∀ added e, statement count d ≠ .ok added e) : Repeats body i rest b count d := by
  refine ⟨fun hcompatible hroom => absurd ⟨hcompatible, hroom⟩ himpossible, fun _ => ?_⟩
  intro fuel instructions e hok
  cases fuel with
  | zero => exact lift_fail_ne_ok hok
  | succ fuel =>
    obtain ⟨added, m, hadded, -⟩ := bind_eq_ok.mp hok
    exact h added m hadded

/-- A statement was read again, and so are those that follow. -/
theorem cons {added added' : Statement} {e : Draft} {s : ParameterTable}
    (h : Repeats body i rest b (count + added'.body.length) e)
    (hread : statement count d = .ok added' e) (halike : added.Alike s e.parameters added')
    (hgrows : i.parameters.Extends s) (hextends : e.parameters.Extends d.parameters) :
    Repeats (added.body ++ body) i rest b count d := by
  have hbodies := halike.body
  have hlength : count + (added.body ++ body).length =
      count + added'.body.length + body.length := by
    rw [List.length_append, ← Nat.add_assoc, hbodies.length_eq]
  constructor
  · intro hcompatible hroom
    rw [hlength] at hroom
    obtain ⟨body', f, hpasses, hbehind, hjoined, hextends', halikes⟩ := h.passed hcompatible hroom
    refine ⟨added'.body ++ body', f, .cons hread halike.inner hpasses, hbehind, hjoined,
      hextends.trans hextends', List.rel_append ?_ halikes⟩
    exact hbodies.imp fun _ _ hins => hins.extends hgrows hextends'
  · intro hnot fuel instructions f hok
    rw [hlength] at hnot
    cases fuel with
    | zero => exact lift_fail_ne_ok hok
    | succ fuel =>
      obtain ⟨following, hfollowing, -⟩ := (statements_succ hread halike.inner).mp hok
      exact h.impossible hnot fuel following f hfollowing

end Repeats

/-- Statements that were passed once are passed behind another text as well, exactly if the two
texts are compatible and there is room for them. -/
theorem Passes.again {count : Nat} {d e : Draft} {body : List Instruction}
    (h : Passes count d body e) : d.inventory.Grows e.inventory ∧
      ∃ text, d.cursor.rest = text ++ e.cursor.rest ∧ ∀ (v : List Char) (b : Inventory)
        (count' : Nat) (d' : Draft), b.Joined d.inventory d'.inventory →
          d'.cursor.ahead = Token.visible (text ++ v) →
            Repeats body e.inventory v b count' d' := by
  induction h with
  | nil count d =>
    refine ⟨.refl _, [], rfl, fun v b count' d' hjoined hahead => ?_⟩
    by_cases hcount : count' < maxInstructions
    · exact ⟨fun _ _ => ⟨[], d', .nil count' d', hahead, hjoined, .refl _, .nil⟩,
        fun hnot => absurd ⟨hjoined.compatible, hcount⟩ hnot⟩
    · exact .refused (fun h => hcount h.2) fun added m hok =>
        hcount (assembles_of_statement hok).1
  | @cons count d m e added body read inner _ ih =>
    obtain ⟨hgrows, first, hfirst, hbuilds⟩ := builds_statement_again read inner
    obtain ⟨hgrows', following, hfollowing, hagain⟩ := ih
    obtain ⟨gap, hgap, hrest⟩ :=
      rest_of_ahead (Cursor.inside_of_mem (c := ';') (by decide) (by rw [hfirst]; simp)) hfirst
    refine ⟨hgrows.trans hgrows', gap ++ (first ++ ';' :: following), ?_, ?_⟩
    · rw [hrest, hfollowing]
      simp only [List.append_assoc, List.cons_append]
    intro v b count' d' hjoined hahead
    have htext : gap ++ (first ++ ';' :: following) ++ v =
        gap ++ (first ++ ';' :: (following ++ v)) := by
      simp only [List.append_assoc, List.cons_append]
    rw [htext, hgap.visible_append] at hahead
    -- the room is checked before the text, and a name that is taken after it
    by_cases hcount : count' < maxInstructions
    · have hdecides := hbuilds (following ++ v) b d'.inventory count' hcount hjoined d' hahead rfl
      by_cases hcompatible : b.Compatible m.inventory
      · obtain ⟨added', m', hread, hahead', hjoined', hextends, halike⟩ :=
          hdecides.success hcompatible
        have hrest' := hagain v b (count' + added'.body.length) m' hjoined' hahead'
        exact hrest'.cons hread halike hgrows'.onward hextends
      · obtain ⟨error, m', hread⟩ := hdecides.failure hcompatible
        refine .refused (fun h => hcompatible (hgrows'.compatible h.1)) fun added' m' hok => ?_
        rw [hread] at hok
        cases hok
    · refine .refused (fun h => hcount ?_) fun added' m' hok =>
        hcount (assembles_of_statement hok).1
      exact Nat.lt_of_le_of_lt (Nat.le_add_right _ _) h.2

end Compile

end FragmentAssembly

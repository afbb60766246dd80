import FragmentAssembly.Proofs.Grammar.Language
import FragmentAssembly.Proofs.Grammar.Mnemonic
import FragmentAssembly.Proofs.Grammar.Parting
import FragmentAssembly.Proofs.Reading.Course
import FragmentAssembly.Proofs.Reading.Repetition

/-!
# Statements and their instructions

The semicolons of a source part its tokens into statements.  A statement is a definition, or it is
one instruction, which lies where the statement begins.
-/

namespace FragmentAssembly

open Grammar

/-! ## Statements of a source -/

def Lexeme.isSemicolon (l : Lexeme) : Bool :=
  l.token = .punctuation ';'

/-- The tokens behind the header, parted at the semicolons. -/
def statementsOf (source : String) : List (List Lexeme) :=
  ((Cursor.ofText source).lexemes.filter ("!!FP1.0".utf8ByteSize ≤ ·.start)).splitOnP
    Lexeme.isSemicolon

/-- Whether a statement defines a parameter. -/
def isDefinition (statement : List Lexeme) : Bool :=
  statement.head?.any fun l => l.token = .identifier "DEFINE" || l.token = .identifier "DECLARE"

namespace Instruction

/-- A name that stands for the instruction: its mnemonic, which spells its opcode and its flags. -/
def Named (ins : Instruction) (name : String) : Prop :=
  if ins.opcode = .halt then name = "END"
  else ∃ pattern s, Pattern.Spells pattern s name ∧ ins.Flagged pattern s

/-- The instruction lies where this token starts, which is its name. -/
def At (ins : Instruction) (l : Lexeme) : Prop :=
  l.start = ins.position ∧ ∃ name, l.token = .identifier name ∧ ins.Named name

def Heads (ins : Instruction) (statement : List Lexeme) : Prop :=
  ∃ l rest, statement = l :: rest ∧ ins.At l

end Instruction

/-! ## Single statements -/

/-- In front of a name there is no digit. -/
theorem Cursor.head_of_name {k : Cursor} {name : String} (hinside : k.inside = [])
    (h : k.next.1 = some (.identifier name)) : k.rest.head?.all (!Char.isDigit ·) = true := by
  cases hrest : k.rest with
  | nil => rfl
  | cons c cs =>
    rw [List.head?_cons, Option.all_some, Bool.not_eq_true']
    by_contra hdigit
    rw [Bool.not_eq_false] at hdigit
    have hlead : Token.lead? k.skipIgnored.rest =
        some (.integer (String.ofList (c :: cs.takeWhile Char.isDigit))) := by
      rw [rest_skipIgnored hinside, ahead_of_inside hinside, hrest,
        Token.visible_of_isSolid (Scan.isSolid_of_isDigit cs hdigit), Token.lead?, if_pos hdigit]
    rw [next_of_some hinside hlead] at h
    cases h

theorem Cursor.Inside.stop {source : String} {k : Cursor} (h : k.Inside source) :
    k.position + bytes k.rest = source.utf8ByteSize := by
  obtain ⟨before, htext, hposition, -⟩ := h.text
  rw [utf8ByteSize_eq_bytes, htext, bytes_append, hposition]

namespace Compile

variable {source name : String} {count : Nat} {d e : Draft} {added : Statement}
  {ins : Instruction}

theorem named_of_instruction (h : instruction name d = .ok ins e) : ins.Named name := by
  obtain ⟨-, pattern, s, hspells, hflagged⟩ := begins_of_instruction h
  rw [Instruction.Named, if_neg]
  · exact ⟨pattern, s, hspells, hflagged⟩
  · rw [hflagged.opcode]
    exact Pattern.opcode_ne_halt pattern hspells.listed

theorem inside_of_statement (h : statement count d = .ok added e) (hd : d.cursor.Inside source) :
    e.cursor.Inside source :=
  kept_of_together (fun _ hc => together_statement hc count) (Cursor.Inside.walk source).abreast
    hd h

/-- The tokens of a statement, up to the semicolon that it ends with. -/
theorem lexemes_of_statement (h : statement count d = .ok added e)
    (hinner : ∀ ins, added ≠ .finish ins) (hd : d.cursor.Inside source) :
    ∃ statement mark, d.cursor.lexemes = statement ++ mark :: e.cursor.lexemes ∧
      mark.isSemicolon = true ∧ ∀ l ∈ statement, ¬l.isSemicolon = true := by
  obtain ⟨hcount, -⟩ := named_of_statement h
  obtain ⟨new, name, mid, _, _, hname, hrest, -⟩ :=
    ((recognizes_statement hcount []).sound h).imp fun _ => And.left
  have hkind : added.kind ≠ .finish := by
    cases added with
    | finish ins => exact absurd rfl (hinner ins)
    | definition => exact StatementKind.noConfusion
    | instruction ins => exact StatementKind.noConfusion
  -- the characters of the statement, as its phrase parts them from what stands behind
  have hparts := Phrase.Parts.after (.word name) (Phrase.Parts.statementRest name hkind)
  obtain ⟨text, behind, hahead, hbehind, hunparted⟩ := hparts _ _ _ ⟨_, _, _, hname, hrest, rfl⟩
  obtain ⟨gap, hgap, hgapped⟩ := rest_of_ahead hd.between hahead
  obtain ⟨before, -, -, hcomment⟩ := hd.text
  have hopen : ¬Token.InComment before := hcomment <| by
    rw [hgapped]
    exact List.append_ne_nil_of_right_ne_nil _
      (List.append_ne_nil_of_right_ne_nil _ (List.cons_ne_nil _ _))
  have hgap' := Token.Unparted.of_gap hopen hgap
  rw [← List.append_assoc] at hgapped
  -- and the tokens that these characters are read as
  obtain ⟨statement, mark, hlexemes, hmark, hstatement⟩ :=
    Cursor.lexemes_part hd.between hopen (hgap'.append (hunparted _ hgap'.closed))
      hgapped hbehind ((inside_of_statement h hd).stop.trans hd.stop.symm)
  refine ⟨statement, mark, hlexemes, decide_eq_true hmark, fun l hl hsemicolon => ?_⟩
  exact hstatement l hl (of_decide_eq_true hsemicolon)

/-- What a statement is can be told from its tokens. -/
theorem heads_of_statement (h : statement count d = .ok added e)
    (hinner : ∀ ins, added ≠ .finish ins) {statement : List Lexeme} {mark : Lexeme}
    (hlexemes : d.cursor.lexemes = statement ++ mark :: e.cursor.lexemes)
    (hmark : mark.isSemicolon = true) :
    if isDefinition statement then added.body = []
    else ∃ ins, added.body = [ins] ∧ ins.Heads statement := by
  obtain ⟨-, name, k, hname, hnamed⟩ := named_of_statement h
  obtain ⟨-, hnext⟩ := next_of_statementName hname
  -- the name is the first token, and so it is no semicolon
  obtain ⟨rest, rfl⟩ : ∃ rest,
      statement = ⟨.identifier name, k.tokenStart, k.position⟩ :: rest := by
    have hfirst := Cursor.lexemes_of_some (congrArg Prod.fst hnext)
    rw [hlexemes, hnext] at hfirst
    cases statement with
    | nil =>
      rw [List.nil_append, List.cons.injEq] at hfirst
      rw [hfirst.1, Lexeme.isSemicolon, decide_eq_true_eq] at hmark
      cases hmark
    | cons first rest =>
      rw [List.cons_append, List.cons.injEq] at hfirst
      exact ⟨rest, by rw [hfirst.1]⟩
  cases hnamed with
  | definition hkeyword =>
    rw [if_pos]
    · rfl
    · rcases hkeyword with ⟨rfl, -⟩ | ⟨rfl, -⟩ <;> rfl
  | finish => exact absurd rfl (hinner _)
  | @instruction f ins hdefine hdeclare read =>
    rw [if_neg]
    · refine ⟨ins, rfl, _, rest, rfl, ?_, name, rfl, named_of_instruction read⟩
      exact (begins_of_instruction read).1.symm
    · simp [isDefinition, hdefine, hdeclare]

end Compile

/-! ## Statements in a row -/

/-- Tokens of whole statements, and the instructions among these. -/
inductive Stretch : List Lexeme → List Instruction → Prop where
  | nil : Stretch [] []
  | definition {statement passed : List Lexeme} {mark : Lexeme} {body : List Instruction}
    (hmark : mark.isSemicolon = true) (hinner : ∀ l ∈ statement, ¬l.isSemicolon = true)
    (hdefinition : isDefinition statement = true) (rest : Stretch passed body) :
    Stretch (statement ++ mark :: passed) body
  | instruction {statement passed : List Lexeme} {mark : Lexeme} {ins : Instruction}
    {body : List Instruction} (hmark : mark.isSemicolon = true)
    (hinner : ∀ l ∈ statement, ¬l.isSemicolon = true) (hother : isDefinition statement = false)
    (hheads : ins.Heads statement) (rest : Stretch passed body) :
    Stretch (statement ++ mark :: passed) (ins :: body)

/-- Whether statements are those of the instructions, but for definitions. -/
def Correspond (statements : List (List Lexeme)) (instructions : List Instruction) : Prop :=
  List.Forall₂ Instruction.Heads instructions (statements.filter (!isDefinition ·))

namespace Stretch

variable {passed more : List Lexeme} {body rest : List Instruction}

theorem correspond_append (h : Stretch passed body)
    (hmore : Correspond (more.splitOnP Lexeme.isSemicolon) rest) :
    Correspond ((passed ++ more).splitOnP Lexeme.isSemicolon) (body ++ rest) := by
  induction h with
  | nil => exact hmore
  | @definition statement passed mark body hmark hinner hdefinition _ ih =>
    rw [List.append_assoc, List.cons_append,
      List.splitOnP_append_cons_of_forall_mem (fun l hl => Bool.eq_false_iff.mpr (hinner l hl)) _
        hmark]
    unfold Correspond
    rw [List.filter_cons_of_neg (by rw [hdefinition]; decide)]
    exact ih
  | @instruction statement passed mark ins body hmark hinner hother hheads _ ih =>
    rw [List.append_assoc, List.cons_append,
      List.splitOnP_append_cons_of_forall_mem (fun l hl => Bool.eq_false_iff.mpr (hinner l hl)) _
        hmark]
    unfold Correspond
    rw [List.filter_cons_of_pos (by rw [hother]; decide)]
    exact .cons hheads ih

/-- Each instruction has a token of its own, in their order. -/
theorem exists_tokens (h : Stretch passed body) :
    ∃ tokens, tokens.Sublist passed ∧ List.Forall₂ Instruction.At body tokens := by
  induction h with
  | nil => exact ⟨[], .slnil, .nil⟩
  | @definition statement passed mark body _ _ _ _ ih =>
    obtain ⟨tokens, hsublist, htokens⟩ := ih
    exact ⟨tokens, (hsublist.cons mark).trans (List.sublist_append_right statement _), htokens⟩
  | @instruction statement passed mark ins body _ _ _ hheads _ ih =>
    obtain ⟨tokens, hsublist, htokens⟩ := ih
    obtain ⟨l, inner, rfl, hl⟩ := hheads
    refine ⟨l :: tokens, ?_, .cons hl htokens⟩
    exact ((hsublist.cons mark).trans (List.sublist_append_right inner _)).cons_cons l

end Stretch

namespace Compile

variable {source : String} {count : Nat} {d e : Draft} {body : List Instruction}

theorem Passes.stretch (h : Passes count d body e) (hd : d.cursor.Inside source) :
    e.cursor.Inside source ∧
      ∃ passed, d.cursor.lexemes = passed ++ e.cursor.lexemes ∧ Stretch passed body := by
  induction h with
  | nil => exact ⟨hd, [], rfl, .nil⟩
  | @cons count d m e added body read inner _ ih =>
    obtain ⟨he, passed, hpassed, hstretch⟩ := ih (inside_of_statement read hd)
    obtain ⟨statement, mark, hlexemes, hmark, hstatement⟩ := lexemes_of_statement read inner hd
    have hheads := heads_of_statement read inner hlexemes hmark
    refine ⟨he, statement ++ mark :: passed, ?_, ?_⟩
    · rw [hlexemes, hpassed, List.append_assoc, List.cons_append]
    · split at hheads
      · rename_i hdefinition
        rw [hheads]
        exact .definition hmark hstatement hdefinition hstretch
      · rename_i hother
        obtain ⟨ins, hbody, hins⟩ := hheads
        rw [hbody]
        exact .instruction hmark hstatement (Bool.eq_false_iff.mpr hother) hins hstretch

/-- The `END` is the last token. -/
theorem lexemes_of_finish {ins : Instruction} (h : statement count d = .ok (.finish ins) e) :
    ∃ l, d.cursor.lexemes = [l] ∧ l.token = .identifier "END" ∧ ins.At l ∧
      ins = { opcode := .halt, position := l.start } := by
  obtain ⟨-, name, k, hname, hnamed⟩ := named_of_statement h
  obtain ⟨-, hnext⟩ := next_of_statementName hname
  cases hnamed with
  | finish hend read =>
    obtain ⟨rfl, hnone, -⟩ := finish_eq read
    have hnothing : k.next.1 = none := k.next_eq_peek?.trans hnone
    have hlexemes := Cursor.lexemes_of_some (congrArg Prod.fst hnext)
    rw [hnext, Cursor.lexemes_of_none hnothing] at hlexemes
    subst hend
    exact ⟨_, hlexemes, rfl, ⟨rfl, "END", rfl, rfl⟩, rfl⟩

end Compile

/-! ## Behind the header -/

/-- A cursor with `cs` in front of it. -/
def Cursor.before (cs : List Char) (position : Nat) : Cursor :=
  { Cursor.ofText "" with rest := cs, position }

theorem Cursor.lexemes_before {t : Token} {behind : List Char} (position : Nat)
    (hsolid : Token.isSolid (t.text.toList ++ behind) = true)
    (hlead : Token.lead? (t.text.toList ++ behind) = some t) (hwhole : t.IsWhole) :
    (Cursor.before (t.text.toList ++ behind) position).lexemes =
      ⟨t, position, position + bytes t.text.toList⟩ ::
        (Cursor.before behind (position + bytes t.text.toList)).lexemes := by
  let k := Cursor.before (t.text.toList ++ behind) position
  let after := k.markToken.advance t.text.length
  have hinside : k.markToken.inside = [] := rfl
  have hrest : k.markToken.rest = t.text.toList ++ behind := rfl
  have hstays : k.skipIgnored = k := skipIgnored_of_isSolid hinside hsolid
  have hnext : k.next = (some t, after) := by
    rw [next_of_isWhole (k := k) rfl (by rw [hstays]; exact hlead) hwhole, hstays]
  have hstop : after.position = position + bytes t.text.toList := by
    have hadvance := position_advance hinside hrest
    rwa [String.length_toList] at hadvance
  have hbehind : after.rest = behind := by
    rw [advance_rest, hrest, ← String.length_toList, List.drop_left]
  have hlexemes := lexemes_of_some (congrArg Prod.fst hnext)
  rw [hnext] at hlexemes
  rw [hlexemes, tokenStart_advance, hstop,
    lexemes_congr (l := .before behind _) (advance_inside _ hinside) rfl hstop hbehind]
  rfl

/-- The header has five tokens, and those behind it are left. -/
theorem lexemes_of_header {source : String} {text : List Char}
    (hsource : source.toList = "!!FP1.0".toList ++ text)
    (hready : text.head?.all (!Char.isDigit ·) = true) :
    (Cursor.ofText source).lexemes = [⟨.punctuation '!', 0, 1⟩, ⟨.punctuation '!', 1, 2⟩,
      ⟨.identifier "FP1", 2, 5⟩, ⟨.punctuation '.', 5, 6⟩, ⟨.integer "0", 6, 7⟩] ++
        ((Cursor.ofText source).advance 7).lexemes := by
  have hparts : source.toList = (Token.punctuation '!').text.toList ++
      ((Token.punctuation '!').text.toList ++ ((Token.identifier "FP1").text.toList ++
        ((Token.punctuation '.').text.toList ++ ((Token.integer "0").text.toList ++ text)))) :=
    hsource
  have hnumber : Token.lead? ((Token.integer "0").text.toList ++ text) = some (.integer "0") := by
    have hdigits : ([] ++ text).takeWhile Char.isDigit = [] := takeWhile_of_head rfl hready
    show some (Token.integer (String.ofList ('0' :: text.takeWhile Char.isDigit))) = _
    rw [← List.nil_append text, hdigits]
  have hrest : (Cursor.ofText source).rest = "!!FP1.0".toList ++ text := hsource
  have hstart : (Cursor.ofText source).lexemes = (Cursor.before source.toList 0).lexemes := rfl
  rw [hstart, hparts, Cursor.lexemes_before (t := .punctuation '!') _ rfl rfl rfl,
    Cursor.lexemes_before (t := .punctuation '!') _ rfl rfl rfl,
    Cursor.lexemes_before (t := .identifier "FP1") _ rfl rfl trivial,
    Cursor.lexemes_before (t := .punctuation '.') _ rfl rfl rfl,
    Cursor.lexemes_before _ rfl hnumber trivial]
  refine congrArg ([_, _, _, _, _] ++ ·) (Cursor.lexemes_congr rfl ?_ ?_ ?_)
  · exact Cursor.advance_inside 7 rfl
  · exact (Cursor.position_advance rfl hrest).symm
  · rw [Cursor.advance_rest, hrest]
    rfl

theorem statementsOf_eq {source : String} {text : List Char}
    (hsource : source.toList = "!!FP1.0".toList ++ text)
    (hready : text.head?.all (!Char.isDigit ·) = true) : statementsOf source =
      ((Cursor.ofText source).advance 7).lexemes.splitOnP Lexeme.isSemicolon := by
  have hrest : (Cursor.ofText source).rest = "!!FP1.0".toList ++ text := hsource
  have hposition : ((Cursor.ofText source).advance 7).position = 7 :=
    Cursor.position_advance rfl hrest
  have hbehind : ((Cursor.ofText source).advance 7).lexemes.filter
      ("!!FP1.0".utf8ByteSize ≤ ·.start) = ((Cursor.ofText source).advance 7).lexemes := by
    rw [List.filter_eq_self]
    intro l hl
    have hle := Cursor.position_le_of_mem_lexemes hl
    rw [hposition] at hle
    exact decide_eq_true hle
  rw [statementsOf, lexemes_of_header hsource hready, List.filter_append, hbehind]
  rfl

/-! ## Compiled texts -/

/-- The instructions of a compiled program lie at the names of the statements, one by one. -/
structure Program.Follows (p : Program) (source : String) : Prop where
  statements : Correspond (statementsOf source) p.instructions
  ended : ∃ place, p.instructions = p.body ++ [{ opcode := .halt, position := place }]
  inner : ∀ ins ∈ p.body, ins.opcode ≠ .halt
  tokens : ∃ tokens, tokens.Sublist (Cursor.ofText source).lexemes ∧
    List.Forall₂ Instruction.At p.instructions tokens
  increasing : (p.instructions.map Instruction.position).Pairwise (· < ·)

theorem Cursor.starts_increasing (source : String) :
    (Cursor.ofText source).lexemes.Pairwise (·.start < ·.start) := by
  have hlexed : Lexed [] (Cursor.ofText source).left (Cursor.ofText source).lexemes :=
    lexed_lexemes (midway_of_inside rfl) rfl (.inl rfl)
  refine hlexed.lossless.increasing.imp_of_mem ?_
  intro l m hl _ hle
  exact Nat.lt_of_lt_of_le (hlexed.lossless.nonempty l hl) hle

/-- How a text that is compiled was read. -/
structure Compile.Run (source : String) (p : Program) (body : List Instruction) (ins : Instruction)
    (e f : Draft) : Prop where
  compiled : compile source = .ok p
  header : ∃ text, source.toList = "!!FP1.0".toList ++ text
  passes : Passes 0 { cursor := (Cursor.ofText source).advance 7 } body e
  finish : statement body.length e = .ok (.finish ins) f
  instructions : p.instructions = body ++ [ins]
  leaves : Compile.program.leaves { cursor := Cursor.ofText source } = f

theorem Compile.exists_run {source : String} {p : Program} (hp : compile source = .ok p) :
    ∃ body ins e f, Run source p body ins e f := by
  obtain ⟨text, htext⟩ := exists_header hp
  obtain ⟨instructions, f, hstatements, -, rfl⟩ := (compile_eq_ok htext).mp hp
  obtain ⟨body, ins, e, rfl, hpasses, hfinish⟩ := passes_of_statements hstatements
  rw [Nat.zero_add] at hfinish
  refine ⟨body, ins, e, f, hp, ⟨text, htext⟩, hpasses, hfinish, rfl, ?_⟩
  have hdrop : source.toList.drop 7 = text := by
    rw [htext]
    rfl
  rw [leaves, program_of_header (headerTests_fst.mpr ⟨text, htext⟩), hdrop, hstatements]

namespace Compile.Run

variable {source : String} {p : Program} {body : List Instruction} {ins : Instruction}
  {e f : Draft}

/-- The tokens behind the header are those of statements and the `END`. -/
theorem stretch (h : Run source p body ins e f) :
    ∃ passed l, ((Cursor.ofText source).advance 7).lexemes = passed ++ [l] ∧
      Stretch passed body ∧ l.token = .identifier "END" ∧ ins.At l ∧
      ins = { opcode := .halt, position := l.start } := by
  obtain ⟨text, htext⟩ := h.header
  obtain ⟨-, passed, hpassed, hstretch⟩ :=
    h.passes.stretch (Cursor.inside_of_header (headerTests_fst.mpr ⟨text, htext⟩))
  obtain ⟨l, hl, hend, hat, hins⟩ := lexemes_of_finish h.finish
  rw [hl] at hpassed
  exact ⟨passed, l, hpassed, hstretch, hend, hat, hins⟩

theorem body_eq (h : Run source p body ins e f) : p.body = body := by
  obtain ⟨passed, l, -, -, -, -, hins⟩ := h.stretch
  have hinstructions := h.instructions
  rw [hins] at hinstructions
  exact Program.body_eq hinstructions

/-- The first statement begins with a name. -/
theorem text (h : Run source p body ins e f) : ∃ text,
    source.toList = "!!FP1.0".toList ++ text ∧ text.head?.all (!Char.isDigit ·) = true := by
  obtain ⟨text, htext⟩ := h.header
  have hrest : ((Cursor.ofText source).advance 7).rest = text := by
    rw [Cursor.advance_rest]
    show source.toList.drop 7 = text
    rw [htext]
    rfl
  have hfirst : ∃ (count : Nat) (added : Statement) (g : Draft),
      statement count { cursor := (Cursor.ofText source).advance 7 } = .ok added g := by
    cases h.passes with
    | nil => exact ⟨_, _, _, h.finish⟩
    | cons read => exact ⟨_, _, _, read⟩
  obtain ⟨count, added, g, hread⟩ := hfirst
  obtain ⟨-, name, k, hname, -⟩ := named_of_statement hread
  obtain ⟨hinside, hnext⟩ := next_of_statementName hname
  have hhead := Cursor.head_of_name hinside (congrArg Prod.fst hnext)
  refine ⟨text, htext, ?_⟩
  rwa [← hrest]

theorem correspond (h : Run source p body ins e f) :
    Correspond (statementsOf source) p.instructions := by
  obtain ⟨text, htext, hready⟩ := h.text
  obtain ⟨passed, l, hlexemes, hstretch, hend, hat, -⟩ := h.stretch
  have hlast : Correspond ([l].splitOnP Lexeme.isSemicolon) [ins] := by
    rw [List.splitOnP_eq_singleton]
    · unfold Correspond
      have hother : isDefinition [l] = false := by simp [isDefinition, hend]
      rw [List.filter_cons_of_pos (by rw [hother]; decide)]
      exact .cons ⟨l, [], rfl, hat⟩ .nil
    · simp [Lexeme.isSemicolon, hend]
  rw [statementsOf_eq htext hready, hlexemes, h.instructions]
  exact hstretch.correspond_append hlast

theorem exists_tokens (h : Run source p body ins e f) :
    ∃ tokens, tokens.Sublist (Cursor.ofText source).lexemes ∧
      List.Forall₂ Instruction.At p.instructions tokens := by
  obtain ⟨text, htext, hready⟩ := h.text
  obtain ⟨passed, l, hlexemes, hstretch, -, hat, -⟩ := h.stretch
  obtain ⟨tokens, hsublist, htokens⟩ := hstretch.exists_tokens
  refine ⟨tokens ++ [l], ?_, ?_⟩
  · rw [lexemes_of_header htext hready, hlexemes]
    exact (hsublist.append (List.Sublist.refl [l])).trans (List.sublist_append_right _ _)
  · rw [h.instructions]
    exact List.rel_append htokens (.cons hat .nil)

/-- Positions are those of tokens, so they grow as the tokens go on. -/
theorem increasing (h : Run source p body ins e f) :
    (p.instructions.map Instruction.position).Pairwise (· < ·) := by
  obtain ⟨tokens, hsublist, htokens⟩ := h.exists_tokens
  have hstarts : tokens.map Lexeme.start = p.instructions.map Instruction.position :=
    map_eq_of_forall₂ htokens fun _ _ hat => hat.1
  rw [← hstarts, List.pairwise_map]
  exact (Cursor.starts_increasing source).sublist hsublist

theorem follows (h : Run source p body ins e f) : p.Follows source where
  statements := h.correspond
  ended := by
    obtain ⟨passed, l, -, -, -, -, hins⟩ := h.stretch
    exact ⟨l.start, by rw [h.instructions, h.body_eq, ← hins]⟩
  inner inner hinner := by
    obtain ⟨pattern, hlisted, hfits⟩ :=
      ((wellFormed_of_compile h.compiled).instruction inner hinner).fits
    rw [hfits.opcode]
    exact Pattern.opcode_ne_halt pattern hlisted
  tokens := h.exists_tokens
  increasing := h.increasing

end Compile.Run

end FragmentAssembly

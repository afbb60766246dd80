import FragmentAssembly.Proofs.Execution.Equivalence
import FragmentAssembly.Proofs.Inlining.Operand

/-!
# Inlined constants

The value of a constant may stand in the place of its name.  Each source operand that is the name of
a `DEFINE` is written as the literal with the same value, and the program does the same as before.
-/

namespace FragmentAssembly

/-! ## Literals of constants -/

/-- The vector literal for a constant.  A scalar stands for all four components. -/
def braced (constant : List Char) : List Char :=
  if constant.head? = some '\x7b' then constant
  else '\x7b' :: (List.intercalate [',', ' '] (List.replicate 4 constant) ++ ['\x7d'])

namespace Scan

variable {k l : Cursor}

/-- A number is read again from its characters, in front of any stop. -/
theorem exists_number {value : Binary32} (h : number k = .ok value l) :
    ∃ text, k.ahead = text ++ l.rest ∧ ∀ stop, Token.isStop stop = true → ∀ behind,
      number.Reads (text ++ stop :: behind) True value (stop :: behind) := by
  have hinside : k.inside = [] := (onRest_eq_ok.mp h).1
  cases hnumeral : Numeral.ofChars? k.ahead with
  | none =>
    rw [number_of_none hinside hnumeral] at h
    cases h
  | some n =>
    rw [number_of_some hinside hnumeral] at h
    cases h
    obtain ⟨hwell, rest, htext, -⟩ := Numeral.ofChars?_iff.mp hnumeral
    refine ⟨n.chars, ?_, fun stop hstop behind k' hk' => ?_⟩
    · rw [Cursor.advance_rest]
      show k.ahead = n.chars ++ k.skipIgnored.rest.drop n.chars.length
      rw [Cursor.rest_skipIgnored hinside, htext, List.drop_left]
    · have hk'' := Cursor.inside_of_ahead hk'
      rw [Token.visible_append _ (isSolid_chars hwell)] at hk'
      have halone : Numeral.ofChars? n.chars = some n :=
        Numeral.ofChars?_of_append (htext ▸ hnumeral) le_rfl
      have hends : Numeral.isNumeralChar stop = false := Token.eq_of_isStop rfl hstop
      have hread : Numeral.ofChars? k'.ahead = some n := by
        rw [hk', Numeral.ofChars?_front (Token.head_of_eq_false hends behind), halone]
      exact .of_ok (number_of_some hk'' hread) ⟨rfl, Cursor.ahead_advance hk'' hk'⟩

/-- What stands behind a component: the same one `count` more times, and the closing brace. -/
def moreText (text : List Char) (count : Nat) (behind : List Char) : List Char :=
  (List.replicate count (',' :: ' ' :: text)).flatten ++ '\x7d' :: behind

theorem moreText_succ (text : List Char) (count : Nat) (behind : List Char) :
    moreText text (count + 1) behind = ',' :: ' ' :: (text ++ moreText text count behind) := by
  simp [moreText, List.replicate_succ]

theorem exists_stop_moreText (text : List Char) (count : Nat) (behind : List Char) :
    ∃ stop more, Token.isStop stop = true ∧ moreText text count behind = stop :: more := by
  cases count with
  | zero => exact ⟨'\x7d', behind, rfl, rfl⟩
  | succ count => exact ⟨',', _, rfl, moreText_succ text count behind⟩

section Components

variable {text : List Char} {value : Binary32}
  (h : ∀ stop, Token.isStop stop = true → ∀ behind,
    number.Reads (text ++ stop :: behind) True value (stop :: behind))

include h

theorem reads_number_moreText (count : Nat) (behind : List Char) :
    number.Reads (text ++ moreText text count behind) True value (moreText text count behind) := by
  obtain ⟨stop, more, hstop, hmore⟩ := exists_stop_moreText text count behind
  rw [hmore]
  exact h stop hstop more

/-- The same number, time and again. -/
theorem reads_moreComponents_moreText (count : Nat) (behind : List Char) :
    (moreComponents count).Reads (moreText text count behind) True (List.replicate count value)
      ('\x7d' :: behind) := by
  induction count with
  | zero => exact .pure [] _
  | succ count ih =>
    rw [moreText_succ]
    have hnumber := reads_number_moreText h count behind
    refine (reads_accept_char rfl rfl _).andThen ?_
    refine (hnumber.congr_text (Token.visible_blank _ rfl)).andThen ?_
    exact ih.andThen (.pure _ _)

/-- A number in braces four times is read as the vector of it. -/
theorem isLiteral_replicate : IsLiteral (Quad.replicate value)
    ('\x7b' :: (List.intercalate [',', ' '] (List.replicate 4 text) ++ ['\x7d'])) := by
  refine ⟨_, rfl, fun behind => ?_⟩
  have hsplit : List.intercalate [',', ' '] (List.replicate 4 text) ++ ['\x7d'] ++ behind =
      text ++ moreText text 3 behind := by
    simp [List.intercalate, moreText]
  rw [hsplit]
  refine (reads_number_moreText h 3 behind).andThen ?_
  refine (reads_moreComponents_moreText h 3 behind).andThen ?_
  exact (reads_expect_char rfl rfl behind).andThen (.pure _ behind)

end Components

/-- A vector is read again from its text. -/
theorem isLiteral_vector {k' : Cursor} {value : Vec4} (hbrace : expect "\x7b" k = .ok () k')
    (h : vectorRest k' = .ok value l) :
    IsLiteral value (k.skipIgnored.upTo l) ∧
      (k.skipIgnored.upTo l).head? = some '\x7b' := by
  simp only [vectorRest, bind_eq_ok, pure_eq_ok] at h
  obtain ⟨first, k₁, hfirst, more, k₂, hmore, _, l, hend, rfl, rfl⟩ := h
  have hahead : k₂.ahead = [] ++ '\x7d' :: l.rest := Compile.ahead_of_expect rfl hend
  obtain ⟨components, hcomponents, hreads⟩ := isLocal_moreComponents 3 hmore rfl hahead
  obtain ⟨text, htext, hreads'⟩ := isLocal_number hfirst rfl hcomponents
  obtain ⟨gap, -, hrest, hupTo⟩ := Compile.exists_upTo rfl htext
  have hvector : k.skipIgnored.upTo l = '\x7b' :: k'.upTo l := by
    refine Cursor.upTo_eq ?_
    have hopens : k.ahead = '\x7b' :: k'.rest := Compile.ahead_of_expect rfl hbrace
    have hinside : k.inside = [] := by
      apply Cursor.inside_of_isSolid
      rw [hopens]
      rfl
    rw [Cursor.rest_skipIgnored hinside, hopens, hrest, hupTo]
    simp
  refine ⟨⟨_, hvector, fun behind => ?_⟩, by rw [hvector, List.head?_cons]⟩
  refine Reads.congr_text (Compile.visible_upTo rfl htext behind) ?_
  refine (hreads' behind).andThen ((hreads behind).andThen ?_)
  exact (reads_expect_char rfl rfl behind).andThen (.pure _ behind)

/-- The literal for a constant has the value of the constant. -/
theorem isLiteral_braced {value : Vec4} (h : constant k = .ok value l) :
    IsLiteral value (braced (k.skipIgnored.upTo l)) := by
  obtain ⟨found, k', hfound, h⟩ := bind_eq_ok.mp h
  have hinside : k.inside = [] := (onRest_eq_ok.mp hfound).1
  -- a vector keeps its braces, and a scalar gets some
  cases found with
  | true =>
    obtain ⟨hliteral, hhead⟩ :=
      isLiteral_vector (bind_eq_ok.mpr ⟨true, k', hfound, rfl⟩) (within_eq_ok.mp h)
    rwa [braced, if_pos hhead]
  | false =>
    obtain ⟨rfl, hhead⟩ : k' = k.skipIgnored ∧ k.ahead.head? ≠ some '\x7b' := by
      rw [accept_apply _ hinside] at hfound
      split at hfound
      · cases hfound
      · rename_i hother
        cases hfound
        refine ⟨rfl, fun hhead => hother ?_⟩
        obtain ⟨rest, hrest⟩ := List.head?_eq_some_iff.mp hhead
        rw [hrest]
        rfl
    simp only [Bool.false_eq_true, if_false, within_eq_ok, bind_eq_ok, pure_eq_ok] at h
    obtain ⟨number, l, hnumber, rfl, rfl⟩ := h
    obtain ⟨text, htext, hreads⟩ := exists_number hnumber
    rw [Cursor.ahead_skipIgnored] at htext
    have hplain : text.head? ≠ some '\x7b' := by
      cases text with
      | nil => simp
      | cons c text =>
        rw [htext] at hhead
        exact hhead
    rw [Cursor.upTo_eq (by rw [Cursor.rest_skipIgnored hinside]; exact htext), braced,
      if_neg hplain]
    exact isLiteral_replicate hreads

end Scan

/-! ## Defined constants -/

namespace Compile

/-- The name that a `DEFINE` gives, and the text of its constant. -/
def defined : Scan (String × List Char) := do
  if (← statementName) = "DEFINE" then
    let name ← Scan.identifier
    Scan.expect "="
    let start := (← get).skipIgnored
    let _ ← Scan.constant
    return (name, start.upTo (← get))
  else
    Scan.fail .unexpectedToken

variable {d e : Draft} {name : String}

/-- The name is entered with the value of the constant. -/
theorem entry_of_definition {k l m : Cursor} {value : Vec4} {a : Unit}
    (h : definition .constant d = .ok a e) (hname : Scan.identifier d.cursor = .ok name k)
    (hmark : Scan.expect "=" k = .ok () l) (hconstant : Scan.constant l = .ok value m) :
    e.parameters.get? d.parameters.size = some ⟨some name, .constant, value⟩ := by
  have hvalue : definitionValue .constant k = .ok value m :=
    bind_eq_ok.mpr ⟨(), l, hmark, hconstant⟩
  simp only [definition, bind_eq_ok, lift_eq_ok] at h
  obtain ⟨_, _, ⟨_, hname', rfl⟩, h⟩ := h
  obtain ⟨rfl, rfl⟩ := EStateM.Result.ok.inj (hname'.symm.trans hname)
  split at h
  · exact (lift_fail_ne_ok h).elim
  simp only [bind_eq_ok, get_eq_ok] at h
  obtain ⟨_, _, ⟨rfl, rfl⟩, h⟩ := h
  split at h
  · exact (lift_fail_ne_ok h).elim
  simp only [bind_eq_ok, lift_eq_ok, addNamed, modifyGet_eq_ok, note, modify_eq_ok] at h
  obtain ⟨_, _, ⟨_, hvalue', rfl⟩, _, _, ⟨_, -, rfl⟩, _, _, ⟨rfl, rfl⟩, rfl⟩ := h
  obtain ⟨rfl, rfl⟩ := EStateM.Result.ok.inj (hvalue'.symm.trans hvalue)
  simp [ParameterTable.addNamed, ParameterTable.get?, ParameterTable.size]

theorem entry_of_defined {count : Nat} {added : Statement} {constant : List Char} {l : Cursor}
    (h : statement count d = .ok added e) (hdefined : defined d.cursor = .ok (name, constant) l) :
    ∃ index entry, e.parameters.get? index = some entry ∧ entry.name = some name ∧
      IsLiteral entry.value (braced constant) := by
  obtain ⟨word, k, hword, hdefined⟩ := bind_eq_ok.mp hdefined
  split at hdefined
  · subst word
    simp only [bind_eq_ok, get_eq_ok, pure_eq_ok, Prod.mk.injEq] at hdefined
    obtain ⟨found, k₁, hname, _, k₂, hmark, _, _, ⟨rfl, rfl⟩, value, k₃, hconstant, _, _,
      ⟨rfl, rfl⟩, ⟨rfl, rfl⟩, rfl⟩ := hdefined
    obtain ⟨-, _, _, hword', hnamed⟩ := named_of_statement h
    obtain ⟨rfl, rfl⟩ := EStateM.Result.ok.inj (hword'.symm.trans hword)
    cases hnamed with
    | definition hkeyword _ read =>
      obtain ⟨-, rfl⟩ := hkeyword.resolve_right fun h => absurd h.1 (by decide)
      exact ⟨_, _, entry_of_definition read hname hmark hconstant, rfl,
        Scan.isLiteral_braced hconstant⟩
    | finish hend => exact absurd hend (by decide)
    | instruction hdefine => exact absurd rfl hdefine
  · exact (fail_eq_ok.mp hdefined).elim

end Compile

/-- A `DEFINE` in the source gives the name to the constant. -/
def Defines (source name : String) (constant : List Char) : Prop :=
  ∃ body d, Compile.Passes 0 (.start source) body d ∧
    Compile.defined.run' d.cursor = some (name, constant)

/-- The name is entered with the value of the constant, and stays. -/
theorem Defines.entry {source name : String} {constant : List Char}
    {instructions : List Instruction} {e : Draft} {fuel : Nat} (h : Defines source name constant)
    (hok : Compile.statements fuel 0 (.start source) = .ok instructions e) :
    ∃ index entry, e.parameters.get? index = some entry ∧ entry.name = some name ∧
      IsLiteral entry.value (braced constant) := by
  obtain ⟨body, d, hpasses, hnamed⟩ := h
  obtain ⟨l, hdefined⟩ : ∃ l, Compile.defined d.cursor = .ok (name, constant) l := by
    delta EStateM.run' EStateM.run at hnamed
    cases hresult : Compile.defined d.cursor with
    | ok found l =>
      rw [hresult] at hnamed
      exact ⟨l, by rw [Option.some.inj hnamed]⟩
    | error e l =>
      rw [hresult] at hnamed
      cases hnamed
  -- the definition is a statement of the text, so its entry is in every later table
  obtain ⟨fuel', rest, -, hrest⟩ := hpasses.statements_ok hok
  cases fuel' with
  | zero => exact (Compile.lift_fail_ne_ok hrest).elim
  | succ fuel' =>
    obtain ⟨added, m, hadded, hmore⟩ := bind_eq_ok.mp hrest
    obtain ⟨index, entry, hentry, hname, hliteral⟩ := Compile.entry_of_defined hadded hdefined
    refine ⟨index, entry, ParameterTable.Extends.get? ?_ hentry, hname, hliteral⟩
    by_cases hfinish : ∃ ins, added = .finish ins
    · obtain ⟨ins, rfl⟩ := hfinish
      obtain ⟨-, rfl⟩ := pure_eq_ok.mp hmore
      exact .refl _
    · obtain ⟨_, hmore, -⟩ := (Compile.statements_succ hadded (not_exists.mp hfinish)).mp hrest
      exact (Compile.grows_of_statements hmore).onward

/-! ## Inlined programs -/

/-- The text with the literal in the place of the name, wherever this is a source operand. -/
def inlined (source name : String) (literal : List Char) : String :=
  let start := Draft.start source
  match Edit.statements (inlineSource name literal) (start.cursor.rest.length + 1) 0 start with
  | .ok text _ => String.ofList (source.toList.take 7 ++ text)
  | .error _ _ => source

/-- The instructions of both programs are the same up to where they stand, and up to the parameters
that they read the same values of. -/
structure Program.SameValues (p q : Program) : Prop where
  instructions : List.Forall₂
    (Compile.Instruction.Matches Source.SameValue p.parameters q.parameters) p.instructions
    q.instructions
  inputsRead : q.inputsRead = p.inputsRead
  outputsWritten : q.outputsWritten = p.outputsWritten
  textures : q.textures = p.textures
  localParameters : q.localParameters = p.localParameters
  named : q.parameters.named = p.parameters.named

/-- No source operand is the name of this parameter. -/
def Program.Avoids (p : Program) (name : String) : Prop :=
  ∀ ins ∈ p.instructions, ∀ s ∈ ins.sources,
    ¬p.parameters.Denotes s.register (some (.name name))

theorem Readable.SameValue.equivalent {a b : Readable} {s t : ParameterTable}
    (h : a.SameValue s t b) : a.Equivalent s t b := by
  cases h with
  | register hregister =>
    cases a with
    | temporary i => exact .temporary i
    | input i => exact .input i
    | localParameter i => exact .localParameter i
    | parameter i => exact absurd rfl (hregister i)
  | parameter hi hj hvalue =>
    refine .parameter ?_
    rw [ParameterTable.value_of_get? hi, ParameterTable.value_of_get? hj, hvalue]

theorem Source.SameValue.equivalent {a b : Source} {s t : ParameterTable}
    (h : a.SameValue b s t) : a.Equivalent s t b := by
  refine ⟨h.register.equivalent, ?_, ?_, ?_, ?_⟩
  all_goals rw [h.same]

theorem Program.SameValues.equivalent {p q : Program} (h : p.SameValues q) : p.Equivalent q := by
  refine ⟨h.instructions.imp fun a b hins => ?_, h.inputsRead, h.outputsWritten, h.localParameters⟩
  refine ⟨?_, hins.sources.imp fun _ _ => Source.SameValue.equivalent, ?_, ?_, ?_, ?_, ?_⟩
  all_goals rw [hins.same]

/-- If a constant is inlined, then the source is still accepted, no operand names the constant any
more, and the program does the same. -/
theorem compile_inlined {source name : String} {constant : List Char} {p : Program}
    (hcompile : compile source = .ok p) (hdefines : Defines source name constant) :
    ∃ q, compile (inlined source name (braced constant)) = .ok q ∧ q.Avoids name ∧
      p.SameValues q ∧ p.RunsLike q := by
  obtain ⟨rest, hrest⟩ := exists_header hcompile
  obtain ⟨instructions, e, hok, hwrites, rfl⟩ := (compile_eq_ok hrest).mp hcompile
  obtain ⟨index, entry, hentry, hname, hliteral⟩ := hdefines.entry hok
  have hsound : e.parameters.IsSound :=
    (isRegular_of_compile hcompile).isSound (sharesLiterals_of_compile hcompile)
  have hcompatible : Inventory.Compatible {} e.inventory :=
    .of_empty (bounds_of_compile hcompile).2.1
  -- the statements are written with the literal, and read again
  obtain ⟨text, g, htext, hagain⟩ := Compile.again_statements (Source.lasts_inlined name)
    (Compile.keeps_inlineSource hliteral hcompatible hsound hentry hname rfl) hcompatible hok
    (.refl _)
  have hinlined : (inlined source name (braced constant)).toList = "!!FP1.0".toList ++ text := by
    unfold inlined
    dsimp only
    rw [Draft.rest_start hrest, show Edit.statements _ _ 0 (.start source) = _ from htext, hrest]
    exact String.toList_ofList
  have hnothing : Inventory.Joined {} {} {} := .nothing ParameterTable.isRegular_empty rfl
  obtain ⟨body, e', ins, f, hpasses, hlast, hjoined, -, hall⟩ :=
    hagain (.start _) hnothing (Draft.ahead_start hinlined)
  have hstatements := hpasses.statements_eq hlast
  rw [Draft.rest_start hinlined] at hstatements
  obtain ⟨hinputs, houtputs, htextures, hnamed⟩ := hjoined.same_of_empty
  have hsame : (e.program source instructions).SameValues
      (f.program (inlined source name (braced constant)) (body ++ [ins])) :=
    ⟨hall.imp fun _ _ hins => hins.imp fun hsource => hsource.sameValue, hinputs, houtputs,
      htextures, rfl, hnamed⟩
  have hagain := (compile_eq_ok hinlined).mpr ⟨_, f, hstatements,
    (congrArg (· ≠ 0) houtputs).mpr hwrites, rfl⟩
  have hsound' : f.parameters.IsSound :=
    (isRegular_of_compile hagain).isSound (sharesLiterals_of_compile hagain)
  have havoids :
      (f.program (inlined source name (braced constant)) (body ++ [ins])).Avoids name := by
    intro _ hins _ hs
    obtain ⟨_, -, hmatches⟩ := exists_of_forall₂ hall.flip hins
    obtain ⟨_, -, hsource⟩ := exists_of_forall₂ hmatches.sources.flip hs
    exact hsource.avoids.not_denotes hsound'
  exact ⟨_, hagain, havoids, hsame, hsame.equivalent.runsLike (wellFormed_of_compile hcompile)⟩

/-- A scalar under signs and bars, without its letter, and as a vector. -/
def shadeText : String :=
  "!!FP1.0 DEFINE shade = -0.5;\nMULX R0, f[COL0], -|shade.x|;\n"
    ++ "RCP R1.x, shade;\nADD o[COLR], R0, shade; END"

example : inlined shadeText "shade" (braced "-0.5".toList) =
    "!!FP1.0 DEFINE shade = -0.5;\nMULX R0, f[COL0], -|\x7b-0.5, -0.5, -0.5, -0.5\x7d.x|;\n"
      ++ "RCP R1.x, \x7b-0.5, -0.5, -0.5, -0.5\x7d;\n"
      ++ "ADD o[COLR], R0, \x7b-0.5, -0.5, -0.5, -0.5\x7d; END" := by
  decide +kernel

theorem compile_inlined_shade : ∃ p q, compile shadeText = .ok p ∧
    Defines shadeText "shade" "-0.5".toList ∧
    compile (inlined shadeText "shade" (braced "-0.5".toList)) = .ok q ∧ q.Avoids "shade" ∧
    p.SameValues q ∧ p.RunsLike q := by
  obtain ⟨p, hp⟩ : ∃ p, compile shadeText = .ok p := exists_of_isOk (by decide +kernel)
  have hdefines : Defines shadeText "shade" "-0.5".toList :=
    ⟨[], _, .nil 0 _, by decide +kernel⟩
  obtain ⟨q, hq, havoids, hvalues, hruns⟩ := compile_inlined hp hdefines
  exact ⟨p, q, hp, hdefines, hq, havoids, hvalues, hruns⟩

end FragmentAssembly

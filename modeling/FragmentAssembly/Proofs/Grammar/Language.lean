import FragmentAssembly.Proofs.Grammar.Statement
import FragmentAssembly.Proofs.Reading.Lockstep

/-!
# The language that is compiled

A text is compiled if and only if the grammar derives it and its mentions agree, it has room for
the `END`, and it writes some output.  The temporaries of the text exist, unless the number of one
overflows.
-/

namespace FragmentAssembly

open Grammar

theorem headerTests_fst {cs : List Char} :
    (headerTests cs).1 = true ↔ ∃ text, cs = "!!FP1.0".toList ++ text := by
  rw [headerTests, List.isPrefixOf_iff_prefix]
  constructor
  · rintro ⟨text, h⟩
    exact ⟨text, h.symm⟩
  · rintro ⟨text, h⟩
    exact ⟨text, h.symm⟩

/-- The outputs are those that were mentioned. -/
theorem Inventory.Records.outputsWritten_ne_zero {i : Inventory} {ms : List Mention}
    (h : i.Records ms) : i.outputsWritten ≠ 0 ↔ ∃ o, Mention.write o ∈ ms := by
  constructor
  · intro hne
    obtain ⟨n, hn⟩ := Nat.exists_testBit_of_ne_zero hne
    obtain ⟨o, -, ho⟩ := (h.output n).mp hn
    exact ⟨o, ho⟩
  · rintro ⟨o, ho⟩ hzero
    have hbit := (h.output o.val).mpr ⟨o, rfl, ho⟩
    rw [hzero, Nat.zero_testBit] at hbit
    cases hbit

/-- The cursor behind the header, and what it sees. -/
theorem ahead_header {source : String} {text : List Char}
    (h : source.toList = "!!FP1.0".toList ++ text) :
    ((Cursor.ofText source).advance 7).ahead = Token.visible text := by
  rw [Cursor.ahead_of_inside (Cursor.advance_inside 7 rfl), Cursor.advance_rest]
  show Token.visible (source.toList.drop 7) = _
  rw [h]
  rfl

theorem exists_header {source : String} {p : Program} (h : compile source = .ok p) :
    ∃ text, source.toList = "!!FP1.0".toList ++ text := by
  apply headerTests_fst.mp
  cases hheader : (headerTests source.toList).1 with
  | false =>
    rw [Compile.compile_of_no_header hheader] at h
    cases h
  | true => rfl

/-- A text with the header is compiled if its statements are read and write some output. -/
theorem compile_eq_ok {source : String} {text : List Char} {p : Program}
    (h : source.toList = "!!FP1.0".toList ++ text) :
    compile source = .ok p ↔ ∃ instructions d,
      Compile.statements (text.length + 1) 0 { cursor := (Cursor.ofText source).advance 7 } =
        .ok instructions d ∧ d.outputsWritten ≠ 0 ∧ d.program source instructions = p := by
  have hdrop : source.toList.drop 7 = text := by
    rw [h]
    rfl
  unfold compile compilation
  rw [Compile.program_of_header (headerTests_fst.mpr ⟨text, h⟩), hdrop]
  cases Compile.statements (text.length + 1) 0 { cursor := (Cursor.ofText source).advance 7 } with
  | error e d => simp only [Draft.failure, reduceCtorEq, false_and, exists_false]
  | ok instructions d =>
    dsimp only
    rw [Draft.result_success]
    constructor
    · intro hok
      split at hok
      · cases hok
      · exact ⟨instructions, d, rfl, ‹_›, Except.ok.inj hok⟩
    · rintro ⟨_, _, hsame, houtputs, rfl⟩
      cases hsame
      rw [if_neg houtputs]

/-- A text is compiled if and only if the grammar admits it. -/
theorem exists_admits_iff (source : String) :
    (∃ p, compile source = .ok p) ↔ ∃ ms, Admits source ms := by
  constructor
  · -- the mentions are those of the phrases that were read, one after the other
    rintro ⟨p, hp⟩
    cases hheader : (headerTests source.toList).1 with
    | false =>
      rw [Compile.compile_of_no_header hheader] at hp
      cases hp
    | true =>
      obtain ⟨text, htext⟩ := headerTests_fst.mp hheader
      unfold compile compilation at hp
      rw [Compile.program_of_header hheader] at hp
      split at hp
      · rename_i instructions d hok
        rw [Draft.result_success] at hp
        split at hp
        · cases hp
        · rename_i houtputs
          obtain ⟨ms, n, hstatements, hgathers, hcount⟩ := Compile.statements_of_ok hok
          obtain ⟨hconsistent, hrecords⟩ := hgathers [] Inventory.records_empty
          rw [ahead_header htext] at hstatements
          rw [Nat.zero_add] at hcount
          exact ⟨ms, n, ⟨text, _, htext, skips_visible text, hstatements⟩, hconsistent, hcount,
            hrecords.outputsWritten_ne_zero.mp houtputs⟩
      · cases hp
  · rintro ⟨ms, n, ⟨text, cs, htext, hskips, hstatements⟩, hconsistent, hcount, houtputs⟩
    have hahead : ((Cursor.ofText source).advance 7).ahead = Token.visible cs := by
      rw [ahead_header htext, skips_iff.mp hskips, Token.visible_visible]
    -- there is as much fuel as text
    have hfuel : ((Cursor.ofText source).advance 7).rest.length <
        (source.toList.drop 7).length + 1 := by
      rw [Cursor.advance_rest]
      exact Nat.lt_succ_self _
    rw [← Nat.zero_add n] at hcount
    obtain ⟨instructions, d, hok, hrecords⟩ :=
      Compile.statements_ok (d := { cursor := (Cursor.ofText source).advance 7 }) hstatements hfuel
        hahead hcount Inventory.records_empty hconsistent
    have hne : d.outputsWritten ≠ 0 := hrecords.outputsWritten_ne_zero.mpr houtputs
    refine ⟨d.program source instructions, ?_⟩
    unfold compile compilation
    rw [Compile.program_of_header (headerTests_fst.mpr ⟨text, htext⟩), hok]
    dsimp only
    rw [Draft.result_success, if_neg hne]

/-- The mentions of temporaries that are allowed. -/
theorem Grammar.Consistent.temporary {before ms : List Mention} (h : Consistent before ms)
    {name : String} (hname : .temporary name ∈ ms) : IsTemporary name ∨ Overflows name := by
  induction ms generalizing before with
  | nil => cases hname
  | cons m ms ih =>
    rcases List.mem_cons.mp hname with rfl | hname
    · exact h.1
    · exact ih h.2 hname

/-- Every text of the language is compiled.  No other text is, unless it has the number of a
temporary that overflows; of these texts nothing is said. -/
theorem compile_language (source : String) :
    (InLanguage source → ∃ p, compile source = .ok p) ∧
      ((∃ p, compile source = .ok p) → InLanguage source ∨ InOverflow source) := by
  rw [exists_admits_iff]
  refine ⟨fun ⟨ms, hadmits, _⟩ => ⟨ms, hadmits⟩, ?_⟩
  rintro ⟨ms, hadmits⟩
  obtain ⟨-, -, hconsistent, -⟩ := id hadmits
  by_cases hall : ∀ name, .temporary name ∈ ms → IsTemporary name
  · exact .inl ⟨ms, hadmits, hall⟩
  · -- a temporary that does not exist is allowed for its overflow alone
    obtain ⟨name, hname⟩ := not_forall.mp hall
    obtain ⟨hmem, hother⟩ := Classical.not_imp.mp hname
    exact .inr ⟨ms, hadmits, name, hmem, (hconsistent.temporary hmem).resolve_left hother⟩

/-- A program whose only temporary is written with a small letter. -/
def smallText : String :=
  "!!FP1.0 MOV r0, f[COL0]; MOV o[COLR], r0; END"

/-- However it is derived, the small letter is mentioned. -/
theorem mem_of_derives_smallText {ms : List Mention} {count : Nat}
    (h : Derives smallText ms count) : .temporary "r0" ∈ ms := by
  obtain ⟨text, cs, htext, hskips, hstatements⟩ := h
  have hcs : cs = "MOV r0, f[COL0]; MOV o[COLR], r0; END".toList := by
    have hbehind : text = " MOV r0, f[COL0]; MOV o[COLR], r0; END".toList :=
      List.append_cancel_left (htext.symm.trans (by decide))
    rw [skips_iff.mp hskips, hbehind]
    decide
  have hfirst : Name "MOV" cs "r0, f[COL0]; MOV o[COLR], r0; END".toList :=
    ⟨by decide, _, hcs, rfl, @Skips.item [' '] _ (by decide) rfl⟩
  have hsecond : Name "r0" "r0, f[COL0]; MOV o[COLR], r0; END".toList
      ", f[COL0]; MOV o[COLR], r0; END".toList :=
    ⟨by decide, _, rfl, rfl, @Skips.item [] _ (by decide) rfl⟩
  cases hstatements with
  | finish hend => exact absurd (hfirst.eq hend.1).1 (by decide)
  | definition first _ =>
    rcases first with ⟨_, _, _, hword, -⟩ | ⟨_, _, _, hword, -⟩ <;>
      exact absurd (hfirst.eq hword.1).1 (by decide)
  | instruction first _ =>
    obtain ⟨pattern, mid, _, _, ⟨name, hmnemonic, hword, -⟩, ⟨mid', before, _, htarget, -, rfl⟩,
      rfl⟩ := first
    obtain ⟨rfl, rfl⟩ := hfirst.eq hword
    obtain ⟨suffixes, hread⟩ := isMnemonic_iff.mp hmnemonic
    have hwrites : pattern.writes = true := by
      have hmove : (readMnemonic "MOV").toOption.map (·.1.writes) = some true := by decide +kernel
      rw [hread] at hmove
      exact Option.some.inj hmove
    rw [destinationOf, if_pos hwrites] at htarget
    obtain ⟨_, _, _, ⟨_, target, _, htarget, -, rfl⟩, -, rfl⟩ := htarget
    suffices .temporary "r0" ∈ target by simp [this]
    rcases htarget with ⟨name, hmem, hother, -⟩ | ⟨_, _, _, hout, -⟩ |
      ⟨name, _, _, _, hother, ⟨-, -, rfl⟩, rfl⟩
    · obtain ⟨rfl, -⟩ := hsecond.eq hother
      exact absurd hmem (by decide)
    · exact absurd (hsecond.eq hout.1).1 (by decide)
    · obtain ⟨rfl, -⟩ := hsecond.eq hother.1
      simp

/-- It is compiled, though no temporary has a capital letter in front of its number. -/
theorem compile_smallText : (∃ p, compile smallText = .ok p) ∧
    ¬∃ ms, Admits smallText ms ∧
      ∀ name, .temporary name ∈ ms → ∃ n, IsNumbered ['R', 'H'] name n := by
  obtain ⟨p, hp, -⟩ : ∃ p, compile smallText = .ok p ∧ p.instructions.length = 3 :=
    exists_of_decide (by decide +kernel)
  refine ⟨⟨p, hp⟩, ?_⟩
  rintro ⟨ms, ⟨count, hderives, -⟩, hcapital⟩
  obtain ⟨n, letter, hletter, digits, htext, -⟩ :=
    hcapital "r0" (mem_of_derives_smallText hderives)
  cases htext
  exact absurd hletter (by decide)

end FragmentAssembly

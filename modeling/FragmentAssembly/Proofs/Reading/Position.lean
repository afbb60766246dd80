import FragmentAssembly.Proofs.Text.Lexemes
import FragmentAssembly.Proofs.Text.Location

/-!
# Positions of errors

A cursor that has passed blanks and comments stands in front of a character that shows, or at the
end of the text.  Errors are reported where a token started or where the next one would, so they lie
at such places; those that say that the text ended lie at its end.
-/

namespace FragmentAssembly

open Token Coupling

/-! ## Runs of a single cursor -/

/-- What holds of the cursors of a run and of the error that it ends with.  A run ends where it
comes to a part of a character. -/
structure Walk (P : Cursor → Prop) (E : ParseError → Prop) : Prop where
  inside : ∀ {k : Cursor}, P k → k.inside = []
  ignored : ∀ {k : Cursor}, P k → P k.skipIgnored
  item : ∀ {k : Cursor} {text behind : List Char}, P k → k.skipIgnored.rest = text ++ behind →
    text.all isVisible = true → P (k.skipIgnored.markToken.advance text.length)
  behind : ∀ {k : Cursor} {cause : ErrorCause}, P k → cause.place = .inside →
    E ⟨cause, k.tokenStart, []⟩
  ahead : ∀ {k : Cursor} {cause : ErrorCause}, P k → cause.place = .inside →
    E ⟨cause, k.skipIgnored.position, []⟩
  missed : ∀ {k : Cursor} {cause : ErrorCause}, P k → k.skipIgnored.rest = [] →
    cause.place = .ending → E ⟨cause, k.skipIgnored.position, []⟩
  within : ∀ {e : ParseError} (around : Construct), E e → E (e.inside around)

theorem ofChars?_all_isNumeralChar {cs : List Char} {n : Numeral}
    (h : Numeral.ofChars? cs = some n) : n.chars.all Numeral.isNumeralChar = true := by
  -- a number does not go on behind the characters of numbers that the text begins with
  have hsplit : Numeral.ofChars? (cs.takeWhile Numeral.isNumeralChar ++
      cs.dropWhile Numeral.isNumeralChar) =
        Numeral.ofChars? (cs.takeWhile Numeral.isNumeralChar) :=
    Numeral.ofChars?_front (head_of_dropWhile Numeral.isNumeralChar cs)
  rw [List.takeWhile_append_dropWhile, h] at hsplit
  obtain ⟨behind, hbehind⟩ := Numeral.chars_prefix hsplit.symm
  have hall : (cs.takeWhile Numeral.isNumeralChar).all Numeral.isNumeralChar = true :=
    List.all_takeWhile
  rw [← hbehind, List.all_append, Bool.and_eq_true] at hall
  exact hall.1

theorem ofChars?_all_isVisible {cs : List Char} {n : Numeral} (h : Numeral.ofChars? cs = some n) :
    n.chars.all isVisible = true := by
  rw [List.all_eq_true]
  intro c hc
  exact isVisible_of_isNumeralChar (List.all_eq_true.mp (ofChars?_all_isNumeralChar h) c hc)

namespace Walk

variable {P : Cursor → Prop} {E : ParseError → Prop} {k : Cursor}

theorem word (h : Walk P E) (hk : P k) {word : String} (hword : isChunk word.toList = true)
    (hbegins : word.toList.isPrefixOf k.skipIgnored.rest = true) :
    P (k.skipIgnored.markToken.advance word.length) := by
  obtain ⟨behind, hbehind⟩ := List.isPrefixOf_iff_prefix.mp hbegins
  rw [isChunk, Bool.and_eq_true] at hword
  rw [← String.length_toList]
  exact h.item hk hbehind.symm hword.2

/-- A part of a character is refused where the character begins. -/
theorem token (h : Walk P E) {missing refused : ErrorCause} (hmissing : missing.place = .ending)
    (hrefused : refused.place = .inside) : (alone P E).Follows Eq Never
      (Scan.wholeToken missing refused) (Scan.wholeToken missing refused) := by
  apply alone_follows
  · intro k t l hk hread
    obtain ⟨hinside, hlead, hwhole, rfl⟩ := Scan.wholeToken_eq_ok.mp hread
    have hne : visible k.rest ≠ [] := by
      intro hnil
      rw [Cursor.ahead_of_inside hinside, hnil] at hlead
      cases hlead
    have hsolid : isSolid k.ahead = true := by
      rw [Cursor.ahead_of_inside hinside]
      exact isSolid_visible hne
    obtain ⟨behind, htext, hfits⟩ := fits_of_lead? hlead hsolid hwhole
    rw [← String.length_toList]
    exact h.item hk ((Cursor.rest_skipIgnored hinside).trans htext) hfits.all_isVisible
  · intro k e l hk hread
    have hinside := h.inside hk
    cases hlead : lead? k.ahead with
    | none =>
      rw [Scan.wholeToken_of_none hinside hlead] at hread
      cases hread
      refine h.missed hk ?_ hmissing
      rw [Cursor.rest_skipIgnored hinside]
      by_contra hne
      obtain ⟨t, ht⟩ := exists_lead? hne
      rw [hlead] at ht
      cases ht
    | some t =>
      by_cases hwhole : t.IsWhole
      · rw [Scan.wholeToken_of_isWhole hinside hlead hwhole] at hread
        cases hread
      · rw [Scan.wholeToken_of_part hinside hlead hwhole] at hread
        cases hread
        exact h.ahead hk hrefused

theorem onRest (h : Walk P E) {α : Type} {D : α → Prop}
    {read : Cursor → EStateM.Result ParseError Cursor α}
    (hok : ∀ k a l, P k → read k = .ok a l → P l)
    (herror : ∀ k e l, P k → read k = .error e l → E e) :
    (alone P E).Follows Eq D (Scan.onRest read) (Scan.onRest read) := by
  apply alone_follows
  · intro k a l hk hread
    rw [onRest_apply (h.inside hk)] at hread
    exact hok k a l hk hread
  · intro k e l hk hread
    rw [onRest_apply (h.inside hk)] at hread
    exact herror k e l hk hread

theorem number (h : Walk P E) : (alone P E).Follows Eq Never Scan.number Scan.number := by
  apply h.onRest
  · intro k a l hk hread
    dsimp only at hread
    split at hread
    · rename_i n hn
      cases hread
      obtain ⟨behind, hbehind⟩ := Numeral.chars_prefix hn
      exact h.item hk hbehind.symm (ofChars?_all_isVisible hn)
    · cases hread
  · intro k e l hk hread
    dsimp only at hread
    split at hread
    · cases hread
    · cases hread
      cases hempty : k.skipIgnored.rest.isEmpty with
      | true => exact h.missed hk (List.isEmpty_iff.mp hempty) rfl
      | false => exact h.ahead hk rfl

/-- A run beside itself is a run abreast. -/
theorem abreast (h : Walk P E) : (alone P E).Abreast where
  alike around he := h.within around he
  last _ h := h
  accept mark hmark := by
    apply h.onRest
    · intro k a l hk hread
      obtain ⟨-, rfl⟩ := EStateM.Result.ok.inj hread
      unfold Cursor.accept
      dsimp only
      split
      · rename_i hbegins
        exact h.word hk hmark hbegins
      · exact h.ignored hk
    · intro k e l _ hread
      cases hread
  acceptWord word hword := by
    apply h.onRest
    · intro k a l hk hread
      obtain ⟨-, rfl⟩ := EStateM.Result.ok.inj hread
      unfold Cursor.acceptWord
      dsimp only
      split
      · rename_i hbegins
        rw [Bool.and_eq_true] at hbegins
        exact h.word hk hword hbegins.1
      · exact h.ignored hk
    · intro k e l _ hread
      cases hread
  peek? := by
    apply h.onRest
    · intro k a l hk hread
      cases hread
      exact hk
    · intro k e l _ hread
      cases hread
  token _ _ hmissing hrefused := h.token hmissing hrefused
  number := h.number
  fail hcause := fun k l hkl => .error (h.behind hkl.2 hcause)
  failAhead hcause := by
    refine ⟨fun k l hkl => ?_, fun _ => False.elim⟩
    obtain ⟨rfl, hk⟩ := hkl
    rw [Scan.failAhead_apply (h.inside hk), Scan.failAhead_apply (h.inside hk)]
    exact .error (h.ahead hk hcause)

end Walk

/-! ## Places in a text -/

/-- A character that is neither blank nor in a comment begins at the byte. -/
def Shows (source : String) (position : Nat) : Prop :=
  ∃ before c after, source.toList = before ++ c :: after ∧ position = bytes before ∧
    ¬(isBlank c = true ∨ InComment (before ++ [c]))

/-- Where an error can lie: at a character that shows, or at the end of the text. -/
def IsSpot (source : String) (position : Nat) : Prop :=
  Shows source position ∨ position = source.utf8ByteSize

/-- The cursor is in the text and between two characters, in no comment unless this is the last one
and has been passed, and the last token started at a spot. -/
structure Cursor.Inside (source : String) (k : Cursor) : Prop where
  between : k.inside = []
  text : ∃ before, source.toList = before ++ k.rest ∧ k.position = bytes before ∧
    (k.rest ≠ [] → ¬InComment before)
  tokenStart : IsSpot source k.tokenStart

/-- An error that lies where its cause says. -/
def ParseError.Lies (source : String) (e : ParseError) : Prop :=
  match e.cause.place with
  | .header => e.position = 0
  | .inside => IsSpot source e.position
  | .ending => e.position = source.utf8ByteSize
  | .nowhere => False

theorem not_passed_of_isVisible {before : List Char} {c : Char} (hc : isVisible c = true)
    (hbefore : ¬InComment before) : ¬(isBlank c = true ∨ InComment (before ++ [c])) := by
  rw [isVisible, Bool.and_eq_true, Bool.not_eq_true'] at hc
  have hshown : [c].all isVisible = true := by
    rw [List.all_cons, isVisible, hc.1, hc.2]
    rfl
  refine not_or_intro ?_ (not_inComment_append hbefore hshown)
  rw [hc.2]
  exact Bool.false_ne_true

namespace Cursor.Inside

variable {source : String} {k : Cursor}

/-- Behind blanks and comments there is a spot. -/
theorem skips (h : k.Inside source) : IsSpot source k.skipIgnored.position ∧
    ∃ before, source.toList = before ++ k.skipIgnored.rest ∧
      k.skipIgnored.position = bytes before ∧ (k.skipIgnored.rest ≠ [] → ¬InComment before) := by
  obtain ⟨before, htext, hposition, hcomment⟩ := h.text
  have hbytes := bytes_skipIgnored_of_inside h.between
  rw [rest_skipIgnored h.between] at hbytes ⊢
  rw [hposition, ← bytes_append, ← htext, ← utf8ByteSize_eq_bytes] at hbytes
  cases hahead : k.ahead with
  | nil =>
    rw [hahead] at hbytes
    refine ⟨.inr hbytes, source.toList, (List.append_nil _).symm, ?_, fun hne => absurd rfl hne⟩
    rw [← utf8ByteSize_eq_bytes]
    exact hbytes
  | cons c after =>
    have hvisible : visible k.rest = c :: after := by rw [← hahead, ahead_of_inside h.between]
    have hne : visible k.rest ≠ [] := by
      rw [hvisible]
      exact List.cons_ne_nil _ _
    have hsolid := isSolid_visible hne
    rw [hvisible] at hsolid
    obtain ⟨gap, hgap, hrest⟩ := exists_gap_of_ne_nil hne
    rw [hvisible] at hrest
    have hopen : ¬InComment (before ++ gap) := hgap.not_inComment <| hcomment <| by
      rw [hrest]
      exact List.append_ne_nil_of_right_ne_nil _ (List.cons_ne_nil _ _)
    have hsplit : source.toList = before ++ gap ++ c :: after := by
      rw [htext, hrest, List.append_assoc]
    have hplace : k.skipIgnored.position = bytes (before ++ gap) := by
      rw [utf8ByteSize_eq_bytes, hsplit, hahead, bytes_append] at hbytes
      exact Nat.add_right_cancel hbytes
    exact ⟨.inl ⟨_, c, after, hsplit, hplace, not_passed_of_isVisible hsolid hopen⟩, _, hsplit,
      hplace, fun _ => hopen⟩

/-- An item that is taken shows. -/
theorem item (h : k.Inside source) {text behind : List Char}
    (hrest : k.skipIgnored.rest = text ++ behind) (hshown : text.all isVisible = true) :
    (k.skipIgnored.markToken.advance text.length).Inside source := by
  obtain ⟨hspot, before, htext, hposition, hcomment⟩ := h.skips
  have hmarked : k.skipIgnored.markToken.rest = text ++ behind := hrest
  have hbetween : k.skipIgnored.markToken.inside = [] := k.skipIgnored_inside.trans h.between
  refine ⟨advance_inside _ hbetween, ⟨before ++ text, ?_, ?_, fun hne => ?_⟩, ?_⟩
  · rw [advance_rest, hmarked, List.drop_left, List.append_assoc, htext, hrest]
  · rw [position_advance hbetween hmarked, bytes_append]
    exact congrArg (· + bytes text) hposition
  · rw [advance_rest, hmarked, List.drop_left] at hne
    refine not_inComment_append (hcomment ?_) hshown
    rw [hrest]
    exact List.append_ne_nil_of_right_ne_nil _ hne
  · rw [tokenStart_advance]
    exact hspot

theorem walk (source : String) : Walk (Cursor.Inside source) (ParseError.Lies source) where
  inside h := h.between
  ignored {k} h := by
    refine ⟨k.skipIgnored_inside.trans h.between, h.skips.2, ?_⟩
    rw [tokenStart_skipIgnored]
    exact h.tokenStart
  item h hrest hshown := h.item hrest hshown
  behind h hcause := by
    unfold ParseError.Lies
    rw [hcause]
    exact h.tokenStart
  ahead h hcause := by
    unfold ParseError.Lies
    rw [hcause]
    exact h.skips.1
  missed {k cause} h hrest hcause := by
    obtain ⟨-, before, htext, hposition, -⟩ := h.skips
    unfold ParseError.Lies
    rw [hcause]
    rw [hrest, List.append_nil] at htext
    rw [utf8ByteSize_eq_bytes, htext]
    exact hposition
  within _ h := h

end Cursor.Inside

/-! ## Compilation -/

theorem not_inComment_nil : ¬InComment [] :=
  List.not_mem_nil

/-- The header shows, and nothing else has been passed behind it. -/
theorem Cursor.inside_of_header {source : String} (h : (headerTests source.toList).1 = true) :
    ((Cursor.ofText source).advance 7).Inside source := by
  have hheader : "!!FP1.0".toList.isPrefixOf source.toList = true := h
  obtain ⟨behind, hbehind⟩ := List.isPrefixOf_iff_prefix.mp hheader
  have hrest : (Cursor.ofText source).rest = "!!FP1.0".toList ++ behind := hbehind.symm
  refine ⟨advance_inside 7 rfl, ⟨"!!FP1.0".toList, ?_, ?_, fun _ => ?_⟩, ?_⟩
  · rw [advance_rest, hrest]
    exact hbehind.symm
  · exact (position_advance rfl hrest).trans (Nat.zero_add _)
  · exact not_inComment_append not_inComment_nil (by decide)
  · rw [tokenStart_advance]
    have hshown := not_passed_of_isVisible (c := '!') (by decide) not_inComment_nil
    exact .inl ⟨[], '!', _, hbehind.symm, rfl, hshown⟩

theorem lies_of_compile {source : String} {e : ParseError} (h : compile source = .error e) :
    e.Lies source := by
  cases htest : (headerTests source.toList).1 with
  | false =>
    rw [Compile.compile_of_no_header htest] at h
    cases h
    unfold headerError
    cases (headerTests source.toList).2 <;> rfl
  | true =>
    -- where an error lies is kept by every item, so it is read off a run beside itself
    have hpairs := Compile.pairs_statements (Cursor.Inside.walk source).abreast
      (d := { cursor := (Cursor.ofText source).advance 7 })
      ⟨⟨rfl, Cursor.inside_of_header htest⟩, rfl⟩ 0
    dsimp only at hpairs
    rw [Cursor.advance_rest] at hpairs
    change (alone _ _).onDraft.Pairs _ _
      (Compile.statements ((source.toList.drop 7).length + 1) 0 _)
      (Compile.statements ((source.toList.drop 7).length + 1) 0 _) at hpairs
    rw [← Compile.program_of_header htest] at hpairs
    unfold compile compilation at h
    generalize Compile.program { cursor := Cursor.ofText source } = x at h hpairs
    cases x with
    | ok instructions d =>
      dsimp only at h
      rw [Draft.result_success] at h
      split at h
      · cases h
        rfl
      · cases h
    | error e' d =>
      cases h
      cases hpairs with
      | error h => exact h
      | last h => exact h.elim

theorem IsSpot.boundary {source : String} {position : Nat} (h : IsSpot source position) :
    ∃ before after, source.toList = before ++ after ∧ position = bytes before := by
  rcases h with ⟨before, c, after, htext, hposition, -⟩ | hend
  · exact ⟨before, c :: after, htext, hposition⟩
  · refine ⟨source.toList, [], (List.append_nil _).symm, ?_⟩
    rw [hend, utf8ByteSize_eq_bytes]

theorem ParseError.Lies.position {source : String} {e : ParseError} (h : e.Lies source) :
    e.position = 0 ∨ IsSpot source e.position := by
  unfold ParseError.Lies at h
  split at h
  · exact .inl h
  · exact .inr h
  · exact .inr (.inr h)
  · exact h.elim

/-- An error lies at the beginning of the text, at a character that shows, or at the end, and so
never inside a character, although characters are read byte by byte: the text is split there when
the error is located, and nothing was read from inside a character before.  Errors of the header lie
at the beginning, and those that say that the text ended at its end. -/
theorem error_position {source : String} {e : ParseError} (h : compile source = .error e) :
    e.cause ≠ .splitCharacter ∧
    (e.position = 0 ∨ e.position = source.utf8ByteSize ∨ Shows source e.position) ∧
    e.position ≤ source.utf8ByteSize ∧ String.Pos.Raw.IsValid source ⟨e.position⟩ ∧
    (∃ before after, source.toList = before ++ after ∧ e.position = bytes before ∧
      Location.splitAtByte e.position source.toList = (before, after)) ∧
    (e.cause = .unexpectedEnd ∨ e.cause = .missingEnd ∨ e.cause = .noOutputsWritten →
      e.position = source.utf8ByteSize) ∧
    (e.cause = .invalidHeader ∨ e.cause = .combinerProgram → e.position = 0) := by
  have hlies := lies_of_compile h
  -- wherever an error lies, the text can be split there
  obtain ⟨before, after, htext, hposition⟩ : ∃ before after, source.toList = before ++ after ∧
      e.position = bytes before := by
    rcases hlies.position with hzero | hspot
    · exact ⟨[], source.toList, rfl, hzero⟩
    · exact hspot.boundary
  have hsize : source.utf8ByteSize = bytes before + bytes after := by
    rw [utf8ByteSize_eq_bytes, htext, bytes_append]
  refine ⟨fun hcause => ?_, ?_, ?_, ?_, ⟨before, after, htext, hposition, ?_⟩, fun hcause => ?_,
    fun hcause => ?_⟩
  · unfold ParseError.Lies at hlies
    rw [hcause] at hlies
    exact hlies
  · rcases hlies.position with hzero | hshows | hend
    · exact .inl hzero
    · exact .inr (.inr hshows)
    · exact .inr (.inl hend)
  · omega
  · refine String.Pos.Raw.isValid_iff_exists_append.mpr
      ⟨String.ofList before, String.ofList after, ?_, ?_⟩
    · rw [← String.ofList_append, ← htext, String.ofList_toList]
    · rw [String.Pos.Raw.ext_iff, hposition]
      show bytes before = (String.ofList before).utf8ByteSize
      rw [utf8ByteSize_eq_bytes, String.toList_ofList]
  · rw [hposition, htext, splitAtByte_append]
  · unfold ParseError.Lies at hlies
    rcases hcause with hcause | hcause | hcause <;>
      · rw [hcause] at hlies
        exact hlies
  · unfold ParseError.Lies at hlies
    rcases hcause with hcause | hcause <;>
      · rw [hcause] at hlies
        exact hlies

/-- The operand is a character of two bytes, behind a comment with another one. -/
theorem error_position_accented :
    compile "!!FP1.0 #é\n MOV é" =
      .error ⟨.invalidDestination, 17, [.destinationRegister, .instruction]⟩ ∧
      Shows "!!FP1.0 #é\n MOV é" 17 := by
  have herror : compile "!!FP1.0 #é\n MOV é" =
      .error ⟨.invalidDestination, 17, [.destinationRegister, .instruction]⟩ := by decide +kernel
  refine ⟨herror, ?_⟩
  rcases (error_position herror).2.1 with h | h | h
  · cases h
  · exact absurd h (by decide +kernel)
  · exact h

end FragmentAssembly

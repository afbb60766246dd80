import FragmentAssembly.Compile.Error
import FragmentAssembly.Proofs.Text.Next

/-!
# Lines of a cursor and lines of a location

A cursor counts lines while it moves, and a location counts them when an error is reported.  A line
feed ends a line for both.  A carriage return without a line feed behind it ends one for the cursor
alone, so it sets the two apart, and nothing else does.
-/

namespace FragmentAssembly

/-- How many carriage returns have no line feed behind them, when `after` follows. -/
def loneReturns (after : List Char) : List Char → Nat
  | [] => 0
  | c :: cs =>
    if c = '\r' ∧ (cs ++ after).head? ≠ some '\n' then loneReturns after cs + 1
    else loneReturns after cs

theorem loneReturns_concat (c : Char) (after cs : List Char) : loneReturns after (cs ++ [c]) =
    loneReturns (c :: after) cs + loneReturns after [c] := by
  induction cs with
  | nil => exact (Nat.zero_add _).symm
  | cons d cs ih =>
    rw [List.cons_append, loneReturns, loneReturns, ih, List.append_assoc, List.singleton_append]
    split
    · exact Nat.add_right_comm _ _ _
    · rfl

/-! ## Moving a cursor -/

/-- The cursors on a text that have been moved in any number of steps.  Whatever is read, a cursor
advances and marks the start of a token, and nothing else. -/
inductive Cursor.Reached (source : String) : Cursor → Prop where
  | start : Reached source (.ofText source)
  | advance {k : Cursor} (n : Nat) (h : Reached source k) : Reached source (k.advance n)
  | byte {k : Cursor} (h : Reached source k) : Reached source k.stepByte
  | mark {k : Cursor} (h : Reached source k) : Reached source k.markToken

/-- The cursor stands behind `before`, or inside the last character of it.  Its line is ahead of
that of a location by the lone carriage returns that it has passed. -/
structure Cursor.Stands (source : String) (before : List Char) (k : Cursor) : Prop where
  text : source.toList = before ++ k.rest
  position : k.position + k.inside.length = bytes before
  inside : k.inside = [] ∨ ∃ front c, before = front ++ [c] ∧ k.inside.length < c.utf8Size
  line : k.line = (before.foldl Location.stepOver (1, 1)).1 + loneReturns k.rest before
  column_le : k.column ≤ (before.foldl Location.stepOver (1, 1)).2
  column : loneReturns k.rest before = 0 →
    k.column = (before.foldl Location.stepOver (1, 1)).2

namespace Cursor

variable {source : String} {k : Cursor}

/-- One character more. -/
theorem Stands.step_cons {before after : List Char} {c : Char} (h : Stands source before k)
    (hrest : k.rest = c :: after) : Stands source (before ++ [c]) k.step := by
  obtain ⟨htext, hposition, -, hline, hle, hcolumn⟩ := h
  rw [hrest] at htext hline hcolumn
  have hsplit : source.toList = before ++ [c] ++ after := by
    rw [List.append_assoc, List.singleton_append]
    exact htext
  have hbytes : k.position + k.inside.length + c.utf8Size = bytes (before ++ [c]) := by
    rw [bytes_append, hposition]
    rfl
  have hlone := loneReturns_concat c after before
  have hplace : (before ++ [c]).foldl Location.stepOver (1, 1) =
      Location.stepOver (before.foldl Location.stepOver (1, 1)) c := by
    rw [List.foldl_append, List.foldl_cons, List.foldl_nil]
  generalize before.foldl Location.stepOver (1, 1) = place at *
  unfold Cursor.step
  rw [hrest]
  dsimp only
  -- a line feed ends a line for both counts, a lone return for the cursor alone, and any other
  -- character for neither
  by_cases hfeed : c = '\n'
  · subst hfeed
    have hnone : loneReturns after ['\n'] = 0 := rfl
    have hends : endsLine '\n' after = true := rfl
    rw [if_pos hends]
    refine ⟨hsplit, hbytes, .inl rfl, ?_, ?_, fun _ => ?_⟩
    · rw [hplace, hlone, hnone, hline]
      show place.1 + _ + 1 = place.1 + 1 + _
      omega
    · rw [hplace]
      exact Nat.le_refl 1
    · rw [hplace]
      rfl
  · have hstep : Location.stepOver place c = (place.1, place.2 + 1) := if_neg hfeed
    by_cases hreturn : c = '\r' ∧ after.head? ≠ some '\n'
    · -- the cursor is on a new line, and a location is not
      have hone : loneReturns after [c] = 1 := if_pos hreturn
      have hends : endsLine c after = true := by simp [endsLine, hreturn]
      rw [if_pos hends]
      refine ⟨hsplit, hbytes, .inl rfl, ?_, ?_, fun hzero => ?_⟩
      · rw [hplace, hstep, hlone, hone, hline]
        rfl
      · rw [hplace, hstep]
        exact Nat.succ_le_succ (Nat.zero_le _)
      · rw [hlone, hone] at hzero
        omega
    · have hnone : loneReturns after [c] = 0 := if_neg hreturn
      have hends : ¬endsLine c after = true := by
        simp only [endsLine, hfeed, Bool.or_eq_true, Bool.and_eq_true, decide_eq_true_eq,
          false_or]
        exact hreturn
      rw [if_neg hends]
      refine ⟨hsplit, hbytes, .inl rfl, ?_, ?_, fun hzero => ?_⟩
      · rw [hplace, hstep, hlone, hnone, hline]
        rfl
      · rw [hplace, hstep]
        exact Nat.succ_le_succ hle
      · rw [hlone, hnone] at hzero
        rw [hplace, hstep, hcolumn hzero]

theorem Stands.step {before : List Char} (h : Stands source before k) :
    ∃ before', Stands source before' k.step := by
  cases hrest : k.rest with
  | nil =>
    obtain ⟨htext, hposition, -, hline, hle, hcolumn⟩ := h
    refine ⟨before, ?_⟩
    unfold Cursor.step
    rw [hrest] at htext hline hcolumn ⊢
    exact ⟨htext, hposition, .inl rfl, hline, hle, hcolumn⟩
  | cons c after => exact ⟨_, h.step_cons hrest⟩

theorem Stands.advance (n : Nat) {before : List Char} (h : Stands source before k) :
    ∃ before', Stands source before' (k.advance n) := by
  induction n generalizing k before with
  | zero => exact ⟨before, h⟩
  | succ n ih =>
    obtain ⟨_, hstep⟩ := h.step
    exact ih hstep

/-- A byte of a character counts as the whole of it. -/
theorem Stands.byte {before : List Char} (h : Stands source before k) :
    ∃ before', Stands source before' k.stepByte := by
  cases hinside : k.inside with
  | cons byte bytes =>
    obtain ⟨htext, hposition, hpart, hline, hle, hcolumn⟩ := h
    rw [stepByte, hinside]
    rw [hinside, List.length_cons] at hposition hpart
    refine ⟨before, htext, ?_, ?_, hline, hle, hcolumn⟩
    · dsimp only
      omega
    · obtain ⟨front, c, hbefore, hlt⟩ := hpart.resolve_left (List.cons_ne_nil _ _)
      exact .inr ⟨front, c, hbefore, Nat.lt_of_succ_lt hlt⟩
  | nil =>
    cases hrest : k.rest with
    | nil =>
      rw [stepByte, hinside, hrest]
      exact ⟨before, h⟩
    | cons c after =>
      have hstep := h.step_cons hrest
      have hbytes : bytes (before ++ [c]) = bytes before + c.utf8Size := bytes_append _ _
      have hposition := h.position
      have hpos := c.utf8Size_pos
      rw [hinside, List.length_nil, Nat.add_zero] at hposition
      have hlength : (String.utf8EncodeChar c).tail.length = c.utf8Size - 1 := by
        rw [List.length_tail, String.length_utf8EncodeChar]
      rw [stepByte_of_rest hinside hrest]
      refine ⟨before ++ [c], hstep.text, ?_, .inr ⟨before, c, rfl, ?_⟩, hstep.line,
        hstep.column_le, hstep.column⟩
      · dsimp only
        omega
      · dsimp only
        omega

theorem Reached.stands (h : Reached source k) : ∃ before, Stands source before k := by
  induction h with
  | start => exact ⟨[], rfl, rfl, .inl rfl, rfl, Nat.le_refl 1, fun _ => rfl⟩
  | advance n _ ih =>
    obtain ⟨_, hstands⟩ := ih
    exact hstands.advance n
  | byte _ ih =>
    obtain ⟨_, hstands⟩ := ih
    exact hstands.byte
  | mark _ ih =>
    obtain ⟨before, hstands⟩ := ih
    exact ⟨before, hstands.text, hstands.position, hstands.inside, hstands.line,
      hstands.column_le, hstands.column⟩

/-- Inside a character no beginning of the text ends. -/
theorem Stands.inside_eq_nil {front before after : List Char} (h : Stands source front k)
    (hsource : source.toList = before ++ after) (hposition : k.position = bytes before) :
    k.inside = [] := by
  obtain ⟨htext, hbytes, hpart, -⟩ := h
  by_contra hne
  have hlength := List.length_pos_iff.mpr hne
  obtain ⟨front, c, rfl, hlt⟩ := hpart.resolve_left hne
  have hwhole : bytes (front ++ [c]) = bytes front + c.utf8Size := bytes_append _ _
  rw [List.append_assoc, List.singleton_append] at htext
  obtain ⟨cs, rfl, hcs⟩ := exists_of_bytes_le (htext.symm.trans hsource) (by omega)
  cases cs with
  | nil =>
    rw [List.append_nil] at hposition
    omega
  | cons d cs =>
    obtain ⟨rfl, -⟩ := List.cons.inj hcs
    have hcons : bytes (c :: cs) = c.utf8Size + bytes cs := List.sum_cons
    rw [bytes_append, hcons] at hposition
    omega

end Cursor

namespace Cursor.Reached

variable {source : String} {k : Cursor}

theorem skipIgnored (h : Reached source k) : Reached source k.skipIgnored := by
  unfold Cursor.skipIgnored
  split
  · exact .advance _ h
  · exact h

theorem pass (h : Reached source k) (t : Token) : Reached source (k.pass t) := by
  cases t with
  | integer digits => exact .advance _ h
  | identifier name => exact .advance _ h
  | punctuation mark => exact .byte h

theorem next (h : Reached source k) : Reached source k.next.2 := by
  unfold Cursor.next
  dsimp only
  split
  · exact .mark h.skipIgnored
  · exact .pass (.mark h.skipIgnored) _

end Cursor.Reached

/-! ## Locations -/

theorem splitAtByte_append (before after : List Char) :
    Location.splitAtByte (bytes before) (before ++ after) = (before, after) := by
  induction before with
  | nil =>
    cases after with
    | nil => rfl
    | cons c after =>
      have hpos := c.utf8Size_pos
      exact if_neg (Nat.not_le_of_lt hpos)
  | cons c before ih =>
    have hbytes : bytes (c :: before) = c.utf8Size + bytes before := List.sum_cons
    rw [List.cons_append, Location.splitAtByte, if_pos (by omega), hbytes,
      Nat.add_sub_cancel_left, ih]

theorem line_foldl_stepOver (cs : List Char) (place : Nat × Nat) :
    (cs.foldl Location.stepOver place).1 = place.1 + cs.count '\n' := by
  induction cs generalizing place with
  | nil => rfl
  | cons c cs ih =>
    rw [List.foldl_cons, ih, List.count_cons, Location.stepOver]
    by_cases hfeed : c = '\n'
    · rw [if_pos hfeed, hfeed, if_pos (beq_self_eq_true _)]
      omega
    · rw [if_neg hfeed, if_neg (by simpa using hfeed)]
      rfl

/-- A cursor on a character boundary, and an error that is located there.  Lines and columns agree
exactly if no lone carriage return has been passed. -/
theorem location_of_reached {source : String} {before after : List Char} {k : Cursor}
    {e : ParseError} (hsource : source.toList = before ++ after) (hk : Cursor.Reached source k)
    (hposition : k.position = bytes before) (he : e.position = bytes before) :
    (e.location source).line = 1 + before.count '\n' ∧
    k.line = (e.location source).line + loneReturns after before ∧
    k.column ≤ (e.location source).column ∧
    (k.line = (e.location source).line ∧ k.column = (e.location source).column ↔
      loneReturns after before = 0) := by
  obtain ⟨front, hstands⟩ := hk.stands
  have hbytes : bytes front = bytes before := by
    rw [← hstands.position, hstands.inside_eq_nil hsource hposition]
    exact hposition
  -- texts with as many bytes at the beginning of the source are the same
  obtain ⟨cs, hbefore, hrest⟩ := exists_of_bytes_le
    (hstands.text.symm.trans hsource) (Nat.le_of_eq hbytes)
  obtain rfl : cs = [] := by
    by_contra hne
    have hpos := bytes_pos hne
    rw [hbefore, bytes_append] at hbytes
    omega
  rw [List.append_nil] at hbefore
  rw [List.nil_append] at hrest
  subst hbefore
  have hplace : (e.location source).line = (before.foldl Location.stepOver (1, 1)).1 ∧
      (e.location source).column = (before.foldl Location.stepOver (1, 1)).2 := by
    rw [ParseError.location, he, Location.ofPosition, hsource, splitAtByte_append]
    exact ⟨rfl, rfl⟩
  obtain ⟨-, -, -, hline, hle, hcolumn⟩ := hstands
  rw [hrest] at hline hcolumn
  rw [hplace.1, hplace.2]
  refine ⟨line_foldl_stepOver before (1, 1), hline, hle, fun hsame => ?_, fun hzero => ?_⟩
  · omega
  · exact ⟨by omega, hcolumn hzero⟩

theorem location_of_reached_lines :
    let source := "a\r\nb\nc"
    let k := (Cursor.ofText source).next.2.next.2
    let e : ParseError := ⟨.unexpectedToken, 4, []⟩
    k.line = (e.location source).line ∧ k.column = (e.location source).column := by
  have hreached : Cursor.Reached "a\r\nb\nc" (Cursor.ofText "a\r\nb\nc").next.2.next.2 :=
    Cursor.Reached.start.next.next
  have hsource : "a\r\nb\nc".toList = ['a', '\r', '\n', 'b'] ++ ['\n', 'c'] := rfl
  have hlocation := location_of_reached (e := ⟨.unexpectedToken, 4, []⟩) hsource hreached
    (by decide) (by decide)
  exact hlocation.2.2.2.mpr (by decide)

/-- A carriage return alone ends a line for the cursor, and not for a location. -/
theorem lines_differ_at_return :
    let source := "a\rb"
    let k := (Cursor.ofText source).advance 2
    let place := (⟨.unexpectedToken, 2, []⟩ : ParseError).location source
    Cursor.Reached source k ∧ k.position = 2 ∧ (k.line, k.column) = (2, 1) ∧
      (place.line, place.column) = (1, 3) :=
  ⟨.advance 2 .start, by decide, by decide, by decide⟩

end FragmentAssembly

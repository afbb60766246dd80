import FragmentAssembly.Proofs.Grammar.Language
import FragmentAssembly.Proofs.Reading.Beginning
import FragmentAssembly.Proofs.Program.Concatenation
import FragmentAssembly.Proofs.Text.Next

/-!
# Beginnings of programs

The text of a program that is cut off between two tokens is no program, and the error lies at its
end.
-/

namespace FragmentAssembly

/-! ## Behind the header -/

section Header

variable {source : String} {text : List Char}

theorem rest_header (h : source.toList = "!!FP1.0".toList ++ text) :
    ((Cursor.ofText source).advance 7).rest = text := by
  rw [Cursor.advance_rest]
  show source.toList.drop 7 = text
  rw [h]
  rfl

/-- A text with the header is refused if its statements are. -/
theorem compile_of_error (h : source.toList = "!!FP1.0".toList ++ text) {e : ParseError}
    {d : Draft} (herror : Compile.statements (text.length + 1) 0
      { cursor := (Cursor.ofText source).advance 7 } = .error e d) : compile source = .error e := by
  have hdrop : source.toList.drop 7 = text := by
    rw [h]
    rfl
  unfold compile compilation
  rw [Compile.program_of_header (headerTests_fst.mpr ⟨text, h⟩), hdrop, herror]
  rfl

end Header

/-! ## Cut programs -/

/-- What stands in front of the cut is refused if the whole text is compiled. -/
theorem Cut.refused (c : Cut) {s t : String} {p : Program}
    (ht : t.toList = "!!FP1.0".toList ++ c.front)
    (hs : s.toList = "!!FP1.0".toList ++ (c.front ++ c.more)) (hsize : c.size = t.utf8ByteSize)
    (h : compile s = .ok p) : ∃ e, compile t = .error e ∧ c.coupling.last e := by
  obtain ⟨instructions, f, hok, -⟩ := (compile_eq_ok hs).mp h
  have hextend : (Cursor.ofText s).advance 7 = ((Cursor.ofText t).advance 7).extend c.more := by
    have hwhole : Cursor.ofText s = (Cursor.ofText t).extend c.more := by
      rw [Cursor.extend, Cursor.ofText, Cursor.ofText, hs, ht, List.append_assoc]
    rw [hwhole]
    refine Cursor.advance_extend c.splits.solid ?_
    show 7 ≤ t.toList.length
    rw [ht, List.length_append]
    exact Nat.le_add_right 7 _
  have hbeside : c.coupling.onDraft.beside { cursor := (Cursor.ofText t).advance 7 }
      { cursor := (Cursor.ofText s).advance 7 } := by
    refine ⟨⟨hextend, ⟨[], rest_header ht⟩, ?_, Cursor.advance_inside 7 rfl⟩, rfl⟩
    exact (Cursor.bytes_header t).trans hsize.symm
  have hat : c.At false ((Cursor.ofText s).advance 7) := by
    rw [At, rest_header hs]
    exact .start
  obtain ⟨e, d, herror, hlast⟩ := Compile.last_of_statements hbeside hat hok
  refine ⟨e, compile_of_error (d := d) ht ?_, hlast⟩
  -- the shorter text has enough fuel
  rw [← herror]
  symm
  apply Compile.statements_of_le
  · rw [List.length_append]
    omega
  · rw [rest_header ht]
    exact Nat.lt_succ_self _

/-- A compiled text that is cut off where a token begins, and not inside a literal, is refused at
its end, and the cause says what is missing there. -/
theorem compile_cut {s t u : String} {p : Program} (h : compile s = .ok p) (hs : s = t ++ u)
    (htoken : ∃ lexeme ∈ ((Cursor.ofText s).advance 7).lexemes, lexeme.start = t.utf8ByteSize)
    (hliteral : ¬Token.InLiteral (s.toList.drop 7) u.toList) :
    ∃ e, compile t = .error e ∧ e.position = t.utf8ByteSize ∧ e.cause.IsMissing u.toList := by
  obtain ⟨rest, hrest⟩ := exists_header h
  obtain ⟨lexeme, hmem, hstart⟩ := htoken
  have hwhole := Cursor.bytes_header s
  rw [utf8ByteSize_eq_bytes, rest_header hrest, hrest, bytes_append] at hwhole
  have hposition := Nat.add_right_cancel hwhole
  have htext : "!!FP1.0".toList ++ rest = t.toList ++ u.toList := by
    rw [← hrest, hs, String.toList_append]
  -- the cut is behind the header
  have hle : bytes "!!FP1.0".toList ≤ bytes t.toList := by
    rw [← hposition, ← utf8ByteSize_eq_bytes, ← hstart]
    exact Cursor.position_le_of_mem_lexemes hmem
  obtain ⟨front, hfront, rfl⟩ := exists_of_bytes_le htext hle
  have hsize : t.utf8ByteSize = bytes "!!FP1.0".toList + bytes front := by
    rw [utf8ByteSize_eq_bytes, hfront, bytes_append]
  have hsplits : Token.Splits front u.toList :=
    Cursor.splits_of_mem_lexemes (rest_header hrest) hmem (by
      rw [hstart, hsize, hposition, Cursor.advance_inside 7 rfl]
      rfl)
  rw [hrest] at hliteral
  exact Cut.refused ⟨front, u.toList, t.utf8ByteSize, hsplits, hliteral⟩ hfront hrest rfl h

/-- The second component of a vector is missed. -/
theorem compile_cut_vector : ∃ p e,
    compile "!!FP1.0 MUL o[COLR], f[COL0], \x7b0.5, 0.25\x7d; END" = .ok p ∧
    compile "!!FP1.0 MUL o[COLR], f[COL0], \x7b0.5, " = .error e ∧ e.position = 36 ∧
    e.cause.IsMissing "0.25\x7d; END".toList := by
  obtain ⟨p, hp⟩ : ∃ p,
      compile "!!FP1.0 MUL o[COLR], f[COL0], \x7b0.5, 0.25\x7d; END" = .ok p :=
    exists_of_isOk (by decide +kernel)
  have htext : "!!FP1.0 MUL o[COLR], f[COL0], \x7b0.5, 0.25\x7d; END".toList.drop 7 =
      " MUL o[COLR], f[COL0], \x7b0.5,".toList ++ ' ' :: "0.25\x7d; END".toList := by
    decide +kernel
  obtain ⟨e, he, hposition, hcause⟩ := compile_cut (t := "!!FP1.0 MUL o[COLR], f[COL0], \x7b0.5, ")
    (u := "0.25\x7d; END") hp (by decide +kernel)
    (Cursor.exists_lexeme 16 (by decide +kernel))
    (by rw [htext]; exact Token.not_inLiteral (by decide) (by decide))
  exact ⟨p, e, hp, he, hposition, hcause⟩

/-- In front of the suffix of a scalar register it is not the end of the text that is reported. -/
theorem cut_reports_suffix : ∃ p,
    compile "!!FP1.0 RCP R0, f[COL0].x; MOV o[COLR], R0; END" = .ok p ∧
    (∃ lexeme ∈ ((Cursor.ofText
      "!!FP1.0 RCP R0, f[COL0].x; MOV o[COLR], R0; END").advance 7).lexemes, lexeme.start = 23) ∧
    23 ≤ p.endPosition ∧
    ¬Token.InLiteral ("!!FP1.0 RCP R0, f[COL0].x; MOV o[COLR], R0; END".toList.drop 7)
      ".x; MOV o[COLR], R0; END".toList ∧
    compile "!!FP1.0 RCP R0, f[COL0]" =
      .error ⟨.expected "scalar suffix", 23, [.scalarSource, .instruction]⟩ := by
  obtain ⟨p, hp, hend⟩ : ∃ p,
      compile "!!FP1.0 RCP R0, f[COL0].x; MOV o[COLR], R0; END" = .ok p ∧ 23 ≤ p.endPosition :=
    exists_of_decide (by decide +kernel)
  have htext : "!!FP1.0 RCP R0, f[COL0].x; MOV o[COLR], R0; END".toList.drop 7 =
      " RCP R0, f[COL0".toList ++ ']' :: ".x; MOV o[COLR], R0; END".toList := by
    decide +kernel
  refine ⟨p, hp, Cursor.exists_lexeme 7 (by decide +kernel), hend, ?_, by decide +kernel⟩
  rw [htext]
  exact Token.not_inLiteral (by decide) (by decide)

end FragmentAssembly

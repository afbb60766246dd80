import FragmentAssembly.Proofs.Reading.Lockstep
import FragmentAssembly.Proofs.Text.Gap

/-!
# Text behind an error

A text that goes on in a new line is in lockstep with its beginning up to the end of this.  So an
error before the end is the same whatever follows.
-/

namespace FragmentAssembly

/-- A text of `size` bytes, and the same text with `more` behind it, which no chunk goes on with. -/
def Lockstep.extension (size : Nat) {more : List Char} (hmore : Token.endsChunk more = true) :
    Lockstep where
  rest cs cs' := cs' = cs ++ more
  mark cs cs' := cs' = cs ++ more
  loose := True
  size := size
  size' := size + bytes more
  ahead := by
    rintro cs _ rfl
    by_cases hne : Token.visible cs = []
    · exact .inl ⟨trivial, hne⟩
    right
    have hsolid := Token.isSolid_visible hne
    have happend := Token.visible_append_of_ne_nil more hne
    generalize Token.visible cs = v at hne hsolid happend
    have hsplit : v = v.takeWhile Token.isVisible ++ v.dropWhile Token.isVisible :=
      List.takeWhile_append_dropWhile.symm
    have hends : Token.endsChunk (v.dropWhile Token.isVisible) = true := head_of_dropWhile _ _
    have hchunk : v.takeWhile Token.isVisible ≠ [] := by
      obtain ⟨c, r, rfl⟩ := List.exists_cons_of_ne_nil hne
      have hc : Token.isVisible c = true := hsolid
      rw [List.takeWhile_cons_of_pos hc]
      exact List.cons_ne_nil _ _
    refine ⟨v.takeWhile Token.isVisible, v.dropWhile Token.isVisible,
      v.dropWhile Token.isVisible ++ more, hsplit, ?_, ⟨List.all_takeWhile, hends, ?_, ?_⟩, ?_, ?_⟩
    · rw [happend, ← List.append_assoc, ← hsplit]
    · cases hdrop : v.dropWhile Token.isVisible with
      | nil => exact hmore
      | cons c r =>
        rw [hdrop] at hends
        exact hends
    · exact fun hnil => absurd hnil hchunk
    · rw [List.append_assoc]
    · intro n hn
      have hle : n ≤ (v.takeWhile Token.isVisible ++ v.dropWhile Token.isVisible).length := by
        rw [List.length_append]
        exact Nat.le_add_right_of_le hn
      rw [← List.append_assoc, List.drop_append_of_le_length hle]

/-- The header is found in a text, or missed, whatever comes in the lines behind it. -/
theorem headerTests_append (cs : List Char) {more : List Char}
    (hmore : Token.endsChunk more = true) : headerTests (cs ++ more) = headerTests cs := by
  unfold headerTests
  rw [Token.isPrefixOf_chunk (by decide) hmore, Token.isPrefixOf_chunk (by decide) hmore]

/-- The first error is decided by the text up to it: if it is found before the end of a text, then
it is the same with more lines behind the text. -/
theorem compile_error_append {s : String} {e : ParseError} (h : compile s = .error e)
    (hbefore : e.position < s.utf8ByteSize) (u : String) :
    compile (s ++ "\n" ++ u) = .error e := by
  have hmore : Token.endsChunk ('\n' :: u.toList) = true := rfl
  have htext : (s ++ "\n" ++ u).toList = s.toList ++ '\n' :: u.toList := by
    rw [String.toList_append, String.toList_append, List.append_assoc]
    rfl
  have hsize' : s.utf8ByteSize + bytes ('\n' :: u.toList) = (s ++ "\n" ++ u).utf8ByteSize := by
    rw [utf8ByteSize_eq_bytes, utf8ByteSize_eq_bytes, htext, bytes_append]
  have hbehind : (headerTests s.toList).1 = true →
      (s ++ "\n" ++ u).toList.drop 7 = s.toList.drop 7 ++ '\n' :: u.toList := by
    intro hheader
    have hlength : 7 ≤ s.toList.length := Lockstep.length_le_of_isPrefixOf hheader
    rw [htext, List.drop_append_of_le_length hlength]
  rcases Lockstep.compile_cases (c := .extension s.utf8ByteSize hmore) rfl hsize'
      (by rw [htext, headerTests_append _ hmore]) hbehind (.inl trivial) with
    ⟨p, -, hp, -⟩ | ⟨e', f, he, hf, hcause, hconstructs, hplace⟩ | ⟨-, hlast⟩
  · rw [hp] at h
    cases h
  · obtain rfl : e' = e := Except.error.inj (he.symm.trans h)
    have hposition : f.position = e'.position := by
      rcases hplace with ⟨hp, hp'⟩ | ⟨cs, _, rfl, hp, hp'⟩
      · rw [hp, hp']
      · change _ = s.utf8ByteSize at hp
        change _ = s.utf8ByteSize + bytes ('\n' :: u.toList) at hp'
        rw [bytes_append] at hp'
        omega
    -- errors that are alike at the same place are the same
    obtain ⟨cause, position, constructs⟩ := f
    obtain rfl : cause = e'.cause := hcause
    obtain rfl : position = e'.position := hposition
    obtain rfl : constructs = e'.constructs := hconstructs
    exact hf
  · exact absurd (hlast e h) (Nat.ne_of_lt hbefore)

/-- An unknown instruction is found whatever comes in the next lines, even if it is cut off. -/
theorem compile_error_append_unknown :
    ∃ e, compile "!!FP1.0 MOW R0" = .error e ∧
      e.position < "!!FP1.0 MOW R0".utf8ByteSize ∧
      compile ("!!FP1.0 MOW R0" ++ "\n" ++ ", f[WPOS]; END") = .error e := by
  have herror : compile "!!FP1.0 MOW R0" =
      .error ⟨.unknownInstruction "MOW" (some "MOV"), 8, [.instruction]⟩ := by decide +kernel
  exact ⟨_, herror, by decide, compile_error_append herror (by decide) ", f[WPOS]; END"⟩

end FragmentAssembly

import FragmentAssembly.Proofs.Reading.Decision

/-!
# Blanks and comments

What may stand between two items of a text, and behind the last one.  A comment in front of an item
ends with its line; behind the last item it may also end with the text.
-/

namespace FragmentAssembly

namespace Token

/-- Characters of a comment behind its `#`. -/
def isCommentText (cs : List Char) : Bool :=
  cs.all (!isLineBreak ·)

inductive IsGap : List Char → Prop where
  | nil : IsGap []
  | blank {c : Char} {cs : List Char} (hblank : isBlank c = true) (rest : IsGap cs) :
    IsGap (c :: cs)
  | comment {text cs : List Char} {c : Char} (htext : isCommentText text = true)
    (hbreak : isLineBreak c = true) (rest : IsGap cs) : IsGap ('#' :: (text ++ c :: cs))

inductive IsTrailing : List Char → Prop where
  | gap {cs : List Char} (h : IsGap cs) : IsTrailing cs
  | comment {cs text : List Char} (h : IsGap cs) (htext : isCommentText text = true) :
    IsTrailing (cs ++ '#' :: text)

/-! ## Gaps are passed -/

theorem ignoredLength_le (comment : Bool) (cs : List Char) :
    ignoredLength comment cs ≤ cs.length := by
  induction cs generalizing comment with
  | nil => exact Nat.le_refl _
  | cons d cs ih =>
    rw [ignoredLength, List.length_cons]
    split
    · exact Nat.succ_le_succ (ih _)
    · split
      · exact Nat.succ_le_succ (ih _)
      · split
        · exact Nat.succ_le_succ (ih _)
        · exact Nat.zero_le _

theorem ignoredLength_comment {text : List Char} (htext : isCommentText text = true) {c : Char}
    (hbreak : isLineBreak c = true) (rest : List Char) :
    ignoredLength true (text ++ c :: rest) = text.length + 1 + ignoredLength false rest := by
  induction text with
  | nil =>
    rw [List.nil_append, ignoredLength, if_pos rfl, hbreak, List.length_nil]
    exact Nat.add_comm _ _
  | cons d text ih =>
    rw [isCommentText, List.all_cons, Bool.and_eq_true, Bool.not_eq_true'] at htext
    rw [List.cons_append, ignoredLength, if_pos rfl, htext.1, List.length_cons]
    show ignoredLength true _ + 1 = _
    rw [ih htext.2]
    omega

theorem ignoredLength_openComment {text : List Char} (htext : isCommentText text = true) :
    ignoredLength true text = text.length := by
  induction text with
  | nil => rfl
  | cons c text ih =>
    rw [isCommentText, List.all_cons, Bool.and_eq_true, Bool.not_eq_true'] at htext
    rw [ignoredLength, if_pos rfl, htext.1, List.length_cons]
    exact congrArg (· + 1) (ih htext.2)

theorem visible_comment (cs : List Char) : visible ('#' :: cs) = cs.drop (ignoredLength true cs) :=
  rfl

/-- A gap does not show. -/
theorem IsGap.visible_append {gap : List Char} (h : IsGap gap) (rest : List Char) :
    visible (gap ++ rest) = visible rest := by
  induction h with
  | nil => rfl
  | blank hblank _ ih => rw [List.cons_append, visible_blank _ hblank, ih]
  | @comment text cs c htext hbreak _ ih =>
    rw [List.cons_append, List.append_assoc, List.cons_append, visible_comment,
      ignoredLength_comment htext hbreak, ← ih, visible]
    have hsplit : text ++ c :: (cs ++ rest) = text ++ [c] ++ (cs ++ rest) := by
      rw [List.append_assoc, List.singleton_append]
    have hlength : text.length + 1 = (text ++ [c]).length := by rw [List.length_append]; rfl
    rw [hsplit, hlength, List.drop_append, Nat.add_sub_cancel_left, List.drop_eq_nil_of_le,
      List.nil_append]
    omega

theorem IsTrailing.visible_eq_nil {cs : List Char} (h : IsTrailing cs) : visible cs = [] := by
  cases h with
  | gap h =>
    have hvisible := h.visible_append []
    rwa [List.append_nil] at hvisible
  | comment h htext =>
    rw [h.visible_append, visible_comment, ignoredLength_openComment htext, List.drop_length]

/-! ## What is passed is a gap -/

/-- A comment runs up to the end of its line, or of the text. -/
theorem comment_cases (cs : List Char) :
    isCommentText cs = true ∨ ∃ text c rest, isCommentText text = true ∧ isLineBreak c = true ∧
      cs = text ++ c :: rest := by
  induction cs with
  | nil => exact .inl rfl
  | cons d cs ih =>
    cases hbreak : isLineBreak d with
    | true => exact .inr ⟨[], d, cs, rfl, hbreak, rfl⟩
    | false =>
      rcases ih with htext | ⟨text, c, rest, htext, hc, rfl⟩
      · left
        rw [isCommentText, List.all_cons, hbreak]
        exact htext
      · refine .inr ⟨d :: text, c, rest, ?_, hc, rfl⟩
        rw [isCommentText, List.all_cons, hbreak]
        exact htext

/-- A text begins with a gap, or it has nothing but blanks and comments. -/
theorem exists_gap (cs : List Char) :
    (∃ gap, IsGap gap ∧ cs = gap ++ visible cs) ∨ visible cs = [] ∧ IsTrailing cs := by
  -- a comment is passed as a whole, so the induction is on the length and not on the list
  induction hlength : cs.length using Nat.strongRecOn generalizing cs with
  | ind length ih =>
    subst hlength
    cases cs with
    | nil => exact .inl ⟨[], .nil, rfl⟩
    | cons c cs =>
      by_cases hmark : c = '#'
      · subst hmark
        rcases comment_cases cs with htext | ⟨text, b, rest, htext, hbreak, rfl⟩
        · have htrailing : IsTrailing ([] ++ '#' :: cs) := .comment .nil htext
          exact .inr ⟨htrailing.visible_eq_nil, htrailing⟩
        · have hrest : visible ('#' :: (text ++ b :: rest)) = visible rest := by
            have h := (IsGap.comment htext hbreak .nil).visible_append rest
            rwa [List.cons_append, List.append_assoc] at h
          rw [hrest]
          rcases ih rest.length (by simp; omega) rest rfl with ⟨gap, hgap, heq⟩ | ⟨hnil, h⟩
          · refine .inl ⟨_, .comment htext hbreak hgap, ?_⟩
            rw [List.cons_append, List.append_assoc, List.cons_append, ← heq]
          · refine .inr ⟨hnil, ?_⟩
            cases h with
            | gap h => exact .gap (.comment htext hbreak h)
            | @comment gap behind h hbehind =>
              have hcomment := IsTrailing.comment (.comment htext hbreak h) hbehind
              rwa [List.cons_append, List.append_assoc, List.cons_append] at hcomment
      · cases hblank : isBlank c with
        | true =>
          rw [visible_blank cs hblank]
          rcases ih cs.length (Nat.lt_succ_self _) cs rfl with ⟨gap, hgap, heq⟩ | ⟨hnil, h⟩
          · exact .inl ⟨_, .blank hblank hgap, by rw [List.cons_append, ← heq]⟩
          · refine .inr ⟨hnil, ?_⟩
            cases h with
            | gap h => exact .gap (.blank hblank h)
            | comment h htext => exact .comment (.blank hblank h) htext
        | false =>
          refine .inl ⟨[], .nil, ?_⟩
          have hsolid : isSolid (c :: cs) = true := by
            rw [isSolid, List.head?_cons, Option.any_some, hblank]
            simp [hmark]
          rw [visible_of_isSolid hsolid]
          rfl

/-- In front of what shows there is a gap. -/
theorem exists_gap_of_ne_nil {cs : List Char} (h : visible cs ≠ []) :
    ∃ gap, IsGap gap ∧ cs = gap ++ visible cs :=
  (exists_gap cs).resolve_right fun htrailing => h htrailing.1

theorem isTrailing_iff {cs : List Char} : IsTrailing cs ↔ visible cs = [] := by
  refine ⟨IsTrailing.visible_eq_nil, fun h => ?_⟩
  rcases exists_gap cs with ⟨gap, hgap, heq⟩ | ⟨-, htrailing⟩
  · rw [h, List.append_nil] at heq
    exact .gap (heq ▸ hgap)
  · exact htrailing

/-- After a gap a character shows. -/
theorem isGap_iff {cs : List Char} : IsGap cs ↔ visible (cs ++ [';']) = [';'] := by
  refine ⟨fun h => h.visible_append [';'], fun h => ?_⟩
  obtain ⟨gap, hgap, heq⟩ := exists_gap_of_ne_nil (h ▸ List.cons_ne_nil ';' [])
  rw [h] at heq
  rw [List.append_cancel_right heq]
  exact hgap

instance : DecidablePred IsGap := fun _ => decidable_of_iff _ isGap_iff.symm

instance : DecidablePred IsTrailing := fun _ => decidable_of_iff _ isTrailing_iff.symm

/-- Behind blanks and comments there is nothing, or a chunk. -/
theorem isSolid_visible {cs : List Char} (h : visible cs ≠ []) : isSolid (visible cs) = true := by
  obtain ⟨c, rest, hc⟩ := List.exists_cons_of_ne_nil h
  have hstays := visible_visible cs
  rw [hc] at hstays ⊢
  show (decide (c ≠ '#') && !isBlank c) = true
  apply Decidable.byContradiction
  intro hnot
  -- otherwise more would be passed
  have hpassed : 0 < ignoredLength false (c :: rest) := by
    simp only [ignoredLength, Bool.false_eq_true, if_false]
    split
    · exact Nat.succ_pos _
    · rename_i hcomment
      split
      · exact Nat.succ_pos _
      · rename_i hblank
        exact absurd (by simp [hcomment, hblank]) hnot
  have hlength := congrArg List.length hstays
  rw [visible, List.length_drop, List.length_cons] at hlength
  omega

/-- Text behind something visible does not change what is passed in front of it. -/
theorem visible_append_of_ne_nil {cs : List Char} (more : List Char) (h : visible cs ≠ []) :
    visible (cs ++ more) = visible cs ++ more := by
  obtain ⟨gap, hgap, heq⟩ := exists_gap_of_ne_nil h
  calc
    visible (cs ++ more) = visible (gap ++ (visible cs ++ more)) := by
      rw [← List.append_assoc, ← heq]
    _ = visible (visible cs ++ more) := hgap.visible_append _
    _ = visible cs ++ more := FragmentAssembly.Token.visible_append _ (isSolid_visible h)

end Token

end FragmentAssembly

import FragmentAssembly.Proofs.Text.Lexer
import Mathlib.Data.List.DropRight

/-!
# Lexemes in their text

What stands between two tokens of a text, and what tells a token from it.  A character between
tokens is a blank or in a comment, that is, behind a `#` in the same line.
-/

namespace FragmentAssembly

theorem append_eq_append_cons {α : Type} {xs ys front rest : List α} {a : α}
    (h : xs ++ ys = front ++ a :: rest) :
    (∃ tail, xs = front ++ a :: tail) ∨ ∃ tail, front = xs ++ tail ∧ ys = tail ++ a :: rest := by
  rcases List.append_eq_append_iff.mp h with ⟨tail, hfront, hys⟩ | ⟨tail, hxs, htail⟩
  · exact .inr ⟨tail, hfront, hys⟩
  · cases tail with
    | nil => exact .inr ⟨[], by rw [hxs, List.append_nil, List.append_nil], htail.symm⟩
    | cons b tail =>
      rw [List.cons_append, List.cons.injEq] at htail
      exact .inl ⟨tail, by rw [hxs, htail.1]⟩

namespace Token

/-! ## Comments -/

/-- Whether `before` ends inside a comment: there is a `#` in its last line. -/
def InComment (before : List Char) : Prop :=
  '#' ∈ before.rtakeWhile (!isLineBreak ·)

theorem inComment_concat {before : List Char} {c : Char} : InComment (before ++ [c]) ↔
    isLineBreak c = false ∧ (c = '#' ∨ InComment before) := by
  cases hbreak : isLineBreak c with
  | true =>
    rw [InComment, List.rtakeWhile_concat_neg _ _ _ (by rw [hbreak]; decide)]
    simp
  | false =>
    rw [InComment, List.rtakeWhile_concat_pos _ _ _ (by rw [hbreak]; decide), List.mem_append,
      List.mem_singleton, InComment]
    constructor
    · rintro (h | h)
      · exact ⟨rfl, .inr h⟩
      · exact ⟨rfl, .inl h.symm⟩
    · rintro ⟨-, h | h⟩
      · exact .inr h.symm
      · exact .inl h

/-- A comment goes on as long as its line. -/
theorem InComment.append {before text : List Char} (h : InComment before)
    (htext : isCommentText text = true) : InComment (before ++ text) := by
  induction text generalizing before with
  | nil => rwa [List.append_nil]
  | cons c text ih =>
    rw [isCommentText, List.all_cons, Bool.and_eq_true, Bool.not_eq_true'] at htext
    have hnext := ih (inComment_concat.mpr ⟨htext.1, .inr h⟩) htext.2
    rwa [List.append_assoc, List.singleton_append] at hnext

theorem inComment_open (before : List Char) : InComment (before ++ ['#']) :=
  inComment_concat.mpr ⟨by decide, .inl rfl⟩

theorem not_inComment_append {before text : List Char} (h : ¬InComment before)
    (htext : text.all isVisible = true) : ¬InComment (before ++ text) := by
  induction text generalizing before with
  | nil => rwa [List.append_nil]
  | cons c text ih =>
    rw [List.all_cons, Bool.and_eq_true] at htext
    have hmark : c ≠ '#' := by
      rintro rfl
      exact absurd htext.1 (by decide)
    have hopen : ¬InComment (before ++ [c]) := fun hc => by
      rcases (inComment_concat.mp hc).2 with heq | hin
      · exact hmark heq
      · exact h hin
    have hnext := ih hopen htext.2
    rwa [List.append_assoc, List.singleton_append] at hnext

/-- No comment is open behind a gap. -/
theorem IsGap.not_inComment {gap before : List Char} (h : IsGap gap) (hbefore : ¬InComment before) :
    ¬InComment (before ++ gap) := by
  induction h generalizing before with
  | nil => rwa [List.append_nil]
  | @blank c cs hblank _ ih =>
    have hopen : ¬InComment (before ++ [c]) := fun hc => by
      rcases (inComment_concat.mp hc).2 with rfl | hin
      · exact absurd hblank (by decide)
      · exact hbefore hin
    have hnext := ih hopen
    rwa [List.append_assoc, List.singleton_append] at hnext
  | @comment text cs c htext hbreak _ ih =>
    have hopen : ¬InComment (before ++ '#' :: text ++ [c]) := fun hc => by
      rw [(inComment_concat.mp hc).1] at hbreak
      cases hbreak
    have hnext := ih hopen
    simpa only [List.append_assoc, List.cons_append, List.nil_append] using hnext

/-- A comment and the characters in it. -/
theorem passed_of_comment {before text front tail : List Char} {c : Char}
    (htext : isCommentText text = true) (h : '#' :: text = front ++ c :: tail) :
    InComment (before ++ front ++ [c]) := by
  cases front with
  | nil =>
    rw [List.nil_append, List.cons.injEq] at h
    rw [List.append_nil, ← h.1]
    exact inComment_open before
  | cons d front =>
    rw [List.cons_append, List.cons.injEq] at h
    obtain ⟨rfl, rfl⟩ := h
    rw [isCommentText, List.all_append, List.all_cons, Bool.and_eq_true, Bool.and_eq_true] at htext
    have hpassed : isCommentText (front ++ [c]) = true := by
      rw [isCommentText, List.all_append, List.all_cons, htext.1, htext.2.1]
      rfl
    have hcomment := (inComment_open before).append hpassed
    simpa only [List.append_assoc, List.cons_append, List.nil_append] using hcomment

/-- The characters of a gap are blanks, or in comments. -/
theorem IsGap.passed {gap before front tail : List Char} {c : Char} (h : IsGap gap)
    (hsplit : gap = front ++ c :: tail) :
    isBlank c = true ∨ InComment (before ++ front ++ [c]) := by
  induction h generalizing before front with
  | nil => cases front <;> cases hsplit
  | @blank b cs hblank _ ih =>
    cases front with
    | nil =>
      rw [List.nil_append, List.cons.injEq] at hsplit
      rw [← hsplit.1]
      exact .inl hblank
    | cons d front =>
      rw [List.cons_append, List.cons.injEq] at hsplit
      have hnext : _ ∨ InComment (before ++ [d] ++ front ++ [c]) := ih hsplit.2
      rwa [List.append_assoc before, List.singleton_append] at hnext
  | @comment text cs b htext hbreak _ ih =>
    have hjoined : ('#' :: text) ++ b :: cs = front ++ c :: tail := hsplit
    -- the character is in the comment, is the break that ends it or stands behind it
    rcases append_eq_append_cons hjoined with ⟨_, hin⟩ | ⟨behind, rfl, hbehind⟩
    · exact .inr (passed_of_comment htext hin)
    · cases behind with
      | nil =>
        rw [List.nil_append, List.cons.injEq] at hbehind
        left
        rw [← hbehind.1, isBlank, hbreak, Bool.or_true]
      | cons d behind =>
        rw [List.cons_append, List.cons.injEq] at hbehind
        have hnext : _ ∨ InComment (before ++ '#' :: text ++ [d] ++ behind ++ [c]) :=
          ih hbehind.2
        simpa only [List.append_assoc, List.cons_append, List.nil_append] using hnext

theorem IsTrailing.passed {cs before front tail : List Char} {c : Char} (h : IsTrailing cs)
    (hsplit : cs = front ++ c :: tail) : isBlank c = true ∨ InComment (before ++ front ++ [c]) := by
  cases h with
  | gap h => exact h.passed hsplit
  | @comment gap text h htext =>
    rcases append_eq_append_cons hsplit with ⟨_, hin⟩ | ⟨behind, rfl, hbehind⟩
    · exact h.passed hin
    · have hcomment : InComment (before ++ gap ++ behind ++ [c]) :=
        passed_of_comment htext hbehind
      rw [List.append_assoc before] at hcomment
      exact .inr hcomment

/-! ## Tokens between their neighbours -/

/-- A token is of its kind, and as long as it can be between `before` and `behind`. -/
def Fits (before behind : List Char) : Token → Prop
  | integer digits => digits.toList ≠ [] ∧ digits.toList.all Char.isDigit = true ∧
      before.getLast?.all (!Char.isDigit ·) = true ∧ behind.head?.all (!Char.isDigit ·) = true
  | identifier name => IsName name ∧ endsName behind = true
  | punctuation c => isVisible c = true ∧ c.isAlphanum = false

variable {before behind : List Char} {t : Token}

/-- A token that is no mark consists of the characters of names. -/
theorem Fits.all_isNameChar (h : t.Fits before behind) (hmark : ∀ mark, t ≠ .punctuation mark) :
    t.text.toList.all isNameChar = true := by
  cases t with
  | integer digits =>
    rw [List.all_eq_true]
    intro c hc
    rw [isNameChar, isAlphanum_of_isDigit (List.all_eq_true.mp h.2.1 c hc)]
    rfl
  | identifier name =>
    obtain ⟨⟨c, cs, htext, halpha, hcs⟩, -⟩ := h
    rw [text, htext, List.all_cons, hcs, isNameChar, isAlphanum_of_isAlpha halpha]
    rfl
  | punctuation mark => exact absurd rfl (hmark mark)

theorem Fits.all_isVisible (h : t.Fits before behind) : t.text.toList.all isVisible = true := by
  have hshown (hmark : ∀ mark, t ≠ .punctuation mark) : t.text.toList.all isVisible = true :=
    List.all_eq_true.mpr fun c hc =>
      isVisible_of_isNameChar (List.all_eq_true.mp (h.all_isNameChar hmark) c hc)
  cases t with
  | integer | identifier => exact hshown fun _ => Token.noConfusion
  | punctuation c =>
    rw [text, String.toList_singleton, List.all_cons, h.1]
    rfl

theorem Fits.text_ne_nil (h : t.Fits before behind) : t.text.toList ≠ [] := by
  cases t with
  | integer digits => exact h.1
  | identifier name =>
    obtain ⟨⟨c, cs, htext, -⟩, -⟩ := h
    rw [text, htext]
    exact List.cons_ne_nil _ _
  | punctuation c => rw [text, String.toList_singleton]; exact List.cons_ne_nil _ _

theorem not_isDigit_of_endsName (h : endsName behind = true) :
    behind.head?.all (!Char.isDigit ·) = true := by
  cases behind with
  | nil => rfl
  | cons c cs =>
    rw [endsName, List.head?_cons, Option.all_some, Bool.not_eq_true', isNameChar,
      Bool.or_eq_false_iff, Bool.or_eq_false_iff, Char.isAlphanum, Bool.or_eq_false_iff] at h
    rw [List.head?_cons, Option.all_some, h.1.1.2]
    rfl

/-- A token that is followed by a digit does not end with one. -/
theorem Fits.digit_behind (h : t.Fits before behind) :
    (before ++ t.text.toList).getLast?.all (!Char.isDigit ·) = true ∨
      behind.head?.all (!Char.isDigit ·) = true := by
  cases t with
  | integer digits => exact .inr h.2.2.2
  | identifier name => exact .inr (not_isDigit_of_endsName h.2)
  | punctuation c =>
    left
    have hdigit := h.2
    rw [Char.isAlphanum, Bool.or_eq_false_iff] at hdigit
    rw [text, String.toList_singleton, List.getLast?_append, List.getLast?_singleton,
      Option.some_or, Option.all_some, hdigit.2]
    rfl

theorem not_isDigit_of_isBlank {c : Char} (h : isBlank c = true) : (!c.isDigit) = true := by
  simp only [isBlank, isLineBreak, Bool.or_eq_true, decide_eq_true_eq] at h
  rcases h with (rfl | rfl) | rfl | rfl <;> rfl

theorem IsGap.getLast?_isBlank {gap : List Char} (h : IsGap gap) :
    gap.getLast?.all isBlank = true := by
  induction h with
  | nil => rfl
  | @blank c cs hblank _ ih =>
    rw [List.getLast?_cons, Option.all_some]
    cases hlast : cs.getLast? with
    | none => exact hblank
    | some d => rwa [hlast] at ih
  | @comment text cs c htext hbreak _ ih =>
    rw [List.getLast?_cons, Option.all_some, List.getLast?_append, List.getLast?_cons]
    cases hlast : cs.getLast? with
    | none =>
      show isBlank c = true
      rw [isBlank, hbreak, Bool.or_true]
    | some d => rwa [hlast] at ih

/-- A gap parts the digits in front of it from those behind it. -/
theorem IsGap.parts_digits {gap cs : List Char} (h : IsGap gap)
    (hready : before.getLast?.all (!Char.isDigit ·) = true ∨
      (gap ++ cs).head?.all (!Char.isDigit ·) = true) :
    (before ++ gap).getLast?.all (!Char.isDigit ·) = true ∨
      cs.head?.all (!Char.isDigit ·) = true := by
  by_cases hempty : gap = []
  · rw [hempty, List.nil_append] at hready
    rwa [hempty, List.append_nil]
  · left
    have hblank := h.getLast?_isBlank
    rw [List.getLast?_eq_some_getLast hempty, Option.all_some] at hblank
    rw [List.getLast?_append, List.getLast?_eq_some_getLast hempty, Option.some_or, Option.all_some]
    exact not_isDigit_of_isBlank hblank

/-- Only digits in front of an integer would belong to it. -/
theorem Fits.of_nil (h : t.Fits [] behind)
    (hready : before.getLast?.all (!Char.isDigit ·) = true ∨
      (t.text.toList ++ behind).head?.all (!Char.isDigit ·) = true) : t.Fits before behind := by
  cases t with
  | integer digits =>
    refine ⟨h.1, h.2.1, ?_, h.2.2.2⟩
    rcases hready with hbefore | hhead
    · exact hbefore
    · obtain ⟨d, ds, hds⟩ := List.exists_cons_of_ne_nil h.1
      have hdigit := h.2.1
      rw [hds, List.all_cons, Bool.and_eq_true] at hdigit
      rw [text, hds, List.cons_append, List.head?_cons, Option.all_some, hdigit.1] at hhead
      cases hhead
  | identifier name => exact h
  | punctuation c => exact h

/-- The token that a text begins with, if it is no part of a character. -/
theorem fits_of_lead? {cs : List Char} (hlead : lead? cs = some t) (hsolid : isSolid cs = true)
    (hwhole : t.IsWhole) : ∃ behind, cs = t.text.toList ++ behind ∧ t.Fits [] behind := by
  obtain ⟨behind, rfl, hends⟩ := of_lead? hlead hwhole
  refine ⟨behind, rfl, ?_⟩
  cases t with
  | integer digits => exact ⟨hends.1, hends.2.1, rfl, hends.2.2⟩
  | identifier name => exact hends
  | punctuation mark =>
    rw [text, String.toList_singleton, List.singleton_append] at hlead hsolid
    rw [lead?] at hlead
    split at hlead
    · cases hlead
    · rename_i hdigit
      split at hlead
      · cases hlead
      · rename_i halpha
        refine ⟨hsolid, ?_⟩
        rw [Char.isAlphanum, Bool.or_eq_false_iff]
        exact ⟨Bool.eq_false_iff.mpr halpha, Bool.eq_false_iff.mpr hdigit⟩

/-! ## Tokens are matches -/

/-- A text that goes on with a token is one match, which is this token. -/
theorem scan_token (h : t.Fits before behind) (place : Nat) :
    scan place (t.text.toList ++ behind) =
      some ⟨t, place, place + t.text.toList.length⟩ ::
        scan (place + t.text.toList.length) behind := by
  obtain ⟨c, run, hrun⟩ := List.exists_cons_of_ne_nil h.text_ne_nil
  have hsolid : isSolid (c :: (run ++ behind)) = true := by
    have hvisible := h.all_isVisible
    rw [hrun, List.all_cons, Bool.and_eq_true] at hvisible
    exact hvisible.1
  have hrule := Rule.longest?_solid hsolid (run ++ behind)
  rw [hrun, List.cons_append]
  cases t with
  | integer digits =>
    have hdigits := h.2.1
    rw [text] at hrun
    rw [hrun, List.all_cons, Bool.and_eq_true] at hdigits
    rw [if_pos hdigits.1] at hrule
    rw [scan_found place hrule rfl hdigits.2 h.2.2.2, ← hrun, String.ofList_toList]
  | identifier name =>
    obtain ⟨⟨d, ds, hname, halpha, hds⟩, hends⟩ := h
    rw [text, hname] at hrun
    obtain ⟨rfl, rfl⟩ := List.cons.inj hrun
    rw [not_isDigit_of_isAlpha halpha, if_neg Bool.false_ne_true, if_pos halpha] at hrule
    rw [scan_found place hrule rfl hds hends, ← hname, String.ofList_toList]
  | punctuation mark =>
    have hplain := h.2
    rw [text, String.toList_singleton] at hrun
    obtain ⟨rfl, rfl⟩ := List.cons.inj hrun
    rw [Char.isAlphanum, Bool.or_eq_false_iff] at hplain
    rw [hplain.1, hplain.2, if_neg Bool.false_ne_true, if_neg Bool.false_ne_true] at hrule
    -- a mark goes on with nothing
    exact scan_found place hrule rfl rfl (by cases behind <;> rfl)

end Token

end FragmentAssembly

import FragmentAssembly.Proofs.Reading.Position
import FragmentAssembly.Proofs.Text.Lossless

/-!
# Texts in parts

A semicolon that is not in a comment is a token, wherever it stands.  So where a text goes on with
one, the tokens in front of it are those of the text, and no other semicolon is among them.
-/

namespace FragmentAssembly

open Token

namespace Token

/-- Behind `before`, the semicolons of `text` are in comments, and no comment is left open. -/
structure Unparted (before text : List Char) : Prop where
  closed : ¬InComment (before ++ text)
  hidden : ∀ front tail, text = front ++ ';' :: tail → InComment (before ++ front ++ [';'])

namespace Unparted

variable {before text more : List Char}

theorem append (h : Unparted before text) (hmore : Unparted (before ++ text) more) :
    Unparted before (text ++ more) where
  closed := by
    rw [← List.append_assoc]
    exact hmore.closed
  hidden front tail hsplit := by
    rcases append_eq_append_cons hsplit with ⟨_, hin⟩ | ⟨inner, rfl, hinner⟩
    · exact h.hidden _ _ hin
    · rw [← List.append_assoc]
      exact hmore.hidden _ _ hinner

theorem behind (h : Unparted before (text ++ more)) : Unparted (before ++ text) more where
  closed := by
    rw [List.append_assoc]
    exact h.closed
  hidden front tail hsplit := by
    rw [List.append_assoc before]
    exact h.hidden _ tail (by rw [hsplit, List.append_assoc])

theorem of_gap (hbefore : ¬InComment before) (h : IsGap text) : Unparted before text where
  closed := h.not_inComment hbefore
  hidden _ _ hsplit := (h.passed hsplit).resolve_left (by decide)

theorem of_visible (hbefore : ¬InComment before) (hshown : text.all isVisible = true)
    (hmark : ';' ∉ text) : Unparted before text where
  closed := not_inComment_append hbefore hshown
  hidden front tail hsplit := by
    refine absurd ?_ hmark
    rw [hsplit]
    exact List.mem_append_right _ List.mem_cons_self

end Unparted

end Token

/-! ## Cursors -/

namespace Cursor

variable {k l : Cursor}

/-- The tokens depend on nothing but the text and where it begins. -/
theorem lexemes_congr (hk : k.inside = []) (hl : l.inside = [])
    (hposition : k.position = l.position) (hrest : k.rest = l.rest) : k.lexemes = l.lexemes := by
  have hscan := scan_left (midway_of_inside hk)
  rw [left_of_inside hk, hposition, hrest, ← left_of_inside hl,
    scan_left (midway_of_inside hl)] at hscan
  exact List.map_injective_iff.mpr (Option.some_injective _) hscan.symm

/-- Blanks and comments that were passed make no difference. -/
theorem lexemes_of_ahead (hk : k.inside = []) (hl : l.inside = []) (hahead : k.ahead = l.ahead)
    (hend : k.position + bytes k.rest = l.position + bytes l.rest) : k.lexemes = l.lexemes := by
  rw [← lexemes_of_next k.next_skipIgnored, ← lexemes_of_next l.next_skipIgnored]
  have hrest : k.skipIgnored.rest = l.skipIgnored.rest := by
    rw [rest_skipIgnored hk, rest_skipIgnored hl, hahead]
  refine lexemes_congr (k.skipIgnored_inside.trans hk) (l.skipIgnored_inside.trans hl) ?_ hrest
  have hkbytes := bytes_skipIgnored_of_inside hk
  have hlbytes := bytes_skipIgnored_of_inside hl
  rw [hrest] at hkbytes
  omega

namespace Finds

variable {t : Token} {after : Cursor} {gap item behind : List Char}

theorem all_isVisible (h : k.Finds t after gap item behind) : item.all isVisible = true := by
  rcases h.part with ⟨hmark, -⟩ | ⟨c, rfl, -, -⟩
  · obtain ⟨rfl, hfits⟩ := h.fits hmark
    exact hfits.all_isVisible
  · have hsolid : isVisible c = true := h.solid
    rw [List.all_cons, hsolid]
    rfl

/-- A token that is taken from a text with a semicolon in it is one. -/
theorem item_of_mem (h : k.Finds t after gap item behind) (hmem : ';' ∈ item) : item = [';'] := by
  rcases h.part with ⟨hmark, -⟩ | ⟨c, rfl, -, -⟩
  · obtain ⟨rfl, hfits⟩ := h.fits hmark
    exact absurd (List.all_eq_true.mp (hfits.all_isNameChar hmark) ';' hmem) (by decide)
  · rw [List.mem_singleton.mp hmem]

theorem eq_semicolon_iff (h : k.Finds t after gap item behind) :
    t = .punctuation ';' ↔ item = [';'] := by
  rcases h.part with ⟨hmark, -⟩ | ⟨c, rfl, rfl, -⟩
  · obtain ⟨rfl, hfits⟩ := h.fits hmark
    refine iff_of_false (hmark ';') fun hitem => ?_
    have hall := hfits.all_isNameChar hmark
    rw [hitem] at hall
    exact absurd hall (by decide)
  · rw [punctuation.injEq, leadByte_eq_iff rfl, List.cons.injEq, and_iff_left rfl]

end Finds

/-- The next token is the semicolon that parts the text, or it is in front of it. -/
theorem part_of_next {t : Token} {after : Cursor} {before text behind : List Char} (hk : k.Midway)
    (hbefore : ¬InComment before) (htext : Unparted before text)
    (hrest : k.rest = text ++ ';' :: behind) (h : k.next = (some t, after)) :
    t = .punctuation ';' ∧ after.inside = [] ∧ after.rest = behind ∨
      t ≠ .punctuation ';' ∧ ∃ front more, ¬InComment front ∧ Unparted front more ∧
        after.rest = more ++ ';' :: behind := by
  have hmark := not_passed_of_isVisible (c := ';') (by decide) htext.closed
  cases hinside : k.inside with
  | cons byte rest =>
    rw [next_of_bytes hinside] at h
    cases h
    have hbyte : 128 ≤ byte.toNat := hk byte (hinside ▸ List.mem_cons_self)
    refine .inr ⟨fun hother => ?_, before, text, hbefore, htext, hrest⟩
    rw [← toNat_ofUInt8, punctuation.inj hother] at hbyte
    exact absurd hbyte (by decide)
  | nil =>
    obtain ⟨gap, item, rest, hfinds⟩ := exists_finds hinside h
    have hsplit := hfinds.before.symm.trans hrest
    -- the semicolon is in the gap, in the token or behind it
    rcases append_eq_append_cons hsplit with ⟨_, hin⟩ | ⟨inner, rfl, hinner⟩
    · exact absurd (hfinds.isGap.passed hin) hmark
    rcases append_eq_append_cons hinner with ⟨tail, hitem⟩ | ⟨onward, rfl, honward⟩
    · have hone := hfinds.item_of_mem (hitem ▸ List.mem_append_right _ List.mem_cons_self)
      have hsemicolon := hfinds.eq_semicolon_iff.mpr hone
      subst hone
      have hafter : after.inside = [] := by
        rcases hfinds.part with ⟨-, hnil⟩ | ⟨c, hc, -, htail⟩
        · exact hnil
        · rw [htail, ← (List.cons.inj hc).1]
          rfl
      refine .inl ⟨hsemicolon, hafter, ?_⟩
      rw [hfinds.behind]
      cases inner with
      | nil => exact (List.cons.inj hinner).2
      | cons d inner => cases inner <;> cases (List.cons.inj hitem).2
    · have hopen := hfinds.isGap.not_inComment hbefore
      refine .inr ⟨fun hsemicolon => ?_, before ++ gap ++ item, onward,
        not_inComment_append hopen hfinds.all_isVisible, htext.behind.behind,
        hfinds.behind.trans honward⟩
      obtain rfl := hfinds.eq_semicolon_iff.mp hsemicolon
      exact not_passed_of_isVisible (by decide) hopen (.inr (htext.hidden gap onward rfl))

/-- The tokens up to the semicolon that parts the text, and the cursor behind it. -/
theorem exists_part {before text behind : List Char} (hk : k.Midway) (hbefore : ¬InComment before)
    (htext : Unparted before text) (hrest : k.rest = text ++ ';' :: behind) :
    ∃ front mark l, k.lexemes = front ++ mark :: Cursor.lexemes l ∧ l.inside = [] ∧
      l.rest = behind ∧ l.position + bytes l.rest = k.position + k.inside.length + bytes k.rest ∧
      mark.token = .punctuation ';' ∧ ∀ lexeme ∈ front, lexeme.token ≠ .punctuation ';' := by
  induction k using lexemes.induct generalizing before text with
  | case1 k after found =>
    have hnone := congrArg Prod.fst found
    have hinside := inside_of_next_none hnone
    have hnil := (rest_of_next_none hnone).1
    rw [rest_skipIgnored hinside, ahead_of_inside hinside] at hnil
    -- the semicolon would be passed
    exact absurd ((isTrailing_iff.mpr hnil).passed hrest)
      (not_passed_of_isVisible (by decide) htext.closed)
  | case2 k t after found ih =>
    have hbytes := k.bytes_next
    rw [found] at hbytes
    rw [lexemes_of_some (congrArg Prod.fst found), found]
    rcases part_of_next hk hbefore htext hrest found with
      ⟨rfl, hinside, hafter⟩ | ⟨hother, front, more, hfront, hmore, hafter⟩
    · rw [hinside] at hbytes
      exact ⟨[], _, after, rfl, hinside, hafter, hbytes, rfl, fun _ h => absurd h List.not_mem_nil⟩
    · obtain ⟨-, -, -, -, hmidway, -⟩ := exists_left hk found
      obtain ⟨passed, mark, l, hlexemes, hinside, hl, hend, hsemicolon, hpassed⟩ :=
        ih hmidway hfront hmore hafter
      exact ⟨_ :: passed, mark, l, by rw [hlexemes]; rfl, hinside, hl, hend.trans hbytes,
        hsemicolon, List.forall_mem_cons.mpr ⟨hother, hpassed⟩⟩

/-- The cursor behind the semicolon may have passed blanks and comments. -/
theorem lexemes_part {before text behind : List Char} (hk : k.inside = [])
    (hbefore : ¬InComment before) (htext : Unparted before text)
    (hrest : k.rest = text ++ ';' :: behind) (hahead : l.ahead = visible behind)
    (hend : l.position + bytes l.rest = k.position + bytes k.rest) :
    ∃ front mark, k.lexemes = front ++ mark :: l.lexemes ∧
      mark.token = .punctuation ';' ∧ ∀ lexeme ∈ front, lexeme.token ≠ .punctuation ';' := by
  obtain ⟨front, mark, m, hlexemes, hm, hbehind, hend', hmark, hfront⟩ :=
    exists_part (midway_of_inside hk) hbefore htext hrest
  rw [hk] at hend'
  have hsame : m.ahead = l.ahead := by rw [hahead, ← hbehind, ahead_of_inside hm]
  rw [lexemes_of_ahead hm (inside_of_ahead hahead) hsame (hend'.trans hend.symm)] at hlexemes
  exact ⟨front, mark, hlexemes, hmark, hfront⟩

end Cursor

end FragmentAssembly

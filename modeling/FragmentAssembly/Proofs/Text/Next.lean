import FragmentAssembly.Proofs.Grammar.Place

/-!
# Next tokens

What the next token of a text is taken from, and how far the cursor moves.  Tokens begin behind the
cursor and one behind the other, and a text that is cut where one of them begins is split there.
-/

namespace FragmentAssembly

/-! ## Bytes -/

theorem bytes_pos {cs : List Char} (h : cs ≠ []) : 0 < bytes cs := by
  obtain ⟨c, cs, rfl⟩ := List.exists_cons_of_ne_nil h
  have hbytes : bytes (c :: cs) = c.utf8Size + bytes cs := List.sum_cons
  have hpos := c.utf8Size_pos
  omega

/-- Of two beginnings of a text, the one with fewer bytes is a beginning of the other one. -/
theorem exists_of_bytes_le {xs ys front more : List Char} (h : xs ++ ys = front ++ more)
    (hle : bytes xs ≤ bytes front) : ∃ cs, front = xs ++ cs ∧ ys = cs ++ more := by
  rcases List.append_eq_append_iff.mp h with hcs | ⟨cs, rfl, rfl⟩
  · exact hcs
  · have hnil : cs = [] := by
      by_contra hne
      have hpos := bytes_pos hne
      rw [bytes_append] at hle
      omega
    subst hnil
    exact ⟨[], by rw [List.append_nil, List.append_nil], rfl⟩

namespace Cursor

/-! ## Lexemes -/

theorem position_le_advance (n : Nat) (k : Cursor) : k.position ≤ (k.advance n).position := by
  induction n generalizing k with
  | zero => exact Nat.le_refl _
  | succ n ih =>
    refine Nat.le_trans ?_ (ih k.step)
    unfold step
    dsimp only
    split
    · exact Nat.le_add_right _ _
    · split <;> exact (Nat.le_add_right _ _).trans (Nat.le_add_right _ _)

theorem position_le_skipIgnored (k : Cursor) : k.position ≤ k.skipIgnored.position := by
  unfold skipIgnored
  split
  · exact position_le_advance _ k
  · exact Nat.le_refl _

theorem lexemes_of_none {k : Cursor} (h : k.next.1 = none) : k.lexemes = [] := by
  rw [lexemes]
  split
  · rfl
  · rename_i hnext
    rw [hnext] at h
    cases h

theorem lexemes_of_some {k : Cursor} {t : Token} (h : k.next.1 = some t) : k.lexemes =
    ⟨t, k.next.2.tokenStart, k.next.2.position⟩ :: k.next.2.lexemes := by
  rw [lexemes]
  split
  · rename_i hnext
    rw [hnext] at h
    cases h
  · rename_i hnext
    rw [hnext] at h ⊢
    cases h
    rfl

theorem mem_lexemes {k : Cursor} {lexeme : Lexeme} : lexeme ∈ k.lexemes ↔
    ∃ t, k.next.1 = some t ∧
      (lexeme = ⟨t, k.next.2.tokenStart, k.next.2.position⟩ ∨ lexeme ∈ k.next.2.lexemes) := by
  cases hnext : k.next.1 with
  | none => simp [lexemes_of_none hnext]
  | some t => simp [lexemes_of_some hnext]

theorem inside_of_next_none {k : Cursor} (h : k.next.1 = none) : k.inside = [] := by
  cases hinside : k.inside with
  | nil => rfl
  | cons byte bytes =>
    rw [next_of_bytes hinside] at h
    cases h

/-- If there is no token, then only blanks and comments are passed. -/
theorem rest_of_next_none {k : Cursor} (h : k.next.1 = none) :
    k.skipIgnored.rest = [] ∧ k.next.2 = k.skipIgnored.markToken := by
  have hinside := inside_of_next_none h
  cases hlead : Token.lead? k.skipIgnored.rest with
  | none =>
    refine ⟨?_, by rw [next_of_none hinside hlead]⟩
    by_contra hne
    obtain ⟨t, ht⟩ := Token.exists_lead? hne
    rw [hlead] at ht
    cases ht
  | some t =>
    rw [next_of_some hinside hlead] at h
    cases h

/-- Behind the last token there is none. -/
theorem next_none_of_none {k : Cursor} (h : k.next.1 = none) : k.next.2.next.1 = none := by
  obtain ⟨hnil, hnext⟩ := rest_of_next_none h
  have hmarked : k.skipIgnored.markToken.inside = [] :=
    k.skipIgnored_inside.trans (inside_of_next_none h)
  have hskip : k.skipIgnored.markToken.skipIgnored.rest = [] := by
    rw [rest_skipIgnored hmarked, ahead_of_inside hmarked]
    show Token.visible k.skipIgnored.rest = []
    rw [hnil]
    rfl
  rw [hnext, next_of_none hmarked (by rw [hskip]; rfl)]

/-- The token that follows `n` others. -/
theorem exists_lexeme (n : Nat) {k : Cursor} {start : Nat}
    (h : (((fun k : Cursor => k.next.2)^[n] k).next.1.isSome &&
      ((fun k : Cursor => k.next.2)^[n + 1] k).tokenStart = start) = true) :
    ∃ lexeme ∈ k.lexemes, lexeme.start = start := by
  rw [Bool.and_eq_true, decide_eq_true_eq] at h
  induction n generalizing k with
  | zero =>
    obtain ⟨t, ht⟩ := Option.isSome_iff_exists.mp h.1
    exact ⟨_, mem_lexemes.mpr ⟨t, ht, .inl rfl⟩, h.2⟩
  | succ n ih =>
    obtain ⟨lexeme, hmem, hstart⟩ := ih h
    cases hnext : k.next.1 with
    | some t => exact ⟨lexeme, mem_lexemes.mpr ⟨t, hnext, .inr hmem⟩, hstart⟩
    | none =>
      obtain ⟨t, ht, -⟩ := mem_lexemes.mp hmem
      rw [next_none_of_none hnext] at ht
      cases ht

/-! ## Places of tokens -/

theorem tokenStart_next (k : Cursor) : k.next.2.tokenStart = k.skipIgnored.position := by
  unfold next
  dsimp only
  split
  · rfl
  · rw [tokenStart_pass]
    rfl

theorem position_le_stepByte (k : Cursor) : k.position ≤ k.stepByte.position := by
  unfold stepByte
  split
  · exact Nat.le_succ _
  · exact Nat.le_refl _
  · exact Nat.le_succ _

theorem position_le_pass (k : Cursor) (t : Token) : k.position ≤ (k.pass t).position := by
  cases t with
  | integer digits => exact position_le_advance _ k
  | identifier name => exact position_le_advance _ k
  | punctuation mark => exact k.position_le_stepByte

theorem position_le_next (k : Cursor) : k.position ≤ k.next.2.position := by
  have hskip := k.position_le_skipIgnored
  unfold next
  dsimp only
  split
  · exact hskip
  · exact hskip.trans (position_le_pass k.skipIgnored.markToken _)

/-- A token that is taken from a character has at least one byte. -/
theorem position_lt_pass {k : Cursor} {t : Token} (hlead : Token.lead? k.rest = some t) :
    k.position < (k.pass t).position := by
  obtain ⟨c, cs, hrest⟩ : ∃ c cs, k.rest = c :: cs := by
    apply List.exists_cons_of_ne_nil
    intro hnil
    rw [hnil] at hlead
    cases hlead
  have hstep : k.position < k.step.position := by
    have hpos := c.utf8Size_pos
    rw [step, hrest]
    dsimp only
    split <;>
      · dsimp only
        omega
  have hlength := Token.text_length_pos hlead
  have hadvance : k.position < (k.advance t.text.length).position := by
    rw [← Nat.sub_add_cancel hlength, advance]
    exact hstep.trans_le (position_le_advance _ _)
  cases t with
  | integer digits => exact hadvance
  | identifier name => exact hadvance
  | punctuation mark =>
    rw [pass]
    cases hinside : k.inside with
    | nil =>
      rw [stepByte_of_rest hinside hrest]
      exact Nat.lt_succ_self _
    | cons byte rest =>
      rw [stepByte, hinside]
      exact Nat.lt_succ_self _

/-- A token takes as many bytes from the text as it passes. -/
theorem bytes_pass (k : Cursor) (t : Token) :
    (k.pass t).position + (k.pass t).inside.length + bytes (k.pass t).rest =
      k.position + k.inside.length + bytes k.rest := by
  cases t with
  | integer digits => exact bytes_advance _ k
  | identifier name => exact bytes_advance _ k
  | punctuation mark =>
    rw [pass]
    cases hinside : k.inside with
    | cons byte rest =>
      rw [stepByte, hinside, List.length_cons]
      dsimp only
      omega
    | nil =>
      cases hrest : k.rest with
      | nil =>
        rw [stepByte, hinside, hrest]
        dsimp only
        rw [hinside, hrest]
      | cons c cs =>
        have hbytes : bytes (c :: cs) = c.utf8Size + bytes cs := List.sum_cons
        have hpos := c.utf8Size_pos
        rw [stepByte_rest hinside, stepByte_of_rest hinside hrest, hrest, List.drop_one,
          List.tail_cons, List.length_tail, String.length_utf8EncodeChar, hbytes, List.length_nil]
        dsimp only
        omega

/-- Tokens begin behind the cursor. -/
theorem position_le_of_mem_lexemes {k : Cursor} {lexeme : Lexeme} (h : lexeme ∈ k.lexemes) :
    k.position ≤ lexeme.start := by
  induction k using lexemes.induct with
  | case1 k after found =>
    rw [lexemes_of_none (congrArg Prod.fst found)] at h
    cases h
  | case2 k t after found ih =>
    rw [lexemes_of_some (congrArg Prod.fst found), List.mem_cons] at h
    rcases h with rfl | h
    · rw [tokenStart_next]
      exact k.position_le_skipIgnored
    · rw [found] at h
      have hle := k.position_le_next
      rw [found] at hle
      exact hle.trans (ih h)

/-- A text whose next token is `t`, taken from the characters `item`. -/
structure Finds (k : Cursor) (t : Token) (after : Cursor) (gap item behind : List Char) : Prop where
  isGap : Token.IsGap gap
  solid : Token.isSolid (item ++ behind) = true
  lead : Token.lead? (item ++ behind) = some t
  before : k.rest = gap ++ (item ++ behind)
  behind : after.rest = behind
  length : item.length = t.text.length
  start : after.tokenStart = k.position + bytes gap
  stop : after.position + after.inside.length = after.tokenStart + bytes item
  taken : after.tokenStart < after.position
  /-- Only a mark can be a part of what it is taken from. -/
  part : (∀ mark, t ≠ .punctuation mark) ∧ after.inside = [] ∨ ∃ c, item = [c] ∧
    t = .punctuation (Token.leadByte c) ∧ after.inside = (String.utf8EncodeChar c).tail

theorem exists_finds {k after : Cursor} {t : Token} (hinside : k.inside = [])
    (h : k.next = (some t, after)) : ∃ gap item behind, k.Finds t after gap item behind := by
  have hmarked : k.skipIgnored.markToken.inside = [] := k.skipIgnored_inside.trans hinside
  have hskipped : k.skipIgnored.markToken.rest = Token.visible k.rest := by
    rw [← ahead_of_inside hinside, ← rest_skipIgnored hinside]
    rfl
  have hbytes := bytes_skipIgnored_of_inside hinside
  cases hlead : Token.lead? k.skipIgnored.rest with
  | none =>
    rw [next_of_none hinside hlead] at h
    cases h
  | some found =>
    rw [next_of_some hinside hlead] at h
    cases h
    change Token.lead? k.skipIgnored.markToken.rest = _ at hlead
    change k.skipIgnored.markToken.position + bytes k.skipIgnored.markToken.rest = _ at hbytes
    have hwhole := inside_pass hmarked hlead
    have hpassed := bytes_pass k.skipIgnored.markToken t
    have hafter := pass_rest hmarked t
    have hlt := position_lt_pass hlead
    rw [hmarked, List.length_nil, Nat.add_zero, hafter] at hpassed
    rw [hskipped] at hlead hbytes hafter hpassed
    have hne : Token.visible k.rest ≠ [] := by
      intro hnil
      rw [hnil] at hlead
      cases hlead
    obtain ⟨gap, hgap, hgapped⟩ := Token.exists_gap_of_ne_nil hne
    have hsolid := Token.isSolid_visible hne
    generalize Token.visible k.rest = cs at *
    -- the characters of the token and what stands behind them
    obtain ⟨item, behind, rfl, hlength⟩ : ∃ item behind, cs = item ++ behind ∧
        item.length = t.text.length :=
      ⟨_, _, (cs.take_append_drop _).symm, List.length_take_of_le (Token.lead?_length_le hlead)⟩
    rw [← hlength, List.drop_left] at hafter hpassed
    rw [hgapped, bytes_append gap, bytes_append] at hbytes
    rw [bytes_append] at hpassed
    have hstart : k.skipIgnored.markToken.position = k.position + bytes gap := by omega
    refine ⟨gap, item, behind, hgap, hsolid, hlead, hgapped, hafter, hlength,
      (tokenStart_pass _ t).trans hstart, ?_, ?_, ?_⟩
    · rw [tokenStart_pass]
      change _ = k.skipIgnored.markToken.position + _
      omega
    · rw [tokenStart_pass]
      exact hlt
    · rw [hwhole]
      cases t with
      | integer | identifier => exact .inl ⟨fun _ => Token.noConfusion, trivial⟩
      | punctuation mark =>
        obtain ⟨c, rest, hcs, rfl⟩ := exists_of_lead?_punctuation hlead
        obtain ⟨d, rfl⟩ := List.length_eq_one_iff.mp (hlength.trans String.length_singleton)
        obtain ⟨rfl, -⟩ := List.cons.inj hcs
        refine .inr ⟨d, rfl, rfl, ?_⟩
        rw [pass, stepByte_of_rest hmarked hskipped]

/-- Where the text is cut behind a token, the cut is not inside what the token is taken from. -/
theorem Finds.exists_behind {k after : Cursor} {t : Token} {gap item behind cs more : List Char}
    (h : k.Finds t after gap item behind) (hmore : item ++ behind = cs ++ more)
    (hcut : after.position ≤ after.tokenStart + bytes cs) :
    ∃ rest, cs = item ++ rest ∧ behind = rest ++ more := by
  rcases List.append_eq_append_iff.mp hmore with hcs | ⟨inner, rfl, rfl⟩
  · exact hcs
  suffices inner = [] by
    subst this
    exact ⟨[], by rw [List.append_nil, List.append_nil], rfl⟩
  rcases h.part with ⟨-, hnil⟩ | ⟨c, hone, -⟩
  · -- the token is all of its characters
    have hstop := h.stop
    rw [hnil, List.length_nil, bytes_append] at hstop
    by_contra hne
    have hpos := bytes_pos hne
    omega
  · -- the token is the first byte of a character, and the cut has that behind it
    have htaken := h.taken
    have hne : cs ≠ [] := by
      rintro rfl
      exact absurd hcut (Nat.not_le_of_lt htaken)
    have hpos := List.length_pos_iff.mpr hne
    have hlength := congrArg List.length hone
    rw [List.length_append, List.length_singleton] at hlength
    exact List.length_eq_zero_iff.mp (by omega)

/-- A text that is cut where a token begins, which is never inside a character, is split there. -/
theorem splits_of_mem_lexemes {k : Cursor} {front more : List Char} {lexeme : Lexeme}
    (hrest : k.rest = front ++ more) (hmem : lexeme ∈ k.lexemes)
    (hstart : lexeme.start = k.position + k.inside.length + bytes front) :
    Token.Splits front more := by
  -- the cut is in front of the next token or behind it
  induction k using lexemes.induct generalizing front with
  | case1 k after found =>
    rw [lexemes_of_none (congrArg Prod.fst found)] at hmem
    cases hmem
  | case2 k t after found ih =>
    rw [lexemes_of_some (congrArg Prod.fst found), List.mem_cons, found] at hmem
    dsimp only at hmem
    cases hinside : k.inside with
    | cons byte rest =>
      -- the next byte begins in front of the text that is cut
      rw [hinside, List.length_cons] at hstart
      rw [next_of_bytes hinside] at found
      cases found
      rcases hmem with rfl | hmem
      · change k.position = _ at hstart
        omega
      · refine ih hrest hmem (hstart.trans ?_)
        dsimp only
        omega
    | nil =>
      obtain ⟨gap, item, behind, hfinds⟩ := exists_finds hinside found
      have hstop := hfinds.stop
      rw [hinside, List.length_nil, Nat.add_zero] at hstart
      rw [hfinds.before] at hrest
      rcases hmem with rfl | hmem
      · obtain ⟨cs, rfl, hmore⟩ := exists_of_bytes_le hrest (by
          have hgap := hfinds.start
          dsimp only at hstart
          omega)
        dsimp only at hstart
        rw [hfinds.start, bytes_append] at hstart
        obtain rfl : cs = [] := by
          by_contra hcs
          have hpos := bytes_pos hcs
          omega
        have hsolid := hfinds.solid
        rw [hmore] at hsolid
        exact (Token.Splits.nil hsolid).append_gap hfinds.isGap
      · have hle := position_le_of_mem_lexemes hmem
        have hstart' := hfinds.start
        have htaken := hfinds.taken
        obtain ⟨cs, rfl, hmore⟩ := exists_of_bytes_le hrest (by omega)
        rw [bytes_append] at hstart
        obtain ⟨cs, rfl, hbehind⟩ := hfinds.exists_behind hmore (by omega)
        have hsplits := ih (hfinds.behind.trans hbehind) hmem (by
          rw [bytes_append] at hstart
          omega)
        have hlead := hfinds.lead
        have hsolid := hfinds.solid
        rw [hbehind] at hlead hsolid
        exact (hsplits.append_token hlead hfinds.length hsolid).append_gap hfinds.isGap

end Cursor

end FragmentAssembly

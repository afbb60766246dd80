import FragmentAssembly.Proofs.Text.Lexemes

/-!
# Texts and their lexemes

A text is made of the tokens that a cursor finds in it, with gaps between them.  So nothing of the
text is lost but blanks and comments.  A cursor reads the tokens one after the other, whatever else
it is asked for meanwhile.
-/

namespace FragmentAssembly

open Token

/-! ## Bytes in front of the cursor -/

namespace Cursor

/-- The bytes that are left of the text. -/
def left (k : Cursor) : List Char :=
  k.inside.map Char.ofUInt8 ++ byteChars k.rest

/-- Only a character outside ASCII can have the cursor inside. -/
def Midway (k : Cursor) : Prop :=
  ∀ byte ∈ k.inside, 128 ≤ byte.toNat

variable {k after : Cursor} {t : Token}

theorem midway_of_inside (h : k.inside = []) : k.Midway := by
  rw [Midway, h]
  exact fun _ hmem => absurd hmem List.not_mem_nil

theorem left_of_inside (h : k.inside = []) : k.left = byteChars k.rest := by
  rw [left, h]
  rfl

/-- A byte of a character outside ASCII is a mark. -/
theorem fits_byte {byte : UInt8} (h : 128 ≤ byte.toNat) (before behind : List Char) :
    (punctuation (Char.ofUInt8 byte)).Fits before behind := by
  rw [← toNat_ofUInt8] at h
  exact ⟨isVisible_of_le h, isAlphanum_of_le h⟩

/-- A token that is no mark fits in front of the bytes of what is behind it, and is its own
bytes. -/
theorem fits_byteChars {behind : List Char} (h : t.Fits [] behind)
    (hmark : ∀ mark, t ≠ .punctuation mark) :
    t.Fits [] (byteChars behind) ∧ byteChars t.text.toList = t.text.toList := by
  have hall := List.all_eq_true.mp (h.all_isNameChar hmark)
  refine ⟨?_, byteChars_of_size fun c hc => size_of_isNameChar (hall c hc)⟩
  cases t with
  | integer digits =>
    obtain ⟨hne, hdigits, -, hbehind⟩ := h
    exact ⟨hne, hdigits, rfl, (uniform_isDigit.not.head_byteChars behind).trans hbehind⟩
  | identifier name =>
    obtain ⟨hname, hbehind⟩ := h
    exact ⟨hname, (uniform_isNameChar.not.head_byteChars behind).trans hbehind⟩
  | punctuation mark => exact absurd rfl (hmark mark)

/-- A token that is no mark is whole. -/
theorem Finds.fits {gap item behind : List Char} (h : k.Finds t after gap item behind)
    (hmark : ∀ mark, t ≠ .punctuation mark) : item = t.text.toList ∧ t.Fits [] behind := by
  have hwhole : t.IsWhole := by
    cases t with
    | integer | identifier => exact trivial
    | punctuation mark => exact absurd rfl (hmark mark)
  obtain ⟨rest, hsplit, hfits⟩ := fits_of_lead? h.lead h.solid hwhole
  obtain ⟨rfl, rfl⟩ := List.append_inj hsplit (h.length.trans String.length_toList.symm)
  exact ⟨rfl, hfits⟩

/-- The bytes of the next token, and of what is behind it. -/
theorem left_of_finds {gap item behind : List Char} (h : k.Finds t after gap item behind) :
    byteChars (item ++ behind) = t.text.toList ++ after.left ∧ t.Fits [] after.left ∧
      after.Midway ∧ bytes item = t.text.toList.length + after.inside.length := by
  have hlead := h.lead
  rcases h.part with ⟨hmark, hinside⟩ | ⟨c, rfl, rfl, hinside⟩
  · obtain ⟨rfl, hfits⟩ := h.fits hmark
    obtain ⟨hfits, htext⟩ := fits_byteChars hfits hmark
    have hleft : after.left = byteChars behind := by rw [left_of_inside hinside, h.behind]
    refine ⟨?_, hleft ▸ hfits, midway_of_inside hinside, ?_⟩
    · rw [byteChars_append, htext, hleft]
    · rw [← length_byteChars, htext, hinside]
      rfl
  · -- the character is neither a digit nor a letter, and so none of its bytes is one
    have hplain : c.isAlphanum = false := by
      rw [List.singleton_append, Token.lead?] at hlead
      split at hlead
      · cases hlead
      · rename_i hdigit
        split at hlead
        · cases hlead
        · rename_i halpha
          rw [Char.isAlphanum, Bool.eq_false_iff.mpr hdigit, Bool.eq_false_iff.mpr halpha]
          rfl
    have hsize : bytes [c] = c.utf8Size := Nat.add_zero _
    have hpos := c.utf8Size_pos
    refine ⟨?_, ⟨?_, ?_⟩, ?_, ?_⟩
    · rw [List.singleton_append, byteChars_cons_leadByte, left, hinside, h.behind, text,
        String.toList_singleton]
      rfl
    · rw [uniform_isVisible.leadByte]
      exact h.solid
    · rw [uniform_isAlphanum.leadByte, hplain]
    · intro byte hbyte
      rw [hinside] at hbyte
      refine le_of_mem_utf8EncodeChar (fun hone => ?_) (List.mem_of_mem_tail hbyte)
      rw [String.utf8EncodeChar_eq_singleton hone] at hbyte
      exact absurd hbyte List.not_mem_nil
    · rw [hsize, hinside, text, String.toList_singleton, List.length_singleton, List.length_tail,
        String.length_utf8EncodeChar]
      omega

/-- What a cursor reads is in front of it, behind blanks and comments. -/
theorem exists_left (hk : k.Midway) (h : k.next = (some t, after)) :
    ∃ gap, IsGap gap ∧ k.left = gap ++ (t.text.toList ++ after.left) ∧ t.Fits [] after.left ∧
      after.Midway ∧ after.tokenStart = k.position + gap.length ∧
      after.position = k.position + gap.length + t.text.toList.length := by
  cases hinside : k.inside with
  | cons byte rest =>
    rw [next_of_bytes hinside] at h
    cases h
    have hbytes : ∀ b ∈ byte :: rest, 128 ≤ b.toNat := hinside ▸ hk
    refine ⟨[], .nil, ?_, fits_byte (hbytes byte List.mem_cons_self) _ _,
      fun b hb => hbytes b (List.mem_cons_of_mem byte hb), rfl, ?_⟩
    · rw [left, hinside, text, String.toList_singleton]
      rfl
    · rw [text, String.toList_singleton]
      rfl
  | nil =>
    obtain ⟨gap, item, behind, hfinds⟩ := exists_finds hinside h
    obtain ⟨hleft, hfits, hmidway, hsize⟩ := left_of_finds hfinds
    have hstart := hfinds.start
    have hstop := hfinds.stop
    refine ⟨byteChars gap, isGap_byteChars hfinds.isGap, ?_, hfits, hmidway, ?_, ?_⟩
    · rw [left_of_inside hinside, hfinds.before, byteChars_append, hleft]
    · rw [hstart, length_byteChars]
    · rw [length_byteChars]
      omega

theorem trailing_of_next_none (h : k.next.1 = none) : IsTrailing k.left := by
  have hinside := inside_of_next_none h
  have hnil := (rest_of_next_none h).1
  rw [rest_skipIgnored hinside, ahead_of_inside hinside] at hnil
  rw [left_of_inside hinside]
  exact isTrailing_byteChars (isTrailing_iff.mpr hnil)

/-- A lexer that goes on where the cursor stands finds what the cursor reads. -/
theorem scan_left (hk : k.Midway) : scan k.position k.left = k.lexemes.map some := by
  induction k using lexemes.induct with
  | case1 k after found =>
    have hnone : k.next.1 = none := congrArg Prod.fst found
    rw [scan_trailing _ (trailing_of_next_none hnone), lexemes_of_none hnone]
    rfl
  | case2 k t after found ih =>
    obtain ⟨gap, hgap, hleft, hfits, hmidway, hstart, hstop⟩ := exists_left hk found
    rw [lexemes_of_some (congrArg Prod.fst found), found, List.map_cons, ← ih hmidway, hleft,
      scan_gap hgap, scan_token hfits, hstart, hstop]

end Cursor

/-! ## Lexemes -/

/-- A text with `before` in front of it, and its lexemes.  Both are given as bytes. -/
inductive Lexed : List Char → List Char → List Lexeme → Prop where
  | trailing {before cs : List Char} (h : IsTrailing cs) : Lexed before cs []
  | token {before gap behind : List Char} {t : Token} {lexemes : List Lexeme} (hgap : IsGap gap)
    (hfits : t.Fits (before ++ gap) behind)
    (rest : Lexed (before ++ gap ++ t.text.toList) behind lexemes) :
    Lexed before (gap ++ (t.text.toList ++ behind))
      (⟨t, (before ++ gap).length, (before ++ gap ++ t.text.toList).length⟩ :: lexemes)

theorem lexed_lexemes {k : Cursor} {before : List Char} (hk : k.Midway)
    (hposition : k.position = before.length)
    (hready : before.getLast?.all (!Char.isDigit ·) = true ∨
      k.left.head?.all (!Char.isDigit ·) = true) :
    Lexed before k.left k.lexemes := by
  induction k using Cursor.lexemes.induct generalizing before with
  | case1 k after found =>
    have hnone : k.next.1 = none := congrArg Prod.fst found
    rw [Cursor.lexemes_of_none hnone]
    exact .trailing (Cursor.trailing_of_next_none hnone)
  | case2 k t after found ih =>
    obtain ⟨gap, hgap, hleft, hnext, hmidway, hstart, hstop⟩ := Cursor.exists_left hk found
    rw [hposition, ← List.length_append] at hstart hstop
    rw [← List.length_append] at hstop
    rw [hleft] at hready
    have hfits : t.Fits (before ++ gap) after.left := hnext.of_nil (hgap.parts_digits hready)
    -- the rest of the text begins where the token stops
    have hlexed := ih hmidway hstop hfits.digit_behind
    rw [Cursor.lexemes_of_some (congrArg Prod.fst found), found, hstart, hstop, hleft]
    exact .token hgap hfits hlexed

namespace Lexed

variable {before cs : List Char} {lexemes : List Lexeme}

theorem slice (h : Lexed before cs lexemes) {l : Lexeme} (hl : l ∈ lexemes) :
    ∃ front behind, cs = front ++ (l.token.text.toList ++ behind) ∧
      l.start = (before ++ front).length ∧
      l.stop = (before ++ front ++ l.token.text.toList).length ∧
      l.token.Fits (before ++ front) behind := by
  induction h with
  | trailing => cases hl
  | @token before gap behind t lexemes hgap hfits _ ih =>
    rcases List.mem_cons.mp hl with rfl | hl
    · exact ⟨gap, behind, rfl, rfl, rfl, hfits⟩
    · obtain ⟨front, rest, hsplit, hstart, hstop, hfits'⟩ := ih hl
      refine ⟨gap ++ (t.text.toList ++ front), rest, ?_, ?_, ?_, ?_⟩
      · rw [hsplit]
        simp only [List.append_assoc]
      · simpa only [List.append_assoc] using hstart
      · simpa only [List.append_assoc] using hstop
      · simpa only [List.append_assoc] using hfits'

theorem le_start (h : Lexed before cs lexemes) {l : Lexeme} (hl : l ∈ lexemes) :
    before.length ≤ l.start := by
  obtain ⟨front, -, -, hstart, -⟩ := h.slice hl
  rw [hstart, List.length_append]
  exact Nat.le_add_right _ _

theorem increasing (h : Lexed before cs lexemes) :
    lexemes.Pairwise fun l m => l.stop ≤ m.start := by
  induction h with
  | trailing => exact .nil
  | token _ _ rest ih => exact .cons (fun m hm => rest.le_start hm) ih

/-- Whether the character behind `front` is in a token. -/
theorem outside (h : Lexed before cs lexemes) (hbefore : ¬InComment before)
    {front behind : List Char} {c : Char} (hsplit : cs = front ++ c :: behind) :
    (∀ l ∈ lexemes, ¬(l.start ≤ (before ++ front).length ∧ (before ++ front).length < l.stop)) ↔
      isBlank c = true ∨ InComment (before ++ front ++ [c]) := by
  -- the character is in the gap in front of a token, in the token or behind it
  induction h generalizing front with
  | trailing h => exact ⟨fun _ => h.passed hsplit, fun _ l hl => by cases hl⟩
  | @token before gap rest t lexemes hgap hfits hrest ih =>
    have hgapped := hgap.not_inComment hbefore
    have htoken := not_inComment_append hgapped hfits.all_isVisible
    rcases append_eq_append_cons hsplit with ⟨tail, rfl⟩ | ⟨inner, rfl, hinner⟩
    · -- in the gap
      refine ⟨fun _ => hgap.passed rfl, fun _ l hl hin => ?_⟩
      have hstart : (before ++ (front ++ c :: tail)).length ≤ l.start := by
        rcases List.mem_cons.mp hl with rfl | hl
        · exact Nat.le_refl _
        · have hle := hrest.le_start hl
          rw [List.length_append] at hle
          omega
      simp only [List.length_append, List.length_cons] at hstart hin
      omega
    · rcases append_eq_append_cons hinner with ⟨tail, htail⟩ | ⟨onward, rfl, honward⟩
      · -- in the token
        have hvisible := hfits.all_isVisible
        rw [htail, List.all_append, List.all_cons, Bool.and_eq_true, Bool.and_eq_true] at hvisible
        have hopen : ¬InComment (before ++ (gap ++ inner) ++ [c]) := by
          have hshown : (inner ++ [c]).all isVisible = true := by
            rw [List.all_append, List.all_cons, hvisible.1, hvisible.2.1]
            rfl
          have hnot := not_inComment_append hgapped hshown
          simpa only [List.append_assoc] using hnot
        have hblank : ¬isBlank c = true := by
          have hc := hvisible.2.1
          rw [isVisible, Bool.and_eq_true, Bool.not_eq_true'] at hc
          exact Bool.eq_false_iff.mp hc.2
        refine ⟨fun hout => ?_, fun hpassed => absurd hpassed (not_or_intro hblank hopen)⟩
        have hlexeme : ¬((before ++ gap).length ≤ (before ++ (gap ++ inner)).length ∧
            (before ++ (gap ++ inner)).length < (before ++ gap ++ t.text.toList).length) :=
          hout _ List.mem_cons_self
        simp only [htail, List.length_append, List.length_cons] at hlexeme
        omega
      · -- behind the token
        have hnext := ih htoken honward
        simp only [List.append_assoc] at hnext ⊢
        rw [← hnext]
        refine ⟨fun hout l hl => hout l (List.mem_cons_of_mem _ hl), fun hout l hl => ?_⟩
        rcases List.mem_cons.mp hl with rfl | hl
        · dsimp only
          simp only [List.length_append]
          omega
        · exact hout l hl

end Lexed

/-- Where the tokens of a text, given as its bytes, are.  Nothing is lost between them but blanks
and comments. -/
structure Lossless (cs : List Char) (lexemes : List Lexeme) : Prop where
  nonempty : ∀ l ∈ lexemes, l.start < l.stop
  increasing : lexemes.Pairwise fun l m => l.stop ≤ m.start
  slice : ∀ l ∈ lexemes, ∃ before behind, cs = before ++ (l.token.text.toList ++ behind) ∧
    l.start = before.length ∧ l.stop = (before ++ l.token.text.toList).length ∧
    l.token.Fits before behind
  outside : ∀ before c behind, cs = before ++ c :: behind →
    ((∀ l ∈ lexemes, ¬(l.start ≤ before.length ∧ before.length < l.stop)) ↔
      isBlank c = true ∨ InComment (before ++ [c]))

theorem Lexed.lossless {cs : List Char} {lexemes : List Lexeme} (h : Lexed [] cs lexemes) :
    Lossless cs lexemes where
  nonempty l hl := by
    obtain ⟨front, behind, -, hstart, hstop, hfits⟩ := h.slice hl
    have hpos := List.length_pos_iff.mpr hfits.text_ne_nil
    rw [List.nil_append] at hstart hstop
    rw [hstart, hstop, List.length_append]
    exact Nat.lt_add_of_pos_right hpos
  increasing := h.increasing
  slice l hl := h.slice hl
  outside _ _ _ hsplit := h.outside List.not_mem_nil hsplit

/-! ## Reading token by token -/

/-- The answers to a row of calls for the next token, each with the place where it starts.  Between
them the cursor may be moved to the next token, and asked for it or for a text that is not there. -/
inductive Calls : Cursor → List (Option Token × Nat) → Prop where
  | done (k : Cursor) : Calls k []
  | next {k : Cursor} {answers : List (Option Token × Nat)} (rest : Calls k.next.2 answers) :
    Calls k ((k.next.1, k.next.2.tokenStart) :: answers)
  -- a look at the next token leaves the cursor as it is
  | peek {k : Cursor} {t : Option Token} {answers : List (Option Token × Nat)} (h : k.peek? = t)
    (rest : Calls k answers) : Calls k answers
  | skip {k : Cursor} {answers : List (Option Token × Nat)} (rest : Calls k.skipIgnored answers) :
    Calls k answers
  | accept {k : Cursor} {expected : String} {answers : List (Option Token × Nat)}
    (h : (k.accept expected).1 = false) (rest : Calls (k.accept expected).2 answers) :
    Calls k answers
  | acceptWord {k : Cursor} {word : String} {answers : List (Option Token × Nat)}
    (h : (k.acceptWord word).1 = false) (rest : Calls (k.acceptWord word).2 answers) :
    Calls k answers

namespace Cursor

variable {k : Cursor}

/-- The first `n` answers from `k` on.  Behind the last token the end of the text is found. -/
def answers (k : Cursor) (n : Nat) : List (Option Token × Nat) :=
  (k.lexemes.map (fun l : Lexeme => (some l.token, l.start)) ++
    List.replicate n (none, k.position + k.inside.length + bytes k.rest)).take n

/-- Behind blanks and comments there are no more of them. -/
theorem skipIgnored_skipIgnored (k : Cursor) : k.skipIgnored.skipIgnored = k.skipIgnored := by
  by_cases h : k.inside = []
  · have hnone : ignoredLength false k.skipIgnored.rest = 0 := by
      rw [rest_skipIgnored h, ahead_of_inside h, ignoredLength_visible]
    rw [skipIgnored_of_inside (k.skipIgnored_inside.trans h), hnone, advance]
  · rw [skipIgnored_of_ne_nil h, skipIgnored_of_ne_nil h]

theorem next_skipIgnored (k : Cursor) : k.skipIgnored.next = k.next := by
  rw [next, next, k.skipIgnored_skipIgnored]

theorem lexemes_of_next {l : Cursor} (h : k.next = l.next) : k.lexemes = l.lexemes := by
  rw [lexemes, lexemes, h]

theorem answers_skipIgnored (k : Cursor) (n : Nat) : k.skipIgnored.answers n = k.answers n := by
  rw [answers, answers, lexemes_of_next k.next_skipIgnored, bytes_skipIgnored]

theorem accept_of_false {expected : String} (h : (k.accept expected).1 = false) :
    (k.accept expected).2 = k.skipIgnored := by
  unfold accept at h ⊢
  dsimp only at h ⊢
  split at h
  · cases h
  · rename_i hother
    rw [if_neg hother]

theorem acceptWord_of_false {word : String} (h : (k.acceptWord word).1 = false) :
    (k.acceptWord word).2 = k.skipIgnored := by
  unfold acceptWord at h ⊢
  dsimp only at h ⊢
  split at h
  · cases h
  · rename_i hother
    rw [if_neg hother]

theorem bytes_next (k : Cursor) :
    k.next.2.position + k.next.2.inside.length + bytes k.next.2.rest =
      k.position + k.inside.length + bytes k.rest := by
  unfold next
  dsimp only
  split
  · exact k.bytes_skipIgnored
  · exact (bytes_pass k.skipIgnored.markToken _).trans k.bytes_skipIgnored

theorem answers_succ (k : Cursor) (n : Nat) : k.answers (n + 1) =
    (k.next.1, k.next.2.tokenStart) :: k.next.2.answers n := by
  rw [answers, answers, k.bytes_next]
  cases hnext : k.next.1 with
  | some t =>
    rw [lexemes_of_some hnext, List.map_cons, List.cons_append, List.take_succ_cons,
      List.take_append, List.take_append, List.take_replicate, List.take_replicate,
      Nat.min_eq_left (by omega), Nat.min_eq_left (by omega)]
  | none =>
    have hstart : k.next.2.tokenStart = k.position + k.inside.length + bytes k.rest := by
      obtain ⟨hnil, hmarked⟩ := rest_of_next_none hnext
      have hrest : k.skipIgnored.markToken.rest = [] := hnil
      have hinside : k.skipIgnored.markToken.inside = [] :=
        k.skipIgnored_inside.trans (inside_of_next_none hnext)
      rw [← k.bytes_next, hmarked, hrest, hinside]
      rfl
    rw [lexemes_of_none hnext, lexemes_of_none (next_none_of_none hnext), hstart, List.map_nil,
      List.nil_append, List.nil_append, List.replicate_succ, List.take_succ_cons,
      List.take_replicate]

end Cursor

theorem Calls.eq_answers {k : Cursor} {answers : List (Option Token × Nat)} (h : Calls k answers) :
    answers = k.answers answers.length := by
  induction h with
  | done => rfl
  | next _ ih => rw [List.length_cons, Cursor.answers_succ, ← ih]
  | peek _ _ ih => exact ih
  | skip _ ih => rwa [Cursor.answers_skipIgnored] at ih
  | accept h _ ih => rwa [Cursor.accept_of_false h, Cursor.answers_skipIgnored] at ih
  | acceptWord h _ ih => rwa [Cursor.acceptWord_of_false h, Cursor.answers_skipIgnored] at ih

/-- A lexer that passes once over the bytes of a text finds a token wherever there is more than
blanks and comments, and a cursor on the text reads the same tokens at the same places. -/
theorem cursor_reads_lexemes (source : String) :
    scan 0 (source.toUTF8.data.toList.map Char.ofUInt8) =
      (Cursor.ofText source).lexemes.map some ∧
    Lossless (source.toUTF8.data.toList.map Char.ofUInt8) (Cursor.ofText source).lexemes ∧
    ∀ answers, Calls (Cursor.ofText source) answers →
      answers = (((Cursor.ofText source).lexemes.map fun l : Lexeme => (some l.token, l.start)) ++
        List.replicate answers.length (none, source.utf8ByteSize)).take answers.length := by
  have hmidway : (Cursor.ofText source).Midway := Cursor.midway_of_inside rfl
  have hleft : (Cursor.ofText source).left = source.toUTF8.data.toList.map Char.ofUInt8 :=
    (Cursor.left_of_inside rfl).trans (byteChars_toList source)
  have hscan := Cursor.scan_left hmidway
  have hlexed := @lexed_lexemes _ [] hmidway rfl (.inl rfl)
  rw [hleft] at hscan hlexed
  refine ⟨hscan, hlexed.lossless, fun answers h => ?_⟩
  have hend : (Cursor.ofText source).position + (Cursor.ofText source).inside.length +
      bytes (Cursor.ofText source).rest = source.utf8ByteSize := by
    rw [utf8ByteSize_eq_bytes]
    exact Nat.zero_add _
  rw [← hend]
  exact h.eq_answers

theorem cursor_reads_comment : Calls (Cursor.ofText "a#\n12")
      [(some (.identifier "a"), 0), (some (.integer "12"), 3), (none, 5)] ∧
    [(some (.identifier "a"), 0), (some (.integer "12"), 3), (none, 5)] =
      (((Cursor.ofText "a#\n12").lexemes.map fun l : Lexeme => (some l.token, l.start)) ++
        List.replicate 3 (none, "a#\n12".utf8ByteSize)).take 3 := by
  have hcalls : Calls (Cursor.ofText "a#\n12")
      [(some (.identifier "a"), 0), (some (.integer "12"), 3), (none, 5)] := by
    refine @Calls.accept _ "b" _ (by decide) (.next (.skip (.peek rfl ?_)))
    exact @Calls.acceptWord _ "1" _ (by decide) (.next (.next (.done _)))
  exact ⟨hcalls, (cursor_reads_lexemes "a#\n12").2.2 _ hcalls⟩

end FragmentAssembly

import FragmentAssembly.Proofs.Binary32.Text
import FragmentAssembly.Proofs.Reading.Decision
import FragmentAssembly.Proofs.Text.Mark

/-!
# Reading what was written

One lemma for each action that reads one item of text: in front of the text of an item the action
takes this text and returns the item.
-/

namespace FragmentAssembly

/-! ## Characters -/

namespace Token

theorem isSolid_cons_of_isAlphanum {c : Char} (cs : List Char) (h : c.isAlphanum = true) :
    isSolid (c :: cs) = true := by
  have hne : c ≠ '#' ∧ c ≠ ' ' ∧ c ≠ '\t' ∧ c ≠ '\n' ∧ c ≠ '\r' := by
    refine ⟨?_, ?_, ?_, ?_, ?_⟩ <;>
      · rintro rfl
        exact absurd h (by decide)
  simp [isSolid, isBlank, isLineBreak, hne]

theorem isAlphanum_of_isDigit {c : Char} (h : c.isDigit = true) : c.isAlphanum = true := by
  rw [Char.isAlphanum, h, Bool.or_true]

theorem isAlphanum_of_isAlpha {c : Char} (h : c.isAlpha = true) : c.isAlphanum = true := by
  rw [Char.isAlphanum, h, Bool.true_or]

/-- A name ends in front of `cs`. -/
def endsName (cs : List Char) : Bool :=
  cs.head?.all (!isNameChar ·)

theorem not_isDigit_of_isAlpha {c : Char} (h : c.isAlpha = true) : c.isDigit = false := by
  rw [Bool.eq_false_iff]
  intro hdigit
  have hnumber : '0'.val ≤ c.val ∧ c.val ≤ '9'.val :=
    (Bool.and_eq_true_iff.mp hdigit).imp of_decide_eq_true of_decide_eq_true
  have hletter : ('A'.val ≤ c.val ∧ c.val ≤ 'Z'.val) ∨ ('a'.val ≤ c.val ∧ c.val ≤ 'z'.val) := by
    rcases Bool.or_eq_true_iff.mp h with hupper | hlower
    · exact .inl (of_decide_eq_true hupper)
    · exact .inr ((Bool.and_eq_true_iff.mp hlower).imp of_decide_eq_true of_decide_eq_true)
  simp only [UInt32.le_iff_toNat_le] at hnumber hletter
  have hA : 'A'.val.toNat = 65 := rfl
  have ha : 'a'.val.toNat = 97 := rfl
  have h9 : '9'.val.toNat = 57 := rfl
  omega

theorem lead?_name {name : String} (hname : IsName name) {rest : List Char}
    (hend : endsName rest = true) : lead? (name.toList ++ rest) = some (.identifier name) := by
  obtain ⟨c, cs, htext, halpha, hcs⟩ := hname
  rw [htext, List.cons_append, lead?, if_neg (Bool.eq_false_iff.mp (not_isDigit_of_isAlpha halpha)),
    if_pos halpha, takeWhile_of_head hcs hend, ← htext, String.ofList_toList]

theorem isSolid_of_isName {name : String} (h : IsName name) : isSolid name.toList = true := by
  obtain ⟨c, cs, htext, halpha, -⟩ := h
  rw [htext]
  exact isSolid_cons_of_isAlphanum cs (isAlphanum_of_isAlpha halpha)

theorem toList_toString (n : Nat) : (toString n).toList = Nat.toDigits 10 n := by
  rw [Nat.toString_eq_ofList_toDigits, String.toList_ofList]

theorem lead?_nat (n : Nat) {rest : List Char}
    (hend : rest.head?.all (!Char.isDigit ·) = true) :
    lead? ((toString n).toList ++ rest) = some (.integer (toString n)) := by
  have hall := all_isDigit_toDigits n
  rw [Nat.toString_eq_ofList_toDigits, String.toList_ofList]
  obtain ⟨c, cs, hcs⟩ := List.exists_cons_of_ne_nil (@Nat.toDigits_ne_nil n 10)
  rw [hcs, List.all_cons, Bool.and_eq_true] at hall
  rw [hcs, List.cons_append, lead?, if_pos hall.1, takeWhile_of_head hall.2 hend]

theorem isSolid_nat (n : Nat) : isSolid (toString n).toList = true := by
  have hall := all_isDigit_toDigits n
  rw [toList_toString]
  obtain ⟨c, cs, hcs⟩ := List.exists_cons_of_ne_nil (@Nat.toDigits_ne_nil n 10)
  rw [hcs, List.all_cons, Bool.and_eq_true] at hall
  rw [hcs]
  exact isSolid_cons_of_isAlphanum cs (isAlphanum_of_isDigit hall.1)

theorem isSolid_number (a : Binary32) : isSolid (a.text .literal).toList = true := by
  cases hfinite : a.isFinite with
  | true =>
    obtain ⟨n, hregular, htext, -⟩ := Binary32.exists_numeral hfinite
    obtain ⟨c, cs, hcs⟩ := List.exists_cons_of_ne_nil hregular.nonempty
    have hwhole := hregular.whole
    rw [hcs, List.all_cons, Bool.and_eq_true] at hwhole
    rw [htext, Numeral.chars_eq]
    -- the text begins with the sign or with a digit
    cases hsign : n.sign with
    | some s =>
      have hs := hregular.sign
      rw [hsign, Option.all_some, isSign, Bool.or_eq_true, decide_eq_true_eq,
        decide_eq_true_eq] at hs
      rcases hs with rfl | rfl <;> rfl
    | none =>
      rw [hcs]
      exact isSolid_cons_of_isAlphanum _ (isAlphanum_of_isDigit hwhole.1)
  | false =>
    unfold Binary32.text
    rw [Binary32.isFinite, decide_eq_false_iff_not] at hfinite
    by_cases hnumber : a.isNaN = true
    · rw [if_pos hnumber]
      rfl
    · have hinfinite : a.isInfinite = true := by
        rw [Binary32.isNaN, decide_eq_true_eq] at hnumber
        rw [Binary32.isInfinite, decide_eq_true_eq]
        omega
      rw [if_neg hnumber, if_pos hinfinite]
      cases a.isNegative <;> rfl

end Token

/-- A text goes on with a word that ends there. -/
def Token.startsWith (word : String) (cs : List Char) : Bool :=
  word.toList.isPrefixOf cs && endsName (cs.drop word.length)

/-! ## Actions on single items -/

namespace Cursor

variable {k : Cursor}

/-- What is ahead when some of it has been taken. -/
theorem ahead_taken (h : k.inside = []) (n : Nat) :
    (k.skipIgnored.markToken.advance n).ahead = Token.visible (k.ahead.drop n) := by
  have hmarked : k.skipIgnored.markToken.inside = [] := k.skipIgnored_inside.trans h
  rw [ahead_of_inside (advance_inside n hmarked), advance_rest, ← rest_skipIgnored h]
  rfl

theorem ahead_skipIgnored (k : Cursor) : k.skipIgnored.ahead = k.ahead := by
  by_cases h : k.inside = []
  · rw [ahead_of_inside (k.skipIgnored_inside.trans h), rest_skipIgnored h, ahead_of_inside h,
      Token.visible_visible]
  · rw [skipIgnored, if_neg (mt List.isEmpty_iff.mp h)]

theorem peek?_of_inside (h : k.inside = []) : k.peek? = Token.lead? k.ahead := by
  rw [peek?, lead?_of_inside (k.skipIgnored_inside.trans h), rest_skipIgnored h]

end Cursor

namespace Scan

variable {k : Cursor}

theorem accept_apply (mark : String) (h : k.inside = []) : accept mark k =
    if mark.toList.isPrefixOf k.ahead then
      .ok true (k.skipIgnored.markToken.advance mark.length)
    else .ok false k.skipIgnored := by
  rw [← Cursor.rest_skipIgnored h, accept, onRest_apply h]
  unfold Cursor.accept
  dsimp only
  split <;> rfl

theorem acceptWord_apply (word : String) (h : k.inside = []) : acceptWord word k =
    if Token.startsWith word k.ahead then
      .ok true (k.skipIgnored.markToken.advance word.length)
    else .ok false k.skipIgnored := by
  rw [← Cursor.rest_skipIgnored h, acceptWord, onRest_apply h]
  unfold Cursor.acceptWord Token.startsWith Token.endsName
  dsimp only
  split <;> rfl

theorem peek?_apply (h : k.inside = []) : peek? k = .ok (Token.lead? k.ahead) k := by
  rw [peek?, onRest_apply h, Cursor.peek?_of_inside h]

theorem failAhead_apply {α : Type} {cause : ErrorCause} (h : k.inside = []) :
    (failAhead cause : Scan α) k = .error ⟨cause, k.skipIgnored.position, []⟩ k.skipIgnored :=
  onRest_apply h

theorem token?_apply (h : k.inside = []) : token? k = .ok k.next.1 k.next.2 :=
  onRest_apply h

/-- A word that has to be one of those with a meaning. -/
def word {α : Type} (meaning? : String → Option α) (cause : ErrorCause) : Scan α := do
  match ← token with
  | .identifier name =>
    match meaning? name with
    | some a => return a
    | none => fail cause
  | _ => fail cause

theorem swizzle_eq_word : swizzle = word Swizzle.ofName? .invalidSwizzle := by
  unfold swizzle word
  congr 1
  funext t
  cases t with
  | identifier letters => dsimp only; cases Swizzle.ofName? letters <;> rfl
  | integer | punctuation => rfl

theorem writeMask_eq_word : writeMask = word WriteMask.ofName? .invalidWriteMask := by
  unfold writeMask word
  congr 1
  funext t
  cases t with
  | identifier letters => dsimp only; cases WriteMask.ofName? letters <;> rfl
  | integer | punctuation => rfl

theorem condition_eq_word : condition = (do
    let rule ← word CondRule.ofName? .invalidCondition
    if ← accept "." then
      return { rule, swizzle := ← swizzle }
    else
      return { rule }) := by
  unfold condition word
  rw [bind_assoc]
  congr 1
  funext t
  cases t with
  | identifier name => dsimp only; cases CondRule.ofName? name <;> rfl
  | integer | punctuation => rfl

theorem number_of_some {n : Numeral} (hinside : k.inside = [])
    (h : Numeral.ofChars? k.ahead = some n) :
    number k = .ok (Binary32.ofNumeral n) (k.skipIgnored.markToken.advance n.chars.length) := by
  rw [← Cursor.rest_skipIgnored hinside] at h
  rw [number, onRest_apply hinside]
  dsimp only
  rw [h]

theorem number_of_none (hinside : k.inside = []) (h : Numeral.ofChars? k.ahead = none) :
    number k = .error ⟨if k.ahead.isEmpty then .unexpectedEnd else .invalidNumber,
      k.skipIgnored.position, []⟩ k.skipIgnored := by
  rw [← Cursor.rest_skipIgnored hinside] at h ⊢
  rw [number, onRest_apply hinside]
  dsimp only
  rw [h]

/-! ## Marks -/

variable {cs rest : List Char}

theorem reads_accept {mark : String} (h : Token.isSolid mark.toList = true) (rest : List Char) :
    (accept mark).Reads (mark.toList ++ rest) True true rest := by
  intro k hk
  have hinside := Cursor.inside_of_ahead hk
  rw [Token.visible_append rest h] at hk
  have hprefix : mark.toList.isPrefixOf k.ahead = true := by
    rw [hk, List.isPrefixOf_iff_prefix]
    exact List.prefix_append _ _
  refine .of_ok ((accept_apply mark hinside).trans (if_pos hprefix)) ⟨rfl, ?_⟩
  rw [Cursor.ahead_taken hinside, hk, ← String.length_toList, List.drop_left]

/-- Another mark is left where it is. -/
theorem reads_accept_other {mark : String} (h : mark.toList.isPrefixOf (Token.visible cs) = false) :
    (accept mark).Reads cs True false cs := by
  intro k hk
  have hinside := Cursor.inside_of_ahead hk
  rw [← hk] at h
  have hother : ¬mark.toList.isPrefixOf k.ahead = true := Bool.eq_false_iff.mp h
  exact .of_ok ((accept_apply mark hinside).trans (if_neg hother))
    ⟨rfl, k.ahead_skipIgnored.trans hk⟩

theorem reads_expect {mark : String} (h : Token.isSolid mark.toList = true) (rest : List Char) :
    (expect mark).Reads (mark.toList ++ rest) True () rest :=
  (reads_accept h rest).andThen (.pure () rest)

/-- A mark of one character is the first character of the text. -/
theorem reads_accept_char {mark : String} {c : Char} (hmark : mark.toList = [c])
    (hsolid : Token.isSolid [c] = true) (rest : List Char) :
    (accept mark).Reads (c :: rest) True true rest := by
  rw [← List.singleton_append, ← hmark]
  apply reads_accept
  rw [hmark]
  exact hsolid

theorem reads_expect_char {mark : String} {c : Char} (hmark : mark.toList = [c])
    (hsolid : Token.isSolid [c] = true) (rest : List Char) :
    (expect mark).Reads (c :: rest) True () rest :=
  (reads_accept_char hmark hsolid rest).andThen (.pure () rest)

theorem reads_acceptWord {word : String} (h : Token.isSolid word.toList = true)
    (hend : Token.endsName rest = true) :
    (acceptWord word).Reads (word.toList ++ rest) True true rest := by
  intro k hk
  have hinside := Cursor.inside_of_ahead hk
  rw [Token.visible_append rest h] at hk
  have hdrop : k.ahead.drop word.length = rest := by
    rw [hk, ← String.length_toList, List.drop_left]
  have hstarts : Token.startsWith word k.ahead = true := by
    rw [Token.startsWith, hdrop, hk, Bool.and_eq_true, List.isPrefixOf_iff_prefix]
    exact ⟨List.prefix_append _ _, hend⟩
  refine .of_ok ((acceptWord_apply word hinside).trans (if_pos hstarts)) ⟨rfl, ?_⟩
  rw [Cursor.ahead_taken hinside, hdrop]

theorem reads_acceptWord_other {word : String}
    (h : word.toList.isPrefixOf (Token.visible cs) = false) :
    (acceptWord word).Reads cs True false cs := by
  intro k hk
  have hother : ¬Token.startsWith word k.ahead = true := by
    rw [Token.startsWith, hk, h, Bool.false_and]
    exact Bool.false_ne_true
  exact .of_ok ((acceptWord_apply word (Cursor.inside_of_ahead hk)).trans (if_neg hother))
    ⟨rfl, k.ahead_skipIgnored.trans hk⟩

/-! ## Tokens -/

end Scan

namespace Cursor

variable {k : Cursor} {t : Token}

theorem lead?_skipIgnored (h : k.inside = []) :
    k.skipIgnored.markToken.lead? = Token.lead? k.skipIgnored.rest := by
  have hmarked : k.skipIgnored.markToken.inside = [] := k.skipIgnored_inside.trans h
  exact lead?_of_inside hmarked

theorem next_of_none (hinside : k.inside = []) (h : Token.lead? k.skipIgnored.rest = none) :
    k.next = (none, k.skipIgnored.markToken) := by
  rw [← lead?_skipIgnored hinside] at h
  unfold next
  dsimp only
  rw [h]

theorem next_of_some (hinside : k.inside = []) (h : Token.lead? k.skipIgnored.rest = some t) :
    k.next = (some t, k.skipIgnored.markToken.pass t) := by
  rw [← lead?_skipIgnored hinside] at h
  unfold next
  dsimp only
  rw [h]

theorem next_eq_peek? (k : Cursor) : k.next.1 = k.peek? := by
  unfold next peek?
  dsimp only
  show _ = k.skipIgnored.markToken.lead?
  split <;> simp [*]

theorem skipIgnored_of_ne_nil (h : k.inside ≠ []) : k.skipIgnored = k := by
  rw [skipIgnored, if_neg (mt List.isEmpty_iff.mp h)]

/-- Inside a character the next byte is the next token. -/
theorem next_of_bytes {byte : UInt8} {bytes : List UInt8} (h : k.inside = byte :: bytes) :
    k.next = (some (.punctuation (Char.ofUInt8 byte)),
      { k.markToken with position := k.position + 1, inside := bytes }) := by
  have hne : k.inside ≠ [] := by
    rw [h]
    exact List.cons_ne_nil _ _
  have hmarked : k.markToken.inside = byte :: bytes := h
  unfold next
  rw [skipIgnored_of_ne_nil hne]
  dsimp only
  simp only [lead?, pass, stepByte, hmarked]
  rfl

/-- A token that is no part of a character is taken with its whole text. -/
theorem next_of_isWhole (hinside : k.inside = []) (h : Token.lead? k.skipIgnored.rest = some t)
    (hwhole : t.IsWhole) :
    k.next = (some t, k.skipIgnored.markToken.advance t.text.length) := by
  have hmarked : k.skipIgnored.markToken.inside = [] := k.skipIgnored_inside.trans hinside
  rw [next_of_some hinside h, pass_of_isWhole hmarked h hwhole]

end Cursor

namespace Scan

variable {cs rest : List Char}

theorem reads_peek? (cs : List Char) : peek?.Reads cs True (Token.lead? (Token.visible cs)) cs := by
  intro k hk
  exact .of_ok (peek?_apply (Cursor.inside_of_ahead hk)) ⟨by rw [hk], hk⟩

theorem reads_token? {t : Token} {text : List Char} (hsolid : Token.isSolid text = true)
    (htext : t.text.toList = text) (hlead : Token.lead? (text ++ rest) = some t)
    (hwhole : t.IsWhole) : token?.Reads (text ++ rest) True (some t) rest := by
  intro k hk
  have hinside := Cursor.inside_of_ahead hk
  rw [Token.visible_append rest hsolid] at hk
  have hnext : k.next = (some t, k.skipIgnored.markToken.advance t.text.length) := by
    apply Cursor.next_of_isWhole hinside _ hwhole
    rw [Cursor.rest_skipIgnored hinside, hk, hlead]
  refine .of_ok (token?_apply hinside) ⟨by rw [hnext], ?_⟩
  rw [hnext, Cursor.ahead_taken hinside, hk, ← String.length_toList, htext, List.drop_left]

theorem reads_token {t : Token} {text : List Char} (hsolid : Token.isSolid text = true)
    (htext : t.text.toList = text) (hlead : Token.lead? (text ++ rest) = some t)
    (hwhole : t.IsWhole) : token.Reads (text ++ rest) True t rest :=
  (reads_token? hsolid htext hlead hwhole).andThen (.pure t rest)

theorem reads_token_brace (rest : List Char) :
    token.Reads (['\x7b'] ++ rest) True (.punctuation '\x7b') rest :=
  reads_token (t := .punctuation '\x7b') rfl rfl rfl rfl

theorem reads_token?_name {name : String} (hname : IsName name)
    (hend : Token.endsName rest = true) :
    token?.Reads (name.toList ++ rest) True (some (.identifier name)) rest :=
  reads_token? (Token.isSolid_of_isName hname) rfl (Token.lead?_name hname hend) trivial

theorem reads_token_name {name : String} (hname : IsName name)
    (hend : Token.endsName rest = true) :
    token.Reads (name.toList ++ rest) True (.identifier name) rest :=
  reads_token (Token.isSolid_of_isName hname) rfl (Token.lead?_name hname hend) trivial

theorem reads_word {α : Type} {meaning? : String → Option α} {cause : ErrorCause} {name : String}
    {a : α} (hname : IsName name) (ha : meaning? name = some a)
    (hend : Token.endsName rest = true) :
    (word meaning? cause).Reads (name.toList ++ rest) True a rest := by
  refine (reads_token_name hname hend).andThen ?_
  dsimp only
  rw [ha]
  exact .pure a rest

theorem reads_identifier {name : String} (hname : IsName name)
    (hend : Token.endsName rest = true) :
    identifier.Reads (name.toList ++ rest) True name rest :=
  (reads_token_name hname hend).andThen (.pure name rest)

theorem reads_integer {n : Nat} (hn : n < UInt64.size)
    (hend : rest.head?.all (!Char.isDigit ·) = true) :
    integer.Reads ((toString n).toList ++ rest) True n rest := by
  have htoken : token.Reads ((toString n).toList ++ rest) True (.integer (toString n)) rest :=
    reads_token (Token.isSolid_nat n) rfl (Token.lead?_nat n hend) trivial
  refine htoken.andThen ?_
  show Reads (if Nat.ofDigitChars 10 (toString n).toList 0 < UInt64.size then
    Pure.pure (Nat.ofDigitChars 10 (toString n).toList 0) else fail .invalidNumber) rest True n rest
  rw [Token.toList_toString, Nat.ofDigitChars_ten_toDigits, if_pos hn]
  exact .pure n rest

/-! ## Numbers -/

/-- The text of a number is read if and only if the number is finite. -/
theorem reads_number (a : Binary32) (hend : rest.head?.all (!Numeral.continues ·) = true) :
    number.Reads ((a.text .literal).toList ++ rest) (a.isFinite = true) a rest := by
  intro k hk
  have hinside := Cursor.inside_of_ahead hk
  rw [Token.visible_append rest (Token.isSolid_number a)] at hk
  constructor
  · intro hfinite
    obtain ⟨n, hregular, htext, hread⟩ := Binary32.exists_numeral hfinite
    have hnumeral : Numeral.ofChars? k.ahead = some n := by
      rw [hk, htext]
      exact Numeral.ofChars?_append hregular hend
    refine ⟨Binary32.ofNumeral n, _, number_of_some hinside hnumeral, hread, ?_⟩
    rw [Cursor.ahead_taken hinside, hk, htext, List.drop_left]
  · intro hinfinite
    rw [Bool.not_eq_true] at hinfinite
    have hnone : Numeral.ofChars? k.ahead = none := by
      rw [hk]
      exact Binary32.ofChars?_of_not_isFinite hinfinite rest
    exact ⟨_, _, number_of_none hinside hnone⟩

end Scan

end FragmentAssembly

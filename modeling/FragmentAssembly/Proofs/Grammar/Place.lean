import FragmentAssembly.Proofs.Grammar.Item
import FragmentAssembly.Proofs.Reading.Lockstep

/-!
# Places of items

Numbers and the names of texture targets can consist of several tokens.  They are taken as a whole
where they begin, and the places behind them, as behind other tokens, are those where the items of
a text begin.  A text that is cut off between two tokens, and not inside a literal, is cut at such
a place, so no item reaches over the cut.
-/

namespace FragmentAssembly

namespace Token

/-! ## Literals -/

/-- The signs of numbers belong to them in values: behind the `=` of a definition or a brace, up to
the closing brace or the end of the statement.  Elsewhere they are signs of operands. -/
def signsBehind : Token → Bool → Bool
  | punctuation mark, signs =>
    (signs || mark = '=' || mark = '\x7b') && mark ≠ '\x7d' && mark ≠ ';'
  | _, signs => signs

/-- A text begins with a number or with the name of a texture target, of `n` characters. -/
inductive BeginsLiteral (signs : Bool) : List Char → Nat → Prop where
  | number {cs : List Char} {n : Numeral} (hn : Numeral.ofChars? cs = some n)
    (hsigns : signs = true ∨ n.sign = none) : BeginsLiteral signs cs n.chars.length
  | target {cs : List Char} (target : TextureTarget) (h : startsWith target.name cs = true) :
    BeginsLiteral signs cs target.name.length

/-- What a text goes on with where an item begins, and whether signs belong to numbers there. -/
inductive Place (text : List Char) : Bool → List Char → Prop where
  | start : Place text false (visible text)
  | literal {signs : Bool} {cs : List Char} {n : Nat} (h : Place text signs cs)
    (hliteral : BeginsLiteral signs cs n) : Place text signs (visible (cs.drop n))
  | token {signs : Bool} {cs : List Char} {t : Token} (h : Place text signs cs)
    (hliteral : ∀ n, ¬BeginsLiteral signs cs n) (hlead : lead? cs = some t) :
    Place text (t.signsBehind signs) (visible (cs.drop t.text.length))

/-- In front of `more` some characters of a literal have been passed, but not all of them. -/
def InLiteral (text more : List Char) : Prop :=
  ∃ signs cs n, cs ≠ [] ∧ Place text signs (cs ++ more) ∧ BeginsLiteral signs (cs ++ more) n ∧
    cs.length < n

/-! ## What begins a literal -/

theorem lead?_punctuation {c : Char} (hdigit : c.isDigit = false) (halpha : c.isAlpha = false)
    (cs : List Char) : lead? (c :: cs) = some (punctuation (leadByte c)) := by
  rw [lead?, hdigit, halpha]
  rfl

/-- The bytes of characters outside ASCII make no difference to signs. -/
theorem signsBehind_leadByte (c : Char) (signs : Bool) :
    (punctuation (leadByte c)).signsBehind signs = (punctuation c).signsBehind signs := by
  have hmark : ∀ {d : Char}, d.utf8Size = 1 → decide (leadByte c = d) = decide (c = d) := fun hd =>
    decide_eq_decide.mpr (leadByte_eq_iff hd)
  simp only [signsBehind, ne_eq, decide_not, hmark (d := '=') rfl, hmark (d := '\x7b') rfl,
    hmark (d := '\x7d') rfl, hmark (d := ';') rfl]

theorem exists_lead? {cs : List Char} (h : cs ≠ []) : ∃ t, lead? cs = some t := by
  obtain ⟨c, cs, rfl⟩ := List.exists_cons_of_ne_nil h
  rw [lead?]
  split
  · exact ⟨_, rfl⟩
  · split
    · exact ⟨_, rfl⟩
    · exact ⟨_, rfl⟩

/-- A number begins with a digit, a point or a sign. -/
theorem head_of_ofChars? {c : Char} {cs : List Char} {n : Numeral}
    (h : Numeral.ofChars? (c :: cs) = some n) :
    c.isDigit = true ∨ c = '.' ∨ n.sign ≠ none ∧ isSign c = true := by
  obtain ⟨hwell, rest, htext, -⟩ := Numeral.ofChars?_iff.mp h
  obtain ⟨d, more, hchars, hd⟩ := Scan.exists_chars_cons hwell
  rw [hchars] at htext
  obtain ⟨rfl, -⟩ := List.cons.inj htext
  rcases hd with ⟨hsign, hc⟩ | ⟨-, hdigit | hpoint⟩
  · refine .inr (.inr ⟨by rw [hsign]; exact Option.some_ne_none _, ?_⟩)
    rw [isSign, Bool.or_eq_true, decide_eq_true_eq, decide_eq_true_eq]
    exact hc
  · exact .inl hdigit
  · exact .inr (.inl hpoint)

theorem isNumeralChar_of_goesOnWith {n : Numeral} {c : Char} (h : n.goesOnWith c = true) :
    Numeral.isNumeralChar c = true := by
  simp only [Numeral.goesOnWith, Numeral.isExponentMark, Bool.or_eq_true, Bool.and_eq_true,
    decide_eq_true_eq] at h
  simp only [Numeral.isNumeralChar, Numeral.continues, Bool.or_eq_true, decide_eq_true_eq]
  tauto

/-- A point without digits is no number. -/
theorem ofChars?_point {cs : List Char} (h : cs.head?.all (!Char.isDigit ·) = true) :
    Numeral.ofChars? ('.' :: cs) = none := by
  have htake : ([] ++ cs).takeWhile Char.isDigit = [] := takeWhile_of_head rfl h
  rw [List.nil_append] at htake
  have hdigits : Numeral.takeDigits? ('.' :: cs) = none := by
    show (if ([].isEmpty && (cs.takeWhile Char.isDigit).isEmpty) = true then none else _) = none
    rw [htake]
    rfl
  unfold Numeral.ofChars?
  show (Numeral.takeDigits? ('.' :: cs) >>= _) = none
  rw [hdigits]
  rfl

theorem name_ne_nil (target : TextureTarget) : target.name.toList ≠ [] := by
  cases target <;> decide

theorem all_isAlphanum_name (target : TextureTarget) :
    target.name.toList.all Char.isAlphanum = true := by
  cases target <;> decide

theorem prefix_of_startsWith {word : String} {cs : List Char} (h : startsWith word cs = true) :
    word.toList <+: cs := by
  rw [startsWith, Bool.and_eq_true, List.isPrefixOf_iff_prefix] at h
  exact h.1

/-- The first character of a literal. -/
def opensLiteral (signs : Bool) (c : Char) : Bool :=
  c.isAlphanum || c = '.' || signs && isSign c

theorem BeginsLiteral.head {signs : Bool} {c : Char} {cs : List Char} {n : Nat}
    (h : BeginsLiteral signs (c :: cs) n) : opensLiteral signs c = true := by
  simp only [opensLiteral, Bool.or_eq_true, Bool.and_eq_true, decide_eq_true_eq]
  cases h with
  | number hn hsigns =>
    rcases head_of_ofChars? hn with hdigit | hpoint | ⟨hsign, hc⟩
    · exact .inl (.inl (isAlphanum_of_isDigit hdigit))
    · exact .inl (.inr hpoint)
    · rcases hsigns with rfl | hnone
      · exact .inr ⟨rfl, hc⟩
      · exact absurd hnone hsign
  | target target h =>
    have hname := all_isAlphanum_name target
    obtain ⟨rest, hrest⟩ := prefix_of_startsWith h
    obtain ⟨d, ds, hd⟩ := List.exists_cons_of_ne_nil (name_ne_nil target)
    rw [hd] at hname hrest
    obtain ⟨rfl, -⟩ := List.cons.inj hrest
    rw [List.all_cons, Bool.and_eq_true] at hname
    exact .inl (.inl hname.1)

/-- A name is no number, and a target only if it is the name of one. -/
theorem BeginsLiteral.of_name {signs : Bool} {cs : List Char} {n : Nat} {name : String}
    (h : BeginsLiteral signs cs n) (hlead : lead? cs = some (identifier name)) :
    n = name.length := by
  obtain ⟨behind, hcs, ⟨c, ns, htext, halpha, -⟩, -⟩ := of_lead? hlead trivial
  have hdigit := not_isDigit_of_isAlpha halpha
  rw [text, htext, List.cons_append] at hcs
  cases h with
  | number hn =>
    rw [hcs] at hn
    rcases head_of_ofChars? hn with hc | rfl | ⟨-, hsign⟩
    · rw [hdigit] at hc
      cases hc
    · cases halpha
    · rw [isSign, Bool.or_eq_true, decide_eq_true_eq, decide_eq_true_eq] at hsign
      rcases hsign with rfl | rfl <;> cases halpha
  | target target hstarts =>
    obtain ⟨rest, hrest⟩ := prefix_of_startsWith hstarts
    rw [startsWith, Bool.and_eq_true, ← hrest, ← String.length_toList, List.drop_left] at hstarts
    -- as the text begins with a letter, so does the target, and then it is a name itself
    have hname : IsName target.name := by
      have hall := all_isAlphanum_name target
      obtain ⟨d, ds, hd⟩ := List.exists_cons_of_ne_nil (name_ne_nil target)
      rw [hcs, hd] at hrest
      obtain ⟨rfl, -⟩ := List.cons.inj hrest
      rw [hd, List.all_cons, Bool.and_eq_true, List.all_eq_true] at hall
      refine ⟨d, ds, hd, halpha, List.all_eq_true.mpr fun c hc => ?_⟩
      rw [isNameChar, hall.2 c hc]
      rfl
    rw [← hrest, lead?_name hname hstarts.2] at hlead
    cases hlead
    rfl

/-! ## From place to place -/

namespace Place

variable {text cs : List Char} {signs : Bool}

/-- A mark that is no part of a literal. -/
theorem mark {c : Char} (h : Place text signs (c :: cs)) (hc : opensLiteral signs c = false) :
    Place text ((punctuation c).signsBehind signs) (visible cs) := by
  have hplain : c.isDigit = false ∧ c.isAlpha = false := by
    simp only [opensLiteral, Char.isAlphanum, Bool.or_eq_false_iff] at hc
    exact ⟨hc.1.1.2, hc.1.1.1⟩
  have htoken := h.token (fun n hliteral => ?_) (lead?_punctuation hplain.1 hplain.2 cs)
  · rwa [Token.text, String.length_singleton, signsBehind_leadByte] at htoken
  · rw [hliteral.head] at hc
    cases hc

/-- A point that no digits follow. -/
theorem point (h : Place text signs ('.' :: cs)) (hdigit : cs.head?.all (!Char.isDigit ·) = true) :
    Place text signs (visible cs) := by
  have hsigns : (punctuation '.').signsBehind signs = signs := by cases signs <;> rfl
  have htoken := h.token (t := punctuation '.') (fun n hliteral => ?_) rfl
  · rwa [hsigns] at htoken
  · generalize hpoint : '.' :: cs = behind at hliteral
    cases hliteral with
    | number hn =>
      rw [← hpoint, ofChars?_point hdigit] at hn
      cases hn
    | target target hstarts =>
      rw [← hpoint] at hstarts
      cases target <;> cases hstarts

/-- A name, which may be that of a target. -/
theorem name {name : String} (h : Place text signs cs)
    (hlead : lead? cs = some (identifier name)) :
    Place text signs (visible (cs.drop name.length)) := by
  by_cases hliteral : ∃ n, BeginsLiteral signs cs n
  · obtain ⟨n, hliteral⟩ := hliteral
    rw [← hliteral.of_name hlead]
    exact h.literal hliteral
  · exact h.token (not_exists.mp hliteral) hlead

/-- The number of a local parameter. -/
theorem index {digits : String} {behind : List Char} (h : Place text signs cs)
    (hlead : lead? cs = some (integer digits))
    (hclose : visible (cs.drop digits.length) = ']' :: behind) :
    Place text signs (']' :: behind) := by
  obtain ⟨rest, rfl, hne, hdigits, -⟩ := of_lead? hlead trivial
  rw [Token.text, ← String.length_toList, List.drop_left] at hclose
  let n : Numeral := ⟨none, digits.toList, none, none⟩
  have hchars : n.chars = digits.toList := by simp [n, Numeral.chars]
  have hends : n.EndsBefore rest := by
    cases rest with
    | nil => rfl
    | cons c rest =>
      rw [Numeral.EndsBefore, List.head?_cons, Option.all_some, Bool.not_eq_true',
        Bool.eq_false_iff]
      intro hgoes
      have hsolid : isSolid (c :: rest) = true :=
        isVisible_of_isNumeralChar (isNumeralChar_of_goesOnWith hgoes)
      rw [visible_of_isSolid hsolid] at hclose
      obtain ⟨rfl, -⟩ := List.cons.inj hclose
      cases hgoes
  have hnumber : Numeral.ofChars? (digits.toList ++ rest) = some n := by
    refine Numeral.ofChars?_iff.mpr ⟨⟨rfl, hdigits, ?_, .inl hne, ?_⟩, rest, by rw [hchars], hends⟩
    · rintro _ ⟨⟩
    · rintro _ ⟨⟩
  have hbehind := h.literal (.number hnumber (.inr rfl))
  rwa [hchars, Token.text, List.drop_left, hclose] at hbehind

end Place

theorem Place.suffix {text cs : List Char} {signs : Bool} (h : Place text signs cs) :
    cs <:+ text := by
  induction h with
  | start => exact List.drop_suffix _ _
  | literal _ _ ih => exact ((List.drop_suffix _ _).trans (List.drop_suffix _ _)).trans ih
  | token _ _ _ ih => exact ((List.drop_suffix _ _).trans (List.drop_suffix _ _)).trans ih

/-- Behind a character that no literal contains there is no inside of a literal. -/
theorem not_inLiteral {front more : List Char} {c : Char}
    (hnumber : Numeral.isNumeralChar c = false) (hname : c.isAlphanum = false) :
    ¬InLiteral (front ++ c :: more) more := by
  rintro ⟨signs, cs, n, hne, hplace, hliteral, hlt⟩
  -- the literal would contain the character
  obtain ⟨cs, rfl⟩ : ∃ cs', cs = cs' ++ [c] := by
    have hsuffix := hplace.suffix
    rw [List.append_cons, List.suffix_append_inj_of_length_eq rfl] at hsuffix
    rcases List.suffix_concat_iff.mp hsuffix.1 with rfl | ⟨cs', rfl, -⟩
    · exact absurd rfl hne
    · exact ⟨cs', rfl⟩
  rw [List.append_assoc, List.singleton_append] at hliteral
  rw [List.length_append, List.length_singleton] at hlt
  cases hliteral with
  | number hn =>
    rw [Numeral.ofChars?_front (by rw [List.head?_cons, Option.all_some, hnumber]; rfl)] at hn
    have hle := (Numeral.chars_prefix hn).length_le
    omega
  | target target hstarts =>
    have hprefix : cs ++ [c] <+: target.name.toList := by
      apply List.prefix_of_prefix_length_le _ (prefix_of_startsWith hstarts)
      · rw [List.length_append, List.length_singleton, String.length_toList]
        exact Nat.le_of_lt hlt
      · exact ⟨more, by rw [List.append_assoc]; rfl⟩
    have hmem := hprefix.subset (List.mem_append_right cs (List.mem_singleton_self c))
    have hc := List.all_eq_true.mp (all_isAlphanum_name target) c hmem
    rw [hname] at hc
    cases hc

/-! ## Cuts between two tokens -/

/-- No token and no comment that begins in `front` reaches over its end if `more` follows. -/
structure Splits (front more : List Char) : Prop where
  solid : isSolid more = true
  token : ∀ {cs : List Char} {t : Token}, cs <:+ front → cs ≠ [] → lead? (cs ++ more) = some t →
    t.text.length ≤ cs.length
  comment : ∀ {cs : List Char}, '#' :: cs <:+ front → cs.any isLineBreak = true

namespace Splits

variable {cs more : List Char}

theorem suffix {front : List Char} (h : Splits front more) (hcs : cs <:+ front) : Splits cs more :=
  ⟨h.solid, fun hsuffix => h.token (hsuffix.trans hcs),
    fun hsuffix => h.comment (hsuffix.trans hcs)⟩

/-- What shows in front of the cut shows there without the rest as well. -/
theorem visible_append (h : Splits cs more) : visible (cs ++ more) = visible cs ++ more := by
  by_cases hne : visible cs = []
  · have hgap : IsGap cs := by
      cases isTrailing_iff.mpr hne with
      | gap hgap => exact hgap
      | comment hgap htext =>
        have hbreak := h.comment (List.suffix_append _ _)
        rw [List.any_eq_true] at hbreak
        obtain ⟨c, hc, hbreak⟩ := hbreak
        have hother := List.all_eq_true.mp htext c hc
        rw [hbreak] at hother
        cases hother
    rw [hgap.visible_append, visible_of_isSolid h.solid, hne, List.nil_append]
  · exact visible_append_of_ne_nil more hne

theorem takeWhile_append {p : Char → Bool} {more : List Char}
    (h : ((cs ++ more).takeWhile p).length ≤ cs.length) :
    (cs ++ more).takeWhile p = cs.takeWhile p := by
  rw [List.takeWhile_append] at h ⊢
  split
  · rename_i hall
    rw [if_pos hall, List.length_append] at h
    have hnil : more.takeWhile p = [] := List.eq_nil_of_length_eq_zero (by omega)
    have hsame : cs.takeWhile p = cs := (List.takeWhile_prefix p).eq_of_length hall
    rw [hnil, hsame, List.append_nil]
  · rfl

theorem lead?_append (h : Splits cs more) (hne : cs ≠ []) : lead? (cs ++ more) = lead? cs := by
  have hlength := fun t => h.token (t := t) (List.suffix_refl cs) hne
  obtain ⟨c, cs, rfl⟩ := List.exists_cons_of_ne_nil hne
  rw [List.cons_append, lead?] at hlength ⊢
  rw [lead?]
  split
  · rename_i hdigit
    rw [if_pos hdigit] at hlength
    have hle := hlength _ rfl
    rw [text, String.length_ofList, List.length_cons, List.length_cons] at hle
    rw [takeWhile_append (Nat.le_of_succ_le_succ hle)]
  · rename_i hdigit
    rw [if_neg hdigit] at hlength
    split
    · rename_i halpha
      rw [if_pos halpha] at hlength
      have hle := hlength _ rfl
      rw [text, String.length_ofList, List.length_cons, List.length_cons] at hle
      rw [takeWhile_append (Nat.le_of_succ_le_succ hle)]
    · rfl

/-- A name that reaches up to the cut ends there. -/
theorem endsName_of_isAlpha {c : Char} (h : Splits (cs ++ [c]) more) (hc : c.isAlpha = true) :
    endsName more = true := by
  have hlead : lead? ([c] ++ more) =
      some (identifier (String.ofList (c :: more.takeWhile isNameChar))) := by
    rw [List.singleton_append, lead?, not_isDigit_of_isAlpha hc, if_neg Bool.false_ne_true,
      if_pos hc]
  have hle := h.token (List.suffix_append cs [c]) (List.cons_ne_nil c []) hlead
  rw [text, String.length_ofList, List.length_cons, List.length_singleton] at hle
  have hnil : more.takeWhile isNameChar = [] := List.eq_nil_of_length_eq_zero (by omega)
  cases more with
  | nil => rfl
  | cons d more =>
    rw [List.takeWhile_cons] at hnil
    split at hnil
    · cases hnil
    · rename_i hd
      rw [endsName, List.head?_cons, Option.all_some, Bool.not_eq_true', Bool.eq_false_iff]
      exact hd

/-- A target is found in front of the cut without the rest as well. -/
theorem startsWith_append {target : TextureTarget} (h : Splits cs more)
    (hle : startsWith target.name (cs ++ more) = true → target.name.length ≤ cs.length) :
    startsWith target.name (cs ++ more) = startsWith target.name cs := by
  rw [Bool.eq_iff_iff]
  constructor
  · intro hstarts
    have hlength := hle hstarts
    have hname : target.name.toList <+: cs := by
      apply List.prefix_of_prefix_length_le (prefix_of_startsWith hstarts)
        (List.prefix_append cs more)
      rw [String.length_toList]
      exact hlength
    rw [startsWith, Bool.and_eq_true, List.drop_append_of_le_length hlength] at hstarts
    rw [startsWith, Bool.and_eq_true, List.isPrefixOf_iff_prefix]
    refine ⟨hname, ?_⟩
    cases hdrop : cs.drop target.name.length with
    | nil => rfl
    | cons d ds =>
      rw [hdrop] at hstarts
      exact hstarts.2
  · intro hstarts
    obtain ⟨rest, rfl⟩ := prefix_of_startsWith hstarts
    rw [startsWith, Bool.and_eq_true, ← String.length_toList, List.drop_left] at hstarts
    rw [startsWith, Bool.and_eq_true, List.isPrefixOf_iff_prefix, List.append_assoc,
      ← String.length_toList, List.drop_left]
    refine ⟨List.prefix_append _ _, ?_⟩
    cases rest with
    | cons d rest => exact hstarts.2
    | nil =>
      -- all targets end with a letter
      have hlast : ∃ cs c, target.name.toList = cs ++ [c] ∧ c.isAlpha = true := by
        cases target
        · exact ⟨['1'], 'D', rfl, by decide⟩
        · exact ⟨['2'], 'D', rfl, by decide⟩
        · exact ⟨['3'], 'D', rfl, by decide⟩
        · exact ⟨['C', 'U', 'B'], 'E', rfl, by decide⟩
        · exact ⟨['R', 'E', 'C'], 'T', rfl, by decide⟩
      obtain ⟨cs, c, hname, hc⟩ := hlast
      rw [List.append_nil, hname] at h
      exact h.endsName_of_isAlpha hc

/-! ## Where tokens are read -/

theorem nil (hsolid : isSolid more = true) : Splits [] more := by
  refine ⟨hsolid, fun hsuffix hne => ?_, fun hsuffix => ?_⟩
  · exact absurd (List.suffix_nil.mp hsuffix) hne
  · cases List.suffix_nil.mp hsuffix

theorem cons {c : Char} (h : Splits cs more)
    (htoken : ∀ t, lead? (c :: (cs ++ more)) = some t → t.text.length ≤ cs.length + 1)
    (hcomment : c = '#' → cs.any isLineBreak = true) : Splits (c :: cs) more := by
  refine ⟨h.solid, fun {cs' t} hsuffix hne hlead => ?_, fun hsuffix => ?_⟩
  · rcases List.suffix_cons_iff.mp hsuffix with rfl | hsuffix
    · exact htoken t hlead
    · exact h.token hsuffix hne hlead
  · rcases List.suffix_cons_iff.mp hsuffix with heq | hsuffix
    · cases heq
      exact hcomment rfl
    · exact h.comment hsuffix

/-- A character that is a token for itself. -/
theorem cons_mark {c : Char} (h : Splits cs more) (hdigit : c.isDigit = false)
    (halpha : c.isAlpha = false) (hcomment : c = '#' → cs.any isLineBreak = true) :
    Splits (c :: cs) more := by
  refine h.cons (fun t ht => ?_) hcomment
  rw [lead?_punctuation hdigit halpha] at ht
  cases ht
  rw [text, String.length_singleton]
  exact Nat.le_add_left _ _

/-- Characters in front of something that ends names. -/
theorem append_name {ns : List Char} (h : Splits cs more) (hends : endsName (cs ++ more) = true)
    (hcomment : '#' ∈ ns → cs.any isLineBreak = true) : Splits (ns ++ cs) more := by
  induction ns with
  | nil => exact h
  | cons c ns ih =>
    refine (ih fun hmem => hcomment (List.mem_cons_of_mem c hmem)).cons (fun t ht => ?_) ?_
    · rw [List.append_assoc, ← List.cons_append,
        lead?_of_endsName (List.cons_ne_nil c ns) hends] at ht
      have hle := lead?_length_le ht
      rw [List.length_cons] at hle
      rw [List.length_append]
      omega
    · rintro rfl
      rw [List.any_append, hcomment List.mem_cons_self, Bool.or_true]

theorem append_gap {gap : List Char} (h : Splits cs more) (hgap : IsGap gap) :
    Splits (gap ++ cs) more := by
  -- neither a blank nor the end of a line is part of a token
  have hplain : ∀ {c : Char}, isBlank c = true →
      c.isDigit = false ∧ c.isAlpha = false ∧ isNameChar c = false ∧ c ≠ '#' := by
    intro c hblank
    simp only [isBlank, isLineBreak, Bool.or_eq_true, decide_eq_true_eq] at hblank
    rcases hblank with (rfl | rfl) | rfl | rfl <;> decide
  induction hgap with
  | nil => exact h
  | blank hblank _ ih =>
    obtain ⟨hdigit, halpha, -, hcomment⟩ := hplain hblank
    exact ih.cons_mark hdigit halpha fun heq => absurd heq hcomment
  | @comment text gap c htext hbreak _ ih =>
    have hblank : isBlank c = true := by rw [isBlank, hbreak, Bool.or_true]
    obtain ⟨hdigit, halpha, hname, hcomment⟩ := hplain hblank
    have hline : Splits (c :: (gap ++ cs)) more :=
      ih.cons_mark hdigit halpha fun heq => absurd heq hcomment
    have hends : endsName (c :: (gap ++ cs) ++ more) = true := by
      rw [endsName, List.cons_append, List.head?_cons, Option.all_some, hname]
      rfl
    have hany : (c :: (gap ++ cs)).any isLineBreak = true := by
      rw [List.any_cons, hbreak, Bool.true_or]
    rw [List.cons_append, List.append_assoc]
    refine (hline.append_name hends fun _ => hany).cons_mark rfl rfl fun _ => ?_
    rw [List.any_append, hany, Bool.or_true]

theorem append_digits {ds : List Char} (h : Splits cs more) (hds : ds.all Char.isDigit = true)
    (hends : (cs ++ more).head?.all (!Char.isDigit ·) = true) : Splits (ds ++ cs) more := by
  induction ds with
  | nil => exact h
  | cons d ds ih =>
    rw [List.all_cons, Bool.and_eq_true] at hds
    refine (ih hds.2).cons (fun t ht => ?_) ?_
    · rw [List.append_assoc, lead?, if_pos hds.1, takeWhile_of_head hds.2 hends] at ht
      cases ht
      rw [text, String.length_ofList, List.length_cons, List.length_append]
      exact Nat.succ_le_succ (Nat.le_add_right _ _)
    · rintro rfl
      cases hds.1

/-- In front of the rest a token is read up to its end. -/
theorem append_token {t : Token} {item : List Char} (h : Splits cs more)
    (hlead : lead? (item ++ (cs ++ more)) = some t) (hlength : item.length = t.text.length)
    (hsolid : isSolid (item ++ (cs ++ more)) = true) : Splits (item ++ cs) more := by
  have hwhole : t.IsWhole → t.text.toList = item ∧ t.EndsBefore (cs ++ more) := fun hwhole => by
    obtain ⟨behind, heq, ht⟩ := of_lead? hlead hwhole
    obtain ⟨hitem, rfl⟩ := List.append_inj heq (by rw [hlength, String.length_toList])
    exact ⟨hitem.symm, ht⟩
  cases t with
  | integer digits =>
    obtain ⟨rfl, ht⟩ := hwhole trivial
    exact h.append_digits ht.2.1 ht.2.2
  | identifier name =>
    obtain ⟨rfl, ht⟩ := hwhole trivial
    refine h.append_name ht.2 fun hmem => ?_
    obtain ⟨c, ns, hname, halpha, hns⟩ := ht.1
    rw [text, hname] at hmem
    rcases List.mem_cons.mp hmem with rfl | hmem
    · cases halpha
    · cases List.all_eq_true.mp hns '#' hmem
  | punctuation mark =>
    -- the mark may be a part of the character that is read
    rw [text, String.length_singleton] at hlength
    obtain ⟨c, rfl⟩ := List.length_eq_one_iff.mp hlength
    rw [List.singleton_append] at hlead hsolid ⊢
    refine h.cons (fun t ht => ?_) ?_
    · rw [hlead] at ht
      cases ht
      rw [text, String.length_singleton]
      exact Nat.le_add_left _ _
    · rintro rfl
      cases hsolid

end Splits

end Token

end FragmentAssembly

import FragmentAssembly.Proofs.Assembly.Soundness
import FragmentAssembly.Proofs.Reading.Scan
import FragmentAssembly.Proofs.Text.Gap
import FragmentAssembly.Proofs.Text.NumeralGrammar

/-!
# Lexical items

The items that program text consists of.  Each is a relation between the text in front of which it
stands and the text behind it, where blanks and comments have been passed.  Names, digits and
numbers are as long as possible.
-/

namespace FragmentAssembly

namespace Grammar

/-- `rest` is left of a text when blanks and comments have been passed. -/
inductive Skips : List Char → List Char → Prop where
  | item {gap rest : List Char} (hgap : Token.IsGap gap) (hrest : Token.isSolid rest = true) :
    Skips (gap ++ rest) rest
  | ending {cs : List Char} (h : Token.IsTrailing cs) : Skips cs []

/-- An item that consists of `text` and ends in front of something that satisfies `ends`. -/
def Item (ends : List Char → Prop) (text cs rest : List Char) : Prop :=
  ∃ behind, cs = text ++ behind ∧ ends behind ∧ Skips behind rest

def Mark (c : Char) : List Char → List Char → Prop :=
  Item (fun _ => True) [c]

def Keyword (word : String) : List Char → List Char → Prop :=
  Item (fun behind => Token.endsName behind = true) word.toList

def Name (name : String) (cs rest : List Char) : Prop :=
  IsName name ∧ Keyword name cs rest

def Digits (digits cs rest : List Char) : Prop :=
  digits ≠ [] ∧ digits.all Char.isDigit = true ∧
    Item (fun behind => behind.head?.all (!Char.isDigit ·) = true) digits cs rest

def Number (n : Numeral) (cs rest : List Char) : Prop :=
  n.IsWellFormed ∧ Item n.EndsBefore n.chars cs rest

/-- The item that a token is, if it is no part of a character. -/
def TokenItem : Token → List Char → List Char → Prop
  | .integer digits => Digits digits.toList
  | .identifier name => Name name
  | .punctuation mark => fun cs rest => mark.utf8Size = 1 → Mark mark cs rest

/-! ## Passing blanks and comments -/

theorem skips_visible (cs : List Char) : Skips cs (Token.visible cs) := by
  by_cases hne : Token.visible cs = []
  · rw [hne]
    exact .ending (Token.isTrailing_iff.mpr hne)
  · obtain ⟨gap, hgap, heq⟩ := Token.exists_gap_of_ne_nil hne
    have hitem := Skips.item hgap (Token.isSolid_visible hne)
    rwa [← heq] at hitem

/-- What is left is determined. -/
theorem skips_iff {cs rest : List Char} : Skips cs rest ↔ rest = Token.visible cs := by
  refine ⟨fun h => ?_, fun h => h ▸ skips_visible cs⟩
  cases h with
  | item hgap hrest => rw [hgap.visible_append, Token.visible_of_isSolid hrest]
  | ending h => exact h.visible_eq_nil.symm

theorem Item.visible_rest {ends : List Char → Prop} {text cs rest : List Char}
    (h : Item ends text cs rest) : Token.visible rest = rest := by
  obtain ⟨behind, -, -, hskips⟩ := h
  rw [skips_iff.mp hskips, Token.visible_visible]

theorem Item.rest_eq {ends ends' : List Char → Prop} {text cs rest rest' : List Char}
    (h : Item ends text cs rest) (h' : Item ends' text cs rest') : rest = rest' := by
  obtain ⟨behind, rfl, -, hskips⟩ := h
  obtain ⟨behind', hcs, -, hskips'⟩ := h'
  rw [List.append_cancel_left hcs] at hskips
  rw [skips_iff.mp hskips, skips_iff.mp hskips']

/-- A name is as long as possible, so there is only one. -/
theorem Name.eq {name name' : String} {cs rest rest' : List Char} (h : Name name cs rest)
    (h' : Name name' cs rest') : name = name' ∧ rest = rest' := by
  have hitem := h.2
  have hitem' := h'.2
  obtain ⟨hname, behind, hcs, hends, -⟩ := h
  obtain ⟨hname', behind', hcs', hends', -⟩ := h'
  have hlead := Token.lead?_name hname hends
  have hlead' := Token.lead?_name hname' hends'
  rw [← hcs] at hlead
  rw [← hcs', hlead] at hlead'
  cases hlead'
  exact ⟨rfl, hitem.rest_eq hitem'⟩

theorem item_of_append {ends : List Char → Prop} {text behind : List Char} (hends : ends behind) :
    Item ends text (text ++ behind) (Token.visible behind) :=
  ⟨behind, rfl, hends, skips_visible behind⟩

end Grammar

open Grammar

/-! ## What is read is an item -/

theorem Cursor.ahead_advance {k : Cursor} {text behind : List Char} (hinside : k.inside = [])
    (h : k.ahead = text ++ behind) :
    (k.skipIgnored.markToken.advance text.length).ahead = Token.visible behind := by
  rw [Cursor.ahead_taken hinside, h, List.drop_left]

namespace Token

/-- A token is of its kind, and ends in front of `behind`. -/
def EndsBefore (behind : List Char) : Token → Prop
  | integer digits => digits.toList ≠ [] ∧ digits.toList.all Char.isDigit = true ∧
      behind.head?.all (!Char.isDigit ·) = true
  | identifier name => IsName name ∧ endsName behind = true
  | punctuation _ => True

/-- The text of the first token, and how it ends. -/
theorem of_lead? {cs : List Char} {t : Token} (h : lead? cs = some t) (hwhole : t.IsWhole) :
    ∃ behind, cs = t.text.toList ++ behind ∧ t.EndsBefore behind := by
  cases cs with
  | nil => cases h
  | cons c cs =>
    have hlead := h
    rw [lead?] at h
    split at h
    · rename_i hdigit
      cases h
      refine ⟨cs.dropWhile Char.isDigit, ?_, ?_, ?_, head_of_dropWhile _ _⟩
      · rw [text, String.toList_ofList, List.cons_append, List.takeWhile_append_dropWhile]
      · rw [String.toList_ofList]
        exact List.cons_ne_nil _ _
      · rw [String.toList_ofList, List.all_cons, hdigit]
        exact List.all_takeWhile
    · split at h
      · cases h
        refine ⟨cs.dropWhile isNameChar, ?_, isName_of_lead? hlead, head_of_dropWhile _ _⟩
        rw [text, String.toList_ofList, List.cons_append, List.takeWhile_append_dropWhile]
      · cases h
        rw [leadByte_of_size (leadByte_size.mp hwhole)]
        exact ⟨cs, by rw [text, String.toList_singleton, List.singleton_append], trivial⟩

end Token

namespace Scan

variable {k l : Cursor}

theorem mark_of_accept {mark : String} {c : Char} (hmark : mark.toList = [c]) {found : Bool}
    (h : accept mark k = .ok found l) :
    if found then Mark c k.ahead l.ahead else l.ahead = k.ahead := by
  have hinside := (onRest_eq_ok.mp h).1
  rw [accept_apply mark hinside] at h
  split at h
  · -- the cursor stands behind the mark, with blanks and comments still to be passed
    rename_i hprefix
    cases h
    rw [hmark, List.isPrefixOf_iff_prefix] at hprefix
    obtain ⟨behind, hbehind⟩ := hprefix
    have hlength : mark.length = [c].length := by rw [← String.length_toList, hmark]
    rw [if_pos rfl, hlength, Cursor.ahead_advance hinside hbehind.symm, ← hbehind]
    exact item_of_append trivial
  · cases h
    exact k.ahead_skipIgnored

theorem keyword_of_acceptWord {word : String} {found : Bool}
    (h : acceptWord word k = .ok found l) :
    if found then Keyword word k.ahead l.ahead else l.ahead = k.ahead := by
  have hinside := (onRest_eq_ok.mp h).1
  rw [acceptWord_apply word hinside] at h
  split at h
  · rename_i hstarts
    cases h
    rw [Token.startsWith, Bool.and_eq_true, List.isPrefixOf_iff_prefix] at hstarts
    obtain ⟨⟨behind, hbehind⟩, hends⟩ := hstarts
    have hlength : word.length = word.toList.length := (String.length_toList).symm
    rw [← hbehind, hlength, List.drop_left] at hends
    rw [if_pos rfl, hlength, Cursor.ahead_advance hinside hbehind.symm, ← hbehind]
    exact item_of_append hends
  · cases h
    exact k.ahead_skipIgnored

theorem ahead_of_peek? {t : Option Token} (h : peek? k = .ok t l) :
    l = k ∧ t = Token.lead? k.ahead := by
  rw [peek?_apply (onRest_eq_ok.mp h).1] at h
  cases h
  exact ⟨rfl, rfl⟩

theorem peek?_of_token {t : Token} (h : token k = .ok t l) : k.peek? = some t := by
  simp only [token, token?, bind_eq_ok, onRest_eq_ok, EStateM.Result.ok.injEq] at h
  obtain ⟨found, _, ⟨-, hfound, rfl⟩, h⟩ := h
  rw [← Cursor.next_eq_peek?, hfound]
  cases found with
  | none => exact (fail_eq_ok.mp h).elim
  | some t' => rw [(pure_eq_ok.mp h).1]

/-- A token is an item. -/
theorem item_of_token? {t : Token} (h : token? k = .ok (some t) l) :
    TokenItem t k.ahead l.ahead := by
  simp only [token?, onRest_eq_ok, EStateM.Result.ok.injEq] at h
  obtain ⟨hinside, hfound, rfl⟩ := h
  cases hlead : Token.lead? k.skipIgnored.rest with
  | none =>
    rw [Cursor.next_of_none hinside hlead] at hfound
    cases hfound
  | some t' =>
    rw [Cursor.next_of_some hinside hlead] at hfound
    obtain rfl : t' = t := Option.some.inj hfound
    have hitem : t'.IsWhole → ∃ behind, k.ahead = t'.text.toList ++ behind ∧
        k.next.2.ahead = Token.visible behind ∧ t'.EndsBefore behind := fun hwhole => by
      obtain ⟨behind, htext, hshape⟩ := Token.of_lead? hlead hwhole
      rw [Cursor.rest_skipIgnored hinside] at htext
      rw [Cursor.next_of_isWhole hinside hlead hwhole, ← String.length_toList]
      exact ⟨behind, htext, Cursor.ahead_advance hinside htext, hshape⟩
    cases t' with
    | integer digits =>
      obtain ⟨behind, htext, hbehind, hshape⟩ := hitem trivial
      rw [htext, hbehind]
      exact ⟨hshape.1, hshape.2.1, item_of_append hshape.2.2⟩
    | identifier name =>
      obtain ⟨behind, htext, hbehind, hshape⟩ := hitem trivial
      rw [htext, hbehind]
      exact ⟨hshape.1, item_of_append hshape.2⟩
    | punctuation mark =>
      intro hsize
      obtain ⟨behind, htext, hbehind, -⟩ := hitem hsize
      rw [htext, hbehind, Token.text, String.toList_singleton]
      exact item_of_append trivial

theorem item_of_token {t : Token} (h : token k = .ok t l) : TokenItem t k.ahead l.ahead := by
  simp only [token, bind_eq_ok] at h
  obtain ⟨found, l', htoken, h⟩ := h
  cases found with
  | none => exact (fail_eq_ok.mp h).elim
  | some t' =>
    obtain ⟨rfl, rfl⟩ := pure_eq_ok.mp h
    exact item_of_token? htoken

theorem mark_of_expect {mark : String} {c : Char} (hmark : mark.toList = [c]) {a : Unit}
    (h : expect mark k = .ok a l) : Mark c k.ahead l.ahead := by
  simp only [expect, bind_eq_ok] at h
  obtain ⟨found, l', haccept, h⟩ := h
  cases found with
  | true =>
    obtain ⟨-, rfl⟩ := pure_eq_ok.mp h
    exact mark_of_accept hmark haccept
  | false =>
    simp only [Bool.false_eq_true, if_false, bind_eq_ok] at h
    obtain ⟨t, l'', -, h⟩ := h
    cases t with
    | none => exact (fail_eq_ok.mp h).elim
    | some t => exact (fail_eq_ok.mp h).elim

theorem name_of_identifier {name : String} (h : identifier k = .ok name l) :
    Name name k.ahead l.ahead := by
  simp only [identifier, bind_eq_ok] at h
  obtain ⟨t, l', htoken, h⟩ := h
  cases t with
  | identifier found =>
    obtain ⟨rfl, rfl⟩ := pure_eq_ok.mp h
    exact item_of_token htoken
  | integer digits => exact (fail_eq_ok.mp h).elim
  | punctuation mark => exact (fail_eq_ok.mp h).elim

theorem digits_of_integer {n : Nat} (h : integer k = .ok n l) :
    ∃ digits, (Nat.ofDigitChars 10 digits 0 = n ∧ n < UInt64.size) ∧
      Digits digits k.ahead l.ahead := by
  simp only [integer, bind_eq_ok] at h
  obtain ⟨t, l', htoken, h⟩ := h
  cases t with
  | integer digits =>
    dsimp only at h
    split at h
    · rename_i hlt
      obtain ⟨rfl, rfl⟩ := pure_eq_ok.mp h
      exact ⟨digits.toList, ⟨rfl, hlt⟩, item_of_token htoken⟩
    · exact (fail_eq_ok.mp h).elim
  | identifier name => exact (fail_eq_ok.mp h).elim
  | punctuation mark => exact (fail_eq_ok.mp h).elim

theorem number_of_number {v : Binary32} (h : number k = .ok v l) :
    ∃ n, Binary32.ofNumeral n = v ∧ Number n k.ahead l.ahead := by
  have hinside := (onRest_eq_ok.mp h).1
  cases hnumeral : Numeral.ofChars? k.ahead with
  | some n =>
    rw [number_of_some hinside hnumeral] at h
    cases h
    obtain ⟨hwell, behind, htext, hends⟩ := Numeral.ofChars?_iff.mp hnumeral
    rw [Cursor.ahead_advance hinside htext, htext]
    exact ⟨n, rfl, hwell, item_of_append hends⟩
  | none =>
    rw [number_of_none hinside hnumeral] at h
    cases h

/-! ## Items are read -/

variable {cs rest behind : List Char} {α : Type} {m : Scan α} {a : α} {possible : Prop}

/-- Blanks and comments behind an item are passed sooner or later. -/
theorem Reads.skips (hskips : Skips behind rest) (h : m.Reads cs possible a behind) :
    m.Reads cs possible a rest := by
  intro k hk
  refine (h k hk).weaken fun b l hl => ⟨hl.1, ?_⟩
  -- what the next action sees is the same, whether they have been passed or not
  rw [hl.2, skips_iff.mp hskips, Token.visible_visible]

theorem reads_mark {mark : String} {c : Char} (hmark : mark.toList = [c])
    (hsolid : Token.isSolid [c] = true) (h : Mark c cs rest) :
    (accept mark).Reads cs True true rest := by
  obtain ⟨behind, rfl, -, hskips⟩ := h
  exact (reads_accept_char hmark hsolid behind).skips hskips

theorem reads_expect_mark {mark : String} {c : Char} (hmark : mark.toList = [c])
    (hsolid : Token.isSolid [c] = true) (h : Mark c cs rest) :
    (expect mark).Reads cs True () rest :=
  (reads_mark hmark hsolid h).andThen (.pure () rest)

theorem reads_token?_item {name : String} (h : Name name cs rest) :
    token?.Reads cs True (some (.identifier name)) rest := by
  obtain ⟨hname, behind, rfl, hends, hskips⟩ := h
  exact (reads_token?_name hname hends).skips hskips

theorem reads_name {name : String} (h : Name name cs rest) :
    token.Reads cs True (.identifier name) rest :=
  (reads_token?_item h).andThen (.pure _ rest)

theorem reads_identifier_item {name : String} (h : Name name cs rest) :
    identifier.Reads cs True name rest :=
  (reads_name h).andThen (.pure name rest)

theorem reads_token_mark {c : Char} (hsolid : Token.isSolid [c] = true)
    (hmark : c.isAlphanum = false) (hsize : c.utf8Size = 1) (h : Mark c cs rest) :
    token.Reads cs True (.punctuation c) rest := by
  obtain ⟨behind, rfl, -, hskips⟩ := h
  rw [Char.isAlphanum, Bool.or_eq_false_iff] at hmark
  refine Reads.skips hskips (reads_token (t := .punctuation c) hsolid
    (String.toList_singleton c) ?_ hsize)
  rw [List.singleton_append, Token.lead?, if_neg (Bool.eq_false_iff.mp hmark.2),
    if_neg (Bool.eq_false_iff.mp hmark.1), Token.leadByte_of_size hsize]

theorem isSolid_of_isDigit {c : Char} (cs : List Char) (h : c.isDigit = true) :
    Token.isSolid (c :: cs) = true :=
  Token.isSolid_cons_of_isAlphanum cs (Token.isAlphanum_of_isDigit h)

theorem reads_digits {digits : List Char} (h : Digits digits cs rest) :
    token.Reads cs True (.integer (String.ofList digits)) rest := by
  obtain ⟨hne, hdigits, behind, rfl, hends, hskips⟩ := h
  obtain ⟨c, digits, rfl⟩ := List.exists_cons_of_ne_nil hne
  rw [List.all_cons, Bool.and_eq_true] at hdigits
  refine Reads.skips hskips (reads_token (isSolid_of_isDigit _ hdigits.1) ?_ ?_ trivial)
  · rw [Token.text, String.toList_ofList]
  · rw [List.cons_append, Token.lead?, if_pos hdigits.1, takeWhile_of_head hdigits.2 hends]

theorem reads_integer_item {digits : List Char} (h : Digits digits cs rest)
    (hlt : Nat.ofDigitChars 10 digits 0 < UInt64.size) :
    integer.Reads cs True (Nat.ofDigitChars 10 digits 0) rest := by
  apply (reads_digits h).andThen
  have hdigits : (String.ofList digits).toList = digits := String.toList_ofList
  dsimp only
  rw [hdigits, if_pos hlt]
  exact .pure _ rest

/-- A numeral begins with its sign, or else with a digit or the point. -/
theorem exists_chars_cons {n : Numeral} (h : n.IsWellFormed) : ∃ c more, n.chars = c :: more ∧
    (n.sign = some c ∧ (c = '+' ∨ c = '-') ∨ n.sign = none ∧ (c.isDigit = true ∨ c = '.')) := by
  rw [Numeral.chars_eq]
  cases hsign : n.sign with
  | some s =>
    have hs := h.sign
    rw [hsign, Option.all_some, isSign, Bool.or_eq_true, decide_eq_true_eq,
      decide_eq_true_eq] at hs
    exact ⟨s, _, rfl, .inl ⟨rfl, hs⟩⟩
  | none =>
    cases hwhole : n.whole with
    | cons c cs =>
      have hdigits := h.whole
      rw [hwhole, List.all_cons, Bool.and_eq_true] at hdigits
      exact ⟨c, _, rfl, .inr ⟨rfl, .inl hdigits.1⟩⟩
    | nil =>
      rcases h.nonempty with hne | ⟨digits, hfraction, -⟩
      · exact absurd hwhole hne
      · rw [hfraction]
        exact ⟨'.', _, rfl, .inr ⟨rfl, .inr rfl⟩⟩

theorem isSolid_chars {n : Numeral} (h : n.IsWellFormed) : Token.isSolid n.chars = true := by
  obtain ⟨c, more, hchars, hc⟩ := exists_chars_cons h
  rw [hchars]
  rcases hc with ⟨-, rfl | rfl⟩ | ⟨-, hdigit | rfl⟩
  · rfl
  · rfl
  · exact isSolid_of_isDigit more hdigit
  · rfl

theorem reads_numeral {n : Numeral} (h : Number n cs rest) :
    number.Reads cs True (Binary32.ofNumeral n) rest := by
  obtain ⟨hwell, behind, rfl, hends, hskips⟩ := h
  refine Reads.skips hskips fun k hk => ?_
  have hinside := Cursor.inside_of_ahead hk
  rw [Token.visible_append _ (isSolid_chars hwell)] at hk
  have hnumeral : Numeral.ofChars? k.ahead = some n := by
    rw [hk]
    exact Numeral.ofChars?_iff.mpr ⟨hwell, behind, rfl, hends⟩
  exact .of_ok (number_of_some hinside hnumeral) ⟨rfl, Cursor.ahead_advance hinside hk⟩

end Scan

end FragmentAssembly

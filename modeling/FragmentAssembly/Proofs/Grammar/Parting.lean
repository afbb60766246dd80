import FragmentAssembly.Proofs.Grammar.Statement
import FragmentAssembly.Proofs.Text.Parting

/-!
# Where statements end

The only semicolon of a statement, comments apart, is the one that it ends with.  So whatever the
operands of a statement are, the next semicolon of the text tells where the next statement begins.
-/

namespace FragmentAssembly

namespace Grammar

/-- The texts of the phrase have semicolons in comments only.  At the end of a text a comment may be
left open, and then nothing is behind it. -/
def Phrase.Unparted (p : Phrase) : Prop :=
  ∀ cs ms rest, p cs ms rest → rest ≠ [] → ∃ text, cs = text ++ rest ∧
    ∀ before, ¬Token.InComment before → Token.Unparted before text

/-- The texts of the phrase end with their first semicolon that is not in a comment. -/
def Phrase.Parts (p : Phrase) : Prop :=
  ∀ cs ms rest, p cs ms rest → ∃ text behind, cs = text ++ ';' :: behind ∧
    rest = Token.visible behind ∧ ∀ before, ¬Token.InComment before → Token.Unparted before text

namespace Phrase.Unparted

variable {p q : Phrase}

theorem empty : Phrase.empty.Unparted := by
  rintro cs ms rest ⟨rfl, -⟩ -
  exact ⟨[], rfl, fun before hbefore => .of_gap hbefore .nil⟩

theorem mentioning (m : Mention) : (Phrase.mentioning m).Unparted := by
  rintro cs ms rest ⟨rfl, -⟩ -
  exact ⟨[], rfl, fun before hbefore => .of_gap hbefore .nil⟩

theorem andThen (hp : p.Unparted) (hq : q.Unparted) : (p.andThen q).Unparted := by
  rintro cs ms rest ⟨mid, before, after, hp', hq', -⟩ hrest
  obtain ⟨more, rfl, hmore⟩ := hq _ _ _ hq' hrest
  obtain ⟨text, rfl, htext⟩ := hp _ _ _ hp' (List.append_ne_nil_of_right_ne_nil more hrest)
  refine ⟨text ++ more, (List.append_assoc _ _ _).symm, fun before hbefore => ?_⟩
  exact (htext before hbefore).append (hmore _ (htext before hbefore).closed)

theorem orElse (hp : p.Unparted) (hq : q.Unparted) : (p.orElse q).Unparted := by
  rintro cs ms rest (hp' | hq') hrest
  · exact hp _ _ _ hp' hrest
  · exact hq _ _ _ hq' hrest

theorem optional (hp : p.Unparted) : p.optional.Unparted :=
  hp.orElse empty

theorem anyOf {ι : Type} {p : ι → Phrase} (h : ∀ x, (p x).Unparted) :
    (Phrase.anyOf p).Unparted := by
  rintro cs ms rest ⟨x, hx⟩ hrest
  exact h x _ _ _ hx hrest

theorem given {condition : Prop} (h : p.Unparted) : (p.given condition).Unparted := by
  rintro cs ms rest ⟨-, hp⟩ hrest
  exact h _ _ _ hp hrest

/-! ### Items -/

/-- An item that shows, with the blanks and comments behind it. -/
theorem ofItem {item : List Char → List Char → Prop} (h : ∀ cs rest, item cs rest →
      ∃ ends text, Item ends text cs rest ∧ text.all Token.isVisible = true ∧ ';' ∉ text) :
    (Phrase.ofItem item).Unparted := by
  rintro cs ms rest ⟨hitem, -⟩ hrest
  obtain ⟨ends, text, ⟨behind, rfl, -, hskips⟩, hshown, hmark⟩ := h cs rest hitem
  cases hskips with
  | ending => exact absurd rfl hrest
  | @item gap rest hgap hsolid =>
    refine ⟨text ++ gap, (List.append_assoc _ _ _).symm, fun before hbefore => ?_⟩
    have htext := Token.Unparted.of_visible hbefore hshown hmark
    exact htext.append (.of_gap htext.closed hgap)

theorem mark {c : Char} (hshown : Token.isVisible c = true) (hc : c ≠ ';') :
    (mark c).Unparted := by
  refine ofItem fun cs rest hitem => ⟨_, [c], hitem, ?_, ?_⟩
  · rw [List.all_cons, hshown]
    rfl
  · rw [List.mem_singleton]
    exact hc.symm

/-- The characters of names and digits. -/
theorem shown_of_isNameChar {text : List Char} (h : text.all Token.isNameChar = true) :
    text.all Token.isVisible = true ∧ ';' ∉ text := by
  rw [List.all_eq_true] at h
  refine ⟨List.all_eq_true.mpr fun c hc => Token.isVisible_of_isNameChar (h c hc), fun hmem => ?_⟩
  exact absurd (h ';' hmem) (by decide)

theorem isNameChar_of_isAlphanum {c : Char} (h : c.isAlphanum = true) :
    Token.isNameChar c = true := by
  rw [Token.isNameChar, h]
  rfl

theorem keyword {text : String} (h : text.toList.all Char.isAlphanum = true) :
    (keyword text).Unparted := by
  refine ofItem fun cs rest hitem => ⟨_, _, hitem, shown_of_isNameChar ?_⟩
  rw [List.all_eq_true] at h ⊢
  exact fun c hc => isNameChar_of_isAlphanum (h c hc)

theorem word (name : String) : (word name).Unparted := by
  refine ofItem ?_
  rintro cs rest ⟨⟨c, more, hname, halpha, hmore⟩, hitem⟩
  refine ⟨_, _, hitem, shown_of_isNameChar ?_⟩
  rw [hname, List.all_cons, hmore, isNameChar_of_isAlphanum (Token.isAlphanum_of_isAlpha halpha)]
  rfl

theorem wordOf (P : String → Prop) : (wordOf P).Unparted :=
  anyOf fun name => (word name).given

theorem integerOf (P : Nat → Prop) : (integerOf P).Unparted := by
  refine ofItem ?_
  rintro cs rest ⟨digits, -, -, hdigits, hitem⟩
  refine ⟨_, _, hitem, shown_of_isNameChar ?_⟩
  rw [List.all_eq_true] at hdigits ⊢
  exact fun c hc => isNameChar_of_isAlphanum (Token.isAlphanum_of_isDigit (hdigits c hc))

theorem shown_of_number {n : Numeral} {cs rest : List Char} (h : Number n cs rest) :
    ∃ ends text, Item ends text cs rest ∧ text.all Token.isVisible = true ∧ ';' ∉ text := by
  obtain ⟨hwell, behind, htext, hends, hskips⟩ := h
  have hread := Numeral.ofChars?_iff.mpr ⟨hwell, behind, htext, hends⟩
  refine ⟨_, _, ⟨behind, htext, hends, hskips⟩, ofChars?_all_isVisible hread, fun hmem => ?_⟩
  exact absurd (List.all_eq_true.mp (ofChars?_all_isNumeralChar hread) ';' hmem) (by decide)

theorem number : Grammar.number.Unparted :=
  ofItem fun _ _ ⟨_, h⟩ => shown_of_number h

theorem unsignedNumber : Grammar.unsignedNumber.Unparted :=
  ofItem fun _ _ ⟨_, _, h⟩ => shown_of_number h

/-! ### Constants and components -/

theorem sign : Grammar.sign.Unparted :=
  orElse (mark rfl (by decide)) (mark rfl (by decide)).optional

theorem moreNumbers (count : Nat) : (moreNumbers count).Unparted := by
  induction count with
  | zero => exact empty
  | succ count ih => exact ((mark rfl (by decide)).andThen (number.andThen ih)).optional

theorem vector : Grammar.vector.Unparted :=
  (mark rfl (by decide)).andThen (number.andThen ((moreNumbers 3).andThen (mark rfl (by decide))))

theorem constant : Grammar.constant.Unparted :=
  vector.orElse number

theorem swizzle : Grammar.swizzle.Unparted :=
  (mark rfl (by decide)).andThen (wordOf _)

theorem component : Grammar.component.Unparted :=
  (mark rfl (by decide)).andThen (wordOf _)

theorem mask : Grammar.mask.Unparted :=
  (mark rfl (by decide)).andThen (wordOf _)

theorem condition : Grammar.condition.Unparted :=
  (wordOf _).andThen swizzle.optional

/-! ### Registers and operands -/

theorem input : Grammar.input.Unparted :=
  (mark rfl (by decide)).andThen (anyOf fun _ => (word _).andThen (mark rfl (by decide)))

theorem output : Grammar.output.Unparted :=
  (mark rfl (by decide)).andThen (anyOf fun _ => (word _).andThen
    ((mark rfl (by decide)).andThen (mentioning _)))

theorem localParameter : Grammar.localParameter.Unparted :=
  (mark rfl (by decide)).andThen ((integerOf _).andThen (mark rfl (by decide)))

theorem temporary : Grammar.temporary.Unparted :=
  anyOf fun _ => (word _).andThen (mentioning _).given

theorem target : Grammar.target.Unparted :=
  (wordOf _).orElse (((word _).andThen output).orElse temporary)

theorem guard : Grammar.guard.Unparted :=
  (mark rfl (by decide)).andThen (condition.andThen (mark rfl (by decide)))

theorem destination : Grammar.destination.Unparted :=
  target.andThen (mask.optional.andThen guard.optional)

theorem register : Grammar.register.Unparted :=
  ((word _).andThen input).orElse (((word _).andThen localParameter).orElse temporary)

theorem base (isConstant : Bool) : (base isConstant).Unparted := by
  cases isConstant with
  | false => exact register
  | true =>
    have hnamed : namedConstant.Unparted := anyOf fun _ => (word _).andThen (mentioning _)
    exact unsignedNumber.orElse (vector.orElse hnamed)

theorem vectorSuffix (isConstant : Bool) : (vectorSuffix isConstant).Unparted :=
  swizzle.optional

theorem scalarSuffix (isConstant : Bool) : (scalarSuffix isConstant).Unparted := by
  cases isConstant with
  | false => exact component
  | true => exact component.optional

theorem source {suffix : Bool → Phrase} (h : ∀ isConstant, (suffix isConstant).Unparted) :
    (source suffix).Unparted := by
  have hselection : (selection suffix).Unparted := anyOf fun isConstant =>
    (base isConstant).andThen (h isConstant)
  have hbar : (Grammar.mark '|').Unparted := mark rfl (by decide)
  exact sign.andThen ((hbar.andThen (sign.andThen (hselection.andThen hbar))).orElse hselection)

theorem image : Grammar.image.Unparted :=
  anyOf fun _ => (wordOf _).andThen ((mark rfl (by decide)).andThen (anyOf fun target =>
    (keyword (Token.all_isAlphanum_name target)).andThen (mentioning _)))

/-! ### Statements -/

theorem separated (h : p.Unparted) : ∀ count, (separated p count).Unparted
  | 0 => empty
  | 1 => h
  | count + 2 => h.andThen ((mark rfl (by decide)).andThen (separated h (count + 1)))

theorem operands (shape : Operands) : (operands shape).Unparted := by
  cases shape with
  | vectors count => exact separated (source vectorSuffix) count
  | scalars count => exact separated (source scalarSuffix) count
  | lookup count =>
    exact (separated (source vectorSuffix) count).andThen ((mark rfl (by decide)).andThen image)
  | condition => exact condition

theorem destinationOf (writes : Bool) : (destinationOf writes).Unparted := by
  cases writes with
  | false => exact empty
  | true => exact destination.andThen (mark rfl (by decide))

theorem definedValue : Grammar.definedValue.Unparted :=
  (mark rfl (by decide)).andThen constant

end Phrase.Unparted

/-! ## Statements end with a semicolon -/

namespace Phrase.Parts

variable {p q : Phrase}

theorem mark : (mark ';').Parts := by
  rintro cs ms rest ⟨⟨behind, rfl, -, hskips⟩, -⟩
  exact ⟨[], behind, rfl, skips_iff.mp hskips, fun before hbefore => .of_gap hbefore .nil⟩

/-- In front of a phrase that ends with its semicolon. -/
theorem after (hp : p.Unparted) (hq : q.Parts) : (p.andThen q).Parts := by
  rintro cs ms rest ⟨mid, before, after, hp', hq', -⟩
  obtain ⟨more, behind, rfl, hrest, hmore⟩ := hq _ _ _ hq'
  have hne : more ++ ';' :: behind ≠ [] :=
    List.append_ne_nil_of_right_ne_nil more (List.cons_ne_nil _ _)
  obtain ⟨text, rfl, htext⟩ := hp _ _ _ hp' hne
  refine ⟨text ++ more, behind, (List.append_assoc _ _ _).symm, hrest, fun before hbefore => ?_⟩
  exact (htext before hbefore).append (hmore _ (htext before hbefore).closed)

theorem andMention (hp : p.Parts) (m : Mention) : (p.andThen (.mentioning m)).Parts := by
  rintro cs ms rest ⟨mid, before, after, hp', ⟨rfl, -⟩, -⟩
  exact hp _ _ _ hp'

theorem anyOf {ι : Type} {p : ι → Phrase} (h : ∀ x, (p x).Parts) : (Phrase.anyOf p).Parts := by
  rintro cs ms rest ⟨x, hx⟩
  exact h x _ _ _ hx

theorem given {condition : Prop} (h : p.Parts) : (p.given condition).Parts := by
  rintro cs ms rest ⟨-, hp⟩
  exact h _ _ _ hp

theorem orElse (hp : p.Parts) (hq : q.Parts) : (p.orElse q).Parts := by
  rintro cs ms rest (hp' | hq')
  · exact hp _ _ _ hp'
  · exact hq _ _ _ hq'

theorem instructionRest (mnemonic : String) : (Compile.instructionRest mnemonic).Parts :=
  anyOf fun pattern => (after (.destinationOf pattern.writes)
    (after (.operands pattern.operands) mark)).given

theorem parameter {value : Phrase} (h : value.Unparted) : (parameter value).Parts := by
  refine anyOf fun name => after (Unparted.word name).given (after h ?_)
  exact mark.andMention _

/-- A statement other than the `END`, behind its name. -/
theorem statementRest (name : String) {kind : Compile.StatementKind} (h : kind ≠ .finish) :
    (Compile.statementRest name kind).Parts := by
  cases kind with
  | definition =>
    exact (parameter .definedValue).given.orElse (parameter (Unparted.definedValue.optional)).given
  | instruction => exact instructionRest name
  | finish => exact absurd rfl h

end Phrase.Parts

end Grammar

end FragmentAssembly

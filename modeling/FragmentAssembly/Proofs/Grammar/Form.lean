import FragmentAssembly.Proofs.Grammar.Denotation
import FragmentAssembly.Proofs.Program.Parameters

/-!
# The form of operands

A source operand as it is written: its signs and bars, what it names, and its letters.  An operand
that was read has one form only, and the source that it was read as is the one that this form
says.
-/

namespace FragmentAssembly

namespace Grammar

/-! ## Forms -/

/-- Whether a name is that of a temporary; those of half precision stand behind the others. -/
def NamesTemporary (name : String) (i : TemporaryIndex) : Prop :=
  IsNumbered ['R', 'r'] name i.val ∨
    ∃ n, IsNumbered ['H', 'h'] name n ∧ i.val = wordSum halfTemporaryOffset n

theorem namesTemporary_iff {name : String} {i : TemporaryIndex} :
    NamesTemporary name i ↔ temporaryNumber? name = some i.val := by
  rw [temporaryNumber?_eq_some, NamesTemporary]
  have hless : ∀ {n}, n < 96 → wordSum 0 n = n := fun hn => by
    rw [wordSum_of_lt (Nat.lt_of_le_of_lt (Nat.zero_add _).le (Nat.lt_trans hn (by decide))),
      Nat.zero_add]
  refine or_congr_left ⟨fun h => ⟨i.val, h, (hless i.isLt).symm⟩, ?_⟩
  rintro ⟨n, hname, hn⟩
  have hsum := i.isLt
  rw [hn] at hsum
  rw [hn, hless (wordSum_zero_lt.mp hsum)]
  exact hname

/-- What an operand names. -/
inductive Base where
  | temporary (i : TemporaryIndex)
  | input (i : InputIndex)
  | localParameter (i : LocalParameterIndex)
  | named (name : String)
  | scalar (value : Binary32)
  | vector (first : Binary32) (more : List Binary32)
deriving DecidableEq, Repr

namespace Base

def phrase : Base → Phrase
  | temporary i => wordOf (NamesTemporary · i)
  | input i => (word "f").andThen
      ((mark '[').andThen ((word (inputNames.get i)).andThen (mark ']')))
  | localParameter i => (word "p").andThen
      ((mark '[').andThen ((integerOf (· = i.val)).andThen (mark ']')))
  | named name => (word name).given ¬IsReserved name
  | scalar value => unsignedNumberOf value
  | vector first more =>
      (mark '\x7b').andThen ((vectorRestOf first more).given (more.length ≤ 3))

def isConstant : Base → Bool
  | temporary _ | input _ | localParameter _ => false
  | named _ | scalar _ | vector _ _ => true

/-- Whether a register is the one that is named. -/
def Denotes (t : ParameterTable) (r : Readable) : Base → Prop
  | temporary i => r = .temporary i
  | input i => r = .input i
  | localParameter i => r = .localParameter i
  | named name => t.Denotes r (some (.name name))
  | scalar value => t.Denotes r (some (.literal (Quad.replicate value)))
  | vector first more => t.Denotes r (some (.literal (Scan.vectorOfList first more)))

end Base

/-- A minus sign for `true`; a plus sign may be left out. -/
def signOf : Bool → Phrase
  | true => mark '-'
  | false => (mark '+').optional

/-- Nothing, where the mark `c` does not come next. -/
def without (c : Char) : Phrase :=
  fun cs ms rest => next cs ≠ some c ∧ Phrase.empty cs ms rest

/-- The letters behind a point.  Those of a scalar select one component, and only a constant is a
scalar without them. -/
def lettersOf (scalar isConstant : Bool) : Option String → Phrase
  | some letters => (mark '.').andThen
      ((word letters).given (if scalar then IsComponent letters else IsSwizzle letters))
  | none => (without '.').given (scalar → isConstant)

/-- A base with its letters, and with a sign in front, or between bars with a sign in front of them
and one behind the first bar. -/
structure Form where
  outer : Bool
  inner : Option Bool
  base : Base
  letters : Option String
deriving DecidableEq, Repr

namespace Form

def selection (scalar : Bool) (w : Form) : Phrase :=
  w.base.phrase.andThen (lettersOf scalar w.base.isConstant w.letters)

def phrase (scalar : Bool) (w : Form) : Phrase :=
  (signOf w.outer).andThen
    (match w.inner with
      | none => w.selection scalar
      | some negative => (mark '|').andThen
          ((signOf negative).andThen ((w.selection scalar).andThen (mark '|'))))

/-- The letter for a component: the only one, or the one in its place. -/
def letterFor (i : Component) : List Char → Option Char
  | [letter] => some letter
  | [x, y, z, w] => some ((Quad.mk x y z w).get i)
  | _ => none

/-- The component of the base that a component of the operand is. -/
def component? (scalar : Bool) (letters : Option String) (i : Component) : Option Component :=
  match letters with
  | some letters => (letterFor i letters.toList).bind Component.ofLetter?
  | none => if scalar then some .x else some i

/-- The source that a form says. -/
structure Says (w : Form) (scalar : Bool) (t : ParameterTable) (s : Source) : Prop where
  base : w.base.Denotes t s.register
  component : ∀ i, component? scalar w.letters i = some (s.swizzle.get i)
  negateBase : s.negateBase = w.inner.getD w.outer
  absolute : s.absolute = w.inner.isSome
  negateAbsolute : s.negateAbsolute = (w.inner.isSome && w.outer)

end Form

end Grammar

open Grammar

/-! ## What is read has a form -/

namespace Grammar.Phrase

variable {p q : Phrase} {cs mid rest : List Char}

theorem of_item {item : List Char → List Char → Prop} (h : item cs rest) :
    ofItem item cs [] rest :=
  ⟨h, rfl⟩

/-- Two phrases that mention nothing. -/
theorem join (hp : p cs [] mid) (hq : q mid [] rest) : (p.andThen q) cs [] rest :=
  ⟨mid, [], [], hp, hq, rfl⟩

end Grammar.Phrase

open Grammar.Phrase

namespace Scan

variable {k l : Cursor}

theorem next_of_accept {mark : String} {c : Char} (hmark : mark.toList = [c])
    (h : accept mark k = .ok false l) : next k.ahead ≠ some c ∧ l.ahead = k.ahead := by
  refine ⟨fun hnext => ?_, mark_of_accept hmark h⟩
  have hinside := (onRest_eq_ok.mp h).1
  rw [accept_apply mark hinside, hmark] at h
  have hahead : Token.visible k.ahead = k.ahead := Cursor.visible_ahead hinside
  rw [next, hahead] at hnext
  cases hcs : k.ahead with
  | nil =>
    rw [hcs] at hnext
    cases hnext
  | cons d more =>
    rw [hcs, List.head?_cons, Option.some.injEq] at hnext
    rw [hcs, hnext, if_pos (by simp [List.isPrefixOf])] at h
    cases h

theorem signOf_of_negation {negative : Bool} (h : negation k = .ok negative l) :
    signOf negative k.ahead [] l.ahead := by
  simp only [negation, bind_eq_ok] at h
  obtain ⟨found, k', hminus, h⟩ := h
  have hmark := mark_of_accept rfl hminus
  cases found with
  | true =>
    obtain ⟨rfl, rfl⟩ := pure_eq_ok.mp h
    exact ⟨hmark, rfl⟩
  | false =>
    simp only [Bool.false_eq_true, if_false, bind_eq_ok] at h hmark
    obtain ⟨found, l', hplus, h⟩ := h
    obtain ⟨rfl, rfl⟩ := pure_eq_ok.mp h
    have hmark' := mark_of_accept rfl hplus
    rw [hmark] at hmark'
    cases found with
    | true => exact .inl ⟨hmark', rfl⟩
    | false => exact .inr ⟨hmark', rfl⟩

theorem name_of_swizzle {s : Swizzle} (h : swizzle k = .ok s l) :
    ∃ letters, Swizzle.ofName? letters = some s ∧ Name letters k.ahead l.ahead := by
  simp only [swizzle, bind_eq_ok] at h
  obtain ⟨t, l', htoken, h⟩ := h
  cases t with
  | identifier letters =>
    dsimp only at h
    cases hs : Swizzle.ofName? letters with
    | none =>
      rw [hs] at h
      exact (fail_eq_ok.mp h).elim
    | some found =>
      rw [hs] at h
      obtain ⟨rfl, rfl⟩ := pure_eq_ok.mp h
      exact ⟨letters, hs, item_of_token htoken⟩
  | integer digits => exact (fail_eq_ok.mp h).elim
  | punctuation mark => exact (fail_eq_ok.mp h).elim

theorem moreNumbersOf_of_moreComponents {count : Nat} {values : List Binary32}
    (h : moreComponents count k = .ok values l) :
    moreNumbersOf values k.ahead [] l.ahead ∧ values.length ≤ count := by
  induction count generalizing k values with
  | zero =>
    obtain ⟨rfl, rfl⟩ := pure_eq_ok.mp h
    exact ⟨⟨rfl, rfl⟩, Nat.le_refl 0⟩
  | succ count ih =>
    simp only [moreComponents, bind_eq_ok] at h
    obtain ⟨found, k', hcomma, h⟩ := h
    have hmark := mark_of_accept rfl hcomma
    cases found with
    | true =>
      simp only [if_true, bind_eq_ok, pure_eq_ok] at h
      obtain ⟨value, k'', hvalue, more, l', hmore, rfl, rfl⟩ := h
      obtain ⟨n, hn, hnumber⟩ := number_of_number hvalue
      obtain ⟨hphrase, hlength⟩ := ih hmore
      exact ⟨join (of_item hmark) (join (of_item ⟨n, hn, hnumber⟩) hphrase),
        Nat.succ_le_succ hlength⟩
    | false =>
      obtain ⟨rfl, rfl⟩ := pure_eq_ok.mp h
      exact ⟨⟨hmark, rfl⟩, Nat.zero_le _⟩

theorem vectorRestOf_of_vectorRest {v : Vec4} (h : vectorRest k = .ok v l) :
    ∃ first more, v = vectorOfList first more ∧ more.length ≤ 3 ∧
      vectorRestOf first more k.ahead [] l.ahead := by
  simp only [vectorRest, bind_eq_ok, pure_eq_ok] at h
  obtain ⟨first, k', hfirst, more, k'', hmore, _, l', hclose, rfl, rfl⟩ := h
  obtain ⟨n, hn, hnumber⟩ := number_of_number hfirst
  obtain ⟨hphrase, hlength⟩ := moreNumbersOf_of_moreComponents hmore
  exact ⟨first, more, rfl, hlength,
    join (of_item ⟨n, hn, hnumber⟩) (join hphrase (of_item (mark_of_expect rfl hclose)))⟩

theorem phrase_of_localParameter {i : LocalParameterIndex} (h : localParameter k = .ok i l) :
    (mark '[').andThen ((integerOf (· = i.val)).andThen (mark ']')) k.ahead [] l.ahead := by
  simp only [localParameter, bind_eq_ok] at h
  obtain ⟨_, k', hopen, n, k'', hinteger, h⟩ := h
  split at h
  · simp only [bind_eq_ok, pure_eq_ok] at h
    obtain ⟨_, l', hclose, rfl, rfl⟩ := h
    obtain ⟨digits, ⟨hn, -⟩, hdigits⟩ := digits_of_integer hinteger
    exact join (of_item (mark_of_expect rfl hopen))
      (join (of_item ⟨digits, hn, hdigits⟩) (of_item (mark_of_expect rfl hclose)))
  · exact (fail_eq_ok.mp h).elim

end Scan

/-- The letters that a swizzle was read from say which component is taken for which. -/
theorem Grammar.Form.component?_of_ofName? {letters : String} {s : Swizzle}
    (h : Swizzle.ofName? letters = some s) (scalar : Bool) (i : Component) :
    component? scalar (some letters) i = some (s.get i) := by
  unfold component?
  dsimp only
  rcases Swizzle.ofName?_eq_some.mp h with ⟨c, hc, rfl⟩ | hs
  · rw [hc, Quad.get_replicate]
    exact Component.ofLetter?_letter c
  · rw [hs]
    cases i <;> exact Component.ofLetter?_letter _

namespace Compile

variable {d e : Draft} {k l : Cursor} {o : Operand} {s : Swizzle}

theorem lettersOf_of_vectorSuffix (h : vectorSuffix o k = .ok s l) :
    ∃ letters, lettersOf false o.isConstant letters k.ahead [] l.ahead ∧
      ∀ i, Form.component? false letters i = some (s.get i) := by
  simp only [vectorSuffix, bind_eq_ok] at h
  obtain ⟨found, k', hpoint, h⟩ := h
  cases found with
  | true =>
    obtain ⟨letters, hs, hname⟩ := Scan.name_of_swizzle h
    exact ⟨some letters, join (of_item (Scan.mark_of_accept rfl hpoint))
      ⟨isSwizzle_iff.mpr ⟨s, hs⟩, of_item hname⟩, Form.component?_of_ofName? hs false⟩
  | false =>
    obtain ⟨rfl, rfl⟩ := pure_eq_ok.mp h
    obtain ⟨hnext, hahead⟩ := Scan.next_of_accept rfl hpoint
    refine ⟨none, ⟨(absurd · Bool.false_ne_true), hnext, hahead, rfl⟩, fun i => ?_⟩
    cases i <;> rfl

theorem lettersOf_of_scalarSuffix (h : scalarSuffix o k = .ok s l) :
    ∃ letters, lettersOf true o.isConstant letters k.ahead [] l.ahead ∧
      ∀ i, Form.component? true letters i = some (s.get i) := by
  simp only [scalarSuffix, bind_eq_ok] at h
  obtain ⟨found, k', hpoint, h⟩ := h
  cases found with
  | true =>
    simp only [if_true, bind_eq_ok] at h
    obtain ⟨found, k'', hswizzle, h⟩ := h
    obtain ⟨letters, hs, hname⟩ := Scan.name_of_swizzle hswizzle
    split at h
    · rename_i hall
      obtain ⟨rfl, rfl⟩ := pure_eq_ok.mp h
      exact ⟨some letters, join (of_item (Scan.mark_of_accept rfl hpoint))
        ⟨isComponent_iff.mpr ⟨_, hs, hall⟩, of_item hname⟩, Form.component?_of_ofName? hs true⟩
    · exact (fail_eq_ok.mp h).elim
  | false =>
    obtain ⟨hnext, hahead⟩ := Scan.next_of_accept rfl hpoint
    -- only a constant may stand without its letter
    cases o with
    | constant index =>
      obtain ⟨rfl, rfl⟩ := pure_eq_ok.mp h
      exact ⟨none, ⟨fun _ => rfl, hnext, hahead, rfl⟩, fun i => by rw [Quad.get_replicate]; rfl⟩
    | register r => exact (failAhead_eq_ok.mp h).elim

/-- The base of a form that stands where an operand was read. -/
def IsBase (b : Base) (o : Operand) (d e : Draft) : Prop :=
  b.phrase d.cursor.ahead [] e.cursor.ahead ∧ b.Denotes e.parameters o.readable ∧
    b.isConstant = o.isConstant

/-- An input is named by what stands between the brackets. -/
theorem isBase_of_inputRegister {i : InputIndex} {f : Draft} (h : inputRegister d = .ok i e)
    (hname : Name "f" f.cursor.ahead d.cursor.ahead) :
    IsBase (.input i) (.register (.input i)) f e := by
  simp only [inputRegister, bind_eq_ok, lift_eq_ok] at h
  obtain ⟨_, _, ⟨k, hopen, rfl⟩, found, _, ⟨k', hidentifier, rfl⟩, h⟩ := h
  cases hnamed : registerNamed? inputNames found with
  | none =>
    rw [hnamed] at h
    exact (fails_fail _ _ _ _ h).elim
  | some j =>
    simp only [hnamed, bind_eq_ok, lift_eq_ok, markInput, modify_eq_ok, pure_eq_ok] at h
    obtain ⟨_, _, ⟨k'', hclose, rfl⟩, _, _, rfl, rfl, rfl⟩ := h
    have hdecide := List.find?_some hnamed
    have hfound : inputNames.get j = found := of_decide_eq_true hdecide
    have hinput := Scan.name_of_identifier hidentifier
    rw [← hfound] at hinput
    exact ⟨join (of_item hname) (join (of_item (Scan.mark_of_expect rfl hopen))
      (join (of_item hinput) (of_item (Scan.mark_of_expect rfl hclose)))), rfl, rfl⟩

/-- A name with the number of a temporary is that of the temporary. -/
theorem isBase_of_temporary {name : String} {n : Nat} {i : TemporaryIndex} {f : Draft}
    (hnumber : temporaryNumber? name = some n)
    (h : (liftM (Scan.temporary n) : Compile TemporaryIndex) d = .ok i e)
    (hname : Name name f.cursor.ahead d.cursor.ahead) :
    IsBase (.temporary i) (.register (.temporary i)) f e := by
  obtain ⟨k, htemporary, rfl⟩ := lift_eq_ok.mp h
  unfold Scan.temporary at htemporary
  split at htemporary
  · obtain ⟨rfl, rfl⟩ := pure_eq_ok.mp htemporary
    exact ⟨⟨name, namesTemporary_iff.mpr hnumber, of_item hname⟩, rfl, rfl⟩
  · exact (fail_eq_ok.mp htemporary).elim

theorem isBase_of_namedOperand {name : String} {o : Operand} {f : Draft}
    (h : namedOperand name d = .ok o e) (hname : Name name f.cursor.ahead d.cursor.ahead)
    (hsound : d.parameters.IsSound) : ∃ b, IsBase b o f e := by
  have hdenotes := denotes_of_namedOperand h hsound.inStep
  unfold namedOperand at h
  -- the names are told apart in the order in which the reader tries them
  split at h
  · exact (fails_fail _ _ _ _ h).elim
  rename_i hcondition
  split at h
  · rename_i hinput
    obtain rfl := hinput
    obtain ⟨i, _, hread, h⟩ := bind_eq_ok.mp h
    obtain ⟨rfl, rfl⟩ := pure_eq_ok.mp h
    exact ⟨.input i, isBase_of_inputRegister hread hname⟩
  split at h
  · rename_i hlocal
    obtain rfl := hlocal
    simp only [bind_eq_ok, lift_eq_ok, pure_eq_ok] at h
    obtain ⟨i, _, ⟨k, hread, rfl⟩, rfl, rfl⟩ := h
    exact ⟨.localParameter i, join (of_item hname) (Scan.phrase_of_localParameter hread), rfl, rfl⟩
  · rename_i hinput hlocal
    cases hnumber : temporaryNumber? name with
    | some n =>
      simp only [hnumber] at h
      obtain ⟨i, _, hread, h⟩ := bind_eq_ok.mp h
      obtain ⟨rfl, rfl⟩ := pure_eq_ok.mp h
      exact ⟨.temporary i, isBase_of_temporary hnumber hread hname⟩
    | none =>
      simp only [hnumber, bind_eq_ok, get_eq_ok] at h
      obtain ⟨_, _, ⟨rfl, rfl⟩, h⟩ := h
      cases hfound : d.parameters.lookup? name with
      | none =>
        rw [hfound] at h
        exact (fails_fail _ _ _ _ h).elim
      | some index =>
        rw [hfound] at h
        obtain ⟨rfl, rfl⟩ := pure_eq_ok.mp h
        obtain ⟨entry, hentry, hentryName⟩ := (hsound.lookup name index).mp hfound
        have hfree := hsound.free entry (ParameterTable.mem_of_get? hentry) name hentryName
        exact ⟨.named name, ⟨hfree, of_item hname⟩, hdenotes, rfl⟩

/-- A literal that was read denotes its value. -/
theorem denotes_of_literal {α : Type} {m : Scan α} (value : α → Vec4) (n : Nat → α → Note)
    (h : (do
        let a ← (liftM m : Compile α)
        let index ← addLiteral (value a)
        note (n index a)
        return Operand.constant index : Compile Operand) d = .ok o e) :
    ∃ a, m d.cursor = .ok a e.cursor ∧ o.isConstant = true ∧
      e.parameters.Denotes o.readable (some (.literal (value a))) := by
  simp only [addLiteral, note, bind_eq_ok, lift_eq_ok, modifyGet_eq_ok, modify_eq_ok,
    pure_eq_ok] at h
  obtain ⟨a, _, ⟨k, hread, rfl⟩, _, _, ⟨rfl, rfl⟩, _, _, rfl, rfl, rfl⟩ := h
  obtain ⟨entry, hentry, hkind, hvalue⟩ := d.parameters.get?_addLiteral (value a)
  exact ⟨a, hread, rfl, _, entry, rfl, hentry, hkind, hvalue⟩

theorem isBase_of_operand (h : operand d = .ok o e) (hsound : d.parameters.IsSound) :
    ∃ b, IsBase b o d e := by
  simp only [operand, bind_eq_ok, lift_eq_ok] at h
  obtain ⟨t, _, ⟨k, hpeek, rfl⟩, h⟩ := h
  obtain ⟨rfl, rfl⟩ := Scan.ahead_of_peek? hpeek
  have hvisible : Token.visible d.cursor.ahead = d.cursor.ahead :=
    Cursor.visible_ahead (onRest_eq_ok.mp hpeek).1
  split at h
  · rename_i hbegins
    obtain ⟨value, hread, hconstant, hdenotes⟩ := denotes_of_literal Quad.replicate
      (fun index v => .scalarLiteral index v) h
    obtain ⟨n, hn, hnumber⟩ := Scan.number_of_number hread
    rw [← hvisible] at hbegins
    exact ⟨.scalar value, ⟨⟨n, hn, sign_eq_none hbegins hnumber, hnumber⟩, rfl⟩,
      hdenotes, hconstant.symm⟩
  · simp only [bind_eq_ok, lift_eq_ok] at h
    obtain ⟨t, _, ⟨k, htoken, rfl⟩, h⟩ := h
    split at h
    · exact isBase_of_namedOperand h (Scan.item_of_token htoken) hsound
    · obtain ⟨value, hread, hconstant, hdenotes⟩ := denotes_of_literal id
        (fun index v => .vectorLiteral index v) h
      obtain ⟨first, more, rfl, hlength, hphrase⟩ := Scan.vectorRestOf_of_vectorRest hread
      exact ⟨.vector first more, join (of_item (Scan.item_of_token htoken rfl)) ⟨hlength, hphrase⟩,
        hdenotes, hconstant.symm⟩
    · exact (fails_fail _ _ _ _ h).elim

/-- Whatever stands in front of it, a base with letters says what is read and how. -/
theorem exists_selection {scalar : Bool} (hoperand : operand d = .ok o e)
    (hsuffix : (if scalar then scalarSuffix else vectorSuffix) o e.cursor = .ok s l)
    (hsound : d.parameters.IsSound) (outer : Bool) (inner : Option Bool) :
    ∃ b letters, Form.selection scalar ⟨outer, inner, b, letters⟩ d.cursor.ahead [] l.ahead ∧
      b.Denotes e.parameters o.readable ∧
      ∀ i, Form.component? scalar letters i = some (s.get i) := by
  obtain ⟨b, hb, hdenotes, hconstant⟩ := isBase_of_operand hoperand hsound
  have hletters : ∃ letters, lettersOf scalar o.isConstant letters e.cursor.ahead [] l.ahead ∧
      ∀ i, Form.component? scalar letters i = some (s.get i) := by
    cases scalar with
    | true => exact lettersOf_of_scalarSuffix hsuffix
    | false => exact lettersOf_of_vectorSuffix hsuffix
  obtain ⟨letters, hletters, hcomponent⟩ := hletters
  rw [← hconstant] at hletters
  exact ⟨b, letters, join hb hletters, hdenotes, hcomponent⟩

/-- A source operand, of a scalar or of a vector. -/
def source (scalar : Bool) : Compile Source :=
  if scalar then scalarSource else vectorSource

/-- What was read as a source has a form, and is the source that this form says. -/
theorem says_of_source {scalar : Bool} {s : Source} (h : source scalar d = .ok s e)
    (hsound : d.parameters.IsSound) : ∃ w : Form,
      w.phrase scalar d.cursor.ahead [] e.cursor.ahead ∧ w.Says scalar e.parameters s := by
  have hsource : sourceWith (if scalar then scalarSuffix else vectorSuffix) d = .ok s e := by
    cases scalar <;> exact within_eq_ok.mp h
  simp only [sourceWith, bind_eq_ok, lift_eq_ok] at hsource
  obtain ⟨outer, _, ⟨k, houter, rfl⟩, bars, _, ⟨k', hbars, rfl⟩, hrest⟩ := hsource
  have hsign := Scan.signOf_of_negation houter
  have hmark := Scan.mark_of_accept rfl hbars
  cases bars with
  | true =>
    simp only [if_true, bind_eq_ok, lift_eq_ok, pure_eq_ok] at hrest hmark
    obtain ⟨inner, _, ⟨k'', hinner, rfl⟩, o, f, hoperand, swizzle, _, ⟨l, hsuffix, rfl⟩, _, _,
      ⟨l', hclose, rfl⟩, rfl, rfl⟩ := hrest
    obtain ⟨b, letters, hselection, hdenotes, hcomponent⟩ :=
      exists_selection hoperand hsuffix hsound outer (some inner)
    have hsign' := Scan.signOf_of_negation hinner
    exact ⟨⟨outer, some inner, b, letters⟩, join hsign (join (of_item hmark) (join hsign'
      (join hselection (of_item (Scan.mark_of_expect rfl hclose))))),
      ⟨hdenotes, hcomponent, rfl, rfl, rfl⟩⟩
  | false =>
    simp only [Bool.false_eq_true, if_false, pure_bind, bind_eq_ok, lift_eq_ok, pure_eq_ok]
      at hrest hmark
    obtain ⟨o, f, hoperand, swizzle, _, ⟨l, hsuffix, rfl⟩, rfl, rfl⟩ := hrest
    obtain ⟨b, letters, hselection, hdenotes, hcomponent⟩ :=
      exists_selection hoperand hsuffix hsound outer none
    rw [show Cursor.ahead _ = Cursor.ahead k from hmark] at hselection
    exact ⟨⟨outer, none, b, letters⟩, join hsign hselection, ⟨hdenotes, hcomponent, rfl, rfl, rfl⟩⟩

end Compile

end FragmentAssembly

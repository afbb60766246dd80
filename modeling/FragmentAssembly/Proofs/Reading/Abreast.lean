import FragmentAssembly.Proofs.Assembly.Basic
import FragmentAssembly.Proofs.Coupling
import FragmentAssembly.Proofs.Outcome
import FragmentAssembly.Proofs.Reading.Scan

/-!
# Reading abreast

Two texts are read abreast if every action on a single item does the same in both of them.  Then
all reading does the same in both, up to whole programs.
-/

namespace FragmentAssembly

/-! ## Items -/

/-- Neither blank nor the start of a comment. -/
def Token.isVisible (c : Char) : Bool :=
  c ≠ '#' && !isBlank c

/-- Characters that stand together. -/
def Token.isChunk (cs : List Char) : Bool :=
  !cs.isEmpty && cs.all isVisible

/-- Where the errors of a cause lie. -/
inductive ErrorPlace where
  | header
  | inside
  /-- The end of the text. -/
  | ending
  /-- No such error is reported. -/
  | nowhere
deriving DecidableEq

def ErrorCause.place : ErrorCause → ErrorPlace
  | invalidHeader | combinerProgram => .header
  | unexpectedEnd | missingEnd | noOutputsWritten => .ending
  | splitCharacter => .nowhere
  | _ => .inside

/-! ## Tokens -/

namespace Scan

/-- The next token, which must be there and be no part of a character. -/
def wholeToken (missing refused : ErrorCause) : Scan Token := do
  match ← token? with
  | some t => if t.IsWhole then return t else fail refused
  | none => fail missing

variable {α : Type} {missing refused : ErrorCause}

section WholeToken

variable {k l : Cursor} {t : Token}

theorem wholeToken_of_isWhole (hinside : k.inside = []) (hlead : Token.lead? k.ahead = some t)
    (hwhole : t.IsWhole) : wholeToken missing refused k =
      .ok t (k.skipIgnored.markToken.advance t.text.length) := by
  rw [← Cursor.rest_skipIgnored hinside] at hlead
  rw [wholeToken, bind_apply, token?_apply hinside, Cursor.next_of_isWhole hinside hlead hwhole]
  dsimp only
  rw [if_pos hwhole]
  rfl

theorem wholeToken_of_part (hinside : k.inside = []) (hlead : Token.lead? k.ahead = some t)
    (hpart : ¬t.IsWhole) : wholeToken missing refused k =
      .error ⟨refused, k.skipIgnored.position, []⟩ (k.skipIgnored.markToken.pass t) := by
  rw [← Cursor.rest_skipIgnored hinside] at hlead
  rw [wholeToken, bind_apply, token?_apply hinside, Cursor.next_of_some hinside hlead]
  dsimp only
  rw [if_neg hpart, fail, Cursor.tokenStart_pass]
  rfl

theorem wholeToken_of_none (hinside : k.inside = []) (hlead : Token.lead? k.ahead = none) :
    wholeToken missing refused k =
      .error ⟨missing, k.skipIgnored.position, []⟩ k.skipIgnored.markToken := by
  rw [← Cursor.rest_skipIgnored hinside] at hlead
  rw [wholeToken, bind_apply, token?_apply hinside, Cursor.next_of_none hinside hlead]
  rfl

theorem wholeToken_eq_ok : wholeToken missing refused k = .ok t l ↔
    k.inside = [] ∧ Token.lead? k.ahead = some t ∧ t.IsWhole ∧
      k.skipIgnored.markToken.advance t.text.length = l := by
  by_cases hinside : k.inside = []
  · rw [and_iff_right hinside]
    cases hlead : Token.lead? k.ahead with
    | none => simp [wholeToken_of_none hinside hlead]
    | some u =>
      by_cases hwhole : u.IsWhole
      · rw [wholeToken_of_isWhole hinside hlead hwhole, EStateM.Result.ok.injEq,
          Option.some.injEq]
        constructor
        · rintro ⟨rfl, rfl⟩
          exact ⟨rfl, hwhole, rfl⟩
        · rintro ⟨rfl, -, rfl⟩
          exact ⟨rfl, rfl⟩
      · rw [wholeToken_of_part hinside hlead hwhole, Option.some.injEq]
        simp only [reduceCtorEq, false_iff, not_and]
        rintro rfl hwhole'
        exact absurd hwhole' hwhole
  · rw [wholeToken, bind_apply, token?, onRest_of_ne_nil hinside]
    simp only [hinside, reduceCtorEq, false_and]

end WholeToken

/-- Parts of characters are refused, so they may be refused when the token is read. -/
theorem token?_bind {f : Option Token → Scan α} (hmissing : f none = fail missing)
    (hrefused : ∀ t, ¬t.IsWhole → f (some t) = fail refused) :
    token? >>= f = wholeToken missing refused >>= fun t => f (some t) := by
  funext k
  rw [bind_apply, bind_apply, wholeToken, bind_apply]
  cases token? k with
  | error e l => rfl
  | ok found l =>
    cases found with
    | none => exact congrFun hmissing l
    | some t =>
      by_cases hwhole : t.IsWhole
      · simp only [if_pos hwhole]
        rfl
      · simp only [if_neg hwhole]
        exact congrFun (hrefused t hwhole) l

theorem token_bind {f : Token → Scan α} (h : ∀ t, ¬t.IsWhole → f t = fail refused) :
    token >>= f = wholeToken .unexpectedEnd refused >>= f := by
  rw [token, bind_assoc]
  exact token?_bind rfl h

/-- Whatever stands in the place of a mark is refused. -/
theorem expect_eq_wholeToken (mark : String) : expect mark = (do
    if ← accept mark then
      return ()
    let _ ← wholeToken .unexpectedEnd (.expected mark)
    fail (.expected mark)) := by
  unfold expect
  congr 1
  funext found
  cases found with
  | true => rfl
  | false => exact token?_bind rfl fun _ _ => rfl

end Scan

namespace Compile

theorem token_bind {α : Type} {refused : ErrorCause} {f : Token → Compile α}
    (h : ∀ t, ¬t.IsWhole → f t = liftM (Scan.fail refused : Scan α)) :
    (liftM Scan.token : Compile Token) >>= f =
      liftM (Scan.wholeToken .unexpectedEnd refused) >>= f := by
  funext d
  rw [bind_apply, bind_apply, lift_apply, lift_apply, Scan.token, Scan.wholeToken, bind_apply,
    bind_apply]
  cases Scan.token? d.cursor with
  | error e l => rfl
  | ok found l =>
    cases found with
    | none => rfl
    | some t =>
      by_cases hwhole : t.IsWhole
      · simp only [if_pos hwhole]
      · simp only [if_neg hwhole]
        exact congrFun (h t hwhole) _

end Compile

namespace Coupling

/-- Errors are still alike when they are seen from a construct around them. -/
structure Nests {σ : Type} (c : Coupling ParseError σ) : Prop where
  alike : ∀ {e f : ParseError} (around : Construct), c.alike e f →
    c.alike (e.inside around) (f.inside around)
  last : ∀ {e : ParseError} (around : Construct), c.last e → c.last (e.inside around)

/-- The actions on single items go together. -/
structure Abreast (c : Coupling ParseError Cursor) : Prop extends c.Nests where
  accept : ∀ mark : String, Token.isChunk mark.toList = true →
    c.Follows Eq (· = false) (Scan.accept mark) (Scan.accept mark)
  acceptWord : ∀ word : String, Token.isChunk word.toList = true →
    c.Follows Eq (· = false) (Scan.acceptWord word) (Scan.acceptWord word)
  peek? : c.Follows Eq (· = none) Scan.peek? Scan.peek?
  token : ∀ missing refused : ErrorCause, missing.place = .ending → refused.place = .inside →
    c.Follows Eq Never (Scan.wholeToken missing refused) (Scan.wholeToken missing refused)
  number : c.Follows Eq Never Scan.number Scan.number
  fail : ∀ {α β : Type} {V : α → β → Prop} {D : α → Prop} {cause : ErrorCause},
    cause.place = .inside → c.Together V D (Scan.fail cause) (Scan.fail cause)
  failAhead : ∀ {α β : Type} {V : α → β → Prop} {D : α → Prop} {cause : ErrorCause},
    cause.place = .inside → c.Follows V D (Scan.failAhead cause) (Scan.failAhead cause)

section Constructs

variable {σ α β : Type} {c : Coupling ParseError σ} {V : α → β → Prop} {D : α → Prop}
  {m : EStateM ParseError σ α} {n : EStateM ParseError σ β}

theorem Together.within (hnests : c.Nests) (around : Construct) (h : c.Together V D m n) :
    c.Together V D (within around m) (within around n) := by
  intro s t hst
  unfold FragmentAssembly.within
  have hmn := h s t hst
  generalize m s = x at hmn
  generalize n t = y at hmn
  cases hmn with
  | ok value state => exact .ok value state
  | error h => exact .error (hnests.alike around h)
  | spent value state => exact .spent value state _
  | last h => exact .last (hnests.last around h) _

theorem Stays.within (hnests : c.Nests) (around : Construct) (h : c.Stays D m) :
    c.Stays D (within around m) := by
  intro s hs
  unfold FragmentAssembly.within
  rcases h s hs with ⟨a, t, ha, hD, ht⟩ | ⟨e, t, he, hlast⟩
  · rw [ha]
    exact .inl ⟨a, t, rfl, hD, ht⟩
  · rw [he]
    exact .inr ⟨_, t, rfl, hnests.last around hlast⟩

theorem Follows.within (hnests : c.Nests) (around : Construct) (h : c.Follows V D m n) :
    c.Follows V D (within around m) (within around n) :=
  ⟨h.together.within hnests around, h.stays.within hnests around⟩

end Constructs

end Coupling

open Coupling

namespace Scan

variable {c : Coupling ParseError Cursor}

theorem follows_expect (h : c.Abreast) (mark : String) (hmark : Token.isChunk mark.toList = true) :
    c.Follows Eq Never (expect mark) (expect mark) := by
  have hother := h.token .unexpectedEnd (.expected mark) rfl rfl
  rw [expect_eq_wholeToken]
  apply (h.accept mark hmark).bind
  · rintro found _ rfl
    cases found with
    | true => exact .pure rfl
    | false =>
      rw [if_neg Bool.false_ne_true]
      exact hother.together.andThen fun _ _ _ => h.fail rfl
  · rintro found rfl
    rw [if_neg Bool.false_ne_true]
    exact hother.stays.andThen

theorem follows_integer (h : c.Abreast) : c.Follows Eq Never integer integer := by
  rw [integer, token_bind (Token.forall_not_isWhole fun _ _ => rfl)]
  apply (h.token _ _ rfl rfl).andThen
  rintro t _ rfl
  cases t with
  | integer digits =>
    dsimp only
    split
    · exact .pure rfl
    · exact h.fail rfl
  | identifier name => exact h.fail rfl
  | punctuation mark => exact h.fail rfl

theorem follows_identifier (h : c.Abreast) : c.Follows Eq Never identifier identifier := by
  rw [identifier, token_bind (Token.forall_not_isWhole fun _ _ => rfl)]
  apply (h.token _ _ rfl rfl).andThen
  rintro t _ rfl
  cases t with
  | identifier name => exact .pure rfl
  | integer digits => exact h.fail rfl
  | punctuation mark => exact h.fail rfl

theorem together_temporary (h : c.Abreast) (number : Nat) :
    c.Together Eq Never (temporary number) (temporary number) := by
  unfold temporary
  split
  · exact .pure rfl
  · exact h.fail rfl

theorem follows_localParameter (h : c.Abreast) :
    c.Follows Eq Never localParameter localParameter := by
  apply (follows_expect h "[" (by decide)).andThen
  intro _ _ _
  apply (follows_integer h).together.andThen
  rintro number _ rfl
  split
  · exact (follows_expect h "]" (by decide)).together.andThen fun _ _ _ => .pure rfl
  · exact h.fail rfl

/-! ## Constants -/

theorem follows_moreComponents (h : c.Abreast) (count : Nat) :
    c.Follows Eq Always (moreComponents count) (moreComponents count) := by
  induction count with
  | zero => exact .pure rfl trivial
  | succ count ih =>
    apply (h.accept "," (by decide)).bind
    · rintro found _ rfl
      cases found with
      | false => exact .pure rfl
      | true =>
        apply h.number.together.andThen
        rintro value _ rfl
        exact ih.together.map fun _ _ => congrArg _
    · rintro found rfl
      exact .pure trivial

theorem follows_vectorRest (h : c.Abreast) : c.Follows Eq Never vectorRest vectorRest := by
  apply h.number.andThen
  rintro first _ rfl
  have hclose := follows_expect h "\x7d" (by decide)
  apply (follows_moreComponents h 3).together.bind
  · rintro more _ rfl
    exact hclose.together.andThen fun _ _ _ => .pure rfl
  · intro more _
    exact hclose.stays.andThen

theorem follows_constant (h : c.Abreast) : c.Follows Eq Never constant constant := by
  have hscalar := h.number.within h.toNests .scalarConstant
  apply (h.accept "\x7b" (by decide)).bind
  · rintro found _ rfl
    cases found with
    | true => exact ((follows_vectorRest h).within h.toNests .vectorConstant).together
    | false =>
      apply hscalar.together.andThen
      rintro value _ rfl
      exact .pure rfl
  · rintro found rfl
    exact hscalar.stays.andThen

/-! ## Components and conditions -/

theorem follows_word {α : Type} (h : c.Abreast) (meaning? : String → Option α) {cause : ErrorCause}
    (hcause : cause.place = .inside) :
    c.Follows Eq Never (word meaning? cause) (word meaning? cause) := by
  rw [word, token_bind (Token.forall_not_isWhole fun _ _ => rfl)]
  apply (h.token _ _ rfl hcause).andThen
  rintro t _ rfl
  cases t with
  | identifier name =>
    dsimp only
    cases meaning? name with
    | some a => exact .pure rfl
    | none => exact h.fail hcause
  | integer digits => exact h.fail hcause
  | punctuation mark => exact h.fail hcause

theorem follows_swizzle (h : c.Abreast) : c.Follows Eq Never swizzle swizzle := by
  rw [swizzle_eq_word]
  exact follows_word h _ rfl

theorem follows_writeMask (h : c.Abreast) : c.Follows Eq Never writeMask writeMask := by
  rw [writeMask_eq_word]
  exact follows_word h _ rfl

theorem follows_condition (h : c.Abreast) : c.Follows Eq Always condition condition := by
  rw [condition_eq_word]
  apply (follows_word h _ rfl).andThen
  rintro rule _ rfl
  apply (h.accept "." (by decide)).together.bind
  · rintro found _ rfl
    cases found with
    | false => exact .pure rfl
    | true =>
      apply (follows_swizzle h).together.andThen
      rintro s _ rfl
      exact .pure rfl
  · rintro found rfl
    exact .pure trivial

theorem follows_negation (h : c.Abreast) : c.Follows Eq (· = false) negation negation := by
  have hplus := h.accept "+" (by decide)
  apply (h.accept "-" (by decide)).bind
  · rintro found _ rfl
    cases found with
    | true => exact .pure rfl
    | false =>
      apply hplus.together.bind
      · intro _ _ _
        exact .pure rfl
      · intro _ _
        exact .pure rfl
  · rintro found rfl
    apply hplus.stays.bind
    intro _ _
    exact .pure rfl

end Scan

end FragmentAssembly

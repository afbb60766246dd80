import FragmentAssembly.Proofs.Grammar.Place
import FragmentAssembly.Proofs.Reading.Statement

/-!
# Texts that are cut off

A text that is cut off is read beside the whole text.  The two runs are the same as long as nothing
but what stands in front of the cut is looked at.
-/

namespace FragmentAssembly

/-! ## Runs on a beginning -/

namespace Coupling

variable {ε σ α β : Type}

/-- What the first run ends with where the second one returns `a` in the state `t`: the same value,
which satisfies `Q`, or a value in `D` with nothing left, or a last error. -/
inductive Short (c : Coupling ε σ) (Q : α → σ → Prop) (D : α → Prop) (a : α) (t : σ) :
    EStateM.Result ε σ α → Prop where
  | ok {s : σ} (state : c.beside s t) (post : Q a t) : Short c Q D a t (.ok a s)
  | spent {b : α} {s : σ} (value : D b) (state : c.spent s) : Short c Q D a t (.ok b s)
  | last {e : ε} {s : σ} (h : c.last e) : Short c Q D a t (.error e s)

/-- Where the second run succeeds from a state in `P`, the first one is cut short at most. -/
def Abridges (c : Coupling ε σ) (P : σ → Prop) (m : EStateM ε σ α) (Q : α → σ → Prop)
    (D : α → Prop) : Prop :=
  ∀ ⦃s t u : σ⦄ ⦃a : α⦄, c.beside s t → P t → m t = .ok a u → c.Short Q D a u (m s)

namespace Abridges

variable {c : Coupling ε σ} {P : σ → Prop} {Q : α → σ → Prop} {R : β → σ → Prop} {D : α → Prop}
  {E : β → Prop} {m : EStateM ε σ α} {f : α → EStateM ε σ β}

theorem pure {a : α} (h : ∀ t, P t → Q a t) : c.Abridges P (pure a) Q D := by
  intro s t u b hst hP hok
  obtain ⟨rfl, rfl⟩ := pure_eq_ok.mp hok
  exact .ok hst (h t hP)

/-- An action that does not succeed. -/
theorem fail (h : ∀ t u a, m t ≠ .ok a u) : c.Abridges P m Q D :=
  fun _ t u a _ _ hok => (h t u a hok).elim

/-- Where the first action can be spent, the second one must stay so. -/
theorem bind (hm : c.Abridges P m Q D) (hf : ∀ a, c.Abridges (Q a) (f a) R E)
    (hstay : ∀ a, D a → c.Stays E (f a)) : c.Abridges P (m >>= f) R E := by
  intro s t u b hst hP hok
  obtain ⟨a, t', ha, hb⟩ := bind_eq_ok.mp hok
  rw [bind_apply]
  have hshort := hm hst hP ha
  generalize m s = x at hshort
  cases hshort with
  | ok state post => exact hf a state post hb
  | @spent a' s' value state =>
    show c.Short R E b u (f a' s')
    rcases hstay a' value s' state with ⟨b', s'', hb', hE, hs''⟩ | ⟨e, s'', he, hlast⟩
    · rw [hb']
      exact .spent hE hs''
    · rw [he]
      exact .last hlast
  | last h => exact .last h

/-- An action that is never spent goes before any other. -/
theorem andThen (hm : c.Abridges P m Q Never) (hf : ∀ a, c.Abridges (Q a) (f a) R E) :
    c.Abridges P (m >>= f) R E :=
  hm.bind hf fun _ hnever => hnever.elim

/-- The last action only returns something, and it does so at any rate. -/
theorem map {g : α → β} (hm : c.Abridges P m Q D) (h : ∀ a t, Q a t → R (g a) t) :
    c.Abridges P (m >>= fun a => Pure.pure (g a)) R Always :=
  hm.bind (fun a => .pure (h a)) fun _ _ => .pure trivial

theorem weaken {P' : σ → Prop} {Q' : α → σ → Prop} {D' : α → Prop} (h : c.Abridges P m Q D)
    (hP : ∀ t u a, P' t → m t = .ok a u → P t) (hQ : ∀ a t, Q a t → Q' a t)
    (hD : ∀ a, D a → D' a) : c.Abridges P' m Q' D' := by
  intro s t u a hst hP' hok
  have hshort := h hst (hP t u a hP' hok) hok
  generalize m s = x at hshort
  cases hshort with
  | ok state post => exact .ok state (hQ a u post)
  | spent value state => exact .spent (hD _ value) state
  | last h => exact .last h

/-- The states are looked at. -/
theorem look {f : σ → EStateM ε σ β}
    (h : ∀ s t u b, c.beside s t → P t → f t t = .ok b u → c.Short R E b u (f s s)) :
    c.Abridges P (get >>= f) R E :=
  fun s t u b hst hP hok => h s t u b hst hP hok

end Abridges

theorem Abridges.within {σ α : Type} {c : Coupling ParseError σ} {P : σ → Prop}
    {Q : α → σ → Prop} {D : α → Prop} {m : EStateM ParseError σ α} (hnests : c.Nests)
    (around : Construct) (h : c.Abridges P m Q D) :
    c.Abridges P (FragmentAssembly.within around m) Q D := by
  intro s t u a hst hP hok
  have hshort := h hst hP (within_eq_ok.mp hok)
  unfold FragmentAssembly.within
  generalize m s = x at hshort
  cases hshort with
  | ok state post => exact .ok state post
  | spent value state => exact .spent value state
  | last h => exact .last (hnests.last around h)

/-- What goes together is not cut short. -/
theorem Together.abridges {ε σ α : Type} {c : Coupling ε σ} {P : σ → Prop} {Q : α → σ → Prop}
    {D : α → Prop} {m : EStateM ε σ α} (h : c.Together Eq D m m)
    (hQ : ∀ t u a, P t → m t = .ok a u → Q a u) : c.Abridges P m Q D := by
  intro s t u a hst hP hok
  have hpairs := h s t hst
  rw [hok] at hpairs
  generalize m s = x at hpairs
  cases hpairs with
  | ok value state =>
    subst value
    exact .ok state (hQ _ _ _ hP hok)
  | spent value state => exact .spent value state
  | last h => exact .last h

theorem Abridges.lift {α : Type} {c : Coupling ParseError Cursor} {P : Cursor → Prop}
    {Q : α → Cursor → Prop} {D : α → Prop} {m : Scan α} (h : c.Abridges P m Q D) :
    c.onDraft.Abridges (fun d => P d.cursor) (liftM m) (fun a d => Q a d.cursor) D := by
  intro d e f a hde hP hok
  obtain ⟨l, hl, rfl⟩ := lift_eq_ok.mp hok
  have hshort := h hde.1 hP hl
  rw [lift_apply]
  generalize m d.cursor = x at hshort
  cases hshort with
  | ok state post => exact .ok ⟨state, hde.2⟩ post
  | spent value state => exact .spent value state
  | last h => exact .last h

end Coupling

open Coupling

/-! ## Cuts -/

/-- Causes of errors at the end of a text that goes on with `more`.  In front of the suffix of a
scalar operand and of the target of a texture unit it is not the end of the text that is reported,
but that these are missing. -/
inductive ErrorCause.IsMissing (more : List Char) : ErrorCause → Prop where
  | token : IsMissing more .unexpectedEnd
  | statement : IsMissing more .missingEnd
  | suffix (h : more.head? = some '.') : IsMissing more (.expected "scalar suffix")
  | target (target : TextureTarget) (h : Token.startsWith target.name more = true) :
    IsMissing more .invalidTextureTarget

/-- A cut between two tokens, and not inside a literal. -/
structure Cut where
  /-- What stands between the header and the cut. -/
  front : List Char
  more : List Char
  /-- Bytes in front of the cut. -/
  size : Nat
  splits : Token.Splits front more
  literals : ¬Token.InLiteral (front ++ more) more

/-- The cursor at the same place if `more` stands behind the text. -/
def Cursor.extend (k : Cursor) (more : List Char) : Cursor :=
  { k with rest := k.rest ++ more }

theorem Cursor.advance_extend {more : List Char} (hsolid : Token.isSolid more = true) {n : Nat}
    {k : Cursor} (hn : n ≤ k.rest.length) :
    (k.extend more).advance n = (k.advance n).extend more := by
  induction n generalizing k with
  | zero => rfl
  | succ n ih =>
    obtain ⟨d, r, hrest⟩ := List.exists_cons_of_length_pos (Nat.lt_of_lt_of_le n.succ_pos hn)
    have hends : endsLine d (r ++ more) = endsLine d r := by
      cases r with
      | cons => rfl
      | nil =>
        have hbreak : more.head? ≠ some '\n' := by
          intro hhead
          rw [Token.isSolid, hhead] at hsolid
          cases hsolid
        simp [endsLine, hbreak]
    have hstep : (k.extend more).step = k.step.extend more := by
      unfold step
      rw [extend, hrest, List.cons_append]
      dsimp only
      rw [hends]
      split <;> rfl
    rw [advance, advance, hstep]
    apply ih
    rw [step_rest, List.length_drop]
    omega

namespace Cut

variable {c : Cut} {k l : Cursor}

/-- The first run stands in front of the cut, where the second one knows what comes behind it. -/
def coupling (c : Cut) : Coupling ParseError Cursor where
  beside k l :=
    l = k.extend c.more ∧ k.rest <:+ c.front ∧ k.position + bytes k.rest = c.size ∧ k.inside = []
  alike _ _ := True
  spent k := k.ahead = [] ∧ k.position + bytes k.rest = c.size
  last e := e.position = c.size ∧ e.cause.IsMissing c.more

theorem nests : c.coupling.Nests :=
  ⟨fun _ _ => trivial, fun _ h => h⟩

theorem splits_of_beside (h : c.coupling.beside k l) : Token.Splits k.rest c.more :=
  c.splits.suffix h.2.1

/-- Both cursors stand between two characters. -/
theorem inside_of_beside (h : c.coupling.beside k l) : k.inside = [] ∧ l.inside = [] := by
  obtain ⟨rfl, -, -, hinside⟩ := h
  exact ⟨hinside, hinside⟩

theorem inside_of_spent (h : c.coupling.spent k) : k.inside = [] :=
  @Cursor.inside_of_ahead _ [] h.1

theorem ahead_of_beside (h : c.coupling.beside k l) : l.ahead = k.ahead ++ c.more := by
  obtain ⟨hk, hl⟩ := inside_of_beside h
  rw [Cursor.ahead_of_inside hk, Cursor.ahead_of_inside hl, h.1]
  exact (splits_of_beside h).visible_append

theorem splits_ahead (h : c.coupling.beside k l) : Token.Splits k.ahead c.more := by
  rw [Cursor.ahead_of_inside (inside_of_beside h).1]
  exact (splits_of_beside h).suffix (List.drop_suffix _ _)

theorem beside_advance {n : Nat} (h : c.coupling.beside k l) (hn : n ≤ k.rest.length) :
    c.coupling.beside (k.advance n) (l.advance n) := by
  obtain ⟨rfl, hsuffix, hbytes, hinside⟩ := h
  refine ⟨Cursor.advance_extend c.splits.solid hn, ?_,
    (Cursor.bytes_advance_of_inside n hinside).trans hbytes, Cursor.advance_inside n hinside⟩
  rw [Cursor.advance_rest]
  exact (List.drop_suffix _ _).trans hsuffix

/-- The same blanks and comments are passed. -/
theorem beside_skipIgnored (h : c.coupling.beside k l) :
    c.coupling.beside k.skipIgnored l.skipIgnored := by
  obtain ⟨hk, hl⟩ := inside_of_beside h
  have hsame : Token.ignoredLength false l.rest = Token.ignoredLength false k.rest := by
    have hlength := congrArg List.length (ahead_of_beside h)
    have hrest : l.rest = k.rest ++ c.more := by rw [h.1]; rfl
    have hle := Token.ignoredLength_le false l.rest
    have hle' := Token.ignoredLength_le false k.rest
    rw [Cursor.ahead_of_inside hk, Cursor.ahead_of_inside hl, Token.visible, Token.visible,
      List.length_append, List.length_drop, List.length_drop, hrest, List.length_append] at hlength
    rw [hrest, List.length_append] at hle
    rw [hrest]
    omega
  rw [Cursor.skipIgnored_of_inside hk, Cursor.skipIgnored_of_inside hl, hsame]
  exact beside_advance h (Token.ignoredLength_le false k.rest)

/-- The same item is taken. -/
theorem beside_taken {n : Nat} (h : c.coupling.beside k l) (hn : n ≤ k.ahead.length) :
    c.coupling.beside (k.skipIgnored.markToken.advance n)
      (l.skipIgnored.markToken.advance n) := by
  obtain ⟨hl, hskipped⟩ := beside_skipIgnored h
  have hmarked : c.coupling.beside k.skipIgnored.markToken l.skipIgnored.markToken :=
    ⟨by rw [hl]; rfl, hskipped⟩
  apply beside_advance hmarked
  rw [Cursor.markToken, Cursor.rest_skipIgnored (inside_of_beside h).1]
  exact hn

/-- At the cut nothing is left for the first run. -/
theorem spent_of_beside (h : c.coupling.beside k l) (hmore : l.ahead = c.more) :
    c.coupling.spent k := by
  rw [ahead_of_beside h] at hmore
  exact ⟨List.append_left_eq_self.mp hmore, h.2.2.1⟩

/-- In front of the cut something is left for the first run as well. -/
theorem ahead_ne_nil (h : c.coupling.beside k l) (hne : l.ahead ≠ c.more) : k.ahead ≠ [] := by
  intro hnil
  rw [ahead_of_beside h, hnil] at hne
  exact hne rfl

/-- Where nothing is left, the end is behind blanks and comments. -/
theorem position_of_spent (h : c.coupling.spent k) : k.skipIgnored.position = c.size := by
  have hbytes : k.skipIgnored.position + bytes k.skipIgnored.rest = c.size :=
    (Cursor.bytes_skipIgnored_of_inside (inside_of_spent h)).trans h.2
  rwa [Cursor.rest_skipIgnored (inside_of_spent h), h.1] at hbytes

theorem spent_skipIgnored (h : c.coupling.spent k) : c.coupling.spent k.skipIgnored :=
  ⟨k.ahead_skipIgnored.trans h.1,
    (Cursor.bytes_skipIgnored_of_inside (inside_of_spent h)).trans h.2⟩

end Cut

/-! ## Where nothing is left -/

namespace Scan

variable {c : Cut}

theorem stays_accept (mark : String) (hmark : mark.toList ≠ []) :
    c.coupling.Stays (· = false) (accept mark) := by
  intro k hk
  obtain ⟨d, ds, hd⟩ := List.exists_cons_of_ne_nil hmark
  have hno : ¬mark.toList.isPrefixOf k.ahead = true := by
    rw [hk.1, hd]
    exact Bool.false_ne_true
  rw [accept_apply mark (Cut.inside_of_spent hk), if_neg hno]
  exact .inl ⟨false, _, rfl, rfl, Cut.spent_skipIgnored hk⟩

theorem stays_token? {α : Type} {D : α → Prop} {f : Option Token → Scan α} {cause : ErrorCause}
    (hnone : f none = fail cause) (hcause : cause.IsMissing c.more) :
    c.coupling.Stays D (token? >>= f) := by
  intro k hk
  have hinside := Cut.inside_of_spent hk
  have hlead : Token.lead? k.skipIgnored.rest = none := by
    rw [Cursor.rest_skipIgnored hinside, hk.1]
    rfl
  have hfail : (token? >>= f) k =
      .error ⟨cause, k.skipIgnored.position, []⟩ k.skipIgnored.markToken := by
    rw [bind_apply, token?_apply hinside, Cursor.next_of_none hinside hlead]
    dsimp only
    rw [hnone]
    rfl
  exact .inr ⟨_, _, hfail, Cut.position_of_spent hk, hcause⟩

theorem stays_token : c.coupling.Stays Never token :=
  stays_token? rfl .token

theorem stays_wholeToken {missing refused : ErrorCause} (h : missing.IsMissing c.more) :
    c.coupling.Stays Never (wholeToken missing refused) :=
  stays_token? rfl h

theorem stays_expect (mark : String) (hmark : mark.toList ≠ []) :
    c.coupling.Stays Never (expect mark) := by
  apply (stays_accept mark hmark).bind
  rintro found rfl
  rw [if_neg Bool.false_ne_true]
  exact stays_token? rfl .token

theorem stays_number : c.coupling.Stays Never number := by
  intro k hk
  have hnone : Numeral.ofChars? k.ahead = none := by
    rw [hk.1]
    rfl
  refine .inr ⟨_, _, number_of_none (Cut.inside_of_spent hk) hnone, Cut.position_of_spent hk, ?_⟩
  rw [hk.1]
  exact .token

theorem stays_peek? : c.coupling.Stays (· = none) peek? := by
  intro k hk
  refine .inl ⟨none, k, ?_, rfl, hk⟩
  rw [peek?_apply (Cut.inside_of_spent hk), hk.1]
  rfl

end Scan

/-! ## Single items -/

namespace Cut

variable {c : Cut} {k l : Cursor}

/-- An item begins in front of `cs`, behind blanks and comments. -/
def Begins (c : Cut) (signs : Bool) (cs : List Char) : Prop :=
  Token.Place (c.front ++ c.more) signs (Token.visible cs)

/-- An item begins with a mark right in front of `cs`. -/
def Follows (c : Cut) (mark : Char) (signs : Bool) (cs : List Char) : Prop :=
  Token.Place (c.front ++ c.more) signs (mark :: cs)

/-- An item begins at the cursor. -/
def At (c : Cut) (signs : Bool) (l : Cursor) : Prop :=
  c.Begins signs l.rest

/-- The cursor is behind the first token of a text in `P`. -/
def Read (P : List Char → Prop) (t : Token) (l : Cursor) : Prop :=
  ∃ cs, P cs ∧ Token.lead? (Token.visible cs) = some t ∧ t.IsWhole ∧
    Token.visible l.rest = Token.visible ((Token.visible cs).drop t.text.length)

/-- What an action does where nothing is left need not be looked at again. -/
theorem abridges_of_ahead {α : Type} {P : Cursor → Prop} {m : Scan α} {Q : α → Cursor → Prop}
    {D : α → Prop} (hstays : c.coupling.Stays D m)
    (h : c.coupling.Abridges (fun l => P l ∧ l.ahead ≠ c.more) m Q D) :
    c.coupling.Abridges P m Q D := by
  intro k l l' a hkl hP hok
  by_cases hmore : l.ahead = c.more
  · rcases hstays k (spent_of_beside hkl hmore) with ⟨b, k', hb, hD, hk'⟩ | ⟨e, k', he, hlast⟩
    · rw [hb]
      exact .spent hD hk'
    · rw [he]
      exact .last hlast
  · exact h hkl ⟨hP, hmore⟩ hok

/-- No literal reaches over the cut. -/
theorem literal_le {signs : Bool} {n : Nat} (h : c.coupling.beside k l) (hne : l.ahead ≠ c.more)
    (hat : c.At signs l) (hliteral : Token.BeginsLiteral signs l.ahead n) :
    n ≤ k.ahead.length := by
  apply Nat.le_of_not_lt
  intro hlt
  have hplace : Token.Place (c.front ++ c.more) signs l.ahead := by
    rw [Cursor.ahead_of_inside (inside_of_beside h).2]
    exact hat
  have hnil := ahead_ne_nil h hne
  rw [ahead_of_beside h] at hplace hliteral
  exact c.literals ⟨signs, k.ahead, n, hnil, hplace, hliteral, hlt⟩

end Cut

namespace Scan

variable {c : Cut} {signs : Bool}

theorem abridges_accept_ahead {mark : String} {d : Char} (hmark : mark.toList = [d]) :
    c.coupling.Abridges (fun l => c.At signs l ∧ l.ahead ≠ c.more) (accept mark)
      (fun found l => if found then c.Follows d signs l.rest else c.At signs l) Never := by
  rintro k l l' found hkl ⟨hat, hne⟩ hok
  obtain ⟨hki, hli⟩ := Cut.inside_of_beside hkl
  have hahead := Cut.ahead_of_beside hkl
  obtain ⟨e, r, her⟩ := List.exists_cons_of_ne_nil (Cut.ahead_ne_nil hkl hne)
  rw [accept_apply mark hli] at hok
  rw [accept_apply mark hki]
  -- one character decides, and both texts still have it
  have hsame : mark.toList.isPrefixOf l.ahead = mark.toList.isPrefixOf k.ahead := by
    rw [hahead, her, hmark]
    simp [List.isPrefixOf]
  rw [hsame] at hok
  split at hok
  · rename_i hprefix
    cases hok
    rw [if_pos hprefix]
    have hlength : mark.length = 1 := by rw [← String.length_toList, hmark]; rfl
    rw [hlength]
    refine .ok (Cut.beside_taken hkl (by rw [her]; exact Nat.le_add_left _ _)) ?_
    rw [her, hmark, List.isPrefixOf_cons_cons, Bool.and_eq_true, beq_iff_eq] at hprefix
    obtain ⟨rfl, -⟩ := hprefix
    show Token.Place _ signs (d :: _)
    rw [Cursor.advance_rest, Cursor.markToken, Cursor.rest_skipIgnored hli, hahead, her]
    have hat' : Token.Place (c.front ++ c.more) signs (Token.visible l.rest) := hat
    rw [← Cursor.ahead_of_inside hli, hahead, her] at hat'
    exact hat'
  · rename_i hprefix
    cases hok
    rw [if_neg hprefix]
    refine .ok (Cut.beside_skipIgnored hkl) ?_
    show Token.Place _ signs (Token.visible l.skipIgnored.rest)
    rw [Cursor.rest_skipIgnored hli, Cursor.visible_ahead hli, Cursor.ahead_of_inside hli]
    exact hat

theorem abridges_accept {mark : String} {d : Char} (hmark : mark.toList = [d]) :
    c.coupling.Abridges (c.At signs) (accept mark)
      (fun found l => if found then c.Follows d signs l.rest else c.At signs l) (· = false) := by
  apply Cut.abridges_of_ahead (stays_accept mark (by rw [hmark]; exact List.cons_ne_nil d []))
  exact (abridges_accept_ahead hmark).weaken (fun _ _ _ h _ => h) (fun _ _ h => h)
    fun _ => False.elim

/-- A mark that is no part of a literal. -/
theorem abridges_mark (mark : String) {d : Char} (signs signs' : Bool) (hmark : mark.toList = [d])
    (hd : Token.opensLiteral signs d = false)
    (hsigns : (Token.punctuation d).signsBehind signs = signs') :
    c.coupling.Abridges (c.At signs) (accept mark)
      (fun found => c.At (if found then signs' else signs)) (· = false) := by
  refine (abridges_accept hmark).weaken (fun _ _ _ h _ => h) (fun found l h => ?_) fun _ h => h
  cases found with
  | true => exact hsigns ▸ Token.Place.mark h hd
  | false => exact h

/-- At the end of the text a token is missed at once.  The second run takes a whole one. -/
theorem abridges_wholeToken {missing refused : ErrorCause} (P : List Char → Prop)
    (hmissing : missing.IsMissing c.more) : c.coupling.Abridges (fun l => P l.rest)
      (wholeToken missing refused) (Cut.Read P) Never := by
  apply Cut.abridges_of_ahead (stays_wholeToken hmissing)
  rintro k l l' t hkl ⟨hP, hne⟩ hok
  obtain ⟨hki, hli⟩ := Cut.inside_of_beside hkl
  obtain ⟨-, ht, hwhole, rfl⟩ := wholeToken_eq_ok.mp hok
  have hnil := Cut.ahead_ne_nil hkl hne
  have hlead := (Cut.splits_ahead hkl).lead?_append hnil
  rw [← Cut.ahead_of_beside hkl, ht] at hlead
  rw [wholeToken_of_isWhole hki hlead.symm hwhole]
  have hbeside := Cut.beside_taken hkl (Token.lead?_length_le hlead.symm)
  rw [Cursor.ahead_of_inside hli] at ht
  refine .ok hbeside ⟨l.rest, hP, ht, hwhole, ?_⟩
  rw [← Cursor.ahead_of_inside (Cut.inside_of_beside hbeside).2, Cursor.ahead_taken hli,
    Cursor.ahead_of_inside hli]

theorem abridges_expect (mark : String) {d : Char} (signs signs' : Bool) (hmark : mark.toList = [d])
    (hd : Token.opensLiteral signs d = false)
    (hsigns : (Token.punctuation d).signsBehind signs = signs') :
    c.coupling.Abridges (c.At signs) (expect mark) (fun _ => c.At signs') Never := by
  apply (abridges_mark mark signs signs' hmark hd hsigns).bind
  · intro found
    cases found with
    | true => exact .pure fun _ h => h
    | false =>
      refine .fail fun l l' a hok => ?_
      obtain ⟨t, m, -, hok⟩ := bind_eq_ok.mp hok
      cases t with
      | none => exact fail_eq_ok.mp hok
      | some t => exact fail_eq_ok.mp hok
  · rintro found rfl
    rw [if_neg Bool.false_ne_true]
    exact stays_token? rfl .token

/-- A name is an item. -/
theorem at_of_name {name : String} {l : Cursor}
    (h : Cut.Read (c.Begins signs)
      (.identifier name) l) : c.At signs l := by
  obtain ⟨cs, hplace, hlead, -, hbehind⟩ := h
  show Token.Place _ signs (Token.visible l.rest)
  rw [hbehind]
  exact hplace.name hlead

/-- A name behind a point. -/
theorem at_of_name_behind {name : String} {l : Cursor}
    (h : Cut.Read (c.Follows '.' signs)
      (.identifier name) l) : c.At signs l := by
  obtain ⟨cs, hplace, hlead, hwhole, hbehind⟩ := h
  have hdigit : cs.head?.all (!Char.isDigit ·) = true := by
    cases cs with
    | nil => rfl
    | cons d cs =>
      rw [List.head?_cons, Option.all_some, Bool.not_eq_true', Bool.eq_false_iff]
      intro hd
      rw [Token.visible_of_isSolid (isSolid_of_isDigit cs hd), Token.lead?, if_pos hd] at hlead
      cases hlead
  exact at_of_name ⟨cs, hplace.point hdigit, hlead, hwhole, hbehind⟩

/-- Behind a brace signs belong to numbers. -/
theorem at_of_brace {l : Cursor}
    (h : Cut.Read (c.Begins signs)
      (.punctuation '\x7b') l) : c.At true l := by
  obtain ⟨cs, hplace, hlead, hwhole, hrest⟩ := h
  obtain ⟨behind, hbehind, -⟩ := Token.of_lead? hlead hwhole
  have hsigns : (Token.punctuation '\x7b').signsBehind signs = true := by cases signs <;> rfl
  have hopens : Token.opensLiteral signs '\x7b' = false := by cases signs <;> rfl
  show Token.Place _ true (Token.visible l.rest)
  rw [Token.text, String.toList_singleton, List.singleton_append] at hbehind
  rw [Cut.Begins, hbehind] at hplace
  rw [hrest, hbehind, ← hsigns]
  exact hplace.mark hopens

theorem abridges_identifier :
    c.coupling.Abridges (c.At signs) identifier (fun _ => c.At signs) Never := by
  rw [identifier, token_bind (Token.forall_not_isWhole fun _ _ => rfl)]
  apply (abridges_wholeToken (c.Begins signs) .token).andThen
  intro t
  cases t with
  | identifier name => exact .pure fun _ => at_of_name
  | integer digits => exact .fail fun _ _ _ => fail_eq_ok.mp
  | punctuation mark => exact .fail fun _ _ _ => fail_eq_ok.mp

theorem abridges_number : c.coupling.Abridges
    (fun l => c.At signs l ∧
      ∀ n, Numeral.ofChars? l.ahead = some n → signs = true ∨ n.sign = none)
    number (fun _ => c.At signs) Never := by
  apply Cut.abridges_of_ahead stays_number
  rintro k l l' v hkl ⟨⟨hat, hsigns⟩, hne⟩ hok
  obtain ⟨hki, hli⟩ := Cut.inside_of_beside hkl
  have hahead := Cut.ahead_of_beside hkl
  cases hnumeral : Numeral.ofChars? l.ahead with
  | none =>
    rw [number_of_none hli hnumeral] at hok
    cases hok
  | some n =>
    rw [number_of_some hli hnumeral] at hok
    cases hok
    have hliteral : Token.BeginsLiteral signs l.ahead n.chars.length :=
      .number hnumeral (hsigns n hnumeral)
    have hle := Cut.literal_le hkl hne hat hliteral
    rw [hahead] at hnumeral
    rw [number_of_some hki (Numeral.ofChars?_of_append hnumeral hle)]
    have hbeside := Cut.beside_taken hkl hle
    refine .ok hbeside ?_
    show Token.Place _ signs (Token.visible (l.skipIgnored.markToken.advance n.chars.length).rest)
    rw [← Cursor.ahead_of_inside (Cut.inside_of_beside hbeside).2, Cursor.ahead_taken hli]
    rw [Cursor.ahead_of_inside hli] at hliteral ⊢
    exact Token.Place.literal hat hliteral

theorem abridges_peek? : c.coupling.Abridges (c.At signs) peek?
    (fun t l => c.At signs l ∧ t = Token.lead? l.ahead) (· = none) := by
  apply Cut.abridges_of_ahead stays_peek?
  rintro k l l' t hkl ⟨hat, hne⟩ hok
  obtain ⟨rfl, rfl⟩ := ahead_of_peek? hok
  have hlead := (Cut.splits_ahead hkl).lead?_append (Cut.ahead_ne_nil hkl hne)
  rw [peek?_apply (Cut.inside_of_beside hkl).1, ← hlead, ← Cut.ahead_of_beside hkl]
  exact .ok hkl ⟨hat, rfl⟩

end Scan

end FragmentAssembly

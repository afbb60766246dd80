import FragmentAssembly.Proofs.Grammar.Form

/-!
# One form only

Where an operand stands in a text, it has one form and one end.
-/

namespace FragmentAssembly

namespace Grammar

/-! ## Items -/

section Items

variable {ends ends' : List Char → Prop} {text cs rest rest' : List Char}

theorem Mark.next_eq {c : Char} (hc : Token.isSolid [c] = true) (h : Mark c cs rest) :
    next cs = some c :=
  Item.next_eq hc h

theorem Number.eq {n n' : Numeral} (h : Number n cs rest) (h' : Number n' cs rest') :
    n = n' ∧ rest = rest' := by
  have hitem := h.2
  have hitem' := h'.2
  obtain ⟨hwell, behind, hcs, hends, -⟩ := h
  obtain ⟨hwell', behind', hcs', hends', -⟩ := h'
  have hread := Numeral.ofChars?_iff.mpr ⟨hwell, behind, hcs, hends⟩
  rw [Numeral.ofChars?_iff.mpr ⟨hwell', behind', hcs', hends'⟩] at hread
  cases hread
  exact ⟨rfl, hitem.rest_eq hitem'⟩

theorem Digits.eq {digits digits' : List Char} (h : Digits digits cs rest)
    (h' : Digits digits' cs rest') : digits = digits' ∧ rest = rest' := by
  have hitem := h.2.2
  have hitem' := h'.2.2
  obtain ⟨-, hall, behind, hcs, hends, -⟩ := h
  obtain ⟨-, hall', behind', hcs', hends', -⟩ := h'
  have htake : cs.takeWhile Char.isDigit = digits := by rw [hcs, takeWhile_of_head hall hends]
  rw [hcs', takeWhile_of_head hall' hends'] at htake
  obtain rfl := htake
  exact ⟨rfl, hitem.rest_eq hitem'⟩

end Items

/-! ## Phrases -/

/-- Where both phrases stand, `P` holds, and they end in the same place. -/
def Phrase.Meet (p q : Phrase) (P : Prop) : Prop :=
  ∀ ⦃cs ms ms' rest rest'⦄, p cs ms rest → q cs ms' rest' → P ∧ rest = rest'

namespace Phrase.Meet

variable {p p' q q' : Phrase} {P Q : Prop}

theorem symm (h : p.Meet q P) : q.Meet p P :=
  fun _ _ _ _ _ hq hp => (h hp hq).imp_right Eq.symm

theorem empty (hP : P) : Phrase.empty.Meet Phrase.empty P := by
  rintro cs _ _ _ _ ⟨rfl, rfl⟩ ⟨rfl, rfl⟩
  exact ⟨hP, rfl⟩

theorem weaken (h : p.Meet q P) (hPQ : P → Q) : p.Meet q Q :=
  fun _ _ _ _ _ hp hq => (h hp hq).imp_left hPQ

theorem andThen (hp : p.Meet p' P) (hq : P → q.Meet q' Q) :
    (p.andThen q).Meet (p'.andThen q') Q := by
  rintro cs _ _ rest rest' ⟨mid, _, _, hfirst, hmore, rfl⟩ ⟨mid', _, _, hfirst', hmore', rfl⟩
  obtain ⟨hP, rfl⟩ := hp hfirst hfirst'
  exact hq hP hmore hmore'

theorem given {a b : Prop} (h : a → b → p.Meet q P) : (p.given a).Meet (q.given b) P :=
  fun _ _ _ _ _ ⟨ha, hp⟩ ⟨hb, hq⟩ => h ha hb hp hq

theorem mark (c : Char) : (mark c).Meet (mark c) True :=
  fun _ _ _ _ _ ⟨h, _⟩ ⟨h', _⟩ => ⟨trivial, Item.rest_eq h h'⟩

theorem word (name name' : String) : (word name).Meet (word name') (name = name') :=
  fun _ _ _ _ _ ⟨h, _⟩ ⟨h', _⟩ => Name.eq h h'

theorem numberOf (value value' : Binary32) :
    (numberOf value).Meet (numberOf value') (value = value') := by
  rintro cs _ _ rest rest' ⟨⟨n, rfl, h⟩, -⟩ ⟨⟨n', rfl, h'⟩, -⟩
  obtain ⟨rfl, hrest⟩ := Number.eq h h'
  exact ⟨rfl, hrest⟩

/-- A phrase that begins with a mark meets none that does not. -/
theorem of_clears {c : Char} (hc : Token.isSolid [c] = true) (hq : q.Clears [c] []) :
    ((Grammar.mark c).andThen p).Meet q P := by
  rintro cs _ ms' _ rest' ⟨mid, _, _, ⟨hmark, -⟩, -⟩ h'
  exact absurd (Mark.next_eq hc hmark) (hq _ _ _ h' (avoids_nil rest') c List.mem_cons_self)

theorem optional_andThen {c : Char} (hc : Token.isSolid [c] = true) (hq : q.Clears [c] [])
    (hq' : q'.Clears [c] []) (h : q.Meet q' P) :
    ((Grammar.mark c).optional.andThen q).Meet ((Grammar.mark c).optional.andThen q') P := by
  have hmark : ((Grammar.mark c).andThen q).Meet ((Grammar.mark c).andThen q') P :=
    (mark c).andThen fun _ => h
  rintro cs _ _ rest rest' ⟨mid, ms, _, hfirst, hmore, rfl⟩ ⟨mid', ms', _, hfirst', hmore', rfl⟩
  -- where the one takes the mark, the other one cannot leave it
  rcases hfirst with hfirst | ⟨rfl, rfl⟩ <;> rcases hfirst' with hfirst' | ⟨rfl, rfl⟩
  · exact hmark ⟨_, _, _, hfirst, hmore, rfl⟩ ⟨_, _, _, hfirst', hmore', rfl⟩
  · exact of_clears hc hq' ⟨_, _, _, hfirst, hmore, rfl⟩ hmore'
  · exact (of_clears hc hq).symm hmore ⟨_, _, _, hfirst', hmore', rfl⟩
  · exact h hmore hmore'

theorem signOf {a b : Bool} (hq : q.Clears ['-', '+'] []) (hq' : q'.Clears ['-', '+'] [])
    (h : a = b → q.Meet q' P) : ((signOf a).andThen q).Meet ((signOf b).andThen q') P := by
  have hminus : ∀ {r : Phrase}, r.Clears ['-', '+'] [] →
      ((Grammar.signOf false).andThen r).Clears ['-'] [] := fun hr =>
    .andThen (.optional (.mark rfl (by decide)) (List.cons_subset_cons _ (List.nil_subset _))) hr
  have hplus : ∀ {r : Phrase}, r.Clears ['-', '+'] [] → r.Clears ['+'] [] := fun hr _ _ _ hphrase
    hrest c hc => hr _ _ _ hphrase hrest c (List.mem_cons_of_mem _ hc)
  cases a <;> cases b
  · exact optional_andThen rfl (hplus hq) (hplus hq') (h rfl)
  · exact (of_clears rfl (hminus hq)).symm
  · exact of_clears rfl (hminus hq')
  · exact (mark '-').andThen fun _ => h rfl

end Phrase.Meet

/-! ## Bases -/

namespace Base

/-- The names that a base can begin with. -/
def Fits (name : String) : Base → Prop
  | temporary i => NamesTemporary name i
  | input _ => name = "f"
  | localParameter _ => name = "p"
  | named n => name = n ∧ ¬IsReserved name
  | scalar _ | vector _ _ => False

/-- What stands behind the name. -/
def behind : Base → Phrase
  | input i => (mark '[').andThen ((word (inputNames.get i)).andThen (mark ']'))
  | localParameter i => (mark '[').andThen ((integerOf (· = i.val)).andThen (mark ']'))
  | _ => .empty

variable {b b' : Base} {cs rest rest' : List Char} {ms ms' : List Mention}

/-- A letter begins a name, and anything but a brace a number. -/
def leadSort (c : Char) : Nat :=
  if c.isAlpha then 0 else if c = '\x7b' then 1 else 2

theorem leadSort_of_begins {c : Char} (h : c.isDigit = true ∨ c = '.') : leadSort c = 2 := by
  have halpha : c.isAlpha = false := by
    rcases h with hdigit | rfl
    · by_contra halpha
      rw [Bool.not_eq_false] at halpha
      rw [Token.not_isDigit_of_isAlpha halpha] at hdigit
      cases hdigit
    · rfl
  have hbrace : c ≠ '\x7b' := by
    rintro rfl
    exact absurd h (by decide)
  rw [leadSort, halpha, if_neg Bool.false_ne_true, if_neg hbrace]

/-- A base is a name, a number or a vector, which its first character tells. -/
theorem opens (h : b.phrase cs ms rest) :
    (∃ name, ((word name).andThen b.behind) cs ms rest ∧ b.Fits name ∧
      (next cs).map leadSort = some 0) ∨
    (∃ first more, b = vector first more ∧ (next cs).map leadSort = some 1) ∨
    ∃ x, b = scalar x ∧ (next cs).map leadSort = some 2 := by
  have hlead : ∀ {name : String} {q : Phrase}, ((word name).andThen q) cs ms rest →
      (next cs).map leadSort = some 0 := by
    rintro name q ⟨_, _, _, ⟨⟨hname, hitem⟩, -⟩, -⟩
    obtain ⟨c, more, htext, halpha, -⟩ := id hname
    rw [hitem.next_eq (Token.isSolid_of_isName hname), htext, List.head?_cons, Option.map_some,
      leadSort, if_pos halpha]
  cases b with
  | temporary i =>
    obtain ⟨name, hfits, hword⟩ := h
    have hphrase := (Phrase.andThen_empty (word name)).symm ▸ hword
    exact .inl ⟨name, hphrase, hfits, hlead hphrase⟩
  | input i => exact .inl ⟨"f", h, rfl, hlead h⟩
  | localParameter i => exact .inl ⟨"p", h, rfl, hlead h⟩
  | named name =>
    have hphrase := (Phrase.andThen_empty (word name)).symm ▸ h.2
    exact .inl ⟨name, hphrase, ⟨rfl, h.1⟩, hlead hphrase⟩
  | scalar x =>
    obtain ⟨⟨n, -, hsign, hn⟩, -⟩ := h
    obtain ⟨c, hc, hbegins⟩ := next_of_number hn
    rw [hsign] at hbegins
    rcases hbegins with ⟨hsome, -⟩ | ⟨-, hbegins⟩
    · cases hsome
    · exact .inr (.inr ⟨x, rfl, by rw [hc, Option.map_some, leadSort_of_begins hbegins]⟩)
  | vector first more =>
    obtain ⟨_, _, _, ⟨hbrace, -⟩, -⟩ := h
    exact .inr (.inl ⟨first, more, rfl, by rw [Mark.next_eq rfl hbrace]; rfl⟩)

/-- The words of which at most one names a base. -/
def sort : Base → Nat
  | input _ => 1
  | localParameter _ => 2
  | temporary _ => 3
  | _ => 0

theorem Fits.sort_eq {name : String} (h : b.Fits name) : b.sort =
    if name = "f" then 1 else if name = "p" then 2
    else if (temporaryNumber? name).isSome then 3 else 0 := by
  cases b with
  | temporary i =>
    have hnumber : temporaryNumber? name = some i.val := namesTemporary_iff.mp h
    have hother : name ≠ "f" ∧ name ≠ "p" := by
      constructor <;>
        · rintro rfl
          cases hnumber
    rw [if_neg hother.1, if_neg hother.2, hnumber]
    rfl
  | input i =>
    obtain rfl : name = "f" := h
    rfl
  | localParameter i =>
    obtain rfl : name = "p" := h
    rfl
  | named n =>
    have hfree := h.2
    rw [isReserved_iff, isReserved, Bool.or_eq_true, Bool.or_eq_true, not_or, not_or,
      decide_eq_true_eq] at hfree
    have hother : name ≠ "f" ∧ name ≠ "p" := by
      constructor <;>
        · rintro rfl
          exact hfree.1.2 (by decide)
    rw [if_neg hother.1, if_neg hother.2, if_neg hfree.2]
    rfl
  | scalar x => exact h.elim
  | vector first more => exact h.elim

theorem integerOf_meet (n n' : Nat) : (integerOf (· = n)).Meet (integerOf (· = n')) (n = n') := by
  rintro cs _ _ rest rest' ⟨⟨digits, hn, hdigits⟩, -⟩ ⟨⟨digits', hn', hdigits'⟩, -⟩
  obtain ⟨rfl, hrest⟩ := Digits.eq hdigits hdigits'
  exact ⟨hn.symm.trans hn', hrest⟩

theorem meet_behind {name : String} (h : b.Fits name) (h' : b'.Fits name) :
    b.behind.Meet b'.behind (b = b') := by
  have hsort := h.sort_eq.trans h'.sort_eq.symm
  cases b <;> cases b' <;> first | cases hsort; done | skip
  case temporary.temporary i j =>
    have hi : temporaryNumber? name = some i.val := namesTemporary_iff.mp h
    rw [namesTemporary_iff.mp h'] at hi
    exact .empty (congrArg temporary (Fin.ext (Option.some.inj hi)).symm)
  case input.input i j =>
    refine (Phrase.Meet.mark '[').andThen fun _ => (Phrase.Meet.word _ _).andThen fun hname => ?_
    exact (Phrase.Meet.mark ']').weaken fun _ => congrArg input (inputNames_injective _ _ hname)
  case localParameter.localParameter i j =>
    refine (Phrase.Meet.mark '[').andThen fun _ => (integerOf_meet _ _).andThen fun hnumber => ?_
    exact (Phrase.Meet.mark ']').weaken fun _ => congrArg localParameter (Fin.ext hnumber)
  case named.named n n' => exact .empty (congrArg named (h.1.symm.trans h'.1))
  all_goals first | exact h.elim | exact h'.elim

theorem meet_moreNumbersOf (values values' : List Binary32) :
    ((moreNumbersOf values).andThen (mark '\x7d')).Meet
      ((moreNumbersOf values').andThen (mark '\x7d')) (values = values') := by
  have hclose : ((Phrase.empty).andThen (mark '\x7d')).Clears [','] [] := by
    rw [Phrase.empty_andThen]
    exact .mark rfl (by decide)
  -- a comma goes on and a brace ends, so both lists are of the same length
  induction values generalizing values' with
  | nil =>
    cases values' with
    | nil =>
      exact (Phrase.Meet.empty rfl).andThen fun heq => (Phrase.Meet.mark _).weaken fun _ => heq
    | cons value' values' =>
      rw [moreNumbersOf, moreNumbersOf, Phrase.andThen_assoc]
      exact (Phrase.Meet.of_clears rfl hclose).symm
  | cons value values ih =>
    cases values' with
    | nil =>
      rw [moreNumbersOf, moreNumbersOf, Phrase.andThen_assoc]
      exact Phrase.Meet.of_clears rfl hclose
    | cons value' values' =>
      rw [moreNumbersOf, moreNumbersOf, Phrase.andThen_assoc, Phrase.andThen_assoc,
        Phrase.andThen_assoc, Phrase.andThen_assoc]
      refine (Phrase.Meet.mark ',').andThen fun _ => (Phrase.Meet.numberOf value value').andThen
        fun hvalue => (ih values').weaken fun hvalues => ?_
      rw [hvalue, hvalues]

theorem clears {marks : List Char}
    (hmarks : ∀ c ∈ marks, c.isAlpha = false ∧ c.isDigit = false ∧ c ≠ '.' ∧ c ≠ '\x7b')
    (b : Base) : b.phrase.Clears marks [] := by
  have hword : ∀ c ∈ marks, c.isAlpha = false := fun c hc => (hmarks c hc).1
  cases b with
  | temporary i => exact .wordOf hword
  | input i => exact .first (.word hword) _
  | localParameter i => exact .first (.word hword) _
  | named name => exact .given fun _ => .word hword
  | scalar value =>
    rintro cs ms rest ⟨⟨n, -, hsign, hn⟩, hms⟩
    have hnumber : unsignedNumber.Clears marks [] :=
      .unsignedNumber fun c hc => (hmarks c hc).2.imp_right And.left
    exact hnumber cs ms rest ⟨⟨n, hsign, hn⟩, hms⟩
  | vector first more => exact .begins rfl (fun hc => (hmarks _ hc).2.2.2 rfl) _

theorem meet_vector (first first' : Binary32) (more more' : List Binary32) :
    (vector first more).phrase.Meet (vector first' more').phrase
      (vector first more = vector first' more') := by
  refine (Phrase.Meet.mark '\x7b').andThen fun _ => .given fun _ _ => ?_
  refine (Phrase.Meet.numberOf first first').andThen fun hfirst => ?_
  refine (meet_moreNumbersOf more more').weaken fun hmore => ?_
  rw [hfirst, hmore]

/-- Two bases in the same place are one. -/
theorem meet (b b' : Base) : b.phrase.Meet b'.phrase (b = b') := by
  intro cs ms ms' rest rest' h h'
  -- the first character tells names, vectors and numbers apart, so only like bases can meet
  rcases opens h with ⟨name, hword, hfits, hlead⟩ | ⟨first, more, rfl, hlead⟩ | ⟨x, rfl, hlead⟩ <;>
    rcases opens h' with ⟨name', hword', hfits', hlead'⟩ | ⟨first', more', rfl, hlead'⟩ |
      ⟨x', rfl, hlead'⟩
  case inl.inl =>
    refine (Phrase.Meet.word name name').andThen (fun hname => ?_) hword hword'
    rw [← hname] at hfits'
    exact meet_behind hfits hfits'
  case inr.inl.inr.inl => exact meet_vector first first' more more' h h'
  case inr.inr.inr.inr =>
    obtain ⟨⟨n, rfl, -, hn⟩, -⟩ := h
    obtain ⟨⟨n', rfl, -, hn'⟩, -⟩ := h'
    obtain ⟨rfl, hrest⟩ := Number.eq hn hn'
    exact ⟨rfl, hrest⟩
  all_goals
    rw [hlead] at hlead'
    cases hlead'

end Base

/-! ## Forms -/

theorem clears_without (c : Char) (behind : List Char) : (without c).Clears [c] behind := by
  rintro cs ms rest ⟨hnext, -⟩ - d hd
  rwa [List.mem_singleton.mp hd]

namespace Form

theorem meet_lettersOf (scalar isConstant : Bool) (letters letters' : Option String) :
    (lettersOf scalar isConstant letters).Meet (lettersOf scalar isConstant letters')
      (letters = letters') := by
  have hnone : (lettersOf scalar isConstant none).Clears ['.'] [] :=
    .given fun _ => clears_without '.' []
  cases letters <;> cases letters'
  case none.none =>
    rintro cs _ _ _ _ ⟨-, -, rfl, rfl⟩ ⟨-, -, rfl, rfl⟩
    exact ⟨rfl, rfl⟩
  case none.some => exact (Phrase.Meet.of_clears rfl hnone).symm
  case some.none => exact .of_clears rfl hnone
  case some.some letters letters' =>
    exact (Phrase.Meet.mark '.').andThen fun _ => .given fun _ _ =>
      (Phrase.Meet.word letters letters').weaken (congrArg some)

theorem meet_selection (scalar : Bool) (w w' : Form) : (w.selection scalar).Meet
    (w'.selection scalar) (w.base = w'.base ∧ w.letters = w'.letters) := by
  refine (Base.meet w.base w'.base).andThen fun hbase => ?_
  rw [← hbase]
  exact (meet_lettersOf _ _ _ _).weaken fun hletters => ⟨rfl, hletters⟩

theorem clears_selection {marks : List Char} (hmarks : marks ⊆ ['-', '+', '|']) (scalar : Bool)
    (w : Form) : (w.selection scalar).Clears marks [] := by
  refine .first (w.base.clears fun c hc => ?_) _
  have hmem := hmarks hc
  simp only [List.mem_cons, List.not_mem_nil, or_false] at hmem
  rcases hmem with rfl | rfl | rfl <;> decide

/-- Where an operand stands, it has only one form and ends in only one place. -/
theorem meet (scalar : Bool) (w w' : Form) :
    (w.phrase scalar).Meet (w'.phrase scalar) (w = w') := by
  obtain ⟨outer, inner, b, letters⟩ := w
  obtain ⟨outer', inner', b', letters'⟩ := w'
  have hsigns : ∀ w : Form, (w.selection scalar).Clears ['-', '+'] [] :=
    clears_selection (by decide) scalar
  have hbar : ∀ w : Form, (w.selection scalar).Clears ['|'] [] :=
    clears_selection (by decide) scalar
  have hbegins : ∀ q, ((mark '|').andThen q).Clears ['-', '+'] [] := .begins rfl (by decide)
  cases inner <;> cases inner'
  case none.none =>
    refine .signOf (hsigns _) (hsigns _) fun houter => ?_
    refine (meet_selection scalar _ _).weaken fun ⟨hbase, hletters⟩ => ?_
    exact Form.mk.injEq .. ▸ ⟨houter, rfl, hbase, hletters⟩
  case none.some =>
    exact .signOf (hsigns _) (hbegins _) fun _ => (Phrase.Meet.of_clears rfl (hbar _)).symm
  case some.none =>
    exact .signOf (hbegins _) (hsigns _) fun _ => .of_clears rfl (hbar _)
  case some.some inner inner' =>
    refine .signOf (hbegins _) (hbegins _) fun houter => (Phrase.Meet.mark '|').andThen fun _ => ?_
    refine .signOf (.first (hsigns _) _) (.first (hsigns _) _) fun hinner => ?_
    refine (meet_selection scalar _ _).andThen fun ⟨hbase, hletters⟩ => ?_
    refine (Phrase.Meet.mark '|').weaken fun _ => ?_
    exact Form.mk.injEq .. ▸ ⟨houter, congrArg some hinner, hbase, hletters⟩

end Form

end Grammar

end FragmentAssembly

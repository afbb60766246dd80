import FragmentAssembly.Proofs.Disassembly.Source
import FragmentAssembly.Proofs.Grammar.Record

/-!
# Recognition of phrases

An action recognizes a phrase if it accepts this phrase and nothing else.  One direction says that
what was read is such a phrase, the other one that the phrase is read, if what stands behind it
does not begin with a mark that would be taken for a part of it.
-/

namespace FragmentAssembly

open Grammar

/-! ## What phrases begin with -/

namespace Grammar

/-- The next character behind blanks and comments. -/
def next (cs : List Char) : Option Char :=
  (Token.visible cs).head?

def Avoids (marks cs : List Char) : Prop :=
  ∀ c ∈ marks, next cs ≠ some c

theorem avoids_nil (cs : List Char) : Avoids [] cs :=
  fun _ hc => absurd hc List.not_mem_nil

/-- The phrase begins with none of `marks`, if what is behind it begins with none of `behind`. -/
def Phrase.Clears (p : Phrase) (marks behind : List Char) : Prop :=
  ∀ cs ms rest, p cs ms rest → Avoids behind rest → Avoids marks cs

theorem Item.next_eq {ends : List Char → Prop} {text cs rest : List Char}
    (hsolid : Token.isSolid text = true) (h : Item ends text cs rest) :
    next cs = text.head? := by
  obtain ⟨behind, rfl, -, -⟩ := h
  cases text with
  | nil => cases hsolid
  | cons c text =>
    rw [next, Token.visible_append behind hsolid]
    rfl

namespace Phrase.Clears

variable {p q : Phrase} {marks marks' behind : List Char}

theorem nil (p : Phrase) (behind : List Char) : p.Clears [] behind :=
  fun cs _ _ _ _ => avoids_nil cs

theorem empty (h : marks ⊆ behind) : Phrase.empty.Clears marks behind := by
  rintro cs ms rest ⟨rfl, -⟩ hrest c hc
  exact hrest c (h hc)

theorem andThen (hp : p.Clears marks marks') (hq : q.Clears marks' behind) :
    (p.andThen q).Clears marks behind := by
  rintro cs ms rest ⟨mid, before, after, hp', hq', -⟩ hrest
  exact hp _ _ _ hp' (hq _ _ _ hq' hrest)

theorem orElse (hp : p.Clears marks behind) (hq : q.Clears marks behind) :
    (p.orElse q).Clears marks behind := by
  rintro cs ms rest (hp' | hq') hrest
  · exact hp _ _ _ hp' hrest
  · exact hq _ _ _ hq' hrest

theorem optional (hp : p.Clears marks behind) (h : marks ⊆ behind) :
    p.optional.Clears marks behind :=
  hp.orElse (empty h)

theorem anyOf {ι : Type} {p : ι → Phrase} (h : ∀ x, (p x).Clears marks behind) :
    (Phrase.anyOf p).Clears marks behind := by
  rintro cs ms rest ⟨x, hx⟩ hrest
  exact h x _ _ _ hx hrest

theorem given {condition : Prop} (h : condition → p.Clears marks behind) :
    (p.given condition).Clears marks behind := by
  rintro cs ms rest ⟨hcondition, hp⟩ hrest
  exact h hcondition _ _ _ hp hrest

/-- An item that begins with something else, whatever is behind it. -/
theorem item {ends : List Char → Prop} {text : List Char} (hsolid : Token.isSolid text = true)
    (h : ∀ c ∈ marks, text.head? ≠ some c) :
    (Phrase.ofItem (Item ends text)).Clears marks behind := by
  rintro cs ms rest ⟨hitem, -⟩ - c hc
  rw [hitem.next_eq hsolid]
  exact h c hc

theorem mark {c : Char} (hsolid : Token.isSolid [c] = true) (h : c ∉ marks) :
    (mark c).Clears marks behind := by
  refine item hsolid fun d hd hcd => ?_
  rw [List.head?_cons, Option.some.injEq] at hcd
  exact h (hcd ▸ hd)

theorem word {name : String} (h : ∀ c ∈ marks, c.isAlpha = false) :
    (word name).Clears marks behind := by
  rintro cs ms rest ⟨⟨hname, hitem⟩, -⟩ - c hc hnext
  rw [hitem.next_eq (Token.isSolid_of_isName hname)] at hnext
  obtain ⟨first, more, htext, halpha, -⟩ := hname
  rw [htext, List.head?_cons, Option.some.injEq] at hnext
  rw [← hnext] at hc
  exact absurd halpha (Bool.eq_false_iff.mp (h first hc))

/-- What the first phrase begins with, whatever is behind it. -/
theorem first (hp : p.Clears marks []) (q : Phrase) : (p.andThen q).Clears marks behind :=
  andThen hp (nil q behind)

theorem begins {c : Char} (hsolid : Token.isSolid [c] = true) (h : c ∉ marks) (q : Phrase) :
    ((Grammar.mark c).andThen q).Clears marks behind :=
  first (mark hsolid h) q

end Phrase.Clears

end Grammar

/-- A mark that the text does not begin with is not found. -/
theorem Scan.reads_accept_avoided {mark : String} {c : Char} (hmark : mark.toList = [c])
    {cs : List Char} (h : Avoids [c] cs) : (Scan.accept mark).Reads cs True false cs := by
  refine Scan.reads_accept_other ?_
  rw [hmark]
  cases hvisible : Token.visible cs with
  | nil => rfl
  | cons d more =>
    refine isPrefixOf_mark more fun hd => h c List.mem_cons_self ?_
    rw [next, hvisible, hd, List.head?_cons]

/-! ## Recognition -/

namespace Compile

/-- The action always fails. -/
def Fails {α : Type} (m : Compile α) : Prop :=
  ∀ d a e, m d ≠ .ok a e

/-- The action accepts the phrases `p` and nothing else, and what it returns is seen as the index
of the phrase.  None of the marks `taken` may stand behind the phrase, since the action would go on
with it. -/
structure Recognizes {α ι : Type} (m : Compile α) (view : α → ι) (p : ι → Phrase)
    (taken : List Char) : Prop where
  sound : ∀ {d e : Draft} {a : α}, m d = .ok a e →
    ∃ new, p (view a) d.cursor.ahead new e.cursor.ahead ∧ d.inventory.Gathers new e.inventory
  complete : ∀ {x : ι} {cs rest : List Char} {new ms : List Mention} {i : Inventory},
    p x cs new rest → Avoids taken rest → i.Records ms → Consistent ms new →
      m.Builds cs i True rest fun a j => view a = x ∧ j.Records (ms ++ new)

/-- The action accepts one phrase, whatever it returns. -/
abbrev Accepts {α : Type} (m : Compile α) (p : Phrase) (taken : List Char) : Prop :=
  m.Recognizes (fun _ => ()) (fun _ => p) taken

theorem fails_lift {α : Type} {m : Scan α} (h : ∀ k a l, m k ≠ .ok a l) :
    Fails (liftM m : Compile α) := by
  intro d a e hok
  obtain ⟨k, hk, -⟩ := lift_eq_ok.mp hok
  exact h _ _ _ hk

theorem fails_fail {α : Type} (cause : ErrorCause) :
    Fails (liftM (Scan.fail cause : Scan α) : Compile α) :=
  fails_lift fun _ _ _ h => fail_eq_ok.mp h

theorem fails_failAhead {α : Type} (cause : ErrorCause) :
    Fails (liftM (Scan.failAhead cause : Scan α) : Compile α) :=
  fails_lift fun _ _ _ h => failAhead_eq_ok.mp h

theorem Fails.bind {α β : Type} {m : Compile α} (h : Fails m) (f : α → Compile β) :
    Fails (m >>= f) := by
  intro d b e hok
  obtain ⟨a, d', ha, -⟩ := bind_eq_ok.mp hok
  exact h d a d' ha

theorem lift_bind {α β : Type} (m : Scan α) (f : α → Scan β) :
    (liftM (m >>= f) : Compile β) = (liftM m : Compile α) >>= fun a => liftM (f a) := by
  funext d
  rw [lift_apply, bind_apply, bind_apply, lift_apply]
  cases m d.cursor with
  | ok a k => rfl
  | error e k => rfl

theorem lift_within {α : Type} (c : Construct) (m : Scan α) :
    (liftM (FragmentAssembly.within c m) : Compile α) =
      FragmentAssembly.within c (liftM m : Compile α) := by
  funext d
  rw [lift_apply]
  unfold FragmentAssembly.within
  rw [lift_apply]
  cases m d.cursor with
  | ok a k => rfl
  | error e k => rfl

namespace Recognizes

variable {α β ι κ : Type} {m : Compile α} {f : α → Compile β} {view : α → ι} {view' : β → κ}
  {p : ι → Phrase} {q : ι → κ → Phrase} {taken taken' : List Char}

theorem pure (a : α) (view : α → ι) (taken : List Char) :
    (pure a : Compile α).Recognizes view (fun x => Phrase.empty.given (view a = x)) taken where
  sound := by
    intro d e b h
    obtain ⟨rfl, rfl⟩ := pure_eq_ok.mp h
    exact ⟨[], ⟨rfl, rfl, rfl⟩, .refl _⟩
  complete := by
    rintro x cs rest new ms i ⟨hx, rfl, rfl⟩ - hi -
    rw [List.append_nil]
    exact .pure ⟨hx, hi⟩ rest

/-- What follows may depend on what was read. -/
theorem bind (h : m.Recognizes view p taken)
    (hf : ∀ a, (f a).Recognizes view' (q (view a)) taken')
    (hclear : ∀ x y, (q x y).Clears taken taken') :
    (m >>= f).Recognizes view' (fun y => .anyOf fun x => (p x).andThen (q x y)) taken' where
  sound := by
    intro d e b hok
    obtain ⟨a, d', ha, hb⟩ := bind_eq_ok.mp hok
    obtain ⟨new, hp, hnew⟩ := h.sound ha
    obtain ⟨more, hq, hmore⟩ := (hf a).sound hb
    exact ⟨new ++ more, ⟨view a, _, new, more, hp, hq, rfl⟩, hnew.append hmore⟩
  complete := by
    rintro y cs rest _ ms i ⟨x, mid, new, more, hp, hq, rfl⟩ hrest hi hconsistent
    obtain ⟨hnew, hmore⟩ := consistent_append.mp hconsistent
    -- the second phrase does not begin with a mark that the first action would take
    refine (h.complete hp (hclear x y _ _ _ hq hrest) hi hnew).andThen ?_
    rintro a j ⟨rfl, hj⟩
    rw [← List.append_assoc]
    exact (hf a).complete hq hrest hj hmore

/-- What is read is the value itself. -/
theorem bindValue {p : α → Phrase} {q : α → κ → Phrase} (h : m.Recognizes id p [])
    (hf : ∀ a, (f a).Recognizes view' (q a) taken) :
    (m >>= f).Recognizes view' (fun y => .anyOf fun a => (p a).andThen (q a y)) taken :=
  h.bind hf fun _ _ => .nil _ _

theorem congr {p' : ι → Phrase} (h : m.Recognizes view p taken) (hp : ∀ x, p x = p' x) :
    m.Recognizes view p' taken := by
  obtain rfl : p = p' := funext hp
  exact h

/-- Phrases that cannot stand in any context make no difference. -/
theorem extend {p' : ι → Phrase} (h : m.Recognizes view p taken)
    (hmore : ∀ {x cs new rest}, p x cs new rest → p' x cs new rest)
    (hless : ∀ {x cs new rest ms} {i : Inventory}, i.Records ms → Consistent ms new →
      p' x cs new rest → p x cs new rest) : m.Recognizes view p' taken where
  sound := by
    intro d e a hok
    obtain ⟨new, hp, hnew⟩ := h.sound hok
    exact ⟨new, hmore hp, hnew⟩
  complete hp hrest hi hconsistent :=
    h.complete (hless hi hconsistent hp) hrest hi hconsistent

theorem within {c : Construct} (h : m.Recognizes view p taken) :
    Recognizes (FragmentAssembly.within c m) view p taken where
  sound hok := h.sound (within_eq_ok.mp hok)
  complete hp hrest hi hconsistent := (h.complete hp hrest hi hconsistent).within

theorem of_fails (h : Fails m) (view : α → ι) (taken : List Char) :
    m.Recognizes view (fun _ => .never) taken where
  sound hok := (h _ _ _ hok).elim
  complete hp := hp.elim

/-- It may be left open which of the phrases was read. -/
theorem forget (h : m.Recognizes view p taken) : m.Accepts (.anyOf p) taken where
  sound := by
    intro d e a hok
    obtain ⟨new, hp, hnew⟩ := h.sound hok
    exact ⟨new, ⟨view a, hp⟩, hnew⟩
  complete := by
    rintro _ cs rest new ms i ⟨x, hp⟩ hrest hi hconsistent
    exact (h.complete hp hrest hi hconsistent).weaken fun a j hj => ⟨rfl, hj.2⟩

/-- What is checked holds of every phrase. -/
theorem given {condition : Prop} (h : condition → m.Recognizes view p taken)
    (hfails : ¬condition → Fails m) :
    m.Recognizes view (fun x => (p x).given condition) taken where
  sound := by
    intro d e a hok
    have hcondition : condition := Classical.byContradiction fun hnot => hfails hnot d a e hok
    obtain ⟨new, hp, hnew⟩ := (h hcondition).sound hok
    exact ⟨new, ⟨hcondition, hp⟩, hnew⟩
  complete := by
    rintro x cs rest new ms i ⟨hcondition, hp⟩ hrest hi hconsistent
    exact (h hcondition).complete hp hrest hi hconsistent

/-- An action on the cursor that reads an item. -/
theorem lift {m : Scan α} {item : ι → List Char → List Char → Prop}
    (hsound : ∀ {k l : Cursor} {a : α}, m k = .ok a l → item (view a) k.ahead l.ahead)
    (hcomplete : ∀ {x : ι} {cs rest : List Char}, item x cs rest →
      ∃ a, view a = x ∧ m.Reads cs True a rest) :
    (liftM m : Compile α).Recognizes view (fun x => .ofItem (item x)) taken where
  sound := by
    intro d e a hok
    obtain ⟨k, hk, rfl⟩ := lift_eq_ok.mp hok
    exact ⟨[], ⟨hsound hk, rfl⟩, .refl _⟩
  complete := by
    rintro x cs rest new ms i ⟨hitem, rfl⟩ - hi -
    obtain ⟨a, hview, hreads⟩ := hcomplete hitem
    refine (Builds.lift hreads).weaken ?_
    rintro _ _ ⟨rfl, rfl⟩
    rw [List.append_nil]
    exact ⟨hview, hi⟩

/-- A change of the inventory that concerns no mention. -/
theorem silent {f : Draft → α × Draft} (hcursor : ∀ d, (f d).2.cursor = d.cursor)
    (hrecords : ∀ d ms, d.inventory.Records ms → (f d).2.inventory.Records ms) :
    (modifyGet f : Compile α).Accepts .empty taken where
  sound := by
    intro d e a hok
    obtain ⟨-, rfl⟩ := modifyGet_eq_ok.mp hok
    exact ⟨[], ⟨congrArg Cursor.ahead (hcursor d), rfl⟩, .nothing (hrecords d)⟩
  complete := by
    rintro _ cs rest new ms i ⟨rfl, rfl⟩ - hi -
    apply Builds.change
    rintro d rfl
    rw [List.append_nil]
    exact ⟨hcursor d, rfl, hrecords d ms hi⟩

/-- Looking at the draft is no phrase. -/
theorem look {f : Draft → Compile β} {q : κ → Phrase}
    (hf : ∀ d, (f d).Recognizes view' q taken) : (get >>= f).Recognizes view' q taken where
  sound := by
    intro d e b hok
    obtain ⟨d', d'', hget, hok⟩ := bind_eq_ok.mp hok
    obtain ⟨rfl, rfl⟩ := get_eq_ok.mp hget
    exact (hf d).sound hok
  complete hp hrest hi hconsistent :=
    Builds.look fun d _ _ => (hf d).complete hp hrest hi hconsistent

end Recognizes

/-! ## Actions with one phrase -/

namespace Accepts

variable {α β ι : Type} {m : Compile α} {f : α → Compile β} {view : β → ι} {p : Phrase}
  {q : ι → Phrase} {taken taken' : List Char}

theorem pure (a : α) (taken : List Char) : (pure a : Compile α).Accepts .empty taken := by
  refine (Recognizes.pure a (fun _ => ()) taken).congr fun _ => ?_
  funext cs ms rest
  exact propext (and_iff_right rfl)

theorem andThen (h : m.Accepts p taken) (hf : ∀ a, (f a).Recognizes view q taken')
    (hclear : ∀ y, (q y).Clears taken taken') :
    (m >>= f).Recognizes view (fun y => p.andThen (q y)) taken' := by
  refine (h.bind (q := fun _ => q) hf fun _ => hclear).congr fun y => ?_
  funext cs ms rest
  exact propext ⟨fun ⟨_, hp⟩ => hp, fun hp => ⟨(), hp⟩⟩

/-- The last action may be one that only returns something. -/
theorem map (h : m.Accepts p taken) (g : α → β) :
    (m >>= fun a => Pure.pure (g a)).Accepts p taken := by
  have hboth := h.andThen (fun a => pure (g a) taken) fun _ => .empty (List.Subset.refl taken)
  simp only [Phrase.andThen_empty] at hboth
  exact hboth

/-- The last action may say what the phrase is seen as. -/
theorem mapTo {g : α → β} {y : ι} (h : m.Accepts p taken) (hview : ∀ a, view (g a) = y) :
    (m >>= fun a => Pure.pure (g a)).Recognizes view (fun x => p.given (y = x)) taken := by
  have hpure : ∀ a, (Pure.pure (g a) : Compile β).Recognizes view
      (fun x => Phrase.empty.given (y = x)) taken := by
    intro a
    rw [← hview a]
    exact .pure (g a) view taken
  refine (h.andThen hpure fun x => .given fun _ => .empty (List.Subset.refl taken)).congr
    fun x => ?_
  rw [← Phrase.given_andThen, Phrase.andThen_empty]

/-- An action without a phrase can be left out. -/
theorem silently (h : m.Accepts .empty []) (hf : ∀ a, (f a).Recognizes view q taken) :
    (m >>= f).Recognizes view q taken :=
  (h.andThen hf fun y => .nil (q y) taken).congr fun y => Phrase.empty_andThen (q y)

end Accepts

namespace Recognizes

variable {α β ι : Type} {f : Token → Compile β} {view : β → ι} {taken : List Char}

theorem expect {mark : String} {c : Char} (hmark : mark.toList = [c])
    (hsolid : Token.isSolid [c] = true) (taken : List Char) :
    (liftM (Scan.expect mark) : Compile Unit).Accepts (Grammar.mark c) taken := by
  have hcomplete : ∀ {x : Unit} {cs rest : List Char}, Mark c cs rest →
      ∃ a, () = x ∧ (Scan.expect mark).Reads cs True a rest :=
    fun h => ⟨(), rfl, Scan.reads_expect_mark hmark hsolid h⟩
  exact lift (Scan.mark_of_expect hmark) hcomplete

/-- A name says what follows. -/
theorem identifier {f : String → Compile β} {q : String → ι → Phrase}
    (hname : ∀ name, (f name).Recognizes view (q name) taken) :
    ((liftM Scan.identifier : Compile String) >>= f).Recognizes view
      (fun y => .anyOf fun name => (word name).andThen (q name y)) taken := by
  have hidentifier : (liftM Scan.identifier : Compile String).Recognizes id word [] :=
    lift Scan.name_of_identifier fun {name _ _} h => ⟨name, rfl, Scan.reads_identifier_item h⟩
  exact hidentifier.bindValue hname

theorem integer (taken : List Char) :
    (liftM Scan.integer : Compile Nat).Recognizes id
      (fun n => integerOf fun m => m = n ∧ n < UInt64.size) taken := by
  refine lift Scan.digits_of_integer ?_
  rintro n cs rest ⟨digits, ⟨rfl, hlt⟩, hdigits⟩
  exact ⟨_, rfl, Scan.reads_integer_item hdigits hlt⟩

theorem number (taken : List Char) :
    (liftM Scan.number : Compile Binary32).Accepts Grammar.number taken :=
  lift (fun h => (Scan.number_of_number h).imp fun _ => And.right)
    fun ⟨_, h⟩ => ⟨_, rfl, Scan.reads_numeral h⟩

/-- A token that must be a name, which says what follows. -/
theorem name {q : String → ι → Phrase}
    (hname : ∀ name, (f (.identifier name)).Recognizes view (q name) taken)
    (hinteger : ∀ digits, Fails (f (.integer digits)))
    (hmark : ∀ mark, Fails (f (.punctuation mark))) :
    ((liftM Scan.token : Compile Token) >>= f).Recognizes view
      (fun y => .anyOf fun name => (word name).andThen (q name y)) taken where
  sound := by
    intro d e b hok
    simp only [bind_eq_ok, lift_eq_ok] at hok
    obtain ⟨t, _, ⟨k, htoken, rfl⟩, hok⟩ := hok
    cases t with
    | identifier name =>
      obtain ⟨new, hq, hnew⟩ := (hname name).sound hok
      exact ⟨new, ⟨name, _, [], new, ⟨Scan.item_of_token htoken, rfl⟩, hq, rfl⟩, hnew⟩
    | integer digits => exact (hinteger digits _ _ _ hok).elim
    | punctuation mark => exact (hmark mark _ _ _ hok).elim
  complete := by
    rintro y cs rest _ ms i ⟨name, mid, _, new, ⟨hitem, rfl⟩, hq, rfl⟩ hrest hi hconsistent
    exact Builds.read (Scan.reads_name hitem) ((hname name).complete hq hrest hi hconsistent)

/-- A token that may also be a mark. -/
theorem nameOrMark {c : Char} {p : ι → Phrase} {q : String → ι → Phrase}
    (hsolid : Token.isSolid [c] = true) (hc : c.isAlphanum = false) (hsize : c.utf8Size = 1)
    (hp : (f (.punctuation c)).Recognizes view p taken)
    (hname : ∀ name, (f (.identifier name)).Recognizes view (q name) taken)
    (hinteger : ∀ digits, Fails (f (.integer digits)))
    (hmark : ∀ mark, mark ≠ c → Fails (f (.punctuation mark))) :
    ((liftM Scan.token : Compile Token) >>= f).Recognizes view
      (fun y => ((Grammar.mark c).andThen (p y)).orElse
        (.anyOf fun name => (word name).andThen (q name y))) taken where
  sound := by
    intro d e b hok
    simp only [bind_eq_ok, lift_eq_ok] at hok
    obtain ⟨t, _, ⟨k, htoken, rfl⟩, hok⟩ := hok
    cases t with
    | identifier name =>
      obtain ⟨new, hq, hnew⟩ := (hname name).sound hok
      exact ⟨new, .inr ⟨name, _, [], new, ⟨Scan.item_of_token htoken, rfl⟩, hq, rfl⟩, hnew⟩
    | integer digits => exact (hinteger digits _ _ _ hok).elim
    | punctuation mark =>
      by_cases hsame : mark = c
      · subst hsame
        obtain ⟨new, hp', hnew⟩ := hp.sound hok
        have hitem : Mark mark _ _ := Scan.item_of_token htoken hsize
        exact ⟨new, .inl ⟨_, [], new, ⟨hitem, rfl⟩, hp', rfl⟩, hnew⟩
      · exact (hmark mark hsame _ _ _ hok).elim
  complete := by
    rintro y cs rest _ ms i
      (⟨mid, _, new, ⟨hitem, rfl⟩, hp', rfl⟩ | ⟨name, mid, _, new, ⟨hitem, rfl⟩, hq, rfl⟩)
      hrest hi hconsistent
    · exact Builds.read (Scan.reads_token_mark hsolid hc hsize hitem)
        (hp.complete hp' hrest hi hconsistent)
    · exact Builds.read (Scan.reads_name hitem) ((hname name).complete hq hrest hi hconsistent)

/-- A token that must be one of some names, whichever it is. -/
theorem nameOf {P : String → Prop} {q : ι → Phrase}
    (hname : ∀ name, P name → (f (.identifier name)).Recognizes view q taken)
    (hno : ∀ name, ¬P name → Fails (f (.identifier name)))
    (hinteger : ∀ digits, Fails (f (.integer digits)))
    (hmark : ∀ mark, Fails (f (.punctuation mark))) :
    ((liftM Scan.token : Compile Token) >>= f).Recognizes view
      (fun y => (wordOf P).andThen (q y)) taken :=
  (name (fun name => given (hname name) (hno name)) hinteger hmark).congr fun y =>
    (wordOf_andThen P (q y)).symm

/-- One of two phrases, where the first begins with a mark. -/
theorem choice {mark : String} {c : Char} {f : Bool → Compile β} {p q : ι → Phrase}
    (hmark : mark.toList = [c]) (hsolid : Token.isSolid [c] = true)
    (hp : (f true).Recognizes view p taken) (hq : (f false).Recognizes view q taken)
    (hclear : ∀ y, (q y).Clears [c] taken) :
    ((liftM (Scan.accept mark) : Compile Bool) >>= f).Recognizes view
      (fun y => ((Grammar.mark c).andThen (p y)).orElse (q y)) taken where
  sound := by
    intro d e b hok
    simp only [bind_eq_ok, lift_eq_ok] at hok
    obtain ⟨found, _, ⟨k, haccept, rfl⟩, hok⟩ := hok
    have hitem := Scan.mark_of_accept hmark haccept
    cases found with
    | true =>
      rw [if_pos rfl] at hitem
      obtain ⟨new, hp', hnew⟩ := hp.sound hok
      exact ⟨new, .inl ⟨_, [], new, ⟨hitem, rfl⟩, hp', rfl⟩, hnew⟩
    | false =>
      rw [if_neg Bool.false_ne_true] at hitem
      obtain ⟨new, hq', hnew⟩ := hq.sound hok
      rw [show Cursor.ahead _ = d.cursor.ahead from hitem] at hq'
      exact ⟨new, .inr hq', hnew⟩
  complete := by
    rintro y cs rest new ms i (⟨mid, _, new, ⟨hitem, rfl⟩, hp', rfl⟩ | hq') hrest hi hconsistent
    · exact Builds.read (Scan.reads_mark hmark hsolid hitem) (hp.complete hp' hrest hi hconsistent)
    · exact Builds.read (Scan.reads_accept_avoided hmark (hclear y _ _ _ hq' hrest))
        (hq.complete hq' hrest hi hconsistent)

/-- The next token says how to go on. -/
theorem ahead (test : Option Token → Bool) {m m' : Compile β} {p q : ι → Phrase}
    (hp : m.Recognizes view p taken) (hq : m'.Recognizes view q taken) :
    ((liftM Scan.peek? : Compile (Option Token)) >>= fun t => if test t then m else m').Recognizes
      view (fun y cs ms rest => test (Token.lead? (Token.visible cs)) = true ∧ p y cs ms rest ∨
        test (Token.lead? (Token.visible cs)) = false ∧ q y cs ms rest) taken where
  sound := by
    intro d e b hok
    simp only [bind_eq_ok, lift_eq_ok] at hok
    obtain ⟨t, _, ⟨k, hpeek, rfl⟩, hok⟩ := hok
    have hvisible := Cursor.visible_ahead (onRest_eq_ok.mp hpeek).1
    obtain ⟨rfl, rfl⟩ := Scan.ahead_of_peek? hpeek
    cases htest : test (Token.lead? d.cursor.ahead) with
    | true =>
      rw [htest, if_pos rfl] at hok
      obtain ⟨new, hp', hnew⟩ := hp.sound hok
      exact ⟨new, .inl ⟨by rw [hvisible, htest], hp'⟩, hnew⟩
    | false =>
      rw [htest, if_neg Bool.false_ne_true] at hok
      obtain ⟨new, hq', hnew⟩ := hq.sound hok
      exact ⟨new, .inr ⟨by rw [hvisible, htest], hq'⟩, hnew⟩
  complete := by
    rintro y cs rest new ms i (⟨htest, hp'⟩ | ⟨htest, hq'⟩) hrest hi hconsistent
    · refine Builds.read (Scan.reads_peek? cs) ?_
      rw [htest, if_pos rfl]
      exact hp.complete hp' hrest hi hconsistent
    · refine Builds.read (Scan.reads_peek? cs) ?_
      rw [htest, if_neg Bool.false_ne_true]
      exact hq.complete hq' hrest hi hconsistent

/-- A phrase that may be left out. -/
theorem optional {mark : String} {c : Char} {f : Bool → Compile β} {p : Phrase}
    (hmark : mark.toList = [c]) (hsolid : Token.isSolid [c] = true)
    (hp : (f true).Accepts p taken) (hq : (f false).Accepts .empty taken) (htaken : c ∈ taken) :
    ((liftM (Scan.accept mark) : Compile Bool) >>= f).Accepts
      ((Grammar.mark c).andThen p).optional taken :=
  choice hmark hsolid hp hq fun _ =>
    .empty (List.cons_subset.mpr ⟨htaken, List.nil_subset taken⟩)

end Recognizes

end Compile

end FragmentAssembly

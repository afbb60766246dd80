import FragmentAssembly.Proofs.Grammar.Language
import FragmentAssembly.Proofs.Grammar.Written
import FragmentAssembly.Proofs.Reading.Growth

/-!
# What operands denote

An operand that is written as a name is read as the parameter with this name, and one that is
written as a value as the literal with these bits.  Since tables only grow, this is still so when
the text has been read to its end.
-/

namespace FragmentAssembly

open Grammar

/-! ## Denotation -/

namespace ParameterTable

/-- Whether a register is what was written: no parameter, the parameter of this name, or the
literal with these bits. -/
def Denotes (t : ParameterTable) (r : Readable) : Option Spelling → Prop
  | none => ∀ index, r ≠ .parameter index
  | some (.name name) => ∃ index entry, r = .parameter index ∧ t.get? index = some entry ∧
      entry.name = some name
  | some (.literal value) => ∃ index entry, r = .parameter index ∧ t.get? index = some entry ∧
      entry.kind = .literal ∧ entry.value = value

/-- Each source is what was written in its place. -/
def DenotesAll (t : ParameterTable) (sources : List Source) (ws : Wording) : Prop :=
  List.Forall₂ (fun s w => t.Denotes s.register w) sources ws

/-- Each operand of each instruction is what was written in its place. -/
def DenotesEach (t : ParameterTable) (instructions : List Instruction)
    (wss : List Wording) : Prop :=
  List.Forall₂ (fun ins ws => t.DenotesAll ins.sources ws) instructions wss

theorem Denotes.extends {s t : ParameterTable} {r : Readable} {w : Option Spelling}
    (h : s.Denotes r w) (hts : t.Extends s) : t.Denotes r w := by
  rcases w with _ | name | value
  · exact h
  · obtain ⟨index, entry, hr, hentry, hname⟩ := h
    exact ⟨index, entry, hr, hts.get? hentry, hname⟩
  · obtain ⟨index, entry, hr, hentry, hvalue⟩ := h
    exact ⟨index, entry, hr, hts.get? hentry, hvalue⟩

theorem DenotesAll.extends {s t : ParameterTable} {sources : List Source} {ws : Wording}
    (h : s.DenotesAll sources ws) (hts : t.Extends s) : t.DenotesAll sources ws :=
  h.imp fun _ _ hdenotes => hdenotes.extends hts

end ParameterTable

namespace Compile

/-! ## Reading phrases -/

/-- The action reads the phrase `p`, and `post` says what it returns and which table it leaves, in
which all entries are kept. -/
def Yields {α : Type} (m : Compile α) (p : Phrase) (taken : List Char)
    (post : α → ParameterTable → Prop) : Prop :=
  ∀ cs new rest ms (i : Inventory), p cs new rest → Avoids taken rest → i.Records ms →
    Consistent ms new → m.Builds cs i True rest fun a j =>
      post a j.parameters ∧ j.parameters.Extends i.parameters ∧ j.Records (ms ++ new)

/-- What is known of every successful run holds of this one. -/
theorem Builds.also {α : Type} {m : Compile α} {cs rest : List Char} {i : Inventory}
    {possible : Prop} {post : α → Inventory → Prop} {K : α → Inventory → Inventory → Prop}
    (h : m.Builds cs i possible rest post)
    (hm : ∀ {d a e}, m d = .ok a e → K a d.inventory e.inventory) :
    m.Builds cs i possible rest fun a j => post a j ∧ K a i j := by
  rintro d hd rfl
  obtain ⟨hsuccess, hfailure⟩ := h d hd rfl
  refine ⟨fun hpossible => ?_, hfailure⟩
  obtain ⟨a, e, hok, hrest, hpost⟩ := hsuccess hpossible
  exact ⟨a, e, hok, hrest, hpost, hm hok⟩

theorem Grows.extends {α : Type} {m : Compile α} (h : m.Grows) {d e : Draft} {a : α}
    (hok : m d = .ok a e) : e.parameters.Extends d.parameters := by
  have hgrows := h d
  rw [GrowsFrom, leaves, hok] at hgrows
  exact hgrows.extends

/-- A phrase that is recognized is read. -/
theorem Recognizes.yields {α ι : Type} {m : Compile α} {view : α → ι} {p : ι → Phrase}
    {taken : List Char} (h : m.Recognizes view p taken) (hm : m.Grows) (x : ι) :
    m.Yields (p x) taken fun a _ => view a = x := by
  intro cs new rest ms i hp hrest hi hconsistent
  refine ((h.complete hp hrest hi hconsistent).also
    (K := fun _ i j => j.parameters.Extends i.parameters) hm.extends).weaken ?_
  rintro a j ⟨⟨hview, hj⟩, hextends⟩
  exact ⟨hview, hextends, hj⟩

namespace Yields

variable {α β : Type} {m : Compile α} {f : α → Compile β} {p q : Phrase}
  {taken taken' : List Char} {post : α → ParameterTable → Prop}
  {post' : β → ParameterTable → Prop}

theorem pure {a : α} (h : ∀ t, post a t) : (Pure.pure a : Compile α).Yields .empty taken post := by
  rintro cs new rest ms i ⟨rfl, rfl⟩ - hi -
  rw [List.append_nil]
  exact .pure ⟨h _, .refl _, hi⟩ rest

/-- What was found out first is still true of the table at the end. -/
theorem bind (h : m.Yields p taken post)
    (hf : ∀ a t, post a t → (f a).Yields q taken' fun b u => u.Extends t → post' b u)
    (hclear : q.Clears taken taken') : (m >>= f).Yields (p.andThen q) taken' post' := by
  rintro cs _ rest ms i ⟨mid, new, more, hp, hq, rfl⟩ hrest hi hconsistent
  obtain ⟨hnew, hmore⟩ := consistent_append.mp hconsistent
  refine (h _ _ _ _ _ hp (hclear _ _ _ hq hrest) hi hnew).andThen ?_
  rintro a j ⟨hpost, hextends, hj⟩
  refine (hf a _ hpost _ _ _ _ _ hq hrest hj hmore).weaken ?_
  rintro b k ⟨hpost', hextends', hk⟩
  rw [List.append_assoc] at hk
  exact ⟨hpost' hextends', hextends.trans hextends', hk⟩

/-- The first action only has to succeed. -/
theorem andThen (h : m.Accepts p taken) (hm : m.Grows) (hf : ∀ a, (f a).Yields q taken' post')
    (hclear : q.Clears taken taken') : (m >>= f).Yields (p.andThen q) taken' post' := by
  refine (h.yields hm ()).bind (fun a t _ => ?_) hclear
  intro cs new rest ms i hq hrest hi hconsistent
  exact (hf a cs new rest ms i hq hrest hi hconsistent).weaken fun b k hk =>
    ⟨fun _ => hk.1, hk.2⟩

/-- The last action only returns something. -/
theorem map {g : α → β} (h : m.Yields p taken post) (hg : ∀ a t, post a t → post' (g a) t) :
    (m >>= fun a => Pure.pure (g a)).Yields p taken post' := by
  intro cs new rest ms i hp hrest hi hconsistent
  refine (h cs new rest ms i hp hrest hi hconsistent).andThen ?_
  rintro a j ⟨hpost, hj⟩
  exact .pure ⟨hg a _ hpost, hj⟩ rest

theorem within {c : Construct} (h : m.Yields p taken post) :
    Yields (FragmentAssembly.within c m) p taken post :=
  fun cs new rest ms i hp hrest hi hconsistent =>
    (h cs new rest ms i hp hrest hi hconsistent).within

theorem given {condition : Prop} (h : condition → m.Yields p taken post) :
    m.Yields (p.given condition) taken post :=
  fun cs new rest ms i ⟨hcondition, hp⟩ => h hcondition cs new rest ms i hp

theorem anyOf {ι : Type} {p : ι → Phrase} (h : ∀ x, m.Yields (p x) taken post) :
    m.Yields (.anyOf p) taken post :=
  fun cs new rest ms i ⟨x, hx⟩ => h x cs new rest ms i hx

theorem look {f : Draft → Compile β} (hf : ∀ d, (f d).Yields q taken post') :
    (get >>= f).Yields q taken post' :=
  fun cs new rest ms i hq hrest hi hconsistent => Builds.look fun d _ _ =>
    hf d cs new rest ms i hq hrest hi hconsistent

/-- One of two phrases, where the first begins with a mark. -/
theorem choice {mark : String} {c : Char} {f : Bool → Compile β} (hmark : mark.toList = [c])
    (hsolid : Token.isSolid [c] = true) (hp : (f true).Yields p taken post')
    (hq : (f false).Yields q taken post') (hclear : q.Clears [c] taken) :
    ((liftM (Scan.accept mark) : Compile Bool) >>= f).Yields
      (((Grammar.mark c).andThen p).orElse q) taken post' := by
  rintro cs new rest ms i (⟨mid, _, new, ⟨hitem, rfl⟩, hp', rfl⟩ | hq') hrest hi hconsistent
  · exact Builds.read (Scan.reads_mark hmark hsolid hitem) (hp _ _ _ _ _ hp' hrest hi hconsistent)
  · exact Builds.read (Scan.reads_accept_avoided hmark (hclear _ _ _ hq' hrest))
      (hq _ _ _ _ _ hq' hrest hi hconsistent)

end Yields

/-! ## Values -/

section Values

variable {cs rest : List Char} {ms : List Mention}

theorem reads_numberOf {value : Binary32} (h : numberOf value cs ms rest) :
    ms = [] ∧ Scan.number.Reads cs True value rest := by
  obtain ⟨⟨n, rfl, hn⟩, hms⟩ := h
  exact ⟨hms, Scan.reads_numeral hn⟩

theorem reads_moreNumbersOf {values : List Binary32} (h : moreNumbersOf values cs ms rest)
    {count : Nat} (hcount : values.length ≤ count) (hrest : Avoids [','] rest) :
    ms = [] ∧ (Scan.moreComponents count).Reads cs True values rest := by
  induction values generalizing cs ms count with
  | nil =>
    obtain ⟨rfl, hms⟩ := h
    refine ⟨hms, ?_⟩
    cases count with
    | zero => exact .pure [] rest
    | succ count => exact (Scan.reads_accept_avoided rfl hrest).andThen (.pure [] rest)
  | cons value values ih =>
    cases count with
    | zero => cases hcount
    | succ count =>
      obtain ⟨mid, _, _, ⟨hcomma, rfl⟩, ⟨mid', _, _, hvalue, hvalues, rfl⟩, rfl⟩ := h
      obtain ⟨rfl, hnumber⟩ := reads_numberOf hvalue
      obtain ⟨rfl, hmore⟩ := ih hvalues (Nat.le_of_succ_le_succ hcount)
      refine ⟨rfl, (Scan.reads_mark rfl rfl hcomma).andThen ?_⟩
      exact hnumber.andThen (hmore.andThen (.pure _ rest))

theorem reads_vectorRestOf {first : Binary32} {more : List Binary32}
    (h : vectorRestOf first more cs ms rest) (hlength : more.length ≤ 3) :
    ms = [] ∧ Scan.vectorRest.Reads cs True (Scan.vectorOfList first more) rest := by
  obtain ⟨mid, _, _, hfirst, ⟨mid', _, _, hmore, ⟨hclose, rfl⟩, rfl⟩, rfl⟩ := h
  have hclears : (mark '\x7d').Clears [','] [] := .mark rfl (by decide)
  obtain ⟨rfl, hnumber⟩ := reads_numberOf hfirst
  obtain ⟨rfl, hnumbers⟩ := reads_moreNumbersOf hmore hlength
    (hclears _ _ _ ⟨hclose, rfl⟩ (avoids_nil rest))
  refine ⟨rfl, hnumber.andThen (hnumbers.andThen ?_)⟩
  exact (Scan.reads_expect_mark rfl rfl hclose).andThen (.pure _ rest)

end Values

/-! ## Operands -/

variable {taken : List Char}

/-- What an operand is read as. -/
def Reading (w : Option Spelling) (o : Operand) (t : ParameterTable) : Prop :=
  t.Denotes o.readable w ∧ o.isConstant = w.isSome

/-- A literal that was read is entered with its value. -/
theorem builds_literal {α : Type} {m : Scan α} {a : α} {cs rest : List Char}
    (h : m.Reads cs True a rest) (value : α → Vec4) (n : Nat → α → Note) {ms : List Mention}
    {i : Inventory} (hi : i.Records ms) :
    Builds (do
        let a ← (liftM m : Compile α)
        let index ← addLiteral (value a)
        note (n index a)
        return Operand.constant index) cs i True rest fun o j =>
      Reading (some (.literal (value a))) o j.parameters ∧
        j.parameters.Extends i.parameters ∧ j.Records (ms ++ []) := by
  refine Builds.read h ((builds_addLiteral (value a)).andThen ?_)
  rintro index _ ⟨rfl, rfl⟩
  refine (builds_note _).andThen ?_
  rintro _ _ rfl
  obtain ⟨entry, hentry, hkind, hvalue⟩ := i.parameters.get?_addLiteral (value a)
  rw [List.append_nil]
  exact .pure ⟨⟨⟨_, entry, rfl, hentry, hkind, hvalue⟩, rfl⟩,
    ParameterTable.extends_addLiteral _ _, hi.literal _⟩ rest

theorem denotes_register {α : Type} {m : Compile α} {f : α → Readable} {d e : Draft} {o : Operand}
    (h : (m >>= fun a => pure (Operand.register (f a))) d = .ok o e)
    (hf : ∀ a index, f a ≠ .parameter index) (w : Option Spelling) :
    e.parameters.Denotes o.readable (if o.isConstant then w else none) := by
  obtain ⟨a, d', -, h⟩ := bind_eq_ok.mp h
  obtain ⟨rfl, rfl⟩ := pure_eq_ok.mp h
  exact hf a

/-- A name that is no register denotes the parameter that it is looked up as. -/
theorem denotes_of_namedOperand {name : String} {o : Operand} {d e : Draft}
    (h : namedOperand name d = .ok o e) (hstep : d.parameters.InStep) :
    e.parameters.Denotes o.readable (if o.isConstant then some (.name name) else none) := by
  unfold namedOperand at h
  split at h
  · exact (fails_fail _ _ _ _ h).elim
  · split at h
    · exact denotes_register h (fun _ => nofun) _
    · split at h
      · exact denotes_register h (fun _ => nofun) _
      · cases hnumber : temporaryNumber? name with
        | some number =>
          simp only [hnumber] at h
          exact denotes_register h (fun _ => nofun) _
        | none =>
          simp only [hnumber, bind_eq_ok, get_eq_ok] at h
          obtain ⟨f, g, ⟨rfl, rfl⟩, h⟩ := h
          cases hfound : d.parameters.lookup? name with
          | none =>
            rw [hfound] at h
            exact (fails_fail _ _ _ _ h).elim
          | some index =>
            rw [hfound] at h
            obtain ⟨rfl, rfl⟩ := pure_eq_ok.mp h
            obtain ⟨entry, hentry, hname⟩ := ParameterTable.get?_of_lookup? hstep hfound
            exact ⟨index, entry, rfl, hentry, hname⟩

/-- An operand that is a register is no parameter. -/
theorem register_of_operand {r : Readable} {d e : Draft} (h : operand d = .ok (.register r) e)
    (hstep : d.parameters.InStep) : ∀ index, r ≠ .parameter index := by
  simp only [operand, bind_eq_ok, lift_eq_ok] at h
  obtain ⟨t, -, ⟨k, -, rfl⟩, h⟩ := h
  split at h
  · simp only [scalarLiteral, bind_eq_ok, pure_eq_ok, reduceCtorEq, false_and, and_false,
      exists_false] at h
  · simp only [bind_eq_ok, lift_eq_ok] at h
    obtain ⟨t, -, ⟨l, -, rfl⟩, h⟩ := h
    split at h
    · exact denotes_of_namedOperand h hstep
    · simp only [vectorLiteral, bind_eq_ok, pure_eq_ok, reduceCtorEq, false_and, and_false,
        exists_false] at h
    · exact (fails_fail _ _ _ _ h).elim

theorem yields_operand_register : operand.Yields register taken (Reading none) := by
  intro cs new rest ms i hp hrest hi hconsistent
  have hregister := (recognizes_operand taken).yields grows_operand false cs new rest ms i hp hrest
    hi hconsistent
  refine (hregister.also (K := fun o i _ => i.parameters.InStep → ∀ r, o = .register r →
    ∀ index, r ≠ .parameter index) fun hok hstep r ho => ?_).weaken ?_
  · rw [ho] at hok
    exact register_of_operand hok hstep
  · rintro (r | index) j ⟨⟨hview, hj⟩, hno⟩
    · exact ⟨⟨hno hi.inStep r rfl, rfl⟩, hj⟩
    · cases hview

theorem yields_operand_name (name : String) :
    operand.Yields ((word name).andThen (.mentioning (.use name))) taken
      (Reading (some (.name name))) := by
  rintro cs _ rest ms i ⟨_, _, _, ⟨hname, rfl⟩, ⟨rfl, rfl⟩, rfl⟩ hrest hi hconsistent
  have hclears : ∀ c, c.isDigit = true ∨ c = '.' → (word name).Clears [c] [] := fun c hc =>
    .word (List.forall_mem_singleton.mpr (not_isAlpha_of_begins hc))
  have hword : word name cs [] rest := ⟨hname, rfl⟩
  refine Builds.read (Scan.reads_peek? cs) ?_
  rw [any_beginsNumber_eq_false hclears hword, if_neg Bool.false_ne_true]
  refine Builds.read (Scan.reads_name hname) ?_
  have huse : baseRest name true rest [.use name] rest := ⟨rfl, rfl⟩
  have hbuilds := (recognizes_namedOperand name taken).yields (grows_namedOperand name) true
    _ _ _ _ _ huse hrest hi hconsistent
  refine (hbuilds.also (K := fun o i j => i.parameters.InStep →
    j.parameters.Denotes o.readable (if o.isConstant then some (.name name) else none))
    denotes_of_namedOperand).weaken ?_
  rintro o j ⟨⟨hview, hj⟩, hdenotes⟩
  have hdenotes := hdenotes hi.inStep
  rw [if_pos hview] at hdenotes
  exact ⟨⟨hdenotes, hview⟩, hj⟩

theorem yields_operand_literal (value : Vec4) :
    operand.Yields (literalOf value) taken (Reading (some (.literal value))) := by
  rintro cs new rest ms i (⟨x, rfl, ⟨n, rfl, hsign, hn⟩, rfl⟩ |
    ⟨mid, _, _, ⟨hbrace, rfl⟩, ⟨first, more, ⟨hlength, rfl⟩, hvector⟩, rfl⟩) hrest hi -
  · have hbegins := (number_and_beginsNumber.mpr ⟨⟨n, hsign, hn⟩, rfl⟩ :
      _ ∧ number cs [] rest).1
    refine Builds.read (Scan.reads_peek? cs) ?_
    rw [hbegins, if_pos rfl]
    exact builds_literal (Scan.reads_numeral hn) Quad.replicate
      (fun index v => .scalarLiteral index v) hi
  · obtain ⟨rfl, hreads⟩ := reads_vectorRestOf hvector hlength
    have hclears : ∀ c, c.isDigit = true ∨ c = '.' → (mark '\x7b').Clears [c] [] := by
      refine fun c hc => .mark rfl ?_
      rw [List.mem_singleton]
      rintro rfl
      exact absurd hc (by decide)
    have hmark : mark '\x7b' cs [] mid := ⟨hbrace, rfl⟩
    refine Builds.read (Scan.reads_peek? cs) ?_
    rw [any_beginsNumber_eq_false hclears hmark, if_neg Bool.false_ne_true]
    exact Builds.read (Scan.reads_token_mark rfl rfl rfl hbrace)
      (builds_literal hreads id (fun index v => .vectorLiteral index v) hi)

theorem yields_operand (w : Option Spelling) (taken : List Char) :
    operand.Yields (baseOf w) taken (Reading w) := by
  rcases w with _ | name | value
  · exact yields_operand_register
  · exact yields_operand_name name
  · exact yields_operand_literal value

/-! ## Sources -/

theorem clears_selectionOf (suffix : Bool → Phrase) (w : Option Spelling)
    {marks behind : List Char} (h : marks ⊆ ['-', '+', '|']) :
    (selectionOf suffix w).Clears marks behind := by
  intro cs ms rest hp
  refine clears_selection suffix h cs ms rest ?_
  rw [selection_eq_anyOf]
  exact ⟨w, hp⟩

theorem yields_sourceWith {suffix : Operand → Scan Swizzle} {q : Bool → Phrase}
    (hsuffix : ∀ o {taken}, '.' ∈ taken →
      (liftM (suffix o) : Compile Swizzle).Accepts (q (Operand.isConstant o)) taken)
    (w : Option Spelling) : (sourceWith suffix).Yields (sourceOf q w) ['.'] fun s t =>
      t.Denotes s.register w := by
  have hsign : (liftM Scan.negation : Compile Bool).Accepts sign ['-', '+'] :=
    accepts_negation (by decide) (by decide)
  unfold sourceWith sourceOf
  refine .andThen hsign (.lift _) (fun outer => ?_)
    (.orElse (.begins rfl (by decide) _) (clears_selectionOf q w (by decide)))
  refine .choice rfl rfl ?_ ?_ (clears_selectionOf q w (by decide))
  · simp only [if_true]
    refine .andThen hsign (.lift _) (fun inner => ?_)
      (.first (clears_selectionOf q w (by decide)) _)
    rw [selectionOf, Phrase.andThen_assoc]
    refine (yields_operand w []).bind (fun o t ho => ?_) (.nil _ _)
    rw [← ho.2]
    refine .andThen (hsuffix o (List.mem_singleton_self '.')) (.lift _) (fun swizzle => ?_)
      (.mark rfl (by decide))
    refine ((Recognizes.expect rfl rfl ['.']).yields (.lift _) ()).map fun _ u _ hextends => ?_
    exact ho.1.extends hextends
  · simp only [Bool.false_eq_true, if_false, pure_bind]
    refine (yields_operand w []).bind (fun o t ho => ?_) (.nil _ _)
    rw [← ho.2]
    refine ((hsuffix o (List.mem_singleton_self '.')).yields (.lift _) ()).map
      fun _ u _ hextends => ?_
    exact ho.1.extends hextends

theorem yields_vectorSource (w : Option Spelling) :
    vectorSource.Yields (sourceOf Grammar.vectorSuffix w) ['.'] fun s t =>
      t.Denotes s.register w :=
  (yields_sourceWith (fun o _ => accepts_vectorSuffix o) w).within

theorem yields_scalarSource (w : Option Spelling) :
    scalarSource.Yields (sourceOf Grammar.scalarSuffix w) ['.'] fun s t =>
      t.Denotes s.register w :=
  (yields_sourceWith (fun o _ => accepts_scalarSuffix o) w).within

/-! ## Instructions -/

theorem yields_commaSeparated {item : Compile Source} {p : Option Spelling → Phrase}
    (hitem : ∀ w, item.Yields (p w) ['.'] fun s t => t.Denotes s.register w) (ws : Wording)
    (count : Nat) : (commaSeparated item count).Yields
      ((separatedOf p ws).given (ws.length = count)) ['.'] fun sources t =>
        t.DenotesAll sources ws := by
  refine .given ?_
  rintro rfl
  induction ws with
  | nil => exact .pure fun _ => .nil
  | cons w ws ih =>
    cases ws with
    | nil => exact (hitem w).map fun s t hs => .cons hs .nil
    | cons w' ws =>
      refine (hitem w).bind (fun first t hfirst => ?_) (.begins rfl (by decide) _)
      refine .andThen (Recognizes.expect rfl rfl []) (.lift _) (fun _ => ?_) (.nil _ _)
      exact ih.map fun sources u hsources hextends =>
        .cons (hfirst.extends hextends) hsources

/-- Sources that were written are read into an instruction, which had none before. -/
theorem yields_operands {ins : Instruction} (hnone : ins.sources = []) (shape : Operands)
    (ws : Wording) : (Compile.operands ins shape).Yields (operandsOf shape ws) ['.'] fun filled t =>
      t.DenotesAll filled.sources ws := by
  cases shape with
  | vectors count => exact (yields_commaSeparated yields_vectorSource ws count).map fun _ _ h => h
  | scalars count => exact (yields_commaSeparated yields_scalarSource ws count).map fun _ _ h => h
  | lookup count =>
    refine (yields_commaSeparated yields_vectorSource ws count).bind (fun sources t hsources => ?_)
      (.begins rfl (by decide) _)
    refine .andThen (Recognizes.expect rfl rfl []) (.lift _) (fun _ => ?_) (.nil _ _)
    exact ((accepts_textureImage ['.']).within.yields (grows_textureImage.within _) ()).map
      fun _ u _ hextends => hsources.extends hextends
  | condition =>
    unfold Compile.operands
    rw [lift_within]
    refine .given ?_
    rintro rfl
    have hcondition : (liftM Scan.condition : Compile CondTest).Accepts condition ['.'] :=
      accepts_condition List.mem_cons_self
    refine (hcondition.within.yields ((Grows.lift _).within _) ()).map fun test t _ => ?_
    dsimp only
    rw [hnone]
    exact .nil

theorem sources_of_destinationOf {ins filled : Instruction} {writes : Bool} {d e : Draft}
    (h : Compile.destinationOf ins writes d = .ok filled e) : filled.sources = ins.sources := by
  cases writes with
  | false =>
    obtain ⟨rfl, -⟩ := pure_eq_ok.mp h
    rfl
  | true =>
    simp only [Compile.destinationOf, if_true, bind_eq_ok, pure_eq_ok] at h
    obtain ⟨_, _, -, _, _, -, rfl, -⟩ := h
    rfl

theorem yields_destinationOf (ins : Instruction) (writes : Bool) (taken : List Char) :
    (Compile.destinationOf ins writes).Yields (Grammar.destinationOf writes) taken fun filled _ =>
      filled.sources = ins.sources := by
  intro cs new rest ms i hp hrest hi hconsistent
  have hbuilds := (accepts_destinationOf ins writes taken).yields (grows_destinationOf ins writes)
    () cs new rest ms i hp hrest hi hconsistent
  exact (hbuilds.also (K := fun filled _ _ => filled.sources = ins.sources)
    sources_of_destinationOf).weaken fun _ _ h => ⟨h.2, h.1.2⟩

/-- What stands behind the mnemonic of an instruction with these operands. -/
def instructionRestOf (mnemonic : String) (ws : Wording) : Phrase :=
  .anyOf fun pattern => ((Grammar.destinationOf pattern.writes).andThen
    ((operandsOf pattern.operands ws).andThen (mark ';'))).given (IsMnemonic mnemonic pattern)

theorem yields_instruction (mnemonic : String) (ws : Wording) (taken : List Char) :
    (Compile.instruction mnemonic).Yields (instructionRestOf mnemonic ws) taken fun ins t =>
      t.DenotesAll ins.sources ws := by
  refine .look fun d => .anyOf fun pattern => .given fun hmnemonic => ?_
  obtain ⟨suffixes, hread⟩ := isMnemonic_iff.mp hmnemonic
  rw [hread]
  refine (yields_destinationOf _ _ []).bind (fun ins t hnone => ?_) (.nil _ _)
  refine (yields_operands hnone pattern.operands ws).bind (fun filled u hfilled => ?_)
    (.mark rfl (by decide))
  exact ((Recognizes.expect rfl rfl taken).yields (.lift _) ()).map
    fun _ v _ hextends _ => hfilled.extends hextends

/-! ## Statements -/

theorem instructionOf_eq (ws : Wording) :
    instructionOf ws = .anyOf fun name => (word name).andThen (instructionRestOf name ws) := by
  unfold instructionOf instructionRestOf
  simp only [wordOf_andThen, Phrase.andThen_anyOf]
  rw [Phrase.anyOf_comm]

theorem instructionRest_of_written {mnemonic : String} {ws : Wording} {cs rest : List Char}
    {ms : List Mention} (h : instructionRestOf mnemonic ws cs ms rest) :
    instructionRest mnemonic cs ms rest := by
  obtain ⟨pattern, hmnemonic, mid, before, after, htarget, ⟨mid', before', after', hoperands,
    hend⟩, hms⟩ := h
  refine ⟨pattern, hmnemonic, mid, before, after, htarget, ⟨mid', before', after', ?_, hend⟩, hms⟩
  rw [operands_eq_anyOf]
  exact ⟨ws, hoperands⟩

/-- An instruction that was written is read as one, with operands that denote what was written. -/
theorem yields_statement {count : Nat} (hcount : count < maxInstructions) (ws : Wording)
    (taken : List Char) :
    (statement count).Yields (instructionOf ws) taken fun added t =>
      ∃ ins, added = .instruction ins ∧ t.DenotesAll ins.sources ws := by
  rw [instructionOf_eq]
  refine .anyOf fun name => ?_
  refine ((recognizes_statementName []).yields (.lift _) name).bind ?_ (.nil _ _)
  intro found t hfound
  obtain rfl : found = name := hfound
  rw [if_neg (Nat.not_le_of_lt hcount)]
  by_cases hname : found ∈ keywords
  · -- no instruction is named like another statement
    intro cs new rest ms i hp
    have hnever := instructionRest_of_written hp
    rw [instructionRest_keyword hname] at hnever
    exact hnever.elim
  · simp only [keywords, List.mem_cons, List.not_mem_nil, or_false, not_or] at hname
    rw [if_neg hname.1, if_neg hname.2.1, if_neg hname.2.2,
      ← Phrase.andThen_empty (instructionRestOf found ws)]
    refine (yields_instruction found ws []).within.bind (fun ins u hins => ?_) (.nil _ _)
    refine .look fun d => ((accepts_note _).yields (grows_note _) ()).map fun _ v _ hextends _ => ?_
    exact ⟨ins, rfl, hins.extends hextends⟩

/-- The first of some statements that were read, and what was read behind it. -/
theorem exists_statement {fuel count : Nat} {d e : Draft} {instructions : List Instruction}
    (h : statements fuel count d = .ok instructions e) :
    ∃ fuel' added d', count < maxInstructions ∧ statement count d = .ok added d' ∧
      added.Adds d.inventory d'.inventory ∧
      match added with
      | .definition => statements fuel' count d' = .ok instructions e
      | .instruction ins => ∃ following, instructions = ins :: following ∧
          statements fuel' (count + 1) d' = .ok following e
      | .finish ins => instructions = [ins] ∧ e = d' := by
  cases fuel with
  | zero => exact (fails_fail _ _ _ _ h).elim
  | succ fuel =>
    simp only [statements, bind_eq_ok] at h
    obtain ⟨added, d', hadded, h⟩ := h
    obtain ⟨hcount, hadds⟩ := assembles_of_statement hadded
    refine ⟨fuel, added, d', hcount, hadded, hadds, ?_⟩
    cases added with
    | definition => exact h
    | instruction ins =>
      obtain ⟨following, f, hfollowing, hlast⟩ := bind_eq_ok.mp h
      obtain ⟨rfl, rfl⟩ := pure_eq_ok.mp hlast
      exact ⟨following, rfl, hfollowing⟩
    | finish ins =>
      obtain ⟨rfl, rfl⟩ := pure_eq_ok.mp h
      exact ⟨rfl, rfl⟩

/-- The statements that were written are those that are read, and their operands denote what was
written. -/
theorem denotes_of_statements {cs : List Char} {new : List Mention} {wss : List Wording}
    (h : StatementsOf cs new wss) {fuel count : Nat} {d e : Draft} {ms : List Mention}
    {instructions : List Instruction} (hok : statements fuel count d = .ok instructions e)
    (hahead : d.cursor.ahead = Token.visible cs) (hrecords : d.inventory.Records ms)
    (hconsistent : Consistent ms new) : e.parameters.DenotesEach instructions wss := by
  -- on the derivation; the kind of what was read says that it is the statement that was written
  induction h generalizing fuel count d ms instructions with
  | @finish cs hend =>
    obtain ⟨fuel', added, d', hcount, hadded, hadds, hok⟩ := exists_statement hok
    have hphrase : (Phrase.anyOf fun name => (word name).andThen (statementRest name .finish))
        cs [] [] := ⟨"END", [], [], [], hend, ⟨rfl, rfl, rfl, rfl⟩, rfl⟩
    obtain ⟨other, e', hstatement, -, -, hkind, -⟩ :=
      statement_ok hphrase hahead hcount hrecords trivial
    obtain ⟨rfl, rfl⟩ := EStateM.Result.ok.inj (hadded.symm.trans hstatement)
    cases added with
    | finish ins =>
      obtain ⟨rfl, rfl⟩ := hok
      obtain ⟨⟨position, rfl⟩, -⟩ := hadds
      exact .cons .nil .nil
    | definition => cases hkind
    | instruction ins => cases hkind
  | @definition cs mid new more wss first rest ih =>
    obtain ⟨hnew, hmore⟩ := consistent_append.mp hconsistent
    obtain ⟨fuel', added, d', hcount, hadded, -, hok⟩ := exists_statement hok
    rw [definition_eq] at first
    obtain ⟨other, e', hstatement, hrest, -, hkind, hrecords'⟩ :=
      statement_ok first hahead hcount hrecords hnew
    obtain ⟨rfl, rfl⟩ := EStateM.Result.ok.inj (hadded.symm.trans hstatement)
    cases added with
    | definition => exact ih hok hrest hrecords' hmore
    | instruction ins => cases hkind
    | finish ins => cases hkind
  | @instruction cs mid new more ws wss first rest ih =>
    obtain ⟨hnew, hmore⟩ := consistent_append.mp hconsistent
    obtain ⟨fuel', added, d', hcount, hadded, -, hok⟩ := exists_statement hok
    have hyields := yields_statement hcount ws [] _ _ _ _ _ first (avoids_nil mid)
      hrecords hnew
    obtain ⟨other, e', hstatement, hrest, ⟨ins, rfl, hins⟩, -, hrecords'⟩ :=
      (hyields d hahead rfl).success trivial
    obtain ⟨rfl, rfl⟩ := EStateM.Result.ok.inj (hadded.symm.trans hstatement)
    obtain ⟨following, rfl, hfollowing⟩ := hok
    -- the rest of the text only makes the table grow
    have hextends := (grows_statements fuel' (count + 1)).extends hfollowing
    exact .cons (hins.extends hextends) (ih hfollowing hrest hrecords' hmore)

end Compile

/-! ## Programs -/

/-- The statements of a compiled text, which stand behind its header. -/
theorem statements_of_compile {source : String} {p : Program} (h : compile source = .ok p) :
    ∃ text fuel d, source.toList = "!!FP1.0".toList ++ text ∧
      Compile.statements fuel 0 { cursor := (Cursor.ofText source).advance 7 } =
        .ok p.instructions d ∧ d.parameters = p.parameters := by
  obtain ⟨text, htext⟩ := exists_header h
  obtain ⟨instructions, d, hok, -, rfl⟩ := (compile_eq_ok htext).mp h
  exact ⟨text, _, d, htext, hok, rfl⟩

/-- Texts that are compiled are written somehow. -/
theorem exists_isWritten {source : String} {p : Program} (h : compile source = .ok p) :
    ∃ wss, IsWritten source wss := by
  obtain ⟨text, fuel, d, htext, hok, -⟩ := statements_of_compile h
  obtain ⟨ms, n, hstatements, hgathers, -⟩ := Compile.statements_of_ok hok
  obtain ⟨hconsistent, -⟩ := hgathers [] Inventory.records_empty
  rw [ahead_header htext] at hstatements
  obtain ⟨wss, -, hwritten⟩ := statements_iff.mp hstatements
  exact ⟨wss, text, _, ms, htext, skips_visible text, hwritten, hconsistent⟩

theorem denotes_of_compile {source : String} {p : Program} {wss : List Wording}
    (h : compile source = .ok p) (hwritten : IsWritten source wss) :
    p.parameters.DenotesEach p.instructions wss := by
  obtain ⟨text, fuel, d, htext, hok, hparameters⟩ := statements_of_compile h
  obtain ⟨text', cs, ms, htext', hskips, hstatements, hconsistent⟩ := hwritten
  obtain rfl : text = text' := List.append_cancel_left (htext.symm.trans htext')
  rw [← hparameters]
  refine Compile.denotes_of_statements hstatements hok ?_ Inventory.records_empty hconsistent
  rw [ahead_header htext, skips_iff.mp hskips, Token.visible_visible]

end FragmentAssembly

import FragmentAssembly.Proofs.Inlining.Edit
import FragmentAssembly.Proofs.Reading.RegisterNumber

/-!
# Inlined operands

A source operand that names a constant is read again from the literal with the value of the
constant.  Its signs, bars and letters stay as they are, and a scalar may leave out its letters in
both cases.
-/

namespace FragmentAssembly

/-! ## Inlining -/

/-- The signs and bars in front of the base of a source. -/
def Scan.signs : Scan Unit := do
  let _ ← negation
  if ← accept "|" then
    let _ ← negation

/-- The place where the base of a source begins. -/
def Cursor.base (k : Cursor) : Cursor :=
  match Scan.signs k with
  | .ok _ l => l.skipIgnored
  | .error _ l => l.skipIgnored

/-- The text of a source, with `literal` in the place of its base if this is `name`. -/
def inlineSource (name : String) (literal : List Char) (k l : Cursor) : List Char :=
  if k.base.peek? = some (.identifier name) then
    k.upTo k.base ++ literal ++ (k.base.upTo l).drop name.length
  else
    k.upTo l

/-- Operands that read the same: the same register, or entries with the same value. -/
inductive Readable.SameValue (s t : ParameterTable) : Readable → Readable → Prop where
  | register {r : Readable} (h : ∀ i, r ≠ .parameter i) : SameValue s t r r
  | parameter {i j : Nat} {entry entry' : Parameter} (hi : s.get? i = some entry)
    (hj : t.get? j = some entry') (h : entry'.value = entry.value) :
    SameValue s t (.parameter i) (.parameter j)

/-- Sources are the same up to the parameters that they read the same value of. -/
structure Source.SameValue (a b : Source) (s t : ParameterTable) : Prop where
  register : a.register.SameValue s t b.register
  same : b = { a with register := b.register }

theorem Readable.SameValue.extends {s s' t t' : ParameterTable} {a b : Readable}
    (h : a.SameValue s t b) (hs : s'.Extends s) (ht : t'.Extends t) : a.SameValue s' t' b := by
  cases h with
  | register hr => exact .register hr
  | parameter hi hj hvalue => exact .parameter (hs.get? hi) (ht.get? hj) hvalue

theorem Source.lasts_sameValue : Compile.Comparison.Lasts Source.SameValue :=
  fun _ _ _ _ _ _ h hs ht => ⟨h.register.extends hs ht, h.same⟩

theorem Source.Alike.sameValue {a b : Source} {s t : ParameterTable} (h : a.Alike s t b) :
    a.SameValue b s t := by
  refine ⟨?_, ?_⟩
  · rcases h.register.cases with ⟨hsame, hregister⟩ | ⟨i, j, entry, ha, hb, hi, hj⟩
    · rw [← hsame]
      exact .register hregister
    · rw [ha, hb]
      exact .parameter hi hj rfl
  · obtain ⟨register, swizzle, negateBase, absolute, negateAbsolute⟩ := b
    cases h.swizzle
    cases h.negateBase
    cases h.absolute
    cases h.negateAbsolute
    rfl

/-- An operand was written as something else than this name. -/
def ParameterTable.Avoids (t : ParameterTable) (name : String) (r : Readable) : Prop :=
  ∃ w, t.Denotes r w ∧ w ≠ some (.name name)

/-- What was written is the only thing that can have been written. -/
theorem ParameterTable.Avoids.not_denotes {t : ParameterTable} {name : String} {r : Readable}
    (h : t.Avoids name r) (hsound : t.IsSound) : ¬t.Denotes r (some (.name name)) := by
  obtain ⟨w, hw, hother⟩ := h
  intro hname
  exact hother ((hsound.eq_spelling? hw).trans (hsound.eq_spelling? hname).symm)

/-- Operands that are alike were written as the same thing. -/
theorem Readable.Alike.denotes {a b : Readable} {s t : ParameterTable} (h : a.Alike s t b)
    {w : Option Grammar.Spelling} (hw : s.Denotes a w) : t.Denotes b w := by
  rcases h.cases with ⟨rfl, hregister⟩ | ⟨i, j, entry, rfl, rfl, hi, hj⟩
  · rcases w with _ | name | value
    · exact hregister
    · obtain ⟨index, -, ha, -⟩ := hw
      exact absurd ha (hregister index)
    · obtain ⟨index, -, ha, -⟩ := hw
      exact absurd ha (hregister index)
  · rcases w with _ | name | value
    · exact absurd rfl (hw i)
    · obtain ⟨_, found, ⟨⟩, hfound, hname⟩ := hw
      obtain rfl := Option.some.inj (hi.symm.trans hfound)
      exact ⟨j, entry, rfl, hj, hname⟩
    · obtain ⟨_, found, ⟨⟩, hfound, hvalue⟩ := hw
      obtain rfl := Option.some.inj (hi.symm.trans hfound)
      exact ⟨j, entry, rfl, hj, hvalue⟩

/-- Sources read the same, and the second one does so without the name. -/
structure Source.Inlined (name : String) (a b : Source) (s t : ParameterTable) : Prop where
  sameValue : a.SameValue b s t
  avoids : t.Avoids name b.register

theorem Source.lasts_inlined (name : String) : Compile.Comparison.Lasts (Source.Inlined name) := by
  intro _ _ _ _ _ _ h hs ht
  obtain ⟨w, hw, hother⟩ := h.avoids
  exact ⟨Source.lasts_sameValue h.sameValue hs ht, w, hw.extends ht, hother⟩

/-! ## Signs and bars -/

/-- What shows in front of a solid text shows in front of another one as well. -/
theorem Token.visible_behind {rest behind other : List Char}
    (h : visible (rest ++ behind) = rest ++ behind) (hother : isSolid other = true) :
    visible (rest ++ other) = rest ++ other := by
  refine visible_of_isSolid ?_
  cases rest with
  | nil => exact hother
  | cons c rest =>
    have hsolid : isSolid (visible (c :: rest ++ behind)) = true :=
      isSolid_visible (by rw [h]; exact List.cons_ne_nil _ _)
    rw [h] at hsolid
    exact hsolid

namespace Scan

variable {α β : Type} {m : Scan α} {f : α → Scan β}

/-- The action reads the same if another text stands behind it, unless this begins with one of the
marks that the action looks for. -/
def Precedes (m : Scan α) (marks : List Char) : Prop :=
  ∀ ⦃k l : Cursor⦄ ⦃a : α⦄, m k = .ok a l → ∀ ⦃rest behind : List Char⦄,
    Token.isSolid behind = true → l.rest = rest ++ behind →
      ∃ text, k.rest = text ++ behind ∧ ∀ other, Token.isSolid other = true →
        (∀ c ∈ marks, other.head? ≠ some c) → m.Reads (text ++ other) True a (rest ++ other)

theorem Precedes.pure (a : α) (marks : List Char) : Precedes (Pure.pure a : Scan α) marks := by
  intro k l b h rest behind _ hl
  obtain ⟨rfl, rfl⟩ := pure_eq_ok.mp h
  exact ⟨rest, hl, fun other _ _ => .pure a _⟩

theorem Precedes.bind {marks : List Char} (hm : m.Precedes marks)
    (hf : ∀ a, (f a).Precedes marks) : (m >>= f).Precedes marks := by
  intro k l b h rest behind hbehind hl
  obtain ⟨a, k', ha, hb⟩ := bind_eq_ok.mp h
  obtain ⟨mid, hmid, hread⟩ := hf a hb hbehind hl
  obtain ⟨text, htext, hread'⟩ := hm ha hbehind hmid
  exact ⟨text, htext, fun other hother hmarks =>
    (hread' other hother hmarks).andThen (hread other hother hmarks)⟩

theorem Precedes.mono {marks marks' : List Char} (hm : m.Precedes marks) (h : marks ⊆ marks') :
    m.Precedes marks' := by
  intro k l a hok rest behind hbehind hl
  obtain ⟨text, htext, hread⟩ := hm hok hbehind hl
  exact ⟨text, htext, fun other hother hmarks =>
    hread other hother fun c hc => hmarks c (h hc)⟩

theorem precedes_accept {mark : String} {c : Char} (hmark : mark.toList = [c])
    (hsolid : Token.isSolid mark.toList = true) : (accept mark).Precedes [c] := by
  intro k l found h rest behind hbehind hl
  have hlength : mark.length = 1 := by rw [← String.length_toList, hmark, List.length_singleton]
  have hinside : k.inside = [] := (onRest_eq_ok.mp h).1
  have hvisible := Cursor.visible_ahead hinside
  rw [accept_apply mark hinside, hmark, hlength] at h
  split at h
  · -- the mark is taken, and what stands behind it is not looked at
    rename_i hprefix
    cases h
    obtain ⟨more, hmore⟩ := List.isPrefixOf_iff_prefix.mp hprefix
    have hahead : k.ahead = [] ++ c :: (rest ++ behind) := by
      rw [← hl, Cursor.advance_rest]
      show k.ahead = [] ++ c :: k.skipIgnored.rest.drop 1
      rw [Cursor.rest_skipIgnored hinside, ← hmore]
      rfl
    obtain ⟨gap, hgap, hrest⟩ := Compile.rest_of_ahead hinside hahead
    refine ⟨gap ++ c :: rest, by rw [hrest]; simp, fun other _ _ => ?_⟩
    refine (reads_accept_char hmark (hmark ▸ hsolid) (rest ++ other)).congr_text ?_
    rw [List.append_assoc, hgap.visible_append]
    rfl
  · -- nothing is taken, and the other text may be the first thing that is seen
    rename_i hprefix
    cases h
    rw [Cursor.rest_skipIgnored hinside] at hl
    rw [hl] at hprefix hvisible
    obtain ⟨gap, hgap, hrest⟩ : ∃ gap, Token.IsGap gap ∧ k.rest = gap ++ (rest ++ behind) := by
      cases behind with
      | nil => cases hbehind
      | cons _ behind => exact Compile.rest_of_ahead hinside hl
    refine ⟨gap ++ rest, by rw [hrest, List.append_assoc], fun other hother hmarks => ?_⟩
    have hshows := Token.visible_behind hvisible hother
    have hmissing : mark.toList.isPrefixOf (Token.visible (rest ++ other)) = false := by
      rw [hshows, hmark]
      cases rest with
      | nil =>
        refine Bool.eq_false_iff.mpr fun hbegins => hmarks c (List.mem_singleton_self c) ?_
        obtain ⟨more, hmore⟩ := List.isPrefixOf_iff_prefix.mp hbegins
        rw [show other = c :: more from hmore.symm, List.head?_cons]
      | cons d rest => exact Bool.eq_false_iff.mpr hprefix
    refine (reads_accept_other hmissing).congr_text ?_
    rw [List.append_assoc, hgap.visible_append]

theorem precedes_negation : negation.Precedes ['-', '+'] := by
  refine ((precedes_accept rfl rfl).mono (by decide)).bind fun minus => ?_
  split
  · exact .pure true _
  · exact ((precedes_accept rfl rfl).mono (by decide)).bind fun _ => .pure false _

end Scan

/-! ## Bases -/

theorem Inventory.Joined.spare {b i j : Inventory} (h : b.Joined i j) (v : Vec4) :
    b.Joined i { j with parameters := (j.parameters.addLiteral v).2 } :=
  { h with parameters := .spare v h.parameters }

/-- A text in braces that is read as a vector with this value, whatever stands behind it. -/
def IsLiteral (value : Vec4) (literal : List Char) : Prop :=
  ∃ body, literal = '\x7b' :: body ∧
    ∀ behind, Scan.vectorRest.Reads (body ++ behind) True value behind

namespace Compile

variable {d e : Draft} {name : String} {k : Cursor}

/-- A name that is not reserved is read as the parameter that it denotes, and nothing else is
read. -/
theorem constant_of_operand {o : Operand} (h : operand d = .ok o e)
    (hlead : Token.lead? d.cursor.ahead = some (.identifier name))
    (hfree : isReserved name = false) : ∃ index, o = .constant index ∧
      d.parameters.lookup? name = some index ∧ e.inventory = d.inventory ∧
      e.cursor.inside = [] ∧ d.cursor.ahead = name.toList ++ e.cursor.rest := by
  have hinside := Scan.inside_of_identifier hlead
  have htoken := Scan.token_of_lead? hinside hlead trivial
  obtain ⟨behind, hsplit, -⟩ := Token.of_lead? hlead trivial
  have hrest : (d.cursor.past name.length).rest = behind := by
    rw [Cursor.past, Cursor.advance_rest]
    show d.cursor.skipIgnored.rest.drop name.length = behind
    rw [Cursor.rest_skipIgnored hinside, hsplit, ← String.length_toList]
    exact List.drop_left
  have hpast : (d.cursor.past name.length).inside = [] :=
    Cursor.advance_inside _ (d.cursor.skipIgnored_inside.trans hinside)
  rw [isReserved, Bool.or_eq_false_iff, Bool.or_eq_false_iff, decide_eq_false_iff_not] at hfree
  obtain ⟨⟨hcondition, hother⟩, hnumber⟩ := hfree
  rw [Option.isSome_eq_false_iff, Option.isNone_iff_eq_none] at hnumber
  simp only [List.mem_cons, List.not_mem_nil, or_false, not_or] at hother
  simp only [operand, bind_eq_ok, lift_eq_ok, Scan.peek?_apply hinside,
    EStateM.Result.ok.injEq] at h
  obtain ⟨_, _, ⟨_, ⟨rfl, rfl⟩, rfl⟩, h⟩ := h
  rw [hlead, if_neg (by exact Bool.false_ne_true)] at h
  simp only [bind_eq_ok, lift_eq_ok, htoken, EStateM.Result.ok.injEq] at h
  obtain ⟨_, _, ⟨_, ⟨rfl, rfl⟩, rfl⟩, h⟩ := h
  simp only [namedOperand, hcondition, hother.1, hother.2.2, hnumber, Bool.false_eq_true,
    if_false, bind_eq_ok, get_eq_ok] at h
  obtain ⟨_, _, ⟨rfl, rfl⟩, h⟩ := h
  cases hfound : d.parameters.lookup? name with
  | none =>
    rw [hfound] at h
    exact (lift_fail_ne_ok h).elim
  | some index =>
    rw [hfound] at h
    obtain ⟨rfl, rfl⟩ := pure_eq_ok.mp h
    exact ⟨index, rfl, rfl, rfl, hpast, by rw [hsplit, ← hrest]; rfl⟩

theorem inside_of_operand {o : Operand} (h : operand d = .ok o e) : d.cursor.inside = [] := by
  obtain ⟨_, _, hpeek, -⟩ := bind_eq_ok.mp h
  obtain ⟨_, hpeek, -⟩ := lift_eq_ok.mp hpeek
  exact (onRest_eq_ok.mp hpeek).1

/-- An operand that does not begin with the name was written as something else. -/
theorem avoids_of_operand {o : Operand} (h : operand d = .ok o e)
    (hstep : d.parameters.InStep) (hlead : Token.lead? d.cursor.ahead ≠ some (.identifier name)) :
    e.parameters.Avoids name o.readable := by
  rw [← Cursor.peek?_of_inside (inside_of_operand h)] at hlead
  simp only [operand, bind_eq_ok, lift_eq_ok] at h
  obtain ⟨t, _, ⟨k, hpeek, rfl⟩, h⟩ := h
  obtain ⟨rfl, rfl⟩ := Scan.ahead_of_peek? hpeek
  split at h
  · obtain ⟨_, -, -, hdenotes⟩ := denotes_of_literal Quad.replicate
      (fun index v => .scalarLiteral index v) h
    exact ⟨_, hdenotes, by simp⟩
  · simp only [bind_eq_ok, lift_eq_ok] at h
    obtain ⟨t, _, ⟨k, htoken, rfl⟩, h⟩ := h
    split at h
    · rename_i found
      refine ⟨_, denotes_of_namedOperand h hstep, ?_⟩
      split
      · rintro ⟨⟩
        exact hlead (Scan.peek?_of_token htoken)
      · simp
    · obtain ⟨_, -, -, hdenotes⟩ := denotes_of_literal id (fun index v => .vectorLiteral index v) h
      exact ⟨_, hdenotes, by simp⟩
    · exact (fails_fail _ _ _ _ h).elim

/-- A literal is read as an entry with its value. -/
theorem builds_inlined {value : Vec4} {literal : List Char} (hliteral : IsLiteral value literal)
    (behind : List Char) (i : Inventory) :
    operand.Builds (literal ++ behind) i True behind fun o j =>
      ∃ index entry, o = .constant index ∧ j.parameters.get? index = some entry ∧
        entry.kind = .literal ∧ entry.value = value ∧
        j = { i with parameters := (i.parameters.addLiteral value).2 } := by
  obtain ⟨body, rfl, hbody⟩ := hliteral
  refine Builds.read (Scan.reads_peek? _) ?_
  rw [List.cons_append, Token.visible_of_isSolid rfl, if_neg (by exact Bool.false_ne_true)]
  refine Builds.read (Scan.reads_token_brace _) ?_
  refine Builds.read (hbody behind) ((builds_addLiteral value).andThen ?_)
  rintro index _ ⟨rfl, rfl⟩
  refine (builds_note _).andThen ?_
  rintro _ _ rfl
  obtain ⟨entry, hentry, hkind, hvalue⟩ := i.parameters.get?_addLiteral value
  exact .pure ⟨_, entry, rfl, hentry, hkind, hvalue, rfl⟩ behind

/-! ## Sources -/

/-- What stands behind the base of a source. -/
def sourceEnd (suffix : Scan Swizzle) (absolute : Bool) (make : Swizzle → Source) :
    Compile Source := do
  let swizzle ← suffix
  if absolute then
    Scan.expect "|"
  return make swizzle

def innerSign (outer absolute : Bool) : Scan Bool :=
  if absolute then Scan.negation else pure outer

theorem sourceWith_eq (suffix : Operand → Scan Swizzle) : sourceWith suffix = (do
    let outer ← Scan.negation
    let absolute ← Scan.accept "|"
    let inner ← innerSign outer absolute
    let operand ← operand
    sourceEnd (suffix operand) absolute fun swizzle =>
      ⟨operand.readable, swizzle, inner, absolute, absolute && outer⟩) := by
  unfold sourceWith
  congr 1
  funext outer
  congr 1
  funext absolute
  cases absolute <;> rfl

theorem carries_sourceEnd {suffix : Scan Swizzle} (hlocal : suffix.IsLocal) (absolute : Bool)
    (make make' : Swizzle → Source) :
    Carries (sourceEnd suffix absolute make) (sourceEnd suffix absolute make') fun s s' _ _ =>
      ∃ swizzle, s = make swizzle ∧ s' = make' swizzle := by
  refine (Carries.lift hlocal).andThen fun swizzle => ?_
  cases absolute with
  | true =>
    exact (Carries.lift (Scan.isLocal_expect rfl)).andThen fun _ =>
      .pure fun _ _ => ⟨swizzle, rfl, rfl⟩
  | false => exact .pure fun _ _ => ⟨swizzle, rfl, rfl⟩

/-- The letters that may stand behind a base. -/
def suffixOf (scalar : Bool) : Operand → Scan Swizzle :=
  if scalar then scalarSuffix else vectorSuffix

theorem isLocal_suffixOf (scalar : Bool) (o : Operand) : (suffixOf scalar o).IsLocal := by
  cases scalar
  · exact isLocal_vectorSuffix o
  · exact isLocal_scalarSuffix o

/-- All constants may have the same letters. -/
theorem suffixOf_constant (scalar : Bool) (i j : Nat) :
    suffixOf scalar (.constant i) = suffixOf scalar (.constant j) := by
  cases scalar <;> rfl

theorem suffix_of_scan {α : Type} {V : α → α → Prop} {D : α → Prop} {m : Scan α}
    (hm : ∀ c : Coupling ParseError Cursor, c.Abreast → c.Together V D m m) {a : α} {l : Cursor}
    (hinside : k.inside = []) (h : m k = .ok a l) : l.inside = [] ∧ l.rest <:+ k.rest :=
  kept_of_together (fun c hc => together_lift (hm c hc)) (walk_suffix k.rest).abreast
    (d := { cursor := k }) ⟨hinside, List.suffix_refl _⟩ (lift_eq_ok.mpr ⟨l, h, rfl⟩)

/-- What stands behind the base enters nothing. -/
theorem made_of_sourceEnd {suffix : Scan Swizzle} {absolute : Bool} {make : Swizzle → Source}
    {s : Source} (h : sourceEnd suffix absolute make d = .ok s e) :
    ∃ swizzle, s = make swizzle ∧ e.inventory = d.inventory := by
  simp only [sourceEnd, bind_eq_ok, lift_eq_ok] at h
  obtain ⟨swizzle, _, ⟨k, -, rfl⟩, h⟩ := h
  cases absolute with
  | true =>
    simp only [if_true, bind_eq_ok, lift_eq_ok, pure_eq_ok] at h
    obtain ⟨_, _, ⟨l, -, rfl⟩, rfl, rfl⟩ := h
    exact ⟨swizzle, rfl, rfl⟩
  | false =>
    obtain ⟨rfl, rfl⟩ := pure_eq_ok.mp h
    exact ⟨swizzle, rfl, rfl⟩

theorem suffix_of_sourceEnd {scalar : Bool} {o : Operand} {absolute : Bool}
    {make : Swizzle → Source} {s : Source} (hinside : d.cursor.inside = [])
    (h : sourceEnd (suffixOf scalar o) absolute make d = .ok s e) :
    e.cursor.rest <:+ d.cursor.rest := by
  simp only [sourceEnd, bind_eq_ok, lift_eq_ok] at h
  obtain ⟨swizzle, _, ⟨k, hswizzle, rfl⟩, h⟩ := h
  obtain ⟨hbetween, hk⟩ : k.inside = [] ∧ k.rest <:+ d.cursor.rest := by
    cases scalar
    · exact suffix_of_scan (fun c hc => (follows_vectorSuffix hc o).together) hinside hswizzle
    · exact suffix_of_scan (fun c hc => (follows_scalarSuffix hc o).together) hinside hswizzle
  cases absolute with
  | true =>
    simp only [if_true, bind_eq_ok, lift_eq_ok, pure_eq_ok] at h
    obtain ⟨_, _, ⟨l, hbar, rfl⟩, -, rfl⟩ := h
    have hl := suffix_of_scan (fun c hc => (Scan.follows_expect hc "|" (by decide)).together)
      hbetween hbar
    exact hl.2.trans hk
  | false =>
    obtain ⟨-, rfl⟩ := pure_eq_ok.mp h
    exact hk

theorem precedes_innerSign (outer absolute : Bool) :
    (innerSign outer absolute).Precedes ['-', '+'] := by
  cases absolute
  · exact .pure outer _
  · exact Scan.precedes_negation

section Front

variable {k₁ k₂ l : Cursor} {outer absolute inner : Bool}

theorem base_of_signs (houter : Scan.negation k = .ok outer k₁)
    (hbar : Scan.accept "|" k₁ = .ok absolute k₂)
    (hinner : innerSign outer absolute k₂ = .ok inner l) : k.base = l.skipIgnored := by
  have hsigns : Scan.signs k = .ok () l := by
    simp only [Scan.signs, bind_eq_ok]
    refine ⟨outer, k₁, houter, absolute, k₂, hbar, ?_⟩
    cases absolute with
    | true => exact bind_eq_ok.mpr ⟨inner, l, hinner, rfl⟩
    | false =>
      obtain ⟨-, rfl⟩ := pure_eq_ok.mp hinner
      rfl
  rw [Cursor.base, hsigns]

/-- What a source was read from, part by part, and the place where its base begins. -/
theorem parts_of_source {scalar : Bool} {s : Source} (h : source scalar d = .ok s e) :
    ∃ outer k₁ absolute k₂ inner l o f, Scan.negation d.cursor = .ok outer k₁ ∧
      Scan.accept "|" k₁ = .ok absolute k₂ ∧ innerSign outer absolute k₂ = .ok inner l ∧
      operand { d with cursor := l } = .ok o f ∧
      sourceEnd (suffixOf scalar o) absolute (fun swizzle =>
        ⟨o.readable, swizzle, inner, absolute, absolute && outer⟩) f = .ok s e ∧
      l.inside = [] ∧ d.cursor.base = l.skipIgnored ∧
      d.cursor.base.peek? = Token.lead? l.ahead := by
  have hsource : sourceWith (suffixOf scalar) d = .ok s e := by
    cases scalar <;> exact within_eq_ok.mp h
  simp only [sourceWith_eq, bind_eq_ok, lift_eq_ok] at hsource
  obtain ⟨outer, _, ⟨k₁, houter, rfl⟩, absolute, _, ⟨k₂, hbar, rfl⟩, inner, _, ⟨l, hinner, rfl⟩, o,
    f, hoperand, hend⟩ := hsource
  have hbase := base_of_signs houter hbar hinner
  have hinside : l.inside = [] := inside_of_operand hoperand
  refine ⟨outer, k₁, absolute, k₂, inner, l, o, f, houter, hbar, hinner, hoperand, hend, hinside,
    hbase, ?_⟩
  rw [hbase, Cursor.peek?_of_inside (l.skipIgnored_inside.trans hinside), Cursor.ahead_skipIgnored]

/-- Signs and bars are read in the same way in front of another base. -/
theorem exists_front (houter : Scan.negation k = .ok outer k₁)
    (hbar : Scan.accept "|" k₁ = .ok absolute k₂)
    (hinner : innerSign outer absolute k₂ = .ok inner l) {rest behind : List Char}
    (hbehind : Token.isSolid behind = true) (hl : l.rest = rest ++ behind) :
    ∃ first second third, k.rest = first ++ behind ∧ ∀ other, Token.isSolid other = true →
      (∀ c ∈ ['-', '+', '|'], other.head? ≠ some c) →
        Scan.negation.Reads (first ++ other) True outer (second ++ other) ∧
        (Scan.accept "|").Reads (second ++ other) True absolute (third ++ other) ∧
        (innerSign outer absolute).Reads (third ++ other) True inner (rest ++ other) := by
  have hnegation : Scan.negation.Precedes ['-', '+', '|'] :=
    Scan.precedes_negation.mono (by decide)
  have haccept : (Scan.accept "|").Precedes ['-', '+', '|'] :=
    (Scan.precedes_accept rfl rfl).mono (by decide)
  have hinnerSign : (innerSign outer absolute).Precedes ['-', '+', '|'] :=
    (precedes_innerSign outer absolute).mono (by decide)
  obtain ⟨third, hthird, hreads⟩ := hinnerSign hinner hbehind hl
  obtain ⟨second, hsecond, hreads'⟩ := haccept hbar hbehind hthird
  obtain ⟨first, hfirst, hreads''⟩ := hnegation houter hbehind hsecond
  exact ⟨first, second, third, hfirst, fun other hother hmarks =>
    ⟨hreads'' other hother hmarks, hreads' other hother hmarks, hreads other hother hmarks⟩⟩

end Front

/-- The entry that was found for a name is the one that the table has for it in the end. -/
theorem entry_of_lookup? {t u final : ParameterTable} (hstep : t.InStep) (hsound : final.IsSound)
    {place : Nat} (hlookup : t.lookup? name = some place) (hu : u.Extends t)
    (hfinal : final.Extends u) {index : Nat} {entry : Parameter}
    (hentry : final.get? index = some entry) (hname : entry.name = some name) : place = index ∧ u.get? place = some entry := by
  obtain ⟨found, hfound, hfoundName⟩ := ParameterTable.get?_of_lookup? hstep hlookup
  have hplace := hu.get? hfound
  have hfinalPlace := hfinal.get? hplace
  obtain rfl := hsound.distinct hfinalPlace hentry hfoundName hname
  obtain rfl : found = entry := Option.some.inj (hfinalPlace.symm.trans hentry)
  exact ⟨rfl, hplace⟩

/-- A source whose base is the name of a constant is read again with the literal in the place of
the name. -/
theorem rereads_inlined {scalar : Bool} {s : Source} {value : Vec4} {literal : List Char}
    {final : Inventory} {index : Nat} {entry : Parameter} (hliteral : IsLiteral value literal)
    (hcompatible : Inventory.Compatible {} final) (hsound : final.parameters.IsSound)
    (hentry : final.parameters.get? index = some entry) (hname : entry.name = some name)
    (hvalue : entry.value = value) (h : source scalar d = .ok s e)
    (hfinal : e.inventory.Grows final)
    (hbase : d.cursor.base.peek? = some (.identifier name)) :
    Rereads (source scalar) (Source.Inlined name) d e s
      (d.cursor.upTo d.cursor.base ++ literal ++
        (d.cursor.base.upTo e.cursor).drop name.length) := by
  have hfree : isReserved name = false := by
    have hnot := hsound.free entry (ParameterTable.mem_of_get? hentry) name hname
    rwa [isReserved_iff, Bool.not_eq_true] at hnot
  have hwithin : ∀ {i j : Inventory} {cs rest : List Char},
      Again (sourceWith (suffixOf scalar)) (Source.Inlined name) i j s cs rest →
        Again (source scalar) (Source.Inlined name) i j s cs rest := by
    cases scalar <;> exact Again.within
  obtain ⟨outer, k₁, absolute, k₂, inner, l, o, f, houter, hbar, hinner, hoperand, hend, hinside,
    hplaced, hpeek⟩ := parts_of_source h
  rw [hpeek] at hbase
  rw [hplaced]
  obtain ⟨place, rfl, hlookup, hinventory, hbetween, hsplit⟩ :=
    constant_of_operand hoperand hbase hfree
  have hahead := Cursor.ahead_of_inside hinside
  have hsees : Token.visible l.rest ≠ [] := by
    intro hnil
    rw [hahead, hnil] at hbase
    cases hbase
  obtain ⟨front, hfrontGap, hl⟩ := Token.exists_gap_of_ne_nil hsees
  obtain ⟨first, second, third, hfirst, hfront⟩ :=
    exists_front houter hbar hinner (Token.isSolid_visible hsees) hl
  obtain ⟨back, hback⟩ := suffix_of_sourceEnd hbetween hend
  have hdrop : (l.skipIgnored.upTo e.cursor).drop name.length = back := by
    rw [← String.length_toList]
    refine Cursor.drop_upTo ?_
    rw [Cursor.rest_skipIgnored hinside, List.append_assoc, hback]
    exact hsplit
  rw [Cursor.upTo_eq (by rw [Cursor.rest_skipIgnored hinside, hahead]; exact hfirst), hdrop]
  have hcarries := fun make' => carries_sourceEnd (isLocal_suffixOf scalar (.constant place))
    absolute (fun swizzle => ⟨.parameter place, swizzle, inner, absolute, absolute && outer⟩) make'
  obtain ⟨hgrows, htexts⟩ := hcarries
    (fun swizzle => ⟨.parameter place, swizzle, inner, absolute, absolute && outer⟩) hend
  have hlookup' : f.parameters.lookup? name = some place :=
    (congrArg (fun i => i.parameters.lookup? name) hinventory).trans hlookup
  intro gap u stop hgap hstop hlast hrest v
  have hahead := ahead_of_gap hgap hstop hlast hrest
  obtain ⟨text, htext, -⟩ := htexts hstop hahead
  have hrecut : Token.visible (back ++ (gap ++ stop :: v)) = Token.visible (text ++ stop :: v) := by
    have hshows : Token.visible ((back ++ gap) ++ stop :: u) = text ++ stop :: u := by
      rw [← htext, Cursor.ahead_of_inside hbetween, ← hback, hrest, List.append_assoc]
    rw [← List.append_assoc]
    exact Token.visible_recut hshows v
  -- a brace comes after the signs and bars now, which is none of the marks they look for
  obtain ⟨body, rfl, -⟩ := id hliteral
  obtain ⟨hneg, hacc, hinn⟩ :=
    hfront ('\x7b' :: body ++ (back ++ (gap ++ stop :: v))) rfl (by simp)
  have hsplit : first ++ '\x7b' :: body ++ back ++ (gap ++ stop :: v) =
      first ++ ('\x7b' :: body ++ (back ++ (gap ++ stop :: v))) := by simp
  rw [hsplit]
  refine hwithin ?_
  rw [sourceWith_eq]
  refine Again.read hneg (Again.read hacc (Again.read hinn fun i hi => ?_))
  have hstep : f.parameters.InStep :=
    (congrArg (fun i => i.parameters.InStep) hinventory).mpr hi.parameters.inStep
  obtain ⟨rfl, hplace⟩ :=
    entry_of_lookup? hstep hsound hlookup' hgrows.onward hfinal.onward hentry hname
  refine ((builds_inlined hliteral _ i).congr_text (hfrontGap.visible_append _)).andThen ?_
  rintro _ j ⟨index', entry', rfl, hentry', hkind', hvalue', rfl⟩
  rw [suffixOf_constant scalar index' place]
  have hagain := (hcarries fun swizzle =>
    ⟨.parameter index', swizzle, inner, absolute, absolute && outer⟩).again hend
      (hfinal.compatible hcompatible) hstop hahead htext v
  refine ((hagain _ (hinventory ▸ hi.spare value)).congr_text hrecut).weaken ?_
  rintro s' j ⟨hjoined, hextends, swizzle, rfl, rfl⟩
  have hlast := hextends.get? hentry'
  refine ⟨hjoined, (ParameterTable.extends_addLiteral _ _).trans hextends, ⟨?_, rfl⟩, ?_⟩
  · exact .parameter hplace hlast (hvalue'.trans hvalue.symm)
  · exact ⟨some (.literal value), ⟨index', entry', rfl, hlast, hkind', hvalue'⟩, by simp⟩

/-- A source whose base is not the name was written as something else. -/
theorem avoids_of_source {scalar : Bool} {s : Source} (h : source scalar d = .ok s e)
    (hstep : d.parameters.InStep) (hbase : d.cursor.base.peek? ≠ some (.identifier name)) :
    e.parameters.Avoids name s.register := by
  obtain ⟨_, _, _, _, _, l, o, f, -, -, -, hoperand, hend, -, -, hpeek⟩ := parts_of_source h
  rw [hpeek] at hbase
  have havoids := avoids_of_operand hoperand hstep hbase
  obtain ⟨swizzle, rfl, hsame⟩ := made_of_sourceEnd hend
  rwa [show e.parameters = f.parameters from congrArg Inventory.parameters hsame]

/-- With the literal of a constant in the place of its name, all sources are read again. -/
theorem keeps_inlineSource {value : Vec4} {literal : List Char} {final : Inventory} {index : Nat}
    {entry : Parameter} (hliteral : IsLiteral value literal)
    (hcompatible : Inventory.Compatible {} final) (hsound : final.parameters.IsSound)
    (hentry : final.parameters.get? index = some entry) (hname : entry.name = some name)
    (hvalue : entry.value = value) :
    Edit.Keeps (inlineSource name literal) (Source.Inlined name) final := by
  intro scalar d e s h hfinal
  by_cases hbase : d.cursor.base.peek? = some (.identifier name)
  · rw [inlineSource, if_pos hbase]
    exact rereads_inlined hliteral hcompatible hsound hentry hname hvalue h hfinal hbase
  · rw [inlineSource, if_neg hbase]
    intro gap u stop hgap hstop hinside hrest v i hi
    obtain ⟨w, hw, hother⟩ := avoids_of_source h hi.parameters.inStep hbase
    have hagain := rereads_source h (hfinal.compatible hcompatible) hgap hstop hinside hrest v i hi
    exact hagain.weaken fun s' j ⟨hjoined, hextends, halike⟩ =>
      ⟨hjoined, hextends, halike.sameValue, w, halike.register.denotes hw, hother⟩

end Compile

end FragmentAssembly

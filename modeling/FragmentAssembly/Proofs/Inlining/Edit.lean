import FragmentAssembly.Proofs.Program.Concatenation
import FragmentAssembly.Proofs.Program.Fetch

/-!
# Texts with other operands

A text is written once more with something else in the place of its source operands.  If each of
them is read in the same way as before, then so is every statement.
-/

namespace FragmentAssembly

/-- The text between two places, the second of which lies behind the first. -/
def Cursor.upTo (k l : Cursor) : List Char :=
  k.rest.take (k.rest.length - l.rest.length)

theorem Cursor.upTo_eq {k l : Cursor} {text : List Char} (h : k.rest = text ++ l.rest) :
    k.upTo l = text := by
  rw [upTo, h, List.length_append, Nat.add_sub_cancel, List.take_left]

theorem Cursor.drop_upTo {k l : Cursor} {front back : List Char}
    (h : k.rest = front ++ back ++ l.rest) : (k.upTo l).drop front.length = back := by
  rw [upTo_eq h, List.drop_left]

/-! ## Edited texts -/

def Operands.isScalar : Operands → Bool
  | scalars _ => true
  | _ => false

namespace Edit

-- what is written for a source operand that stands between two places
variable (edit : Cursor → Cursor → List Char)

def source (scalar : Bool) : Compile (List Char) := do
  let start := (← get).cursor
  let _ ← Compile.source scalar
  return edit start (← get).cursor

/-- Source operands with the commas between them. -/
def sources (scalar : Bool) : Nat → Compile (List Char)
  | 0 => return []
  | 1 => source edit scalar
  | count + 2 => do
    let first ← source edit scalar
    let start := (← get).cursor
    Scan.expect ","
    let comma := start.upTo (← get).cursor
    return first ++ comma ++ (← sources scalar (count + 1))

/-- A statement that ends at `stop`.  Source operands stand behind a destination only. -/
def statement (stop : Cursor) : Compile (List Char) := do
  let start := (← get).cursor
  match readMnemonic (← Compile.statementName) with
  | .error _ => return start.upTo stop
  | .ok (pattern, _) =>
    if pattern.writes then
      let _ ← Compile.destination
      Scan.expect ","
      let first := start.upTo (← get).cursor
      let operands ← sources edit pattern.operands.isScalar pattern.operands.count
      return first ++ operands ++ (← get).cursor.upTo stop
    else
      return start.upTo stop

/-- Statements after `count` instructions, and all that stands behind them. -/
def statements : Nat → Nat → Compile (List Char)
  | 0, _ => return []
  | fuel + 1, count => do
    let d ← get
    match ← Compile.statement count with
    | .finish _ => return d.cursor.rest
    | added =>
      let e ← get
      set d
      let text ← statement edit e.cursor
      set e
      return text ++ (← statements fuel (count + added.body.length))

end Edit

/-! ## What corresponds -/

namespace Compile

/-- Instructions with sources that correspond, and otherwise the same up to their positions. -/
structure Instruction.Matches (S : Comparison Source) (s t : ParameterTable)
    (a b : Instruction) : Prop where
  sources : List.Forall₂ (fun x y => S x y s t) a.sources b.sources
  same : b = { a with sources := b.sources, position := b.position }

/-- What statements other than the `END` add is the same, up to the sources that correspond. -/
inductive Statement.Matches (S : Comparison Source) (s t : ParameterTable) :
    Statement → Statement → Prop where
  | definition : Matches S s t .definition .definition
  | instruction {ins ins' : Instruction} (h : Instruction.Matches S s t ins ins') :
    Matches S s t (.instruction ins) (.instruction ins')

section Matching

variable {S : Comparison Source} {s s' t t' : ParameterTable}

theorem Instruction.Matches.extends (hS : S.Lasts) {a b : Instruction}
    (h : Instruction.Matches S s t a b) (hs : s'.Extends s) (ht : t'.Extends t) :
    Instruction.Matches S s' t' a b :=
  { h with sources := h.sources.imp fun _ _ hsource => hS hsource hs ht }

theorem Instruction.Matches.imp {S' : Comparison Source} {a b : Instruction}
    (h : Instruction.Matches S s t a b) (hS : ∀ {x y}, S x y s t → S' x y s t) :
    Instruction.Matches S' s t a b :=
  { h with sources := h.sources.imp fun _ _ => hS }

theorem Instruction.Matches.of_alike {a b : Instruction} (h : a.Alike s t b)
    (hplain : a.sources = []) : Instruction.Matches S s t a b := by
  have hsources : b.sources = [] := by
    have hall := h.sources
    rw [hplain] at hall
    exact List.forall₂_nil_left_iff.mp hall
  refine ⟨by rw [hplain, hsources]; exact .nil, ?_⟩
  obtain ⟨opcode, sources, destination, condition, precision, saturate, update, texture,
    position⟩ := b
  cases h.opcode
  cases h.destination
  cases h.condition
  cases h.precision
  cases h.saturate
  cases h.updateCodes
  cases h.texture
  rfl

end Matching

/-! ## Reading again -/

section Again

variable {α β : Type} {m n : Compile α} {f : α → Compile β} {V : Comparison α} {W : Comparison β}
  {i j k : Inventory} {a : α} {b : β} {cs mid rest : List Char} {d e : Draft}

/-- What was read with the inventory `i`, where it led to `a` and `j`, is read again from `cs` up
to `rest`, if the inventories only differ in literals. -/
def Again (m : Compile α) (V : Comparison α) (i j : Inventory) (a : α)
    (cs rest : List Char) : Prop :=
  ∀ i', Inventory.Joined {} i i' → m.Builds cs i' True rest fun a' j' =>
    Inventory.Joined {} j j' ∧ j'.parameters.Extends i'.parameters ∧
      V a a' j.parameters j'.parameters

theorem Again.pure {a' : α} (h : ∀ t, V a a' i.parameters t) :
    Again (Pure.pure a') V i i a cs cs :=
  fun _ hi => .pure ⟨hi, .refl _, h _⟩ cs

/-- Whatever was found out first is still true in the end. -/
theorem Again.bind (hm : Again m V i j a cs mid) (hlasts : V.Lasts)
    (hextends : k.parameters.Extends j.parameters)
    (hf : ∀ a', Again (f a') (fun b b' s t => V a a' s t → W b b' s t) j k b mid rest) :
    Again (m >>= f) W i k b cs rest := by
  intro i' hi
  refine (hm i' hi).andThen fun a' j' hj => ?_
  obtain ⟨hjoined, hextends', hV⟩ := hj
  refine (hf a' j' hjoined).weaken fun b' k' hk => ?_
  exact ⟨hk.1, hextends'.trans hk.2.1, hk.2.2 (hlasts hV hextends hk.2.1)⟩

/-- What was returned first is the same. -/
theorem Again.andThen (hm : Again m same i j a cs mid)
    (hf : Again (f a) W j k b mid rest) : Again (m >>= f) W i k b cs rest := by
  intro i' hi
  refine (hm i' hi).andThen fun a' j' hj => ?_
  obtain ⟨hjoined, hextends, ha⟩ := hj
  rw [show a' = a from ha]
  exact (hf j' hjoined).weaken fun b' k' hk => ⟨hk.1, hextends.trans hk.2.1, hk.2.2⟩

theorem Again.read {m : Scan α} (hm : m.Reads cs True a mid)
    (hf : Again (f a) W i k b mid rest) : Again (liftM m >>= f) W i k b cs rest :=
  fun i' hi => Builds.read hm (hf i' hi)

theorem Again.within {c : Construct} (h : Again m V i j a cs rest) :
    Again (FragmentAssembly.within c m) V i j a cs rest :=
  fun i' hi => (h i' hi).within

theorem Again.look {f : Draft → Compile β} (hf : ∀ d, Again (f d) W i k b cs rest) :
    Again (get >>= f) W i k b cs rest :=
  fun i' hi => Builds.look fun d _ _ => hf d i' hi

theorem Again.congr_text {cs' : List Char} (hcs : Token.visible cs' = Token.visible cs)
    (h : Again m V i j a cs rest) : Again m V i j a cs' rest :=
  fun i' hi => (h i' hi).congr_text hcs

theorem Again.weaken {V' : Comparison α} (h : Again m V i j a cs rest)
    (hV : ∀ {a' t}, V a a' j.parameters t → V' a a' j.parameters t) :
    Again m V' i j a cs rest :=
  fun i' hi => (h i' hi).weaken fun _ _ hj => ⟨hj.1, hj.2.1, hV hj.2.2⟩

/-- An item at the end. -/
theorem Again.followedBy {γ : Type} {m : Scan γ} {c : γ} (h : Again n V i j a cs mid)
    (hm : m.Reads mid True c rest) : Again (do
        let a ← n
        let _ ← (liftM m : Compile γ)
        return a) V i j a cs rest :=
  fun i' hi => (h i' hi).followedBy fun _ _ hj => Builds.read hm (.pure hj rest)

/-- In front of a stop an action that carries over reads again from the same text. -/
theorem Carries.again (hm : Carries m n V) (hok : m d = .ok a e)
    (hcompatible : Inventory.Compatible {} e.inventory) {stop : Char}
    (hstop : Token.isStop stop = true) {text u : List Char}
    (hrest : e.cursor.ahead = rest ++ stop :: u) (htext : d.cursor.ahead = text ++ stop :: u)
    (v : List Char) :
    Again n V d.inventory e.inventory a (text ++ stop :: v) (rest ++ stop :: v) := by
  obtain ⟨text', htext', hbuilds⟩ := (hm hok).2 hstop hrest
  obtain rfl : text' = text := List.append_cancel_right (htext'.symm.trans htext)
  exact fun i hi => (hbuilds v {} i hi).congr_possible (iff_true_intro hcompatible).symm

/-- What was read from `d` to `e` is read again from `text`, if the same stop comes behind it. -/
def Rereads (m : Compile α) (V : Comparison α) (d e : Draft) (a : α) (text : List Char) : Prop :=
  ∀ ⦃gap u : List Char⦄ ⦃stop : Char⦄, Token.IsGap gap → Token.isStop stop = true →
    e.cursor.inside = [] → e.cursor.rest = gap ++ stop :: u →
      ∀ v, Again m V d.inventory e.inventory a (text ++ (gap ++ stop :: v)) (stop :: v)

end Again

end Compile

/-! ## Stops behind gaps -/

namespace Token

theorem visible_of_isStop {stop : Char} (h : isStop stop = true) (u : List Char) :
    visible (stop :: u) = stop :: u :=
  visible_of_isSolid (eq_of_isStop (p := fun c => isSolid (c :: u)) rfl h)

/-- What shows in front of a stop shows as well if something else stands behind the stop. -/
theorem visible_recut {cs text u : List Char} {stop : Char}
    (h : visible (cs ++ stop :: u) = text ++ stop :: u) (v : List Char) :
    visible (cs ++ stop :: v) = visible (text ++ stop :: v) := by
  have hne : visible (cs ++ stop :: u) ≠ [] := by
    rw [h]
    exact List.append_ne_nil_of_right_ne_nil _ (List.cons_ne_nil _ _)
  obtain ⟨gap, hgap, heq⟩ := exists_gap_of_ne_nil hne
  rw [h, ← List.append_assoc] at heq
  rw [List.append_cancel_right heq, List.append_assoc, hgap.visible_append]

end Token

namespace Compile

theorem ahead_of_gap {k : Cursor} {gap u : List Char} {stop : Char} (hgap : Token.IsGap gap)
    (hstop : Token.isStop stop = true) (hinside : k.inside = [])
    (hrest : k.rest = gap ++ stop :: u) : k.ahead = [] ++ stop :: u := by
  rw [Cursor.ahead_of_inside hinside, hrest, hgap.visible_append, Token.visible_of_isStop hstop,
    List.nil_append]

/-- The text up to a mark and the mark itself. -/
theorem exists_upTo {k l : Cursor} {text : List Char} {c : Char} (hc : Token.isStop c = true)
    (h : k.ahead = text ++ c :: l.rest) : ∃ gap, Token.IsGap gap ∧
      k.rest = gap ++ (text ++ c :: l.rest) ∧ k.upTo l = gap ++ (text ++ [c]) := by
  obtain ⟨gap, hgap, hrest⟩ := rest_of_ahead (Scan.inside_of_stop hc h) h
  refine ⟨gap, hgap, hrest, Cursor.upTo_eq ?_⟩
  rw [hrest]
  simp

theorem visible_upTo {k l : Cursor} {text : List Char} {c : Char} (hc : Token.isStop c = true)
    (h : k.ahead = text ++ c :: l.rest) (behind : List Char) :
    Token.visible (k.upTo l ++ behind) = Token.visible (text ++ c :: behind) := by
  obtain ⟨gap, hgap, -, hupTo⟩ := exists_upTo hc h
  rw [hupTo, List.append_assoc, hgap.visible_append]
  simp

section Sources

variable {S : Comparison Source} {final : Inventory} {edit : Cursor → Cursor → List Char}
  {scalar : Bool} {d e : Draft}

theorem carries_source (scalar : Bool) :
    Carries (source scalar) (source scalar) fun r r' s t => r.Alike s t r' := by
  cases scalar
  · exact carries_vectorSource
  · exact carries_scalarSource

theorem suffix_of_source {s : Source} (hinside : d.cursor.inside = [])
    (h : source scalar d = .ok s e) : e.cursor.rest <:+ d.cursor.rest :=
  (kept_of_together (fun _ hc => (follows_source hc scalar).together)
    (walk_suffix d.cursor.rest).abreast ⟨hinside, List.suffix_refl _⟩ h).2

/-- Source operands that are left as they are are read again. -/
theorem rereads_source {s : Source} (h : source scalar d = .ok s e)
    (hcompatible : Inventory.Compatible {} e.inventory) :
    Rereads (source scalar) (fun r r' s t => r.Alike s t r') d e s
      (d.cursor.upTo e.cursor) := by
  intro gap u stop hgap hstop hinside hrest v
  have hahead := ahead_of_gap hgap hstop hinside hrest
  obtain ⟨text, htext, -⟩ := (carries_source scalar h).2 hstop hahead
  have hagain := (carries_source scalar).again h hcompatible hstop hahead htext v
  have hbegun : d.cursor.inside = [] := Scan.inside_of_stop hstop htext
  obtain ⟨taken, htaken⟩ := suffix_of_source hbegun h
  rw [Cursor.ahead_of_inside hbegun, ← htaken, hrest, ← List.append_assoc] at htext
  rw [Cursor.upTo_eq htaken.symm, ← List.append_assoc]
  exact hagain.congr_text (Token.visible_recut htext v)

/-- Each source operand is read again from what is written for it, as long as no more is entered
than in the end. -/
def Edit.Keeps (edit : Cursor → Cursor → List Char) (S : Comparison Source)
    (final : Inventory) : Prop :=
  ∀ ⦃scalar : Bool⦄ ⦃d e : Draft⦄ ⦃s : Source⦄, source scalar d = .ok s e →
    e.inventory.Grows final → Rereads (source scalar) S d e s (edit d.cursor e.cursor)

theorem editSource_eq {s : Source} (h : source scalar d = .ok s e) :
    Edit.source edit scalar d = .ok (edit d.cursor e.cursor) e := by
  simp only [Edit.source, bind_eq_ok, get_eq_ok, pure_eq_ok]
  exact ⟨d, d, ⟨rfl, rfl⟩, s, e, h, e, e, ⟨rfl, rfl⟩, rfl, rfl⟩

/-- The operands of a list are read again from what is written for them. -/
theorem rereads_commaSeparated (hS : S.Lasts) (hedit : Edit.Keeps edit S final) {count : Nat}
    {sources : List Source} (h : commaSeparated (source scalar) count d = .ok sources e)
    (hfinal : e.inventory.Grows final) : ∃ text, Edit.sources edit scalar count d = .ok text e ∧
      Rereads (commaSeparated (source scalar) count)
        (fun as as' s t => List.Forall₂ (fun a a' => S a a' s t) as as') d e sources text := by
  induction count generalizing d sources with
  | zero =>
    obtain ⟨rfl, rfl⟩ := pure_eq_ok.mp h
    refine ⟨[], rfl, fun gap u stop hgap _ _ _ v => ?_⟩
    exact (Again.pure fun _ => .nil).congr_text (hgap.visible_append _)
  | succ count ih =>
    cases count with
    | zero =>
      obtain ⟨first, f, hfirst, hlast⟩ := bind_eq_ok.mp h
      obtain ⟨rfl, rfl⟩ := pure_eq_ok.mp hlast
      refine ⟨_, editSource_eq hfirst, fun gap u stop hgap hstop hinside hrest v => ?_⟩
      refine (hedit hfirst hfinal hgap hstop hinside hrest v).bind hS (.refl _) fun first' => ?_
      exact Again.pure fun _ hsource => .cons hsource .nil
    | succ count =>
      simp only [commaSeparated, bind_eq_ok, lift_eq_ok, pure_eq_ok] at h
      obtain ⟨first, f, hfirst, _, _, ⟨k, hcomma, rfl⟩, more, _, hmore, rfl, rfl⟩ := h
      obtain ⟨hgrows, -⟩ := carries_commaSeparated lasts_source (carries_source scalar)
        (count + 1) hmore
      obtain ⟨text, htext, hrereads⟩ := ih hmore
      have hahead : f.cursor.ahead = [] ++ ',' :: k.rest := ahead_of_expect rfl hcomma
      obtain ⟨gap', hgap', hcommaRest, hcommaText⟩ := exists_upTo rfl hahead
      refine ⟨edit d.cursor f.cursor ++ (gap' ++ [',']) ++ text, ?_,
        fun gap u stop hgap hstop hinside hrest v => ?_⟩
      · simp only [Edit.sources, bind_eq_ok, get_eq_ok, lift_eq_ok, pure_eq_ok]
        exact ⟨_, f, editSource_eq hfirst, f, f, ⟨rfl, rfl⟩, (), _, ⟨k, hcomma, rfl⟩, _, _,
          ⟨rfl, rfl⟩, text, _, htext, by rw [hcommaText, List.nil_append], rfl⟩
      · have hsplit : edit d.cursor f.cursor ++ (gap' ++ [',']) ++ text ++ (gap ++ stop :: v) =
            edit d.cursor f.cursor ++ (gap' ++ ',' :: (text ++ (gap ++ stop :: v))) := by
          simp
        rw [hsplit]
        -- the comma is the stop behind the first operand
        refine (hedit hfirst (hgrows.trans hfinal) hgap' rfl (Scan.inside_of_stop rfl hahead)
          hcommaRest _).bind hS hgrows.onward fun first' => ?_
        refine Again.read (Scan.reads_expect_char rfl rfl _) ?_
        refine (hrereads hgap hstop hinside hrest v).bind hS.forall₂ (.refl _) fun more' => ?_
        exact Again.pure fun _ hsources hfirst => .cons hfirst hsources

end Sources

/-! ## Instructions -/

section Statements

variable {S : Comparison Source} {final : Inventory} {edit : Cursor → Cursor → List Char}
  {d e f : Draft} {name : String} {k l : Cursor}

/-- What stands in front of the source operands is read again, whatever comes behind the comma. -/
theorem again_front {target : Destination × CondTest}
    (hname : statementName d.cursor = .ok name k)
    (htarget : destination { d with cursor := k } = .ok target f)
    (hcomma : Scan.expect "," f.cursor = .ok () l)
    (hcompatible : Inventory.Compatible {} f.inventory) : ∃ mid, ∀ v,
      statementName.Reads (d.cursor.upTo l ++ v) True name (mid ++ ',' :: v) ∧
        Again destination same d.inventory f.inventory target (mid ++ ',' :: v) (',' :: v) := by
  have hahead : f.cursor.ahead = [] ++ ',' :: l.rest := ahead_of_expect rfl hcomma
  obtain ⟨mid, hmid, -⟩ := (carries_destination htarget).2 rfl hahead
  obtain ⟨text, htext, hreads⟩ := isLocal_statementName hname rfl hmid
  exact ⟨mid, fun v => ⟨(hreads v).congr_text (visible_upTo rfl htext v),
    carries_destination.again htarget hcompatible rfl hahead hmid v⟩⟩

/-- What stands behind the source operands. -/
def tailOf (ins : Instruction) : Operands → Compile Instruction
  | .lookup _ => do
    Scan.expect ","
    let image ← within .textureImage textureImage
    return { ins with texture := some image }
  | _ => return ins

theorem operands_eq {shape : Operands} (hshape : shape ≠ .condition) (ins : Instruction) :
    operands ins shape = commaSeparated (source shape.isScalar) shape.count >>= fun sources =>
      tailOf { ins with sources } shape := by
  cases shape with
  | vectors count => rfl
  | scalars count => rfl
  | lookup count => rfl
  | condition => exact absurd rfl hshape

theorem carries_tailOf (ins ins' : Instruction) (shape : Operands) :
    Carries (tailOf ins shape) (tailOf ins' shape) fun r r' s t =>
      Instruction.Matches S s t ins ins' → Instruction.Matches S s t r r' := by
  cases shape with
  | lookup count =>
    refine (Carries.lift (Scan.isLocal_expect rfl)).andThen fun _ =>
      carries_textureImage.within.andThen fun image => .pure fun s t h => ⟨h.sources, ?_⟩
    dsimp only
    rw [h.same]
  | vectors count => exact .pure fun _ _ => id
  | scalars count => exact .pure fun _ _ => id
  | condition => exact .pure fun _ _ => id

/-- Behind the source operands a stop comes next. -/
theorem stop_of_tailOf {ins filled : Instruction} {shape : Operands}
    (h : tailOf ins shape d = .ok filled e) (hend : Scan.expect ";" e.cursor = .ok () l) :
    ∃ stop u, Token.isStop stop = true ∧ d.cursor.ahead = stop :: u := by
  cases shape with
  | lookup count =>
    simp only [tailOf, bind_eq_ok, lift_eq_ok] at h
    obtain ⟨_, _, ⟨k, hcomma, rfl⟩, -⟩ := h
    exact ⟨',', _, rfl, ahead_of_expect rfl hcomma⟩
  | vectors count | scalars count | condition =>
    obtain ⟨-, rfl⟩ := pure_eq_ok.mp h
    exact ⟨';', _, rfl, ahead_of_expect rfl hend⟩

/-- An instruction with the source operands behind its destination. -/
def begun (pattern : Pattern) (suffixes : Suffixes) (target : Destination × CondTest)
    (sources : List Source) (position : Nat) : Instruction where
  opcode := pattern.opcode
  sources := sources
  destination := some target.1
  condition := target.2
  precision := suffixes.precision.getD .full
  saturate := suffixes.saturate
  updateCodes := suffixes.update
  position := position

/-- The rest of an instruction that has a destination. -/
def operation (pattern : Pattern) (suffixes : Suffixes) (position : Nat) :
    Compile Instruction := do
  let target ← within .destinationRegister destination
  Scan.expect ","
  let sources ← commaSeparated (source pattern.operands.isScalar) pattern.operands.count
  let ins ← tailOf (begun pattern suffixes target sources position) pattern.operands
  Scan.expect ";"
  return ins

theorem instruction_of_writes {pattern : Pattern} {suffixes : Suffixes}
    (hread : readMnemonic name = .ok (pattern, suffixes)) (hwrites : pattern.writes = true) :
    instruction name = get >>= fun d => operation pattern suffixes d.cursor.tokenStart := by
  have hshape : pattern.operands ≠ .condition := by
    have hlisted : ∀ p ∈ Pattern.table, p.writes = true → p.operands ≠ .condition := by decide
    exact hlisted pattern (readMnemonic_eq_ok.mp hread).listed hwrites
  unfold instruction operation
  simp only [hread, destinationOf, hwrites, if_true, operands_eq hshape, bind_assoc, pure_bind]
  rfl

/-- The operands of an instruction are read again from what is written for them. -/
theorem again_operation (hS : S.Lasts) (hedit : Edit.Keeps edit S final)
    (hcompatible : Inventory.Compatible {} final) {pattern : Pattern} {suffixes : Suffixes}
    (hread : readMnemonic name = .ok (pattern, suffixes)) (hwrites : pattern.writes = true)
    (hname : statementName d.cursor = .ok name k) {ins : Instruction} {position : Nat}
    (h : operation pattern suffixes position { d with cursor := k } = .ok ins e)
    (hfinal : e.inventory.Grows final) :
    ∃ text g, Edit.statement edit e.cursor d = .ok text g ∧ ∀ v, ∃ mid,
      statementName.Reads (text ++ v) True name mid ∧ ∀ position',
        Again (operation pattern suffixes position')
          (fun a b s t => Instruction.Matches S s t a b) d.inventory e.inventory ins mid v := by
  -- what was read, part by part
  simp only [operation, bind_eq_ok, lift_eq_ok, pure_eq_ok, within_eq_ok] at h
  obtain ⟨target, f, htarget, _, _, ⟨l, hcomma, rfl⟩, sources, g, hsources, filled, r, htail, _, _,
    ⟨m, hend, rfl⟩, rfl, rfl⟩ := h
  obtain ⟨hgrows, -⟩ := carries_commaSeparated lasts_source (carries_source _) _ hsources
  have hcarries := fun target' => carries_tailOf (S := S) (begun pattern suffixes target sources
    position) target' pattern.operands
  obtain ⟨hgrows', htext⟩ := hcarries (begun pattern suffixes target sources position) htail
  obtain ⟨operands, hoperands, hrereads⟩ :=
    rereads_commaSeparated hS hedit hsources (hgrows'.trans hfinal)
  obtain ⟨mid, hfront⟩ := again_front hname htarget hcomma
    ((hgrows.trans (hgrows'.trans hfinal)).compatible hcompatible)
  have hahead : r.cursor.ahead = [] ++ ';' :: m.rest := ahead_of_expect rfl hend
  obtain ⟨tail, htail', -⟩ := htext rfl hahead
  obtain ⟨gap, hgap, hrest, hlast⟩ := exists_upTo rfl htail'
  obtain ⟨stop, u, hstop, hnext⟩ := stop_of_tailOf htail hend
  refine ⟨d.cursor.upTo l ++ operands ++ (gap ++ (tail ++ [';'])), g, ?_, fun v => ?_⟩
  · simp only [Edit.statement, bind_eq_ok, get_eq_ok, lift_eq_ok]
    refine ⟨d, d, ⟨rfl, rfl⟩, name, _, ⟨k, hname, rfl⟩, ?_⟩
    simp only [hread, hwrites, if_true, bind_eq_ok, get_eq_ok, lift_eq_ok, pure_eq_ok]
    exact ⟨target, f, htarget, (), _, ⟨l, hcomma, rfl⟩, _, _, ⟨rfl, rfl⟩, operands, g, hoperands,
      g, g, ⟨rfl, rfl⟩, by rw [hlast], rfl⟩
  · obtain ⟨w, hw⟩ : ∃ w, tail ++ ';' :: v = stop :: w := by
      rw [htail'] at hnext
      cases tail with
      | nil => exact ⟨v, by rw [(List.cons.inj hnext).1]; rfl⟩
      | cons c tail => exact ⟨tail ++ ';' :: v, by rw [(List.cons.inj hnext).1]; rfl⟩
    rw [← htail', hnext] at hrest
    have hsplit : d.cursor.upTo l ++ operands ++ (gap ++ (tail ++ [';'])) ++ v =
        d.cursor.upTo l ++ (operands ++ (gap ++ stop :: w)) := by
      rw [← hw]
      simp
    rw [hsplit]
    refine ⟨_, (hfront _).1, fun position' => (hfront _).2.within.andThen ?_⟩
    refine Again.read (Scan.reads_expect_char rfl rfl _) ?_
    refine (hrereads hgap hstop (Scan.inside_of_stop rfl htail') hrest w).bind hS.forall₂
      hgrows'.onward fun sources' => ?_
    rw [← hw]
    have hagain := (hcarries (begun pattern suffixes target sources' position')).again htail
      (hfinal.compatible hcompatible) rfl hahead htail' v
    exact (hagain.followedBy (Scan.reads_expect_char rfl rfl v)).weaken
      fun hmatches hsources => hmatches ⟨hsources, rfl⟩

/-! ## Statements -/

/-- A statement without source operands is read again as it is. -/
theorem again_kept {count : Nat} {added : Statement} (h : statement count d = .ok added e)
    (hinner : ∀ ins, added ≠ .finish ins) (hplain : ∀ ins ∈ added.body, ins.sources = [])
    (hcompatible : Inventory.Compatible {} e.inventory)
    (v : List Char) {count' : Nat} (hcount : count' < maxInstructions) :
    Again (statement count') (fun a b s t => Statement.Matches S s t a b) d.inventory e.inventory
      added (d.cursor.upTo e.cursor ++ v) v := by
  obtain ⟨-, text, htext, hbuilds⟩ := builds_statement_again h hinner
  intro i hi
  refine (((hbuilds v {} i count' hcount hi).congr_possible
    (iff_true_intro hcompatible).symm).congr_text (visible_upTo rfl htext v)).weaken ?_
  rintro added' j ⟨hjoined, hextends, hadded⟩
  refine ⟨hjoined, hextends, ?_⟩
  cases hadded with
  | definition => exact .definition
  | instruction hins => exact .instruction (.of_alike hins (hplain _ (List.mem_singleton_self _)))

/-- The mnemonic of an instruction that was read, and the instruction behind it. -/
theorem exists_instruction {count : Nat} {added : Statement} (h : statement count d = .ok added e)
    (hname : statementName d.cursor = .ok name k) (hother : name ∉ keywords) :
    ∃ ins f, added = .instruction ins ∧ instruction name { d with cursor := k } = .ok ins f ∧
      e.cursor = f.cursor ∧ e.inventory = f.inventory := by
  simp only [keywords, List.mem_cons, List.not_mem_nil, or_false, not_or] at hother
  obtain ⟨-, found, l, hfound, hnamed⟩ := named_of_statement h
  obtain ⟨rfl, rfl⟩ := EStateM.Result.ok.inj (hfound.symm.trans hname)
  cases hnamed with
  | definition hkeyword =>
    rcases hkeyword with ⟨hdefine, -⟩ | ⟨hdeclare, -⟩
    · exact absurd hdefine hother.1
    · exact absurd hdeclare hother.2.1
  | finish hend => exact absurd hend hother.2.2
  | instruction _ _ read => exact ⟨_, _, rfl, read, rfl, rfl⟩

/-- Source operands stand behind a destination only. -/
theorem sources_of_statement {count : Nat} {added : Statement}
    (h : statement count d = .ok added e) (hname : statementName d.cursor = .ok name k)
    (hreads : ¬∃ pattern suffixes, readMnemonic name = .ok (pattern, suffixes) ∧
      pattern.writes = true) : ∀ ins ∈ added.body, ins.sources = [] := by
  obtain ⟨-, found, l, hfound, hnamed⟩ := named_of_statement h
  obtain ⟨rfl, rfl⟩ := EStateM.Result.ok.inj (hname.symm.trans hfound)
  cases hnamed with
  | definition | finish => exact fun ins hins => (List.not_mem_nil hins).elim
  | instruction _ _ read =>
    intro ins hins
    rw [List.mem_singleton.mp hins]
    simp only [instruction, bind_eq_ok, get_eq_ok] at read
    obtain ⟨_, _, ⟨rfl, rfl⟩, read⟩ := read
    cases hread : readMnemonic name with
    | error cause =>
      rw [hread] at read
      exact (lift_fail_ne_ok read).elim
    | ok found =>
      obtain ⟨pattern, suffixes⟩ := found
      have hplain : pattern.writes = false :=
        Bool.eq_false_iff.mpr fun hwrites => hreads ⟨pattern, suffixes, hread, hwrites⟩
      have hshape : ∀ p ∈ Pattern.table, p.writes = false → p.operands = .condition := by decide
      rw [hread] at read
      simp only [hplain, hshape pattern (readMnemonic_eq_ok.mp hread).listed hplain, destinationOf,
        operands, Bool.false_eq_true, if_false, bind_eq_ok, pure_eq_ok, lift_eq_ok] at read
      obtain ⟨_, _, ⟨rfl, rfl⟩, _, _, ⟨_, _, _, rfl, rfl⟩, _, _, _, rfl, rfl⟩ := read
      rfl

/-- A statement is read again from what is written for it. -/
theorem again_statement (hS : S.Lasts) (hedit : Edit.Keeps edit S final)
    (hcompatible : Inventory.Compatible {} final) {count : Nat}
    {added : Statement} (h : statement count d = .ok added e)
    (hinner : ∀ ins, added ≠ .finish ins) (hfinal : e.inventory.Grows final) :
    ∃ text g, Edit.statement edit e.cursor d = .ok text g ∧ ∀ v,
      Again (statement count) (fun a b s t => Statement.Matches S s t a b) d.inventory
        e.inventory added (text ++ v) v := by
  obtain ⟨hcount, -⟩ := assembles_of_statement h
  obtain ⟨name, _, hfirst, -⟩ := bind_eq_ok.mp h
  obtain ⟨k, hname, rfl⟩ := lift_eq_ok.mp hfirst
  -- only a statement with source operands is written in another way
  by_cases hwrites : ∃ pattern suffixes, readMnemonic name = .ok (pattern, suffixes) ∧
      pattern.writes = true
  · obtain ⟨pattern, suffixes, hread, hwrites⟩ := hwrites
    have hother : name ∉ keywords := by
      have hlisted : ∀ name ∈ keywords, (readMnemonic name).isOk = false := by decide
      intro hmem
      have herror := hlisted name hmem
      rw [hread] at herror
      cases herror
    obtain ⟨ins, f, rfl, hins, hcursor, hinventory⟩ := exists_instruction h hname hother
    rw [instruction_of_writes hread hwrites] at hins
    obtain ⟨text, g, htext, hagain⟩ := again_operation hS hedit hcompatible hread hwrites hname
      hins (hinventory ▸ hfinal)
    rw [hcursor, hinventory]
    refine ⟨text, g, htext, fun v => ?_⟩
    obtain ⟨mid, hreads, hagain⟩ := hagain v
    simp only [keywords, List.mem_cons, List.not_mem_nil, or_false, not_or] at hother
    refine Again.read hreads ?_
    rw [if_neg (Nat.not_le_of_lt hcount), if_neg hother.1, if_neg hother.2.1, if_neg hother.2.2,
      instruction_of_writes hread hwrites]
    intro i hi
    refine ((Again.look fun d' => hagain d'.cursor.tokenStart).within i hi).followedBy
      fun ins' j hj => Builds.look fun d' _ _ => ?_
    refine (builds_note _).andThen ?_
    rintro _ _ rfl
    exact .pure ⟨hj.1, hj.2.1, .instruction hj.2.2⟩ v
  · refine ⟨_, { d with cursor := k }, ?_, fun v =>
      again_kept h hinner (sources_of_statement h hname hwrites)
        (hfinal.compatible hcompatible) v hcount⟩
    simp only [Edit.statement, bind_eq_ok, get_eq_ok, lift_eq_ok]
    refine ⟨d, d, ⟨rfl, rfl⟩, name, _, ⟨k, hname, rfl⟩, ?_⟩
    cases hread : readMnemonic name with
    | error cause => rfl
    | ok found =>
      have hplain : ¬found.1.writes = true := fun h => hwrites ⟨found.1, found.2, hread, h⟩
      dsimp only
      rw [if_neg hplain]
      rfl

theorem grows_of_statements {fuel count : Nat} {instructions : List Instruction}
    (h : statements fuel count d = .ok instructions e) : d.inventory.Grows e.inventory := by
  obtain ⟨body, ins, f, -, hpasses, hlast⟩ := passes_of_statements h
  obtain ⟨-, -, hsame⟩ := assembles_of_statement hlast
  rw [← hsame]
  exact hpasses.again.1

theorem Statement.Matches.body {s t : ParameterTable} {added added' : Statement}
    (h : Statement.Matches S s t added added') :
    List.Forall₂ (Instruction.Matches S s t) added.body added'.body := by
  cases h with
  | definition => exact .nil
  | instruction h => exact .cons h .nil

/-- The `END` is read again, with whatever stands behind it. -/
theorem again_finish {count : Nat} {ins : Instruction} (h : statement count d = .ok (.finish ins) e)
    {d' : Draft} (hd' : d'.cursor.ahead = Token.visible d.cursor.rest) :
    ∃ ins' f, statement count d' = .ok (.finish ins') f ∧ f.inventory = d'.inventory ∧
      ∀ s t, Instruction.Matches S s t ins ins' := by
  obtain ⟨trailing, hahead, htrailing, hends⟩ := ahead_of_finish h
  obtain ⟨hcount, ⟨position, rfl⟩, -⟩ := assembles_of_statement h
  have hsees : d'.cursor.ahead = Token.visible ("END".toList ++ trailing) := by
    have hinside : d.cursor.inside = [] :=
      Cursor.inside_of_mem (c := 'E') (by decide) (by rw [hahead]; simp)
    rw [hd', ← hahead, Cursor.visible_ahead hinside, Cursor.ahead_of_inside hinside]
  obtain ⟨_, f, hlast, -, ⟨position', rfl⟩, hkept⟩ :=
    (builds_statement_finish hcount htrailing.visible_eq_nil hends d' hsees rfl).success trivial
  exact ⟨_, f, hlast, hkept, fun _ _ => ⟨.nil, rfl⟩⟩

/-- All statements are read again, and lead to the same instructions up to the sources that
correspond. -/
theorem again_statements (hS : S.Lasts) (hedit : Edit.Keeps edit S final)
    (hcompatible : Inventory.Compatible {} final) {fuel count : Nat}
    {instructions : List Instruction} (h : statements fuel count d = .ok instructions e)
    (hfinal : e.inventory.Grows final) :
    ∃ text g, Edit.statements edit fuel count d = .ok text g ∧ ∀ d' : Draft,
      Inventory.Joined {} d.inventory d'.inventory → d'.cursor.ahead = Token.visible text →
        ∃ body e' ins f', Passes count d' body e' ∧
          statement (count + body.length) e' = .ok (.finish ins) f' ∧
          Inventory.Joined {} e.inventory f'.inventory ∧ f'.parameters.Extends d'.parameters ∧
          List.Forall₂ (Instruction.Matches S e.parameters f'.parameters) instructions
            (body ++ [ins]) := by
  -- what is edited follows the fuel of the first reading, and what is read again needs none
  induction fuel generalizing d count instructions with
  | zero => exact (lift_fail_ne_ok h).elim
  | succ fuel ih =>
    obtain ⟨added, m, hadded, hmore⟩ := bind_eq_ok.mp h
    by_cases hfinish : ∃ ins, added = .finish ins
    · -- what stands behind the `END` is kept
      obtain ⟨ins, rfl⟩ := hfinish
      obtain ⟨rfl, rfl⟩ := pure_eq_ok.mp hmore
      obtain ⟨-, -, hsame⟩ := assembles_of_statement hadded
      refine ⟨d.cursor.rest, m, ?_, fun d' hjoined hd' => ?_⟩
      · simp only [Edit.statements, bind_eq_ok, get_eq_ok]
        exact ⟨d, d, ⟨rfl, rfl⟩, _, m, hadded, rfl⟩
      · obtain ⟨ins', f', hlast, hkept, hmatches⟩ := again_finish (S := S) hadded hd'
        have hparameters : f'.parameters = d'.parameters := congrArg Inventory.parameters hkept
        refine ⟨[], d', ins', f', .nil count d', hlast, ?_, ?_, .cons (hmatches _ _) .nil⟩
        · rw [← hsame, hkept]
          exact hjoined
        · rw [hparameters]
          exact .refl _
    · have hinner := not_exists.mp hfinish
      obtain ⟨rest, hrest, rfl⟩ := (statements_succ hadded hinner).mp h
      have hgrows := grows_of_statements hrest
      obtain ⟨first, g, hfirst, hagain⟩ :=
        again_statement hS hedit hcompatible hadded hinner (hgrows.trans hfinal)
      obtain ⟨following, g', hfollowing, hagain'⟩ := ih hrest
      refine ⟨first ++ following, g', ?_, fun d' hjoined hd' => ?_⟩
      · simp only [Edit.statements, bind_eq_ok, get_eq_ok]
        refine ⟨d, d, ⟨rfl, rfl⟩, added, m, hadded, ?_⟩
        cases added with
        | finish ins => exact absurd rfl (hinner ins)
        | definition | instruction =>
          simp only [bind_eq_ok, get_eq_ok, set_eq_ok, pure_eq_ok]
          exact ⟨m, m, ⟨rfl, rfl⟩, ⟨⟩, d, rfl, first, g, hfirst, ⟨⟩, m, rfl, following, g',
            hfollowing, rfl, rfl⟩
      · obtain ⟨added', m', hread, hahead, hjoined', hextends, hmatches⟩ :=
          (hagain following d'.inventory hjoined d' hd' rfl).success trivial
        have hbodies := hmatches.body
        obtain ⟨body, e', ins, f', hpasses, hlast, hjoinedEnd, hextends', hall⟩ :=
          hagain' m' hjoined' hahead
        rw [hbodies.length_eq] at hpasses hlast
        have hinner' : ∀ ins, added' ≠ .finish ins := by
          cases hmatches with
          | definition | instruction => exact fun _ => Statement.noConfusion
        refine ⟨added'.body ++ body, e', ins, f', .cons hread hinner' hpasses, ?_, hjoinedEnd,
          hextends.trans hextends', ?_⟩
        · rw [List.length_append, ← Nat.add_assoc]
          exact hlast
        · rw [List.append_assoc]
          exact List.rel_append
            (hbodies.imp fun _ _ hins => hins.extends hS hgrows.onward hextends') hall

end Statements

end Compile

end FragmentAssembly

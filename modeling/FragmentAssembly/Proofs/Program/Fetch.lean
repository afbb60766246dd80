import FragmentAssembly.Execution.Machine
import FragmentAssembly.Proofs.Grammar.Unambiguous
import FragmentAssembly.Proofs.Program.Denotation
import FragmentAssembly.Proofs.Reading.Position

/-!
# What operands fetch

The form of an operand says what a machine fetches for it, bit by bit: which component of which
value, whether its sign bit is cleared, and how often it is flipped.  Every operand of a compiled
program was read from a place in its text where it has a form, and so fetches what this form says,
however often parameters were set.
-/

namespace FragmentAssembly

/-! ## Signs -/

namespace Binary32

theorem bits_neg (a : Binary32) : a.neg.bits = a.bits ^^^ 0x80000000 := by
  have hlt := a.bits.toNat_lt
  have hbit : a.bits.toNat / 2 ^ 31 = 0 ∨ a.bits.toNat / 2 ^ 31 = 1 := by omega
  have hmod : (a.bits.toNat ^^^ 2 ^ 31) % 2 ^ 31 = a.bits.toNat % 2 ^ 31 := by
    rw [Nat.xor_mod_two_pow, Nat.mod_self, Nat.xor_zero]
  have hdiv : (a.bits.toNat ^^^ 2 ^ 31) / 2 ^ 31 = a.bits.toNat / 2 ^ 31 ^^^ 1 := by
    rw [Nat.xor_div_two_pow, Nat.div_self (by decide)]
  have hsplit := Nat.div_add_mod (a.bits.toNat ^^^ 2 ^ 31) (2 ^ 31)
  apply UInt32.toNat_inj.mp
  rw [toNat_bits, isNegative_neg, magnitude_neg, UInt32.toNat_xor]
  show _ = a.bits.toNat ^^^ 2 ^ 31
  rw [← hsplit, hmod, hdiv, magnitude, isNegative]
  rcases hbit with h | h
  · rw [h, decide_eq_false (by omega)]
    rfl
  · rw [h, decide_eq_true (by omega)]
    rfl

theorem bits_abs (a : Binary32) : a.abs.bits = a.bits &&& 0x7fffffff := by
  apply UInt32.toNat_inj.mp
  rw [abs, toNat_bits_ofMagnitude, Nat.mod_eq_of_lt a.magnitude_lt, UInt32.toNat_and, magnitude]
  show 0 + _ = a.bits.toNat &&& (2 ^ 31 - 1)
  rw [Nat.and_two_pow_sub_one_eq_mod, Nat.zero_add]

end Binary32

namespace Grammar

/-! ## What forms say -/

/-- The value of what is named.  Missing components are those of `(0, 0, 0, 1)`. -/
def Base.value? (m : Machine) (p : Program) : Base → Option Vec4
  | temporary i => some (m.temporaries.get i)
  | input i => some (m.inputs.get i)
  | localParameter i => some (p.localParameters.get i)
  | named name =>
    (p.parameters.entries.find? fun entry => entry.name = some name).map Parameter.value
  | scalar x => some ⟨x, x, x, x⟩
  | vector x more => some ⟨x, more.getD 0 ⟨0⟩, more.getD 1 ⟨0⟩, more.getD 2 ⟨0x3f800000⟩⟩

/-- A minus sign flips the sign bit. -/
def applySign (negative : Bool) (bits : UInt32) : UInt32 :=
  if negative then bits ^^^ 0x80000000 else bits

namespace Form

/-- Bars clear the sign bit.  The sign behind the first bar comes before that, and the one in front
of the bars after it. -/
def modify (w : Form) (bits : UInt32) : UInt32 :=
  match w.inner with
  | none => applySign w.outer bits
  | some negative => applySign w.outer (applySign negative bits &&& 0x7fffffff)

/-- The bits of a component of what is fetched. -/
def bits? (w : Form) (scalar : Bool) (m : Machine) (p : Program) (i : Component) :
    Option UInt32 := do
  let value ← w.base.value? m p
  let component ← component? scalar w.letters i
  return w.modify (value.get component).bits

end Form

end Grammar

open Grammar

/-! ## What machines fetch -/

theorem Grammar.Form.Says.bits_modify {w : Form} {scalar : Bool} {t : ParameterTable} {s : Source}
    (h : w.Says scalar t s) (v : Vec4) (i : Component) :
    ((s.modify v).get i).bits = w.modify (v.get i).bits := by
  have hnegate : ∀ (b : Bool) (u : Vec4),
      ((if b then u.map Binary32.neg else u).get i).bits = applySign b (u.get i).bits := by
    intro b u
    cases b with
    | true => rw [if_pos rfl, Quad.get_map, Binary32.bits_neg]; rfl
    | false => rfl
  unfold Source.modify Form.modify
  dsimp only
  rw [h.negateBase, h.absolute, h.negateAbsolute, hnegate]
  cases w.inner with
  | none => exact hnegate w.outer v
  | some negative =>
    rw [Option.isSome_some, if_pos rfl, Quad.get_map, Binary32.bits_abs, Bool.true_and]
    exact congrArg (fun bits => applySign w.outer (bits &&& 0x7fffffff)) (hnegate negative v)

namespace ParameterTable

/-- Whether a table begins with the entries of another one, some of which may have been set. -/
def Continues (t s : ParameterTable) : Prop :=
  ∃ u : ParameterTable, u.Extends s ∧ u.Retuned t

/-- In a sound table an entry is found by its name. -/
theorem IsSound.find?_name {t : ParameterTable} (h : t.IsSound) {index : Nat} {entry : Parameter}
    {name : String} (hentry : t.get? index = some entry) (hname : entry.name = some name) :
    (t.entries.find? fun other => other.name = some name) = some entry := by
  cases hfound : t.entries.find? fun other => other.name = some name with
  | none =>
    have hnone := List.find?_eq_none.mp hfound entry (mem_of_get? hentry)
    exact absurd (decide_eq_true hname) hnone
  | some other =>
    have hdecide := List.find?_some hfound
    obtain ⟨place, hplace⟩ := List.mem_iff_getElem?.mp (List.mem_of_find?_eq_some hfound)
    obtain rfl := h.distinct hplace hentry (of_decide_eq_true hdecide) hname
    exact hplace.symm.trans hentry

theorem value_of_get? {t : ParameterTable} {index : Nat} {entry : Parameter}
    (h : t.get? index = some entry) : t.value index = entry.value := by
  rw [value, h, Option.map_some, Option.getD_some]

end ParameterTable

namespace Grammar.Base

theorem Denotes.continues {b : Base} {s t : ParameterTable} {r : Readable} (h : b.Denotes s r)
    (hst : t.Continues s) : b.Denotes t r := by
  obtain ⟨u, hextends, hretuned⟩ := hst
  have hkept : ∀ {w : Option Spelling}, s.Denotes r w → t.Denotes r w := fun hw =>
    (hw.extends hextends).retuned hretuned
  cases b with
  | temporary i => exact h
  | input i => exact h
  | localParameter i => exact h
  | named name => exact hkept (w := some (.name name)) h
  | scalar x => exact hkept (w := some (.literal (Quad.replicate x))) h
  | vector x more => exact hkept (w := some (.literal (Scan.vectorOfList x more))) h

/-- What is read is the value of what is named. -/
theorem Denotes.value? {b : Base} {p : Program} {r : Readable} (h : b.Denotes p.parameters r)
    (hsound : p.parameters.IsSound) (m : Machine) : b.value? m p = some (m.read p r) := by
  have hliteral : ∀ {v : Vec4}, p.parameters.Denotes r (some (.literal v)) →
      some v = some (m.read p r) := by
    rintro v ⟨index, entry, rfl, hentry, -, rfl⟩
    exact congrArg some (ParameterTable.value_of_get? hentry).symm
  cases b with
  | temporary i => cases h; rfl
  | input i => cases h; rfl
  | localParameter i => cases h; rfl
  | named name =>
    obtain ⟨index, entry, rfl, hentry, hname⟩ := h
    rw [Base.value?, hsound.find?_name hentry hname, Option.map_some]
    exact congrArg some (ParameterTable.value_of_get? hentry).symm
  | scalar x => exact hliteral h
  | vector x more => exact hliteral h

end Grammar.Base

/-- A source fetches what its form says. -/
theorem Grammar.Form.Says.bits? {w : Form} {scalar : Bool} {t : ParameterTable} {s : Source}
    (h : w.Says scalar t s) {p : Program} (hsound : p.parameters.IsSound)
    (hcontinues : p.parameters.Continues t) (m : Machine) (i : Component) :
    w.bits? scalar m p i = some ((m.fetch p s).get i).bits := by
  have hvalue := (h.base.continues hcontinues).value? hsound m
  simp only [Form.bits?, hvalue, h.component i, Option.bind_eq_bind, Option.bind_some,
    Option.pure_def]
  rw [Machine.fetch, h.bits_modify, Quad.get_select]

/-! ## Where operands were read -/

/-- Whether a draft was reached with a part of the text left. -/
structure Draft.Within (source : String) (d : Draft) : Prop where
  reached : Reached source d
  between : d.cursor.inside = []
  rest : d.cursor.rest <:+ source.toList

theorem walk_suffix (cs : List Char) :
    Walk (fun k => k.inside = [] ∧ k.rest <:+ cs) fun _ => True where
  inside h := h.1
  ignored {k} h := by
    obtain ⟨n, hn⟩ := k.behind_ignored
    refine ⟨k.skipIgnored_inside.trans h.1, ?_⟩
    rw [hn]
    exact (List.drop_suffix n _).trans h.2
  item {k text behind} h _ _ := by
    obtain ⟨n, hn⟩ := k.behind_item text.length
    refine ⟨Cursor.advance_inside _ (k.skipIgnored_inside.trans h.1), ?_⟩
    rw [hn]
    exact (List.drop_suffix n _).trans h.2
  behind _ _ := trivial
  ahead _ _ := trivial
  missed _ _ _ := trivial
  within _ _ := trivial

/-- Whether a source was read at some place of the text, so that later tables hold what it reads. -/
def Source.WasRead (s : Source) (source : String) (t : ParameterTable) : Prop :=
  ∃ scalar d e, d.Within source ∧ Compile.source scalar d = .ok s e ∧ t.Extends e.parameters

theorem Source.WasRead.extends {s : Source} {source : String} {t u : ParameterTable}
    (h : s.WasRead source t) (htu : u.Extends t) : s.WasRead source u := by
  obtain ⟨scalar, d, e, hd, hread, hextends⟩ := h
  exact ⟨scalar, d, e, hd, hread, hextends.trans htu⟩

namespace Compile

variable {source : String} {d e : Draft}

theorem within_of_together {α : Type} {V : α → α → Prop} {D : α → Prop} {m : Compile α} {a : α}
    (hm : ∀ c : Coupling ParseError Cursor, c.Abreast → c.onDraft.Together V D m m)
    (hgrows : m.Grows) (h : m d = .ok a e) (hd : d.Within source) : e.Within source := by
  have hleaves := hgrows d
  rw [GrowsFrom, leaves, h] at hleaves
  obtain ⟨hbetween, hrest⟩ :=
    kept_of_together hm (walk_suffix source.toList).abreast ⟨hd.between, hd.rest⟩ h
  exact ⟨hd.reached.trans hleaves, hbetween, hrest⟩

theorem grows_source (scalar : Bool) : (Compile.source scalar).Grows := by
  cases scalar
  · exact grows_vectorSource
  · exact grows_scalarSource

theorem follows_source {c : Coupling ParseError Cursor} (h : c.Abreast) (scalar : Bool) :
    c.onDraft.Follows Eq Always (Compile.source scalar) (Compile.source scalar) := by
  cases scalar
  · exact follows_vectorSource h
  · exact follows_scalarSource h

theorem within_of_lift {α : Type} {m : Scan α} {a : α} {V : α → α → Prop} {D : α → Prop}
    (hm : ∀ c : Coupling ParseError Cursor, c.Abreast → c.Together V D m m)
    (h : (liftM m : Compile α) d = .ok a e) (hd : d.Within source) : e.Within source :=
  within_of_together (fun c hc => together_lift (hm c hc)) (.lift m) h hd

/-- All operands of a list were read. -/
theorem wasRead_of_commaSeparated (scalar : Bool) {count : Nat} {sources : List Source}
    (h : commaSeparated (Compile.source scalar) count d = .ok sources e) (hd : d.Within source) :
    ∀ s ∈ sources, s.WasRead source e.parameters := by
  induction count generalizing d sources with
  | zero =>
    obtain ⟨rfl, rfl⟩ := pure_eq_ok.mp h
    exact fun s hs => absurd hs List.not_mem_nil
  | succ count ih =>
    cases count with
    | zero =>
      simp only [commaSeparated, bind_eq_ok, pure_eq_ok] at h
      obtain ⟨first, f, hfirst, rfl, rfl⟩ := h
      exact List.forall_mem_singleton.mpr ⟨scalar, d, f, hd, hfirst, .refl _⟩
    | succ count =>
      simp only [commaSeparated, bind_eq_ok, pure_eq_ok] at h
      obtain ⟨first, f, hfirst, _, g, hcomma, more, _, hmore, rfl, rfl⟩ := h
      have hf := within_of_together (fun c hc => (follows_source hc scalar).together)
        (grows_source scalar) hfirst hd
      have hg := within_of_lift (fun c hc => (Scan.follows_expect hc "," (by decide)).together)
        hcomma hf
      -- what the first operand entered is still there when all have been read
      have hextends := ((Grows.lift (Scan.expect ",")).extends hcomma).trans
        ((grows_commaSeparated (grows_source scalar) (count + 1)).extends hmore)
      exact List.forall_mem_cons.mpr ⟨⟨scalar, d, f, hd, hfirst, hextends⟩, ih hmore hg⟩

theorem wasRead_of_operands {ins filled : Instruction} {shape : Operands}
    (h : operands ins shape d = .ok filled e) (hnone : ins.sources = []) (hd : d.Within source) :
    ∀ s ∈ filled.sources, s.WasRead source e.parameters := by
  cases shape with
  | vectors count =>
    simp only [operands, bind_eq_ok, pure_eq_ok] at h
    obtain ⟨sources, _, hsources, rfl, rfl⟩ := h
    exact wasRead_of_commaSeparated false hsources hd
  | scalars count =>
    simp only [operands, bind_eq_ok, pure_eq_ok] at h
    obtain ⟨sources, _, hsources, rfl, rfl⟩ := h
    exact wasRead_of_commaSeparated true hsources hd
  | lookup vectors =>
    simp only [operands, bind_eq_ok, pure_eq_ok, within_eq_ok] at h
    obtain ⟨sources, f, hsources, _, g, hcomma, image, _, himage, rfl, rfl⟩ := h
    -- the image behind the sources may not change the table that they were read with
    have hextends := ((Grows.lift (Scan.expect ",")).extends hcomma).trans
      (grows_textureImage.extends himage)
    exact fun s hs => (wasRead_of_commaSeparated false hsources hd s hs).extends hextends
  | condition =>
    simp only [operands, bind_eq_ok, pure_eq_ok] at h
    obtain ⟨condition, _, -, rfl, rfl⟩ := h
    intro s hs
    rw [hnone] at hs
    exact absurd hs List.not_mem_nil

theorem wasRead_of_instruction {mnemonic : String} {ins : Instruction}
    (h : instruction mnemonic d = .ok ins e) (hd : d.Within source) :
    ∀ s ∈ ins.sources, s.WasRead source e.parameters := by
  simp only [instruction, bind_eq_ok, get_eq_ok] at h
  obtain ⟨_, _, ⟨rfl, rfl⟩, h⟩ := h
  cases hmnemonic : readMnemonic mnemonic with
  | error cause =>
    rw [hmnemonic] at h
    exact (fails_fail _ _ _ _ h).elim
  | ok found =>
    simp only [hmnemonic, bind_eq_ok, pure_eq_ok] at h
    obtain ⟨begun, f, hdestination, filled, g, hoperands, _, _, hclose, rfl, rfl⟩ := h
    have hnone := sources_of_destinationOf hdestination
    have hf : f.Within source := within_of_together (fun c hc =>
      together_destinationOf hc ⟨_, rfl⟩ _) (grows_destinationOf _ _) hdestination hd
    exact fun s hs => (wasRead_of_operands hoperands hnone hf s hs).extends
      ((Grows.lift (Scan.expect ";")).extends hclose)

theorem wasRead_of_statement {count : Nat} {ins : Instruction}
    (h : statement count d = .ok (.instruction ins) e) (hd : d.Within source) :
    ∀ s ∈ ins.sources, s.WasRead source e.parameters := by
  obtain ⟨-, name, k, hname, hnamed⟩ := named_of_statement h
  have hk := within_of_lift (fun c hc => (follows_statementName hc).together)
    (lift_eq_ok.mpr ⟨k, hname, rfl⟩) hd
  cases hnamed with
  | instruction _ _ read =>
    have hwas := wasRead_of_instruction read hk
    exact hwas

/-- All operands of all instructions were read. -/
theorem wasRead_of_statements {fuel count : Nat} {instructions : List Instruction}
    (h : statements fuel count d = .ok instructions e) (hd : d.Within source) :
    ∀ ins ∈ instructions, ∀ s ∈ ins.sources, s.WasRead source e.parameters := by
  induction fuel generalizing d count instructions with
  | zero => exact (fails_fail _ _ _ _ h).elim
  | succ fuel ih =>
    simp only [statements, bind_eq_ok] at h
    obtain ⟨added, f, hadded, h⟩ := h
    have hf := within_of_together (fun c hc => together_statement hc count) (grows_statement count)
      hadded hd
    cases added with
    | definition => exact ih h hf
    | instruction ins =>
      simp only [bind_eq_ok, pure_eq_ok] at h
      obtain ⟨following, _, hfollowing, rfl, rfl⟩ := h
      have hextends := (grows_statements fuel (count + 1)).extends hfollowing
      exact List.forall_mem_cons.mpr ⟨fun s hs =>
        (wasRead_of_statement hadded hd s hs).extends hextends, ih hfollowing hf⟩
    | finish ins =>
      obtain ⟨rfl, rfl⟩ := pure_eq_ok.mp h
      obtain ⟨-, ⟨position, rfl⟩, -⟩ := assembles_of_statement hadded
      exact List.forall_mem_singleton.mpr fun s hs => absurd hs List.not_mem_nil

end Compile

theorem wasRead_of_compile {source : String} {p : Program} (h : compile source = .ok p) :
    ∀ ins ∈ p.instructions, ∀ s ∈ ins.sources, s.WasRead source p.parameters := by
  obtain ⟨text, fuel, d, htext, hok, hparameters⟩ := statements_of_compile h
  rw [← hparameters]
  refine Compile.wasRead_of_statements hok ⟨.aside rfl, Cursor.advance_inside 7 rfl, ?_⟩
  rw [Cursor.advance_rest]
  exact List.drop_suffix 7 source.toList

/-- An operand that was read has one form, in which it stands there in the text.  What it fetches in
any program whose table goes on from there is what this form says, bit by bit.  The operands of a
compiled text were all read at places of the text, and the table of the program goes on from there,
also when parameters have been set. -/
theorem fetch_of_form (source : String) :
    (∀ (scalar : Bool) (d e : Draft) (s : Source), Draft.Reached source d →
      Compile.source scalar d = .ok s e →
        ∃ w : Form, (∀ w' rest, w'.phrase scalar d.cursor.ahead [] rest ↔
            w' = w ∧ rest = e.cursor.ahead) ∧
          ∀ q : Program, q.parameters.IsSound → q.parameters.Continues e.parameters →
            ∀ m i, w.bits? scalar m q i = some ((m.fetch q s).get i).bits) ∧
    ∀ p q, compile source = .ok p → p.Updates q → q.parameters.IsSound ∧
      ∀ ins ∈ q.instructions, ∀ s ∈ ins.sources, ∃ scalar d e, Draft.Reached source d ∧
        d.cursor.rest <:+ source.toList ∧ Compile.source scalar d = .ok s e ∧
          q.parameters.Continues e.parameters := by
  constructor
  · intro scalar d e s hd hread
    obtain ⟨w, hphrase, hsays⟩ := Compile.says_of_source hread hd.isSound
    refine ⟨w, fun w' rest => ⟨fun hw' => Form.meet scalar w' w hw' hphrase, ?_⟩,
      fun q hsound hcontinues m i => hsays.bits? hsound hcontinues m i⟩
    rintro ⟨rfl, rfl⟩
    exact hphrase
  · intro p q hp hq
    have hretuned := Program.retuned_of_updates hq
    refine ⟨isSound_of_compile hp hretuned, fun ins hins s hs => ?_⟩
    rw [hretuned.instructions] at hins
    obtain ⟨scalar, d, e, hd, hread, hextends⟩ := wasRead_of_compile hp ins hins s hs
    exact ⟨scalar, d, e, hd.reached, hd.rest, hread, p.parameters, hextends, hretuned.parameters⟩

/-- The sign in front of the bars is the one that is left. -/
theorem fetch_of_form_barred : ∃ p s scalar, ∃ w : Form,
    compile "!!FP1.0DEFINE a=\x7b1,-2\x7d;MOV o[COLR],-|-a.yxzw|;END" = .ok p ∧
      (∃ ins ∈ p.instructions, s ∈ ins.sources) ∧
      ∀ m, (∀ i, w.bits? scalar m p i = some ((m.fetch p s).get i).bits) ∧
        w.bits? scalar m p .x = some 0xc0000000 := by
  obtain ⟨p, hp, hparameters, hsources⟩ : ∃ p,
      compile "!!FP1.0DEFINE a=\x7b1,-2\x7d;MOV o[COLR],-|-a.yxzw|;END" = .ok p ∧
      p.parameters.value 0 = ⟨.one, ⟨0xc0000000⟩, .zero, .one⟩ ∧
      (p.instructions.map (·.sources)).flatten =
        [⟨.parameter 0, ⟨.y, .x, .z, .w⟩, true, true, true⟩] :=
    exists_of_decide (by decide +kernel)
  have hmem : ∃ l ∈ p.instructions.map (·.sources),
      (⟨.parameter 0, ⟨.y, .x, .z, .w⟩, true, true, true⟩ : Source) ∈ l := by
    rw [← List.mem_flatten, hsources]
    exact List.mem_singleton_self _
  obtain ⟨_, hmap, hs⟩ := hmem
  obtain ⟨ins, hins, rfl⟩ := List.mem_map.mp hmap
  have hboth := fetch_of_form "!!FP1.0DEFINE a=\x7b1,-2\x7d;MOV o[COLR],-|-a.yxzw|;END"
  obtain ⟨hsound, hread⟩ := hboth.2 p p hp .refl
  obtain ⟨scalar, d, e, hd, -, hsource, hcontinues⟩ := hread ins hins _ hs
  obtain ⟨w, -, hbits⟩ := hboth.1 scalar d e _ hd hsource
  refine ⟨p, _, scalar, w, hp, ⟨ins, hins, hs⟩, fun m => ⟨hbits p hsound hcontinues m, ?_⟩⟩
  rw [hbits p hsound hcontinues m, Machine.fetch, Machine.read, hparameters]
  decide

end FragmentAssembly

import FragmentAssembly.Proofs.Assembly.Soundness
import FragmentAssembly.Proofs.ParameterTable

/-!
# What reading does to drafts

While a text is read, its draft is changed in a few ways only.  A name that is neither reserved nor
taken is added to the table, or a literal is entered, and each of these is noted.  Whatever relation
between drafts allows for this holds between the draft before and the draft behind, whether the text
is read to its end or not.
-/

namespace FragmentAssembly

/-- The notes of what is entered in the table. -/
def Note.isEntry : Note → Bool
  | .scalarLiteral .. | .vectorLiteral .. | .parameterDefined .. => true
  | _ => false

/-- A relation between drafts that allows for anything that is done while operands and definitions
are read.  A name is added only if it is new. -/
structure Draft.Course (R : Draft → Draft → Prop) : Prop where
  refl : ∀ d, R d d
  trans : ∀ {d e f : Draft}, R d e → R e f → R d f
  aside : ∀ {d e : Draft}, e.parameters = d.parameters → e.notes = d.notes → R d e
  literal : ∀ {d e : Draft} (v : Vec4), e.parameters = (d.parameters.addLiteral v).2 →
    e.notes = d.notes → R d e
  define : ∀ {d e : Draft} {name : String} {kind : ParameterKind} (v : Vec4), IsName name →
    isReserved name = false → d.parameters.lookup? name = none → kind ≠ .literal →
    e.parameters = (d.parameters.addNamed name kind v).2 → e.notes = d.notes → R d e
  entry : ∀ (d : Draft) {n : Note}, n.isEntry = true → R d { d with notes := d.notes.push n }

namespace Compile

/-- The draft that an action leaves behind, whether it fails or not. -/
def leaves {α : Type} (m : Compile α) (d : Draft) : Draft :=
  match m d with
  | .ok _ e => e
  | .error _ e => e

/-- The relation holds between any draft and the one that the action leaves behind. -/
def Leads {α : Type} (R : Draft → Draft → Prop) (m : Compile α) : Prop :=
  ∀ d, R d (m.leaves d)

theorem Leads.within {α : Type} {R : Draft → Draft → Prop} {m : Compile α} (around : Construct)
    (h : m.Leads R) : Leads R (FragmentAssembly.within around m) := by
  intro d
  have hm := h d
  unfold leaves at *
  unfold FragmentAssembly.within
  cases hd : m d with
  | ok a e =>
    rw [hd] at hm
    exact hm
  | error e e' =>
    rw [hd] at hm
    exact hm

end Compile

namespace Draft.Course

open Compile

variable {R : Draft → Draft → Prop} (c : Course R)

include c

section Rules

variable {α β : Type} {m : Compile α} {f : α → Compile β} {d : Draft}

theorem bindFrom (hm : R d (m.leaves d)) (hf : ∀ a e, m d = .ok a e → R e ((f a).leaves e)) :
    R d ((m >>= f).leaves d) := by
  unfold leaves at *
  rw [bind_apply]
  cases h : m d with
  | ok a e =>
    rw [h] at hm
    exact c.trans hm (hf a e h)
  | error e e' =>
    rw [h] at hm
    exact hm

theorem bind (hm : m.Leads R) (hf : ∀ a, (f a).Leads R) : (m >>= f).Leads R :=
  fun d => c.bindFrom (hm d) fun a e _ => hf a e

theorem pure (a : α) : (Pure.pure a : Compile α).Leads R :=
  fun d => c.refl d

theorem get : (MonadState.get : Compile Draft).Leads R :=
  fun d => c.refl d

/-- An action on the cursor does not know of anything else. -/
theorem lift (m : Scan α) : (liftM m : Compile α).Leads R := by
  intro d
  unfold leaves
  rw [lift_apply]
  cases m d.cursor with
  | ok a k => exact c.aside rfl rfl
  | error e k => exact c.aside rfl rfl

end Rules

/-! ## Operands and destinations -/

theorem note {n : Note} (h : n.isEntry = true) : (Compile.note n).Leads R :=
  fun d => c.entry d h

theorem addLiteral (v : Vec4) : (Compile.addLiteral v).Leads R :=
  fun _ => c.literal v rfl rfl

theorem inputRegister : Compile.inputRegister.Leads R := by
  refine c.bind (c.lift _) fun _ => c.bind (c.lift _) fun name => ?_
  split
  · exact c.lift _
  · exact c.bind (c.lift _) fun _ => c.bind (fun _ => c.aside rfl rfl) fun _ => c.pure _

theorem outputRegister : Compile.outputRegister.Leads R := by
  refine c.bind (c.lift _) fun _ => c.bind (c.lift _) fun name => ?_
  split
  · exact c.lift _
  · refine c.bind (c.lift _) fun _ => c.bind (fun _ => c.aside rfl rfl) fun _ => ?_
    refine c.bind c.get fun _ => ?_
    split
    · exact c.lift _
    · exact c.pure _

theorem writable (name : String) : (Compile.writable name).Leads R := by
  unfold Compile.writable
  split
  · exact c.pure _
  · split
    · exact c.bind c.outputRegister fun _ => c.pure _
    · split
      · exact c.bind (c.lift _) fun _ => c.pure _
      · exact c.lift _

theorem destination : Compile.destination.Leads R := by
  refine c.bind (c.lift _) fun t => ?_
  split
  · refine c.bind (c.writable _) fun _ => ?_
    exact c.bind (c.lift _) fun _ => c.bind (c.lift _) fun _ => c.pure _
  · exact c.lift _

theorem scalarLiteral : Compile.scalarLiteral.Leads R :=
  c.bind (c.lift _) fun _ => c.bind (c.addLiteral _) fun _ =>
    c.bind (c.note rfl) fun _ => c.pure _

theorem vectorLiteral : Compile.vectorLiteral.Leads R :=
  c.bind (c.lift _) fun _ => c.bind (c.addLiteral _) fun _ =>
    c.bind (c.note rfl) fun _ => c.pure _

theorem namedOperand (name : String) : (Compile.namedOperand name).Leads R := by
  unfold Compile.namedOperand
  split
  · exact c.lift _
  · split
    · exact c.bind c.inputRegister fun _ => c.pure _
    · split
      · exact c.bind (c.lift _) fun _ => c.pure _
      · split
        · exact c.bind (c.lift _) fun _ => c.pure _
        · refine c.bind c.get fun d => ?_
          split
          · exact c.pure _
          · exact c.lift _

theorem operand : Compile.operand.Leads R := by
  refine c.bind (c.lift _) fun t => ?_
  split
  · exact c.scalarLiteral
  · refine c.bind (c.lift _) fun t => ?_
    split
    · exact c.namedOperand _
    · exact c.vectorLiteral
    · exact c.lift _

theorem sourceWith (suffix : Operand → Scan Swizzle) : (Compile.sourceWith suffix).Leads R := by
  refine c.bind (c.lift _) fun outer => c.bind (c.lift _) fun absolute => ?_
  cases absolute with
  | true =>
    simp only [if_true]
    refine c.bind (c.lift _) fun inner => c.bind c.operand fun o => ?_
    exact c.bind (c.lift _) fun _ => c.bind (c.lift _) fun _ => c.pure _
  | false =>
    simp only [Bool.false_eq_true, if_false, pure_bind]
    exact c.bind c.operand fun o => c.bind (c.lift _) fun _ => c.pure _

theorem vectorSource : Compile.vectorSource.Leads R :=
  (c.sourceWith vectorSuffix).within _

theorem scalarSource : Compile.scalarSource.Leads R :=
  (c.sourceWith scalarSuffix).within _

theorem useTexture (image : TextureImage) : (Compile.useTexture image).Leads R := by
  intro d
  refine c.bindFrom (c.get d) fun _ _ hget => ?_
  obtain ⟨rfl, rfl⟩ := get_eq_ok.mp hget
  cases d.textures.get image.unit with
  | some used =>
    dsimp only
    split
    · exact c.lift _ d
    · exact c.pure _ d
  | none => exact c.aside rfl rfl

theorem textureImage : Compile.textureImage.Leads R :=
  c.bind (c.lift _) fun _ => c.bind (c.lift _) fun _ => c.bind (c.lift _) fun _ =>
    c.bind (c.useTexture _) fun _ => c.pure _

/-! ## Statements -/

theorem commaSeparated {α : Type} {item : Compile α} (h : item.Leads R) :
    ∀ count, (Compile.commaSeparated item count).Leads R
  | 0 => c.pure _
  | 1 => c.bind h fun _ => c.pure _
  | count + 2 => c.bind h fun _ => c.bind (c.lift _) fun _ =>
    c.bind (commaSeparated h (count + 1)) fun _ => c.pure _

theorem operands (ins : Instruction) (shape : Operands) :
    (Compile.operands ins shape).Leads R := by
  cases shape with
  | vectors count => exact c.bind (c.commaSeparated c.vectorSource count) fun _ => c.pure _
  | scalars count => exact c.bind (c.commaSeparated c.scalarSource count) fun _ => c.pure _
  | lookup count =>
    refine c.bind (c.commaSeparated c.vectorSource count) fun _ => c.bind (c.lift _) fun _ => ?_
    exact c.bind (c.textureImage.within _) fun _ => c.pure _
  | condition => exact c.bind (c.lift _) fun _ => c.pure _

theorem destinationOf (ins : Instruction) (writes : Bool) :
    (Compile.destinationOf ins writes).Leads R := by
  unfold Compile.destinationOf
  split
  · exact c.bind (c.destination.within _) fun _ => c.bind (c.lift _) fun _ => c.pure _
  · exact c.pure _

theorem instruction (mnemonic : String) : (Compile.instruction mnemonic).Leads R := by
  refine c.bind c.get fun d => ?_
  dsimp only
  split
  · exact c.lift _
  · refine c.bind (c.destinationOf _ _) fun _ => c.bind (c.operands _ _) fun _ => ?_
    exact c.bind (c.lift _) fun _ => c.pure _

/-- A name is added only after it was checked, and no table is touched in between. -/
theorem definition {kind : ParameterKind} (hkind : kind ≠ .literal) :
    (Compile.definition kind).Leads R := by
  intro d
  refine c.bindFrom (c.lift _ d) fun name e hname => ?_
  obtain ⟨k, hidentifier, rfl⟩ := lift_eq_ok.mp hname
  have hisName := Scan.isName_of_identifier hidentifier
  split
  · exact c.bindFrom (c.lift _ _) fun _ _ h => (lift_fail_ne_ok h).elim
  · rename_i hfree
    refine c.bindFrom (c.get _) fun _ _ hget => ?_
    obtain ⟨rfl, rfl⟩ := get_eq_ok.mp hget
    split
    · exact c.bindFrom (c.lift _ _) fun _ _ h => (lift_fail_ne_ok h).elim
    · -- only the cursor moves from here to where the name is added, so it is still new there
      rename_i hnew
      refine c.bindFrom (c.lift _ _) fun v _ hvalue => ?_
      obtain ⟨k', -, rfl⟩ := lift_eq_ok.mp hvalue
      refine c.bindFrom (c.lift _ _) fun _ _ hexpect => ?_
      obtain ⟨k'', -, rfl⟩ := lift_eq_ok.mp hexpect
      refine c.bindFrom ?_ fun index e _ => c.note rfl e
      exact c.define v hisName (Bool.eq_false_iff.mpr hfree)
        (Option.not_isSome_iff_eq_none.mp hnew) hkind rfl rfl

theorem finish : Compile.finish.Leads R := by
  refine c.bind c.get fun d => c.bind (c.lift _) fun atEnd => ?_
  split
  · exact c.pure _
  · exact c.lift _

/-- Whole statements also note the instructions. -/
theorem statement (hread : ∀ opcode position line,
      (Compile.note (.instructionRead opcode position line)).Leads R) (count : Nat) :
    (Compile.statement count).Leads R := by
  refine c.bind (c.lift _) fun name => ?_
  split
  · exact c.lift _
  · split
    · exact c.bind ((c.definition (by decide)).within _) fun _ => c.pure _
    · split
      · exact c.bind ((c.definition (by decide)).within _) fun _ => c.pure _
      · split
        · exact c.bind c.finish fun _ => c.pure _
        · refine c.bind ((c.instruction name).within _) fun ins => c.bind c.get fun _ => ?_
          exact c.bind (hread _ _ _) fun _ => c.pure _

theorem statements (hread : ∀ opcode position line,
      (Compile.note (.instructionRead opcode position line)).Leads R) (fuel count : Nat) :
    (Compile.statements fuel count).Leads R := by
  induction fuel generalizing count with
  | zero => exact c.lift _
  | succ fuel ih =>
    refine c.bind (c.statement hread count) fun s => ?_
    split
    · exact ih count
    · exact c.bind (ih (count + 1)) fun _ => c.pure _
    · exact c.pure _

theorem program (hread : ∀ opcode position line,
      (Compile.note (.instructionRead opcode position line)).Leads R) :
    Compile.program.Leads R :=
  c.bind (c.lift _) fun _ => c.bind c.get fun _ => c.statements hread _ 0

end Draft.Course

/-! ## Notes -/

/-- Only notes of this kind are added. -/
def Draft.Notes (kind : Note → Bool) (d e : Draft) : Prop :=
  ∃ added, e.notes.toList = d.notes.toList ++ added ∧ ∀ n ∈ added, kind n = true

theorem Draft.Notes.push {kind : Note → Bool} (d : Draft) {n : Note} (h : kind n = true) :
    d.Notes kind { d with notes := d.notes.push n } := by
  refine ⟨[n], Array.toList_push, fun m hm => ?_⟩
  rw [List.mem_singleton.mp hm]
  exact h

theorem Draft.Notes.of_eq {kind : Note → Bool} {d e : Draft} (h : e.notes = d.notes) :
    d.Notes kind e :=
  ⟨[], by rw [h, List.append_nil], List.forall_mem_nil _⟩

theorem Draft.Notes.trans {kind : Note → Bool} {d e f : Draft} (hde : d.Notes kind e)
    (hef : e.Notes kind f) : d.Notes kind f := by
  obtain ⟨first, hfirst, hfirst'⟩ := hde
  obtain ⟨more, hmore, hmore'⟩ := hef
  refine ⟨first ++ more, by rw [hmore, hfirst, List.append_assoc], ?_⟩
  rw [List.forall_mem_append]
  exact ⟨hfirst', hmore'⟩

theorem Draft.Notes.course {kind : Note → Bool} (h : ∀ n : Note, n.isEntry = true → kind n = true) :
    Draft.Course (Draft.Notes kind) where
  refl _ := .of_eq rfl
  trans := .trans
  aside _ hnotes := .of_eq hnotes
  literal _ _ hnotes := .of_eq hnotes
  define _ _ _ _ _ _ hnotes := .of_eq hnotes
  entry d _ hn := .push d (h _ hn)

end FragmentAssembly

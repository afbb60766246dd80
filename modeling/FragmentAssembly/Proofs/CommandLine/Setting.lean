import FragmentAssembly.Proofs.CommandLine.Value
import FragmentAssembly.Proofs.Disassembly.Operand
import FragmentAssembly.Proofs.Program.Usage

/-!
# The setting of a run

Arguments are looked at in one order: inputs, then local parameters, then the texture.  The first
one that is not valid is reported.  If there is none, every register has the value of the last
assignment to it.
-/

namespace FragmentAssembly.CommandLine

/-! ## The first fault -/

/-- The first item that is not valid has the fault `e`. -/
inductive FirstFault {α : Type} (Valid : α → Prop) (Fault : α → ArgumentError → Prop) :
    List α → ArgumentError → Prop where
  | here {a as e} (hinvalid : ¬Valid a) (hfault : Fault a e) : FirstFault Valid Fault (a :: as) e
  | later {a as e} (hvalid : Valid a) (hrest : FirstFault Valid Fault as e) :
      FirstFault Valid Fault (a :: as) e

namespace FirstFault

variable {α β : Type} {Valid : α → Prop} {Fault : α → ArgumentError → Prop} {e : ArgumentError}
  {as bs : List α}

theorem append_iff : FirstFault Valid Fault (as ++ bs) e ↔
    FirstFault Valid Fault as e ∨ (∀ a ∈ as, Valid a) ∧ FirstFault Valid Fault bs e := by
  induction as with
  | nil =>
    constructor
    · exact fun h => .inr ⟨List.forall_mem_nil _, h⟩
    · rintro (h | ⟨-, h⟩)
      · cases h
      · exact h
  | cons a as ih =>
    rw [List.cons_append, List.forall_mem_cons]
    constructor
    · intro h
      cases h with
      | here hinvalid hfault => exact .inl (.here hinvalid hfault)
      | later hvalid hrest =>
        rcases ih.mp hrest with hfirst | ⟨has, hsecond⟩
        · exact .inl (.later hvalid hfirst)
        · exact .inr ⟨⟨hvalid, has⟩, hsecond⟩
    · rintro (h | ⟨⟨hvalid, has⟩, hsecond⟩)
      · cases h with
        | here hinvalid hfault => exact .here hinvalid hfault
        | later hvalid hrest => exact .later hvalid (ih.mpr (.inl hrest))
      · exact .later hvalid (ih.mpr (.inr ⟨has, hsecond⟩))

theorem of_map {f : β → α} {bs : List β} (h : FirstFault Valid Fault (bs.map f) e) :
    FirstFault (fun b => Valid (f b)) (fun b => Fault (f b)) bs e := by
  induction bs with
  | nil => cases h
  | cons b bs ih =>
    cases h with
    | here hinvalid hfault => exact .here hinvalid hfault
    | later hvalid hrest => exact .later hvalid (ih hrest)

/-- Where an item that is not valid has a fault, all are valid or there is a first fault. -/
theorem cases (hfaults : ∀ a, ¬Valid a → ∃ e, Fault a e) (as : List α) :
    (∀ a ∈ as, Valid a) ∨ ∃ e, FirstFault Valid Fault as e := by
  induction as with
  | nil => exact .inl (List.forall_mem_nil _)
  | cons a as ih =>
    by_cases hvalid : Valid a
    · rcases ih with hrest | ⟨e, he⟩
      · exact .inl (List.forall_mem_cons.mpr ⟨hvalid, hrest⟩)
      · exact .inr ⟨e, .later hvalid he⟩
    · obtain ⟨e, he⟩ := hfaults a hvalid
      exact .inr ⟨e, .here hvalid he⟩

end FirstFault

/-! ## Registers that are set by assignments -/

/-- Registers with the texts that name them. -/
structure Slots (n : Nat) where
  Names : List Char → Fin n → Prop
  unique : ∀ {name i j}, Names name i → Names name j → i = j
  /-- The error for a text that names no register. -/
  unknown : String → ArgumentError

namespace Slots

variable {n : Nat} (s : Slots n)

def Sets (text : String) (i : Fin n) (v : Vec4) : Prop :=
  ∃ name, Assigns text name v ∧ s.Names name i

def Valid (text : String) : Prop :=
  ∃ i v, s.Sets text i v

/-- What is wrong with the form of a text, or that it assigns to no register. -/
inductive Fault (text : String) : ArgumentError → Prop where
  | assignment {e} (h : AssignmentFault text e) : Fault text e
  | unknown {name v} (h : Assigns text name v) (hnone : ∀ i, ¬s.Names name i) :
      Fault text (s.unknown (String.ofList name))

/-- Register `i` has the value of the last assignment to it, or keeps `old` if there is none. -/
def Last (old : Vec4) (texts : List String) (i : Fin n) (v : Vec4) : Prop :=
  (∃ before text behind, texts = before ++ text :: behind ∧ s.Sets text i v ∧
    ∀ t ∈ behind, ∀ w, ¬s.Sets t i w) ∨
  ((∀ t ∈ texts, ∀ w, ¬s.Sets t i w) ∧ v = old)

/-- `set` enters a valid assignment into a register file, and refuses any other text. -/
structure SetBy (set : Vector Vec4 n → String → Except ArgumentError (Vector Vec4 n)) : Prop where
  sets : ∀ {file text i v}, s.Sets text i v → set file text = .ok (file.set i.val v i.isLt)
  refuses : ∀ {file text e}, s.Fault text e → set file text = .error e

variable {s} {set : Vector Vec4 n → String → Except ArgumentError (Vector Vec4 n)}

theorem Sets.unique {text : String} {i j : Fin n} {v w : Vec4} (hi : s.Sets text i v)
    (hj : s.Sets text j w) : i = j := by
  obtain ⟨name, hname, hi⟩ := hi
  obtain ⟨name', hname', hj⟩ := hj
  have hsame := (assignment_eq_ok hname).symm.trans (assignment_eq_ok hname')
  cases hsame
  exact s.unique hi hj

theorem exists_fault {text : String} (h : ¬s.Valid text) : ∃ e, s.Fault text e := by
  rcases assignment_cases text with ⟨name, v, hassigns⟩ | ⟨e, he⟩
  · exact ⟨_, .unknown hassigns fun i hi => h ⟨i, v, name, hassigns, hi⟩⟩
  · exact ⟨e, .assignment he⟩

/-- One more assignment in front of others. -/
theorem Last.cons {text : String} {texts : List String} {i j : Fin n} {v w old : Vec4}
    (htext : s.Sets text j w) (h : s.Last (if j = i then w else old) texts i v) :
    s.Last old (text :: texts) i v := by
  rcases h with ⟨before, last, behind, rfl, hlast, hbehind⟩ | ⟨hnone, hv⟩
  · exact .inl ⟨text :: before, last, behind, rfl, hlast, hbehind⟩
  · by_cases hij : j = i
    · subst hij
      rw [if_pos rfl] at hv
      subst hv
      exact .inl ⟨[], text, texts, rfl, htext, hnone⟩
    · rw [if_neg hij] at hv
      refine .inr ⟨List.forall_mem_cons.mpr ⟨fun w hw => hij ?_, hnone⟩, hv⟩
      exact htext.unique hw

theorem SetBy.foldlM_eq_ok (hset : s.SetBy set) {texts : List String}
    (hvalid : ∀ t ∈ texts, s.Valid t) (file : Vector Vec4 n) :
    ∃ result, texts.foldlM set file = .ok result ∧
      ∀ i, s.Last (file.get i) texts i (result.get i) := by
  induction texts generalizing file with
  | nil => exact ⟨file, rfl, fun i => .inr ⟨List.forall_mem_nil _, rfl⟩⟩
  | cons text texts ih =>
    rw [List.forall_mem_cons] at hvalid
    obtain ⟨⟨j, w, htext⟩, hrest⟩ := hvalid
    obtain ⟨result, hresult, hlast⟩ := ih hrest (file.set j.val w j.isLt)
    refine ⟨result, ?_, fun i => Last.cons htext ?_⟩
    · rw [List.foldlM_cons, hset.sets htext]
      exact hresult
    · have hi := hlast i
      rw [get_set] at hi
      exact hi

theorem SetBy.foldlM_eq_error (hset : s.SetBy set) {texts : List String} {e : ArgumentError}
    (h : FirstFault s.Valid s.Fault texts e) (file : Vector Vec4 n) :
    texts.foldlM set file = .error e := by
  induction h generalizing file with
  | here _ hfault =>
    rw [List.foldlM_cons, hset.refuses hfault]
    rfl
  | later hvalid _ ih =>
    obtain ⟨i, v, hsets⟩ := hvalid
    rw [List.foldlM_cons, hset.sets hsets]
    exact ih _

end Slots

/-! ## Inputs and local parameters -/

/-- Inputs are assigned to by name. -/
def inputSlots : Slots inputCount where
  Names name i := inputNames.get i = String.ofList name
  unique {_ i j} hi hj := by
    have hfound := (registerNamed?_inputNames i).2
    rw [hi, ← hj, (registerNamed?_inputNames j).2] at hfound
    exact (Option.some.inj hfound).symm
  unknown := .unknownInput

theorem setBy_setInput : inputSlots.SetBy setInput where
  sets {file text i v} h := by
    obtain ⟨name, hassigns, hname⟩ := h
    have hfound := (registerNamed?_inputNames i).2
    rw [show inputNames.get i = String.ofList name from hname] at hfound
    rw [setInput, assignment_eq_ok hassigns]
    simp only [bind, Except.bind, hfound]
    rfl
  refuses {file text e} h := by
    cases h with
    | assignment h =>
      rw [setInput, assignment_eq_error h]
      rfl
    | @unknown name v h hnone =>
      have hfound : registerNamed? inputNames (String.ofList name) = none :=
        List.find?_eq_none.mpr fun i _ hi =>
          hnone i (of_decide_eq_true (p := inputNames.get i = String.ofList name) hi)
      rw [setInput, assignment_eq_ok h]
      simp only [bind, Except.bind, hfound]
      rfl

/-- The digits of a count, behind a plus sign if there is one. -/
def unsigned : List Char → List Char
  | '+' :: digits => digits
  | digits => digits

/-- The text is decimal digits for `n`. -/
def IsCount (text : List Char) (n : Nat) : Prop :=
  unsigned text ≠ [] ∧ (∀ c ∈ unsigned text, c.isDigit = true) ∧
    Nat.ofDigitChars 10 (unsigned text) 0 = n

theorem natural?_eq_some_iff {text : List Char} {n : Nat} :
    natural? text = some n ↔ IsCount text n ∧ n < UInt64.size := by
  have hnatural : natural? text =
      if (unsigned text).isEmpty || !(unsigned text).all Char.isDigit ||
        UInt64.size ≤ Nat.ofDigitChars 10 (unsigned text) 0 then none
      else some (Nat.ofDigitChars 10 (unsigned text) 0) := rfl
  rw [hnatural, Option.ite_none_left_eq_some, Bool.or_eq_true, Bool.or_eq_true, not_or, not_or,
    List.isEmpty_iff, Bool.not_eq_true', Bool.not_eq_false, List.all_eq_true, decide_eq_true_eq,
    Nat.not_le, Option.some.injEq, IsCount]
  constructor
  · rintro ⟨⟨⟨hne, hdigits⟩, hlt⟩, rfl⟩
    exact ⟨⟨hne, hdigits, rfl⟩, hlt⟩
  · rintro ⟨⟨hne, hdigits, rfl⟩, hlt⟩
    exact ⟨⟨⟨hne, hdigits⟩, hlt⟩, rfl⟩

/-- Local parameters are assigned to by number. -/
def paramSlots : Slots localParameterCount where
  Names name i := IsCount name i.val
  unique hi hj := Fin.ext (hi.2.2.symm.trans hj.2.2)
  unknown := .invalidLocalParameter

theorem setBy_setParam : paramSlots.SetBy setParam where
  sets {file text i v} h := by
    obtain ⟨name, hassigns, hname⟩ := h
    have hfound : natural? name = some i.val :=
      natural?_eq_some_iff.mpr ⟨hname, i.isLt.trans (by decide)⟩
    rw [setParam, assignment_eq_ok hassigns]
    simp only [bind, Except.bind, hfound, i.isLt, dif_pos]
    rfl
  refuses {file text e} h := by
    cases h with
    | assignment h =>
      rw [setParam, assignment_eq_error h]
      rfl
    | @unknown name v h hnone =>
      rw [setParam, assignment_eq_ok h]
      simp only [bind, Except.bind]
      cases hfound : natural? name with
      | none => rfl
      | some n =>
        have hlarge : ¬n < localParameterCount := fun hlt =>
          hnone ⟨n, hlt⟩ (natural?_eq_some_iff.mp hfound).1
        simp only [dif_neg hlarge]
        rfl

/-! ## Requests -/

/-- An input or a local parameter is an assignment to a register, and a texture is a vector. -/
def Valid : OptionKind × String → Prop
  | (.input, text) => inputSlots.Valid text
  | (.param, text) => paramSlots.Valid text
  | (.texture, text) => ∃ v, IsVector text.toList v

def Fault : OptionKind × String → ArgumentError → Prop
  | (.input, text) => inputSlots.Fault text
  | (.param, text) => paramSlots.Fault text
  | (.texture, text) => VectorFault text.toList

theorem exists_fault (a : OptionKind × String) (h : ¬Valid a) : ∃ e, Fault a e := by
  obtain ⟨kind, text⟩ := a
  cases kind with
  | input => exact Slots.exists_fault h
  | param => exact Slots.exists_fault h
  | texture => exact (vector_cases text.toList).resolve_left h

namespace Request

/-- The options in the order in which they are looked at. -/
def ordered (r : Request) : List (OptionKind × String) :=
  r.values.filter (·.1 = .input) ++
    (r.values.filter (·.1 = .param) ++ r.values.filter (·.1 = .texture))

theorem filter_eq_map (r : Request) (kind : OptionKind) :
    r.values.filter (·.1 = kind) = (r.valuesOf kind).map (Prod.mk kind) := by
  rw [valuesOf, List.map_map]
  refine ((List.map_congr_left fun a ha => ?_).trans (List.map_id _)).symm
  rw [List.mem_filter, decide_eq_true_eq] at ha
  rw [Function.comp, ← ha.2, id]

end Request

/-- Registers and texture have the values that a request gives them.  A register that it does not
set is zero, and a texture that it does not set is one. -/
structure Setting.IsGiven (s : Setting) (r : Request) : Prop where
  inputs : ∀ i, inputSlots.Last Quad.zero (r.valuesOf .input) i (s.inputs.get i)
  params : ∀ i, paramSlots.Last Quad.zero (r.valuesOf .param) i (s.params.get i)
  texture : ∀ text ∈ r.valuesOf .texture, IsVector text.toList s.texture
  noTexture : r.valuesOf .texture = [] → s.texture = Quad.replicate .one

section Settings

variable {r : Request}

/-- The texture of a request, of which there is at most one. -/
theorem texture_cases (h : (r.valuesOf .texture).length ≤ 1) :
    r.valuesOf .texture = [] ∨ ∃ text, r.valuesOf .texture = [text] := by
  rw [← List.length_eq_zero_iff, ← List.length_eq_one_iff]
  omega

theorem get_replicate {n : Nat} (v : Vec4) (i : Fin n) : (Vector.replicate n v).get i = v := by
  show (Vector.replicate n v)[i.val] = v
  rw [Vector.getElem_replicate]

theorem setting_eq_ok (hvalid : ∀ a ∈ r.ordered, Valid a)
    (htexture : (r.valuesOf .texture).length ≤ 1) :
    ∃ s, setting r = .ok s ∧ s.IsGiven r := by
  simp only [Request.ordered, Request.filter_eq_map, List.forall_mem_append,
    List.forall_mem_map] at hvalid
  obtain ⟨hinput, hparam, htextures⟩ := hvalid
  obtain ⟨inputs, hinputs, hlast⟩ :=
    setBy_setInput.foldlM_eq_ok hinput (Vector.replicate _ Quad.zero)
  obtain ⟨params, hparams, hlast'⟩ :=
    setBy_setParam.foldlM_eq_ok hparam (Vector.replicate _ Quad.zero)
  simp only [get_replicate] at hlast hlast'
  simp only [setting, hinputs, hparams, bind, Except.bind]
  rcases texture_cases htexture with hnone | ⟨text, htext⟩
  · simp only [hnone, List.head?_nil]
    exact ⟨_, rfl, hlast, hlast', by simp [hnone], fun _ => rfl⟩
  · obtain ⟨v, hv⟩ := htextures text (by simp [htext])
    simp only [htext, List.head?_cons, vector_eq_ok hv]
    refine ⟨_, rfl, hlast, hlast', fun text' htext' => ?_, by simp [htext]⟩
    rw [htext, List.mem_singleton] at htext'
    rw [htext']
    exact hv

theorem setting_eq_error {e : ArgumentError} (h : FirstFault Valid Fault r.ordered e)
    (htexture : (r.valuesOf .texture).length ≤ 1) : setting r = .error e := by
  simp only [Request.ordered, Request.filter_eq_map, FirstFault.append_iff,
    List.forall_mem_map] at h
  rcases h with hinput | ⟨hinput, hparam | ⟨hparam, htextures⟩⟩
  · have hinputs := setBy_setInput.foldlM_eq_error hinput.of_map (Vector.replicate _ Quad.zero)
    simp only [setting, hinputs, bind, Except.bind]
  · obtain ⟨inputs, hinputs, -⟩ := setBy_setInput.foldlM_eq_ok hinput (Vector.replicate _ Quad.zero)
    have hparams := setBy_setParam.foldlM_eq_error hparam.of_map (Vector.replicate _ Quad.zero)
    simp only [setting, hinputs, hparams, bind, Except.bind]
  · obtain ⟨inputs, hinputs, -⟩ := setBy_setInput.foldlM_eq_ok hinput (Vector.replicate _ Quad.zero)
    obtain ⟨params, hparams, -⟩ := setBy_setParam.foldlM_eq_ok hparam (Vector.replicate _ Quad.zero)
    simp only [setting, hinputs, hparams, bind, Except.bind]
    rcases texture_cases htexture with hnone | ⟨text, htext⟩
    · rw [hnone] at htextures
      cases htextures
    · rw [htext] at htextures
      cases htextures with
      | here _ hfault => simp only [htext, List.head?_cons, vector_eq_error hfault]
      | later _ hrest => cases hrest

end Settings

end FragmentAssembly.CommandLine

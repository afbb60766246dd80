import FragmentAssembly.CommandLine
import Mathlib.Data.List.Forall2
import Mathlib.Data.List.TakeWhile

/-!
# Values of arguments

A vector is written as one to four numbers between commas, and an assignment as a name and a
vector with an equals sign in between.  A text of another form is refused with the error of what
is wrong first.
-/

namespace FragmentAssembly.CommandLine

/-! ## Vectors -/

/-- White space around a number is not part of it. -/
def IsNumber (part : List Char) (a : Binary32) : Prop :=
  Binary32.ofArgument? (trimWhiteSpace part) = some a

/-- One to four numbers between commas.  Those that are missing are taken from `(0, 0, 0, 1)`. -/
def IsVector (text : List Char) (v : Vec4) : Prop :=
  ∃ values, List.Forall₂ IsNumber (text.splitOn ',') values ∧
    1 ≤ values.length ∧ values.length ≤ 4 ∧
    v.toList = values ++ [Binary32.zero, .zero, .zero, .one].drop values.length

/-- What is wrong with the parts of `text` if there is room for `room` of them: the first one that
is no number, or the one that there is no room for. -/
inductive NumbersFault (text : List Char) : Nat → List (List Char) → ArgumentError → Prop where
  | full {part parts} :
      NumbersFault text 0 (part :: parts) (.tooManyComponents (String.ofList text))
  | here {room part parts} (hpart : ∀ a, ¬IsNumber part a) :
      NumbersFault text (room + 1) (part :: parts) (.invalidNumber (String.ofList part))
  | later {room part parts a e} (hpart : IsNumber part a)
      (hparts : NumbersFault text room parts e) : NumbersFault text (room + 1) (part :: parts) e

def VectorFault (text : List Char) : ArgumentError → Prop :=
  NumbersFault text 4 (text.splitOn ',')

theorem number_eq_ok {part : List Char} {a : Binary32} (h : IsNumber part a) :
    number part = .ok a := by
  rw [number, h]

theorem number_eq_error {part : List Char} (h : ∀ a, ¬IsNumber part a) :
    number part = .error (.invalidNumber (String.ofList part)) := by
  rw [number, Option.eq_none_iff_forall_ne_some.mpr h]

section Numbers

variable {text part : List Char} {parts : List (List Char)} {room : Nat} {values : List Binary32}
  {e : ArgumentError}

theorem numbers_cons_of_error (h : numbers text room parts = .error e) {a : Binary32}
    (hpart : IsNumber part a) : numbers text (room + 1) (part :: parts) = .error e := by
  rw [numbers, number_eq_ok hpart]
  show (numbers text room parts >>= _) = _
  rw [h]
  rfl

theorem numbers_cons_of_ok (h : numbers text room parts = .ok values) {a : Binary32}
    (hpart : IsNumber part a) : numbers text (room + 1) (part :: parts) = .ok (a :: values) := by
  rw [numbers, number_eq_ok hpart]
  show (numbers text room parts >>= _) = _
  rw [h]
  rfl

theorem numbers_eq_error (h : NumbersFault text room parts e) :
    numbers text room parts = .error e := by
  induction h with
  | full => rfl
  | here hpart =>
    rw [numbers, number_eq_error hpart]
    rfl
  | later hpart _ ih => exact numbers_cons_of_error ih hpart

theorem numbers_eq_ok (h : List.Forall₂ IsNumber parts values) (hroom : values.length ≤ room) :
    numbers text room parts = .ok values := by
  induction h generalizing room with
  | nil => rw [numbers]
  | cons hpart _ ih =>
    obtain ⟨room, rfl⟩ := Nat.exists_eq_add_one.mpr (Nat.lt_of_lt_of_le (Nat.succ_pos _) hroom)
    exact numbers_cons_of_ok (ih (Nat.le_of_succ_le_succ hroom)) hpart

/-- The parts are numbers that there is room for, or something is wrong with them. -/
theorem numbers_cases (text : List Char) (room : Nat) (parts : List (List Char)) :
    (∃ values, List.Forall₂ IsNumber parts values ∧ values.length ≤ room) ∨
      ∃ e, NumbersFault text room parts e := by
  induction parts generalizing room with
  | nil => exact .inl ⟨[], .nil, Nat.zero_le _⟩
  | cons part parts ih =>
    cases room with
    | zero => exact .inr ⟨_, .full⟩
    | succ room =>
      by_cases hpart : ∃ a, IsNumber part a
      · obtain ⟨a, ha⟩ := hpart
        rcases ih room with ⟨values, hvalues, hroom⟩ | ⟨e, he⟩
        · exact .inl ⟨a :: values, .cons ha hvalues, Nat.succ_le_succ hroom⟩
        · exact .inr ⟨e, .later ha he⟩
      · exact .inr ⟨_, .here (not_exists.mp hpart)⟩

end Numbers

section Vectors

variable {text : List Char} {values : List Binary32} {v w : Vec4} {e : ArgumentError}

/-- The vector of at most four numbers. -/
theorem toList_getD (h : values.length ≤ 4) :
    (⟨values.getD 0 .zero, values.getD 1 .zero, values.getD 2 .zero, values.getD 3 .one⟩ :
      Vec4).toList = values ++ [Binary32.zero, .zero, .zero, .one].drop values.length := by
  match values, h with
  | [], _ => rfl
  | [_], _ => rfl
  | [_, _], _ => rfl
  | [_, _, _], _ => rfl
  | [_, _, _, _], _ => rfl

theorem toList_inj (h : v.toList = w.toList) : v = w := by
  cases v
  cases w
  simpa [Quad.toList] using h

theorem vector_eq_ok (h : IsVector text v) : vector text = .ok v := by
  obtain ⟨values, hvalues, -, hroom, hv⟩ := h
  rw [vector, commaParts, numbers_eq_ok hvalues hroom]
  exact congrArg Except.ok (toList_inj ((toList_getD hroom).trans hv.symm))

theorem vector_eq_error (h : VectorFault text e) : vector text = .error e := by
  rw [vector, commaParts, numbers_eq_error h]
  rfl

theorem vector_cases (text : List Char) : (∃ v, IsVector text v) ∨ ∃ e, VectorFault text e := by
  rcases numbers_cases text 4 (text.splitOn ',') with ⟨values, hvalues, hroom⟩ | hfault
  · refine .inl ⟨_, values, hvalues, ?_, hroom, toList_getD hroom⟩
    rw [← hvalues.length_eq]
    exact List.length_pos_of_ne_nil (List.splitOn_ne_nil _ _)
  · exact .inr hfault

theorem vector_eq_ok_iff : vector text = .ok v ↔ IsVector text v := by
  refine ⟨fun h => ?_, vector_eq_ok⟩
  rcases vector_cases text with ⟨w, hw⟩ | ⟨e, he⟩
  · rw [vector_eq_ok hw] at h
    cases h
    exact hw
  · rw [vector_eq_error he] at h
    cases h

end Vectors

/-! ## Assignments -/

/-- The name in front of the first equals sign gets the vector behind it. -/
def Assigns (text : String) (name : List Char) (v : Vec4) : Prop :=
  ∃ front value, text.toList = front ++ '=' :: value ∧ '=' ∉ front ∧
    name = trimWhiteSpace front ∧ IsVector value v

/-- There is no equals sign, or no vector behind the first one. -/
inductive AssignmentFault (text : String) : ArgumentError → Prop where
  | missing (h : '=' ∉ text.toList) : AssignmentFault text (.notAnAssignment text)
  | value {front value e} (h : text.toList = front ++ '=' :: value) (hfront : '=' ∉ front)
      (hvalue : VectorFault value e) : AssignmentFault text e

section Assignments

variable {text : String} {name : List Char} {v : Vec4} {e : ArgumentError}

/-- A text with an equals sign is split at the first one. -/
theorem assignment_eq {front value : List Char} (h : text.toList = front ++ '=' :: value)
    (hfront : '=' ∉ front) :
    assignment text = (vector value).map fun v => (trimWhiteSpace front, v) := by
  have hall : ∀ c ∈ front, decide (c ≠ '=') = true :=
    fun c hc => decide_eq_true fun heq => hfront (heq ▸ hc)
  simp only [assignment, h]
  rw [List.dropWhile_append_of_pos hall, List.takeWhile_append_of_pos hall,
    List.dropWhile_cons_of_neg (by decide), List.takeWhile_cons_of_neg (by decide),
    List.append_nil]
  show (vector value >>= fun v => pure (trimWhiteSpace front, v)) = _
  cases vector value with
  | ok v => rfl
  | error e => rfl

theorem assignment_eq_ok (h : Assigns text name v) : assignment text = .ok (name, v) := by
  obtain ⟨front, value, htext, hfront, rfl, hvalue⟩ := h
  rw [assignment_eq htext hfront, vector_eq_ok hvalue]
  rfl

theorem assignment_eq_error (h : AssignmentFault text e) : assignment text = .error e := by
  cases h with
  | missing h =>
    have hnone : text.toList.dropWhile (· ≠ '=') = [] :=
      List.dropWhile_eq_nil_iff.mpr fun c hc => decide_eq_true fun heq => h (heq ▸ hc)
    simp only [assignment, hnone]
  | value htext hfront hvalue =>
    rw [assignment_eq htext hfront, vector_eq_error hvalue]
    rfl

theorem assignment_cases (text : String) :
    (∃ name v, Assigns text name v) ∨ ∃ e, AssignmentFault text e := by
  by_cases hequals : '=' ∈ text.toList
  · obtain ⟨front, value, htext, hfront⟩ := List.eq_append_cons_of_mem hequals
    rcases vector_cases value with ⟨v, hv⟩ | ⟨e, he⟩
    · exact .inl ⟨_, v, front, value, htext, hfront, rfl, hv⟩
    · exact .inr ⟨e, .value htext hfront he⟩
  · exact .inr ⟨_, .missing hequals⟩

end Assignments

end FragmentAssembly.CommandLine

import FragmentAssembly.CommandLine.Arguments

/-!
# Arguments as they are written

A call names a file among options with values.  The value of an option is the next argument or
part of the same one.  Such a call is read as the request that it was written for.
-/

namespace FragmentAssembly.CommandLine

namespace OptionKind

def letter : OptionKind → Char
  | input => 'i'
  | param => 'p'
  | texture => 't'

def name : OptionKind → String
  | input => "input"
  | param => "param"
  | texture => "texture"

end OptionKind

/-- How an option is written with its value. -/
inductive Form where
  /-- As in `-i COL0=1`. -/
  | short
  /-- As in `--input COL0=1`. -/
  | long
  /-- As in `-iCOL0=1`. -/
  | shortAttached
  /-- As in `-i=COL0=1`. -/
  | shortAssigned
  /-- As in `--input=COL0=1`. -/
  | longAssigned
deriving DecidableEq, Repr

/-- An option with its value in some form. -/
structure Use where
  kind : OptionKind
  form : Form
  value : String
deriving DecidableEq, Repr

/-- The argument does not look like an option. -/
def IsOrdinary (argument : String) : Prop :=
  ∀ c rest, argument.toList ≠ '-' :: c :: rest

namespace Use

def words (u : Use) : List String :=
  match u.form with
  | .short => ["-" ++ String.singleton u.kind.letter, u.value]
  | .long => ["--" ++ u.kind.name, u.value]
  | .shortAttached => ["-" ++ String.singleton u.kind.letter ++ u.value]
  | .shortAssigned => ["-" ++ String.singleton u.kind.letter ++ "=" ++ u.value]
  | .longAssigned => ["--" ++ u.kind.name ++ "=" ++ u.value]

/-- The value can be told from an option and from the equals sign in front of it. -/
def IsSupported (u : Use) : Prop :=
  match u.form with
  | .short | .long => IsOrdinary u.value
  | .shortAttached => u.value.toList ≠ [] ∧ ∀ rest, u.value.toList ≠ '=' :: rest
  | .shortAssigned | .longAssigned => ∀ rest, u.value.toList ≠ '=' :: rest

def argument (u : Use) : OptionKind × String :=
  (u.kind, u.value)

end Use

/-- What options with their values ask for. -/
def requestOf (file : Option String) (uses : List Use) : Request :=
  { file, uses := uses.map Use.kind, values := uses.map Use.argument }

/-! ## Single options -/

section Attached

variable {value : String} (h : ∀ rest, value.toList ≠ '=' :: rest)

include h

theorem dropWhile_equals : value.toList.dropWhile (· = '=') = value.toList := by
  cases htext : value.toList with
  | nil => rfl
  | cons c rest =>
    refine List.dropWhile_cons_of_neg fun hc => h rest ?_
    rw [htext, of_decide_eq_true hc]

theorem attachedValue?_toList (hne : value.toList ≠ []) :
    attachedValue? value.toList = some value := by
  rw [attachedValue?, dropWhile_equals h, String.ofList_toList]
  exact hne

theorem attachedValue?_assigned : attachedValue? ('=' :: value.toList) = some value := by
  rw [attachedValue?, List.dropWhile_cons_of_pos (by decide), dropWhile_equals h,
    String.ofList_toList]
  exact List.cons_ne_nil _ _

end Attached

theorem readLong_name (kind : OptionKind) :
    readLong (kind.name.toList.dropWhile (· = '-')) = .ok (kind, none) := by
  cases kind <;> rfl

theorem readLong_assigned (kind : OptionKind) {value : String}
    (h : ∀ rest, value.toList ≠ '=' :: rest) :
    readLong ((kind.name.toList ++ '=' :: value.toList).dropWhile (· = '-')) =
      .ok (kind, some value) := by
  have hname : readLong ((kind.name.toList ++ '=' :: value.toList).dropWhile (· = '-')) =
      .ok (kind, attachedValue? ('=' :: value.toList)) := by
    cases kind <;> rfl
  rw [hname, attachedValue?_assigned h]

namespace Reading

variable {s : Reading} {argument : String}

theorem step_short (hplain : s.plain = false) {kind : OptionKind} {rest : List Char}
    (h : argument.toList = '-' :: kind.letter :: rest) :
    s.step argument = .ok (s.option kind (attachedValue? rest)) := by
  rw [step, hplain, h]
  cases kind <;> rfl

theorem step_long (hplain : s.plain = false) {text : List Char} {kind : OptionKind}
    {attached : Option String} (h : argument.toList = '-' :: '-' :: text)
    (hread : readLong (text.dropWhile (· = '-')) = .ok (kind, attached)) :
    s.step argument = .ok (s.option kind attached) := by
  rw [step, hplain, h]
  cases text with
  | nil => cases hread
  | cons c text =>
    show (readLong ((c :: text).dropWhile (· = '-')) >>= _) = _
    rw [hread]
    rfl

theorem step_ordinary (hplain : s.plain = false) (h : IsOrdinary argument) :
    s.step argument = s.ordinary argument := by
  rw [step, hplain]
  simp only [Bool.false_eq_true, if_false]
  split
  · rename_i htext
    exact absurd htext (h _ _)
  · rename_i htext
    exact absurd htext (h _ _)
  · rename_i htext
    exact absurd htext (h _ _)
  · rfl

theorem readAll_cons {t : Reading} {rest : List String} (h : s.step argument = .ok t) :
    s.readAll (argument :: rest) = t.readAll rest := by
  rw [readAll, h]

theorem finish_of_correct {file : String} (hfile : s.request.file = some file)
    (h : ∀ kind ∈ s.pending.toList ++ s.request.uses, s.request.optionError? kind = none) :
    s.finish = .ok s.request := by
  rw [finish, hfile, List.findSome?_eq_none_iff.mpr h]
  rfl

/-- A use of an option enters its value. -/
def enter (s : Reading) (u : Use) : Reading :=
  { s with request := (s.request.use u.kind).add u.kind u.value, pending := none }

/-- The value is the argument behind the option. -/
theorem readAll_option (hplain : s.plain = false) {u : Use} (hvalue : IsOrdinary u.value)
    {rest : List String} (h : s.step argument = .ok (s.option u.kind none)) :
    s.readAll (argument :: u.value :: rest) = (s.enter u).readAll rest := by
  rw [readAll_cons h]
  exact readAll_cons (step_ordinary hplain hvalue)

theorem readAll_words (hplain : s.plain = false) {u : Use} (h : u.IsSupported)
    (rest : List String) : s.readAll (u.words ++ rest) = (s.enter u).readAll rest := by
  obtain ⟨kind, form, value⟩ := u
  -- a form is one word or two, and the second one is the value
  cases form with
  | short =>
    have hargument : ("-" ++ String.singleton kind.letter).toList = '-' :: kind.letter :: [] := by
      simp
    exact readAll_option hplain h (step_short hplain hargument)
  | long =>
    have hargument : ("--" ++ kind.name).toList = '-' :: '-' :: kind.name.toList := by simp
    exact readAll_option hplain h (step_long hplain hargument (readLong_name kind))
  | shortAttached =>
    have hargument : ("-" ++ String.singleton kind.letter ++ value).toList =
        '-' :: kind.letter :: value.toList := by simp
    refine readAll_cons ((step_short hplain hargument).trans ?_)
    rw [attachedValue?_toList h.2 h.1]
    rfl
  | shortAssigned =>
    have hargument : ("-" ++ String.singleton kind.letter ++ "=" ++ value).toList =
        '-' :: kind.letter :: '=' :: value.toList := by simp
    refine readAll_cons ((step_short hplain hargument).trans ?_)
    rw [attachedValue?_assigned h]
    rfl
  | longAssigned =>
    have hargument : ("--" ++ kind.name ++ "=" ++ value).toList =
        '-' :: '-' :: (kind.name.toList ++ '=' :: value.toList) := by simp
    exact readAll_cons (step_long hplain hargument (readLong_assigned kind h))

end Reading

/-! ## Calls -/

theorem enter_requestOf (file : Option String) (uses : List Use) (u : Use) :
    Reading.enter { request := requestOf file uses } u =
      { request := requestOf file (uses ++ [u]) } := by
  simp [Reading.enter, requestOf, Request.use, Request.add, Use.argument]

theorem readAll_uses {uses : List Use} (h : ∀ u ∈ uses, u.IsSupported) (file : Option String)
    (before : List Use) (rest : List String) :
    Reading.readAll { request := requestOf file before } (uses.flatMap Use.words ++ rest) =
      Reading.readAll { request := requestOf file (before ++ uses) } rest := by
  induction uses generalizing before with
  | nil => rw [List.flatMap_nil, List.nil_append, List.append_nil]
  | cons u uses ih =>
    rw [List.forall_mem_cons] at h
    rw [List.flatMap_cons, List.append_assoc, Reading.readAll_words rfl h.1, enter_requestOf,
      ih h.2, List.append_assoc, List.singleton_append]

theorem readAll_file {file : String} (h : IsOrdinary file) (before : List Use)
    (rest : List String) :
    Reading.readAll { request := requestOf none before } (file :: rest) =
      Reading.readAll { request := requestOf (some file) before } rest :=
  Reading.readAll_cons (Reading.step_ordinary rfl h)

theorem length_valuesOf (file : Option String) (uses : List Use) (kind : OptionKind) :
    ((requestOf file uses).valuesOf kind).length = (uses.map Use.kind).count kind := by
  rw [Request.valuesOf, List.length_map, ← List.countP_eq_length_filter, requestOf,
    List.countP_map, List.count, List.countP_map]
  rfl

/-- Nothing is wrong with the use of an option that may be used so often. -/
theorem optionError?_requestOf (file : Option String) {uses : List Use} {kind : OptionKind}
    (hused : kind ∈ uses.map Use.kind) (htexture : (uses.map Use.kind).count .texture ≤ 1) :
    (requestOf file uses).optionError? kind = none := by
  have hcount : 0 < (uses.map Use.kind).count kind := List.count_pos_iff.mpr hused
  have hvalues : ((requestOf file uses).valuesOf kind).isEmpty = false := by
    rw [List.isEmpty_eq_false_iff, ← List.length_pos_iff, length_valuesOf]
    exact hcount
  have hrepeated : (!kind.isRepeatable && 1 < (requestOf file uses).uses.count kind) = false := by
    cases kind with
    | input => rfl
    | param => rfl
    | texture => exact decide_eq_false (Nat.not_lt.mpr htexture)
  rw [Request.optionError?, hvalues, hrepeated]
  rfl

theorem readArguments_call {file : String} {front back : List Use} (hfile : IsOrdinary file)
    (hsupported : ∀ u ∈ front ++ back, u.IsSupported)
    (htexture : ((front ++ back).map Use.kind).count .texture ≤ 1) :
    readArguments (front.flatMap Use.words ++ file :: back.flatMap Use.words) =
      .ok (requestOf (some file) (front ++ back)) := by
  rw [List.forall_mem_append] at hsupported
  have hread : readArguments (front.flatMap Use.words ++ file :: back.flatMap Use.words) =
      Reading.readAll { request := requestOf (some file) (front ++ back) } [] := by
    have hfront := readAll_uses hsupported.1 none [] (file :: back.flatMap Use.words)
    have hback := readAll_uses hsupported.2 (some file) front []
    rw [List.nil_append, readAll_file hfile] at hfront
    rw [List.append_nil] at hback
    exact hfront.trans hback
  rw [hread, Reading.readAll, Reading.finish_of_correct rfl fun kind hkind =>
    optionError?_requestOf (some file) hkind htexture]
  rfl

end FragmentAssembly.CommandLine

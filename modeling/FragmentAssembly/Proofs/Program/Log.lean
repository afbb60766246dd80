import FragmentAssembly.Proofs.Program.Statements

/-!
# The log of a compilation

A note is made of each instruction when it has been read, and of each entry of the table.  The last
note tells how the compilation ended.
-/

namespace FragmentAssembly

/-! ## Notes -/

def Note.isRead : Note → Bool
  | .instructionRead .. => true
  | _ => false

/-- The notes that are made while a text is read. -/
def Note.isInner (n : Note) : Bool :=
  n.isEntry || n.isRead

/-- The note of an instruction that has been read. -/
def Instruction.NotedAs (ins : Instruction) (n : Note) : Prop :=
  ∃ line, n = .instructionRead ins.opcode ins.position line

theorem Note.isRead_of_isEntry {n : Note} (h : n.isEntry = true) : n.isRead = false := by
  cases n with
  | instructionRead => cases h
  | _ => rfl

theorem filter_isRead_of_isEntry {notes : List Note} (h : ∀ n ∈ notes, n.isEntry = true) :
    notes.filter Note.isRead = [] := by
  rw [List.filter_eq_nil_iff]
  intro n hn
  rw [Note.isRead_of_isEntry (h n hn)]
  exact Bool.false_ne_true

namespace Compile

variable {count : Nat} {d e : Draft} {added : Statement} {body : List Instruction}

theorem Leads.of_ok {α : Type} {R : Draft → Draft → Prop} {m : Compile α} {a : α} (hm : m.Leads R)
    (h : m d = .ok a e) : R d e := by
  have hleads := hm d
  rwa [leaves, h] at hleads

/-- A statement makes a note of its instruction, behind those of what it enters. -/
theorem notes_of_statement (h : statement count d = .ok added e) :
    ∃ new, e.notes.toList = d.notes.toList ++ new ∧
      List.Forall₂ Instruction.NotedAs added.body (new.filter Note.isRead) := by
  have hcourse : Draft.Course (Draft.Notes Note.isEntry) := Draft.Notes.course fun _ h => h
  obtain ⟨-, name, k, -, hnamed⟩ := named_of_statement h
  cases hnamed with
  | definition _ hkind read =>
    obtain ⟨new, hnew, hentries⟩ := (hcourse.definition hkind).of_ok read
    refine ⟨new, hnew, ?_⟩
    rw [filter_isRead_of_isEntry hentries]
    exact .nil
  | finish _ read =>
    obtain ⟨-, -, rfl⟩ := finish_eq read
    exact ⟨[], (List.append_nil _).symm, .nil⟩
  | @instruction f ins _ _ read =>
    obtain ⟨new, hnew, hentries⟩ := (hcourse.instruction name).of_ok read
    refine ⟨new ++ [.instructionRead ins.opcode ins.position f.cursor.line], ?_, ?_⟩
    · rw [Array.toList_push, hnew, List.append_assoc]
    · rw [List.filter_append, filter_isRead_of_isEntry hentries]
      exact .cons ⟨_, rfl⟩ .nil

theorem Passes.notes (h : Passes count d body e) :
    ∃ new, e.notes.toList = d.notes.toList ++ new ∧
      List.Forall₂ Instruction.NotedAs body (new.filter Note.isRead) := by
  induction h with
  | nil => exact ⟨[], (List.append_nil _).symm, .nil⟩
  | @cons count d m e added body read _ _ ih =>
    obtain ⟨new, hnew, hnoted⟩ := notes_of_statement read
    obtain ⟨more, hmore, hnoted'⟩ := ih
    refine ⟨new ++ more, by rw [hmore, hnew, List.append_assoc], ?_⟩
    rw [List.filter_append]
    exact List.rel_append hnoted hnoted'

end Compile

/-! ## Compilation -/

/-- The last note of a compilation. -/
def outcomeNote : Except ParseError Program → Note
  | .ok p => .compiled p.instructions.length p.parameters.size
  | .error e => .compilationFailed e

theorem notes_of_compilation (source : String) : (compilation source).notes =
    (Compile.program.leaves { cursor := Cursor.ofText source }).notes.push
      (outcomeNote (compile source)) := by
  unfold compile compilation Compile.leaves
  cases Compile.program { cursor := Cursor.ofText source } with
  | error e d => rfl
  | ok instructions d =>
    dsimp only
    unfold Draft.success
    split
    · rfl
    · rfl

/-- What a compilation writes to the log. -/
def compilationRecords (source : String) : List Record :=
  (compilation source).notes.toList.map Note.record

/-- The record of an instruction that has been read. -/
def Instruction.RecordedAs (ins : Instruction) (r : Record) : Prop :=
  ∃ line, r = ⟨.trace, "append instruction", [Note.compilation,
    ("opcode", .text ins.opcode.mnemonic), ("position", Note.count ins.position),
    ("line", Note.count line)]⟩

/-- Whether a record tells how a compilation ended. -/
def Record.isOutcome (r : Record) : Bool :=
  r.message = "compiled program" || r.message = "compilation failed"

/-- This record ends the log, and no other one tells how the compilation ended. -/
def Concludes (records : List Record) (r : Record) : Prop :=
  records.getLast? = some r ∧ records.filter Record.isOutcome = [r]

theorem Note.isRead_eq (n : Note) :
    decide (n.record.message = "append instruction") = n.isRead := by
  cases n <;> simp [Note.record, Note.isRead]

theorem Note.isOutcome_of_isInner {n : Note} (h : n.isInner = true) :
    n.record.isOutcome = false := by
  cases n <;> first | rfl | cases h

theorem inner_of_leaves (source : String) :
    ∀ n ∈ (Compile.program.leaves { cursor := Cursor.ofText source }).notes.toList,
      n.isInner = true := by
  have hcourse : Draft.Course (Draft.Notes Note.isInner) :=
    Draft.Notes.course fun n h => by rw [Note.isInner, h, Bool.true_or]
  obtain ⟨new, hnew, hinner⟩ := hcourse.program
    (fun opcode position line d => Draft.Notes.push d rfl) { cursor := Cursor.ofText source }
  rw [hnew]
  exact hinner

theorem concludes_of_compilation (source : String) :
    Concludes (compilationRecords source) (outcomeNote (compile source)).record := by
  have houtcome : (outcomeNote (compile source)).record.isOutcome = true := by
    cases compile source <;> rfl
  rw [compilationRecords, notes_of_compilation, Array.toList_push, List.map_append]
  refine ⟨List.getLast?_concat, ?_⟩
  rw [List.filter_append, List.filter_eq_nil_iff.mpr]
  · rw [List.map_singleton, List.filter_cons_of_pos houtcome]
    rfl
  · intro r hr
    obtain ⟨n, hn, rfl⟩ := List.mem_map.mp hr
    rw [Note.isOutcome_of_isInner (inner_of_leaves source n hn)]
    exact Bool.false_ne_true

namespace Compile.Run

variable {source : String} {p : Program} {body : List Instruction} {ins : Instruction}
  {e f : Draft}

/-- Each instruction but the `END` has its record. -/
theorem recorded (h : Run source p body ins e f) : List.Forall₂ Instruction.RecordedAs p.body
    ((compilationRecords source).filter (·.message = "append instruction")) := by
  obtain ⟨new, hnew, hnoted⟩ := h.passes.notes
  obtain ⟨last, hlast, hnothing⟩ := notes_of_statement h.finish
  have houtcome : (outcomeNote (compile source)).isRead = false := by
    cases compile source <;> rfl
  have hread : ((compilation source).notes.toList.filter Note.isRead) = new.filter Note.isRead := by
    rw [notes_of_compilation, h.leaves, Array.toList_push, hlast, hnew, List.filter_append,
      List.filter_append, List.filter_append, List.forall₂_nil_left_iff.mp hnothing,
      List.append_nil, List.filter_cons_of_neg (by rw [houtcome]; decide), List.filter_nil,
      List.append_nil]
    rfl
  have hmessage : (fun r : Record => decide (r.message = "append instruction")) ∘ Note.record =
      Note.isRead :=
    funext Note.isRead_eq
  rw [h.body_eq, compilationRecords, List.filter_map, hmessage, hread, List.forall₂_map_right_iff]
  refine hnoted.imp ?_
  rintro ins _ ⟨line, rfl⟩
  exact ⟨line, rfl⟩

end Compile.Run

/-- The statements of a source that compiles, but for its definitions, are its instructions in their
order, with the `END` as the last one.  These lie where the names of the statements start, so they
lie one behind the other.  The log has a record for each of them but the `END`, and it ends with the
one record that tells how the compilation ended. -/
theorem compilation_traced (source : String) :
    match compile source with
    | .ok p => p.Follows source ∧
        List.Forall₂ Instruction.RecordedAs p.body
          ((compilationRecords source).filter (·.message = "append instruction")) ∧
        Concludes (compilationRecords source) ⟨.debug, "compiled program", [Note.compilation,
          ("instructions", Note.count p.instructions.length),
          ("parameters", Note.count p.parameters.size)]⟩
    | .error e => Concludes (compilationRecords source) ⟨.debug, "compilation failed",
        [Note.compilation, ("position", Note.count e.position), ("error", .text e.message)]⟩ := by
  have hconcludes := concludes_of_compilation source
  cases hcompile : compile source with
  | error e =>
    rw [hcompile] at hconcludes
    exact hconcludes
  | ok p =>
    rw [hcompile] at hconcludes
    obtain ⟨body, ins, e, f, hrun⟩ := Compile.exists_run hcompile
    exact ⟨hrun.follows, hrun.recorded, hconcludes⟩

/-- The semicolon in the comment parts nothing. -/
theorem compilation_traced_commented :
    ∃ p, compile "!!FP1.0 DEFINE a = 1; #;\nMOV o[COLR], a; END" = .ok p ∧
      p.instructions.map Instruction.position = [25, 41] ∧
      p.Follows "!!FP1.0 DEFINE a = 1; #;\nMOV o[COLR], a; END" := by
  obtain ⟨p, hp, hpositions⟩ : ∃ p,
      compile "!!FP1.0 DEFINE a = 1; #;\nMOV o[COLR], a; END" = .ok p ∧
        p.instructions.map Instruction.position = [25, 41] :=
    exists_of_decide (by decide +kernel)
  refine ⟨p, hp, hpositions, ?_⟩
  generalize "!!FP1.0 DEFINE a = 1; #;\nMOV o[COLR], a; END" = source at hp ⊢
  have htraced := compilation_traced source
  rw [hp] at htraced
  exact htraced.1

end FragmentAssembly

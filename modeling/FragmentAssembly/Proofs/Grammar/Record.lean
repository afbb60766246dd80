import FragmentAssembly.Proofs.Disassembly.Table
import FragmentAssembly.Proofs.Grammar.Basic
import FragmentAssembly.Proofs.Program.Usage

/-!
# Records of mentions

What an inventory knows of the text before it: which names were defined, which outputs written and
which texture units used.  Every mention that is allowed is entered into this record.
-/

namespace FragmentAssembly

open Grammar

namespace ParameterTable

theorem isSome_lookup? {t : ParameterTable} (hstep : t.InStep) {name : String} :
    (t.lookup? name).isSome = true ↔ ∃ entry ∈ t.entries, entry.name = some name := by
  rw [← not_iff_not, Option.not_isSome_iff_eq_none, lookup?_eq_none hstep]
  simp only [not_exists, not_and, ne_eq]

theorem isSome_lookup?_addNamed (t : ParameterTable) (name : String) (kind : ParameterKind)
    (v : Vec4) (other : String) :
    ((t.addNamed name kind v).2.lookup? other).isSome = true ↔
      (t.lookup? other).isSome = true ∨ other = name := by
  rw [lookup?_addNamed]
  split <;> simp [*]

/-- A literal has no name. -/
theorem isSome_lookup?_addLiteral (t : ParameterTable) (v : Vec4) (name : String) :
    ((t.addLiteral v).2.lookup? name).isSome = true ↔ (t.lookup? name).isSome = true := by
  rw [lookup?_addLiteral]

end ParameterTable

namespace Inventory

/-- The inventory has entered what was mentioned, and no names, outputs or textures besides.  No
reserved name was defined, and the table is in step. -/
structure Records (i : Inventory) (ms : List Mention) : Prop where
  name : ∀ name, (i.parameters.lookup? name).isSome = true ↔ .define name ∈ ms
  free : ∀ name, .define name ∈ ms → ¬IsReserved name
  output : ∀ n, i.outputsWritten.testBit n = true ↔ ∃ o : OutputIndex, o.val = n ∧ .write o ∈ ms
  texture : ∀ unit target, i.textures.get unit = some target ↔ .sample ⟨unit, target⟩ ∈ ms
  inStep : i.parameters.InStep

/-- From the one inventory to the other exactly these mentions are entered, and they may be. -/
def Gathers (i : Inventory) (new : List Mention) (j : Inventory) : Prop :=
  ∀ ms, i.Records ms → Consistent ms new ∧ j.Records (ms ++ new)

theorem Gathers.append {i j k : Inventory} {new more : List Mention} (h : i.Gathers new j)
    (h' : j.Gathers more k) : i.Gathers (new ++ more) k := by
  intro ms hms
  obtain ⟨hnew, hj⟩ := h ms hms
  obtain ⟨hmore, hk⟩ := h' _ hj
  rw [List.append_assoc] at hk
  exact ⟨consistent_append.mpr ⟨hnew, hmore⟩, hk⟩

/-- Nothing is mentioned. -/
theorem Gathers.nothing {i j : Inventory} (h : ∀ ms, i.Records ms → j.Records ms) :
    i.Gathers [] j := by
  intro ms hms
  rw [List.append_nil]
  exact ⟨trivial, h ms hms⟩

theorem Gathers.refl (i : Inventory) : i.Gathers [] i :=
  .nothing fun _ hms => hms

theorem records_empty : Records {} [] where
  name := fun _ => by
    rw [ParameterTable.isSome_lookup? ParameterTable.inStep_empty]
    simp
  free := nofun
  output := fun n => by simp
  texture := fun unit target => by simp [Vector.get]
  inStep := ParameterTable.inStep_empty

namespace Records

variable {i : Inventory} {ms : List Mention}

theorem literal (h : i.Records ms) (v : Vec4) :
    Records { i with parameters := (i.parameters.addLiteral v).2 } ms :=
  { h with
    name := fun name => (i.parameters.isSome_lookup?_addLiteral v name).trans (h.name name)
    inStep := h.inStep.addLiteral v }

theorem define {name : String} (h : i.Records ms) (hfree : ¬IsReserved name)
    (kind : ParameterKind) (v : Vec4) :
    Records { i with parameters := (i.parameters.addNamed name kind v).2 }
      (ms ++ [.define name]) where
  name other := by
    rw [i.parameters.isSome_lookup?_addNamed, h.name other, List.mem_append, List.mem_singleton,
      Mention.define.injEq]
  free other hother := by
    rw [List.mem_append, List.mem_singleton, Mention.define.injEq] at hother
    rcases hother with hother | rfl
    · exact h.free other hother
    · exact hfree
  output := by simpa using h.output
  texture := by simpa using h.texture
  inStep := h.inStep.addNamed name kind v

theorem use (h : i.Records ms) (name : String) : i.Records (ms ++ [.use name]) where
  name := by simpa using h.name
  free := by simpa using h.free
  output := by simpa using h.output
  texture := by simpa using h.texture
  inStep := h.inStep

theorem temporary (h : i.Records ms) (name : String) :
    i.Records (ms ++ [.temporary name]) where
  name := by simpa using h.name
  free := by simpa using h.free
  output := by simpa using h.output
  texture := by simpa using h.texture
  inStep := h.inStep

theorem write (h : i.Records ms) (o : OutputIndex) :
    Records { i with outputsWritten := i.outputsWritten ||| (1 <<< o.val) }
      (ms ++ [.write o]) where
  name := by simpa using h.name
  free := by simpa using h.free
  output n := by
    rw [testBit_mark, h.output n]
    simp only [List.mem_append, List.mem_singleton, Mention.write.injEq, and_or_left, exists_or,
      exists_eq_right]
  texture := by simpa using h.texture
  inStep := h.inStep

/-- A unit without a target is given one. -/
theorem sample {image : TextureImage} (h : i.Records ms)
    (hunused : i.textures.get image.unit = none) :
    Records
      { i with textures := i.textures.set image.unit.val (some image.target) image.unit.isLt }
      (ms ++ [.sample image]) where
  name := by simpa using h.name
  free := by simpa using h.free
  output := by simpa using h.output
  texture unit target := by
    rw [(Samples.fresh hunused).textures unit target, h.texture, List.mem_append,
      List.mem_singleton, Mention.sample.injEq, eq_comm (a := image)]
  inStep := h.inStep

theorem sample_again {image : TextureImage} (h : i.Records ms)
    (hused : i.textures.get image.unit = some image.target) :
    i.Records (ms ++ [.sample image]) where
  name := by simpa using h.name
  free := by simpa using h.free
  output := by simpa using h.output
  texture unit target := by
    rw [List.mem_append, List.mem_singleton, ← h.texture, iff_self_or, Mention.sample.injEq]
    rintro rfl
    exact hused
  inStep := h.inStep

theorem writesBothColors (h : i.Records ms) :
    Compile.writesBothColors i.outputsWritten = true ↔ .write .colr ∈ ms ∧ .write .colh ∈ ms := by
  rw [Compile.writesBothColors, Bool.and_eq_true, h.output, h.output]
  constructor
  · rintro ⟨⟨o, ho, hcolr⟩, ⟨o', ho', hcolh⟩⟩
    rw [Fin.ext ho] at hcolr
    rw [Fin.ext ho'] at hcolh
    exact ⟨hcolr, hcolh⟩
  · rintro ⟨hcolr, hcolh⟩
    exact ⟨⟨_, rfl, hcolr⟩, ⟨_, rfl, hcolh⟩⟩

end Records

end Inventory

end FragmentAssembly

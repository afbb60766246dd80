import FragmentAssembly.Proofs.Grammar.Record
import FragmentAssembly.Proofs.Program.Parameters

/-!
# Joined inventories

What is entered behind the inventory of another text.  The names, the texture units and the color
results of both must be compatible.  Literals of the one text are used again by the other one, so
that the same entry may have two indices.
-/

namespace FragmentAssembly

/-! ## Tables -/

namespace ParameterTable

/-- What was entered into `s` from the beginning is entered into `t` behind the entries of `b`, and
there may be more literals in between. -/
inductive Joins (b : ParameterTable) : ParameterTable → ParameterTable → Prop where
  | nothing : Joins b {} b
  | literal {s t : ParameterTable} (v : Vec4) (h : Joins b s t) :
    Joins b (s.addLiteral v).2 (t.addLiteral v).2
  | spare {s t : ParameterTable} (v : Vec4) (h : Joins b s t) : Joins b s (t.addLiteral v).2
  | define {s t : ParameterTable} {name : String} {kind : ParameterKind} (v : Vec4)
    (isName : IsName name) (free : isReserved name = false) (new : t.lookup? name = none)
    (known : kind ≠ .literal) (h : Joins b s t) :
    Joins b (s.addNamed name kind v).2 (t.addNamed name kind v).2

theorem IsRegular.addLiteral {t : ParameterTable} (h : t.IsRegular) (v : Vec4) :
    (t.addLiteral v).2.IsRegular :=
  Inventory.isRegular_of_reads (.literal { parameters := t } v) h

theorem IsRegular.addNamed {t : ParameterTable} (h : t.IsRegular) {name : String}
    {kind : ParameterKind} (v : Vec4) (hname : IsName name) (hfree : isReserved name = false)
    (hnew : t.lookup? name = none) (hknown : kind ≠ .literal) :
    (t.addNamed name kind v).2.IsRegular :=
  Inventory.isRegular_of_defines (i := { parameters := t }) (.named v hname hfree hnew hknown) h

theorem named_addLiteral (t : ParameterTable) (v : Vec4) : (t.addLiteral v).2.named = t.named := by
  rcases addLiteral_cases t v with ⟨-, hsame⟩ | ⟨-, hadded⟩
  · rw [hsame]
  · rw [hadded, named, List.filter_append]
    exact List.append_nil _

theorem named_addNamed (t : ParameterTable) (name : String) (kind : ParameterKind) (v : Vec4) :
    (t.addNamed name kind v).2.named = t.named ++ [⟨some name, kind, v⟩] := by
  rw [named, addNamed, List.filter_append]
  rfl

namespace Joins

variable {b s t : ParameterTable}

theorem isSome_lookup? (h : b.Joins s t) (name : String) : (t.lookup? name).isSome = true ↔
    (b.lookup? name).isSome = true ∨ (s.lookup? name).isSome = true := by
  induction h with
  | nothing => exact (or_iff_left Bool.false_ne_true).symm
  | literal v _ ih => rw [isSome_lookup?_addLiteral, isSome_lookup?_addLiteral, ih]
  | spare v _ ih => rw [isSome_lookup?_addLiteral, ih]
  | define v _ _ _ _ _ ih => rw [isSome_lookup?_addNamed, isSome_lookup?_addNamed, ih, or_assoc]

theorem isRegular (h : b.Joins s t) (hb : b.IsRegular) : t.IsRegular := by
  induction h with
  | nothing => exact hb
  | literal v _ ih | spare v _ ih => exact ih.addLiteral v
  | define v hname hfree hnew hknown _ ih => exact ih.addNamed v hname hfree hnew hknown

theorem inStep (h : b.Joins s t) : s.InStep := by
  induction h with
  | nothing => exact inStep_empty
  | literal v _ ih => exact ih.addLiteral v
  | spare _ _ ih => exact ih
  | define v _ _ _ _ _ ih => exact ih.addNamed _ _ v

/-- Every entry is found again. -/
theorem mem (h : b.Joins s t) (hb : b.IsRegular) {entry : Parameter} (hentry : entry ∈ s.entries) :
    entry ∈ t.entries := by
  induction h with
  | nothing => cases hentry
  | @literal s t v h ih =>
    obtain ⟨more, hmore⟩ := extends_addLiteral t v
    rcases addLiteral_cases s v with ⟨-, hsame⟩ | ⟨-, hadded⟩
    · rw [hsame] at hentry
      rw [← hmore]
      exact List.mem_append_left _ (ih hentry)
    · rw [hadded, List.mem_append, List.mem_singleton] at hentry
      rcases hentry with hentry | rfl
      · rw [← hmore]
        exact List.mem_append_left _ (ih hentry)
      · -- the literal may have been there for another text
        obtain ⟨found, hfound, hkind, hvalue⟩ := t.get?_addLiteral v
        have hmem := mem_of_get? hfound
        rwa [(((h.isRegular hb).addLiteral v).entry found hmem).eq_literal hkind hvalue] at hmem
  | @spare s t v h ih =>
    obtain ⟨more, hmore⟩ := extends_addLiteral t v
    rw [← hmore]
    exact List.mem_append_left _ (ih hentry)
  | define v _ _ _ _ _ ih =>
    rw [addNamed, List.mem_append] at hentry ⊢
    exact hentry.imp_left ih

theorem named (h : b.Joins s t) : t.named = b.named ++ s.named := by
  induction h with
  | nothing => exact (List.append_nil _).symm
  | literal v _ ih => rw [named_addLiteral, named_addLiteral, ih]
  | spare v _ ih => rw [named_addLiteral, ih]
  | define v _ _ _ _ _ ih => rw [named_addNamed, named_addNamed, ih, List.append_assoc]

/-- A name that is known in `s` denotes the same entry in `t`. -/
theorem lookup? (h : b.Joins s t) (hb : b.IsRegular) {name : String} {index : Nat}
    (hfound : s.lookup? name = some index) :
    ∃ index' entry, t.lookup? name = some index' ∧ s.get? index = some entry ∧
      t.get? index' = some entry := by
  obtain ⟨entry, hentry, hname⟩ := get?_of_lookup? h.inStep hfound
  obtain ⟨index', hindex'⟩ := List.mem_iff_getElem?.mp (h.mem hb (mem_of_get? hentry))
  refine ⟨index', entry, ?_, hentry, hindex'⟩
  exact ((h.isRegular hb).lookup?_eq_some).mpr ⟨entry, hindex', hname⟩

/-- A literal is the same entry in both tables, whether it was there before or not. -/
theorem get?_addLiteral (h : b.Joins s t) (hb : b.IsRegular) (v : Vec4) :
    ∃ entry, (s.addLiteral v).2.get? (s.addLiteral v).1 = some entry ∧
      (t.addLiteral v).2.get? (t.addLiteral v).1 = some entry := by
  have hafter := h.literal v
  have hregular := hafter.isRegular hb
  obtain ⟨entry, hentry, hkind, hvalue⟩ := ParameterTable.get?_addLiteral s v
  obtain ⟨entry', hentry', hkind', hvalue'⟩ := ParameterTable.get?_addLiteral t v
  have hmem := hafter.mem hb (mem_of_get? hentry)
  rw [(hregular.entry entry hmem).eq_literal hkind hvalue] at hentry
  rw [(hregular.entry entry' (mem_of_get? hentry')).eq_literal hkind' hvalue'] at hentry'
  exact ⟨_, hentry, hentry'⟩

end Joins

end ParameterTable

/-! ## Inventories -/

/-- With fewer outputs there is still no conflict. -/
theorem Compile.writesBothColors_of_or {m n : Nat} (h : writesBothColors (m ||| n) = false) :
    writesBothColors m = false := by
  rw [Bool.eq_false_iff] at h ⊢
  intro hboth
  apply h
  unfold writesBothColors at hboth ⊢
  rw [Bool.and_eq_true] at hboth ⊢
  rw [Nat.testBit_or, Nat.testBit_or, hboth.1, hboth.2]
  exact ⟨rfl, rfl⟩

namespace Inventory

/-- Two texts can stand one behind the other: no name is defined in both, no texture unit has
different targets, and they do not write both color results. -/
structure Compatible (b i : Inventory) : Prop where
  names : ∀ name, (b.parameters.lookup? name).isSome = true →
    ¬(i.parameters.lookup? name).isSome = true
  targets : ∀ unit target target', b.textures.get unit = some target →
    i.textures.get unit = some target' → target = target'
  colors : Compile.writesBothColors (b.outputsWritten ||| i.outputsWritten) = false

/-- `j` is the inventory `b` with what is in `i`. -/
structure Joined (b i j : Inventory) : Prop where
  regular : b.parameters.IsRegular
  compatible : b.Compatible i
  inputs : j.inputsRead = b.inputsRead ||| i.inputsRead
  outputs : j.outputsWritten = b.outputsWritten ||| i.outputsWritten
  textures : ∀ unit target, j.textures.get unit = some target ↔
    b.textures.get unit = some target ∨ i.textures.get unit = some target
  parameters : b.parameters.Joins i.parameters j.parameters

/-- More is in the second inventory: what it is compatible with, the first one is compatible with
as well. -/
structure Grows (i j : Inventory) : Prop where
  compatible : ∀ {b : Inventory}, b.Compatible j → b.Compatible i
  onward : j.parameters.Extends i.parameters

namespace Grows

variable {i j k : Inventory}

theorem refl (i : Inventory) : i.Grows i :=
  ⟨id, .refl _⟩

theorem trans (h : i.Grows j) (h' : j.Grows k) : i.Grows k :=
  ⟨fun hb => h.compatible (h'.compatible hb), h.onward.trans h'.onward⟩

theorem input (i : Inventory) (n : InputIndex) :
    i.Grows { i with inputsRead := i.inputsRead ||| (1 <<< n.val) } :=
  ⟨fun hb => { hb with }, .refl _⟩

theorem output (i : Inventory) (n : OutputIndex) :
    i.Grows { i with outputsWritten := i.outputsWritten ||| (1 <<< n.val) } := by
  refine ⟨fun hb => { hb with colors := ?_ }, .refl _⟩
  have hcolors := hb.colors
  rw [← Nat.or_assoc] at hcolors
  exact Compile.writesBothColors_of_or hcolors

theorem sample {image : TextureImage} (h : i.Samples image j) : i.Grows j := by
  refine ⟨fun {b} hb => ⟨?_, fun unit target target' hunit hunit' => ?_, ?_⟩, ?_⟩
  · rw [← h.parameters]
    exact hb.names
  · exact hb.targets unit target target' hunit ((h.textures unit target').mpr (.inl hunit'))
  · rw [← h.outputsWritten]
    exact hb.colors
  · rw [h.parameters]
    exact .refl _

theorem literal (i : Inventory) (v : Vec4) :
    i.Grows { i with parameters := (i.parameters.addLiteral v).2 } := by
  refine ⟨fun hb => { hb with names := fun name hname hdefined => ?_ },
    ParameterTable.extends_addLiteral _ v⟩
  exact hb.names name hname ((i.parameters.isSome_lookup?_addLiteral v name).mpr hdefined)

theorem define (i : Inventory) (name : String) (kind : ParameterKind) (v : Vec4) :
    i.Grows { i with parameters := (i.parameters.addNamed name kind v).2 } := by
  refine ⟨fun hb => { hb with names := fun other hother hdefined => ?_ },
    ParameterTable.extends_addNamed _ name kind v⟩
  exact hb.names other hother
    ((i.parameters.isSome_lookup?_addNamed name kind v other).mpr (.inl hdefined))

end Grows

namespace Compatible

variable {b i : Inventory}

/-- Nothing is compatible with everything that does not write both colors by itself. -/
theorem empty (hcolors : Compile.writesBothColors b.outputsWritten = false) : b.Compatible {} where
  names := nofun
  targets unit target target' _ h := by simp [Vector.get] at h
  colors := by
    dsimp only
    rwa [Nat.or_zero]

theorem of_empty (hcolors : Compile.writesBothColors i.outputsWritten = false) :
    Compatible {} i where
  names := nofun
  targets unit target target' h := by simp [Vector.get] at h
  colors := by
    dsimp only
    rwa [Nat.zero_or]

end Compatible

namespace Joined

variable {b i i' j : Inventory}

/-- Before anything is entered. -/
theorem nothing (hb : b.parameters.IsRegular)
    (hcolors : Compile.writesBothColors b.outputsWritten = false) : b.Joined {} b where
  regular := hb
  compatible := .empty hcolors
  inputs := (Nat.or_zero _).symm
  outputs := (Nat.or_zero _).symm
  textures unit target := by simp [Vector.get]
  parameters := .nothing

/-- Behind nothing an inventory differs in its literals at most. -/
theorem same_of_empty (h : Joined {} i j) : j.inputsRead = i.inputsRead ∧
    j.outputsWritten = i.outputsWritten ∧ j.textures = i.textures ∧
    j.parameters.named = i.parameters.named := by
  refine ⟨h.inputs.trans (Nat.zero_or _), h.outputs.trans (Nat.zero_or _), ?_, h.parameters.named⟩
  apply Vector.ext
  intro n hn
  apply Option.ext
  intro target
  have hunit := h.textures ⟨n, hn⟩ target
  simpa [Vector.get] using hunit

theorem compatible_iff_of_empty (h : Joined {} i j) {k : Inventory} :
    j.Compatible k ↔ i.Compatible k := by
  obtain ⟨-, houtputs, htextures, -⟩ := h.same_of_empty
  have hnames : ∀ name, (j.parameters.lookup? name).isSome = true ↔
      (i.parameters.lookup? name).isSome = true := fun name =>
    (h.parameters.isSome_lookup? name).trans (or_iff_right Bool.false_ne_true)
  constructor
  · intro hk
    exact ⟨fun name hname => hk.names name ((hnames name).mpr hname), htextures ▸ hk.targets,
      houtputs ▸ hk.colors⟩
  · intro hk
    exact ⟨fun name hname => hk.names name ((hnames name).mp hname), htextures.symm ▸ hk.targets,
      houtputs.symm ▸ hk.colors⟩

/-! ### Registers -/

theorem input (h : b.Joined i j) (n : InputIndex) :
    b.Joined { i with inputsRead := i.inputsRead ||| (1 <<< n.val) }
      { j with inputsRead := j.inputsRead ||| (1 <<< n.val) } :=
  { h with
    compatible := { h.compatible with }
    inputs := by dsimp only; rw [h.inputs, Nat.or_assoc] }

/-- The check behind an output is about the outputs of both texts. -/
theorem compatible_output (h : b.Joined i j) (n : OutputIndex) :
    b.Compatible { i with outputsWritten := i.outputsWritten ||| (1 <<< n.val) } ↔
      Compile.writesBothColors (j.outputsWritten ||| (1 <<< n.val)) = false := by
  rw [h.outputs, Nat.or_assoc]
  exact ⟨Compatible.colors, fun hcolors => { h.compatible with colors := hcolors }⟩

theorem output (h : b.Joined i j) (n : OutputIndex)
    (hcompatible : b.Compatible { i with outputsWritten := i.outputsWritten ||| (1 <<< n.val) }) :
    b.Joined { i with outputsWritten := i.outputsWritten ||| (1 <<< n.val) }
      { j with outputsWritten := j.outputsWritten ||| (1 <<< n.val) } :=
  { h with
    compatible := hcompatible
    outputs := by dsimp only; rw [h.outputs, Nat.or_assoc] }

/-! ### Texture units -/

/-- A unit that is in use keeps its target. -/
theorem compatible_sample (h : b.Joined i j) {image : TextureImage} (hi : i.Samples image i') :
    b.Compatible i' ↔ ∀ used, j.textures.get image.unit = some used → used = image.target := by
  constructor
  · intro hcompatible used hused
    have hnew := (hi.textures image.unit image.target).mpr (.inr rfl)
    rcases (h.textures image.unit used).mp hused with hb | hi'
    · exact hcompatible.targets _ _ _ hb hnew
    · rw [(hi.textures image.unit used).mpr (.inl hi')] at hnew
      exact Option.some.inj hnew
  · intro hused
    refine ⟨?_, fun unit target target' hb hi' => ?_, ?_⟩
    · rw [hi.parameters]
      exact h.compatible.names
    · rcases (hi.textures unit target').mp hi' with hold | rfl
      · exact h.compatible.targets unit target target' hb hold
      · exact hused target ((h.textures unit target).mpr (.inl hb))
    · rw [hi.outputsWritten]
      exact h.compatible.colors

theorem sample {j' : Inventory} (h : b.Joined i j) {image : TextureImage}
    (hi : i.Samples image i') (hj : j.Samples image j') (hcompatible : b.Compatible i') :
    b.Joined i' j' where
  regular := h.regular
  compatible := hcompatible
  inputs := by rw [hi.inputsRead, hj.inputsRead, h.inputs]
  outputs := by rw [hi.outputsWritten, hj.outputsWritten, h.outputs]
  textures unit target := by
    rw [hi.textures, hj.textures, h.textures, or_assoc]
  parameters := by
    rw [hi.parameters, hj.parameters]
    exact h.parameters

/-! ### Parameters -/

theorem literal (h : b.Joined i j) (v : Vec4) :
    b.Joined { i with parameters := (i.parameters.addLiteral v).2 }
      { j with parameters := (j.parameters.addLiteral v).2 } :=
  { h with
    compatible := { h.compatible with
      names := fun name hname hdefined => h.compatible.names name hname
        ((i.parameters.isSome_lookup?_addLiteral v name).mp hdefined) }
    parameters := .literal v h.parameters }

/-- A name is new if neither text has defined it. -/
theorem compatible_define (h : b.Joined i j) {name : String}
    (hnew : i.parameters.lookup? name = none) (kind : ParameterKind) (v : Vec4) :
    b.Compatible { i with parameters := (i.parameters.addNamed name kind v).2 } ↔
      ¬(j.parameters.lookup? name).isSome = true := by
  rw [h.parameters.isSome_lookup?, hnew, or_iff_left (by decide)]
  constructor
  · intro hcompatible hb
    exact hcompatible.names name hb
      ((i.parameters.isSome_lookup?_addNamed name kind v name).mpr (.inr rfl))
  · intro hb
    refine { h.compatible with names := fun other hother hdefined => ?_ }
    rcases (i.parameters.isSome_lookup?_addNamed name kind v other).mp hdefined with hold | rfl
    · exact h.compatible.names other hother hold
    · exact hb hother

theorem define (h : b.Joined i j) {name : String} {kind : ParameterKind} (v : Vec4)
    (hname : IsName name) (hfree : isReserved name = false)
    (hnew : j.parameters.lookup? name = none) (hknown : kind ≠ .literal)
    (hcompatible : b.Compatible
      { i with parameters := (i.parameters.addNamed name kind v).2 }) :
    b.Joined { i with parameters := (i.parameters.addNamed name kind v).2 }
      { j with parameters := (j.parameters.addNamed name kind v).2 } :=
  { h with
    compatible := hcompatible
    parameters := .define v hname hfree hnew hknown h.parameters }

end Joined

end Inventory

end FragmentAssembly

import FragmentAssembly.Proofs.Disassembly.Mnemonic
import FragmentAssembly.Proofs.Disassembly.Source

/-!
# Instructions read back

Behind its mnemonic, the text of an instruction has the operands that its pattern calls for, each
of which is read as one that is alike.
-/

namespace FragmentAssembly

namespace Compile

open Scan (Reads)

variable {p : Program} {i i' j k : Inventory} {rest : List Char}

/-! ## Sources -/

theorem builds_vectorSource {s : Source} (hregular : p.parameters.IsRegular)
    (hread : i.ReadsSource s j) (hgrows : j.parameters.GrowsInto p.parameters)
    (hmirrors : i.Mirrors p.parameters i') (hstops : Token.Stops rest) :
    vectorSource.Builds ((p.sourceText s).toList ++ rest) i' (s.register.IsPrintable p.parameters)
      rest fun s' j' => s.Alike p.parameters p.parameters.namedFirst s' ∧
        j.Mirrors p.parameters j' :=
  (builds_sourceWith hregular hread hgrows hmirrors
    (fun o _ hcs => reads_vectorSuffix o s.swizzle hcs) hstops).within

theorem builds_scalarSource {s : Source} (hscalar : ∃ c, s.swizzle = Quad.replicate c)
    (hregular : p.parameters.IsRegular) (hread : i.ReadsSource s j)
    (hgrows : j.parameters.GrowsInto p.parameters) (hmirrors : i.Mirrors p.parameters i')
    (hstops : Token.Stops rest) :
    scalarSource.Builds ((p.sourceText s).toList ++ rest) i' (s.register.IsPrintable p.parameters)
      rest fun s' j' => s.Alike p.parameters p.parameters.namedFirst s' ∧
        j.Mirrors p.parameters j' := by
  obtain ⟨c, hc⟩ := hscalar
  refine (builds_sourceWith hregular hread hgrows hmirrors (fun o cs hcs => ?_) hstops).within
  rw [hc]
  exact reads_scalarSuffix o c hcs

/-- The texts of sources, with commas between them. -/
def sourcesText (p : Program) (sources : List Source) : List Char :=
  (String.intercalate ", " (sources.map p.sourceText)).toList

/-- If each source is read back, so are all of them. -/
theorem builds_commaSeparated {item : Compile Source} {sources : List Source}
    (hitem : ∀ s ∈ sources, ∀ {i j i' : Inventory} {rest : List Char}, i.ReadsSource s j →
      j.parameters.GrowsInto p.parameters → i.Mirrors p.parameters i' → Token.Stops rest →
      item.Builds ((p.sourceText s).toList ++ rest) i' (s.register.IsPrintable p.parameters) rest
        fun s' j' => s.Alike p.parameters p.parameters.namedFirst s' ∧ j.Mirrors p.parameters j')
    (h : Chain Inventory.ReadsSource i sources j) (hgrows : j.parameters.GrowsInto p.parameters)
    (hmirrors : i.Mirrors p.parameters i') (hstops : Token.Stops rest) :
    (commaSeparated item sources.length).Builds (sourcesText p sources ++ rest) i'
      (∀ s ∈ sources, s.register.IsPrintable p.parameters) rest fun sources' j' =>
        List.Forall₂ (Source.Alike p.parameters p.parameters.namedFirst) sources sources' ∧
          j.Mirrors p.parameters j' := by
  induction h generalizing i' with
  | nil i =>
    refine .congr_possible (iff_true_intro fun s hs => nomatch hs) ?_
    exact .pure ⟨.nil, hmirrors⟩ _
  | @cons i m j s sources head tail ih =>
    rw [List.forall_mem_cons] at hitem
    -- the table grows while the sources behind the first one are read
    have hmiddle := hgrows.of_extends (Inventory.grows_of_chain tail)
    cases sources with
    | nil =>
      cases tail
      have htext : sourcesText p [s] = (p.sourceText s).toList := by
        simp [sourcesText]
      rw [htext]
      refine .congr_possible List.forall_mem_singleton ?_
      refine (hitem.1 head hgrows hmirrors hstops).followedBy ?_
      rintro s' j' ⟨halike, hmirrors'⟩
      exact .pure ⟨.cons halike .nil, hmirrors'⟩ _
    | cons next sources =>
      have htext : sourcesText p (s :: next :: sources) ++ rest =
          (p.sourceText s).toList ++ ',' :: ' ' :: (sourcesText p (next :: sources) ++ rest) := by
        simp [sourcesText, String.intercalate_cons_cons]
      have hcomma : Token.Stops (',' :: ' ' :: (sourcesText p (next :: sources) ++ rest)) :=
        .of_solid _ rfl rfl (by decide)
      rw [htext]
      refine .congr_possible List.forall_mem_cons ?_
      refine (hitem.1 head hmiddle hmirrors hcomma).bind ?_
      rintro s' m' ⟨halike, hmirrors'⟩
      refine Builds.read (Scan.reads_expect_char rfl rfl _) ?_
      refine Builds.congr_text (Token.visible_blank _ rfl) ?_
      refine (ih hitem.2 hgrows hmirrors').followedBy ?_
      rintro sources' j' ⟨halikes, hmirrors''⟩
      exact .pure ⟨.cons halike halikes, hmirrors''⟩ _

/-! ## Operands -/

theorem stops_semicolon (rest : List Char) : Token.Stops (';' :: rest) :=
  .of_solid rest rfl rfl (by decide)

/-- The text of a texture image with the commas in front of its parts. -/
theorem toList_textureText {ins : Instruction} {image : TextureImage}
    (h : ins.texture = some image) (rest : List Char) :
    (Program.textureText ins).toList ++ rest =
      ',' :: ' ' :: (("TEX" ++ toString image.unit.val).toList ++
        ',' :: ' ' :: (image.target.name.toList ++ rest)) := by
  simp [Program.textureText, h]

theorem textureText_none {ins : Instruction} (h : ins.texture = none) :
    Program.textureText ins = "" := by
  rw [Program.textureText, h]

/-- What the operands behind a destination are read as. -/
structure OperandsRead (t : ParameterTable) (ins blank filled : Instruction) : Prop where
  sources : List.Forall₂ (Source.Alike t t.namedFirst) ins.sources filled.sources
  rest : filled = { blank with sources := filled.sources, texture := ins.texture }

/-- Sources without a texture image behind them. -/
theorem builds_plainSources {ins blank : Instruction} {item : Compile Source} {count : Nat}
    {possible : Prop} (hnone : ins.texture = none) (hblank : blank.texture = none)
    (h : (commaSeparated item count).Builds (sourcesText p ins.sources ++ ';' :: rest) i' possible
      (';' :: rest) fun sources' j' =>
        List.Forall₂ (Source.Alike p.parameters p.parameters.namedFirst) ins.sources sources' ∧
          j.Mirrors p.parameters j') :
    Builds (return { blank with sources := ← commaSeparated item count })
      (sourcesText p ins.sources ++ ((Program.textureText ins).toList ++ ';' :: rest)) i' possible
      (';' :: rest) fun filled j' =>
        OperandsRead p.parameters ins blank filled ∧ j.Mirrors p.parameters j' := by
  rw [textureText_none hnone]
  refine h.followedBy ?_
  rintro sources' j' ⟨halike, hmirrors'⟩
  exact .pure ⟨⟨halike, by rw [hnone, ← hblank]⟩, hmirrors'⟩ _

theorem builds_operands {ins blank : Instruction} {operands : Operands}
    (hadmits : operands.Admits ins.sources) (htexture : ins.texture.isSome = operands.samples)
    (hpositive : 0 < operands.count) (hblank : blank.texture = none)
    (hregular : p.parameters.IsRegular)
    (hread : Chain Inventory.ReadsSource i ins.sources j)
    (hsampled : Chain Inventory.Samples j ins.texture.toList k)
    (hgrows : k.parameters.GrowsInto p.parameters) (hmirrors : i.Mirrors p.parameters i') :
    (Compile.operands blank operands).Builds
      (sourcesText p ins.sources ++ ((Program.textureText ins).toList ++ ';' :: rest)) i'
      (∀ s ∈ ins.sources, s.register.IsPrintable p.parameters) (';' :: rest) fun filled k' =>
        OperandsRead p.parameters ins blank filled ∧ k.Mirrors p.parameters k' := by
  rw [hsampled.keeps (f := Inventory.parameters) Inventory.Samples.parameters] at hgrows
  have hvectors : ∀ {rest : List Char}, Token.Stops rest →
      (commaSeparated vectorSource ins.sources.length).Builds
        (sourcesText p ins.sources ++ rest) i'
        (∀ s ∈ ins.sources, s.register.IsPrintable p.parameters) rest fun sources' j' =>
          List.Forall₂ (Source.Alike p.parameters p.parameters.namedFirst) ins.sources sources' ∧
            j.Mirrors p.parameters j' := fun hstops =>
    builds_commaSeparated (fun s _ => builds_vectorSource hregular) hread hgrows hmirrors hstops
  -- without a texture image nothing is entered behind the sources
  have hplain : ins.texture = none → j = k := by
    intro hnone
    rw [hnone] at hsampled
    cases hsampled
    rfl
  cases operands with
  | vectors count =>
    have hnone := Option.not_isSome_iff_eq_none.mp (Bool.eq_false_iff.mp htexture)
    obtain rfl := hplain hnone
    obtain rfl : ins.sources.length = count := hadmits
    exact builds_plainSources hnone hblank (hvectors (stops_semicolon rest))
  | scalars count =>
    have hnone := Option.not_isSome_iff_eq_none.mp (Bool.eq_false_iff.mp htexture)
    obtain rfl := hplain hnone
    obtain ⟨hcount, hscalar⟩ := hadmits
    subst hcount
    exact builds_plainSources hnone hblank <| builds_commaSeparated
      (fun s hs => builds_scalarSource (hscalar s hs) hregular) hread hgrows hmirrors
      (stops_semicolon rest)
  | lookup count =>
    obtain ⟨image, himage⟩ := Option.isSome_iff_exists.mp htexture
    obtain rfl : ins.sources.length = count := hadmits
    rw [himage] at hsampled
    have hsamples : j.Samples image k := by
      cases hsampled with
      | cons head tail =>
        cases tail
        exact head
    have hcomma : Token.Stops (',' :: ' ' :: (("TEX" ++ toString image.unit.val).toList ++
        ',' :: ' ' :: (image.target.name.toList ++ ';' :: rest))) :=
      .of_solid _ rfl rfl (by decide)
    rw [toList_textureText himage]
    refine (hvectors hcomma).followedBy ?_
    rintro sources' j' ⟨halike, hmirrors'⟩
    refine Builds.read (Scan.reads_expect_char rfl rfl _) ?_
    refine Builds.congr_text (Token.visible_blank _ rfl) ?_
    refine (builds_textureImage hsamples hmirrors' rfl).within.andThen ?_
    rintro _ k' ⟨rfl, hmirrors''⟩
    exact .pure ⟨⟨halike, by rw [himage]⟩, hmirrors''⟩ _
  | condition => exact absurd hpositive (Nat.lt_irrefl 0)

theorem builds_condition (blank : Instruction) (c : CondTest) :
    (Compile.operands blank .condition).Builds (c.text.toList ++ ';' :: rest) i True (';' :: rest)
      fun filled j => filled = { blank with condition := c } ∧ j = i :=
  Builds.read (Scan.reads_condition c (stops_semicolon rest)).within (.pure ⟨rfl, rfl⟩ _)

theorem builds_destinationOf {t : ParameterTable} {d : Destination} (blank : Instruction)
    (c : CondTest) (hwritten : i.WritesDestination d j) (hmirrors : i.Mirrors t i') :
    (destinationOf blank true).Builds
      (' ' :: (d.text.toList ++ ((Program.guardText c).toList ++ ',' :: rest))) i' True rest
      fun filled j' => filled = { blank with destination := some d, condition := c } ∧
        j.Mirrors t j' := by
  refine Builds.congr_text (Token.visible_blank _ rfl) ?_
  unfold destinationOf
  rw [if_pos rfl]
  obtain ⟨j', hwritten', hmirrors'⟩ := mirrors_writes hmirrors hwritten.2
  refine (builds_destination ⟨hwritten.1, hwritten'⟩ (stops_guard c)
    (reads_destinationGuard c)).within.andThen ?_
  rintro _ _ ⟨rfl, rfl⟩
  refine Builds.read (Scan.reads_expect_char rfl rfl _) ?_
  exact .pure ⟨rfl, hmirrors'⟩ _

/-! ## Instructions -/

theorem toList_instructionText {ins : Instruction} {d : Destination}
    (hdestination : ins.destination = some d) (hopcode : ins.opcode ≠ .kil)
    (hsources : ins.sources ≠ []) :
    (p.instructionText ins).toList ++ rest = ins.mnemonic.toList ++ ' ' :: (d.text.toList ++
      ((Program.guardText ins.condition).toList ++ ',' :: ' ' :: (sourcesText p ins.sources ++
        ((Program.textureText ins).toList ++ ';' :: rest)))) := by
  obtain ⟨s, more, hs⟩ := List.exists_cons_of_ne_nil hsources
  simp [Program.instructionText, Program.destinationText, Program.sourcesText, sourcesText,
    hdestination, hopcode, hs]

/-- `KIL` is written with its condition alone. -/
theorem toList_instructionText_kil {ins : Instruction} (hdestination : ins.destination = none)
    (hopcode : ins.opcode = .kil) (hsources : ins.sources = []) (htexture : ins.texture = none) :
    (p.instructionText ins).toList ++ rest =
      ins.mnemonic.toList ++ ' ' :: (ins.condition.text.toList ++ ';' :: rest) := by
  simp [Program.instructionText, Program.destinationText, Program.sourcesText,
    textureText_none htexture, hdestination, hopcode, hsources]

/-- Behind its mnemonic, the text of an instruction of `p` is read as one that is alike.  The
inventory `j` that the instruction left is mirrored then. -/
def InstructionRead (p : Program) (ins : Instruction) (i' j : Inventory) (rest : List Char) :
    Prop :=
  ∃ cs, (p.instructionText ins).toList ++ rest = ins.mnemonic.toList ++ ' ' :: cs ∧
    (instruction ins.mnemonic).Builds (' ' :: cs) i'
      (∀ s ∈ ins.sources, s.register.IsPrintable p.parameters) rest fun ins' j' =>
        ins.Alike p.parameters p.parameters.namedFirst ins' ∧ j.Mirrors p.parameters j'

/-- An instruction that writes is read with its destination and its sources. -/
theorem builds_instruction_writing (rest : List Char) {ins : Instruction} {pattern : Pattern}
    (hmnemonic : readMnemonic ins.mnemonic = .ok (pattern, ins.written)) (hfits : ins.Fits pattern)
    (hwrites : pattern.writes = true) (hopcode : pattern.opcode ≠ .kil)
    (hpositive : 0 < pattern.operands.count) (henters : i.Enters ins j)
    (hregular : p.parameters.IsRegular) (hgrows : j.parameters.GrowsInto p.parameters)
    (hmirrors : i.Mirrors p.parameters i') :
    InstructionRead p ins i' j rest := by
  obtain ⟨hwritten, hread, hsampled⟩ := henters
  obtain ⟨d, hd⟩ : ∃ d, ins.destination = some d := by
    rw [← Option.isSome_iff_exists, hfits.destination, hwrites]
  have hsources : ins.sources ≠ [] := by
    intro hnil
    rw [← hfits.sources.length_eq, hnil] at hpositive
    exact Nat.lt_irrefl 0 hpositive
  rw [← hfits.opcode] at hopcode
  refine ⟨_, toList_instructionText hd hopcode hsources, Builds.look fun draft _ _ => ?_⟩
  rw [hmnemonic]
  dsimp only
  rw [hwrites]
  rw [hd] at hwritten
  cases hwritten with
  | cons head tail =>
    cases tail
    refine (builds_destinationOf _ ins.condition head hmirrors).andThen ?_
    rintro _ j' ⟨rfl, hmirrors'⟩
    refine Builds.congr_text (Token.visible_blank _ rfl) ?_
    refine (builds_operands hfits.sources hfits.texture hpositive rfl hregular hread hsampled
      hgrows hmirrors').followedBy ?_
    rintro filled k' ⟨hfilled, hmirrors''⟩
    refine Builds.read (Scan.reads_expect_char rfl rfl _) ?_
    refine .pure ⟨?_, hmirrors''⟩ _
    -- the position is the only field that the text does not give
    rw [hfilled.rest]
    exact ⟨hfits.opcode.symm, hfilled.sources, hd.symm, rfl, ins.precision_written, rfl, rfl, rfl⟩

/-- `KIL` is read with its condition. -/
theorem builds_instruction_kil (rest : List Char) {ins : Instruction} {pattern : Pattern}
    (hmnemonic : readMnemonic ins.mnemonic = .ok (pattern, ins.written)) (hfits : ins.Fits pattern)
    (hwrites : pattern.writes = false) (hopcode : pattern.opcode = .kil)
    (hoperands : pattern.operands = .condition) (henters : i.Enters ins j)
    (hmirrors : i.Mirrors p.parameters i') :
    InstructionRead p ins i' j rest := by
  have hdestination : ins.destination = none := by
    rw [← Option.not_isSome_iff_eq_none, hfits.destination, hwrites]
    exact Bool.false_ne_true
  have htexture : ins.texture = none := by
    rw [← Option.not_isSome_iff_eq_none, hfits.texture, hoperands]
    exact Bool.false_ne_true
  have hsources : ins.sources = [] := by
    rw [← List.length_eq_zero_iff, hfits.sources.length_eq, hoperands]
    rfl
  -- so nothing is entered
  obtain ⟨hwritten, hread, hsampled⟩ := henters
  rw [hdestination] at hwritten
  rw [hsources] at hread
  rw [htexture] at hsampled
  cases hwritten
  cases hread
  cases hsampled
  rw [← hfits.opcode] at hopcode
  refine ⟨_, toList_instructionText_kil hdestination hopcode hsources htexture,
    Builds.look fun draft _ _ => ?_⟩
  rw [hmnemonic]
  dsimp only
  have hplain : ∀ blank, destinationOf blank false = pure blank := fun _ => rfl
  rw [hwrites, hoperands, hsources, hplain, pure_bind]
  refine .congr_possible (iff_true_intro fun s hs => nomatch hs) ?_
  refine Builds.congr_text (Token.visible_blank _ rfl) ?_
  refine (builds_condition _ ins.condition).andThen ?_
  rintro _ _ ⟨rfl, rfl⟩
  refine Builds.read (Scan.reads_expect_char rfl rfl _) ?_
  refine .pure ⟨?_, hmirrors⟩ _
  refine ⟨hfits.opcode.symm, ?_, hdestination.symm, rfl, ins.precision_written, rfl, rfl,
    htexture.symm⟩
  rw [hsources]
  exact .nil

theorem builds_instruction (rest : List Char) {ins : Instruction} {pattern : Pattern}
    (hlisted : pattern ∈ Pattern.table) (hfits : ins.Fits pattern) (henters : i.Enters ins j)
    (hregular : p.parameters.IsRegular) (hgrows : j.parameters.GrowsInto p.parameters)
    (hmirrors : i.Mirrors p.parameters i') :
    InstructionRead p ins i' j rest := by
  obtain ⟨-, -, hmnemonic⟩ := hfits.readMnemonic hlisted
  rcases pattern.shape hlisted with ⟨hwrites, hopcode, hpositive⟩ | ⟨hwrites, hopcode, hoperands⟩
  · exact builds_instruction_writing rest hmnemonic hfits hwrites hopcode hpositive henters
      hregular hgrows hmirrors
  · exact builds_instruction_kil rest hmnemonic hfits hwrites hopcode hoperands henters hmirrors

end Compile

end FragmentAssembly

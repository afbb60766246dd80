import FragmentAssembly.Proofs.Disassembly.Operand

/-!
# Sources, destinations and texture images read back

The parts of the text of an instruction behind its mnemonic.
-/

namespace FragmentAssembly

/-- A text begins with another character than the one of a mark. -/
theorem isPrefixOf_mark {m c : Char} (cs : List Char) (h : c ≠ m) :
    [m].isPrefixOf (c :: cs) = false := by
  rw [List.isPrefixOf, beq_false_of_ne h.symm, Bool.false_and]

/-- A text begins with a letter or a brace. -/
def Token.Opens (cs : List Char) : Prop :=
  ∃ c more, cs = c :: more ∧ (c.isAlpha = true ∨ c = '\x7b')

namespace Token.Opens

variable {cs : List Char}

theorem append (h : Opens cs) (rest : List Char) : Opens (cs ++ rest) := by
  obtain ⟨c, more, rfl, hc⟩ := h
  exact ⟨c, more ++ rest, rfl, hc⟩

theorem isSolid (h : Opens cs) : Token.isSolid cs = true := by
  obtain ⟨c, more, rfl, halpha | rfl⟩ := h
  · exact isSolid_cons_of_isAlphanum more (isAlphanum_of_isAlpha halpha)
  · rfl

/-- Signs and bars are neither letters nor braces. -/
theorem isPrefixOf (h : Opens cs) {m : Char} (hm : m = '-' ∨ m = '+' ∨ m = '|') :
    [m].isPrefixOf cs = false := by
  obtain ⟨c, more, rfl, hc⟩ := h
  apply isPrefixOf_mark
  rintro rfl
  rcases hm with rfl | rfl | rfl
  · exact absurd hc (by decide)
  · exact absurd hc (by decide)
  · exact absurd hc (by decide)

end Token.Opens

namespace Compile

open Scan (Reads)

variable {p : Program} {i i' j : Inventory} {rest : List Char}

/-! ## Suffixes -/

theorem reads_vectorSuffix (o : Operand) (s : Swizzle) (hstops : Token.Stops rest) :
    (vectorSuffix o).Reads ((Swizzle.suffix s).toList ++ rest) True s rest := by
  rcases Swizzle.suffix_cases s with ⟨rfl, hsuffix⟩ | ⟨letters, hsuffix, hname, hs⟩
  · rw [hsuffix]
    exact (Scan.reads_accept_other hstops.dot).andThen (.pure _ rest)
  · rw [hsuffix, String.toList_append, List.append_assoc]
    exact (Scan.reads_accept rfl _).andThen (Scan.reads_swizzle hname hs hstops.name)

theorem reads_scalarSuffix (o : Operand) (c : Component) (hstops : Token.Stops rest) :
    (scalarSuffix o).Reads ((Swizzle.suffix (Quad.replicate c)).toList ++ rest) True
      (Quad.replicate c) rest := by
  obtain ⟨letters, hsuffix, hname, hs⟩ := Swizzle.suffix_replicate c
  rw [hsuffix, String.toList_append, List.append_assoc]
  refine (Scan.reads_accept rfl _).andThen ?_
  refine (Scan.reads_swizzle hname hs hstops.name).andThen ?_
  have hall : (Quad.replicate c).all (· = (Quad.replicate c).x) = true := by
    simp [Quad.all, Quad.replicate]
  rw [if_pos hall]
  exact .pure _ rest

/-- A suffix goes on with no name. -/
theorem endsName_suffix (s : Swizzle) (hstops : Token.Stops rest) :
    Token.endsName ((Swizzle.suffix s).toList ++ rest) = true := by
  rcases Swizzle.suffix_cases s with ⟨rfl, hsuffix⟩ | ⟨letters, hsuffix, -, -⟩
  · rw [hsuffix]
    exact hstops.name
  · rw [hsuffix, String.toList_append, List.append_assoc]
    rfl

/-! ## Sources -/

/-- The text of a source operand with its signs and bars. -/
theorem toList_sourceText (p : Program) {s : Source} (hregular : s.IsRegular) :
    (p.sourceText s).toList ++ rest =
      if s.absolute then
        (Scan.signText s.negateAbsolute).toList ++ '|' :: ((Scan.signText s.negateBase).toList ++
          ((p.registerText s.register).toList ++
            ((Swizzle.suffix s.swizzle).toList ++ '|' :: rest)))
      else
        (Scan.signText s.negateBase).toList ++ ((p.registerText s.register).toList ++
          ((Swizzle.suffix s.swizzle).toList ++ rest)) := by
  obtain ⟨register, swizzle, negateBase, absolute, negateAbsolute⟩ := s
  cases absolute <;> cases negateBase <;> cases negateAbsolute <;>
    simp [Program.sourceText, Scan.signText]

variable {suffix : Operand → Scan Swizzle} {s : Source}

/-- The text of a source operand is read as one that denotes the same. -/
theorem builds_sourceWith (hregular : p.parameters.IsRegular) (hread : i.ReadsSource s j)
    (hgrows : j.parameters.GrowsInto p.parameters) (hmirrors : i.Mirrors p.parameters i')
    (hsuffix : ∀ o cs, Token.Stops cs →
      (suffix o).Reads ((Swizzle.suffix s.swizzle).toList ++ cs) True s.swizzle cs)
    (hstops : Token.Stops rest) :
    (sourceWith suffix).Builds ((p.sourceText s).toList ++ rest) i'
      (s.register.IsPrintable p.parameters) rest fun s' j' =>
        s.Alike p.parameters p.parameters.namedFirst s' ∧ j.Mirrors p.parameters j' := by
  obtain ⟨hsigns, hread⟩ := hread
  have hopens : Token.Opens (p.registerText s.register).toList :=
    Program.registerText_head hregular (hgrows.inRange (hread.inRange hmirrors.before))
  rw [toList_sourceText p hsigns]
  cases habsolute : s.absolute with
  | true =>
    have hbar : Token.Stops ('|' :: rest) := .of_solid rest rfl rfl (by decide)
    have hopens := hopens.append ((Swizzle.suffix s.swizzle).toList ++ '|' :: rest)
    rw [if_pos rfl]
    refine Builds.read (Scan.reads_negation s.negateAbsolute rfl rfl rfl) ?_
    refine Builds.read (Scan.reads_accept_char rfl rfl _) ?_
    rw [if_pos rfl]
    refine Builds.read (Scan.reads_negation s.negateBase (hopens.isPrefixOf (.inl rfl))
      (hopens.isPrefixOf (.inr (.inl rfl))) hopens.isSolid) ?_
    refine (builds_operand hregular hread hgrows hmirrors
      (endsName_suffix s.swizzle hbar)).followedBy ?_
    rintro o j' ⟨halike, hmirrors'⟩
    refine Builds.read (hsuffix o _ hbar) ?_
    rw [if_pos rfl]
    refine Builds.read (Scan.reads_expect_char rfl rfl _) ?_
    exact .pure ⟨⟨halike, rfl, rfl, habsolute.symm, rfl⟩, hmirrors'⟩ _
  | false =>
    -- the sign in front of the bars is lost without bars, but then there is none
    have hplain : s.negateAbsolute = false := by
      rw [Bool.eq_false_iff]
      intro hnegated
      rw [hsigns hnegated] at habsolute
      cases habsolute
    have hopens := hopens.append ((Swizzle.suffix s.swizzle).toList ++ rest)
    rw [if_neg Bool.false_ne_true]
    refine Builds.read (Scan.reads_negation s.negateBase (hopens.isPrefixOf (.inl rfl))
      (hopens.isPrefixOf (.inr (.inl rfl))) hopens.isSolid) ?_
    have hbar : "|".toList.isPrefixOf (Token.visible ((p.registerText s.register).toList ++
        ((Swizzle.suffix s.swizzle).toList ++ rest))) = false := by
      rw [Token.visible_of_isSolid hopens.isSolid]
      exact hopens.isPrefixOf (.inr (.inr rfl))
    refine Builds.read (Scan.reads_accept_other hbar) ?_
    rw [if_neg Bool.false_ne_true, pure_bind]
    refine (builds_operand hregular hread hgrows hmirrors
      (endsName_suffix s.swizzle hstops)).followedBy ?_
    rintro o j' ⟨halike, hmirrors'⟩
    refine Builds.read (hsuffix o _ hstops) ?_
    rw [if_neg Bool.false_ne_true]
    exact .pure ⟨⟨halike, rfl, rfl, habsolute.symm, hplain.symm⟩, hmirrors'⟩ _

/-! ## Destinations -/

theorem reads_destinationMask {mask : WriteMask} (hmask : mask.any id = true)
    (hstops : Token.Stops rest) :
    destinationMask.Reads ((WriteMask.suffix mask).toList ++ rest) True mask rest := by
  rcases WriteMask.suffix_cases hmask with ⟨rfl, hsuffix⟩ | ⟨letters, hsuffix, hname, hfound⟩
  · rw [hsuffix]
    exact (Scan.reads_accept_other hstops.dot).andThen (.pure _ rest)
  · rw [hsuffix, String.toList_append, List.append_assoc]
    exact (Scan.reads_accept rfl _).andThen (Scan.reads_writeMask hname hfound hstops.name)

theorem endsName_maskSuffix {mask : WriteMask} (hmask : mask.any id = true)
    (hstops : Token.Stops rest) :
    Token.endsName ((WriteMask.suffix mask).toList ++ rest) = true := by
  rcases WriteMask.suffix_cases hmask with ⟨rfl, hsuffix⟩ | ⟨letters, hsuffix, -, -⟩
  · rw [hsuffix]
    exact hstops.name
  · rw [hsuffix, String.toList_append, List.append_assoc]
    rfl

/-- The test that always passes is left out. -/
theorem guardText_cases (c : CondTest) : (c = {} ∧ Program.guardText c = "") ∨
    Program.guardText c = " (" ++ c.text ++ ")" := by
  unfold Program.guardText
  split
  · rename_i halways
    rw [Bool.and_eq_true, CondTest.isAlways, decide_eq_true_eq, decide_eq_true_eq] at halways
    obtain ⟨rule, swizzle⟩ := c
    obtain ⟨rfl, rfl⟩ := halways
    exact .inl ⟨rfl, rfl⟩
  · exact .inr rfl

theorem reads_destinationGuard (c : CondTest) :
    destinationGuard.Reads ((Program.guardText c).toList ++ ',' :: rest) True c (',' :: rest) := by
  rcases guardText_cases c with ⟨rfl, htext⟩ | htext
  · rw [htext]
    exact (Scan.reads_accept_other rfl).andThen (.pure _ _)
  · have hparentheses : (Program.guardText c).toList ++ ',' :: rest =
        ' ' :: ("(".toList ++ (c.text.toList ++ (")".toList ++ ',' :: rest))) := by
      rw [htext]
      simp
    have hclosed : Token.Stops (")".toList ++ ',' :: rest) :=
      .of_solid (',' :: rest) rfl rfl (by decide)
    rw [hparentheses]
    refine Reads.blank rfl ((Scan.reads_accept rfl _).andThen ?_)
    rw [if_pos rfl]
    refine (Scan.reads_condition c hclosed).within.andThen ?_
    exact (Scan.reads_expect rfl _).andThen (.pure c _)

theorem stops_guard (c : CondTest) :
    Token.Stops ((Program.guardText c).toList ++ ',' :: rest) := by
  rcases guardText_cases c with ⟨-, htext⟩ | htext
  · rw [htext]
    exact .of_solid rest rfl rfl (by decide)
  · rw [htext, String.toList_append, String.toList_append]
    exact ⟨rfl, rfl⟩

theorem builds_outputRegister {n : OutputIndex}
    (hcolors : writesBothColors (i.outputsWritten ||| (1 <<< n.val)) = false) :
    outputRegister.Builds ('[' :: ((outputNames.get n).toList ++ ']' :: rest)) i True rest
      fun m j => m = n ∧ j = { i with outputsWritten := i.outputsWritten ||| (1 <<< n.val) } := by
  obtain ⟨hname, hfound⟩ := registerNamed?_outputNames n
  refine Builds.read (Scan.reads_expect_char rfl rfl _) ?_
  refine Builds.read (Scan.reads_identifier hname rfl) ?_
  rw [hfound]
  refine Builds.read (Scan.reads_expect_char rfl rfl _) ?_
  have hmark : (markOutput n).Builds rest i True rest fun _ j =>
      j = { i with outputsWritten := i.outputsWritten ||| (1 <<< n.val) } := by
    apply Builds.change
    rintro d rfl
    exact ⟨rfl, rfl⟩
  refine hmark.andThen ?_
  rintro _ _ rfl
  refine Builds.look fun d hd hi => ?_
  have hwritten : d.outputsWritten = i.outputsWritten ||| (1 <<< n.val) :=
    congrArg Inventory.outputsWritten hi
  rw [hwritten, hcolors, if_neg Bool.false_ne_true]
  exact .pure ⟨rfl, rfl⟩ _

/-- The text of a register begins with a name, and what follows the name is read with it. -/
theorem builds_writable {r : Writable} (hwrites : i.Writes r j)
    (hend : Token.endsName rest = true) :
    ∃ name cs, r.text.toList ++ rest = name.toList ++ cs ∧ IsName name ∧
      Token.endsName cs = true ∧
      (writable name).Builds cs i True rest fun r' j' => r' = r ∧ j' = j := by
  cases hwrites with
  | temporary n =>
    obtain ⟨hname, hnumber, hcondition, -, -, ho⟩ := temporary_text n
    refine ⟨TemporaryIndex.text n, rest, rfl, hname, hend, ?_⟩
    unfold writable
    rw [hcondition]
    dsimp only
    rw [if_neg ho, hnumber]
    refine Builds.read (reads_temporary n) ?_
    exact .pure ⟨rfl, rfl⟩ _
  | conditionOnly r =>
    have hname : IsName r.name := by cases r <;> decide
    have hfound : ConditionRegister.ofName? r.name = some r := by cases r <;> rfl
    refine ⟨r.name, rest, rfl, hname, hend, ?_⟩
    unfold writable
    rw [hfound]
    exact .pure ⟨rfl, rfl⟩ _
  | @output n hcolors =>
    have hnone : ConditionRegister.ofName? "o" = none := rfl
    refine ⟨"o", '[' :: ((outputNames.get n).toList ++ ']' :: rest), by simp [Writable.text],
      by decide, rfl, ?_⟩
    unfold writable
    rw [hnone]
    dsimp only
    rw [if_pos rfl]
    refine (builds_outputRegister hcolors).andThen ?_
    rintro _ _ ⟨rfl, rfl⟩
    exact .pure ⟨rfl, rfl⟩ _

/-- The text of a destination is read as this destination, and what stands behind it as the
condition. -/
theorem builds_destination {d : Destination} {c : CondTest} {behind : List Char} {possible : Prop}
    (hwrites : i.WritesDestination d j) (hstops : Token.Stops behind)
    (hguard : destinationGuard.Reads behind possible c rest) :
    destination.Builds (d.text.toList ++ behind) i possible rest
      fun target j' => target = (d, c) ∧ j' = j := by
  obtain ⟨hmask, hwrites⟩ := hwrites
  obtain ⟨name, cs, htext, hname, hend, hwritable⟩ :=
    builds_writable hwrites (endsName_maskSuffix hmask hstops)
  rw [Destination.text, String.toList_append, List.append_assoc, htext]
  refine Builds.read (Scan.reads_token_name hname hend) ?_
  refine hwritable.andThen ?_
  rintro _ _ ⟨rfl, rfl⟩
  refine Builds.read (reads_destinationMask hmask hstops) ?_
  refine (Builds.lift hguard).followedBy ?_
  rintro _ _ ⟨rfl, rfl⟩
  exact .pure ⟨rfl, rfl⟩ _

/-- What a destination enters is told from the outputs alone, which both inventories have. -/
theorem mirrors_writes {t : ParameterTable} {r : Writable} (hmirrors : i.Mirrors t i')
    (hwrites : i.Writes r j) : ∃ j', i'.Writes r j' ∧ j.Mirrors t j' := by
  cases hwrites with
  | temporary n => exact ⟨i', .temporary i' n, hmirrors⟩
  | conditionOnly r => exact ⟨i', .conditionOnly i' r, hmirrors⟩
  | @output n hcolors =>
    rw [← hmirrors.outputsWritten] at hcolors
    exact ⟨_, .output hcolors, { hmirrors with
      outputsWritten := congrArg (· ||| (1 <<< n.val)) hmirrors.outputsWritten }⟩

/-! ## Texture images -/

theorem textureUnitNumber?_text : ∀ unit : TextureUnit,
    IsName ("TEX" ++ toString unit.val) ∧
      textureUnitNumber? ("TEX" ++ toString unit.val) = some unit.val := by
  decide +kernel

theorem reads_textureUnit (unit : TextureUnit) (hend : Token.endsName rest = true) :
    textureUnit.Reads (("TEX" ++ toString unit.val).toList ++ rest) True unit rest := by
  obtain ⟨hname, hnumber⟩ := textureUnitNumber?_text unit
  refine (Scan.reads_identifier hname hend).andThen ?_
  rw [hnumber]
  dsimp only
  rw [dif_pos unit.isLt]
  exact .pure unit rest

theorem isSolid_target (target : TextureTarget) : Token.isSolid target.name.toList = true := by
  cases target <;> rfl

/-- No name of a target begins another one. -/
theorem isPrefixOf_target {a b : TextureTarget} (h : a ≠ b) :
    a.name.toList.isPrefixOf (b.name.toList ++ rest) = false := by
  cases a <;> cases b <;> first | rfl | exact absurd rfl h

theorem reads_targetAmong {targets : List TextureTarget} {target : TextureTarget}
    (hmem : target ∈ targets) (hend : Token.endsName rest = true) :
    (targetAmong targets).Reads (target.name.toList ++ rest) True target rest := by
  induction targets with
  | nil => cases hmem
  | cons first targets ih =>
    rw [targetAmong]
    by_cases hfirst : first = target
    · subst hfirst
      refine (Scan.reads_acceptWord (isSolid_target first) hend).andThen ?_
      rw [if_pos rfl]
      exact .pure first rest
    · -- the targets are tried one after the other
      have hother : first.name.toList.isPrefixOf
          (Token.visible (target.name.toList ++ rest)) = false := by
        rw [Token.visible_append rest (isSolid_target target)]
        exact isPrefixOf_target hfirst
      refine (Scan.reads_acceptWord_other hother).andThen ?_
      rw [if_neg Bool.false_ne_true]
      exact ih ((List.mem_cons.mp hmem).resolve_left fun h => hfirst h.symm)

theorem builds_useTexture {t : ParameterTable} {image : TextureImage} (hsamples : i.Samples image j)
    (hmirrors : i.Mirrors t i') :
    (useTexture image).Builds rest i' True rest fun _ j' => j.Mirrors t j' := by
  refine Builds.look fun d hd hi => ?_
  have htextures : d.textures = i.textures := by
    rw [← hmirrors.textures]
    exact congrArg Inventory.textures hi
  cases hsamples with
  | fresh hunused =>
    rw [htextures, hunused]
    dsimp only
    -- the unit is entered with its target, as it was when the program was assembled
    rintro e he -
    refine .of_ok rfl ⟨hd, ?_⟩
    obtain rfl := hi
    exact { hmirrors with textures := rfl }
  | again hused =>
    rw [htextures, hused]
    dsimp only
    rw [if_neg (by simp)]
    refine .pure ?_ _
    exact hmirrors

/-- The text of a texture image is read as this image. -/
theorem builds_textureImage {t : ParameterTable} {image : TextureImage}
    (hsamples : i.Samples image j) (hmirrors : i.Mirrors t i')
    (hend : Token.endsName rest = true) :
    textureImage.Builds (("TEX" ++ toString image.unit.val).toList ++
        ',' :: ' ' :: (image.target.name.toList ++ rest)) i' True rest
      fun image' j' => image' = image ∧ j.Mirrors t j' := by
  have hall : image.target ∈ TextureTarget.all := by
    cases image.target <;> decide
  refine Builds.read (reads_textureUnit image.unit rfl) ?_
  refine Builds.read (Scan.reads_expect_char rfl rfl _) ?_
  refine Builds.read (Reads.blank rfl (reads_targetAmong hall hend)) ?_
  refine (builds_useTexture hsamples hmirrors).andThen ?_
  intro _ j' hmirrors'
  exact .pure ⟨rfl, hmirrors'⟩ _

end Compile

end FragmentAssembly

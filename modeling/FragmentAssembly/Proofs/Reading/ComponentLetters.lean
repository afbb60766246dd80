import FragmentAssembly.Proofs.Disassembly.Source
import FragmentAssembly.Proofs.Grammar.Spelling
import FragmentAssembly.Proofs.Reading.RegisterNumber
import Mathlib.Data.List.Sort

/-!
# Letters of components

A write mask has the letters of its components in the order `x`, `y`, `z`, `w`; a swizzle has one
letter or four.  No other name is read as one of them, and what is written for a mask or a swizzle
is read as the same one again.
-/

namespace FragmentAssembly

open Grammar

/-! ## Masks -/

/-- The letter `a` comes before `b`. -/
def Component.Precedes (a b : Char) : Prop :=
  componentLetters.idxOf a < componentLetters.idxOf b

instance : DecidableRel Component.Precedes :=
  fun a b => inferInstanceAs (Decidable (componentLetters.idxOf a < componentLetters.idxOf b))

instance : Std.Irrefl Component.Precedes :=
  ⟨fun _ => Nat.lt_irrefl _⟩

instance : Std.Antisymm Component.Precedes :=
  ⟨fun _ _ h h' => absurd h (Nat.lt_asymm h')⟩

/-- One or more letters of components, of which each one comes before the next. -/
structure WriteMask.IsSpelling (letters : String) : Prop where
  nonempty : letters ≠ ""
  known : ∀ c ∈ letters.toList, c ∈ componentLetters
  increasing : letters.toList.Pairwise Component.Precedes

/-- The mask allows the components whose letters there are, and no others. -/
def WriteMask.Spells (letters : String) (mask : WriteMask) : Prop :=
  ∀ c : Component, mask.get c = true ↔ c.letter ∈ letters.toList

theorem Component.letter_injective {a b : Component} (h : a.letter = b.letter) : a = b := by
  have hsome := ofLetter?_letter a
  rw [h, ofLetter?_letter, Option.some.injEq] at hsome
  exact hsome.symm

/-- Increasing letters are what is left of all letters when some are left out. -/
theorem sublist_componentLetters {letters : List Char} :
    letters.Sublist componentLetters ↔
      (∀ c ∈ letters, c ∈ componentLetters) ∧ letters.Pairwise Component.Precedes := by
  have hall : componentLetters.Pairwise Component.Precedes := by decide
  constructor
  · intro h
    exact ⟨fun c hc => h.subset hc, hall.sublist h⟩
  · rintro ⟨hknown, hincreasing⟩
    have hsome : letters.Subperm componentLetters :=
      List.subperm_of_subset hincreasing.nodup hknown
    exact List.sublist_of_subperm_of_pairwise hsome hincreasing hall

theorem WriteMask.isSpelling_iff {letters : String} (h : letters ≠ "") :
    IsSpelling letters ↔ ∃ mask, WriteMask.ofName? letters = some mask := by
  rw [← isMask_iff, IsMask, sublist_componentLetters]
  constructor
  · exact fun hspelling => ⟨hspelling.known, hspelling.increasing⟩
  · exact fun hmask => ⟨h, hmask.1, hmask.2⟩

/-- What is found behind each hit is searched for the next letter, so the hits are the letters. -/
theorem map_letter_of_componentsInOrder? {allowed cs : List Component} {letters : List Char}
    (h : componentsInOrder? allowed letters = some cs) : cs.map Component.letter = letters := by
  induction letters generalizing allowed cs with
  | nil =>
    cases h
    rfl
  | cons letter letters ih =>
    rw [componentsInOrder?] at h
    split at h
    · cases h
    · rename_i found later hfound
      obtain ⟨cs, hcs, rfl⟩ := Option.map_eq_some_iff.mp h
      have hhit := List.head?_dropWhile_not (fun a : Component => a.letter ≠ letter) allowed
      simp only [hfound, List.head?_cons, decide_eq_false_iff_not, not_not] at hhit
      rw [List.map_cons, hhit, ih hcs]

theorem WriteMask.spells_of_ofName? {letters : String} {mask : WriteMask}
    (h : WriteMask.ofName? letters = some mask) : Spells letters mask := by
  obtain ⟨cs, hcs, rfl⟩ := Option.map_eq_some_iff.mp h
  intro c
  rw [Quad.get_ofFn, List.contains_iff_mem, ← map_letter_of_componentsInOrder? hcs, List.mem_map]
  constructor
  · exact fun hc => ⟨c, hc, rfl⟩
  · rintro ⟨c', hc', hletter⟩
    rwa [← Component.letter_injective hletter]

/-! ## Swizzles -/

/-- One letter is broadcast, and four letters are those of the four components. -/
def Swizzle.Spells (letters : String) (s : Swizzle) : Prop :=
  (∃ c, letters.toList = [c.letter] ∧ s = Quad.replicate c) ∨
    letters.toList = s.toList.map Component.letter

/-! ## Reading -/

namespace Scan

variable {α : Type}

/-- In front of a name the action takes this name.  It returns a value that the name spells if it
is a spelling, and otherwise it fails at the name. -/
def ReadsSpelling (m : Scan α) (isSpelling : String → Prop) (spells : String → α → Prop)
    (cause : ErrorCause) : Prop :=
  ∀ (k : Cursor) (name : String), Token.lead? k.ahead = some (.identifier name) →
    (isSpelling name → ∃ a, spells name a ∧ m k = .ok a (k.past name.length)) ∧
    (¬isSpelling name →
      m k = .error ⟨cause, k.skipIgnored.position, []⟩ (k.past name.length))

/-- A name is looked up when it has been read. -/
theorem readsSpelling_token {f : Token → Scan α} {find? : String → Option α}
    {isSpelling : String → Prop} {spells : String → α → Prop} {cause : ErrorCause}
    (hf : ∀ name, f (.identifier name) = (find? name).elim (fail cause) pure)
    (hfind : ∀ name, name ≠ "" → (isSpelling name ↔ ∃ a, find? name = some a))
    (hspells : ∀ name a, find? name = some a → spells name a) :
    (token >>= f).ReadsSpelling isSpelling spells cause := by
  intro k name hlead
  have hne : name ≠ "" := by
    rintro rfl
    exact absurd (Token.text_length_pos hlead) (by decide)
  have htoken : token k = .ok (.identifier name) (k.past name.length) :=
    token_of_lead? (inside_of_identifier hlead) hlead trivial
  rw [bind_apply, htoken, hfind name hne]
  dsimp only
  rw [hf]
  constructor
  · rintro ⟨a, ha⟩
    rw [ha]
    exact ⟨a, hspells name a ha, rfl⟩
  · intro hnone
    rw [← Option.isSome_iff_exists, Option.not_isSome_iff_eq_none] at hnone
    rw [hnone, ← k.tokenStart_past name.length]
    rfl

theorem readsSpelling_writeMask :
    writeMask.ReadsSpelling WriteMask.IsSpelling WriteMask.Spells .invalidWriteMask := by
  refine readsSpelling_token (fun name => ?_) (fun _ hne => WriteMask.isSpelling_iff hne)
    fun _ _ h => WriteMask.spells_of_ofName? h
  dsimp only
  cases WriteMask.ofName? name <;> rfl

theorem readsSpelling_swizzle :
    swizzle.ReadsSpelling IsSwizzle Swizzle.Spells .invalidSwizzle := by
  refine readsSpelling_token (fun name => ?_) (fun _ _ => isSwizzle_iff)
    fun _ _ h => Swizzle.ofName?_eq_some.mp h
  dsimp only
  cases Swizzle.ofName? name <;> rfl

/-! ## Writing -/

/-- What is written behind a register: nothing for the value that is meant if nothing is there, and
otherwise a dot with a name that is read as the value. -/
def Restores (m : Scan α) (omitted : α) (suffix : String) (a : α) : Prop :=
  (suffix = "" ∧ a = omitted) ∨
    ∃ letters, suffix = "." ++ letters ∧ ∀ behind, Token.endsName behind = true →
      m.Reads (letters.toList ++ behind) True a behind

theorem restores_writeMask {mask : WriteMask} (h : mask.any id = true) :
    writeMask.Restores (Quad.replicate true) (WriteMask.suffix mask) mask := by
  rcases WriteMask.suffix_cases h with ⟨hfull, hsuffix⟩ | ⟨letters, hsuffix, hname, hmask⟩
  · exact .inl ⟨hsuffix, hfull⟩
  · exact .inr ⟨letters, hsuffix, fun _ hend => reads_writeMask hname hmask hend⟩

theorem restores_swizzle (s : Swizzle) :
    swizzle.Restores Swizzle.identity (Swizzle.suffix s) s := by
  rcases Swizzle.suffix_cases s with ⟨hidentity, hsuffix⟩ | ⟨letters, hsuffix, hname, hs⟩
  · exact .inl ⟨hsuffix, hidentity⟩
  · exact .inr ⟨letters, hsuffix, fun _ hend => reads_swizzle hname hs hend⟩

end Scan

theorem WriteMask.any_of_ne {mask : WriteMask} (h : mask ≠ Quad.replicate false) :
    mask.any id = true := by
  -- there are sixteen masks
  have hall : ∀ x y z w : Bool, (⟨x, y, z, w⟩ : WriteMask) ≠ Quad.replicate false →
      (⟨x, y, z, w⟩ : WriteMask).any id = true := by
    decide
  exact hall _ _ _ _ h

/-- A name is read as a mask if its letters are increasing, and as a swizzle if it has one letter
or four; the value is the one that it spells.  Any other name is refused where it stands.  A mask
that allows something and any swizzle are read as they were written, alone and in the text of the
operand, and where nothing was written the value is the one that is meant then. -/
theorem component_letters :
    Scan.writeMask.ReadsSpelling WriteMask.IsSpelling WriteMask.Spells .invalidWriteMask ∧
    Scan.swizzle.ReadsSpelling IsSwizzle Swizzle.Spells .invalidSwizzle ∧
    (∀ d : Destination, d.mask ≠ Quad.replicate false →
      Scan.writeMask.Restores (Quad.replicate true) (WriteMask.suffix d.mask) d.mask ∧
      ∀ behind, Token.Stops behind →
        Compile.destinationMask.Reads ((WriteMask.suffix d.mask).toList ++ behind) True d.mask
          behind ∧
        ∀ i j c possible rest, i.Writes d.register j →
          Compile.destinationGuard.Reads behind possible c rest →
          Compile.destination.Builds (d.text.toList ++ behind) i possible rest
            fun target j' => target = (d, c) ∧ j' = j) ∧
    ∀ s : Swizzle,
      Scan.swizzle.Restores Swizzle.identity (Swizzle.suffix s) s ∧
      ∀ behind, Token.Stops behind →
        (∀ o, (Compile.vectorSuffix o).Reads ((Swizzle.suffix s).toList ++ behind) True s
          behind) ∧
        (∀ o c, s = Quad.replicate c →
          (Compile.scalarSuffix o).Reads ((Swizzle.suffix s).toList ++ behind) True s behind) ∧
        ∀ rule, Scan.condition.Reads ((CondTest.text ⟨rule, s⟩).toList ++ behind) True ⟨rule, s⟩
          behind := by
  refine ⟨Scan.readsSpelling_writeMask, Scan.readsSpelling_swizzle, fun d hd => ?_, fun s => ?_⟩
  · have hmask := WriteMask.any_of_ne hd
    refine ⟨Scan.restores_writeMask hmask, fun behind hstops =>
      ⟨Compile.reads_destinationMask hmask hstops, ?_⟩⟩
    intro i j c possible rest hwrites hguard
    exact Compile.builds_destination ⟨hmask, hwrites⟩ hstops hguard
  · refine ⟨Scan.restores_swizzle s, fun behind hstops =>
      ⟨fun o => Compile.reads_vectorSuffix o s hstops, ?_,
        fun rule => Scan.reads_condition ⟨rule, s⟩ hstops⟩⟩
    rintro o c rfl
    exact Compile.reads_scalarSuffix o c hstops

/-- Letters may be left out of a mask but not repeated, and a swizzle has them in any order.  The
text of an output is read with its mask. -/
theorem component_letters_output :
    (∃ l, Scan.writeMask (.ofText "xzw, R1") = .ok ⟨true, false, true, true⟩ l) ∧
    (∃ l, Scan.writeMask (.ofText "xzx, R1") = .error ⟨.invalidWriteMask, 0, []⟩ l) ∧
    (∃ l, Scan.swizzle (.ofText "wzyx, R1") = .ok ⟨.w, .z, .y, .x⟩ l) ∧
    ∃ e, Compile.destination { cursor := .ofText "o[COLR].xz, R1" } =
      .ok (⟨.output .colr, ⟨true, false, true, false⟩⟩, {}) e := by
  obtain ⟨hmask, hswizzle, hdestination, -⟩ := component_letters
  refine ⟨?_, ?_, ?_, ?_⟩
  · obtain ⟨mask, hspells, hread⟩ := (hmask (.ofText "xzw, R1") "xzw" (by decide +kernel)).1
      ⟨by decide, by simp [componentLetters], by decide⟩
    have hsame : mask = ⟨true, false, true, true⟩ := by
      apply Quad.ext_get
      intro c
      rw [Bool.eq_iff_iff, hspells c]
      cases c <;> decide
    exact ⟨_, by rw [hread, hsame]⟩
  · refine ⟨_, (hmask (.ofText "xzx, R1") "xzx" (by decide +kernel)).2 fun hspelling => ?_⟩
    exact absurd hspelling.increasing (by decide)
  · obtain ⟨s, hspells, hread⟩ := (hswizzle (.ofText "wzyx, R1") "wzyx" (by decide +kernel)).1
      ⟨by simp [componentLetters], .inr rfl⟩
    have hfound : Swizzle.ofName? "wzyx" = some s := Swizzle.ofName?_eq_some.mpr hspells
    have hsame : s = ⟨.w, .z, .y, .x⟩ := Option.some.inj (hfound.symm.trans (by decide +kernel))
    exact ⟨_, by rw [hread, hsame]⟩
  · have hstops : Token.Stops ", R1".toList := ⟨rfl, rfl⟩
    have hwrites : Inventory.Writes {} (.output .colr) { outputsWritten := 1 } :=
      .output (by decide)
    obtain ⟨-, hread⟩ := (hdestination ⟨.output .colr, ⟨true, false, true, false⟩⟩ (by decide)).2
      ", R1".toList hstops
    have hbuilds := hread {} _ {} True _ hwrites (Compile.reads_destinationGuard {})
    obtain ⟨_, e, he, -, rfl, -⟩ :=
      (hbuilds { cursor := .ofText "o[COLR].xz, R1" } (by decide +kernel) rfl).success trivial
    exact ⟨e, he⟩

end FragmentAssembly

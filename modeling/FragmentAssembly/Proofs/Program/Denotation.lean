import FragmentAssembly.Proofs.Context.Operation
import FragmentAssembly.Proofs.Grammar.Denotation
import FragmentAssembly.Proofs.Program.Parameters

/-!
# Parameters and what is written

The operand of a compiled program denotes what is written in its place, however often parameters
are set.  Setting one changes what is read by the operands that are written as its name, and by no
other ones, even if the values were equal.
-/

namespace FragmentAssembly

open Grammar

/-! ## Denotation in sound tables -/

theorem eq_map_of_forall₂ {α β : Type} {f : α → β} {as : List α} {bs : List β}
    (h : List.Forall₂ (fun a b => b = f a) as bs) : bs = as.map f := by
  induction h with
  | nil => rfl
  | cons hab _ ih => rw [hab, ih, List.map_cons]

/-- How an entry is written. -/
def Parameter.spelling (entry : Parameter) : Spelling :=
  match entry.name with
  | some name => .name name
  | none => .literal entry.value

/-- How a register is written, if it is a parameter. -/
def ParameterTable.spelling? (t : ParameterTable) : Readable → Option Spelling
  | .parameter index => (t.get? index).map Parameter.spelling
  | _ => none

namespace ParameterTable

variable {s t : ParameterTable} {r : Readable} {w : Option Spelling}

/-- Whether a parameter of this name was declared, so that it can be set. -/
def Declares (t : ParameterTable) (name : String) : Prop :=
  ∃ entry ∈ t.entries, entry.name = some name ∧ entry.kind = .declared

/-- In a sound table only one thing can have been written. -/
theorem IsSound.eq_spelling? (h : t.IsSound) (hw : t.Denotes r w) : w = t.spelling? r := by
  rcases w with _ | name | value
  · cases r with
    | parameter index => exact absurd rfl (hw index)
    | temporary | input | localParameter => rfl
  · obtain ⟨index, entry, rfl, hentry, hname⟩ := hw
    rw [spelling?, hentry, Option.map_some, Parameter.spelling, hname]
  · obtain ⟨index, entry, rfl, hentry, hkind, rfl⟩ := hw
    -- a literal has no name by which it could have been written
    have hnone := (h.anonymous entry (mem_of_get? hentry)).mpr hkind
    rw [spelling?, hentry, Option.map_some, Parameter.spelling, hnone]

/-- So the wordings of instructions can be told from the table. -/
theorem IsSound.eq_wordings (h : t.IsSound) {instructions : List Instruction}
    {wss : List Wording} (hw : t.DenotesEach instructions wss) :
    wss = instructions.map fun ins => ins.sources.map fun s => t.spelling? s.register :=
  eq_map_of_forall₂ (hw.imp fun _ _ hall =>
    eq_map_of_forall₂ (hall.imp fun _ _ hdenotes => h.eq_spelling? hdenotes))

/-- Setting parameters changes neither names nor literals. -/
theorem Denotes.retuned (hw : s.Denotes r w) (hst : s.Retuned t) : t.Denotes r w := by
  have hentry : ∀ {index a}, s.get? index = some a → ∃ b, t.get? index = some b ∧ a.Retuned b := by
    intro index a ha
    rcases getElem?_of_forall₂ hst.entries index with ⟨hnone, -⟩ | ⟨a', b, ha', hb, hab⟩
    · rw [get?, hnone] at ha
      cases ha
    · rw [get?, ha'] at ha
      cases ha
      exact ⟨b, hb, hab⟩
  rcases w with _ | name | value
  · exact hw
  · obtain ⟨index, a, hr, ha, hname⟩ := hw
    obtain ⟨b, hb, hab⟩ := hentry ha
    exact ⟨index, b, hr, hb, hab.name.trans hname⟩
  · obtain ⟨index, a, hr, ha, hkind, hvalue⟩ := hw
    obtain ⟨b, hb, hab⟩ := hentry ha
    refine ⟨index, b, hr, hb, hab.kind.trans hkind, (hab.value ?_).trans hvalue⟩
    rw [hkind]
    decide

theorem DenotesEach.retuned {instructions : List Instruction} {wss : List Wording}
    (hw : s.DenotesEach instructions wss) (hst : s.Retuned t) :
    t.DenotesEach instructions wss :=
  hw.imp fun _ _ hall => hall.imp fun _ _ hdenotes => hdenotes.retuned hst

/-! ## Setting a parameter -/

theorem value_setValue (t : ParameterTable) (index other : Nat) (value : Vec4) :
    (t.setValue index value).value other =
      if other = index ∧ other < t.size then value else t.value other := by
  unfold ParameterTable.value setValue get? size
  dsimp only
  rw [List.getElem?_modify]
  by_cases hlt : other < t.entries.length
  · rw [List.getElem?_eq_getElem hlt]
    by_cases hsame : index = other
    · simp [hsame, hlt]
    · simp [hsame, Ne.symm hsame]
  · rw [List.getElem?_eq_none (Nat.le_of_not_lt hlt)]
    simp [hlt]

end ParameterTable

namespace Program

variable {q r : Program} {name : String} {value : Vec4}

/-- The operands that are written as a name read its new value, and all others what they read
before.  Nothing else differs. -/
structure SetsOnly (q : Program) (wss : List Wording) (name : String) (value : Vec4)
    (r : Program) : Prop where
  same : r = { q with parameters := r.parameters }
  reads : List.Forall₂ (fun ins ws => List.Forall₂ (fun (s : Source) w => ∀ m : Machine,
    m.read r s.register = if w = some (.name name) then value else m.read q s.register)
      ins.sources ws) q.instructions wss

/-- Only the entry with the name is set. -/
theorem read_setValue {index : Nat} {register : Readable} {w : Option Spelling}
    (hsound : q.parameters.IsSound) (hfound : q.parameters.lookup? name = some index)
    (hdeclared : (q.parameters.get? index).any (·.kind = .declared) = true)
    (hw : q.parameters.Denotes register w) (m : Machine) :
    m.read { q with parameters := q.parameters.setValue index value } register =
      if w = some (.name name) then value else m.read q register := by
  obtain ⟨entry, hentry, hname⟩ := (hsound.lookup name index).mp hfound
  rw [hentry, Option.any_some, decide_eq_true_eq] at hdeclared
  -- a register, a name, or a literal, which has an entry of its own
  rcases w with _ | other | literal
  · cases register with
    | parameter index => exact absurd rfl (hw index)
    | temporary | input | localParameter => rfl
  · obtain ⟨place, a, rfl, ha, hother⟩ := hw
    have hlt : place < q.parameters.size := (List.getElem?_eq_some_iff.mp ha).1
    simp only [Machine.read, ParameterTable.value_setValue, Option.some.injEq, Spelling.name.injEq,
      hlt, and_true]
    refine if_congr ⟨?_, ?_⟩ rfl rfl
    · rintro rfl
      rw [hentry] at ha
      cases ha
      exact Option.some.inj (hother.symm.trans hname)
    · rintro rfl
      exact hsound.distinct ha hentry hother hname
  · obtain ⟨place, a, rfl, ha, hkind, -⟩ := hw
    have hne : place ≠ index := by
      rintro rfl
      rw [hentry] at ha
      cases ha
      rw [hdeclared] at hkind
      cases hkind
    simp [Machine.read, ParameterTable.value_setValue, hne]

theorem setsOnly_of_withNamed {wss : List Wording} (h : q.withNamed name value = .ok r)
    (hsound : q.parameters.IsSound) (hw : q.parameters.DenotesEach q.instructions wss) :
    q.SetsOnly wss name value r := by
  obtain ⟨index, hfound, hdeclared, rfl⟩ := withNamed_ok h
  exact ⟨rfl, hw.imp fun _ _ hall => hall.imp fun _ _ hdenotes m =>
    read_setValue hsound hfound hdeclared hdenotes m⟩

/-- A parameter can be set if and only if it was declared. -/
theorem isOk_withNamed (hsound : q.parameters.IsSound) (name : String) (value : Vec4) :
    (q.withNamed name value).isOk = true ↔ q.parameters.Declares name := by
  unfold withNamed
  cases hfound : q.parameters.lookup? name with
  | none =>
    refine iff_of_false Bool.false_ne_true ?_
    rintro ⟨entry, hentry, hname, -⟩
    obtain ⟨index, hindex⟩ := List.mem_iff_getElem?.mp hentry
    rw [(hsound.lookup name index).mpr ⟨entry, hindex, hname⟩] at hfound
    cases hfound
  | some index =>
    obtain ⟨entry, hentry, hname⟩ := (hsound.lookup name index).mp hfound
    simp only [hentry, Option.any_some, decide_eq_true_eq]
    -- names are distinct, so the entry that is found is the only one to be declared
    have hdeclares : q.parameters.Declares name ↔ entry.kind = .declared := by
      constructor
      · rintro ⟨other, hmem, hother, hkind⟩
        obtain ⟨place, hplace⟩ := List.mem_iff_getElem?.mp hmem
        obtain rfl := hsound.distinct hplace hentry hother hname
        rw [ParameterTable.get?, hplace] at hentry
        cases hentry
        exact hkind
      · exact fun hkind => ⟨entry, ParameterTable.mem_of_get? hentry, hname, hkind⟩
    rw [hdeclares]
    split
    · exact iff_of_true rfl ‹_›
    · exact iff_of_false Bool.false_ne_true ‹_›

end Program

/-! ## Tables while a text is read -/

/-- The drafts that steps lead to from the beginning of a text.  All that its reading comes by are
among them, whether it fails later or not. -/
def Draft.Reached (source : String) : Draft → Prop :=
  Draft.Grows { cursor := Cursor.ofText source }

theorem Draft.Step.keeps {d e : Draft} (h : d.Step e)
    (hd : d.parameters.IsRegular ∧ d.parameters.SharesLiterals) :
    e.parameters.IsRegular ∧ e.parameters.SharesLiterals := by
  cases h with
  | aside same => rwa [same]
  | literal v added =>
    have hreads := Inventory.Reads.literal d.inventory v
    rw [added]
    exact ⟨Inventory.isRegular_of_reads hreads hd.1, Inventory.sharesLiterals_of_reads hreads hd.2⟩
  | define v isName free new known added =>
    have hdefines := Inventory.Defines.named (i := d.inventory) v isName free new known
    rw [added]
    exact ⟨Inventory.isRegular_of_defines hdefines hd.1,
      Inventory.sharesLiterals_of_defines hdefines hd.2⟩

/-- No draft has a table that is not sound. -/
theorem Draft.Reached.isSound {source : String} {d : Draft} (h : Reached source d) :
    d.parameters.IsSound := by
  have hboth : d.parameters.IsRegular ∧ d.parameters.SharesLiterals := by
    unfold Reached Grows at h
    induction h with
    | refl => exact ⟨ParameterTable.isRegular_empty, .nil⟩
    | tail _ hstep ih => exact hstep.keeps ih
  exact hboth.1.isSound hboth.2

/-! ## What is written stays -/

theorem Program.Updates.denotes {source : String} {p q : Program} {wss : List Wording}
    (hcompile : compile source = .ok p) (hwritten : IsWritten source wss) (h : p.Updates q) :
    q.parameters.DenotesEach q.instructions wss := by
  have hretuned := retuned_of_updates h
  rw [hretuned.instructions]
  exact (denotes_of_compile hcompile hwritten).retuned hretuned.parameters

/-- Tables are sound while a text is read, and later ones begin with the entries of earlier ones,
whose names denote what they did.  The tables of a compiled text are sound too, also after
parameters were set.  There is one thing that its operands can have been written as, and they denote
it at all times.  To set a parameter of a context changes exactly what the operands that are written
as its name read, if the name was declared, and nothing if it was not. -/
theorem operands_denote (source : String) :
    (∀ d, Draft.Reached source d → d.parameters.IsSound ∧
      (∀ e, d.Grows e → e.parameters.Extends d.parameters ∧ ∀ name index,
        d.parameters.lookup? name = some index → e.parameters.lookup? name = some index) ∧
      Draft.Reached source (Compile.operand.leaves d) ∧
      ∀ count, Draft.Reached source ((Compile.statement count).leaves d)) ∧
    Draft.Reached source (Compile.program.leaves { cursor := Cursor.ofText source }) ∧
    ∀ p, compile source = .ok p → ∃ wss, (∀ other, IsWritten source other ↔ other = wss) ∧
      ∀ q, p.Updates q → q.parameters.IsSound ∧ q.parameters.DenotesEach q.instructions wss ∧
        ∀ (c : Context) (name : String) (value : Vec4), c.program? = some q →
          match c.setNamedParameter name value with
          | (.ok (), c') => q.parameters.Declares name ∧
              ∃ r, c'.program? = some r ∧ q.SetsOnly wss name value r
          | (.error _, c') => ¬q.parameters.Declares name ∧ c'.program? = some q := by
  refine ⟨fun d hd => ⟨hd.isSound, fun e he => ⟨he.extends, fun name index =>
    hd.isSound.lookup?_extends (Draft.Reached.isSound (hd.trans he)) he.extends⟩,
    hd.trans (Compile.grows_operand d),
    fun count => hd.trans (Compile.grows_statement count d)⟩, Compile.grows_program _,
    fun p hp => ?_⟩
  obtain ⟨wss, hwritten⟩ := exists_isWritten hp
  have hsound : ∀ {q}, p.Updates q → q.parameters.IsSound := fun hq =>
    isSound_of_compile hp (Program.retuned_of_updates hq)
  refine ⟨wss, fun other => ⟨fun hother => ?_, fun hsame => hsame ▸ hwritten⟩, fun q hq => ?_⟩
  · rw [(hsound .refl).eq_wordings (denotes_of_compile hp hother),
      (hsound .refl).eq_wordings (denotes_of_compile hp hwritten)]
  · have hdenotes := Program.Updates.denotes hp hwritten hq
    refine ⟨hsound hq, hdenotes, fun c name value hbound => ?_⟩
    have hok := Program.isOk_withNamed (hsound hq) name value
    rw [Context.setNamedParameter_of_program? hbound]
    -- whether it is set follows from the table, and what is set from the entry found for the name
    cases hset : q.withNamed name value with
    | ok r =>
      rw [hset] at hok
      exact ⟨hok.mp rfl, r, Context.program?_replace hbound r,
        Program.setsOnly_of_withNamed hset (hsound hq) hdenotes⟩
    | error e =>
      rw [hset] at hok
      exact ⟨fun hdeclares => Bool.false_ne_true (hok.mpr hdeclares),
        Context.program?_replace hbound q⟩

/-- Three parameters have the same value, and only the one that is written as the name is set. -/
theorem operands_denote_blend :
    ∃ p, compile blendText = .ok p ∧ p.parameters.value 0 = p.parameters.value 1 ∧
      p.parameters.value 1 = p.parameters.value 2 ∧
      let wss : List Wording := [[some (.name "tint"), some (.name "white"), none],
        [none, some (.literal (Quad.replicate .one))], []]
      IsWritten blendText wss ∧
        ∃ r c', (({} : Context).bind p).setNamedParameter "tint" Quad.zero = (.ok (), c') ∧
          c'.program? = some r ∧ p.SetsOnly wss "tint" Quad.zero r := by
  obtain ⟨p, hp, htable, hregisters⟩ : ∃ p, compile blendText = .ok p ∧
      p.parameters = blendTable ∧
      (p.instructions.map fun ins => ins.sources.map Source.register) =
        [[.parameter 0, .parameter 1, .localParameter 0], [.temporary 0, .parameter 2], []] :=
    exists_of_decide (by decide +kernel)
  obtain ⟨wss, hone, hq⟩ := (operands_denote blendText).2.2 p hp
  obtain ⟨hsound, hdenotes, hset⟩ := hq p .refl
  have hwss : wss = [[some (.name "tint"), some (.name "white"), none],
      [none, some (.literal (Quad.replicate .one))], []] := by
    have hmap : wss = (p.instructions.map fun ins => ins.sources.map Source.register).map
        fun registers => registers.map p.parameters.spelling? := by
      rw [hsound.eq_wordings hdenotes, List.map_map]
      simp only [Function.comp_def, List.map_map]
    rw [hmap, hregisters, htable]
    rfl
  subst hwss
  have hbinds : (({} : Context).bind p).program? = some p := rfl
  have hcall : (({} : Context).bind p).setNamedParameter "tint" Quad.zero =
      (.ok (), (({} : Context).bind p).replace
        { p with parameters := p.parameters.setValue 0 Quad.zero }) := by
    rw [Context.setNamedParameter_of_program? hbinds, withNamed_blend htable]
  have hset := hset (({} : Context).bind p) "tint" Quad.zero hbinds
  rw [hcall] at hset
  obtain ⟨-, r, hbound, honly⟩ := hset
  refine ⟨p, hp, ?_, ?_, (hone _).mpr rfl, r, _, hcall, hbound, honly⟩ <;>
    · rw [htable]
      rfl

end FragmentAssembly

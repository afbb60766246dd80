import FragmentAssembly.Proofs.Grammar.Language
import FragmentAssembly.Proofs.Program.Usage
import FragmentAssembly.Proofs.Reading.Extension
import FragmentAssembly.Proofs.Reading.Repetition

/-!
# Concatenated programs

The statements of two programs that stand one behind the other are a program again, if the two are
compatible and there is room for them.  It has the instructions of both.
-/

namespace FragmentAssembly

namespace Compile

/-! ## The end of a program -/

/-- The position of the `END` is that of its first character. -/
theorem position_of_finish {count : Nat} {d e : Draft} {ins : Instruction}
    (h : statement count d = .ok (.finish ins) e) :
    ins.position = d.cursor.skipIgnored.position := by
  obtain ⟨-, name, k, hname, hnamed⟩ := named_of_statement h
  cases hnamed with
  | finish _ read =>
    obtain ⟨rfl, -, -⟩ := finish_eq read
    show k.tokenStart = _
    obtain ⟨hinside, hnext⟩ := next_of_statementName hname
    cases hlead : Token.lead? d.cursor.skipIgnored.rest with
    | none =>
      rw [Cursor.next_of_none hinside hlead] at hnext
      cases hnext
    | some t =>
      rw [Cursor.next_of_some hinside hlead, Prod.mk.injEq] at hnext
      rw [← hnext.2]
      exact Cursor.tokenStart_pass _ _

/-- What the `END` consists of, and what is left behind it. -/
theorem ahead_of_finish {count : Nat} {d e : Draft} {ins : Instruction}
    (h : statement count d = .ok (.finish ins) e) :
    ∃ trailing, d.cursor.ahead = "END".toList ++ trailing ∧ Token.IsTrailing trailing ∧
      Token.endsName trailing = true := by
  obtain ⟨hcount, -⟩ := assembles_of_statement h
  obtain ⟨new, hp, -⟩ := (recognizes_statement hcount []).sound h
  obtain ⟨name, mid, _, _, ⟨hname, rfl⟩, ⟨rfl, hnothing, -, -⟩, -⟩ := hp
  rw [hname.2.visible_rest] at hnothing
  subst hnothing
  obtain ⟨-, trailing, htext, hends, hskips⟩ := hname
  exact ⟨trailing, htext, Token.isTrailing_iff.mpr (Grammar.skips_iff.mp hskips).symm, hends⟩

/-- Cursors that stay beside each other while statements are passed. -/
theorem Passes.beside {c : Coupling ParseError Cursor} (hc : c.Abreast) {count : Nat}
    {d e : Draft} {body : List Instruction} (h : Passes count d body e)
    (hd : c.onDraft.beside d d) : c.onDraft.beside e e := by
  induction h with
  | nil count d => exact hd
  | @cons count d m e added body read inner _ ih =>
    have hpairs := together_statement hc count d d hd
    rw [read] at hpairs
    cases hpairs with
    | ok value state => exact ih state
    | spent value state =>
      obtain ⟨ins, hfinish⟩ := value
      exact absurd hfinish (inner ins)

end Compile

/-! ## Texts of programs -/

/-- The characters at the beginning of a text that have at most `n` bytes. -/
def takeBytes : Nat → List Char → List Char
  | _, [] => []
  | n, c :: cs => if c.utf8Size ≤ n then c :: takeBytes (n - c.utf8Size) cs else []

theorem takeBytes_bytes (cs rest : List Char) : takeBytes (bytes cs) (cs ++ rest) = cs := by
  induction cs with
  | nil =>
    cases rest with
    | nil => rfl
    | cons c rest => exact if_neg (Nat.not_le_of_lt c.utf8Size_pos)
  | cons c cs ih =>
    have hbytes : bytes (c :: cs) = c.utf8Size + bytes cs := List.sum_cons
    rw [List.cons_append, takeBytes, hbytes, if_pos (Nat.le_add_right _ _), Nat.add_sub_cancel_left,
      ih]

namespace Program

/-- Where the last instruction of a program stands. -/
def endPosition (p : Program) : Nat :=
  (p.instructions.getLast?.map Instruction.position).getD 0

/-- The text that a program was read from, between the header and the `END`. -/
def bodySource (p : Program) : String :=
  String.ofList (takeBytes (p.endPosition - 7) (p.source.toList.drop 7))

/-- The text of two programs in one. -/
def concat (p q : Program) : String :=
  "!!FP1.0" ++ p.bodySource ++ "\n" ++ q.bodySource ++ "END"

end Program

/-- The draft behind the header. -/
def Draft.start (source : String) : Draft :=
  { cursor := (Cursor.ofText source).advance 7 }

theorem Draft.inventory_start (source : String) : (Draft.start source).inventory = {} :=
  rfl

theorem Draft.rest_start {source : String} {text : List Char}
    (h : source.toList = "!!FP1.0".toList ++ text) : (Draft.start source).cursor.rest = text := by
  show ((Cursor.ofText source).advance 7).rest = text
  rw [Cursor.advance_rest]
  show source.toList.drop 7 = text
  rw [h]
  rfl

theorem Draft.ahead_start {source : String} {text : List Char}
    (h : source.toList = "!!FP1.0".toList ++ text) :
    (Draft.start source).cursor.ahead = Token.visible text :=
  ahead_header h

/-- All bytes that the cursor does not see any more are in front of it. -/
theorem position_of_passes {source : String} {count : Nat} {body : List Instruction} {e : Draft}
    {cs : List Char} (h : Compile.Passes count (.start source) body e)
    (hsource : source.toList = cs ++ e.cursor.ahead) :
    e.cursor.skipIgnored.position = bytes cs := by
  have hbytes : e.cursor.inside = [] ∧
      e.cursor.position + bytes e.cursor.rest = source.utf8ByteSize := by
    have hmore : Token.endsChunk [] = true := rfl
    have hinside : ((Cursor.ofText source).advance 7).inside = [] := Cursor.advance_inside 7 rfl
    have hsize := Cursor.bytes_header source
    have hstart : ((Cursor.ofText source).advance 7).tokenStart = 0 :=
      Cursor.tokenStart_advance 7 _
    have hbeside := h.beside (c := (Lockstep.extension source.utf8ByteSize hmore).coupling)
      Lockstep.abreast ⟨⟨⟨hinside, hinside⟩, (List.append_nil _).symm, hsize, hsize,
        .inl ⟨hstart, hstart⟩⟩, rfl⟩
    exact ⟨hbeside.1.1.1, hbeside.1.2.2.1⟩
  have hskipped := Cursor.bytes_skipIgnored_of_inside hbytes.1
  rw [Cursor.rest_skipIgnored hbytes.1, hbytes.2, utf8ByteSize_eq_bytes, hsource, bytes_append]
    at hskipped
  omega

theorem Program.toList_bodySource {p : Program} {cs rest : List Char}
    (hsource : p.source.toList = "!!FP1.0".toList ++ (cs ++ rest))
    (hend : p.endPosition = bytes ("!!FP1.0".toList ++ cs)) : p.bodySource.toList = cs := by
  have hbytes : p.endPosition - 7 = bytes cs := by
    rw [hend, bytes_append]
    exact Nat.add_sub_cancel_left 7 _
  have hdrop : p.source.toList.drop 7 = cs ++ rest := by
    rw [hsource]
    rfl
  rw [bodySource, hbytes, hdrop, String.toList_ofList, takeBytes_bytes]

/-- A compiled text has its statements between the header and the `END`, and behind another text
they are read again. -/
theorem repeats_of_compile {source : String} {p : Program} (h : compile source = .ok p) :
    (∃ trailing, source.toList = "!!FP1.0".toList ++
        (p.bodySource.toList ++ ("END".toList ++ trailing)) ∧ Token.IsTrailing trailing) ∧
      ∀ (v : List Char) (b : Inventory) (count : Nat) (d : Draft), b.Joined {} d.inventory →
        d.cursor.ahead = Token.visible (p.bodySource.toList ++ v) →
          Compile.Repeats p.body p.inventory v b count d := by
  obtain ⟨rest, hrest⟩ := exists_header h
  obtain ⟨_, final, hok, -, hprogram⟩ := (compile_eq_ok hrest).mp h
  obtain ⟨body, ins, e, rfl, hpasses, hlast⟩ := Compile.passes_of_statements hok
  obtain ⟨-, ⟨position, rfl⟩, hinventory⟩ := Compile.assembles_of_statement hlast
  obtain ⟨trailing, hahead, htrailing, -⟩ := Compile.ahead_of_finish hlast
  obtain ⟨-, text, htext, hagain⟩ := Compile.Passes.again (d := .start source) hpasses
  obtain ⟨gap, hgap, hbehind⟩ : ∃ gap, Token.IsGap gap ∧
      e.cursor.rest = gap ++ ("END".toList ++ trailing) :=
    Compile.rest_of_ahead (Cursor.inside_of_mem (c := 'E') (by decide) (by rw [hahead]; simp))
      (show e.cursor.ahead = ['E', 'N'] ++ 'D' :: trailing from hahead)
  rw [Draft.rest_start hrest, hbehind, ← List.append_assoc] at htext
  rw [htext] at hrest
  have hposition : position = bytes ("!!FP1.0".toList ++ (text ++ gap)) :=
    (Compile.position_of_finish hlast).trans
      (position_of_passes hpasses (by rw [hrest, hahead, ← List.append_assoc]))
  have hend : p.endPosition = bytes ("!!FP1.0".toList ++ (text ++ gap)) := by
    rw [← hposition, Program.endPosition, ← hprogram]
    simp [Draft.program]
  have hbody : p.body = body := Program.body_eq (by rw [← hprogram]; rfl)
  have hsame : p.inventory = e.inventory := by
    rw [hinventory, ← hprogram]
    rfl
  have hsource : p.source = source := by
    rw [← hprogram]
    rfl
  rw [← hsource] at hrest
  rw [← hsource, Program.toList_bodySource hrest hend, hbody, hsame]
  refine ⟨⟨trailing, hrest, htrailing⟩, fun v b count d hjoined hd => ?_⟩
  exact (hagain (gap ++ v) b count d hjoined (by rwa [← List.append_assoc])).of_gap hgap

/-! ## Concatenation -/

/-- The program `r` consists of the bodies of `p` and `q`, with an `END` behind them. -/
structure Program.IsConcat (p q r : Program) : Prop where
  instructions : ∃ first second position,
    r.instructions = first ++ second ++ [{ opcode := .halt, position }] ∧
      List.Forall₂ (Instruction.Alike p.parameters r.parameters) p.body first ∧
      List.Forall₂ (Instruction.Alike q.parameters r.parameters) q.body second
  inputs : r.inputsRead = p.inputsRead ||| q.inputsRead
  outputs : r.outputsWritten = p.outputsWritten ||| q.outputsWritten
  textures : ∀ unit target, r.textures.get unit = some target ↔
    p.textures.get unit = some target ∨ q.textures.get unit = some target
  named : r.parameters.named = p.parameters.named ++ q.parameters.named

/-- A compiled program has room for its `END`, and writes one color result at most. -/
theorem bounds_of_compile {source : String} {p : Program} (h : compile source = .ok p) :
    p.body.length < maxInstructions ∧ Compile.writesBothColors p.outputsWritten = false ∧
      p.outputsWritten ≠ 0 := by
  obtain ⟨body, position, hbody, hlength, hassembles, houtputs⟩ := assembles_of_compile h
  rw [hbody, List.length_append, List.length_singleton] at hlength
  rw [Program.body_eq hbody]
  exact ⟨hlength, hassembles.oneColor rfl, houtputs⟩

theorem Program.toList_concat (p q : Program) : (p.concat q).toList = "!!FP1.0".toList ++
    (p.bodySource.toList ++ '\n' :: (q.bodySource.toList ++ "END".toList)) := by
  simp only [concat, String.toList_append, List.append_assoc]
  rfl

/-- The first body is read as before, and the second one is read again behind it. -/
theorem passes_concat {s s' : String} {p q : Program} (hp : compile s = .ok p)
    (hq : compile s' = .ok q) :
    ∃ first m, Compile.Passes 0 (.start (p.concat q)) first m ∧
      Inventory.Joined {} p.inventory m.inventory ∧
      List.Forall₂ (Instruction.Alike p.parameters m.parameters) p.body first ∧
      Compile.Repeats q.body q.inventory "END".toList m.inventory (0 + first.length) m := by
  obtain ⟨-, hagain⟩ := repeats_of_compile hp
  obtain ⟨-, hagain'⟩ := repeats_of_compile hq
  obtain ⟨hlength, hcolors, -⟩ := bounds_of_compile hp
  have hnothing : Inventory.Joined {} {} (Draft.start (p.concat q)).inventory := by
    rw [Draft.inventory_start]
    exact .nothing ParameterTable.isRegular_empty rfl
  obtain ⟨first, m, hfirst, hbehind, hjoined, -, halike⟩ :=
    (hagain _ {} 0 (.start (p.concat q)) hnothing (Draft.ahead_start (p.toList_concat q))).passed
      (.of_empty hcolors) (by rwa [Nat.zero_add])
  obtain ⟨-, hwritten, -, -⟩ := hjoined.same_of_empty
  have hregular : m.parameters.IsRegular :=
    hjoined.parameters.isRegular ParameterTable.isRegular_empty
  -- the inventory of the first body is all that the second one can collide with
  rw [Token.visible_blank _ rfl] at hbehind
  exact ⟨first, m, hfirst, hjoined, halike, hagain' _ m.inventory _ m
    (.nothing hregular (hwritten.symm ▸ hcolors)) hbehind⟩

/-- Both bodies with an `END` behind them, assembled with the inventory of both. -/
theorem isConcat_of_joined {p q : Program} {source : String} {m f : Draft}
    {first second : List Instruction} {position : Nat}
    (hfirst : Inventory.Joined {} p.inventory m.inventory)
    (hsecond : m.inventory.Joined q.inventory f.inventory)
    (hextends : f.parameters.Extends m.parameters)
    (halike : List.Forall₂ (Instruction.Alike p.parameters m.parameters) p.body first)
    (halike' : List.Forall₂ (Instruction.Alike q.parameters f.parameters) q.body second) :
    p.IsConcat q
      (f.program source (first ++ second ++ [{ opcode := .halt, position }])) := by
  obtain ⟨hinputs, hwritten, htextures, hnamed⟩ := hfirst.same_of_empty
  refine ⟨⟨first, second, position, rfl, ?_, halike'⟩, ?_, ?_, fun unit target => ?_, ?_⟩
  · exact halike.imp fun _ _ hins => hins.extends (.refl _) hextends
  · exact hsecond.inputs.trans (congrArg (· ||| q.inputsRead) hinputs)
  · exact hsecond.outputs.trans (congrArg (· ||| q.outputsWritten) hwritten)
  · rw [← show m.textures = p.textures from htextures]
    exact hsecond.textures unit target
  · exact hsecond.parameters.named.trans (congrArg (· ++ q.parameters.named) hnamed)

/-- Either both programs are found in the text of the two, or it is refused. -/
theorem concat_cases {s s' : String} {p q : Program} (hp : compile s = .ok p)
    (hq : compile s' = .ok q) :
    (p.inventory.Compatible q.inventory → p.body.length + q.body.length < maxInstructions →
      ∃ r, compile (p.concat q) = .ok r ∧ p.IsConcat q r) ∧
    (¬(p.inventory.Compatible q.inventory ∧ p.body.length + q.body.length < maxInstructions) →
      ∀ r, compile (p.concat q) ≠ .ok r) := by
  obtain ⟨-, -, houtputs⟩ := bounds_of_compile hp
  have hconcat := p.toList_concat q
  obtain ⟨first, m, hfirst, hjoined, halike, hrepeats⟩ := passes_concat hp hq
  rw [← hjoined.compatible_iff_of_empty]
  have hcount : 0 + first.length + q.body.length = p.body.length + q.body.length := by
    rw [Nat.zero_add, halike.length_eq]
  constructor
  · intro hcompatible hroom
    obtain ⟨second, n, hsecond, hend, hjoined', hextends, halike'⟩ :=
      hrepeats.passed hcompatible (by rwa [hcount])
    have hroom' : 0 + (first ++ second).length < maxInstructions := by
      rw [List.length_append, ← halike'.length_eq, ← Nat.add_assoc, hcount]
      exact hroom
    obtain ⟨added, f, hlast, -, ⟨position, rfl⟩, hsame⟩ :=
      (Compile.builds_statement_finish hroom' (show Token.visible [] = [] from rfl) rfl n hend
        rfl).success trivial
    have hstatements := (hfirst.append hsecond).statements_eq hlast
    rw [Draft.rest_start hconcat] at hstatements
    -- the `END` leaves the inventory as it is
    have hparameters : f.parameters = n.parameters := congrArg Inventory.parameters hsame
    rw [← hparameters] at hextends halike'
    rw [← show f.inventory = n.inventory from hsame] at hjoined'
    have hr : p.IsConcat q (f.program (p.concat q)
        (first ++ second ++ [{ opcode := .halt, position }])) :=
      isConcat_of_joined hjoined hjoined' hextends halike halike'
    have hwrites : f.outputsWritten ≠ 0 := by
      intro hzero
      have hor := hr.outputs.symm.trans hzero
      exact houtputs (Nat.or_eq_zero_iff.mp hor).1
    exact ⟨_, (compile_eq_ok hconcat).mpr ⟨_, f, hstatements, hwrites, rfl⟩, hr⟩
  · intro hnot r hr
    obtain ⟨instructions, d, hok, -⟩ := (compile_eq_ok hconcat).mp hr
    obtain ⟨fuel, rest, -, hrest⟩ := hfirst.statements_ok hok
    rw [← hcount] at hnot
    exact hrepeats.impossible hnot fuel rest d hrest

/-- The bodies of two programs are what stands between their headers and their `END`s.  One behind
the other they are a program if and only if together they have no more instructions than fit in
front of an `END`, use no texture unit with different targets, do not write both color results and
define no name twice.  It has the instructions of both, up to where they stand and where their
parameters are in the table, and it reads, writes and samples what one of the two does. -/
theorem compile_concat {s s' : String} {p q : Program} (hp : compile s = .ok p)
    (hq : compile s' = .ok q) :
    (∃ trailing, s.toList = "!!FP1.0".toList ++
      (p.bodySource.toList ++ ("END".toList ++ trailing)) ∧ Token.IsTrailing trailing) ∧
    (∃ trailing, s'.toList = "!!FP1.0".toList ++
      (q.bodySource.toList ++ ("END".toList ++ trailing)) ∧ Token.IsTrailing trailing) ∧
    ((∃ r, compile (p.concat q) = .ok r) ↔ p.body.length + q.body.length ≤ 1023 ∧
      (∀ unit target target', p.textures.get unit = some target →
        q.textures.get unit = some target' → target = target') ∧
      Compile.writesBothColors (p.outputsWritten ||| q.outputsWritten) = false ∧
      ∀ name, (p.parameters.lookup? name).isSome = true →
        ¬(q.parameters.lookup? name).isSome = true) ∧
    ∀ r, compile (p.concat q) = .ok r → p.IsConcat q r := by
  obtain ⟨hpossible, himpossible⟩ := concat_cases hp hq
  have hboth : ∀ {r}, compile (p.concat q) = .ok r →
      p.inventory.Compatible q.inventory ∧ p.body.length + q.body.length < maxInstructions := by
    intro r hr
    by_cases hcan : p.inventory.Compatible q.inventory ∧
        p.body.length + q.body.length < maxInstructions
    · exact hcan
    · exact absurd hr (himpossible hcan r)
  refine ⟨(repeats_of_compile hp).1, (repeats_of_compile hq).1, ⟨?_, ?_⟩, fun r hr => ?_⟩
  · rintro ⟨r, hr⟩
    obtain ⟨hcompatible, hroom⟩ := hboth hr
    exact ⟨Nat.le_of_lt_succ hroom, hcompatible.targets, hcompatible.colors, hcompatible.names⟩
  · rintro ⟨hroom, htargets, hcolors, hnames⟩
    obtain ⟨r, hr, -⟩ := hpossible ⟨hnames, htargets, hcolors⟩ (Nat.lt_succ_of_le hroom)
    exact ⟨r, hr⟩
  · obtain ⟨hcompatible, hroom⟩ := hboth hr
    obtain ⟨r', hr', hconcat⟩ := hpossible hcompatible hroom
    obtain rfl : r' = r := Except.ok.inj (hr'.symm.trans hr)
    exact hconcat

/-- Both programs use the same literal, so its index in the second one changes. -/
theorem compile_concat_shared : ∃ p q r,
    compile "!!FP1.0 DEFINE tint = 0.5; MUL o[COLR], tint, \x7b2\x7d; END" = .ok p ∧
    compile "!!FP1.0 TEX R0, f[TEX0], TEX1, 2D; MUL o[DEPR].z, R0, \x7b2\x7d; END" = .ok q ∧
    compile ("!!FP1.0 DEFINE tint = 0.5; MUL o[COLR], tint, \x7b2\x7d; \n"
      ++ " TEX R0, f[TEX0], TEX1, 2D; MUL o[DEPR].z, R0, \x7b2\x7d; END") = .ok r ∧
    p.IsConcat q r := by
  obtain ⟨p, hp, hsource⟩ : ∃ p,
      compile "!!FP1.0 DEFINE tint = 0.5; MUL o[COLR], tint, \x7b2\x7d; END" = .ok p ∧
        p.bodySource = " DEFINE tint = 0.5; MUL o[COLR], tint, \x7b2\x7d; " :=
    exists_of_decide (by decide +kernel)
  obtain ⟨q, hq, hsource'⟩ : ∃ q,
      compile "!!FP1.0 TEX R0, f[TEX0], TEX1, 2D; MUL o[DEPR].z, R0, \x7b2\x7d; END" = .ok q ∧
        q.bodySource = " TEX R0, f[TEX0], TEX1, 2D; MUL o[DEPR].z, R0, \x7b2\x7d; " :=
    exists_of_decide (by decide +kernel)
  obtain ⟨r, hr⟩ : ∃ r,
      compile ("!!FP1.0 DEFINE tint = 0.5; MUL o[COLR], tint, \x7b2\x7d; \n"
        ++ " TEX R0, f[TEX0], TEX1, 2D; MUL o[DEPR].z, R0, \x7b2\x7d; END") = .ok r :=
    exists_of_isOk (by decide +kernel)
  obtain ⟨-, -, -, hall⟩ := compile_concat hp hq
  have hconcat := hall r
  rw [Program.concat, hsource, hsource'] at hconcat
  exact ⟨p, q, r, hp, hq, hr, hconcat hr⟩

end FragmentAssembly

import FragmentAssembly.Proofs.Reading.Fuel
import FragmentAssembly.Proofs.Reading.Scan

/-!
# Texts in lockstep

Two texts are in lockstep if, behind blanks and comments, both go on with the same chunk.  No item
reaches over the end of a chunk, so such texts are read abreast.
-/

namespace FragmentAssembly

/-! ## Chunks -/

namespace Token

/-- No chunk goes on with `cs`. -/
def endsChunk (cs : List Char) : Bool :=
  cs.head?.all (!isVisible ·)

theorem isVisible_of_isAlphanum {c : Char} (h : c.isAlphanum = true) : isVisible c = true :=
  isSolid_cons_of_isAlphanum [] h

theorem isVisible_of_isNameChar {c : Char} (h : isNameChar c = true) : isVisible c = true := by
  simp only [isNameChar, Bool.or_eq_true, decide_eq_true_eq] at h
  rcases h with (h | rfl) | rfl
  · exact isVisible_of_isAlphanum h
  · rfl
  · rfl

theorem isVisible_of_isNumeralChar {c : Char} (h : Numeral.isNumeralChar c = true) :
    isVisible c = true := by
  simp only [Numeral.isNumeralChar, Numeral.continues, isSign, Bool.or_eq_true,
    decide_eq_true_eq] at h
  rcases h with (((h | rfl) | rfl) | rfl) | (rfl | rfl)
  · exact isVisible_of_isAlphanum (isAlphanum_of_isDigit h)
  all_goals rfl

section Chunk

variable {chunk rest : List Char}

theorem visible_of_endsChunk (hchunk : chunk.all isVisible = true) (hne : chunk ≠ [] ∨ rest = []) :
    visible (chunk ++ rest) = chunk ++ rest := by
  cases chunk with
  | nil =>
    rcases hne with hne | rfl
    · exact absurd rfl hne
    · rfl
  | cons c chunk =>
    rw [List.all_cons, Bool.and_eq_true] at hchunk
    exact visible_of_isSolid hchunk.1

/-- Whether a chunk begins with a word does not depend on what follows it. -/
theorem isPrefixOf_chunk {word : List Char} (hword : word.all isVisible = true)
    (hrest : endsChunk rest = true) :
    word.isPrefixOf (chunk ++ rest) = word.isPrefixOf chunk := by
  induction word generalizing chunk with
  | nil => rw [List.isPrefixOf_nil_left, List.isPrefixOf_nil_left]
  | cons w word ih =>
    rw [List.all_cons, Bool.and_eq_true] at hword
    cases chunk with
    | nil =>
      cases rest with
      | nil => rfl
      | cons c rest =>
        have hc : isVisible c = false := by simpa [endsChunk] using hrest
        have hwc : w ≠ c := by
          rintro rfl
          rw [hword.1] at hc
          cases hc
        simp [List.isPrefixOf, hwc]
    | cons c chunk =>
      rw [List.cons_append, List.isPrefixOf_cons_cons, List.isPrefixOf_cons_cons, ih hword.2]

/-- What a name does not go on with is no part of the first token. -/
theorem lead?_of_endsName (hne : chunk ≠ []) (hrest : endsName rest = true) :
    lead? (chunk ++ rest) = lead? chunk := by
  obtain ⟨c, chunk, rfl⟩ := List.exists_cons_of_ne_nil hne
  have hdigit : rest.head?.all (!Char.isDigit ·) = true :=
    Numeral.head_not_of_imp (fun c h => by rw [isNameChar, isAlphanum_of_isDigit h]; rfl) hrest
  rw [List.cons_append, lead?, lead?, Numeral.takeWhile_append_of_head hdigit,
    Numeral.takeWhile_append_of_head hrest]

/-- The token at the beginning of a chunk. -/
theorem lead?_chunk (hne : chunk ≠ []) (hrest : endsChunk rest = true) :
    lead? (chunk ++ rest) = lead? chunk :=
  lead?_of_endsName hne (Numeral.head_not_of_imp (fun _ h => isVisible_of_isNameChar h) hrest)

theorem lead?_length_le {t : Token} (h : lead? chunk = some t) :
    t.text.length ≤ chunk.length := by
  cases chunk with
  | nil => cases h
  | cons c chunk =>
    rw [lead?] at h
    split at h
    · cases h
      rw [text, String.length_ofList, List.length_cons, List.length_cons]
      exact Nat.succ_le_succ (List.takeWhile_prefix _).length_le
    · split at h
      · cases h
        rw [text, String.length_ofList, List.length_cons, List.length_cons]
        exact Nat.succ_le_succ (List.takeWhile_prefix _).length_le
      · cases h
        rw [text, String.length_singleton, List.length_cons]
        omega

theorem ofChars?_chunk (hrest : endsChunk rest = true) :
    Numeral.ofChars? (chunk ++ rest) = Numeral.ofChars? chunk :=
  Numeral.ofChars?_front
    (Numeral.head_not_of_imp (fun _ h => isVisible_of_isNumeralChar h) hrest)

/-- Whether a word ends in a chunk does not depend on what follows it. -/
theorem endsName_chunk (hrest : endsChunk rest = true) :
    endsName (chunk ++ rest) = endsName chunk := by
  cases chunk with
  | nil =>
    exact Numeral.head_not_of_imp (fun _ h => isVisible_of_isNameChar h) hrest
  | cons c chunk => rfl

end Chunk

end Token

/-! ## Bytes -/

def bytes (cs : List Char) : Nat :=
  (cs.map Char.utf8Size).sum

theorem bytes_append (cs cs' : List Char) : bytes (cs ++ cs') = bytes cs + bytes cs' := by
  rw [bytes, List.map_append, List.sum_append]
  rfl

theorem utf8ByteSize_eq_bytes (s : String) : s.utf8ByteSize = bytes s.toList := by
  have hgo : ∀ cs : List Char, (String.ofList cs).utf8ByteSize = bytes cs := by
    intro cs
    induction cs with
    | nil => rfl
    | cons c cs ih =>
      rw [String.ofList_cons, String.utf8ByteSize_append, String.utf8ByteSize_singleton, ih]
      rfl
  rw [← hgo, String.ofList_toList]

namespace Cursor

variable {k : Cursor}

theorem bytes_step (k : Cursor) : k.step.position + k.step.inside.length + bytes k.step.rest =
    k.position + k.inside.length + bytes k.rest := by
  unfold step
  cases hrest : k.rest with
  | nil => rfl
  | cons c rest =>
    have hbytes : bytes (c :: rest) = c.utf8Size + bytes rest := List.sum_cons
    rw [hbytes, ← Nat.add_assoc]
    dsimp only
    split <;> rfl

/-- Moving takes as many bytes from the rest as it passes. -/
theorem bytes_advance (n : Nat) (k : Cursor) :
    (k.advance n).position + (k.advance n).inside.length + bytes (k.advance n).rest =
      k.position + k.inside.length + bytes k.rest := by
  induction n generalizing k with
  | zero => rfl
  | succ n ih => rw [advance, ih, bytes_step]

theorem bytes_advance_of_inside (n : Nat) (h : k.inside = []) :
    (k.advance n).position + bytes (k.advance n).rest = k.position + bytes k.rest := by
  have hbytes := bytes_advance n k
  rwa [advance_inside n h, h, List.length_nil, Nat.add_zero, Nat.add_zero] at hbytes

theorem position_advance {text behind : List Char} (hinside : k.inside = [])
    (h : k.rest = text ++ behind) :
    (k.advance text.length).position = k.position + bytes text := by
  have hbytes := bytes_advance_of_inside text.length hinside
  rw [advance_rest, h, List.drop_left, bytes_append] at hbytes
  omega

theorem bytes_skipIgnored (k : Cursor) :
    k.skipIgnored.position + k.skipIgnored.inside.length + bytes k.skipIgnored.rest =
      k.position + k.inside.length + bytes k.rest := by
  unfold skipIgnored
  split
  · exact bytes_advance _ k
  · rfl

theorem bytes_skipIgnored_of_inside (h : k.inside = []) :
    k.skipIgnored.position + bytes k.skipIgnored.rest = k.position + bytes k.rest := by
  rw [skipIgnored_of_inside h]
  exact bytes_advance_of_inside _ h

end Cursor

/-! ## Lockstep -/

/-- Two texts with the same chunk in front, and with `r` and `r'` behind it. -/
structure Token.Chunk (a r r' : List Char) : Prop where
  visible : a.all isVisible = true
  left : endsChunk r = true
  right : endsChunk r' = true
  /-- Without a chunk both texts are at their ends. -/
  last : a = [] → r = [] ∧ r' = []

/-- How two texts correspond to each other. -/
structure Lockstep where
  /-- What may be left of them at the same time. -/
  rest : List Char → List Char → Prop
  /-- What may follow in them at corresponding places. -/
  mark : List Char → List Char → Prop
  /-- Whether the second text may go on where the first one ends. -/
  loose : Prop
  /-- The lengths of both in bytes. -/
  size : Nat
  size' : Nat
  /-- Behind blanks and comments both go on with the same chunk, and they are still in lockstep
  when some of it has been taken. -/
  ahead : ∀ {cs cs'}, rest cs cs' →
    loose ∧ Token.visible cs = [] ∨
    ∃ a r r', Token.visible cs = a ++ r ∧ Token.visible cs' = a ++ r' ∧ Token.Chunk a r r' ∧
      mark (a ++ r) (a ++ r') ∧
      ∀ n ≤ a.length, rest ((a ++ r).drop n) ((a ++ r').drop n)

namespace Lockstep

variable {c : Lockstep}

/-- Bytes before corresponding places. -/
def Place (c : Lockstep) (p p' : Nat) : Prop :=
  (p = 0 ∧ p' = 0) ∨
    ∃ cs cs', c.mark cs cs' ∧ p + bytes cs = c.size ∧ p' + bytes cs' = c.size'

def coupling (c : Lockstep) : Coupling ParseError Cursor where
  beside k l :=
    (k.inside = [] ∧ l.inside = []) ∧ c.rest k.rest l.rest ∧ k.position + bytes k.rest = c.size ∧
      l.position + bytes l.rest = c.size' ∧ c.Place k.tokenStart l.tokenStart
  alike e f := f.cause = e.cause ∧ f.constructs = e.constructs ∧ c.Place e.position f.position
  spent k := c.loose ∧ k.ahead = [] ∧ k.position + bytes k.rest = c.size
  last e := c.loose ∧ e.position = c.size

/-- Cursors in front of the same chunk. -/
structure Faces (c : Lockstep) (k l : Cursor) (a r r' : List Char) : Prop where
  inside : k.inside = [] ∧ l.inside = []
  left : k.rest = a ++ r
  right : l.rest = a ++ r'
  chunk : Token.Chunk a r r'
  onward : ∀ n ≤ a.length, c.rest ((a ++ r).drop n) ((a ++ r').drop n)
  here : c.Place k.position l.position
  token : c.Place k.tokenStart l.tokenStart
  bytesLeft : k.position + bytes k.rest = c.size
  bytesRight : l.position + bytes l.rest = c.size'

theorem inside_of_spent {k : Cursor} (h : c.coupling.spent k) : k.inside = [] :=
  @Cursor.inside_of_ahead _ [] h.2.1

/-- A spent cursor passes everything that is left. -/
theorem spent_skipIgnored {k : Cursor} (h : c.coupling.spent k) :
    k.skipIgnored.rest = [] ∧ k.skipIgnored.position = c.size ∧
      c.coupling.spent k.skipIgnored := by
  obtain ⟨hloose, hahead, hbytes⟩ := h
  have hinside := inside_of_spent ⟨hloose, hahead, hbytes⟩
  have hrest : k.skipIgnored.rest = [] := by rw [Cursor.rest_skipIgnored hinside, hahead]
  have hposition : k.skipIgnored.position + bytes k.skipIgnored.rest = c.size :=
    (Cursor.bytes_skipIgnored_of_inside hinside).trans hbytes
  exact ⟨hrest, by rwa [hrest] at hposition, hloose, by rw [k.ahead_skipIgnored, hahead], hposition⟩

/-- Behind blanks and comments both cursors face the same chunk, unless nothing is left of the
first text. -/
theorem skipIgnored_cases {k l : Cursor} (h : c.coupling.beside k l) :
    c.coupling.spent k ∨ ∃ a r r', c.Faces k.skipIgnored l.skipIgnored a r r' := by
  obtain ⟨⟨hki, hli⟩, hrest, hk, hl, htoken⟩ := h
  rcases c.ahead hrest with ⟨hloose, hahead⟩ | ⟨a, r, r', hleft, hright, hchunk, hmark, honward⟩
  · exact .inl ⟨hloose, (Cursor.ahead_of_inside hki).trans hahead, hk⟩
  · right
    have hk' : k.skipIgnored.position + bytes k.skipIgnored.rest = c.size :=
      (Cursor.bytes_skipIgnored_of_inside hki).trans hk
    have hl' : l.skipIgnored.position + bytes l.skipIgnored.rest = c.size' :=
      (Cursor.bytes_skipIgnored_of_inside hli).trans hl
    have hkr : k.skipIgnored.rest = a ++ r := by
      rw [Cursor.rest_skipIgnored hki, Cursor.ahead_of_inside hki, hleft]
    have hlr : l.skipIgnored.rest = a ++ r' := by
      rw [Cursor.rest_skipIgnored hli, Cursor.ahead_of_inside hli, hright]
    refine ⟨a, r, r', ⟨k.skipIgnored_inside.trans hki, l.skipIgnored_inside.trans hli⟩, hkr, hlr,
      hchunk, honward, .inr ⟨_, _, hmark, ?_, ?_⟩, ?_, hk', hl'⟩
    · rw [← hkr]
      exact hk'
    · rw [← hlr]
      exact hl'
    · rw [Cursor.tokenStart_skipIgnored, Cursor.tokenStart_skipIgnored]
      exact htoken

namespace Faces

variable {k l : Cursor} {a r r' : List Char}

/-- Nothing is taken. -/
theorem beside (h : c.Faces k l a r r') : c.coupling.beside k l := by
  refine ⟨h.inside, ?_, h.bytesLeft, h.bytesRight, h.token⟩
  rw [h.left, h.right]
  exact h.onward 0 (Nat.zero_le _)

/-- A token of the chunk is taken. -/
theorem taken (h : c.Faces k l a r r') {n : Nat} (hn : n ≤ a.length) :
    c.coupling.beside (k.markToken.advance n) (l.markToken.advance n) := by
  have hk : k.markToken.inside = [] := h.inside.1
  have hl : l.markToken.inside = [] := h.inside.2
  refine ⟨⟨Cursor.advance_inside n hk, Cursor.advance_inside n hl⟩, ?_, ?_, ?_, ?_⟩
  · rw [Cursor.advance_rest, Cursor.advance_rest, Cursor.markToken, Cursor.markToken, h.left,
      h.right]
    exact h.onward n hn
  · exact (Cursor.bytes_advance_of_inside n hk).trans h.bytesLeft
  · exact (Cursor.bytes_advance_of_inside n hl).trans h.bytesRight
  · rw [Cursor.tokenStart_advance, Cursor.tokenStart_advance]
    exact h.here

/-- Both cursors face the same token. -/
theorem lead?_eq (h : c.Faces k l a r r') :
    Token.lead? k.rest = Token.lead? a ∧ Token.lead? l.rest = Token.lead? a := by
  rw [h.left, h.right]
  by_cases hne : a = []
  · obtain ⟨hr, hr'⟩ := h.chunk.last hne
    rw [hr, hr', List.append_nil]
    exact ⟨rfl, rfl⟩
  · exact ⟨Token.lead?_chunk hne h.chunk.left, Token.lead?_chunk hne h.chunk.right⟩

end Faces

/-! ## Reading -/

/-- An action that passes blanks and comments first. -/
theorem follows_of_faces {α β : Type} {V : α → β → Prop} {D : α → Prop} {m : Scan α} {n : Scan β}
    (hstays : c.coupling.Stays D m)
    (h : ∀ k l a r r', c.coupling.beside k l → c.Faces k.skipIgnored l.skipIgnored a r r' →
      c.coupling.Pairs V D (m k) (n l)) :
    c.coupling.Follows V D m n := by
  refine ⟨fun k l hkl => ?_, hstays⟩
  rcases skipIgnored_cases hkl with hspent | ⟨a, r, r', hfaces⟩
  · exact hstays.pairs hspent _
  · exact h k l a r r' hkl hfaces

/-- An action that takes `n` characters if the text goes on in a certain way, which is settled in
the chunk in front. -/
theorem follows_trial {m : Scan Bool} {test : List Char → Bool} {n : Nat}
    (hm : ∀ {k : Cursor}, k.inside = [] → m k =
      if test k.ahead then .ok true (k.skipIgnored.markToken.advance n)
      else .ok false k.skipIgnored)
    (hnil : test [] = false) (hlength : ∀ a, test a = true → n ≤ a.length)
    (htest : ∀ a r, Token.endsChunk r = true → test (a ++ r) = test a) :
    c.coupling.Follows Eq (· = false) m m := by
  apply follows_of_faces
  · intro k hk
    obtain ⟨-, -, hspent⟩ := spent_skipIgnored hk
    rw [hm (inside_of_spent hk), hk.2.1, hnil, if_neg Bool.false_ne_true]
    exact .inl ⟨false, _, rfl, rfl, hspent⟩
  · intro k l a r r' hkl hfaces
    rw [hm hkl.1.1, hm hkl.1.2, ← Cursor.rest_skipIgnored hkl.1.1,
      ← Cursor.rest_skipIgnored hkl.1.2, hfaces.left, hfaces.right,
      htest a r hfaces.chunk.left, htest a r' hfaces.chunk.right]
    split
    · rename_i hfound
      exact .ok rfl (hfaces.taken (hlength a hfound))
    · exact .ok rfl hfaces.beside

theorem isPrefixOf_nil {word : List Char} (h : Token.isChunk word = true) :
    word.isPrefixOf [] = false := by
  cases word with
  | nil => cases h
  | cons c word => rfl

theorem length_le_of_isPrefixOf {word : String} {cs : List Char}
    (h : word.toList.isPrefixOf cs = true) : word.length ≤ cs.length := by
  rw [← String.length_toList]
  exact (List.isPrefixOf_iff_prefix.mp h).length_le

theorem follows_accept (mark : String) (hmark : Token.isChunk mark.toList = true) :
    c.coupling.Follows Eq (· = false) (Scan.accept mark) (Scan.accept mark) := by
  apply follows_trial (Scan.accept_apply mark)
  · exact isPrefixOf_nil hmark
  · intro a
    exact length_le_of_isPrefixOf
  · intro a r hr
    rw [Token.isChunk, Bool.and_eq_true] at hmark
    exact Token.isPrefixOf_chunk hmark.2 hr

theorem follows_acceptWord (word : String) (hword : Token.isChunk word.toList = true) :
    c.coupling.Follows Eq (· = false) (Scan.acceptWord word) (Scan.acceptWord word) := by
  apply follows_trial (Scan.acceptWord_apply word)
  · rw [Token.startsWith, isPrefixOf_nil hword, Bool.false_and]
  · intro a ha
    have hboth := Bool.and_eq_true_iff.mp ha
    exact length_le_of_isPrefixOf hboth.1
  · intro a r hr
    have hvisible := hword
    rw [Token.isChunk, Bool.and_eq_true] at hvisible
    rw [Token.startsWith, Token.startsWith, Token.isPrefixOf_chunk hvisible.2 hr]
    -- only behind the word it matters whether it ends
    cases hprefix : word.toList.isPrefixOf a with
    | false => rw [Bool.false_and, Bool.false_and]
    | true =>
      rw [List.drop_append_of_le_length (length_le_of_isPrefixOf hprefix),
        Token.endsName_chunk hr]

theorem follows_peek? : c.coupling.Follows Eq (· = none) Scan.peek? Scan.peek? := by
  apply follows_of_faces
  · intro k hk
    refine .inl ⟨_, k, Scan.peek?_apply (inside_of_spent hk), ?_, hk⟩
    rw [hk.2.1]
    rfl
  · intro k l a r r' hkl hfaces
    obtain ⟨hleft, hright⟩ := hfaces.lead?_eq
    rw [Cursor.rest_skipIgnored hkl.1.1] at hleft
    rw [Cursor.rest_skipIgnored hkl.1.2] at hright
    rw [Scan.peek?_apply hkl.1.1, Scan.peek?_apply hkl.1.2]
    exact .ok (hleft.trans hright.symm) hkl

/-- At the end of the text, a token is missed at the end. -/
theorem follows_wholeToken (missing refused : ErrorCause) : c.coupling.Follows Eq Never
    (Scan.wholeToken missing refused) (Scan.wholeToken missing refused) := by
  apply follows_of_faces
  · intro k hk
    have hlead : Token.lead? k.ahead = none := by
      rw [hk.2.1]
      rfl
    exact .inr ⟨_, _, Scan.wholeToken_of_none (inside_of_spent hk) hlead, hk.1,
      (spent_skipIgnored hk).2.1⟩
  · intro k l a r r' hkl hfaces
    obtain ⟨hki, hli⟩ := hkl.1
    obtain ⟨hleft, hright⟩ := hfaces.lead?_eq
    rw [Cursor.rest_skipIgnored hki] at hleft
    rw [Cursor.rest_skipIgnored hli] at hright
    cases hlead : Token.lead? a with
    | none =>
      rw [Scan.wholeToken_of_none hki (hleft.trans hlead),
        Scan.wholeToken_of_none hli (hright.trans hlead)]
      exact .error ⟨rfl, rfl, hfaces.here⟩
    | some t =>
      by_cases hwhole : t.IsWhole
      · rw [Scan.wholeToken_of_isWhole hki (hleft.trans hlead) hwhole,
          Scan.wholeToken_of_isWhole hli (hright.trans hlead) hwhole]
        exact .ok rfl (hfaces.taken (Token.lead?_length_le hlead))
      · rw [Scan.wholeToken_of_part hki (hleft.trans hlead) hwhole,
          Scan.wholeToken_of_part hli (hright.trans hlead) hwhole]
        exact .error ⟨rfl, rfl, hfaces.here⟩

/-- A number lies in one chunk. -/
theorem follows_number : c.coupling.Follows Eq Never Scan.number Scan.number := by
  apply follows_of_faces
  · intro k hk
    obtain ⟨-, hposition, -⟩ := spent_skipIgnored hk
    have hnone : Numeral.ofChars? k.ahead = none := by
      rw [hk.2.1]
      rfl
    exact .inr ⟨_, _, Scan.number_of_none (inside_of_spent hk) hnone, hk.1, hposition⟩
  · intro k l a r r' hkl hfaces
    obtain ⟨hki, hli⟩ := hkl.1
    have hleft : Numeral.ofChars? k.ahead = Numeral.ofChars? a := by
      rw [← Cursor.rest_skipIgnored hki, hfaces.left, Token.ofChars?_chunk hfaces.chunk.left]
    have hright : Numeral.ofChars? l.ahead = Numeral.ofChars? a := by
      rw [← Cursor.rest_skipIgnored hli, hfaces.right, Token.ofChars?_chunk hfaces.chunk.right]
    cases hnumeral : Numeral.ofChars? a with
    | some n =>
      rw [Scan.number_of_some hki (hleft.trans hnumeral),
        Scan.number_of_some hli (hright.trans hnumeral)]
      exact .ok rfl (hfaces.taken (Numeral.chars_prefix hnumeral).length_le)
    | none =>
      rw [Scan.number_of_none hki (hleft.trans hnumeral),
        Scan.number_of_none hli (hright.trans hnumeral)]
      refine .error ⟨?_, rfl, hfaces.here⟩
      -- with a chunk in front neither text is at its end
      have hempty : l.ahead.isEmpty = k.ahead.isEmpty := by
        rw [← Cursor.rest_skipIgnored hki, ← Cursor.rest_skipIgnored hli, hfaces.left,
          hfaces.right]
        cases a with
        | nil =>
          obtain ⟨hr, hr'⟩ := hfaces.chunk.last rfl
          rw [hr, hr']
        | cons c a => rfl
      rw [hempty]

/-- Texts in lockstep are read abreast. -/
theorem abreast : c.coupling.Abreast where
  alike around h := ⟨h.1, by
    rw [ParseError.inside, ParseError.inside, h.2.1], h.2.2⟩
  last _ h := h
  accept := follows_accept
  acceptWord := follows_acceptWord
  peek? := follows_peek?
  token _ _ _ _ := follows_wholeToken _ _
  number := follows_number
  fail _ := fun k l hkl => .error ⟨rfl, rfl, hkl.2.2.2.2⟩
  failAhead _ := by
    apply follows_of_faces
    · intro k hk
      exact .inr ⟨_, _, Scan.failAhead_apply (inside_of_spent hk), hk.1,
        (spent_skipIgnored hk).2.1⟩
    · intro k l a r r' hkl hfaces
      rw [Scan.failAhead_apply hkl.1.1, Scan.failAhead_apply hkl.1.2]
      exact .error ⟨rfl, rfl, hfaces.here⟩

end Lockstep

/-! ## Compilation -/

/-- Programs that were read from texts in which the same stands in different places. -/
structure Program.Moved (p q : Program) : Prop where
  instructions : List.Forall₂ Instruction.Moved p.instructions q.instructions
  others : q = { p with instructions := q.instructions, source := q.source }

/-- Whether a text begins with the header, or else with that of a combiner program. -/
def headerTests (cs : List Char) : Bool × Bool :=
  ("!!FP1.0".toList.isPrefixOf cs, "!!FCP1.0".toList.isPrefixOf cs)

/-- The error of a text without the header. -/
def headerError (cs : List Char) : ParseError :=
  ⟨if (headerTests cs).2 then .combinerProgram else .invalidHeader, 0, []⟩

/-- Where the cursor stands behind the header. -/
theorem Cursor.bytes_header (s : String) : ((Cursor.ofText s).advance 7).position +
    bytes ((Cursor.ofText s).advance 7).rest = s.utf8ByteSize := by
  rw [Cursor.bytes_advance_of_inside 7 rfl, utf8ByteSize_eq_bytes]
  exact Nat.zero_add _

namespace Compile

theorem program_of_header {s : String} (h : (headerTests s.toList).1 = true) :
    program { cursor := Cursor.ofText s } =
      statements ((s.toList.drop 7).length + 1) 0
        { cursor := (Cursor.ofText s).advance 7 } := by
  have hheader : header (Cursor.ofText s) = .ok () ((Cursor.ofText s).advance 7) := if_pos h
  have hlift : (liftM header : Compile Unit) { cursor := Cursor.ofText s } =
      .ok () { cursor := (Cursor.ofText s).advance 7 } :=
    lift_eq_ok.mpr ⟨_, hheader, rfl⟩
  rw [program, bind_apply, hlift]
  show statements (((Cursor.ofText s).advance 7).rest.length + 1) 0 _ = _
  rw [Cursor.advance_rest]
  rfl

/-- Without the header no text compiles. -/
theorem compile_of_no_header {s : String} (h : (headerTests s.toList).1 = false) :
    compile s = .error (headerError s.toList) := by
  have hheader : header (Cursor.ofText s) =
      .error (headerError s.toList) (Cursor.ofText s) := by
    have hfalse : "!!FP1.0".toList.isPrefixOf (Cursor.ofText s).rest = false := h
    unfold header headerError headerTests
    rw [hfalse, if_neg Bool.false_ne_true]
    show (if "!!FCP1.0".toList.isPrefixOf s.toList then _ else _) = _
    dsimp only
    split <;> rfl
  have hprogram : program { cursor := Cursor.ofText s } =
      .error (headerError s.toList) { cursor := Cursor.ofText s } := by
    rw [program, bind_apply, lift_apply, hheader]
  unfold compile compilation
  rw [hprogram]
  rfl

end Compile

theorem Draft.result_success (d : Draft) (source : String) (instructions : List Instruction) :
    (d.success source instructions).result =
      if d.outputsWritten = 0 then .error ⟨.noOutputsWritten, source.utf8ByteSize, []⟩
      else .ok (d.program source instructions) := by
  unfold success
  split <;> rfl

namespace Lockstep

variable {c : Lockstep} {s s' : String}

/-- Behind their headers both texts are read abreast. -/
theorem pairs_program (hsize : c.size = s.utf8ByteSize) (hsize' : c.size' = s'.utf8ByteSize)
    (htest : (headerTests s.toList).1 = true) (htest' : (headerTests s'.toList).1 = true)
    (hrest : c.rest (s.toList.drop 7) (s'.toList.drop 7)) :
    c.coupling.onDraft.Pairs (List.Forall₂ Instruction.Moved) Always
      (Compile.program { cursor := Cursor.ofText s })
      (Compile.program { cursor := Cursor.ofText s' }) := by
  have hbeside : c.coupling.onDraft.beside { cursor := (Cursor.ofText s).advance 7 }
      { cursor := (Cursor.ofText s').advance 7 } := by
    refine ⟨⟨⟨Cursor.advance_inside 7 rfl, Cursor.advance_inside 7 rfl⟩, ?_,
      (Cursor.bytes_header s).trans hsize.symm, (Cursor.bytes_header s').trans hsize'.symm,
      .inl ?_⟩, rfl⟩
    · rw [Cursor.advance_rest, Cursor.advance_rest]
      exact hrest
    · rw [Cursor.tokenStart_advance, Cursor.tokenStart_advance]
      exact ⟨rfl, rfl⟩
  have hpairs := Compile.pairs_statements abreast hbeside 0
  dsimp only at hpairs
  rw [Cursor.advance_rest, Cursor.advance_rest] at hpairs
  rw [Compile.program_of_header htest, Compile.program_of_header htest']
  exact hpairs

/-- Texts in lockstep are compiled to the same program or to errors that are alike, unless nothing
is left of the first one. -/
theorem compile_cases (hsize : c.size = s.utf8ByteSize) (hsize' : c.size' = s'.utf8ByteSize)
    (htests : headerTests s'.toList = headerTests s.toList)
    (hrest : (headerTests s.toList).1 = true → c.rest (s.toList.drop 7) (s'.toList.drop 7))
    (hend : c.loose ∨ c.mark [] []) :
    (∃ p p', compile s = .ok p ∧ compile s' = .ok p' ∧ p.Moved p') ∨
      (∃ e e', compile s = .error e ∧ compile s' = .error e' ∧ c.coupling.alike e e') ∨
      c.loose ∧ ∀ e, compile s = .error e → e.position = s.utf8ByteSize := by
  cases htest : (headerTests s.toList).1 with
  | false =>
    have htest' : (headerTests s'.toList).1 = false := by rw [htests, htest]
    refine .inr (.inl ⟨_, _, Compile.compile_of_no_header htest,
      Compile.compile_of_no_header htest', ?_, rfl, .inl ⟨rfl, rfl⟩⟩)
    rw [headerError, headerError, htests]
  | true =>
    have htest' : (headerTests s'.toList).1 = true := by rw [htests, htest]
    have hpairs := pairs_program hsize hsize' htest htest' (hrest htest)
    unfold compile compilation
    generalize Compile.program { cursor := Cursor.ofText s } = x at hpairs
    generalize Compile.program { cursor := Cursor.ofText s' } = y at hpairs
    -- only a first text that is spent can end where the second one goes on
    cases hpairs with
    | @ok instructions instructions' d e value state =>
      have hinventory := state.2
      have hinputs : e.inputsRead = d.inputsRead := congrArg Inventory.inputsRead hinventory
      have houtputs : e.outputsWritten = d.outputsWritten :=
        congrArg Inventory.outputsWritten hinventory
      have htextures : e.textures = d.textures := congrArg Inventory.textures hinventory
      have hparameters : e.parameters = d.parameters := congrArg Inventory.parameters hinventory
      dsimp only
      rw [Draft.result_success, Draft.result_success, houtputs]
      by_cases hnone : d.outputsWritten = 0
      · rw [if_pos hnone, if_pos hnone]
        rcases hend with hloose | hmark
        · exact .inr (.inr ⟨hloose, fun f hf => by cases hf; rfl⟩)
        · exact .inr (.inl ⟨_, _, rfl, rfl, rfl, rfl,
            .inr ⟨[], [], hmark, hsize.symm, hsize'.symm⟩⟩)
      · rw [if_neg hnone, if_neg hnone]
        refine .inl ⟨_, _, rfl, rfl, value, ?_⟩
        simp only [Draft.program, hinputs, houtputs, htextures, hparameters]
    | error h => exact .inr (.inl ⟨_, _, rfl, rfl, h⟩)
    | @spent instructions d value state =>
      refine .inr (.inr ⟨state.1, fun e he => ?_⟩)
      dsimp only at he
      rw [Draft.result_success] at he
      split at he
      · cases he
        rfl
      · cases he
    | @last e d h =>
      refine .inr (.inr ⟨h.1, fun f hf => ?_⟩)
      cases hf
      exact h.2.trans hsize

end Lockstep

end FragmentAssembly

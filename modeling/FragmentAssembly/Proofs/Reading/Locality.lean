import FragmentAssembly.Compile
import FragmentAssembly.Proofs.Reading.Scan
import FragmentAssembly.Proofs.Text.Gap

/-!
# Text in front of a stop

No item reaches over a comma, a semicolon or a closing brace.  What is read in front of one is
therefore read in the same way if the text behind it is another one.
-/

namespace FragmentAssembly

/-! ## Items -/

namespace Token

variable {cs : List Char} {stop : Char}

/-- The marks behind operands, statements and vectors. -/
def isStop (c : Char) : Bool :=
  c ∈ [',', ';', '\x7d']

theorem eq_of_isStop {α : Type} {p : Char → α} {a : α} (hp : [',', ';', '\x7d'].map p = [a, a, a])
    (h : isStop stop = true) : p stop = a := by
  have hmem := List.mem_map_of_mem (f := p) (of_decide_eq_true h)
  rw [hp] at hmem
  simpa using hmem

/-- A stop ends names, numbers and everything else. -/
theorem head_of_eq_false {p : Char → Bool} {c : Char} (hp : p c = false) (u : List Char) :
    (c :: u).head?.all (!p ·) = true := by
  rw [List.head?_cons, Option.all_some, hp]
  rfl

theorem lead?_stop (hstop : isStop stop = true) (cs u v : List Char) :
    lead? (cs ++ stop :: u) = lead? (cs ++ stop :: v) := by
  have htake : ∀ {p : Char → Bool} (cs w : List Char),
      [',', ';', '\x7d'].map p = [false, false, false] →
        (cs ++ stop :: w).takeWhile p = cs.takeWhile p := fun cs w hp =>
    Numeral.takeWhile_append_of_head (head_of_eq_false (eq_of_isStop hp hstop) w)
  cases cs with
  | nil =>
    have hdigit : stop.isDigit = false := eq_of_isStop rfl hstop
    have hletter : stop.isAlpha = false := eq_of_isStop rfl hstop
    simp [lead?, hdigit, hletter]
  | cons c cs =>
    rw [List.cons_append, List.cons_append, lead?, lead?, htake cs u rfl, htake cs v rfl,
      htake cs u rfl, htake cs v rfl]

theorem ofChars?_stop (hstop : isStop stop = true) (cs u v : List Char) :
    Numeral.ofChars? (cs ++ stop :: u) = Numeral.ofChars? (cs ++ stop :: v) := by
  have hnumeral : Numeral.isNumeralChar stop = false := eq_of_isStop rfl hstop
  rw [Numeral.ofChars?_front (head_of_eq_false hnumeral u),
    Numeral.ofChars?_front (head_of_eq_false hnumeral v)]

theorem isPrefixOf_stop {word : List Char} (hword : stop ∉ word) (cs u : List Char) :
    word.isPrefixOf (cs ++ stop :: u) = word.isPrefixOf cs := by
  induction word generalizing cs with
  | nil => rw [List.isPrefixOf_nil_left, List.isPrefixOf_nil_left]
  | cons w word ih =>
    rw [List.mem_cons, not_or] at hword
    cases cs with
    | nil => simp [List.isPrefixOf, Ne.symm hword.1]
    | cons c cs =>
      rw [List.cons_append, List.isPrefixOf_cons_cons, List.isPrefixOf_cons_cons, ih hword.2]

/-- What shows does not depend on the text behind it. -/
theorem visible_cut {u : List Char} (h : visible (cs ++ stop :: u) = cs ++ stop :: u)
    (v : List Char) : visible (cs ++ stop :: v) = cs ++ stop :: v := by
  have hne : visible (cs ++ stop :: u) ≠ [] := by
    rw [h]
    exact List.append_ne_nil_of_right_ne_nil _ (List.cons_ne_nil _ _)
  have hsolid := isSolid_visible hne
  rw [h] at hsolid
  refine visible_of_isSolid ?_
  cases cs <;> exact hsolid

end Token

namespace Scan

variable {α β : Type} {m : Scan α} {f : α → Scan β}

/-- In front of a stop the action returns the same and leaves the same, whatever stands behind the
stop. -/
def IsLocal (m : Scan α) : Prop :=
  ∀ ⦃k l : Cursor⦄ ⦃a : α⦄, m k = .ok a l → ∀ ⦃stop : Char⦄, Token.isStop stop = true →
    ∀ ⦃rest u : List Char⦄, l.ahead = rest ++ stop :: u →
      ∃ text, k.ahead = text ++ stop :: u ∧
        ∀ v, m.Reads (text ++ stop :: v) True a (rest ++ stop :: v)

namespace IsLocal

theorem pure (a : α) : IsLocal (Pure.pure a : Scan α) := by
  intro k l b h stop _ rest u hl
  obtain ⟨rfl, rfl⟩ := pure_eq_ok.mp h
  exact ⟨rest, hl, fun v => .pure a _⟩

theorem bind (hm : m.IsLocal) (hf : ∀ a, (f a).IsLocal) : (m >>= f).IsLocal := by
  intro k l b h stop hstop rest u hl
  obtain ⟨a, k', ha, hb⟩ := bind_eq_ok.mp h
  obtain ⟨mid, hmid, hread⟩ := hf a hb hstop hl
  obtain ⟨text, htext, hread'⟩ := hm ha hstop hmid
  exact ⟨text, htext, fun v => (hread' v).andThen (hread v)⟩

theorem within {c : Construct} (hm : m.IsLocal) : IsLocal (FragmentAssembly.within c m) := by
  intro k l a h stop hstop rest u hl
  obtain ⟨text, htext, hread⟩ := hm (within_eq_ok.mp h) hstop hl
  exact ⟨text, htext, fun v => (hread v).within⟩

theorem fail (cause : ErrorCause) : IsLocal (Scan.fail cause : Scan α) :=
  fun _ _ _ h => (fail_eq_ok.mp h).elim

theorem failAhead (cause : ErrorCause) : IsLocal (Scan.failAhead cause : Scan α) :=
  fun _ _ _ h => (failAhead_eq_ok.mp h).elim

end IsLocal

/-- In front of a stop a cursor is not inside a character. -/
theorem inside_of_stop {l : Cursor} {stop : Char} {rest u : List Char}
    (hstop : Token.isStop stop = true) (h : l.ahead = rest ++ stop :: u) : l.inside = [] := by
  refine Cursor.inside_of_mem (c := stop) ?_ (by rw [h]; simp)
  rintro rfl
  cases hstop

/-- The action passes blanks and comments, and then `take` says what it returns and how many
characters it takes, or that it fails or ends inside a character. -/
structure Takes (m : Scan α) (take : List Char → Option (α × Nat)) : Prop where
  inside : ∀ {k l : Cursor} {a : α}, m k = .ok a l → k.inside = []
  taken : ∀ {k : Cursor} {a : α} {n : Nat}, k.inside = [] → take k.ahead = some (a, n) →
    ∃ l, m k = .ok a l ∧ l.ahead = Token.visible (k.ahead.drop n)
  missed : ∀ {k : Cursor}, k.inside = [] → take k.ahead = none →
    ∀ a l, m k = .ok a l → l.inside ≠ []

theorem Takes.isLocal {take : List Char → Option (α × Nat)} (hm : m.Takes take)
    (htake : ∀ {stop cs u a n}, Token.isStop stop = true →
      take (cs ++ stop :: u) = some (a, n) → n ≤ cs.length →
        ∀ v, take (cs ++ stop :: v) = some (a, n)) : m.IsLocal := by
  intro k l a h stop hstop rest u hl
  have hinside := hm.inside h
  cases htaken : take k.ahead with
  | none => exact absurd (inside_of_stop hstop hl) (hm.missed hinside htaken a l h)
  | some found =>
    obtain ⟨b, n⟩ := found
    obtain ⟨l', hb, hahead⟩ := hm.taken hinside htaken
    rw [hb] at h
    cases h
    -- what is left of the text behind the item begins with a gap
    have hne : Token.visible (k.ahead.drop n) ≠ [] := by
      rw [← hahead, hl]
      exact List.append_ne_nil_of_right_ne_nil _ (List.cons_ne_nil _ _)
    obtain ⟨gap, hgap, hdrop⟩ := Token.exists_gap_of_ne_nil hne
    rw [← hahead, hl] at hdrop
    have htext : k.ahead = k.ahead.take n ++ (gap ++ rest) ++ stop :: u := by
      rw [List.append_assoc, List.append_assoc, ← hdrop, List.take_append_drop]
    have hlength : (k.ahead.take n).length = n := by
      apply List.length_take_of_le
      apply Nat.le_of_not_lt
      intro hlt
      rw [List.drop_eq_nil_of_le (Nat.le_of_lt hlt)] at hdrop
      simp at hdrop
    generalize k.ahead.take n = taken at htext hlength
    refine ⟨taken ++ (gap ++ rest), htext, fun v k' hk' => ?_⟩
    have hvisible := Cursor.visible_ahead hinside
    have hinside' := Cursor.inside_of_ahead hk'
    rw [htext] at htaken hvisible
    rw [Token.visible_cut hvisible v] at hk'
    have htaken' := htake hstop htaken (by rw [List.length_append]; omega) v
    rw [← hk'] at htaken'
    obtain ⟨l', hread, hl'⟩ := hm.taken hinside' htaken'
    refine .of_ok hread ⟨rfl, ?_⟩
    rw [hl', hk', ← hlength, List.append_assoc, List.drop_left, List.append_assoc,
      hgap.visible_append]

/-! ## Actions on single items -/

/-- An action that takes `n` characters if the text goes on in a certain way. -/
theorem isLocal_of_trial {m : Scan Bool} {test : List Char → Bool} {n : Nat}
    (hinside : ∀ {k l : Cursor} {found : Bool}, m k = .ok found l → k.inside = [])
    (hm : ∀ {k : Cursor}, k.inside = [] → m k =
      if test k.ahead then .ok true (k.skipIgnored.markToken.advance n)
      else .ok false k.skipIgnored)
    (htest : ∀ {stop}, Token.isStop stop = true →
      ∀ cs u v, test (cs ++ stop :: u) = test (cs ++ stop :: v)) : m.IsLocal := by
  have htakes : m.Takes fun cs => if test cs then some (true, n) else some (false, 0) := by
    refine ⟨hinside, ?_, ?_⟩
    · intro k a taken hk htaken
      rw [hm hk]
      split at htaken
      · cases htaken
        rw [if_pos ‹_›]
        exact ⟨_, rfl, Cursor.ahead_taken hk n⟩
      · cases htaken
        rw [if_neg ‹_›]
        exact ⟨_, rfl, k.ahead_skipIgnored.trans (Cursor.visible_ahead hk).symm⟩
    · intro k _ hmissed
      split at hmissed <;> cases hmissed
  refine htakes.isLocal fun {stop cs u a taken} hstop htaken _ v => ?_
  rwa [htest hstop cs v u]

theorem isLocal_accept {mark : String} {c : Char} (hmark : mark.toList = [c]) :
    (accept mark).IsLocal := by
  refine isLocal_of_trial (fun h => (onRest_eq_ok.mp h).1) (accept_apply mark)
    fun {stop} _ cs u v => ?_
  rw [hmark]
  cases cs <;> rfl

theorem isLocal_acceptWord {word : String}
    (hword : ∀ {stop}, Token.isStop stop = true → stop ∉ word.toList) :
    (acceptWord word).IsLocal := by
  have hstarts : ∀ {stop}, Token.isStop stop = true → ∀ cs w,
      Token.startsWith word (cs ++ stop :: w) = Token.startsWith word cs := by
    intro stop hstop cs w
    rw [Token.startsWith, Token.startsWith, Token.isPrefixOf_stop (hword hstop)]
    cases hprefix : word.toList.isPrefixOf cs with
    | false => rfl
    | true =>
      -- where the word ends, the stop may come next
      have hname : Token.isNameChar stop = false := Token.eq_of_isStop rfl hstop
      have hlength : word.length ≤ cs.length := by
        rw [← String.length_toList]
        exact (List.isPrefixOf_iff_prefix.mp hprefix).length_le
      rw [List.drop_append_of_le_length hlength]
      cases cs.drop word.length with
      | nil => exact congrArg (!·) hname
      | cons c cs => rfl
  refine isLocal_of_trial (fun h => (onRest_eq_ok.mp h).1) (acceptWord_apply word)
    fun hstop cs u v => ?_
  rw [hstarts hstop, hstarts hstop]

theorem isLocal_peek? : peek?.IsLocal := by
  have htakes : peek?.Takes fun cs => some (Token.lead? cs, 0) := by
    refine ⟨fun h => (onRest_eq_ok.mp h).1, ?_, ?_⟩
    · rintro k a n hk ⟨⟩
      exact ⟨k, peek?_apply hk, (Cursor.visible_ahead hk).symm⟩
    · rintro k _ ⟨⟩
  refine htakes.isLocal fun {stop cs u a n} hstop htaken _ v => ?_
  rwa [Token.lead?_stop hstop cs v u]

theorem isLocal_token? : token?.IsLocal := by
  have htakes : token?.Takes fun cs =>
      (Token.lead? cs).elim (some (none, 0)) fun t =>
        if t.IsWhole then some (some t, t.text.length) else none := by
    refine ⟨fun h => (onRest_eq_ok.mp h).1, fun {k a n} hk htaken => ?_,
      fun {k} hk hmissed a l h => ?_⟩
    · rw [← Cursor.rest_skipIgnored hk] at htaken
      rw [token?_apply hk]
      cases hlead : Token.lead? k.skipIgnored.rest with
      | none =>
        rw [hlead] at htaken
        cases htaken
        rw [Cursor.next_of_none hk hlead]
        exact ⟨_, rfl, k.ahead_skipIgnored.trans (Cursor.visible_ahead hk).symm⟩
      | some t =>
        rw [hlead, Option.elim_some] at htaken
        split at htaken
        · cases htaken
          rw [Cursor.next_of_isWhole hk hlead ‹_›]
          exact ⟨_, rfl, Cursor.ahead_taken hk _⟩
        · cases htaken
    · -- a part of a character was taken
      rw [← Cursor.rest_skipIgnored hk] at hmissed
      cases hlead : Token.lead? k.skipIgnored.rest with
      | none =>
        rw [hlead] at hmissed
        cases hmissed
      | some t =>
        rw [hlead, Option.elim_some] at hmissed
        split at hmissed
        · cases hmissed
        · rename_i hpart
          have hmarked : k.skipIgnored.markToken.inside = [] := k.skipIgnored_inside.trans hk
          rw [token?_apply hk, Cursor.next_of_some hk hlead] at h
          cases h
          exact mt (Cursor.inside_pass hmarked hlead).mp hpart
  refine htakes.isLocal fun {stop cs u a n} hstop htaken _ v => ?_
  rwa [Token.lead?_stop hstop cs v u]

theorem isLocal_number : number.IsLocal := by
  have htakes : number.Takes fun cs =>
      (Numeral.ofChars? cs).map fun n => (Binary32.ofNumeral n, n.chars.length) := by
    refine ⟨fun h => (onRest_eq_ok.mp h).1, ?_, ?_⟩
    · intro k a n hk htaken
      obtain ⟨found, hfound, ⟨⟩⟩ := Option.map_eq_some_iff.mp htaken
      exact ⟨_, number_of_some hk hfound, Cursor.ahead_taken hk _⟩
    · intro k hk hmissed a l hread
      rw [number_of_none hk (Option.map_eq_none_iff.mp hmissed)] at hread
      cases hread
  refine htakes.isLocal fun {stop cs u a n} hstop htaken _ v => ?_
  rwa [Token.ofChars?_stop hstop cs v u]

theorem isLocal_token : token.IsLocal := by
  refine isLocal_token?.bind fun t => ?_
  cases t with
  | none => exact .fail _
  | some t => exact .pure t

theorem isLocal_expect {mark : String} {c : Char} (hmark : mark.toList = [c]) :
    (expect mark).IsLocal := by
  refine (isLocal_accept hmark).bind fun found => ?_
  split
  · exact .pure ()
  · refine isLocal_token?.bind fun t => ?_
    cases t with
    | none => exact .fail _
    | some t => exact .fail _

theorem isLocal_integer : integer.IsLocal := by
  refine isLocal_token.bind fun t => ?_
  cases t with
  | integer digits =>
    dsimp only
    split
    · exact .pure _
    · exact .fail _
  | identifier name => exact .fail _
  | punctuation mark => exact .fail _

theorem isLocal_identifier : identifier.IsLocal := by
  refine isLocal_token.bind fun t => ?_
  cases t with
  | identifier name => exact .pure name
  | integer digits => exact .fail _
  | punctuation mark => exact .fail _

/-! ## Parts of statements -/

theorem isLocal_temporary (number : Nat) : (temporary number).IsLocal := by
  unfold temporary
  split
  · exact .pure _
  · exact .fail _

theorem isLocal_localParameter : localParameter.IsLocal := by
  refine (isLocal_expect rfl).bind fun _ => isLocal_integer.bind fun number => ?_
  split
  · exact (isLocal_expect rfl).bind fun _ => .pure _
  · exact .fail _

theorem isLocal_moreComponents (count : Nat) : (moreComponents count).IsLocal := by
  induction count with
  | zero => exact .pure []
  | succ count ih =>
    refine (isLocal_accept rfl).bind fun found => ?_
    split
    · exact isLocal_number.bind fun _ => ih.bind fun _ => .pure _
    · exact .pure []

theorem isLocal_vectorRest : vectorRest.IsLocal :=
  isLocal_number.bind fun _ => (isLocal_moreComponents 3).bind fun _ =>
    (isLocal_expect rfl).bind fun _ => .pure _

theorem isLocal_constant : constant.IsLocal := by
  refine (isLocal_accept rfl).bind fun found => ?_
  split
  · exact isLocal_vectorRest.within
  · exact isLocal_number.within.bind fun _ => .pure _

theorem isLocal_word (meaning? : String → Option α) (cause : ErrorCause) :
    (word meaning? cause).IsLocal := by
  refine isLocal_token.bind fun t => ?_
  cases t with
  | identifier name =>
    dsimp only
    split
    · exact .pure _
    · exact .fail _
  | integer digits => exact .fail _
  | punctuation mark => exact .fail _

theorem isLocal_swizzle : swizzle.IsLocal := by
  rw [swizzle_eq_word]
  exact isLocal_word _ _

theorem isLocal_writeMask : writeMask.IsLocal := by
  rw [writeMask_eq_word]
  exact isLocal_word _ _

theorem isLocal_condition : condition.IsLocal := by
  rw [condition_eq_word]
  refine (isLocal_word _ _).bind fun rule => (isLocal_accept rfl).bind fun found => ?_
  split
  · exact isLocal_swizzle.bind fun _ => .pure _
  · exact .pure _

theorem isLocal_negation : negation.IsLocal := by
  refine (isLocal_accept rfl).bind fun found => ?_
  split
  · exact .pure true
  · exact (isLocal_accept rfl).bind fun _ => .pure false

end Scan

namespace Compile

open Scan

theorem isLocal_destinationMask : destinationMask.IsLocal := by
  refine (isLocal_accept rfl).bind fun found => ?_
  split
  · exact isLocal_writeMask
  · exact .pure _

theorem isLocal_destinationGuard : destinationGuard.IsLocal := by
  refine (isLocal_accept rfl).bind fun found => ?_
  split
  · exact isLocal_condition.within.bind fun _ => (isLocal_expect rfl).bind fun _ => .pure _
  · exact .pure _

theorem isLocal_vectorSuffix (o : Operand) : (vectorSuffix o).IsLocal := by
  refine (isLocal_accept rfl).bind fun found => ?_
  split
  · exact isLocal_swizzle
  · exact .pure _

theorem isLocal_scalarSuffix (o : Operand) : (scalarSuffix o).IsLocal := by
  refine (isLocal_accept rfl).bind fun found => ?_
  split
  · refine isLocal_swizzle.bind fun s => ?_
    split
    · exact .pure s
    · exact .fail _
  · cases o with
    | constant index => exact .pure _
    | register r => exact .failAhead _

theorem isLocal_targetAmong (targets : List TextureTarget) : (targetAmong targets).IsLocal := by
  induction targets with
  | nil => exact .failAhead _
  | cons target targets ih =>
    have hname : ∀ {stop}, Token.isStop stop = true → stop ∉ target.name.toList := by
      intro stop hstop hmem
      have hplain : target.name.toList.all (!Token.isStop ·) = true := by cases target <;> decide
      have hother := List.all_eq_true.mp hplain stop hmem
      rw [hstop] at hother
      cases hother
    refine (isLocal_acceptWord hname).bind fun found => ?_
    split
    · exact .pure target
    · exact ih

theorem isLocal_textureUnit : textureUnit.IsLocal := by
  refine isLocal_identifier.bind fun name => ?_
  split
  · exact .fail _
  · split
    · exact .pure _
    · exact .fail _

theorem isLocal_definitionValue (kind : ParameterKind) : (definitionValue kind).IsLocal := by
  have hgiven : IsLocal (do
      expect "="
      constant) := (isLocal_expect rfl).bind fun _ => isLocal_constant
  cases kind with
  | constant => exact hgiven
  | literal => exact hgiven
  | declared =>
    refine (isLocal_accept rfl).bind fun found => ?_
    split
    · exact isLocal_constant
    · exact .pure _

theorem isLocal_statementName : statementName.IsLocal := by
  refine isLocal_token?.bind fun t => ?_
  cases t with
  | none => exact .fail _
  | some t =>
    cases t with
    | identifier name => exact .pure name
    | integer digits => exact .fail _
    | punctuation mark => exact .fail _

end Compile

end FragmentAssembly

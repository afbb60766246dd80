import FragmentAssembly.Compile.Scan
import FragmentAssembly.Proofs.Text.Location

/-!
# Lines of a cursor

A cursor counts lines as it moves, and a step can end anywhere, even between the two characters of
one line end.  What it has counted is nevertheless decided by where it stands: it has counted the
line ends of the text that it has passed as a whole, and its line begins behind the last of them.
-/

namespace FragmentAssembly

/-! ## Line ends -/

/-- The bytes behind the line ends of a text that begins at byte `place`.  A carriage return with a
line feed behind it is one line end. -/
def lineStops (place : Nat) : List Char → List Nat
  | [] => []
  | '\r' :: '\n' :: cs => (place + 2) :: lineStops (place + 2) cs
  | c :: cs =>
    if c = '\n' ∨ c = '\r' then (place + 1) :: lineStops (place + 1) cs
    else lineStops (place + c.utf8Size) cs

/-- A line end is found at its last character. -/
theorem lineStops_cons (place : Nat) (c : Char) (cs : List Char) : lineStops place (c :: cs) =
    (if Cursor.endsLine c cs then [place + c.utf8Size] else []) ++
      lineStops (place + c.utf8Size) cs := by
  by_cases hreturn : c = '\r' ∧ cs.head? = some '\n'
  · obtain ⟨rfl, hhead⟩ := hreturn
    cases cs with
    | nil => cases hhead
    | cons d cs =>
      obtain rfl : d = '\n' := Option.some.inj hhead
      -- the line feed behind the carriage return is a line end by itself
      have hfeed : lineStops (place + 1) ('\n' :: cs) =
          (place + 1 + 1) :: lineStops (place + 1 + 1) cs := by
        rw [lineStops, if_pos (.inl rfl)]
        simp
      exact hfeed.symm
  · have hplain : lineStops place (c :: cs) =
        if c = '\n' ∨ c = '\r' then (place + 1) :: lineStops (place + 1) cs
        else lineStops (place + c.utf8Size) cs := by
      rw [lineStops]
      rintro more rfl rfl
      exact hreturn ⟨rfl, rfl⟩
    rw [hplain]
    by_cases hfeed : c = '\n'
    · subst hfeed
      rfl
    · by_cases hlone : c = '\r'
      · subst hlone
        have hends : Cursor.endsLine '\r' cs = true := by
          simpa [Cursor.endsLine] using hreturn
        rw [if_pos (.inr rfl), if_pos hends]
        rfl
      · have hends : Cursor.endsLine c cs = false := by simp [Cursor.endsLine, hfeed, hlone]
        rw [if_neg (by simp [hfeed, hlone]), hends]
        rfl

theorem lt_of_mem_lineStops {place stop : Nat} {cs : List Char} (h : stop ∈ lineStops place cs) :
    place < stop := by
  induction cs generalizing place with
  | nil => cases h
  | cons c cs ih =>
    have hpos := c.utf8Size_pos
    rw [lineStops_cons, List.mem_append] at h
    rcases h with h | h
    · split at h
      · rw [List.mem_singleton] at h
        omega
      · cases h
    · have hlt := ih h
      omega

/-- The line ends that are passed as a whole in front of byte `stop`. -/
def passedStops (place : Nat) (cs : List Char) (stop : Nat) : List Nat :=
  (lineStops place cs).filter (· ≤ stop)

theorem passedStops_self (place : Nat) (cs : List Char) : passedStops place cs place = [] := by
  rw [passedStops, List.filter_eq_nil_iff]
  intro stop hstop
  have hlt := lt_of_mem_lineStops hstop
  simpa using hlt

theorem passedStops_cons (place stop : Nat) (c : Char) (cs : List Char)
    (hstop : place + c.utf8Size ≤ stop) : passedStops place (c :: cs) stop =
      (if Cursor.endsLine c cs then [place + c.utf8Size] else []) ++
        passedStops (place + c.utf8Size) cs stop := by
  rw [passedStops, lineStops_cons, List.filter_append]
  split
  · rw [List.filter_cons_of_pos (by simpa using hstop)]
    rfl
  · rfl

/-- One character more, and at most one line end more. -/
theorem passedStops_concat (place : Nat) (before after : List Char) (c : Char) :
    passedStops place (before ++ c :: after) (place + bytes (before ++ [c])) =
      passedStops place (before ++ c :: after) (place + bytes before) ++
        if Cursor.endsLine c after then [place + bytes (before ++ [c])] else [] := by
  induction before generalizing place with
  | nil =>
    have hbytes : bytes [c] = c.utf8Size := Nat.add_zero _
    rw [List.nil_append, List.nil_append, hbytes, passedStops_cons _ _ _ _ (Nat.le_refl _),
      passedStops_self, List.append_nil]
    exact (congrArg (· ++ _) (passedStops_self place (c :: after))).symm
  | cons d before ih =>
    have hbytes : ∀ cs, place + bytes (d :: cs) = place + d.utf8Size + bytes cs := fun cs =>
      (Nat.add_assoc _ _ _).symm
    rw [List.cons_append, List.cons_append, hbytes, hbytes,
      passedStops_cons _ _ _ _ (Nat.le_add_right _ _),
      passedStops_cons _ _ _ _ (Nat.le_add_right _ _), ih, List.append_assoc]

/-- No line end is passed inside a character. -/
theorem passedStops_within {before after : List Char} {c : Char} {stop : Nat}
    (hends : Cursor.endsLine c after = false) (hle : bytes before ≤ stop)
    (hstop : stop ≤ bytes (before ++ [c])) : passedStops 0 (before ++ c :: after) stop =
      passedStops 0 (before ++ c :: after) (bytes (before ++ [c])) := by
  have hsame := passedStops_concat 0 before after c
  rw [hends, Nat.zero_add, Nat.zero_add] at hsame
  replace hsame := hsame.trans (List.append_nil _)
  -- what is passed at the end of the character was passed in front of it
  refine List.filter_congr fun place hplace => decide_eq_decide.mpr ⟨fun h => h.trans hstop, ?_⟩
  intro h
  have hpassed : place ∈ passedStops 0 (before ++ c :: after) (bytes (before ++ [c])) :=
    List.mem_filter.mpr ⟨hplace, decide_eq_true h⟩
  rw [hsame] at hpassed
  exact (of_decide_eq_true (List.mem_filter.mp hpassed).2).trans hle

/-! ## Counting -/

/-- The first characters of a text, up to the one with its byte `n`. -/
def charsTo : Nat → List Char → List Char
  | _, [] => []
  | n, c :: cs => if n = 0 then [] else c :: charsTo (n - c.utf8Size) cs

theorem charsTo_append {n : Nat} {front : List Char} (after : List Char) (hle : n ≤ bytes front)
    (hlast : ∀ more c, front = more ++ [c] → bytes more < n) :
    charsTo n (front ++ after) = front := by
  induction front generalizing n with
  | nil =>
    obtain rfl : n = 0 := Nat.le_zero.mp hle
    cases after <;> rfl
  | cons c front ih =>
    have hbytes : bytes (c :: front) = c.utf8Size + bytes front := List.sum_cons
    rw [hbytes] at hle
    have hne : n ≠ 0 := by
      rcases List.eq_nil_or_concat front with rfl | ⟨more, d, rfl⟩
      · exact Nat.ne_of_gt (hlast [] c rfl)
      · rw [List.concat_eq_append] at hlast
        exact Nat.ne_of_gt (Nat.zero_lt_of_lt (hlast (c :: more) d rfl))
    rw [List.cons_append, charsTo, if_neg hne, ih (by omega)]
    rintro more d rfl
    have hlt := hlast (c :: more) d rfl
    have hmore : bytes (c :: more) = c.utf8Size + bytes more := List.sum_cons
    omega

/-- The characters of a text that begin between two of its bytes. -/
def slice (source : String) (start stop : Nat) : List Char :=
  (Location.splitAtByte start (charsTo stop source.toList)).2

theorem slice_eq {source : String} {front line after : List Char} {stop : Nat}
    (h : source.toList = front ++ line ++ after) (hle : stop ≤ bytes (front ++ line))
    (hlast : ∀ more c, front ++ line = more ++ [c] → bytes more < stop) :
    slice source (bytes front) stop = line := by
  rw [slice, h, charsTo_append after hle hlast, splitAtByte_append]

namespace Cursor

/-- The cursor stands behind `front` and `part`, or inside the last character of `part`.  This is
what it has passed of its line, and it has counted the line ends in both. -/
structure Counts (source : String) (front part : List Char) (k : Cursor) : Prop where
  text : source.toList = front ++ part ++ k.rest
  position : k.position + k.inside.length = bytes (front ++ part)
  inside : k.inside = [] ∨ ∃ more c, part = more ++ [c] ∧ k.inside.length < c.utf8Size
  line : k.line = 1 + (passedStops 0 source.toList (bytes (front ++ part))).length
  lineStart : k.lineStart = bytes front
  last : k.lineStart = (passedStops 0 source.toList (bytes (front ++ part))).getLast?.getD 0
  column : k.column = 1 + part.length

variable {source : String} {k : Cursor}

theorem size_of_endsLine {c : Char} {after : List Char} (h : endsLine c after = true) :
    c.utf8Size = 1 := by
  simp only [endsLine, Bool.or_eq_true, Bool.and_eq_true, decide_eq_true_eq] at h
  rcases h with rfl | ⟨rfl, -⟩ <;> rfl

section Step

variable {front part after : List Char} {c : Char}

theorem Counts.text_cons (h : Counts source front part k) (hrest : k.rest = c :: after) :
    source.toList = front ++ part ++ c :: after := by
  rw [h.text, hrest]

theorem Counts.bytes_concat (h : Counts source front part k) :
    k.position + k.inside.length + c.utf8Size = bytes (front ++ part ++ [c]) := by
  rw [bytes_append, h.position]
  rfl

theorem Counts.passed_cons (h : Counts source front part k) (hrest : k.rest = c :: after) :
    passedStops 0 source.toList (bytes (front ++ part ++ [c])) =
      passedStops 0 source.toList (bytes (front ++ part)) ++
        if endsLine c after then [bytes (front ++ part ++ [c])] else [] := by
  have hpassed := passedStops_concat 0 (front ++ part) after c
  rwa [Nat.zero_add, Nat.zero_add, ← h.text_cons hrest] at hpassed

/-- Behind a line end a new line begins. -/
theorem Counts.step_of_endsLine (h : Counts source front part k) (hrest : k.rest = c :: after)
    (hends : endsLine c after = true) : Counts source (front ++ part ++ [c]) [] k.step := by
  have hpassed := h.passed_cons hrest
  have hbytes := h.bytes_concat (c := c)
  rw [if_pos hends] at hpassed
  unfold Cursor.step
  rw [hrest]
  dsimp only
  rw [if_pos hends]
  refine ⟨?_, ?_, .inl rfl, ?_, hbytes, ?_, rfl⟩
  · rw [h.text_cons hrest, List.append_nil, List.append_assoc _ [c], List.singleton_append]
  · rw [List.append_nil]
    exact hbytes
  · rw [List.append_nil, hpassed, List.length_append, h.line]
    exact Nat.add_assoc _ _ _
  · rw [List.append_nil, hpassed, List.getLast?_append]
    exact hbytes

/-- Any other character is one more of its line. -/
theorem Counts.step_of_not_endsLine (h : Counts source front part k) (hrest : k.rest = c :: after)
    (hends : endsLine c after = false) : Counts source front (part ++ [c]) k.step := by
  have hpassed := h.passed_cons hrest
  have hbytes := h.bytes_concat (c := c)
  rw [if_neg (Bool.eq_false_iff.mp hends), List.append_nil, List.append_assoc] at hpassed
  rw [List.append_assoc] at hbytes
  unfold Cursor.step
  rw [hrest]
  dsimp only
  rw [if_neg (Bool.eq_false_iff.mp hends)]
  refine ⟨?_, hbytes, .inl rfl, ?_, h.lineStart, ?_, ?_⟩
  · rw [h.text_cons hrest]
    simp only [List.append_assoc, List.singleton_append]
  · rw [hpassed]
    exact h.line
  · rw [hpassed]
    exact h.last
  · rw [List.length_append, h.column]
    exact Nat.add_assoc _ _ _

end Step

theorem Counts.step {front part : List Char} (h : Counts source front part k) :
    ∃ front' part', Counts source front' part' k.step := by
  cases hrest : k.rest with
  | nil =>
    obtain ⟨htext, hposition, -, hline, hstart, hlast, hcolumn⟩ := h
    refine ⟨front, part, ?_⟩
    unfold Cursor.step
    rw [hrest] at htext ⊢
    exact ⟨htext, hposition, .inl rfl, hline, hstart, hlast, hcolumn⟩
  | cons c after =>
    cases hends : endsLine c after with
    | true => exact ⟨_, _, h.step_of_endsLine hrest hends⟩
    | false => exact ⟨_, _, h.step_of_not_endsLine hrest hends⟩

/-- With the first byte of a character all of it is counted. -/
theorem Counts.byte {front part : List Char} (h : Counts source front part k) :
    ∃ front' part', Counts source front' part' k.stepByte := by
  cases hinside : k.inside with
  | cons byte bytes =>
    obtain ⟨htext, hposition, hpart, hline, hstart, hlast, hcolumn⟩ := h
    rw [stepByte, hinside]
    rw [hinside, List.length_cons] at hposition hpart
    refine ⟨front, part, htext, ?_, ?_, hline, hstart, hlast, hcolumn⟩
    · dsimp only
      omega
    · obtain ⟨more, c, hmore, hlt⟩ := hpart.resolve_left (List.cons_ne_nil _ _)
      exact .inr ⟨more, c, hmore, Nat.lt_of_succ_lt hlt⟩
  | nil =>
    cases hrest : k.rest with
    | nil =>
      rw [stepByte, hinside, hrest]
      exact ⟨front, part, h⟩
    | cons c after =>
      by_cases hsize : c.utf8Size = 1
      · rw [stepByte_of_size hinside hrest hsize]
        exact h.step
      · -- a line does not end with such a character
        have hends : endsLine c after = false :=
          Bool.eq_false_iff.mpr (mt size_of_endsLine hsize)
        obtain ⟨htext, -, -, hline, hstart, hlast, hcolumn⟩ := h.step_of_not_endsLine hrest hends
        have hbytes := h.bytes_concat (c := c)
        have hlength : (String.utf8EncodeChar c).tail.length = c.utf8Size - 1 := by
          rw [List.length_tail, String.length_utf8EncodeChar]
        have hpos := c.utf8Size_pos
        rw [hinside, List.length_nil, List.append_assoc] at hbytes
        rw [stepByte_of_rest hinside hrest]
        refine ⟨front, part ++ [c], htext, ?_, .inr ⟨part, c, rfl, ?_⟩, hline, hstart, hlast,
          hcolumn⟩
        · dsimp only
          omega
        · dsimp only
          omega

theorem Counts.advance (n : Nat) {front part : List Char} (h : Counts source front part k) :
    ∃ front' part', Counts source front' part' (k.advance n) := by
  induction n generalizing k front part with
  | zero => exact ⟨front, part, h⟩
  | succ n ih =>
    obtain ⟨_, _, hstep⟩ := h.step
    exact ih hstep

theorem Reached.counts (h : Reached source k) : ∃ front part, Counts source front part k := by
  induction h with
  | start =>
    have hnone : passedStops 0 source.toList 0 = [] := passedStops_self 0 source.toList
    refine ⟨[], [], rfl, rfl, .inl rfl, ?_, rfl, ?_, rfl⟩
    · show 1 = 1 + (passedStops 0 source.toList 0).length
      rw [hnone]
      rfl
    · show 0 = (passedStops 0 source.toList 0).getLast?.getD 0
      rw [hnone]
      rfl
  | advance n _ ih =>
    obtain ⟨_, _, hcounts⟩ := ih
    exact hcounts.advance n
  | byte _ ih =>
    obtain ⟨_, _, hcounts⟩ := ih
    exact hcounts.byte
  | mark _ ih =>
    obtain ⟨front, part, hcounts⟩ := ih
    exact ⟨front, part, hcounts.text, hcounts.position, hcounts.inside, hcounts.line,
      hcounts.lineStart, hcounts.last, hcounts.column⟩

/-- The bytes of the last character that are left make no difference. -/
theorem Counts.slice_eq {front part : List Char} (h : Counts source front part k) :
    slice source k.lineStart k.position = part := by
  have hposition := h.position
  rw [h.lineStart]
  refine FragmentAssembly.slice_eq h.text (by omega) fun front' c hsplit => ?_
  have hbytes : bytes (front' ++ [c]) = bytes front' + c.utf8Size := bytes_append _ _
  rw [hsplit] at hposition
  rcases h.inside with hinside | ⟨more, d, rfl, hlt⟩
  · have hpos := c.utf8Size_pos
    rw [hinside, List.length_nil] at hposition
    omega
  · rw [← List.append_assoc] at hsplit
    obtain ⟨-, rfl⟩ := List.append_singleton_inj.mp hsplit
    omega

theorem Counts.passedStops_eq {front part : List Char} (h : Counts source front part k) :
    passedStops 0 source.toList k.position =
      passedStops 0 source.toList (bytes (front ++ part)) := by
  have hposition := h.position
  by_cases hinside : k.inside = []
  · rw [hinside] at hposition
    rw [← hposition]
    rfl
  · obtain ⟨more, c, rfl, hlt⟩ := h.inside.resolve_left hinside
    have hlength := List.length_pos_iff.mpr hinside
    have hends : endsLine c k.rest = false :=
      Bool.eq_false_iff.mpr (mt size_of_endsLine (by omega))
    have htext : source.toList = front ++ more ++ c :: k.rest := by
      rw [h.text, ← List.append_assoc, List.append_assoc _ [c], List.singleton_append]
    have hbytes : bytes (front ++ more ++ [c]) = bytes (front ++ more) + c.utf8Size :=
      bytes_append _ _
    rw [← List.append_assoc] at hposition ⊢
    rw [htext]
    exact passedStops_within hends (by omega) (by omega)

/-! ## Operations -/

/-- What can be asked of a cursor. -/
inductive Operation where
  | advance (count : Nat)
  | skipIgnored
  | token
  | accept (expected : String)
  | acceptWord (word : String)
  | expect (expected : String)
  | number
  | integer
  | identifier
deriving DecidableEq, Repr

/-- The cursor that an action leaves behind, whether it fails or not. -/
def leftBy {α : Type} (m : Scan α) (k : Cursor) : Cursor :=
  match m k with
  | .ok _ l => l
  | .error _ l => l

/-- The cursor after an operation. -/
def operate (k : Cursor) : Operation → Cursor
  | .advance count => k.advance count
  | .skipIgnored => k.skipIgnored
  | .token => k.leftBy Scan.token?
  | .accept expected => k.leftBy (Scan.accept expected)
  | .acceptWord word => k.leftBy (Scan.acceptWord word)
  | .expect expected => k.leftBy (Scan.expect expected)
  | .number => k.leftBy Scan.number
  | .integer => k.leftBy Scan.integer
  | .identifier => k.leftBy Scan.identifier

/-- The cursor on a text after some operations. -/
def after (source : String) (operations : List Operation) : Cursor :=
  operations.foldl operate (.ofText source)

/-- What advancing and marking keep. -/
structure Stable (P : Cursor → Prop) : Prop where
  advance : ∀ {k : Cursor} (n : Nat), P k → P (k.advance n)
  byte : ∀ {k : Cursor}, P k → P k.stepByte
  mark : ∀ {k : Cursor}, P k → P k.markToken

namespace Stable

variable {P : Cursor → Prop} {α β : Type} {m : Scan α}

theorem skipIgnored (h : Stable P) (hk : P k) : P k.skipIgnored := by
  unfold Cursor.skipIgnored
  split
  · exact h.advance _ hk
  · exact hk

theorem pass (h : Stable P) (t : Token) (hk : P k) : P (k.pass t) := by
  cases t with
  | integer digits => exact h.advance _ hk
  | identifier name => exact h.advance _ hk
  | punctuation mark => exact h.byte hk

theorem take (h : Stable P) (n : Nat) (hk : P k) : P (k.skipIgnored.markToken.advance n) :=
  h.advance n (h.mark (h.skipIgnored hk))

theorem bind {f : α → Scan β} (hm : P (k.leftBy m)) (hf : ∀ a l, P l → P (l.leftBy (f a))) :
    P (k.leftBy (m >>= f)) := by
  unfold leftBy at *
  rw [bind_apply]
  cases hresult : m k with
  | ok a l =>
    rw [hresult] at hm
    exact hf a l hm
  | error e l =>
    rw [hresult] at hm
    exact hm

/-- Inside a character an action on the rest of the text does not move the cursor. -/
theorem onRest {read : Cursor → EStateM.Result ParseError Cursor α} (hk : P k)
    (hread : P (k.leftBy read)) : P (k.leftBy (Scan.onRest read)) := by
  by_cases hinside : k.inside = []
  · rwa [leftBy, onRest_apply hinside]
  · rw [leftBy, Scan.onRest, if_neg (mt List.isEmpty_iff.mp hinside)]
    exact hk

theorem next (h : Stable P) (hk : P k) : P k.next.2 := by
  unfold Cursor.next
  dsimp only
  split
  · exact h.mark (h.skipIgnored hk)
  · exact h.pass _ (h.mark (h.skipIgnored hk))

theorem accept (h : Stable P) (expected : String) (hk : P k) : P (k.accept expected).2 := by
  unfold Cursor.accept
  dsimp only
  split
  · exact h.take _ hk
  · exact h.skipIgnored hk

theorem acceptWord (h : Stable P) (word : String) (hk : P k) : P (k.acceptWord word).2 := by
  unfold Cursor.acceptWord
  dsimp only
  split
  · exact h.take _ hk
  · exact h.skipIgnored hk

theorem token (h : Stable P) (hk : P k) : P (k.leftBy Scan.token) := by
  refine bind (onRest hk (h.next hk)) fun t l hl => ?_
  cases t <;> exact hl

theorem expect (h : Stable P) (expected : String) (hk : P k) :
    P (k.leftBy (Scan.expect expected)) := by
  refine bind (onRest hk (h.accept expected hk)) fun found l hl => ?_
  cases found with
  | true => exact hl
  | false =>
    refine bind (onRest hl (h.next hl)) fun t l hl => ?_
    cases t <;> exact hl

theorem number (h : Stable P) (hk : P k) : P (k.leftBy Scan.number) := by
  apply onRest hk
  unfold leftBy
  dsimp only
  cases Numeral.ofChars? k.skipIgnored.rest with
  | some n => exact h.take _ hk
  | none => exact h.skipIgnored hk

theorem integer (h : Stable P) (hk : P k) : P (k.leftBy Scan.integer) := by
  refine bind (h.token hk) fun t l hl => ?_
  cases t with
  | integer digits =>
    dsimp only
    split <;> exact hl
  | identifier name => exact hl
  | punctuation mark => exact hl

theorem identifier (h : Stable P) (hk : P k) : P (k.leftBy Scan.identifier) := by
  refine bind (h.token hk) fun t l hl => ?_
  cases t <;> exact hl

/-- All that an operation does is to advance and to mark, whether it fails or not. -/
theorem operate (h : Stable P) (o : Operation) (hk : P k) : P (k.operate o) := by
  cases o with
  | advance count => exact h.advance count hk
  | skipIgnored => exact h.skipIgnored hk
  | token => exact onRest hk (h.next hk)
  | accept expected => exact onRest hk (h.accept expected hk)
  | acceptWord word => exact onRest hk (h.acceptWord word hk)
  | expect expected => exact h.expect expected hk
  | number => exact h.number hk
  | integer => exact h.integer hk
  | identifier => exact h.identifier hk

theorem foldl (h : Stable P) (operations : List Operation) (hk : P k) :
    P (operations.foldl Cursor.operate k) := by
  induction operations generalizing k with
  | nil => exact hk
  | cons o operations ih => exact ih (h.operate o hk)

theorem after (h : Stable P) (source : String) (operations : List Operation)
    (hstart : P (.ofText source)) : P (Cursor.after source operations) :=
  h.foldl operations hstart

end Stable

theorem stable_reached (source : String) : Stable (Reached source) :=
  ⟨fun n h => .advance n h, fun h => .byte h, fun h => .mark h⟩

theorem stable_position_le (place : Nat) : Stable fun k => place ≤ k.position :=
  ⟨fun n h => h.trans (position_le_advance n _), fun h => h.trans (position_le_stepByte _),
    fun h => h⟩

theorem stable_tokenStart_le : Stable fun k => k.tokenStart ≤ k.position := by
  refine ⟨fun {k} n h => ?_, fun {k} h => ?_, fun _ => Nat.le_refl _⟩
  · rw [tokenStart_advance]
    exact h.trans (position_le_advance n k)
  · rw [tokenStart_stepByte]
    exact h.trans k.position_le_stepByte

/-- The position alone decides the rest. -/
theorem Reached.eq_slice (h : Reached source k) : k.position ≤ source.utf8ByteSize ∧
    k.lineStart ≤ k.position ∧
    k.line = 1 + (passedStops 0 source.toList k.position).length ∧
    k.lineStart = (passedStops 0 source.toList k.position).getLast?.getD 0 ∧
    k.column = 1 + (slice source k.lineStart k.position).length := by
  obtain ⟨front, part, hcounts⟩ := h.counts
  have hposition := hcounts.position
  have hstart := hcounts.lineStart
  have hsize : source.utf8ByteSize = bytes (front ++ part) + bytes k.rest := by
    rw [utf8ByteSize_eq_bytes, hcounts.text, bytes_append]
  have hparts : bytes (front ++ part) = bytes front + bytes part := bytes_append _ _
  have hle : k.inside.length ≤ bytes part := by
    rcases hcounts.inside with hinside | ⟨more, c, rfl, hlt⟩
    · rw [hinside]
      exact Nat.zero_le _
    · have hmore : bytes (more ++ [c]) = bytes more + c.utf8Size := bytes_append _ _
      omega
  rw [hcounts.passedStops_eq, hcounts.slice_eq]
  exact ⟨by omega, by omega, hcounts.line, hcounts.last, hcounts.column⟩

end Cursor

/-- Whatever has been asked of a cursor and whatever came of it, the last token starts in front of
the cursor, which is in the text and never goes back.  Line, start of the line and column are those
of the position. -/
theorem cursor_invariant (source : String) (operations : List Cursor.Operation) :
    let k := Cursor.after source operations
    let stops := passedStops 0 source.toList k.position
    (k.tokenStart ≤ k.position ∧ k.position ≤ source.utf8ByteSize) ∧
    (∀ o, k.position ≤ (k.operate o).position) ∧
    (k.lineStart ≤ k.position ∧ k.line = 1 + stops.length ∧
      k.lineStart = stops.getLast?.getD 0 ∧
      k.column = 1 + (slice source k.lineStart k.position).length) ∧
    ∀ others, (Cursor.after source others).position = k.position →
      (Cursor.after source others).line = k.line ∧
      (Cursor.after source others).column = k.column := by
  have hreached : ∀ operations, Cursor.Reached source (Cursor.after source operations) :=
    fun operations => (Cursor.stable_reached source).after source operations .start
  obtain ⟨hposition, hstart, hline, hlast, hcolumn⟩ := (hreached operations).eq_slice
  refine ⟨⟨?_, hposition⟩, fun o => ?_, ⟨hstart, hline, hlast, hcolumn⟩, fun others hsame => ?_⟩
  · exact Cursor.stable_tokenStart_le.after source operations (Nat.le_refl 0)
  · exact (Cursor.stable_position_le _).operate o (Nat.le_refl _)
  · obtain ⟨-, -, hline', hlast', hcolumn'⟩ := (hreached others).eq_slice
    rw [hsame] at hline' hlast' hcolumn'
    refine ⟨hline'.trans hline.symm, ?_⟩
    rw [hcolumn', hcolumn, hlast', ← hlast]

/-- Once there is a stop within a line end, and a word that is missed; once there is neither. -/
theorem cursor_invariant_parted :
    let k := Cursor.after "a\r\nb\rc" [.advance 2, .expect ","]
    let l := Cursor.after "a\r\nb\rc" [.token, .accept "b"]
    l.position = k.position ∧ (k.line, k.column) = (2, 2) ∧ l.line = k.line ∧
      l.column = k.column := by
  have hsame : (Cursor.after "a\r\nb\rc" [.token, .accept "b"]).position =
      (Cursor.after "a\r\nb\rc" [.advance 2, .expect ","]).position := by decide
  obtain ⟨-, -, -, hothers⟩ := cursor_invariant "a\r\nb\rc" [.advance 2, .expect ","]
  exact ⟨hsame, by decide, hothers _ hsame⟩

end FragmentAssembly

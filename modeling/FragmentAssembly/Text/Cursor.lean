import FragmentAssembly.Text.Token

/-!
# Cursors

A cursor stands between two bytes of a text and knows what is left of it.  It counts bytes, lines
and columns as it moves, so that where it stands does not depend on the steps it took.  Lines end
with a line feed, with a carriage return, or with both in this order.  Only a token can leave the
cursor inside a character, as it can be one of its bytes.  The compiler does not go on from there,
while the sequence of all tokens does.
-/

namespace FragmentAssembly

structure Cursor where
  /-- The characters that begin behind the cursor. -/
  rest : List Char
  /-- Bytes before the cursor. -/
  position : Nat
  line : Nat
  /-- Bytes before the line of the cursor. -/
  lineStart : Nat
  column : Nat
  /-- Bytes before the token that was read last. -/
  tokenStart : Nat
  /-- The bytes in front of `rest` that are left of a character inside which the cursor stands. -/
  inside : List UInt8 := []
deriving DecidableEq, Repr

namespace Cursor

def ofText (source : String) : Cursor :=
  ⟨source.toList, 0, 1, 0, 1, 0, []⟩

/-- Whether `c` ends its line, when `rest` follows it. -/
def endsLine (c : Char) (rest : List Char) : Bool :=
  c = '\n' || c = '\r' && rest.head? ≠ some '\n'

/-- Moves behind the next character that begins. -/
def step (k : Cursor) : Cursor :=
  match k.rest with
  | [] => { k with position := k.position + k.inside.length, inside := [] }
  | c :: rest =>
    let position := k.position + k.inside.length + c.utf8Size
    if endsLine c rest then
      { k with rest, position, line := k.line + 1, lineStart := position, column := 1, inside := [] }
    else
      { k with rest, position, column := k.column + 1, inside := [] }

def advance : Nat → Cursor → Cursor
  | 0, k => k
  | n + 1, k => advance n k.step

/-- Moves past one byte.  The column is that of the character it belongs to. -/
def stepByte (k : Cursor) : Cursor :=
  match k.inside, k.rest with
  | _ :: inside, _ => { k with position := k.position + 1, inside }
  | [], [] => k
  | [], c :: _ =>
    { k.step with position := k.position + 1, inside := (String.utf8EncodeChar c).tail }

/-- Moves past a token that comes next. -/
def pass (k : Cursor) : Token → Cursor
  | .punctuation _ => k.stepByte
  | token => k.advance token.text.length

/-- Moves past blanks and comments.  There are none inside a character. -/
def skipIgnored (k : Cursor) : Cursor :=
  if k.inside.isEmpty then k.advance (Token.ignoredLength false k.rest) else k

/-- Takes the place of the cursor for the start of a token. -/
def markToken (k : Cursor) : Cursor :=
  { k with tokenStart := k.position }

/-- The token that begins at the cursor.  Inside a character it is the next byte. -/
def lead? (k : Cursor) : Option Token :=
  match k.inside with
  | [] => Token.lead? k.rest
  | byte :: _ => some (.punctuation (Char.ofUInt8 byte))

/-- The next token, and the cursor after it. -/
def next (k : Cursor) : Option Token × Cursor :=
  let k := k.skipIgnored.markToken
  match k.lead? with
  | none => (none, k)
  | some token => (some token, k.pass token)

def peek? (k : Cursor) : Option Token :=
  k.skipIgnored.lead?

/-- Takes `expected` if the text goes on with it, whatever follows. -/
def accept (expected : String) (k : Cursor) : Bool × Cursor :=
  let k := k.skipIgnored
  if expected.toList.isPrefixOf k.rest then (true, k.markToken.advance expected.length)
  else (false, k)

/-- Takes `word` if the text goes on with it and the word ends there. -/
def acceptWord (word : String) (k : Cursor) : Bool × Cursor :=
  let k := k.skipIgnored
  if word.toList.isPrefixOf k.rest
      && (k.rest.drop word.length).head?.all (!Token.isNameChar ·) then
    (true, k.markToken.advance word.length)
  else (false, k)

theorem step_rest (k : Cursor) : k.step.rest = k.rest.drop 1 := by
  unfold step
  split
  · simp [*]
  · split <;> simp [*]

theorem advance_rest (n : Nat) (k : Cursor) : (k.advance n).rest = k.rest.drop n := by
  induction n generalizing k with
  | zero => rfl
  | succ n ih => rw [advance, ih, step_rest, List.drop_drop, Nat.add_comm 1 n]

theorem advance_inside {k : Cursor} (n : Nat) (h : k.inside = []) : (k.advance n).inside = [] := by
  induction n generalizing k with
  | zero => exact h
  | succ n ih =>
    apply ih
    unfold step
    dsimp only
    split
    · rfl
    · split <;> rfl

theorem stepByte_rest {k : Cursor} (h : k.inside = []) : k.stepByte.rest = k.rest.drop 1 := by
  unfold stepByte
  rw [h]
  dsimp only
  cases hrest : k.rest with
  | nil => simpa using hrest
  | cons c rest =>
    show k.step.rest = _
    rw [step_rest, hrest]

/-- A token takes as many characters as its text has, if the last of them need not be whole. -/
theorem pass_rest {k : Cursor} (h : k.inside = []) (token : Token) :
    (k.pass token).rest = k.rest.drop token.text.length := by
  cases token with
  | integer digits => exact advance_rest _ k
  | identifier name => exact advance_rest _ k
  | punctuation mark => simpa [pass, Token.text] using stepByte_rest h

theorem skipIgnored_inside (k : Cursor) : k.skipIgnored.inside = k.inside := by
  unfold skipIgnored
  split
  · rename_i hempty
    rw [List.isEmpty_iff] at hempty
    rw [hempty]
    exact advance_inside _ hempty
  · rfl

/-- Between two characters the cursor sees what the rest of the text begins with. -/
theorem lead?_of_inside {k : Cursor} (h : k.inside = []) : k.lead? = Token.lead? k.rest := by
  rw [lead?, h]

/-- A token takes a character of the text, or else a byte of the one that is being read. -/
theorem next_lt {k : Cursor} {token : Token} (h : k.next.1 = some token) :
    k.next.2.rest.length < k.rest.length ∨
      k.next.2.rest.length = k.rest.length ∧ k.next.2.inside.length < k.inside.length := by
  have hinside : k.skipIgnored.markToken.inside = k.inside := k.skipIgnored_inside
  unfold next at h ⊢
  dsimp only at h ⊢
  cases hbytes : k.inside with
  | nil =>
    rw [hbytes] at hinside
    left
    split at h
    · cases h
    · rename_i found hfound
      rw [lead?_of_inside hinside] at hfound
      have hpos := Token.text_length_pos hfound
      have hlen : 0 < k.skipIgnored.markToken.rest.length := by
        cases hrest : k.skipIgnored.markToken.rest with
        | nil => simp [hrest, Token.lead?] at hfound
        | cons => exact Nat.succ_pos _
      have hskipped : k.skipIgnored.markToken.rest.length ≤ k.rest.length := by
        simp [markToken, skipIgnored, hbytes, advance_rest]
      rw [pass_rest hinside, List.length_drop]
      omega
  | cons byte bytes =>
    right
    have hskipped : k.skipIgnored = k := by simp [skipIgnored, hbytes]
    simp [hskipped, lead?, markToken, hbytes, pass, stepByte]

end Cursor

/-- A token and the bytes where it starts and stops. -/
structure Lexeme where
  token : Token
  start : Nat
  stop : Nat
deriving DecidableEq, Repr

/-- The tokens from the cursor on. -/
def Cursor.lexemes (k : Cursor) : List Lexeme :=
  match _found : k.next with
  | (none, _) => []
  | (some token, after) => ⟨token, after.tokenStart, after.position⟩ :: after.lexemes
termination_by (k.rest.length, k.inside.length)
decreasing_by
  have hlt := Cursor.next_lt (congrArg Prod.fst _found)
  rw [_found] at hlt
  rw [Prod.lex_def]
  exact hlt

end FragmentAssembly

/-!
# Tokens

Program text consists of integers, identifiers and single other bytes, with blanks and comments
between them.  Tokens are as long as possible.  A comment runs from `#` up to the end of its line.
Letters and digits are those of ASCII, and any other character is as many tokens as it has bytes.
-/

namespace FragmentAssembly

inductive Token where
  | integer (digits : String)
  | identifier (name : String)
  /-- One byte, which is a character by itself only in ASCII. -/
  | punctuation (mark : Char)
deriving DecidableEq, Repr

namespace Token

def text : Token → String
  | integer digits => digits
  | identifier name => name
  | punctuation mark => String.singleton mark

def isLineBreak (c : Char) : Bool :=
  c = '\n' || c = '\r'

def isBlank (c : Char) : Bool :=
  c = ' ' || c = '\t' || isLineBreak c

/-- A character that continues an identifier. -/
def isNameChar (c : Char) : Bool :=
  c.isAlphanum || c = '_' || c = '$'

/-- How many characters of blanks and comments a text begins with. -/
def ignoredLength (inComment : Bool) : List Char → Nat
  | [] => 0
  | c :: cs =>
    if inComment then ignoredLength (!isLineBreak c) cs + 1
    else if c = '#' then ignoredLength true cs + 1
    else if isBlank c then ignoredLength false cs + 1
    else 0

/-- The first byte of a character. -/
def leadByte (c : Char) : Char :=
  Char.ofUInt8 ((String.utf8EncodeChar c).headD 0)

/-- The token that a text begins with, where blanks and comments have been passed. -/
def lead? : List Char → Option Token
  | [] => none
  | c :: cs =>
    if c.isDigit then some (integer (String.ofList (c :: cs.takeWhile Char.isDigit)))
    else if c.isAlpha then some (identifier (String.ofList (c :: cs.takeWhile isNameChar)))
    else some (punctuation (leadByte c))

theorem text_length_pos {cs : List Char} {t : Token} (h : lead? cs = some t) :
    0 < t.text.length := by
  cases cs with
  | nil => simp [lead?] at h
  | cons c cs =>
    simp only [lead?] at h
    split at h
    · cases h
      simp only [text, String.length_ofList, List.length_cons]
      omega
    · split at h
      · cases h
        simp only [text, String.length_ofList, List.length_cons]
        omega
      · cases h
        simp [text]

end Token

end FragmentAssembly

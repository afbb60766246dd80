import FragmentAssembly.Proofs.Disassembly.Mnemonic
import FragmentAssembly.Proofs.Grammar.Item

/-!
# The grammar of program text

Phrases are put together from items by sequence and choice, and no production says by what it is
told from another one.  What a phrase mentions, such as a name, must agree with what was mentioned
before it; these conditions are stated apart from the productions.
-/

namespace FragmentAssembly

namespace Grammar

/-- What is known of a phrase outside of it. -/
inductive Mention where
  | define (name : String)
  | use (name : String)
  | write (output : OutputIndex)
  | sample (image : TextureImage)
  /-- A name that has the form of a temporary. -/
  | temporary (name : String)
deriving DecidableEq, Repr

/-- A phrase relates the text in front of which it stands, its mentions, and the text behind it. -/
abbrev Phrase := List Char → List Mention → List Char → Prop

namespace Phrase

def empty : Phrase :=
  fun cs ms rest => rest = cs ∧ ms = []

def never : Phrase :=
  fun _ _ _ => False

def ofItem (item : List Char → List Char → Prop) : Phrase :=
  fun cs ms rest => item cs rest ∧ ms = []

/-- No text at all, but a mention. -/
def mentioning (m : Mention) : Phrase :=
  fun cs ms rest => rest = cs ∧ ms = [m]

def andThen (p q : Phrase) : Phrase :=
  fun cs ms rest => ∃ mid before after, p cs before mid ∧ q mid after rest ∧ ms = before ++ after

def orElse (p q : Phrase) : Phrase :=
  fun cs ms rest => p cs ms rest ∨ q cs ms rest

def optional (p : Phrase) : Phrase :=
  p.orElse empty

def anyOf {ι : Type} (p : ι → Phrase) : Phrase :=
  fun cs ms rest => ∃ x, p x cs ms rest

/-- A phrase that can stand only under a condition. -/
def given (p : Phrase) (condition : Prop) : Phrase :=
  fun cs ms rest => condition ∧ p cs ms rest

end Phrase

/-! ## Words and numbers -/

def mark (c : Char) : Phrase :=
  .ofItem (Mark c)

def keyword (text : String) : Phrase :=
  .ofItem (Keyword text)

def word (name : String) : Phrase :=
  .ofItem (Name name)

def wordOf (P : String → Prop) : Phrase :=
  .anyOf fun name => (word name).given (P name)

def integerOf (P : Nat → Prop) : Phrase :=
  .ofItem fun cs rest => ∃ digits, P (Nat.ofDigitChars 10 digits 0) ∧ Digits digits cs rest

def number : Phrase :=
  .ofItem fun cs rest => ∃ n, Number n cs rest

def unsignedNumber : Phrase :=
  .ofItem fun cs rest => ∃ n, n.sign = none ∧ Number n cs rest

def sign : Phrase :=
  (mark '-').orElse (mark '+').optional

/-! ## Constants -/

/-- Numbers with a comma in front of each, at most `count` of them. -/
def moreNumbers : Nat → Phrase
  | 0 => .empty
  | count + 1 => ((mark ',').andThen (number.andThen (moreNumbers count))).optional

def vector : Phrase :=
  (mark '\x7b').andThen (number.andThen ((moreNumbers 3).andThen (mark '\x7d')))

def constant : Phrase :=
  vector.orElse number

/-! ## Components and conditions -/

def componentLetters : List Char :=
  ['x', 'y', 'z', 'w']

def IsSwizzle (letters : String) : Prop :=
  (∀ c ∈ letters.toList, c ∈ componentLetters) ∧
    (letters.toList.length = 1 ∨ letters.toList.length = 4)

/-- A swizzle that selects one component. -/
def IsComponent (letters : String) : Prop :=
  ∃ c ∈ componentLetters, letters.toList = [c] ∨ letters.toList = [c, c, c, c]

/-- Letters in their order, each at most once. -/
def IsMask (letters : String) : Prop :=
  letters.toList.Sublist componentLetters

def swizzle : Phrase :=
  (mark '.').andThen (wordOf IsSwizzle)

def component : Phrase :=
  (mark '.').andThen (wordOf IsComponent)

def mask : Phrase :=
  (mark '.').andThen (wordOf IsMask)

def conditionNames : List String :=
  ["EQ", "GE", "GT", "LE", "LT", "NE", "TR", "FL"]

def condition : Phrase :=
  (wordOf (· ∈ conditionNames)).andThen swizzle.optional

/-! ## Registers -/

/-- One of some letters with the digits of a number behind it. -/
def IsNumbered (letters : List Char) (name : String) (n : Nat) : Prop :=
  ∃ letter ∈ letters, ∃ digits, name.toList = letter :: digits ∧ digits ≠ [] ∧
    digits.all Char.isDigit = true ∧ Nat.ofDigitChars 10 digits 0 = n

/-- Whether there is a temporary with this name. -/
def IsTemporary (name : String) : Prop :=
  (∃ n < 96, IsNumbered ['R', 'r'] name n) ∨ ∃ n < 64, IsNumbered ['H', 'h'] name n

/-- Whether the number of a half temporary fits in 64 bits, but no longer with the offset of these
registers, which is 32. -/
def Overflows (name : String) : Prop :=
  ∃ n, n < 2 ^ 64 ∧ 2 ^ 64 ≤ n + 32 ∧ IsNumbered ['H', 'h'] name n

/-- A name with the form of a temporary, whether there is one or not. -/
def temporary : Phrase :=
  .anyOf fun name => (word name).andThen
    ((Phrase.mentioning (.temporary name)).given (∃ n, IsNumbered ['R', 'r', 'H', 'h'] name n))

def conditionRegisterNames : List String :=
  ["RC", "HC"]

/-- Names that have the form of a register, whether there is one or not.  No parameter has such a
name. -/
def IsReserved (name : String) : Prop :=
  name ∈ conditionRegisterNames ∨ name ∈ ["f", "o", "p"] ∨
    ∃ n, IsNumbered ['R', 'r', 'H', 'h'] name n

def input : Phrase :=
  (mark '[').andThen (.anyOf fun i => (word (inputNames.get i)).andThen (mark ']'))

def output : Phrase :=
  (mark '[').andThen (.anyOf fun i =>
    (word (outputNames.get i)).andThen ((mark ']').andThen (.mentioning (.write i))))

def localParameter : Phrase :=
  (mark '[').andThen ((integerOf (· < 64)).andThen (mark ']'))

/-! ## Operands -/

def target : Phrase :=
  (wordOf (· ∈ conditionRegisterNames)).orElse (((word "o").andThen output).orElse temporary)

def guard : Phrase :=
  (mark '(').andThen (condition.andThen (mark ')'))

def destination : Phrase :=
  target.andThen (mask.optional.andThen guard.optional)

def register : Phrase :=
  ((word "f").andThen input).orElse (((word "p").andThen localParameter).orElse temporary)

def namedConstant : Phrase :=
  .anyOf fun name => (word name).andThen (.mentioning (.use name))

/-- What a source reads: a constant or a register. -/
def base (isConstant : Bool) : Phrase :=
  if isConstant then unsignedNumber.orElse (vector.orElse namedConstant) else register

def vectorSuffix (_ : Bool) : Phrase :=
  swizzle.optional

/-- Only a constant is a scalar without a suffix. -/
def scalarSuffix (isConstant : Bool) : Phrase :=
  if isConstant then component.optional else component

/-- A base with its suffix. -/
def selection (suffix : Bool → Phrase) : Phrase :=
  .anyOf fun isConstant => (base isConstant).andThen (suffix isConstant)

/-- A selection with a sign, or between bars with a sign in front of the bars and one behind the
first bar. -/
def source (suffix : Bool → Phrase) : Phrase :=
  sign.andThen (((mark '|').andThen (sign.andThen ((selection suffix).andThen (mark '|')))).orElse
    (selection suffix))

/-- Whether a name is `TEX` with the number of a unit. -/
def NamesUnit (name : String) (unit : TextureUnit) : Prop :=
  ∃ digits, name.toList = 'T' :: 'E' :: 'X' :: digits ∧ digits ≠ [] ∧
    digits.all Char.isDigit = true ∧ Nat.ofDigitChars 10 digits 0 = unit.val

def image : Phrase :=
  .anyOf fun unit => (wordOf (NamesUnit · unit)).andThen ((mark ',').andThen (.anyOf fun target =>
    (keyword (TextureTarget.name target)).andThen (.mentioning (.sample ⟨unit, target⟩))))

/-! ## Statements -/

/-- As many phrases as `count`, with commas between them. -/
def separated (p : Phrase) : Nat → Phrase
  | 0 => .empty
  | 1 => p
  | count + 2 => p.andThen ((mark ',').andThen (separated p (count + 1)))

def operands : Operands → Phrase
  | .vectors count => separated (source vectorSuffix) count
  | .scalars count => separated (source scalarSuffix) count
  | .lookup vectors =>
    (separated (source vectorSuffix) vectors).andThen ((mark ',').andThen image)
  | .condition => condition

/-- The destination with the comma behind it, if there is one. -/
def destinationOf (writes : Bool) : Phrase :=
  if writes then destination.andThen (mark ',') else .empty

/-- Whether a name is that of a pattern with suffixes that the pattern allows. -/
def IsMnemonic (name : String) (pattern : Pattern) : Prop :=
  pattern ∈ Pattern.table ∧ ∃ suffixes : Suffixes, pattern.suffixes.allows suffixes = true ∧
    name.toList = pattern.name.toList ++ suffixes.chars

def instruction : Phrase :=
  .anyOf fun pattern => (wordOf (IsMnemonic · pattern)).andThen
    ((destinationOf pattern.writes).andThen ((operands pattern.operands).andThen (mark ';')))

/-- The rest of a definition behind its keyword. -/
def parameter (value : Phrase) : Phrase :=
  .anyOf fun name => ((word name).given ¬IsReserved name).andThen
    (value.andThen ((mark ';').andThen (.mentioning (.define name))))

def definedValue : Phrase :=
  (mark '=').andThen constant

def definition : Phrase :=
  ((word "DEFINE").andThen (parameter definedValue)).orElse
    ((word "DECLARE").andThen (parameter definedValue.optional))

/-- Statements up to `END`, behind which nothing is left, with the number of instructions. -/
inductive Statements : List Char → List Mention → Nat → Prop where
  | finish {cs : List Char} (finish : word "END" cs [] []) : Statements cs [] 0
  | definition {cs mid : List Char} {ms more : List Mention} {count : Nat}
    (first : definition cs ms mid) (rest : Statements mid more count) :
    Statements cs (ms ++ more) count
  | instruction {cs mid : List Char} {ms more : List Mention} {count : Nat}
    (first : instruction cs ms mid) (rest : Statements mid more count) :
    Statements cs (ms ++ more) (count + 1)

/-- A text with the header as its first characters. -/
def Derives (source : String) (ms : List Mention) (count : Nat) : Prop :=
  ∃ text cs, source.toList = "!!FP1.0".toList ++ text ∧ Skips text cs ∧ Statements cs ms count

/-! ## Conditions on mentions -/

/-- Whether a mention agrees with those before it.  A name is defined once and before it is used,
not both color results are written, a texture unit has one target, and a temporary exists.  What is
to be the number of a temporary may also overflow. -/
def Mention.Allowed (before : List Mention) : Mention → Prop
  | define name => define name ∉ before
  | use name => define name ∈ before
  | write i => ¬(write .colr ∈ before ++ [write i] ∧ write .colh ∈ before ++ [write i])
  | sample image => ∀ target, sample ⟨image.unit, target⟩ ∈ before → target = image.target
  | temporary name => IsTemporary name ∨ Overflows name

/-- Whether mentions agree with each other and with those before all of them. -/
def Consistent (before : List Mention) : List Mention → Prop
  | [] => True
  | m :: ms => m.Allowed before ∧ Consistent (before ++ [m]) ms

/-- What the grammar derives, if the mentions agree, there is room for the `END`, and some output is
written. -/
def Admits (source : String) (ms : List Mention) : Prop :=
  ∃ count, Derives source ms count ∧ Consistent [] ms ∧ count < maxInstructions ∧
    ∃ i, Mention.write i ∈ ms

/-- The language: what the grammar admits with temporaries that exist. -/
def InLanguage (source : String) : Prop :=
  ∃ ms, Admits source ms ∧ ∀ name, .temporary name ∈ ms → IsTemporary name

/-- What the grammar admits with some number of a temporary that overflows. -/
def InOverflow (source : String) : Prop :=
  ∃ ms, Admits source ms ∧ ∃ name, .temporary name ∈ ms ∧ Overflows name

/-! ## Laws -/

theorem consistent_append {before xs ys : List Mention} :
    Consistent before (xs ++ ys) ↔ Consistent before xs ∧ Consistent (before ++ xs) ys := by
  induction xs generalizing before with
  | nil => rw [List.nil_append, List.append_nil, Consistent, true_and]
  | cons x xs ih =>
    rw [List.cons_append, Consistent, Consistent, ih, List.append_assoc, List.singleton_append,
      and_assoc]

namespace Phrase

theorem empty_andThen (p : Phrase) : empty.andThen p = p := by
  funext cs ms rest
  apply propext
  constructor
  · rintro ⟨_, _, after, ⟨rfl, rfl⟩, hp, rfl⟩
    exact hp
  · intro hp
    exact ⟨cs, [], ms, ⟨rfl, rfl⟩, hp, rfl⟩

theorem andThen_empty (p : Phrase) : p.andThen empty = p := by
  funext cs ms rest
  apply propext
  constructor
  · rintro ⟨_, before, _, hp, ⟨rfl, rfl⟩, rfl⟩
    rw [List.append_nil]
    exact hp
  · intro hp
    exact ⟨rest, ms, [], hp, ⟨rfl, rfl⟩, (List.append_nil ms).symm⟩

@[simp] theorem andThen_never (p : Phrase) : p.andThen never = never :=
  funext fun _ => funext fun _ => funext fun _ =>
    eq_false fun ⟨_, _, _, _, hnever, _⟩ => hnever

theorem andThen_assoc (p q r : Phrase) : (p.andThen q).andThen r = p.andThen (q.andThen r) := by
  funext cs ms rest
  apply propext
  constructor
  · rintro ⟨mid, _, third, ⟨mid', first, second, hp, hq, rfl⟩, hr, rfl⟩
    exact ⟨mid', first, second ++ third, hp, ⟨mid, second, third, hq, hr, rfl⟩,
      List.append_assoc first second third⟩
  · rintro ⟨mid, first, _, hp, ⟨mid', second, third, hq, hr, rfl⟩, rfl⟩
    exact ⟨mid', first ++ second, third, ⟨mid, first, second, hp, hq, rfl⟩, hr,
      (List.append_assoc first second third).symm⟩

@[simp] theorem given_of_true (p : Phrase) : p.given True = p :=
  funext fun _ => funext fun _ => funext fun _ => true_and _

@[simp] theorem given_of_false (p : Phrase) : p.given False = never :=
  funext fun _ => funext fun _ => funext fun _ => false_and _

@[simp] theorem never_orElse (p : Phrase) : never.orElse p = p :=
  funext fun _ => funext fun _ => funext fun _ => false_or _

@[simp] theorem orElse_never (p : Phrase) : p.orElse never = p :=
  funext fun _ => funext fun _ => funext fun _ => or_false _

theorem anyOf_andThen {ι : Type} (p : ι → Phrase) (q : Phrase) :
    (anyOf p).andThen q = anyOf fun x => (p x).andThen q := by
  funext cs ms rest
  apply propext
  constructor
  · rintro ⟨mid, before, after, ⟨x, hp⟩, hq, rfl⟩
    exact ⟨x, mid, before, after, hp, hq, rfl⟩
  · rintro ⟨x, mid, before, after, hp, hq, rfl⟩
    exact ⟨mid, before, after, ⟨x, hp⟩, hq, rfl⟩

/-- A condition on the first phrase can be stated of the second one. -/
theorem given_andThen (p q : Phrase) (condition : Prop) :
    (p.given condition).andThen q = p.andThen (q.given condition) := by
  funext cs ms rest
  apply propext
  constructor
  · rintro ⟨mid, before, after, ⟨hcondition, hp⟩, hq, rfl⟩
    exact ⟨mid, before, after, hp, ⟨hcondition, hq⟩, rfl⟩
  · rintro ⟨mid, before, after, hp, ⟨hcondition, hq⟩, rfl⟩
    exact ⟨mid, before, after, ⟨hcondition, hp⟩, hq, rfl⟩

theorem anyOf_orElse {ι : Type} (p q : ι → Phrase) :
    (anyOf p).orElse (anyOf q) = anyOf fun x => (p x).orElse (q x) := by
  funext cs ms rest
  exact propext exists_or.symm

theorem andThen_orElse (p q r : Phrase) :
    p.andThen (q.orElse r) = (p.andThen q).orElse (p.andThen r) := by
  funext cs ms rest
  apply propext
  constructor
  · rintro ⟨mid, before, after, hp, hq | hr, rfl⟩
    · exact .inl ⟨mid, before, after, hp, hq, rfl⟩
    · exact .inr ⟨mid, before, after, hp, hr, rfl⟩
  · rintro (⟨mid, before, after, hp, hq, rfl⟩ | ⟨mid, before, after, hp, hr, rfl⟩)
    · exact ⟨mid, before, after, hp, .inl hq, rfl⟩
    · exact ⟨mid, before, after, hp, .inr hr, rfl⟩

theorem andThen_anyOf {ι : Type} (p : Phrase) (q : ι → Phrase) :
    p.andThen (anyOf q) = anyOf fun x => p.andThen (q x) := by
  funext cs ms rest
  apply propext
  constructor
  · rintro ⟨mid, before, after, hp, ⟨x, hq⟩, rfl⟩
    exact ⟨x, mid, before, after, hp, hq, rfl⟩
  · rintro ⟨x, mid, before, after, hp, hq, rfl⟩
    exact ⟨mid, before, after, hp, ⟨x, hq⟩, rfl⟩

theorem anyOf_comm {ι κ : Type} (p : ι → κ → Phrase) :
    (anyOf fun x => anyOf (p x)) = anyOf fun y => anyOf fun x => p x y := by
  funext cs ms rest
  exact propext exists_comm

theorem anyOf_given_eq {ι : Type} (p : ι → Phrase) (x : ι) :
    (anyOf fun y => (p y).given (y = x)) = p x := by
  funext cs ms rest
  apply propext
  constructor
  · rintro ⟨_, rfl, hp⟩
    exact hp
  · intro hp
    exact ⟨x, rfl, hp⟩

end Phrase

theorem wordOf_andThen (P : String → Prop) (q : Phrase) :
    (wordOf P).andThen q = .anyOf fun name => (word name).andThen (q.given (P name)) := by
  rw [wordOf, Phrase.anyOf_andThen]
  simp only [Phrase.given_andThen]

theorem wordOf_eq (P : String → Prop) :
    wordOf P = .anyOf fun name => (word name).andThen (Phrase.empty.given (P name)) := by
  rw [← wordOf_andThen, Phrase.andThen_empty]

/-- A fixed word is one of all words. -/
theorem word_andThen (text : String) (q : Phrase) :
    (word text).andThen q = .anyOf fun name => (word name).andThen (q.given (name = text)) := by
  simp only [← Phrase.given_andThen]
  rw [← Phrase.anyOf_andThen, Phrase.anyOf_given_eq]

/-- One of some fixed words is one of all words. -/
theorem anyOf_word_andThen {ι : Type} (text : ι → String) (q : ι → Phrase) :
    (Phrase.anyOf fun x => (word (text x)).andThen (q x)) = Phrase.anyOf fun name =>
      (word name).andThen (.anyOf fun x => (q x).given (name = text x)) := by
  simp only [Phrase.andThen_anyOf]
  rw [Phrase.anyOf_comm]
  simp only [← word_andThen]

end Grammar

end FragmentAssembly

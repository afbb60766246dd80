import FragmentAssembly.Proofs.Text.Bytes
import Mathlib.Data.List.MinMax

/-!
# A lexer in one pass

A lexer goes over the bytes of a text.  It starts its rules where the last match has ended and takes
the longest match, which is passed or gives a token.
-/

namespace FragmentAssembly

/-! ## Rules -/

/-- A match is a first character and the longest run of others behind it. -/
structure Rule where
  first : Char → Bool
  more : Char → Bool
  /-- The token of a match; without one it is passed. -/
  token? : Option (Char → List Char → Token)

namespace Rule

def blanks : Rule :=
  ⟨Token.isBlank, Token.isBlank, none⟩

def comment : Rule :=
  ⟨(· = '#'), (!Token.isLineBreak ·), none⟩

def integer : Rule :=
  ⟨Char.isDigit, Char.isDigit, some fun c cs => .integer (String.ofList (c :: cs))⟩

def identifier : Rule :=
  ⟨Char.isAlpha, Token.isNameChar, some fun c cs => .identifier (String.ofList (c :: cs))⟩

def mark : Rule :=
  ⟨fun c => !(c.isAlphanum || Token.isBlank c || c = '#'), fun _ => false,
    some fun c _ => .punctuation c⟩

def all : List Rule :=
  [blanks, comment, integer, identifier, mark]

/-- The first one of the rules with the longest match. -/
def longest? (c : Char) (cs : List Char) : Option Rule :=
  (all.filter (·.first c)).argmax fun rule => (cs.takeWhile rule.more).length

end Rule

/-- What a lexer finds in the bytes of a text behind `place` others.  A byte that no rule matches is
an error. -/
def scan (place : Nat) : List Char → List (Option Lexeme)
  | [] => []
  | c :: cs =>
    match Rule.longest? c cs with
    | none => none :: scan (place + 1) cs
    | some rule =>
      let stop := place + (c :: cs.takeWhile rule.more).length
      let found := scan stop (cs.dropWhile rule.more)
      match rule.token? with
      | none => found
      | some token => some ⟨token c (cs.takeWhile rule.more), place, stop⟩ :: found
termination_by cs => cs.length
decreasing_by
  · exact Nat.lt_succ_self _
  · exact Nat.lt_succ_of_le (List.dropWhile_suffix _).length_le

/-! ## Matches -/

namespace Rule

variable {c : Char}

theorem longest?_blank (h : Token.isBlank c = true) (cs : List Char) :
    longest? c cs = some blanks := by
  simp only [Token.isBlank, Token.isLineBreak, Bool.or_eq_true, decide_eq_true_eq] at h
  rcases h with (rfl | rfl) | rfl | rfl <;> rfl

theorem longest?_comment (cs : List Char) : longest? '#' cs = some comment :=
  rfl

/-- A visible character matches exactly one rule. -/
theorem longest?_solid {cs : List Char} (h : Token.isSolid (c :: cs) = true) (run : List Char) :
    longest? c run =
      some (if c.isDigit then integer else if c.isAlpha then identifier else mark) := by
  rw [Token.isSolid, List.head?_cons, Option.any_some, Bool.and_eq_true, decide_eq_true_eq,
    Bool.not_eq_true'] at h
  cases hdigit : c.isDigit with
  | true =>
    have halpha : c.isAlpha = false := by
      rw [Bool.eq_false_iff]
      intro halpha
      rw [Token.not_isDigit_of_isAlpha halpha] at hdigit
      cases hdigit
    simp [longest?, all, blanks, comment, integer, identifier, mark, h, hdigit, halpha,
      Char.isAlphanum]
  | false =>
    cases halpha : c.isAlpha <;>
      simp [longest?, all, blanks, comment, integer, identifier, mark, h, hdigit, halpha,
        Char.isAlphanum]

end Rule

/-! ## Runs of matches -/

section Scan

open Token

variable {c : Char} {cs behind : List Char} {rule : Rule}

/-- A match that is passed. -/
theorem scan_passed (place : Nat) {run : List Char}
    (hrule : Rule.longest? c (run ++ behind) = some rule) (htoken : rule.token? = none)
    (hrun : run.all rule.more = true) (hbehind : behind.head?.all (!rule.more ·) = true) :
    scan place (c :: (run ++ behind)) = scan (place + (c :: run).length) behind := by
  rw [scan, hrule]
  dsimp only
  rw [htoken, takeWhile_of_head hrun hbehind, dropWhile_of_head hrun hbehind]

/-- A match that is a token. -/
theorem scan_found (place : Nat) {run : List Char} {token : Char → List Char → Token}
    (hrule : Rule.longest? c (run ++ behind) = some rule) (htoken : rule.token? = some token)
    (hrun : run.all rule.more = true) (hbehind : behind.head?.all (!rule.more ·) = true) :
    scan place (c :: (run ++ behind)) =
      some ⟨token c run, place, place + (c :: run).length⟩ ::
        scan (place + (c :: run).length) behind := by
  rw [scan, hrule]
  dsimp only
  rw [htoken, takeWhile_of_head hrun hbehind, dropWhile_of_head hrun hbehind]

/-- Blanks are passed in runs, which may as well be passed one by one. -/
theorem scan_blank (place : Nat) (h : isBlank c = true) (cs : List Char) :
    scan place (c :: cs) = scan (place + 1) cs := by
  have hrun : ∀ {place : Nat} {c : Char} {run behind : List Char}, isBlank c = true →
      run.all isBlank = true → behind.head?.all (!isBlank ·) = true →
      scan place (c :: (run ++ behind)) = scan (place + (c :: run).length) behind :=
    fun hc hrun hbehind => scan_passed _ (Rule.longest?_blank hc _) rfl hrun hbehind
  have hbehind := head_of_dropWhile isBlank cs
  have hall : (cs.takeWhile isBlank).all isBlank = true := List.all_takeWhile
  rw [← cs.takeWhile_append_dropWhile (p := isBlank)]
  generalize cs.takeWhile isBlank = run at hall
  rw [hrun h hall hbehind]
  cases run with
  | nil => rfl
  | cons d run =>
    rw [List.all_cons, Bool.and_eq_true] at hall
    rw [List.cons_append, hrun hall.1 hall.2 hbehind, List.length_cons, Nat.add_assoc,
      Nat.add_comm 1]

theorem scan_comment (place : Nat) {text : List Char} (htext : isCommentText text = true)
    (hbehind : behind.head?.all isLineBreak = true) :
    scan place ('#' :: (text ++ behind)) = scan (place + ('#' :: text).length) behind := by
  refine scan_passed place (Rule.longest?_comment _) rfl htext ?_
  cases behind with
  | nil => rfl
  | cons c behind =>
    show (!!isLineBreak c) = true
    rw [Bool.not_not]
    exact hbehind

/-- What may stand between two tokens is passed. -/
theorem scan_gap {gap : List Char} (h : IsGap gap) (place : Nat) (cs : List Char) :
    scan place (gap ++ cs) = scan (place + gap.length) cs := by
  induction h generalizing place with
  | nil => rfl
  | blank hblank _ ih =>
    rw [List.cons_append, scan_blank place hblank, ih, List.length_cons, Nat.add_assoc,
      Nat.add_comm 1]
  | @comment text gap c htext hbreak _ ih =>
    have hblank : isBlank c = true := by rw [isBlank, hbreak, Bool.or_true]
    rw [List.cons_append, List.append_assoc, scan_comment place htext (by simpa using hbreak),
      List.cons_append, scan_blank _ hblank, ih]
    congr 1
    simp only [List.length_cons, List.length_append]
    omega

theorem scan_trailing (place : Nat) (h : IsTrailing cs) : scan place cs = [] := by
  have hnil : ∀ place, scan place [] = [] := fun place => by rw [scan]
  cases h with
  | gap h =>
    have hgap := scan_gap h place []
    rwa [List.append_nil, hnil] at hgap
  | @comment gap text h htext =>
    have hcomment := @scan_comment [] (place + gap.length) text htext rfl
    rw [List.append_nil, hnil] at hcomment
    rw [scan_gap h, hcomment]

end Scan

end FragmentAssembly

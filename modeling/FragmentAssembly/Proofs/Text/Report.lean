import FragmentAssembly.Proofs.Text.Location
import Mathlib.Data.List.DropRight
import Mathlib.Data.Prod.Lex

/-!
# Reported places

A location counts the lines in front of a place and the characters in front of it in its own line,
so a place that is further on comes later in the order of lines and columns.  It quotes as much of
what stands behind the place as fits into one line and twenty characters.
-/

namespace FragmentAssembly

namespace Location

/-- Line and column, ordered by the line first. -/
def place (l : Location) : Nat ×ₗ Nat :=
  toLex (l.line, l.column)

/-- What can be quoted: a piece of one line with at most 20 characters. -/
def IsQuotable (cs : List Char) : Prop :=
  '\r' ∉ cs ∧ '\n' ∉ cs ∧ cs.length ≤ 20

/-- The location tells what stands in front of a place, and quotes what stands behind it. -/
structure Describes (l : Location) (before after : List Char) : Prop where
  line : l.line = 1 + before.count '\n'
  column : l.column = 1 + (before.rtakeWhile (· ≠ '\n')).length
  excerpt : l.excerpt.toList <+: after
  quotable : IsQuotable l.excerpt.toList
  longest : ∀ cs, cs <+: after → IsQuotable cs → cs.length ≤ l.excerpt.length

/-! ## Columns -/

theorem foldl_stepOver_concat (cs : List Char) (c : Char) (place : Nat × Nat) :
    (cs ++ [c]).foldl stepOver place = stepOver (cs.foldl stepOver place) c := by
  rw [List.foldl_append, List.foldl_cons, List.foldl_nil]

/-- The column starts anew behind the last line feed. -/
theorem column_foldl_stepOver (cs : List Char) :
    (cs.foldl stepOver (1, 1)).2 = 1 + (cs.rtakeWhile (· ≠ '\n')).length := by
  induction cs using List.reverseRecOn with
  | nil => rfl
  | append_singleton cs c ih =>
    rw [foldl_stepOver_concat, stepOver]
    by_cases hfeed : c = '\n'
    · rw [if_pos hfeed, List.rtakeWhile_concat_neg _ _ _ (by simp [hfeed])]
      rfl
    · rw [if_neg hfeed, List.rtakeWhile_concat_pos _ _ _ (by simp [hfeed]), List.length_append,
        List.length_singleton]
      omega

/-! ## Order -/

theorem lt_stepOver (place : Nat × Nat) (c : Char) : toLex place < toLex (stepOver place c) := by
  rw [Prod.Lex.toLex_lt_toLex, stepOver]
  by_cases hfeed : c = '\n'
  · rw [if_pos hfeed]
    exact .inl (Nat.lt_succ_self _)
  · rw [if_neg hfeed]
    exact .inr ⟨rfl, Nat.lt_succ_self _⟩

theorem le_foldl_stepOver (cs : List Char) (place : Nat × Nat) :
    toLex place ≤ toLex (cs.foldl stepOver place) := by
  induction cs generalizing place with
  | nil => exact le_refl _
  | cons c cs ih => exact (lt_stepOver place c).le.trans (ih (stepOver place c))

/-- Every character that is passed takes the place on. -/
theorem lt_foldl_stepOver {cs : List Char} (h : cs ≠ []) (place : Nat × Nat) :
    toLex place < toLex (cs.foldl stepOver place) := by
  obtain ⟨c, cs, rfl⟩ := List.exists_cons_of_ne_nil h
  exact (lt_stepOver place c).trans_le (le_foldl_stepOver cs (stepOver place c))

/-! ## Excerpts -/

theorem isQuotable_iff {cs : List Char} :
    IsQuotable cs ↔ cs.all (!Token.isLineBreak ·) = true ∧ cs.length ≤ 20 := by
  have hbreaks : cs.all (!Token.isLineBreak ·) = true ↔ '\r' ∉ cs ∧ '\n' ∉ cs := by
    simp only [List.all_eq_true, Token.isLineBreak, Bool.not_eq_true', Bool.or_eq_false_iff,
      decide_eq_false_iff_not]
    constructor
    · intro h
      exact ⟨fun hmem => (h _ hmem).2 rfl, fun hmem => (h _ hmem).1 rfl⟩
    · rintro ⟨hreturn, hfeed⟩ c hc
      exact ⟨fun heq => hfeed (heq ▸ hc), fun heq => hreturn (heq ▸ hc)⟩
  rw [IsQuotable, hbreaks, and_assoc]

theorem isQuotable_take_takeWhile (after : List Char) :
    IsQuotable ((after.takeWhile (!Token.isLineBreak ·)).take 20) := by
  rw [isQuotable_iff]
  constructor
  · rw [List.all_eq_true]
    intro c hc
    exact List.mem_takeWhile_imp (p := (!Token.isLineBreak ·)) (List.mem_of_mem_take hc)
  · rw [List.length_take]
    exact Nat.min_le_left _ _

theorem take_takeWhile_prefix (after : List Char) :
    (after.takeWhile (!Token.isLineBreak ·)).take 20 <+: after :=
  (List.take_prefix _ _).trans (List.takeWhile_prefix _)

/-- No longer beginning of the text can be quoted. -/
theorem length_le_take_takeWhile {cs after : List Char} (hbegins : cs <+: after)
    (hquotable : IsQuotable cs) :
    cs.length ≤ ((after.takeWhile (!Token.isLineBreak ·)).take 20).length := by
  obtain ⟨hline, hlength⟩ := isQuotable_iff.mp hquotable
  obtain ⟨behind, rfl⟩ := hbegins
  rw [List.length_take, List.takeWhile_append_of_pos (List.all_eq_true.mp hline),
    List.length_append]
  omega

/-! ## Positions -/

theorem describes_ofPosition {source : String} {before after : List Char}
    (hsource : source.toList = before ++ after) :
    (ofPosition source (bytes before)).Describes before after := by
  rw [ofPosition, hsource, splitAtByte_append]
  refine ⟨line_foldl_stepOver before (1, 1), column_foldl_stepOver before, ?_, ?_, ?_⟩
  · rw [String.toList_ofList]
    exact take_takeWhile_prefix after
  · rw [String.toList_ofList]
    exact isQuotable_take_takeWhile after
  · intro cs hbegins hquotable
    rw [String.length_ofList]
    exact length_le_take_takeWhile hbegins hquotable

theorem place_ofPosition {source : String} {before after : List Char}
    (hsource : source.toList = before ++ after) :
    (ofPosition source (bytes before)).place = toLex (before.foldl stepOver (1, 1)) := by
  rw [ofPosition, hsource, splitAtByte_append]
  rfl

/-- The text is split at a position between two of its characters. -/
theorem exists_split {source : String} {position : Nat}
    (h : String.Pos.Raw.IsValid source ⟨position⟩) :
    ∃ before after, source.toList = before ++ after ∧ position = bytes before := by
  obtain ⟨before, after, hsource, hposition⟩ := String.Pos.Raw.isValid_iff_exists_append.mp h
  refine ⟨before.toList, after.toList, by rw [hsource, String.toList_append], ?_⟩
  rw [← utf8ByteSize_eq_bytes]
  exact String.Pos.Raw.ext_iff.mp hposition

theorem place_lt {source : String} {p q : Nat} (hp : String.Pos.Raw.IsValid source ⟨p⟩)
    (hq : String.Pos.Raw.IsValid source ⟨q⟩) (hlt : p < q) :
    (ofPosition source p).place < (ofPosition source q).place := by
  obtain ⟨before, after, hsource, rfl⟩ := exists_split hp
  obtain ⟨front, behind, hsource', rfl⟩ := exists_split hq
  obtain ⟨cs, rfl, -⟩ := exists_of_bytes_le (hsource.symm.trans hsource') hlt.le
  have hne : cs ≠ [] := by
    rintro rfl
    rw [List.append_nil] at hlt
    exact hlt.false
  rw [place_ofPosition hsource, place_ofPosition hsource', List.foldl_append]
  exact lt_foldl_stepOver hne _

end Location

/-- An error that lies between two characters is located by what stands in front of it and quotes
what stands behind it.  Of two errors the one that lies further on is located further on, so no two
places have the same line and column. -/
theorem location_faithful (source : String) (e f : ParseError)
    (he : String.Pos.Raw.IsValid source ⟨e.position⟩)
    (hf : String.Pos.Raw.IsValid source ⟨f.position⟩) :
    (∃ before after, source.toList = before ++ after ∧ e.position = bytes before ∧
      (e.location source).Describes before after) ∧
    (e.position < f.position → (e.location source).place < (f.location source).place) ∧
    ((e.location source).place = (f.location source).place → e.position = f.position) := by
  refine ⟨?_, Location.place_lt he hf, fun hsame => ?_⟩
  · obtain ⟨before, after, hsource, hposition⟩ := Location.exists_split he
    refine ⟨before, after, hsource, hposition, ?_⟩
    rw [ParseError.location, hposition]
    exact Location.describes_ofPosition hsource
  · rcases Nat.lt_trichotomy e.position f.position with hlt | heq | hlt
    · exact absurd hsame (Location.place_lt he hf hlt).ne
    · exact heq
    · exact absurd hsame (Location.place_lt hf he hlt).ne'

/-- Behind an accented letter and two kinds of line ends. -/
theorem location_faithful_lines :
    let source := "é\r\nxy\nz"
    let e : ParseError := ⟨.unexpectedToken, 5, []⟩
    let f : ParseError := ⟨.unexpectedToken, 7, []⟩
    String.Pos.Raw.IsValid source ⟨e.position⟩ ∧ String.Pos.Raw.IsValid source ⟨f.position⟩ ∧
      e.location source = ⟨2, 2, "y"⟩ ∧ f.location source = ⟨3, 1, "z"⟩ ∧
      (e.location source).place < (f.location source).place := by
  have he : String.Pos.Raw.IsValid "é\r\nxy\nz" ⟨5⟩ := by decide +kernel
  have hf : String.Pos.Raw.IsValid "é\r\nxy\nz" ⟨7⟩ := by decide +kernel
  refine ⟨he, hf, by decide +kernel, by decide +kernel, ?_⟩
  have hfaithful := location_faithful "é\r\nxy\nz" ⟨.unexpectedToken, 5, []⟩
    ⟨.unexpectedToken, 7, []⟩ he hf
  exact hfaithful.2.1 (by decide)

end FragmentAssembly

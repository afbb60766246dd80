import FragmentAssembly.Proofs.Assembly.Soundness
import FragmentAssembly.Proofs.Reading.Statement

/-!
# Fuel

No action goes back in the text, and every statement takes some of it.  So the fuel that a text
gets for its length is enough, and more of it makes no difference.
-/

namespace FragmentAssembly

open Coupling

theorem Cursor.behind_ignored (k : Cursor) : ∃ i, k.skipIgnored.rest = k.rest.drop i := by
  unfold Cursor.skipIgnored
  split
  · exact ⟨_, Cursor.advance_rest _ k⟩
  · exact ⟨0, rfl⟩

theorem Cursor.behind_item (k : Cursor) (n : Nat) :
    ∃ i, (k.skipIgnored.markToken.advance n).rest = k.rest.drop i := by
  obtain ⟨i, hi⟩ := k.behind_ignored
  refine ⟨n + i, ?_⟩
  rw [Cursor.advance_rest, Cursor.markToken, hi, List.drop_drop, Nat.add_comm]

/-- A run beside itself, with cursors in `P`, and errors in `E`. -/
def Coupling.alone (P : Cursor → Prop) (E : ParseError → Prop) : Coupling ParseError Cursor where
  beside k l := l = k ∧ P k
  alike e _ := E e
  spent := Never
  last := Never

/-- An action that does not leave `P`. -/
theorem Coupling.alone_follows {P : Cursor → Prop} {E : ParseError → Prop} {α : Type} {D : α → Prop}
    {m : Scan α} (hm : ∀ k a l, P k → m k = .ok a l → P l)
    (he : ∀ k e l, P k → m k = .error e l → E e) : (alone P E).Follows Eq D m m := by
  refine ⟨fun k l hkl => ?_, fun _ => False.elim⟩
  obtain ⟨rfl, hk⟩ := hkl
  cases hresult : m l with
  | ok a k => exact .ok rfl ⟨rfl, hm l a k hk hresult⟩
  | error e k => exact .error (he l e k hk hresult)

/-- A run beside itself, with no more than `n` characters left. -/
def Coupling.atMost (n : Nat) : Coupling ParseError Cursor :=
  alone (·.rest.length ≤ n) fun _ => True

/-- An action that does not go back in the text. -/
theorem Coupling.atMost_follows {n : Nat} {α : Type} {D : α → Prop} {m : Scan α}
    (hm : ∀ k a l, m k = .ok a l → ∃ i, l.rest = k.rest.drop i) :
    (atMost n).Follows Eq D m m := by
  refine alone_follows (fun k a l hle h => ?_) fun _ _ _ _ _ => trivial
  obtain ⟨i, hrest⟩ := hm k a l h
  rw [hrest, List.length_drop]
  exact Nat.le_trans (Nat.sub_le _ _) hle

theorem Coupling.abreast_atMost (n : Nat) : (atMost n).Abreast where
  -- an item leaves what stands behind it, and an item that is missed what stands behind the blanks
  alike _ h := h
  last _ h := h
  accept mark _ := by
    apply atMost_follows
    intro k a l h
    simp only [Scan.accept, onRest_eq_ok, EStateM.Result.ok.injEq] at h
    rw [← h.2.2]
    unfold Cursor.accept
    dsimp only
    split
    · exact Cursor.behind_item _ _
    · exact Cursor.behind_ignored _
  acceptWord word _ := by
    apply atMost_follows
    intro k a l h
    simp only [Scan.acceptWord, onRest_eq_ok, EStateM.Result.ok.injEq] at h
    rw [← h.2.2]
    unfold Cursor.acceptWord
    dsimp only
    split
    · exact Cursor.behind_item _ _
    · exact Cursor.behind_ignored _
  peek? := by
    apply atMost_follows
    intro k a l h
    simp only [Scan.peek?, onRest_eq_ok, EStateM.Result.ok.injEq] at h
    exact ⟨0, by rw [← h.2.2]; rfl⟩
  token _ _ _ _ := by
    apply atMost_follows
    intro k t l h
    obtain ⟨-, -, -, rfl⟩ := Scan.wholeToken_eq_ok.mp h
    exact Cursor.behind_item _ _
  number := by
    apply atMost_follows
    intro k a l h
    obtain ⟨-, h⟩ := onRest_eq_ok.mp h
    dsimp only at h
    split at h
    · simp only [EStateM.Result.ok.injEq] at h
      rw [← h.2]
      exact Cursor.behind_item _ _
    · cases h
  fail _ := fun _ _ _ => .error trivial
  failAhead _ := by
    refine ⟨fun k l hkl => ?_, fun _ => False.elim⟩
    obtain ⟨rfl, -⟩ := hkl
    unfold Scan.failAhead Scan.onRest
    split
    · exact .error trivial
    · exact .error trivial

namespace Compile

/-- An action on drafts that goes together with itself keeps what the actions on items keep. -/
theorem kept_of_together {α : Type} {V : α → α → Prop} {D : α → Prop} {m : Compile α}
    (hm : ∀ c : Coupling ParseError Cursor, c.Abreast → c.onDraft.Together V D m m)
    {P : Cursor → Prop} {E : ParseError → Prop} (hkeeps : (alone P E).Abreast) {d e : Draft} {a : α}
    (hd : P d.cursor) (h : m d = .ok a e) : P e.cursor := by
  have hpairs := hm _ hkeeps d d ⟨⟨rfl, hd⟩, rfl⟩
  rw [h] at hpairs
  cases hpairs with
  | ok value state => exact state.1.2
  | spent value state => exact state.elim

/-- It leaves no more than it finds. -/
theorem rest_le_of_together {α : Type} {V : α → α → Prop} {D : α → Prop} {m : Compile α}
    (hm : ∀ c : Coupling ParseError Cursor, c.Abreast → c.onDraft.Together V D m m) {d e : Draft}
    {a : α} (h : m d = .ok a e) : e.cursor.rest.length ≤ d.cursor.rest.length :=
  kept_of_together hm (abreast_atMost d.cursor.rest.length) (Nat.le_refl _) h

/-- A statement begins with the next token, which must be a name. -/
theorem next_of_statementName {k l : Cursor} {name : String}
    (h : statementName k = .ok name l) :
    k.inside = [] ∧ k.next = (some (.identifier name), l) := by
  simp only [statementName, bind_eq_ok, Scan.token?, onRest_eq_ok, EStateM.Result.ok.injEq] at h
  obtain ⟨t, l', ⟨hinside, htoken, rfl⟩, h⟩ := h
  cases t with
  | none => cases h
  | some t =>
    cases t with
    | identifier name =>
      obtain ⟨rfl, rfl⟩ := pure_eq_ok.mp h
      exact ⟨hinside, Prod.ext htoken rfl⟩
    | integer digits => cases h
    | punctuation mark => cases h

theorem rest_lt_of_statementName {k l : Cursor} {name : String}
    (h : statementName k = .ok name l) : l.rest.length < k.rest.length := by
  obtain ⟨hinside, hnext⟩ := next_of_statementName h
  have hlt := Cursor.next_lt (congrArg Prod.fst hnext)
  rw [hnext, hinside] at hlt
  rcases hlt with hlt | ⟨-, hnone⟩
  · exact hlt
  · exact absurd hnone (Nat.not_lt_zero _)

/-- Each statement takes some of the text. -/
theorem rest_lt_of_statement {count : Nat} {d e : Draft} {added : Statement}
    (h : statement count d = .ok added e) : e.cursor.rest.length < d.cursor.rest.length := by
  obtain ⟨-, name, k, hname, hnamed⟩ := named_of_statement h
  have hlt := rest_lt_of_statementName hname
  cases hnamed with
  | definition _ _ read =>
    have hle := rest_le_of_together (fun c hc => together_definition hc _) read
    exact Nat.lt_of_le_of_lt hle hlt
  | finish _ read =>
    have hle := rest_le_of_together (fun c hc => together_finish hc) read
    exact Nat.lt_of_le_of_lt hle hlt
  | instruction _ _ read =>
    have hle := rest_le_of_together (fun c hc => together_instruction hc name) read
    exact Nat.lt_of_le_of_lt hle hlt

/-- More fuel than there are characters makes no difference. -/
theorem statements_of_le {fuel fuel' : Nat} (hle : fuel ≤ fuel') {count : Nat} {d : Draft}
    (hfuel : d.cursor.rest.length < fuel) :
    statements fuel' count d = statements fuel count d := by
  induction fuel generalizing fuel' count d with
  | zero => exact absurd hfuel (Nat.not_lt_zero _)
  | succ fuel ih =>
    obtain ⟨fuel', rfl⟩ : ∃ n, fuel' = n + 1 := ⟨fuel' - 1, by omega⟩
    rw [statements, statements, bind_apply, bind_apply]
    -- the first statement is the same, and leaves less text than there is fuel left
    cases hstatement : statement count d with
    | error e f => rfl
    | ok added e =>
      have hlt := rest_lt_of_statement hstatement
      have hrest : ∀ count, statements fuel' count e = statements fuel count e := fun count =>
        ih (by omega) (by omega)
      cases added with
      | definition => exact hrest count
      | instruction ins =>
        show (statements fuel' (count + 1) >>= _) e = (statements fuel (count + 1) >>= _) e
        rw [bind_apply, bind_apply, hrest]
      | finish ins => rfl

/-- All statements are read abreast.  Where the first text ends behind `END`, the second one may
go on. -/
theorem pairs_statements_of_lt {c : Coupling ParseError Cursor} (h : c.Abreast) {fuel : Nat}
    {d e : Draft} (hde : c.onDraft.beside d e) (hfuel : d.cursor.rest.length < fuel) (count : Nat) :
    c.onDraft.Pairs (List.Forall₂ Instruction.Moved) Always (statements fuel count d)
      (statements fuel count e) := by
  induction fuel generalizing count d e with
  | zero => exact absurd hfuel (Nat.not_lt_zero _)
  | succ fuel ih =>
    apply (together_statement h count d e hde).bind
    · intro a b d' e' hread hab hbeside
      have hlt := rest_lt_of_statement hread
      have hrest := ih hbeside (by omega)
      cases hab with
      | definition => exact hrest count
      | instruction hab =>
        exact (hrest (count + 1)).bind
          (fun _ _ _ _ _ hmore hbeside => .ok (.cons hab hmore) hbeside) fun _ _ => .pure trivial
      | finish hab => exact .ok (.cons hab .nil) hbeside
    · rintro added ⟨ins, rfl⟩
      exact .pure trivial

/-- The statements of two texts that are read abreast, each with the fuel for its own text. -/
theorem pairs_statements {c : Coupling ParseError Cursor} (h : c.Abreast) {d e : Draft}
    (hde : c.onDraft.beside d e) (count : Nat) :
    c.onDraft.Pairs (List.Forall₂ Instruction.Moved) Always
      (statements (d.cursor.rest.length + 1) count d)
      (statements (e.cursor.rest.length + 1) count e) := by
  have hfuel : d.cursor.rest.length <
      max (d.cursor.rest.length + 1) (e.cursor.rest.length + 1) :=
    Nat.lt_of_lt_of_le (Nat.lt_succ_self _) (Nat.le_max_left _ _)
  have hboth := pairs_statements_of_lt h hde hfuel count
  rwa [statements_of_le (Nat.le_max_left _ _) (Nat.lt_succ_self _),
    statements_of_le (Nat.le_max_right _ _) (Nat.lt_succ_self _)] at hboth

end Compile

end FragmentAssembly

import FragmentAssembly.Proofs.Assembly.Basic
import FragmentAssembly.Proofs.Outcome

/-!
# Actions that decide

Reading decides whether a text is accepted.  An action decides a proposition if it succeeds where
the proposition holds, and then as it is said, and fails where it does not hold.
-/

namespace FragmentAssembly

/-! ## Actions on any state -/

structure Decides {ε σ α : Type} (m : EStateM ε σ α) (s : σ) (possible : Prop)
    (post : α → σ → Prop) : Prop where
  success : possible → ∃ a t, m s = .ok a t ∧ post a t
  failure : ¬possible → ∃ e t, m s = .error e t

namespace Decides

variable {ε σ α β : Type} {m : EStateM ε σ α} {f : α → EStateM ε σ β} {s t : σ} {a : α}
  {possible possible' : Prop} {post : α → σ → Prop} {post' : β → σ → Prop}

theorem of_ok (h : m s = .ok a t) (hpost : post a t) : Decides m s True post :=
  ⟨fun _ => ⟨a, t, h, hpost⟩, fun hnot => absurd trivial hnot⟩

/-- What follows decides the rest. -/
theorem bind (h : Decides m s possible post)
    (hf : ∀ a t, post a t → Decides (f a) t possible' post') :
    Decides (m >>= f) s (possible ∧ possible') post' := by
  constructor
  · rintro ⟨hpossible, hpossible'⟩
    obtain ⟨a, t, ha, hpost⟩ := h.success hpossible
    obtain ⟨b, u, hb, hpost'⟩ := (hf a t hpost).success hpossible'
    exact ⟨b, u, bind_eq_ok.mpr ⟨a, t, ha, hb⟩, hpost'⟩
  · intro hnot
    rw [bind_apply]
    by_cases hpossible : possible
    · obtain ⟨a, t, ha, hpost⟩ := h.success hpossible
      rw [ha]
      exact (hf a t hpost).failure fun hpossible' => hnot ⟨hpossible, hpossible'⟩
    · obtain ⟨e, t, he⟩ := h.failure hpossible
      rw [he]
      exact ⟨e, t, rfl⟩

theorem weaken {post' : α → σ → Prop} (h : Decides m s possible post)
    (hpost : ∀ a t, post a t → post' a t) : Decides m s possible post' := by
  refine ⟨fun hpossible => ?_, h.failure⟩
  obtain ⟨a, t, ha, hat⟩ := h.success hpossible
  exact ⟨a, t, ha, hpost a t hat⟩

/-- The construct that an error lies in makes no difference. -/
theorem within {c : Construct} {m : EStateM ParseError σ α} (h : Decides m s possible post) :
    Decides (within c m) s possible post := by
  constructor
  · intro hpossible
    obtain ⟨a, t, ha, hpost⟩ := h.success hpossible
    exact ⟨a, t, within_eq_ok.mpr ha, hpost⟩
  · intro hnot
    obtain ⟨e, t, he⟩ := h.failure hnot
    refine ⟨e.inside c, t, ?_⟩
    unfold FragmentAssembly.within
    rw [he]

end Decides

/-! ## Text in front of the cursor -/

/-- What is left of a text behind the blanks and comments that it begins with. -/
def Token.visible (cs : List Char) : List Char :=
  cs.drop (ignoredLength false cs)

/-- What is to be read next.  Nothing can be read from inside a character, and a blank, which is
ahead nowhere else, stands for that. -/
def Cursor.ahead (k : Cursor) : List Char :=
  if k.inside.isEmpty then Token.visible k.rest else [' ']

/-- A text that begins with neither a blank nor a comment. -/
def Token.isSolid (cs : List Char) : Bool :=
  cs.head?.any fun c => c ≠ '#' && !isBlank c

namespace Token

theorem ignoredLength_of_isSolid {cs : List Char} (h : isSolid cs = true) :
    ignoredLength false cs = 0 := by
  cases cs with
  | nil => rfl
  | cons c cs =>
    simp only [isSolid, List.head?_cons, Option.any_some, Bool.and_eq_true, decide_eq_true_eq,
      Bool.not_eq_true'] at h
    simp only [ignoredLength, Bool.false_eq_true, if_false, h.1, h.2]

theorem visible_of_isSolid {cs : List Char} (h : isSolid cs = true) : visible cs = cs := by
  rw [visible, ignoredLength_of_isSolid h, List.drop_zero]

theorem isSolid_append {cs : List Char} (rest : List Char) (h : isSolid cs = true) :
    isSolid (cs ++ rest) = true := by
  cases cs with
  | nil => cases h
  | cons c cs => exact h

theorem visible_append {cs : List Char} (rest : List Char) (h : isSolid cs = true) :
    visible (cs ++ rest) = cs ++ rest :=
  visible_of_isSolid (isSolid_append rest h)

theorem visible_blank {c : Char} (cs : List Char) (h : isBlank c = true) :
    visible (c :: cs) = visible cs := by
  have hc : c ≠ '#' := by
    rintro rfl
    exact absurd h (by decide)
  simp only [visible, ignoredLength, Bool.false_eq_true, if_false, hc, h, if_true,
    List.drop_succ_cons]

/-- Behind blanks and comments there is neither. -/
theorem ignoredLength_visible (cs : List Char) : ignoredLength false (visible cs) = 0 := by
  -- the state inside a comment occurs on the way, so the induction is over both states
  have hgo : ∀ (comment : Bool) (cs : List Char),
      ignoredLength false (cs.drop (ignoredLength comment cs)) = 0 := by
    intro comment cs
    induction cs generalizing comment with
    | nil => rfl
    | cons c cs ih =>
      cases comment with
      | true =>
        simp only [ignoredLength, if_true, List.drop_succ_cons]
        exact ih _
      | false =>
        simp only [ignoredLength, Bool.false_eq_true, if_false]
        by_cases hcomment : c = '#'
        · simp only [hcomment, if_true, List.drop_succ_cons]
          exact ih _
        · by_cases hblank : isBlank c = true
          · simp only [hcomment, hblank, if_true, if_false, List.drop_succ_cons]
            exact ih _
          · simp only [hcomment, hblank, if_false, List.drop_zero, ignoredLength,
              Bool.false_eq_true]
  exact hgo false cs

theorem visible_visible (cs : List Char) : visible (visible cs) = visible cs := by
  show (visible cs).drop (ignoredLength false (visible cs)) = visible cs
  rw [ignoredLength_visible, List.drop_zero]

end Token

namespace Cursor

variable {k : Cursor}

theorem ahead_of_inside (h : k.inside = []) : k.ahead = Token.visible k.rest := by
  rw [ahead, h, List.isEmpty_nil, if_pos rfl]

theorem visible_ahead (h : k.inside = []) : Token.visible k.ahead = k.ahead := by
  rw [ahead_of_inside h, Token.visible_visible]

/-- A cursor with a text ahead is not inside a character. -/
theorem inside_of_ahead {cs : List Char} (h : k.ahead = Token.visible cs) : k.inside = [] := by
  refine Decidable.byContradiction fun hinside => ?_
  rw [ahead, if_neg (mt List.isEmpty_iff.mp hinside)] at h
  have hnil : Token.visible [' '] = [] := rfl
  rw [h, Token.visible_visible, ← h] at hnil
  cases hnil

/-- Nor is one with any other character than a blank ahead. -/
theorem inside_of_mem {c : Char} (hc : c ≠ ' ') (h : c ∈ k.ahead) : k.inside = [] := by
  refine Decidable.byContradiction fun hinside => hc ?_
  rw [ahead, if_neg (mt List.isEmpty_iff.mp hinside)] at h
  exact List.mem_singleton.mp h

theorem inside_of_isSolid (h : Token.isSolid k.ahead = true) : k.inside = [] := by
  refine Decidable.byContradiction fun hinside => ?_
  rw [ahead, if_neg (mt List.isEmpty_iff.mp hinside)] at h
  cases h

theorem skipIgnored_of_inside (h : k.inside = []) :
    k.skipIgnored = k.advance (Token.ignoredLength false k.rest) := by
  rw [skipIgnored, h, List.isEmpty_nil, if_pos rfl]

theorem skipIgnored_of_isSolid (hinside : k.inside = []) (h : Token.isSolid k.rest = true) :
    k.skipIgnored = k := by
  rw [skipIgnored_of_inside hinside, Token.ignoredLength_of_isSolid h, advance]

theorem rest_skipIgnored (h : k.inside = []) : k.skipIgnored.rest = k.ahead := by
  rw [skipIgnored_of_inside h, advance_rest, ahead_of_inside h]
  rfl

end Cursor

/-! ## Reading of texts -/

/-- In front of the text `cs` the action succeeds exactly if `possible` holds.  It then returns `a`
and leaves `rest`. -/
def Scan.Reads {α : Type} (m : Scan α) (cs : List Char) (possible : Prop) (a : α)
    (rest : List Char) : Prop :=
  ∀ k : Cursor, k.ahead = Token.visible cs →
    Decides m k possible fun b l => b = a ∧ l.ahead = Token.visible rest

namespace Scan.Reads

variable {α β : Type} {m : Scan α} {f : α → Scan β} {cs cs' cs'' : List Char} {a : α} {b : β}
  {possible possible' : Prop}

theorem pure (a : α) (cs : List Char) : Reads (pure a) cs True a cs :=
  fun _ hk => .of_ok rfl ⟨rfl, hk⟩

theorem bind (h : Reads m cs possible a cs') (hf : Reads (f a) cs' possible' b cs'') :
    Reads (m >>= f) cs (possible ∧ possible') b cs'' := by
  intro k hk
  refine (h k hk).bind fun c l hl => ?_
  obtain ⟨rfl, hl⟩ := hl
  exact hf l hl

/-- An action that succeeds for sure can be left out. -/
theorem andThen (h : Reads m cs True a cs') (hf : Reads (f a) cs' possible b cs'') :
    Reads (m >>= f) cs possible b cs'' := by
  have hboth := h.bind hf
  rwa [true_and] at hboth

/-- So can one that succeeds for sure at the end. -/
theorem followedBy (h : Reads m cs possible a cs') (hf : Reads (f a) cs' True b cs'') :
    Reads (m >>= f) cs possible b cs'' := by
  have hboth := h.bind hf
  rwa [and_true] at hboth

theorem within {c : Construct} (h : Reads m cs possible a cs') :
    Reads (within c m) cs possible a cs' :=
  fun k hk => (h k hk).within

theorem blank {c : Char} (hc : Token.isBlank c = true) (h : Reads m cs possible a cs') :
    Reads m (c :: cs) possible a cs' := by
  intro k hk
  rw [Token.visible_blank cs hc] at hk
  exact h k hk

theorem congr_text {cs₁ : List Char} (hcs : Token.visible cs₁ = Token.visible cs)
    (h : Reads m cs possible a cs') : Reads m cs₁ possible a cs' := by
  intro k hk
  exact h k (hk.trans hcs)

end Scan.Reads

/-- In front of the text `cs` and with inventory `i` the action succeeds exactly if `possible`
holds.  It then leaves `rest`, and `post` says what it returns and which inventory it leaves. -/
def Compile.Builds {α : Type} (m : Compile α) (cs : List Char) (i : Inventory) (possible : Prop)
    (rest : List Char) (post : α → Inventory → Prop) : Prop :=
  ∀ d : Draft, d.cursor.ahead = Token.visible cs → d.inventory = i →
    Decides m d possible fun a e => e.cursor.ahead = Token.visible rest ∧ post a e.inventory

namespace Compile.Builds

variable {α β : Type} {m : Compile α} {f : α → Compile β} {cs cs' cs'' rest : List Char}
  {i j : Inventory} {possible possible' : Prop} {post : α → Inventory → Prop}
  {post' : β → Inventory → Prop}

theorem pure {a : α} (h : post a i) (cs : List Char) : Builds (pure a) cs i True cs post := by
  rintro d hd rfl
  exact .of_ok rfl ⟨hd, h⟩

theorem fail {cause : ErrorCause} (h : ¬possible) :
    Builds (liftM (Scan.fail cause : Scan α)) cs i possible rest post :=
  fun _ _ _ => ⟨fun hpossible => absurd hpossible h, fun _ => ⟨_, _, rfl⟩⟩

theorem fail_bind {cause : ErrorCause} (h : ¬possible) :
    Builds (liftM (Scan.fail cause : Scan α) >>= f) cs i possible rest post' :=
  fun _ _ _ => ⟨fun hpossible => absurd hpossible h, fun _ => ⟨_, _, rfl⟩⟩

theorem bind (h : Builds m cs i possible cs' post)
    (hf : ∀ a j, post a j → Builds (f a) cs' j possible' cs'' post') :
    Builds (m >>= f) cs i (possible ∧ possible') cs'' post' := by
  intro d hd hi
  exact (h d hd hi).bind fun a e he => hf a e.inventory he.2 e he.1 rfl

/-- What is read from the text alone leaves the inventory as it is. -/
theorem lift {m : Scan α} {a : α} (h : m.Reads cs possible a cs') :
    Builds (liftM m) cs i possible cs' fun b j => b = a ∧ j = i := by
  rintro d hd rfl
  obtain ⟨hsuccess, hfailure⟩ := h d.cursor hd
  constructor
  · intro hpossible
    obtain ⟨b, l, hl, rfl, hrest⟩ := hsuccess hpossible
    exact ⟨b, _, lift_eq_ok.mpr ⟨l, hl, rfl⟩, hrest, rfl, rfl⟩
  · intro hnot
    obtain ⟨e, l, hl⟩ := hfailure hnot
    exact ⟨e, { d with cursor := l }, by rw [lift_apply, hl]⟩

theorem andThen (h : Builds m cs i True cs' post)
    (hf : ∀ a j, post a j → Builds (f a) cs' j possible cs'' post') :
    Builds (m >>= f) cs i possible cs'' post' := by
  have hboth := h.bind hf
  rwa [true_and] at hboth

theorem followedBy (h : Builds m cs i possible cs' post)
    (hf : ∀ a j, post a j → Builds (f a) cs' j True cs'' post') :
    Builds (m >>= f) cs i possible cs'' post' := by
  have hboth := h.bind hf
  rwa [and_true] at hboth

/-- A text is read, and then the rest is built. -/
theorem read {m : Scan α} {a : α} (h : m.Reads cs True a cs')
    (hf : Builds (f a) cs' i possible cs'' post') :
    Builds (liftM m >>= f) cs i possible cs'' post' := by
  refine (lift h).andThen fun b j hb => ?_
  obtain ⟨rfl, rfl⟩ := hb
  exact hf

/-- The current draft is looked at. -/
theorem look {f : Draft → Compile β}
    (hf : ∀ d : Draft, d.cursor.ahead = Token.visible cs → d.inventory = i →
      Builds (f d) cs i possible cs'' post') :
    Builds (get >>= f) cs i possible cs'' post' := by
  intro d hd hi
  have hsame : (get >>= f) d = f d d := rfl
  obtain ⟨hsuccess, hfailure⟩ := hf d hd hi d hd hi
  rw [← hsame] at hsuccess hfailure
  exact ⟨hsuccess, hfailure⟩

/-- The draft is changed in its inventory at most. -/
theorem change {f : Draft → α × Draft}
    (h : ∀ d : Draft, d.inventory = i →
      (f d).2.cursor = d.cursor ∧ post (f d).1 (f d).2.inventory) :
    Builds (modifyGet f) cs i True cs post := by
  intro d hd hi
  obtain ⟨hcursor, hpost⟩ := h d hi
  exact .of_ok rfl ⟨by rw [hcursor]; exact hd, hpost⟩

theorem weaken {post' : α → Inventory → Prop} (h : Builds m cs i possible cs' post)
    (hpost : ∀ a j, post a j → post' a j) : Builds m cs i possible cs' post' :=
  fun d hd hi => (h d hd hi).weaken fun a e he => ⟨he.1, hpost a e.inventory he.2⟩

theorem within {c : Construct} (h : Builds m cs i possible cs' post) :
    Builds (within c m) cs i possible cs' post :=
  fun d hd hi => (h d hd hi).within

theorem congr_text {cs₁ : List Char} (hcs : Token.visible cs₁ = Token.visible cs)
    (h : Builds m cs i possible cs' post) : Builds m cs₁ i possible cs' post :=
  fun d hd hi => h d (hd.trans hcs) hi

theorem congr_possible (hpossible : possible' ↔ possible) (h : Builds m cs i possible cs' post) :
    Builds m cs i possible' cs' post := by
  rw [propext hpossible]
  exact h

end Compile.Builds

end FragmentAssembly

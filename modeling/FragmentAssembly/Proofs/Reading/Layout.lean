import FragmentAssembly.Proofs.Reading.Lockstep
import FragmentAssembly.Proofs.Text.Gap

/-!
# Layouts

A text is a layout of its chunks, with blanks and comments around them.  All layouts of the same
chunks are compiled alike: to the same program, or to the same error in the same place of a chunk.
-/

namespace FragmentAssembly

/-- A chunk with the blanks and comments in front of it. -/
structure Piece where
  gap : List Char
  chunk : List Char
deriving Inhabited

/-- A text behind its header.  Only the gaps in front of the first chunk and behind the last one
can be empty. -/
structure Layout where
  pieces : List Piece
  last : List Char
  gap : ∀ p ∈ pieces, Token.IsGap p.gap
  chunk : ∀ p ∈ pieces, Token.isChunk p.chunk = true
  apart : ∀ p ∈ pieces.tail, p.gap ≠ []
  trailing : Token.IsTrailing last

namespace Layout

def chunks (l : Layout) : List (List Char) :=
  l.pieces.map Piece.chunk

/-- The text from a piece on. -/
def textFrom (l : Layout) (i : Nat) : List Char :=
  (l.pieces.drop i).flatMap (fun p => p.gap ++ p.chunk) ++ l.last

def text (l : Layout) : List Char :=
  l.textFrom 0

def piece (l : Layout) (i : Nat) : Piece :=
  l.pieces.getD i default

/-- The text before character `n` of chunk `i`. -/
def before (l : Layout) (i n : Nat) : List Char :=
  (l.pieces.take i).flatMap (fun p => p.gap ++ p.chunk) ++
    ((l.piece i).gap ++ (l.piece i).chunk.take n)

/-- The text from character `n` of chunk `i` on. -/
def behind (l : Layout) (i n : Nat) : List Char :=
  (l.piece i).chunk.drop n ++ l.textFrom (i + 1)

end Layout

/-! ## Ends of chunks -/

namespace Token

theorem not_isVisible_of_isBlank {c : Char} (h : isBlank c = true) : isVisible c = false := by
  rw [isVisible, h, Bool.not_true, Bool.and_false]

theorem IsGap.endsChunk {gap : List Char} (h : IsGap gap) (hne : gap ≠ []) (rest : List Char) :
    endsChunk (gap ++ rest) = true := by
  cases h with
  | nil => exact absurd rfl hne
  | @blank c cs hblank _ =>
    rw [List.cons_append, Token.endsChunk, List.head?_cons, Option.all_some,
      not_isVisible_of_isBlank hblank]
    rfl
  | comment _ _ _ => rfl

theorem IsTrailing.endsChunk {cs : List Char} (h : IsTrailing cs) : endsChunk cs = true := by
  have hgap : ∀ {gap : List Char} (rest : List Char), IsGap gap → Token.endsChunk rest = true →
      Token.endsChunk (gap ++ rest) = true := by
    intro gap rest hgap hrest
    by_cases hne : gap = []
    · rw [hne]
      exact hrest
    · exact hgap.endsChunk hne rest
  cases h with
  | gap h =>
    have hends := hgap [] h rfl
    rwa [List.append_nil] at hends
  | comment h _ => exact hgap _ h rfl

end Token

namespace Layout

variable {l l' : Layout} {i n : Nat}

theorem textFrom_of_lt (l : Layout) {i : Nat} (h : i < l.pieces.length) :
    l.textFrom i = (l.piece i).gap ++ ((l.piece i).chunk ++ l.textFrom (i + 1)) := by
  have hpiece : l.piece i = l.pieces[i] := by
    rw [piece, List.getD_eq_getElem?_getD, List.getElem?_eq_getElem h, Option.getD_some]
  rw [textFrom, List.drop_eq_getElem_cons h, List.flatMap_cons, hpiece, textFrom,
    List.append_assoc, List.append_assoc]

theorem textFrom_of_le (l : Layout) {i : Nat} (h : l.pieces.length ≤ i) :
    l.textFrom i = l.last := by
  rw [textFrom, List.drop_eq_nil_of_le h]
  rfl

theorem piece_mem (l : Layout) {i : Nat} (h : i < l.pieces.length) : l.piece i ∈ l.pieces := by
  rw [piece, List.getD_eq_getElem?_getD, List.getElem?_eq_getElem h, Option.getD_some]
  exact List.getElem_mem h

/-- Behind a chunk there is a gap, or nothing visible. -/
theorem endsChunk_textFrom (l : Layout) (i : Nat) :
    Token.endsChunk (l.textFrom (i + 1)) = true := by
  by_cases h : i + 1 < l.pieces.length
  · have hne : (l.piece (i + 1)).gap ≠ [] := by
      apply l.apart
      rw [piece, List.getD_eq_getElem?_getD, ← List.getElem?_tail]
      have hi : i < l.pieces.tail.length := by
        rw [List.length_tail]
        omega
      rw [List.getElem?_eq_getElem hi, Option.getD_some]
      exact List.getElem_mem hi
    rw [l.textFrom_of_lt h]
    exact (l.gap _ (l.piece_mem h)).endsChunk hne _
  · rw [l.textFrom_of_le (Nat.le_of_not_lt h)]
    exact l.trailing.endsChunk

/-- A place in a chunk splits the text. -/
theorem before_append_behind (l : Layout) {i : Nat} (h : i < l.pieces.length) (n : Nat) :
    l.before i n ++ l.behind i n = l.text := by
  have hsplit : l.text =
      (l.pieces.take i).flatMap (fun p => p.gap ++ p.chunk) ++ l.textFrom i := by
    rw [text, textFrom, textFrom, List.drop_zero, ← List.append_assoc, ← List.flatMap_append,
      List.take_append_drop]
  rw [hsplit, l.textFrom_of_lt h, before, behind, List.append_assoc, List.append_assoc,
    ← List.append_assoc ((l.piece i).chunk.take n), List.take_append_drop]

theorem length_eq (hchunks : l'.chunks = l.chunks) : l'.pieces.length = l.pieces.length := by
  have hlength := congrArg List.length hchunks
  rwa [chunks, chunks, List.length_map, List.length_map] at hlength

theorem chunk_eq (hchunks : l'.chunks = l.chunks) (i : Nat) :
    (l'.piece i).chunk = (l.piece i).chunk := by
  have hpiece : ∀ k : Layout, (k.piece i).chunk = (k.chunks[i]?).getD [] := by
    intro k
    rw [piece, List.getD_eq_getElem?_getD, chunks, List.getElem?_map]
    cases k.pieces[i]? with
    | none => rfl
    | some p => rfl
  rw [hpiece, hpiece, hchunks]

/-! ## Lockstep -/

/-- What can be left of both texts: the same part of a chunk with what is behind it, or everything
from a piece on, or nothing. -/
inductive Left (l l' : Layout) : List Char → List Char → Prop where
  | behind {i n : Nat} (h : i < l.pieces.length) (hn : n ≤ (l.piece i).chunk.length) :
    Left l l' (l.behind i n) (l'.behind i n)
  | pieces (i : Nat) : Left l l' (l.textFrom i) (l'.textFrom i)
  | nothing : Left l l' [] []

/-- What can follow at corresponding places. -/
inductive Facing (l l' : Layout) : List Char → List Char → Prop where
  | behind {i n : Nat} (h : i < l.pieces.length) (hn : n < (l.piece i).chunk.length) :
    Facing l l' (l.behind i n) (l'.behind i n)
  | nothing : Facing l l' [] []

/-- Both texts go on with the same chunk. -/
def Ahead (l l' : Layout) (cs cs' : List Char) : Prop :=
  ∃ a r r', Token.visible cs = a ++ r ∧ Token.visible cs' = a ++ r' ∧ Token.Chunk a r r' ∧
    Facing l l' (a ++ r) (a ++ r') ∧
    ∀ n ≤ a.length, Left l l' ((a ++ r).drop n) ((a ++ r').drop n)

/-- In the middle of a chunk both texts go on with what is left of it. -/
theorem ahead_behind (hchunks : l'.chunks = l.chunks) (h : i < l.pieces.length)
    (hn : n < (l.piece i).chunk.length) :
    Ahead l l' (l.behind i n) (l'.behind i n) := by
  have hchunk := chunk_eq hchunks i
  have hvisible : ((l.piece i).chunk.drop n).all Token.isVisible = true := by
    have hall := l.chunk _ (l.piece_mem h)
    rw [Token.isChunk, Bool.and_eq_true, List.all_eq_true] at hall
    rw [List.all_eq_true]
    exact fun c hc => hall.2 c (List.mem_of_mem_drop hc)
  have hne : (l.piece i).chunk.drop n ≠ [] := by
    rw [ne_eq, List.drop_eq_nil_iff]
    omega
  -- the chunk ends in both texts, and what is behind it may differ
  have hends := l.endsChunk_textFrom i
  have hends' := l'.endsChunk_textFrom i
  refine ⟨(l.piece i).chunk.drop n, l.textFrom (i + 1), l'.textFrom (i + 1), ?_, ?_,
    ⟨hvisible, hends, hends', fun hnil => absurd hnil hne⟩, ?_, ?_⟩
  · exact Token.visible_of_endsChunk hvisible (.inl hne)
  · rw [behind, hchunk]
    exact Token.visible_of_endsChunk hvisible (.inl hne)
  · have hfacing : Facing l l' _ _ := .behind h hn
    rwa [behind, behind, hchunk] at hfacing
  · intro m hm
    rw [List.length_drop] at hm
    have hsum : n + m ≤ (l.piece i).chunk.length := by omega
    have hleft : Left l l' _ _ := .behind h hsum
    rw [behind, behind, hchunk, ← List.drop_drop] at hleft
    rwa [List.drop_append_of_le_length (by rw [List.length_drop]; exact hm),
      List.drop_append_of_le_length (by rw [List.length_drop]; exact hm)]

/-- Gaps in front of the same chunk are passed. -/
theorem ahead_pieces (hchunks : l'.chunks = l.chunks) (i : Nat) :
    Ahead l l' (l.textFrom i) (l'.textFrom i) := by
  have hlength := length_eq hchunks
  by_cases h : i < l.pieces.length
  · have h' : i < l'.pieces.length := by omega
    have hpos : 0 < (l.piece i).chunk.length := by
      have hchunk := l.chunk _ (l.piece_mem h)
      rw [Token.isChunk, Bool.and_eq_true, Bool.not_eq_true', List.isEmpty_eq_false_iff] at hchunk
      exact List.length_pos_iff.mpr hchunk.1
    have hpassed : ∀ k : Layout, i < k.pieces.length →
        Token.visible (k.textFrom i) = Token.visible (k.behind i 0) := by
      intro k hk
      rw [k.textFrom_of_lt hk, (k.gap _ (k.piece_mem hk)).visible_append]
      rfl
    unfold Ahead
    rw [hpassed l h, hpassed l' h']
    exact ahead_behind hchunks h hpos
  · have hlast : ∀ k : Layout, k.pieces.length ≤ i → Token.visible (k.textFrom i) = [] := by
      intro k hk
      rw [k.textFrom_of_le hk]
      exact k.trailing.visible_eq_nil
    unfold Ahead
    rw [hlast l (by omega), hlast l' (by omega)]
    exact ⟨[], [], [], rfl, rfl, ⟨rfl, rfl, rfl, fun _ => ⟨rfl, rfl⟩⟩, .nothing,
      fun n _ => by rw [List.append_nil, List.drop_nil]; exact .nothing⟩

theorem ahead_of_left (hchunks : l'.chunks = l.chunks) {cs cs' : List Char}
    (h : Left l l' cs cs') : Ahead l l' cs cs' := by
  cases h with
  | @behind i n h hn =>
    by_cases hlt : n < (l.piece i).chunk.length
    · exact ahead_behind hchunks h hlt
    · -- at the end of a chunk the next piece comes
      have hdrop : ∀ k : Layout, (k.piece i).chunk = (l.piece i).chunk →
          k.behind i n = k.textFrom (i + 1) := by
        intro k hk
        rw [behind, hk, List.drop_eq_nil_of_le (by omega), List.nil_append]
      rw [hdrop l rfl, hdrop l' (chunk_eq hchunks i)]
      exact ahead_pieces hchunks (i + 1)
  | pieces i => exact ahead_pieces hchunks i
  | nothing => exact ⟨[], [], [], rfl, rfl, ⟨rfl, rfl, rfl, fun _ => ⟨rfl, rfl⟩⟩, .nothing,
      fun n _ => by rw [List.append_nil, List.drop_nil]; exact .nothing⟩

/-- Layouts of the same chunks behind a header. -/
def lockstep (hchunks : l'.chunks = l.chunks) (header : List Char) : Lockstep where
  rest := Left l l'
  mark := Facing l l'
  loose := False
  size := bytes (header ++ l.text)
  size' := bytes (header ++ l'.text)
  ahead h := .inr (ahead_of_left hchunks h)

/-- The same character of the same chunk, or both ends, or both beginnings. -/
inductive SamePlace (header : List Char) (l l' : Layout) : Nat → Nat → Prop where
  | beginning : SamePlace header l l' 0 0
  | character {i n : Nat} (h : i < l.pieces.length) (hn : n < (l.piece i).chunk.length) :
    SamePlace header l l' (bytes (header ++ l.before i n)) (bytes (header ++ l'.before i n))
  | ending : SamePlace header l l' (bytes (header ++ l.text)) (bytes (header ++ l'.text))

theorem samePlace_of_place (hchunks : l'.chunks = l.chunks) {header : List Char} {p p' : Nat}
    (h : (lockstep hchunks header).Place p p') : SamePlace header l l' p p' := by
  rcases h with ⟨rfl, rfl⟩ | ⟨cs, cs', hfacing, hp, hp'⟩
  · exact .beginning
  · change p + bytes cs = bytes (header ++ l.text) at hp
    change p' + bytes cs' = bytes (header ++ l'.text) at hp'
    cases hfacing with
    | @behind i n h hn =>
      have h' : i < l'.pieces.length := by rw [length_eq hchunks]; exact h
      rw [← l.before_append_behind h n, ← List.append_assoc, bytes_append] at hp
      rw [← l'.before_append_behind h' n, ← List.append_assoc, bytes_append] at hp'
      obtain rfl := Nat.add_right_cancel hp
      obtain rfl := Nat.add_right_cancel hp'
      exact .character h hn
    | nothing =>
      obtain rfl : p = _ := hp
      obtain rfl : p' = _ := hp'
      exact .ending

end Layout

/-- What a text begins with: the header, or something that what follows does not complete to
one. -/
inductive BeginsWith (text : List Char) : List Char → Prop where
  | header : BeginsWith text "!!FP1.0".toList
  | other {cs : List Char} (hno : (headerTests cs).1 = false)
    (hsame : headerTests (cs ++ text) = headerTests cs) : BeginsWith text cs

/-- The layout does not matter: texts of the same chunks behind the same beginning are compiled to
programs that differ in nothing but the text and the positions of instructions, or they fail with
the same error in the same place. -/
theorem compile_layout {s s' : String} {header : List Char} {l l' : Layout}
    (hs : s.toList = header ++ l.text) (hs' : s'.toList = header ++ l'.text)
    (hchunks : l'.chunks = l.chunks) (hheader : BeginsWith l.text header)
    (hheader' : BeginsWith l'.text header) :
    (∃ p p', compile s = .ok p ∧ compile s' = .ok p' ∧ p.Moved p') ∨
      ∃ e e', compile s = .error e ∧ compile s' = .error e' ∧ e'.cause = e.cause ∧
        e'.constructs = e.constructs ∧
        Layout.SamePlace header l l' e.position e'.position := by
  have hsize : (Layout.lockstep hchunks header).size = s.utf8ByteSize := by
    rw [utf8ByteSize_eq_bytes, hs]
    rfl
  have hsize' : (Layout.lockstep hchunks header).size' = s'.utf8ByteSize := by
    rw [utf8ByteSize_eq_bytes, hs']
    rfl
  have htests : headerTests s'.toList = headerTests s.toList := by
    rw [hs, hs']
    cases hheader with
    | header =>
      -- the header of a combiner program does not begin in the same way
      rfl
    | other hno hsame =>
      cases hheader' with
      | header => cases hno
      | other _ hsame' => rw [hsame, hsame']
  have hrest : (headerTests s.toList).1 = true →
      (Layout.lockstep hchunks header).rest (s.toList.drop 7) (s'.toList.drop 7) := by
    rw [hs, hs']
    intro htest
    cases hheader with
    | header => exact .pieces 0
    | other hno hsame =>
      rw [hsame, hno] at htest
      cases htest
  rcases Lockstep.compile_cases hsize hsize' htests hrest (.inr .nothing) with
    hprograms | ⟨e, e', he, he', hcause, hconstructs, hplace⟩ | ⟨hloose, -⟩
  · exact .inl hprograms
  · exact .inr ⟨e, e', he, he', hcause, hconstructs, Layout.samePlace_of_place hchunks hplace⟩
  · exact hloose.elim

/-- The chunks of a program on one line. -/
def copyOnLine : Layout where
  pieces := [⟨[' '], "MOV".toList⟩, ⟨[' '], "o[COLR],".toList⟩, ⟨[' '], "f[COL0];".toList⟩,
    ⟨[' '], "END".toList⟩]
  last := []
  gap := by decide
  chunk := by decide
  apart := by decide
  trailing := by decide

/-- The same chunks with comments and lines, the first one right behind the header. -/
def copyOnLines : Layout where
  pieces := [⟨[], "MOV".toList⟩, ⟨"# copy\n".toList, "o[COLR],".toList⟩,
    ⟨"\t".toList, "f[COL0];".toList⟩, ⟨"\r\n # \r".toList, "END".toList⟩]
  last := " # done".toList
  gap := by decide
  chunk := by decide
  apart := by decide
  trailing := by decide

theorem compile_layout_copy :
    copyOnLines.chunks = copyOnLine.chunks ∧
      ∃ p p', compile "!!FP1.0 MOV o[COLR], f[COL0]; END" = .ok p ∧
        compile "!!FP1.0MOV# copy\no[COLR],\tf[COL0];\r\n # \rEND # done" = .ok p' ∧
        p.Moved p' := by
  refine ⟨rfl, ?_⟩
  have hs : "!!FP1.0 MOV o[COLR], f[COL0]; END".toList =
      "!!FP1.0".toList ++ copyOnLine.text := by decide +kernel
  have hs' : "!!FP1.0MOV# copy\no[COLR],\tf[COL0];\r\n # \rEND # done".toList =
      "!!FP1.0".toList ++ copyOnLines.text := by decide +kernel
  rcases compile_layout hs hs' rfl .header .header with hprograms | ⟨e, e', he, -⟩
  · exact hprograms
  · have haccepted : (compile "!!FP1.0 MOV o[COLR], f[COL0]; END").isOk = true := by decide +kernel
    rw [he] at haccepted
    cases haccepted

end FragmentAssembly

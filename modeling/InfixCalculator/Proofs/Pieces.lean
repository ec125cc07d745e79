import InfixCalculator.Proofs.Numerals
import InfixCalculator.Proofs.Spans
import InfixCalculator.Token

namespace InfixCalculator

namespace Lexeme

theorem first?_isPrefix {t text : Text} {l : Lexeme} (found : first? t = some (l, text)) :
    text <+: t := by
  cases found_of_first? found with
  | number scanned => exact Numeral.scan?_isPrefix scanned
  | mark => simp
  | word _ _ _ stands => exact List.isPrefixOf_iff_prefix.mp stands
  | space => exact List.takeWhile_prefix _

theorem hole_isPrefix (t : Text) : hole t <+: t := by
  induction t with
  | nil => exact List.nil_prefix
  | cons c rest ih =>
    unfold hole
    split
    · exact List.nil_prefix
    · exact List.cons_prefix_cons.mpr ⟨rfl, ih⟩

end Lexeme

namespace Piece

theorem next?_ne_nil {t text : Text} {l : Option Lexeme} (found : next? t = some (l, text)) :
    text ≠ [] := by
  intro empty
  have shorter := next?_shortens found
  simp [empty] at shorter

theorem next?_of_first? {t text : Text} {l : Lexeme} (found : Lexeme.first? t = some (l, text)) :
    next? t = some (some l, text) := by
  cases t with
  | nil => exact absurd (List.prefix_nil.mp (Lexeme.first?_isPrefix found)) (Lexeme.first?_ne_nil found)
  | cons c rest => simp [next?, found]

theorem next?_lexeme {t text : Text} {l : Lexeme} (found : next? t = some (some l, text)) :
    Lexeme.first? t = some (l, text) := by
  cases t with
  | nil => cases found
  | cons c rest =>
    simp only [next?] at found
    split at found
    · next starts => cases found; exact starts
    · cases found

theorem next?_hole {t text : Text} (found : next? t = some (none, text)) :
    Lexeme.first? t = none ∧ text = Lexeme.hole t := by
  cases t with
  | nil => cases found
  | cons c rest =>
    simp only [next?] at found
    split at found
    · cases found
    · next stuck => cases found; exact ⟨stuck, rfl⟩

theorem next?_isPrefix {t text : Text} {l : Option Lexeme} (found : next? t = some (l, text)) :
    text <+: t := by
  cases l with
  | some l => exact Lexeme.first?_isPrefix (next?_lexeme found)
  | none =>
    obtain ⟨_, rfl⟩ := next?_hole found
    exact Lexeme.hole_isPrefix t

inductive Cut : (start : Nat) → Text → List Piece → Prop
  | nil : Cut start [] []
  | cons : next? (taken ++ rest) = some (l, taken) → Cut (start + Text.byteLength taken) rest pieces →
      Cut start (taken ++ rest) (⟨start, taken, l⟩ :: pieces)

variable {start : Nat} {t : Text} {pieces first last : List Piece} {piece : Piece}

theorem split_nil (start : Nat) : split start [] = [] := by
  rw [split]
  rfl

theorem split_cons (start : Nat) {taken rest : Text} {l : Option Lexeme}
    (found : next? (taken ++ rest) = some (l, taken)) :
    split start (taken ++ rest) = ⟨start, taken, l⟩ :: split (start + taken.byteLength) rest := by
  rw [split]
  split
  · next none => rw [none] at found; cases found
  · next other => rw [other] at found; cases found; simp

theorem split_cut (start : Nat) (t : Text) : Cut start t (split start t) := by
  induction length : t.length using Nat.strongRecOn generalizing start t with
  | ind n ih =>
    cases found : next? t with
    | none =>
      cases t with
      | nil => rw [split_nil]; exact .nil
      | cons c rest =>
        simp only [next?] at found
        split at found <;> cases found
    | some piece =>
      obtain ⟨l, taken⟩ := piece
      obtain ⟨rest, rfl⟩ := next?_isPrefix found
      have shorter := next?_shortens found
      simp only [List.drop_left] at shorter
      rw [split_cons start found]
      exact .cons found (ih rest.length (by omega) _ rest rfl)

theorem Cut.split_eq (cut : Cut start t pieces) : split start t = pieces := by
  induction cut with
  | nil => exact split_nil _
  | cons found _ ih => rw [split_cons _ found, ih]

theorem Cut.ne_nil (cut : Cut start t pieces) : ∀ piece ∈ pieces, piece.text ≠ [] := by
  induction cut with
  | nil => simp
  | cons found _ ih =>
    intro piece member
    rcases List.mem_cons.mp member with rfl | later
    · exact next?_ne_nil found
    · exact ih piece later

theorem Cut.behind (cut : Cut start t (first ++ last)) :
    ∃ rest, t = first.flatMap text ++ rest ∧
      Cut (start + Text.byteLength (first.flatMap text)) rest last := by
  induction first generalizing start t with
  | nil => exact ⟨t, rfl, cut⟩
  | cons head first ih =>
    cases cut with
    | cons found tail =>
      obtain ⟨rest, rfl, behind⟩ := ih tail
      refine ⟨rest, by simp, ?_⟩
      rw [List.flatMap_cons, Text.byteLength_append, ← Nat.add_assoc]
      exact behind

theorem Cut.located (cut : Cut start t (first ++ piece :: last)) :
    ∃ before after, t = before ++ piece.text ++ after ∧
      piece.position = start + before.byteLength := by
  obtain ⟨rest, rfl, behind⟩ := cut.behind
  cases behind with
  | @cons taken rest => exact ⟨first.flatMap text, rest, by simp, rfl⟩

theorem Cut.whole (cut : Cut start t pieces) : pieces.flatMap text = t := by
  induction cut with
  | nil => rfl
  | cons _ _ ih => rw [List.flatMap_cons, ih]

theorem Cut.start_le (cut : Cut start t pieces) (listed : piece ∈ pieces) :
    start ≤ piece.position := by
  obtain ⟨first, last, rfl⟩ := List.append_of_mem listed
  obtain ⟨before, after, _, position⟩ := cut.located
  omega

def moved (k : Nat) (piece : Piece) : Piece := { piece with position := piece.position + k }

theorem Cut.moved (cut : Cut start t pieces) (k : Nat) :
    Cut (start + k) t (pieces.map (Piece.moved k)) := by
  induction cut with
  | nil => exact .nil
  | cons found _ ih =>
    rw [Nat.add_right_comm] at ih
    exact .cons found ih

theorem split_add (start k : Nat) (t : Text) :
    split (start + k) t = (split start t).map (moved k) :=
  ((split_cut start t).moved k).split_eq

theorem lexeme_of_covered (covered : piece.isHole = false) : ∃ l, piece.lexeme? = some l := by
  simpa [isHole, ← Option.isSome_iff_exists] using covered

theorem check_ok_iff {t : Text} :
    check t = .ok () ↔ ∀ piece ∈ split 0 t, piece.isHole = false := by
  have covered : firstHole? t = none ↔ ∀ piece ∈ split 0 t, piece.isHole = false := by
    simp [firstHole?]
  rw [← covered, check]
  cases firstHole? t <;> simp

end Piece

namespace Token

def edgeAfter (edge : Bool) (tokens : List Token) : Bool :=
  (tokens.getLast?.map (·.kind.leavesEdge)).getD edge

def AtEdge (before : List Token) : Prop :=
  ∀ last ∈ before.getLast?, ∃ o, last.kind = .operator o ∧ o ≠ .closeParen

theorem atEdge_iff (before : List Token) : AtEdge before ↔ edgeAfter true before = true := by
  unfold AtEdge edgeAfter
  cases before.getLast? with
  | none => simp
  | some last => cases kind : last.kind <;> simp [TokenKind.leavesEdge, kind]

instance (before : List Token) : Decidable (AtEdge before) :=
  decidable_of_iff _ (atEdge_iff before).symm

theorem edgeAfter_cons (edge : Bool) (t : Token) (tokens : List Token) :
    edgeAfter edge (t :: tokens) = edgeAfter t.kind.leavesEdge tokens := by
  cases tokens <;> simp [edgeAfter, List.getLast?_cons]

theorem ofPieces_middle {edge : Bool} {pieces : List Piece} {before after : List Token} {token : Token}
    (parts : ofPieces edge pieces = before ++ token :: after) :
    ∃ piece ∈ pieces, token.text = piece.text ∧ token.position = piece.position ∧
      ∃ l, piece.lexeme? = some l ∧
        Lexeme.kind? (edgeAfter edge before) piece.text l = some token.kind := by
  induction pieces generalizing edge before with
  | nil => simp [ofPieces] at parts
  | cons piece rest ih =>
    unfold ofPieces at parts
    split at parts
    · next kind counts =>
      cases before with
      | nil =>
        cases parts
        obtain ⟨l, found, counts⟩ := Option.bind_eq_some_iff.mp counts
        exact ⟨piece, List.mem_cons_self, rfl, rfl, l, found, counts⟩
      | cons first before =>
        rw [List.cons_append, List.cons.injEq] at parts
        obtain ⟨same, behind⟩ := parts
        obtain ⟨other, listed, text, position, l, found, counts⟩ := ih behind
        rw [edgeAfter_cons, ← same]
        exact ⟨other, List.mem_cons_of_mem _ listed, text, position, l, found, counts⟩
    · obtain ⟨other, listed, found⟩ := ih parts
      exact ⟨other, List.mem_cons_of_mem _ listed, found⟩

theorem mem_ofPieces {edge : Bool} {pieces : List Piece} {token : Token}
    (member : token ∈ ofPieces edge pieces) :
    ∃ piece ∈ pieces, token.text = piece.text ∧ token.position = piece.position ∧
      ∃ edge l, piece.lexeme? = some l ∧ Lexeme.kind? edge piece.text l = some token.kind := by
  obtain ⟨before, after, parts⟩ := List.append_of_mem member
  obtain ⟨piece, listed, text, position, found⟩ := ofPieces_middle parts
  exact ⟨piece, listed, text, position, edgeAfter edge before, found⟩

theorem ofPieces_append (edge : Bool) (first second : List Piece) :
    ofPieces edge (first ++ second) =
      ofPieces edge first ++ ofPieces (edgeAfter edge (ofPieces edge first)) second := by
  induction first generalizing edge with
  | nil => rfl
  | cons piece rest ih =>
    simp only [List.cons_append, ofPieces]
    split
    · rw [ih, List.cons_append, edgeAfter_cons]
    · exact ih edge

def moved (k : Nat) (t : Token) : Token := { t with position := t.position + k }

theorem ofPieces_moved (edge : Bool) (k : Nat) (pieces : List Piece) :
    ofPieces edge (pieces.map (Piece.moved k)) = (ofPieces edge pieces).map (moved k) := by
  induction pieces generalizing edge with
  | nil => rfl
  | cons piece rest ih =>
    cases counts : piece.lexeme?.bind (Lexeme.kind? edge piece.text) with
    | some kind =>
      simp only [List.map_cons, ofPieces, Piece.moved, counts, ih]
      rfl
    | none => simp only [List.map_cons, ofPieces, Piece.moved, counts, ih]

-- Lexemes cover the text, and these are the tokens among them.
structure Reads (edge : Bool) (start : Nat) (t : Text) (tokens : List Token) : Prop where
  covered : ∀ piece ∈ Piece.split start t, piece.isHole = false
  listed : ofPieces edge (Piece.split start t) = tokens

theorem tokenize_eq_ok_iff {t : Text} {tokens : List Token} :
    tokenize t = .ok tokens ↔ Reads true 0 t tokens := by
  cases checked : Piece.check t with
  | ok =>
    simp only [tokenize, checked, Except.ok.injEq]
    exact ⟨fun same => ⟨Piece.check_ok_iff.mp checked, same⟩, fun reads => reads.listed⟩
  | error span =>
    simp only [tokenize, checked, reduceCtorEq, false_iff]
    intro reads
    rw [Piece.check_ok_iff.mpr reads.covered] at checked
    cases checked

variable {edge : Bool} {start : Nat} {t : Text} {tokens : List Token}

theorem reads_nil : Reads edge start [] [] :=
  ⟨by simp [Piece.split_nil], by simp [Piece.split_nil, ofPieces]⟩

theorem Reads.cons {taken rest : Text} {l : Lexeme}
    (found : Lexeme.first? (taken ++ rest) = some (l, taken))
    (reads : Reads (((l.kind? edge taken).map TokenKind.leavesEdge).getD edge)
      (start + taken.byteLength) rest tokens) :
    Reads edge start (taken ++ rest)
      (((l.kind? edge taken).map fun kind => ⟨taken, start, kind⟩).toList ++ tokens) := by
  have whole := Piece.split_cons start (Piece.next?_of_first? found)
  refine ⟨?_, ?_⟩
  · intro piece member
    rcases List.mem_cons.mp (whole ▸ member) with rfl | later
    · rfl
    · exact reads.covered piece later
  · rw [whole, ofPieces, ← reads.listed]
    cases counts : l.kind? edge taken <;> simp [counts]

theorem Reads.token {taken rest : Text} {l : Lexeme} {kind : TokenKind}
    (found : Lexeme.first? (taken ++ rest) = some (l, taken)) (counts : l.kind? edge taken = some kind)
    (reads : Reads kind.leavesEdge (start + taken.byteLength) rest tokens) :
    Reads edge start (taken ++ rest) (⟨taken, start, kind⟩ :: tokens) := by
  have whole := @Reads.cons edge start tokens taken rest l found
  simp only [counts, Option.map_some, Option.getD_some, Option.toList_some] at whole
  exact whole reads

theorem reads_skip_iff {taken rest : Text} {l : Lexeme}
    (found : Lexeme.first? (taken ++ rest) = some (l, taken)) (passed : l.kind? edge taken = none) :
    Reads edge start (taken ++ rest) tokens ↔ Reads edge (start + taken.byteLength) rest tokens := by
  constructor
  · rintro ⟨covered, listed⟩
    rw [Piece.split_cons start (Piece.next?_of_first? found)] at covered listed
    rw [ofPieces, Option.bind_some, passed] at listed
    exact ⟨fun piece member => covered piece (List.mem_cons_of_mem _ member), listed⟩
  · intro reads
    have whole := @Reads.cons edge start tokens taken rest l found
    simp only [passed, Option.map_none, Option.getD_none, Option.toList_none] at whole
    exact whole reads

theorem reads_lexeme {l : Lexeme} {kind : TokenKind} (found : Lexeme.first? t = some (l, t))
    (counts : l.kind? edge t = some kind) : Reads edge start t [⟨t, start, kind⟩] := by
  have alone : Lexeme.first? (t ++ []) = some (l, t) := by rw [List.append_nil, found]
  simpa using Reads.token alone counts reads_nil

theorem Reads.moved (reads : Reads edge start t tokens) (k : Nat) :
    Reads edge (start + k) t (tokens.map (Token.moved k)) := by
  obtain ⟨covered, listed⟩ := reads
  refine ⟨?_, by rw [Piece.split_add, ofPieces_moved, listed]⟩
  simpa [Piece.split_add, Piece.moved, Piece.isHole] using covered

end Token

end InfixCalculator

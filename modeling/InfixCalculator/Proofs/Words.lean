import InfixCalculator.Proofs.Boundary
import InfixCalculator.Proofs.Normalisation

namespace InfixCalculator

structure Word where
  text : Text
  kind : TokenKind

namespace Word

def breadth : List Word → Nat
  | [] => 0
  | w :: rest => w.text.byteLength + 1 + breadth rest

def place : (position : Nat) → List Word → List Token
  | _, [] => []
  | position, w :: rest => ⟨w.text, position, w.kind⟩ :: place (position + w.text.byteLength + 1) rest

theorem place_append (position : Nat) (first second : List Word) :
    place position (first ++ second) =
      place position first ++ place (position + breadth first) second := by
  induction first generalizing position with
  | nil => rfl
  | cons w rest ih => simp only [List.cons_append, place, ih, breadth, Nat.add_assoc]

-- The words in this order with blanks between them, any blanks and any number of
-- them, and in small letters or capitals.
inductive Written : List Word → Text → Prop
  | last : t.map Char.toLower = w.text → Written [w] t
  | cons : t.map Char.toLower = w.text → Text.Gap gap → Written others rest →
      Written (w :: others) (t ++ gap ++ rest)

def line : List Word → Text
  | [] => []
  | [w] => w.text
  | w :: rest => w.text ++ ' ' :: line rest

theorem line_eq_intercalate (words : List Word) :
    line words = [' '].intercalate (words.map Word.text) := by
  induction words with
  | nil => rfl
  | cons w rest ih =>
    cases rest with
    | nil => simp [line]
    | cons v behind => simp [line, ih, List.intercalate_cons_cons]

theorem written_line {words : List Word} (nonempty : words ≠ [])
    (lower : ∀ w ∈ words, w.text.map Char.toLower = w.text) : Written words (line words) := by
  induction words with
  | nil => contradiction
  | cons w rest ih =>
    have first := lower w List.mem_cons_self
    cases rest with
    | nil => exact .last first
    | cons v behind =>
      have others : ∀ w ∈ v :: behind, w.text.map Char.toLower = w.text := by
        intro w member
        exact lower w (List.mem_cons_of_mem _ member)
      have later := ih (by simp) others
      have blank : Text.Gap [' '] := ⟨by simp, by simp [Text.isBlank, Text.blanks]⟩
      simpa [line] using Written.cons first blank later

structure Legible (edge : Bool) (w : Word) : Prop where
  visible : w.text.Visible
  lexeme : ∃ l, Lexeme.first? w.text = some (l, w.text) ∧ l.kind? edge w.text = some w.kind

theorem Legible.nonempty {edge : Bool} {w : Word} (legible : w.Legible edge) : w.text ≠ [] := by
  obtain ⟨l, found, _⟩ := legible.lexeme
  exact Lexeme.first?_ne_nil found

theorem Legible.not_space {edge : Bool} {w : Word} (legible : w.Legible edge) :
    ' ' ∉ w.text := by
  intro space
  exact absurd (legible.visible ' ' space) (by decide)

inductive AllLegible : (edge : Bool) → List Word → Prop
  | nil : AllLegible edge []
  | cons : Word.Legible edge w → AllLegible w.kind.leavesEdge rest → AllLegible edge (w :: rest)

theorem AllLegible.visible {edge : Bool} {words : List Word} (legible : AllLegible edge words) :
    ∀ w ∈ words, w.text ≠ [] ∧ w.text.Visible := by
  induction legible with
  | nil => simp
  | cons first _ ih =>
    intro w member
    rcases List.mem_cons.mp member with rfl | later
    · exact ⟨first.nonempty, first.visible⟩
    · exact ih w later

theorem Written.normalise {words : List Word} {t : Text} (written : Written words t)
    (visible : ∀ w ∈ words, w.text ≠ [] ∧ w.text.Visible) (afterBlank : Bool) :
    Text.normaliseFrom afterBlank t = line words := by
  induction written generalizing afterBlank with
  | @last w t lower =>
    have shown := (visible w List.mem_cons_self).2
    rw [Text.normaliseFrom_visible (Text.visible_of_lower (lower ▸ shown)), lower]
    rfl
  | @cons gap others rest w t lower blank written ih =>
    obtain ⟨nonempty, shown⟩ := visible w List.mem_cons_self
    have kept : t.Visible := Text.visible_of_lower (lower ▸ shown)
    have some : t ≠ [] := fun empty => nonempty (by rw [← lower, empty]; rfl)
    have behind : ∀ w ∈ others, w.text ≠ [] ∧ w.text.Visible := by
      intro w member
      exact visible w (List.mem_cons_of_mem _ member)
    have later := ih behind
    have more : line (w :: others) = w.text ++ ' ' :: line others := by
      cases written <;> rfl
    rw [Text.normaliseFrom_append, Text.normaliseFrom_append, Text.normaliseFrom_visible kept,
      Text.blankAfter_visible kept some, Text.normaliseFrom_gap blank,
      later, more, lower]
    simp

theorem head?_line (w : Word) (nonempty : w.text ≠ []) (rest : List Word) :
    (line (w :: rest)).head? = w.text.head? := by
  obtain ⟨c, tail, text⟩ := List.exists_cons_of_ne_nil nonempty
  cases rest <;> simp [line, text]

theorem AllLegible.reads {edge : Bool} {words : List Word} (legible : AllLegible edge words)
    (position : Nat) : Token.Reads edge position (line words) (place position words) := by
  induction legible generalizing position with
  | nil => exact Token.reads_nil
  | @cons edge w rest first others ih =>
    obtain ⟨l, found, counts⟩ := first.lexeme
    have head : Token.Reads edge position w.text [⟨w.text, position, w.kind⟩] :=
      Token.reads_lexeme found counts
    cases others with
    | nil => exact head
    | @cons _ v behind second _ =>
      have apart : w.text.Apart (' ' :: line (v :: behind)) := by
        refine ⟨by simp [Text.dividers], fun last => ?_⟩
        exact absurd (List.mem_of_getLast? last) first.not_space
      have visible : (line (v :: behind)).head? ≠ some ' ' := by
        rw [head?_line v second.nonempty]
        exact fun head => second.not_space (List.mem_of_head? head)
      exact head.append apart (Token.Reads.space visible (ih _))

-- However the blanks between them are chosen, the tokens are the words.
theorem Written.tokenize {words : List Word} {t : Text} (written : Written words t)
    (legible : AllLegible true words) : Token.tokenize t.normalise = .ok (place 0 words) := by
  rw [Text.normalise, written.normalise legible.visible]
  exact Token.tokenize_eq_ok_iff.mpr (legible.reads 0)

end Word

theorem Token.tokenize_stem {t stem : Text} {tokens : List Token} (ending : stem.getLast? ≠ some ' ')
    (same : t.normalise = stem ++ (if Text.blankAfter false t then [' '] else [])) :
    Token.tokenize t.normalise = .ok tokens ↔ Token.Reads true 0 stem tokens := by
  rw [same, Token.tokenize_eq_ok_iff]
  cases Text.blankAfter false t with
  | false => rw [if_neg Bool.false_ne_true, List.append_nil]
  | true => exact Token.reads_spaces_behind_iff ending 1

theorem Token.tokenize_space {t : Text} {tokens : List Token} :
    Token.tokenize (t ++ [' ']).normalise = .ok tokens ↔ Token.tokenize t.normalise = .ok tokens := by
  obtain ⟨stem, ending, same⟩ := Text.exists_stem t
  have spaced : (t ++ [' ']).normalise =
      stem ++ (if Text.blankAfter false (t ++ [' ']) then [' '] else []) := by
    rw [Text.blankAfter_space, Text.normalise_blank_append same]
    rfl
  rw [Token.tokenize_stem ending spaced, Token.tokenize_stem ending same]

end InfixCalculator

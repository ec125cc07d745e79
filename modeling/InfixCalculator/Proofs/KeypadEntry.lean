import InfixCalculator.Desk.Window
import InfixCalculator.Proofs.StrayPoints

namespace InfixCalculator

namespace Text

theorem deletedWhole_suffix_free :
    ∀ first ∈ deletedWhole, ∀ second ∈ deletedWhole, first <:+ second → first = second := by
  decide

theorem dropLastSymbol_whole {t whole : Text} (listed : whole ∈ deletedWhole) :
    dropLastSymbol (t ++ whole) = t := by
  unfold dropLastSymbol
  split
  · next found =>
    have other := List.mem_of_find?_eq_some found
    have stands := List.find?_some found
    have ends := List.isSuffixOf_iff_suffix.mp stands
    rcases List.suffix_or_suffix_of_suffix ends (List.suffix_append t whole) with first | second
    · cases deletedWhole_suffix_free _ other _ listed first
      simp
    · cases deletedWhole_suffix_free _ listed _ other second
      simp
  · next none =>
    have absent := List.find?_eq_none.mp none whole listed
    exact absurd (List.isSuffixOf_iff_suffix.mpr (List.suffix_append t whole)) absent

def nameEnds : Text := ['n', 's', 'c', 't']

theorem deletedWhole_ends : ∀ whole ∈ deletedWhole,
    whole.getLast? = some '(' ∧ (∃ c ∈ whole.dropLast.getLast?, c ∈ nameEnds) ∨
      whole.getLast? = some 'u' ∨ whole.getLast? = some 'i' := by
  simp [deletedWhole, Trigonometric.all, Trigonometric.name, nameEnds]

theorem dropLastSymbol_single {t : Text} {c : Char} (other : c ≠ 'u' ∧ c ≠ 'i')
    (apart : c = '(' → ∀ d ∈ t.getLast?, d ∉ nameEnds) : dropLastSymbol (t ++ [c]) = t := by
  have none : (deletedWhole.find? fun whole => whole.isSuffixOf (t ++ [c])) = none := by
    refine List.find?_eq_none.mpr fun whole listed stands => ?_
    have ends := List.isSuffixOf_iff_suffix.mp stands
    rcases List.suffix_concat_iff.mp ends with rfl | ⟨name, rfl, behind⟩
    · exact absurd listed (by decide)
    · have last := deletedWhole_ends _ listed
      simp only [List.getLast?_concat, List.dropLast_concat, Option.some.injEq, other, or_false]
        at last
      obtain ⟨paren, d, ending, listed⟩ := last
      obtain ⟨front, rfl⟩ := behind
      exact apart paren d (by simp [List.getLast?_append, Option.mem_def.mp ending]) listed
  unfold dropLastSymbol
  rw [none]
  simp

end Text

open Text (dropLastSymbol nameEnds)

namespace Key

theorem whole_or_single (key : Key) :
    key.text ∈ Text.deletedWhole ∨
      ∃ c, key.text = [c] ∧ (c ≠ 'u' ∧ c ≠ 'i') ∧ (c = '(' → key = .openParen) := by
  cases key with
  | function f => cases f <;> exact .inl (by decide)
  | pi | tau => exact .inl (by decide)
  | digit d =>
    have plain : ∀ d : Fin 10, (Nat.digitChar d ≠ 'u' ∧ Nat.digitChar d ≠ 'i') ∧
        Nat.digitChar d ≠ '(' := by decide
    exact .inr ⟨_, rfl, (plain d).1, fun paren => absurd paren (plain d).2⟩
  | _ => exact .inr ⟨_, rfl, by decide, by decide⟩

theorem dropLastSymbol_text (key : Key) {t : Text}
    (apart : key = .openParen → ∀ c ∈ t.getLast?, c ∉ nameEnds) :
    dropLastSymbol (t ++ key.text) = t := by
  rcases key.whole_or_single with whole | ⟨c, single, other, paren⟩
  · exact Text.dropLastSymbol_whole whole
  · rw [single]
    exact Text.dropLastSymbol_single other fun opens => apart (paren opens)

theorem text_last (key : Key) :
    ∃ front c, key.text = front ++ [c] ∧ c ≠ ' ' ∧ c ∉ nameEnds := by
  cases key with
  | function f => exact ⟨f.name, '(', rfl, by decide, by decide⟩
  | pi => exact ⟨['p'], 'i', rfl, by decide, by decide⟩
  | tau => exact ⟨['t', 'a'], 'u', rfl, by decide, by decide⟩
  | digit d =>
    have plain : ∀ d : Fin 10, Nat.digitChar d ≠ ' ' ∧ Nat.digitChar d ∉ nameEnds := by decide
    exact ⟨[], _, rfl, plain d⟩
  | _ => exact ⟨[], _, rfl, by decide, by decide⟩

open Lexeme (Lone Symbolic) in
theorem text_symbolic (key : Key) : Symbolic key.text := by
  have single {c : Char} (lone : Lone c) : Symbolic [c] := .lone lone .nil
  have name {t : Text} (listed : t ∈ Lexeme.names) : Symbolic t := by
    rw [← List.append_nil t]
    exact .name listed .nil
  cases key with
  | function f =>
    have listed : f.name ∈ Lexeme.names := by cases f <;> decide
    exact .name listed (single (.inr (by decide)))
  | pi | tau => exact name (by decide)
  | digit d =>
    have digit : ∀ d : Fin 10, (Nat.digitChar d).isDigit = true := by decide
    exact single (.inl (digit d))
  | _ => exact single (.inr (by decide))

end Key

-- A text of whole key symbols and spaces.
inductive Keyed : Text → Prop
  | nil : Keyed []
  | space : Keyed t → Keyed (t ++ [' '])
  | key : (key : Key) → Keyed t → Keyed (t ++ key.text)

namespace Keyed

variable {t : Text}

theorem symbolic (keyed : Keyed t) : Lexeme.Symbolic t := by
  induction keyed with
  | nil => exact .nil
  | space _ ih => exact ih.append (.lone (.inr (by decide)) .nil)
  | key key _ ih => exact ih.append key.text_symbolic

theorem last (keyed : Keyed t) : ∀ c ∈ t.getLast?, c ∉ nameEnds := by
  cases keyed with
  | nil => simp
  | space => simp [nameEnds]
  | key key =>
    obtain ⟨front, c, text, _, other⟩ := key.text_last
    simpa [text, ← List.append_assoc] using other

theorem dropTrailingSpaces_key (t : Text) (key : Key) :
    (t ++ key.text).dropTrailingSpaces = t ++ key.text := by
  obtain ⟨front, c, text, visible, _⟩ := key.text_last
  refine Text.dropTrailing_kept ?_
  simpa [text, ← List.append_assoc] using visible

theorem dropTrailingSpaces (keyed : Keyed t) : Keyed t.dropTrailingSpaces := by
  induction keyed with
  | nil => exact .nil
  | space _ ih => rwa [Text.dropTrailingSpaces, Text.dropTrailing_append (by rfl)]
  | key key keyed _ =>
    rw [dropTrailingSpaces_key]
    exact .key key keyed

theorem insert (keyed : Keyed t) (key : Key) : Keyed (t.insert key) := by
  have spaced {set : Bool} : Keyed (if set then t ++ [' '] else t) := by
    cases set with
    | true => exact .space keyed
    | false => exact keyed
  have surrounded : Keyed (if t.dropTrailingSpaces.isEmpty then t.dropTrailingSpaces
      else t.dropTrailingSpaces ++ [' ']) := by
    split
    · exact keyed.dropTrailingSpaces
    · exact .space keyed.dropTrailingSpaces
  unfold Text.insert
  cases key.spacing with
  | joined => exact .key key keyed
  | closing => exact .key key keyed.dropTrailingSpaces
  | opening => exact .key key spaced
  | word => exact .key key spaced
  | surrounded => exact .space (.key key surrounded)

theorem deleteLast (keyed : Keyed t) : Keyed t.deleteLast := by
  refine dropTrailingSpaces ?_
  induction keyed with
  | nil => exact .nil
  | space _ ih => rwa [Text.dropTrailingSpaces, Text.dropTrailing_append (by rfl)]
  | key key keyed _ =>
    rw [dropTrailingSpaces_key, key.dropLastSymbol_text fun _ => keyed.last]
    exact keyed

end Keyed

theorem Desk.evaluate_entry (d : Desk) : d.evaluate.entry = d.entry := by
  unfold Desk.evaluate
  split <;> rfl

namespace Window

variable {w : Window}

theorem step_keyed (keyed : Keyed w.desk.entry) {s : Step} (unwritten : ∀ t, s ≠ .write t) :
    Keyed (w.step s).desk.entry := by
  cases s with
  | write t => exact absurd rfl (unwritten t)
  | escape => exact .nil
  | confirm => exact (Desk.evaluate_entry w.desk).symm ▸ keyed
  | accept c => exact keyed
  | refuse f => exact keyed
  | click widget =>
    cases widget with
    | key key => exact keyed.insert key
    | delete => exact keyed.deleteLast
    | equals => exact (Desk.evaluate_entry w.desk).symm ▸ keyed
    | clearEntry | clearAll => exact .nil
    | _ => exact keyed

theorem run_keyed {steps : List Step} (keyed : Keyed w.desk.entry)
    (unwritten : ∀ t, Step.write t ∉ steps) : Keyed (w.run steps).desk.entry := by
  induction steps generalizing w with
  | nil => exact keyed
  | cons s steps ih =>
    refine ih (step_keyed keyed ?_) fun t member => unwritten t (List.mem_cons_of_mem _ member)
    rintro t rfl
    exact unwritten t List.mem_cons_self

end Window

-- An entry that nobody wrote by hand passes the check exactly if a digit comes behind each point, and
-- else the evaluation stops at points.
theorem keypad_entry_check {steps : List Step} {w : Window} (reached : Window.run {} steps = w)
    (unwritten : ∀ t, Step.write t ∉ steps) :
    (Piece.check w.desk.entry.normalise = .ok () ↔ w.desk.entry.PointsFollowed) ∧
      (¬ w.desk.entry.PointsFollowed →
        ∃ f, RefusedAtPoints w.desk.entry f ∧ w.desk.evaluate = w.desk.refuse f) := by
  have keyed : Keyed w.desk.entry := reached ▸ Window.run_keyed .nil unwritten
  refine ⟨check_symbolic keyed.symbolic, fun stray => ?_⟩
  obtain ⟨f, refused⟩ := refusedAtPoints keyed.symbolic stray
  refine ⟨f, refused, ?_⟩
  have failed := evaluate_eq_error_iff.mp (refused.1 w.desk.context)
  simp only [Desk.evaluate, failed]

theorem keypad_entry_check_deleted :
    ∃ w, Window.run {} [.click (.key (.digit 1)), .click (.key .point), .click (.key .add),
        .click .delete] = w ∧
      w.desk.entry = ['1', '.'] ∧ ∃ f, RefusedAtPoints ['1', '.'] f := by
  have stray : ¬ Text.PointsFollowed ['1', '.'] := by
    intro followed
    obtain ⟨d, head, _⟩ := followed ['1'] [] rfl
    cases head
  obtain ⟨f, refused, _⟩ := (@keypad_entry_check [.click (.key (.digit 1)), .click (.key .point),
    .click (.key .add), .click .delete] _ rfl (by simp)).2 stray
  exact ⟨_, rfl, rfl, f, refused⟩

end InfixCalculator

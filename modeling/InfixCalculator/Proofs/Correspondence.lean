import InfixCalculator.Proofs.Steps
import Mathlib.Data.List.Forall2

namespace InfixCalculator

inductive Engine.Alike (R : Token → Token → Prop) : Except Stop α → Except Stop α → Prop
  | value : Alike R (.ok result) (.ok result)
  | blamed : R t u → Alike R (.error ⟨cause, some t.span⟩) (.error ⟨cause, some u.span⟩)
  | unblamed : Alike R (.error ⟨cause, none⟩) (.error ⟨cause, none⟩)

-- Two runs of the engine, on tokens that correspond one by one and are of the same kinds.
-- `R` says which tokens correspond; their texts and places may differ.
namespace Postfix

open Engine (Alike)

structure Translation.Related (R : Token → Token → Prop) (first second : Translation) : Prop where
  items : List.Forall₂ R first.items second.items
  unpaired : Option.Rel R first.unpaired? second.unpaired?

theorem Translation.Related.after {R : Token → Token → Prop} {first second : Translation}
    (related : first.Related R second) {emitted out : List Token} (sent : List.Forall₂ R emitted out) :
    (first.after emitted).Related R (second.after out) :=
  ⟨List.rel_append sent related.items, related.unpaired⟩

variable {R : Token → Token → Prop} {c : Context} {t u : Token}
  {ts us pending others emitted left items : List Token}

theorem isOpen_of_kinds (same : t.kind = u.kind) : t.isOpen = u.isOpen := by
  simp only [Token.isOpen, Token.operator?, same]

theorem entry_of_kinds (same : t.kind = u.kind) : t.entry = u.entry := by
  simp only [Token.entry, Token.operator?, same]

theorem related_while {p : Token → Bool} (same : ∀ {t u}, R t u → p t = p u)
    (related : List.Forall₂ R pending others) :
    List.Forall₂ R (pending.takeWhile p) (others.takeWhile p) ∧
      List.Forall₂ R (pending.dropWhile p) (others.dropWhile p) := by
  induction related with
  | nil => exact ⟨.nil, .nil⟩
  | @cons t u pending others first rest ih =>
    rw [List.takeWhile_cons, List.takeWhile_cons, List.dropWhile_cons, List.dropWhile_cons, same first]
    cases p u with
    | true => exact ⟨.cons first ih.1, ih.2⟩
    | false => exact ⟨.nil, .cons first rest⟩

theorem head?_related (related : List.Forall₂ R ts us) : Option.Rel R ts.head? us.head? := by
  cases related with
  | nil => exact .none
  | cons pair => exact .some pair

variable (kinds : ∀ {t u}, R t u → t.kind = u.kind)

include kinds

theorem related_above (related : List.Forall₂ R pending others) :
    List.Forall₂ R (pending.takeWhile (!·.isOpen)) (others.takeWhile (!·.isOpen)) ∧
      List.Forall₂ R (pending.dropWhile (!·.isOpen)) (others.dropWhile (!·.isOpen)) :=
  related_while (fun pair => congrArg (!·) (isOpen_of_kinds (kinds pair))) related

theorem Moves.related (moves : Moves t pending emitted left) (pair : R t u)
    (related : List.Forall₂ R pending others) :
    ∃ out rest, Moves u others out rest ∧ List.Forall₂ R emitted out ∧ List.Forall₂ R left rest := by
  have same := kinds pair
  cases moves with
  | number kind => exact ⟨[u], others, .number (same ▸ kind), .cons pair .nil, related⟩
  | opening kind => exact ⟨[], u :: others, .opening (same ▸ kind), .nil, .cons pair related⟩
  | closing kind standing =>
    obtain ⟨above, below⟩ := related_above kinds related
    rw [standing] at below
    obtain ⟨_, rest, _, behind, stands⟩ := List.forall₂_cons_left_iff.mp below
    exact ⟨_, rest, .closing (same ▸ kind) stands, above, behind⟩
  | @operator o _ kind applied =>
    obtain ⟨above, below⟩ := related_while (p := fun top => o.entry.releases top.entry)
      (fun pair => congrArg o.entry.releases (entry_of_kinds (kinds pair))) related
    exact ⟨_, _, .operator (same ▸ kind) applied, above, .cons pair below⟩

theorem Unpaired.related (unpaired : Unpaired t pending) (pair : R t u)
    (related : List.Forall₂ R pending others) : Unpaired u others := by
  obtain ⟨kind, standing⟩ := unpaired
  have below := (related_above kinds related).2
  rw [standing] at below
  exact ⟨kinds pair ▸ kind, List.forall₂_nil_left_iff.mp below⟩

theorem translate_related (tokens : List.Forall₂ R ts us) (related : List.Forall₂ R pending others) :
    (translate pending ts).Related R (translate others us) := by
  induction tokens generalizing pending others with
  | nil =>
    obtain ⟨above, below⟩ := related_above kinds related
    exact ⟨above, head?_related below⟩
  | @cons t u ts us pair _ ih =>
    rcases moves_or_unpaired t pending with ⟨emitted, left, moves⟩ | unpaired
    · obtain ⟨out, rest, moved, sent, kept⟩ := moves.related kinds pair related
      rw [moves.translate, moved.translate]
      exact (ih kept).after sent
    · have unmatched := unpaired.related kinds pair related
      rw [unpaired.translate, unmatched.translate]
      exact ⟨(related_above kinds related).1, .some pair⟩

theorem applyItem_related (pair : R t u) (values : List Float) :
    Alike R (applyItem c t values) (applyItem c u values) := by
  have same := kinds pair
  cases kind : u.kind with
  | number v =>
    simp only [applyItem, same, kind]
    exact .value
  | operator o =>
    simp only [applyItem, same, kind]
    cases o.entry.apply c values with
    | ok results => exact .value
    | error refusal => exact .blamed pair

theorem run_related (related : List.Forall₂ R items others) (values : List Float) :
    Alike R (run c values items) (run c values others) := by
  induction related generalizing values with
  | nil => exact .value
  | @cons t u items others pair _ ih =>
    have first := applyItem_related (c := c) kinds pair values
    unfold run
    generalize applyItem c t values = one at first
    generalize applyItem c u values = two at first
    cases first with
    | value => exact ih _
    | blamed pair => exact .blamed pair
    | unblamed => exact .unblamed

theorem Leaves.related {values : List Float} (left : Leaves c ts values)
    (tokens : List.Forall₂ R ts us) : Leaves c us values := by
  obtain ⟨finished, ran⟩ := left
  obtain ⟨items, unpaired⟩ := translate_related kinds tokens .nil
  have alike := run_related (c := c) kinds items []
  rw [ran] at alike
  rw [finished] at unpaired
  refine ⟨?_, ?_⟩
  · generalize (translate [] us).unpaired? = right at unpaired
    cases unpaired
    rfl
  · generalize run c [] (translate [] us).items = two at alike
    cases alike
    rfl

theorem result_related {first second : Translation} (related : first.Related R second)
    (values : List Float) : Alike R (result c values first) (result c values second) := by
  obtain ⟨items, unpaired⟩ := related
  have ran := run_related (c := c) kinds items values
  unfold result
  generalize run c values first.items = one at ran
  generalize run c values second.items = two at ran
  cases ran with
  | blamed pair => exact .blamed pair
  | unblamed => exact .unblamed
  | @value values =>
    generalize first.unpaired? = left at unpaired
    generalize second.unpaired? = right at unpaired
    cases unpaired with
    | some pair => exact .blamed pair
    | none =>
      rcases values with _ | ⟨value, _ | ⟨other, rest⟩⟩
      · exact .unblamed
      · exact .value
      · exact .unblamed

theorem execute_related (tokens : List.Forall₂ R ts us) :
    Alike R (Engine.execute c ts) (Engine.execute c us) := by
  rw [execute_eq_result, execute_eq_result]
  exact result_related kinds (translate_related kinds tokens .nil) []

end Postfix

def Token.Corresponds (ts us : List Token) (t u : Token) : Prop :=
  t.kind = u.kind ∧ ∃ i : Nat, ts[i]? = some t ∧ us[i]? = some u

theorem Token.corresponds_of_kinds {ts us : List Token}
    (same : ts.map Token.kind = us.map Token.kind) : List.Forall₂ (Corresponds ts us) ts us := by
  have length : ts.length = us.length := by simpa using congrArg List.length same
  refine List.forall₂_iff_zip.mpr ⟨length, fun {t u} paired => ?_⟩
  obtain ⟨i, found⟩ := List.mem_iff_getElem?.mp paired
  obtain ⟨left, right⟩ := List.getElem?_zip_eq_some.mp found
  have kinds := congrArg (·[i]?) same
  simp only [List.getElem?_map, left, right, Option.map_some, Option.some.injEq] at kinds
  exact ⟨kinds, i, left, right⟩

-- Two calculations on corresponding tokens: the same value, or one cause and in both the
-- token of the same index to blame, or none in both.
inductive SameOutcome (ts us : List Token) : (first second : Except Failure Float) → Prop
  | value : SameOutcome ts us (.ok v) (.ok v)
  | blamed {i : Nat} {t u : Token} : ts[i]? = some t → us[i]? = some u →
      SameOutcome ts us (.error ⟨cause, first, some t.span⟩) (.error ⟨cause, second, some u.span⟩)
  | unblamed : SameOutcome ts us (.error ⟨cause, first, none⟩) (.error ⟨cause, second, none⟩)

theorem evaluate_of_kinds {s t : Text} {ts us : List Token}
    (read : Token.tokenize s.normalise = .ok ts) (other : Token.tokenize t.normalise = .ok us)
    (same : ts.map Token.kind = us.map Token.kind) (c : Context) :
    SameOutcome ts us (evaluate c s) (evaluate c t) := by
  have alike : Engine.Alike (Token.Corresponds ts us) (Engine.execute c ts) (Engine.execute c us) :=
    Postfix.execute_related (fun pair => pair.1) (Token.corresponds_of_kinds same)
  rw [evaluate_eq_execute c read, evaluate_eq_execute c other]
  generalize Engine.execute c ts = one at alike
  generalize Engine.execute c us = two at alike
  cases alike with
  | value => exact .value
  | blamed pair =>
    obtain ⟨_, i, left, right⟩ := pair
    exact .blamed left right
  | unblamed => exact .unblamed

end InfixCalculator

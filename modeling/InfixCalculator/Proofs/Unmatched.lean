import InfixCalculator.Proofs.Enclosure
import InfixCalculator.Proofs.Parentheses

namespace InfixCalculator

-- With `depth` parentheses open on the left, the token behind `front` is the first that closes
-- more than are open before it.
structure FirstUnopened (depth : Nat) (front : List Token) (t : Token) : Prop where
  covered : Covered depth front
  exceeded : depth + openings (front ++ [t]) < closings (front ++ [t])

-- The token before `rest` opens a parenthesis that `rest` closes nowhere. Each one that is opened
-- in `rest` is closed behind its own place.
structure LastUnclosed (t : Token) (rest : List Token) : Prop where
  opens : t.isOpen = true
  unclosed : Covered 0 rest
  last : ∀ between u behind, rest = between ++ u :: behind → u.isOpen = true → ¬ Covered 0 behind

theorem covered_iff {depth : Nat} {ts : List Token} :
    Covered depth ts ↔ ∀ front t rest, ts = front ++ t :: rest → ¬ FirstUnopened depth front t := by
  constructor
  · intro covered front t rest parts unopened
    have bound := covered (front ++ [t]) rest (by simp [parts])
    have exceeds := unopened.exceeded
    omega
  · intro none
    induction ts generalizing depth with
    | nil => exact covered_nil depth
    | cons t ts ih =>
      have bound : closings [t] ≤ depth + openings [t] := by
        by_contra exceeds
        exact none [] t ts rfl ⟨covered_nil depth, Nat.lt_of_not_le exceeds⟩
      have moved : depth + openings [t] = depth + openings [t] - closings [t] + closings [t] := by omega
      refine (covered_cons moved).mpr (ih ?_)
      rintro front u rest rfl ⟨covered, exceeds⟩
      refine none (t :: front) u rest rfl ⟨(covered_cons moved).mpr covered, ?_⟩
      rw [List.cons_append, openings_cons, closings_cons]
      omega

theorem Balanced.last_unclosed {t : Token} {rest : List Token} (balanced : Balanced 0 rest)
    (opens : t.isOpen = true) : LastUnclosed t rest := by
  refine ⟨opens, balanced.covered, fun between u behind parts inner covered => ?_⟩
  have even := balanced.even
  have front := balanced.covered between (u :: behind) parts
  have back := covered behind [] (by simp)
  obtain ⟨one, none⟩ := openings_open inner
  rw [parts, openings_append, closings_append, openings_cons u, closings_cons u] at even
  omega

-- From the right: either one parenthesis is the last that stays open, or the tokens close all
-- they open and so many more, which would have to be open on the left.
theorem balanced_or_unclosed (ts : List Token) :
    (∃ depth, Balanced depth ts) ∨
      ∃ front t rest, ts = front ++ t :: rest ∧ t.isOpen = true ∧ Balanced 0 rest := by
  induction ts with
  | nil => exact .inl ⟨0, balanced_nil.mpr rfl⟩
  | cons t ts ih =>
    rcases ih with ⟨depth, balanced⟩ | ⟨front, u, rest, rfl, opens, balanced⟩
    · rcases Nat.lt_or_ge (depth + closings [t]) (openings [t]) with opened | shut
      · obtain ⟨u, member, opens⟩ := List.countP_pos_iff.mp (Nat.zero_lt_of_lt opened)
        obtain rfl := List.mem_singleton.mp member
        have one := (openings_open opens).1
        obtain rfl : depth = 0 := by omega
        exact .inr ⟨[], u, ts, rfl, opens, balanced⟩
      · have moved : depth + closings [t] - openings [t] + openings [t] = depth + closings [t] := by omega
        exact .inl ⟨_, (balanced_cons moved).mpr balanced⟩
    · exact .inr ⟨t :: front, u, rest, rfl, opens, balanced⟩

namespace Postfix

variable {front ts : List Token} {t : Token}

theorem translate_covered (pending : List Token) (covered : Covered (openings pending) front) :
    ∃ emitted left, openings pending + openings front = openings left + closings front ∧
      ∀ rest, translate pending (front ++ rest) = (translate left rest).after emitted := by
  induction front generalizing pending with
  | nil => exact ⟨[], pending, rfl, fun rest => rfl⟩
  | cons t front ih =>
    rcases moves_or_unpaired t pending with ⟨first, between, moves⟩ | unpaired
    · obtain ⟨emitted, left, level, goes⟩ := ih between ((covered_cons moves.depth).mp covered)
      refine ⟨first ++ emitted, left, ?_, fun rest => ?_⟩
      · have moved := moves.depth
        rw [openings_cons, closings_cons]
        omega
      · rw [List.cons_append, moves.translate, goes, Translation.after_append]
    · obtain ⟨none, opens, closes⟩ := unpaired.depth
      have bound := covered [t] front rfl
      omega

theorem translate_unopened (pending : List Token)
    (unopened : FirstUnopened (openings pending) front t) :
    ∃ items, ∀ rest, translate pending (front ++ t :: rest) = ⟨items, some t⟩ := by
  obtain ⟨emitted, left, level, goes⟩ := translate_covered pending unopened.covered
  have exceeded := unopened.exceeded
  rw [openings_append, closings_append] at exceeded
  rcases moves_or_unpaired t left with ⟨sent, kept, moves⟩ | unpaired
  · have moved := moves.depth
    have bound := closings_single t
    have even := unopened.covered front [] (by simp)
    omega
  · refine ⟨emitted ++ left.takeWhile (!·.isOpen), fun rest => ?_⟩
    rw [goes, unpaired.translate]
    rfl

theorem translate_unclosed (pending : List Token) (covered : Covered (openings pending) front)
    (opens : t.isOpen = true) (balanced : Balanced 0 ts) :
    (translate pending (front ++ t :: ts)).unpaired? = some t := by
  obtain ⟨emitted, left, _, goes⟩ := translate_covered pending covered
  have finished : (translate [] ts).unpaired? = none := (translate_finished_iff [] ts).mpr balanced
  have above := translate_above opens finished left
  rw [List.nil_append] at above
  rw [goes, (Moves.opening (Token.isOpen_iff.mp opens)).translate, above]
  rfl

end Postfix

namespace Engine

theorem unpaired_of_execute {c : Context} {ts : List Token} {span : Option Span}
    (failed : execute c ts = .error ⟨.parsing .unmatchedParentheses, span⟩) :
    ∃ t, (Postfix.translate [] ts).unpaired? = some t ∧ span = some t.span := by
  rw [Postfix.execute_eq_result] at failed
  unfold Postfix.result at failed
  split at failed
  · next ran =>
    cases failed
    obtain ⟨_, _, refused⟩ := Postfix.run_refused ran
    cases refused
  · split at failed
    · next paren unpaired =>
      cases failed
      exact ⟨paren, unpaired, rfl⟩
    · split at failed <;> cases failed

-- A missing partner is reported for the first parenthesis that closes none, and what follows
-- that one plays no part. Only where each closes one it is for the last that stays open.
theorem unmatched_blame {c : Context} {ts : List Token} {span : Option Span}
    (failed : execute c ts = .error ⟨.parsing .unmatchedParentheses, span⟩) :
    (∀ front t rest, ts = front ++ t :: rest → FirstUnopened 0 front t →
      span = some t.span ∧ ∀ others, execute c (front ++ t :: others) = execute c ts) ∧
    ((∀ front t rest, ts = front ++ t :: rest → ¬ FirstUnopened 0 front t) →
      ∃ front t rest, ts = front ++ t :: rest ∧ LastUnclosed t rest ∧ span = some t.span) := by
  obtain ⟨paren, unpaired, rfl⟩ := unpaired_of_execute failed
  constructor
  · rintro front t rest rfl unopened
    obtain ⟨items, same⟩ := Postfix.translate_unopened [] unopened
    refine ⟨?_, fun others => ?_⟩
    · rw [same] at unpaired
      cases unpaired
      rfl
    · rw [Postfix.execute_eq_result, Postfix.execute_eq_result, same, same]
  · intro none
    have covered := covered_iff.mpr none
    rcases balanced_or_unclosed ts with ⟨depth, balanced⟩ | ⟨front, t, rest, rfl, opens, balanced⟩
    · have even := balanced.even
      have bound := covered ts [] (by simp)
      obtain rfl : depth = 0 := by omega
      rw [(Postfix.translate_finished_iff [] ts).mpr balanced] at unpaired
      cases unpaired
    · have before : Covered 0 front := fun first later parts =>
        covered first (later ++ t :: rest) (by rw [parts, List.append_assoc])
      rw [Postfix.translate_unclosed [] before opens balanced] at unpaired
      cases unpaired
      exact ⟨front, paren, rest, rfl, balanced.last_unclosed opens, rfl⟩

-- The third of `())` closes none. Of those in `(()` the first stays open.
theorem unmatched_blame_both :
    (∀ others, execute {} (Operator.openParen.token 0 :: Operator.closeParen.token 1 ::
        Operator.closeParen.token 2 :: others) = .error ⟨.parsing .unmatchedParentheses, some ⟨2, 1⟩⟩) ∧
      ∃ front t rest,
        [Operator.openParen.token 0, Operator.openParen.token 1, Operator.closeParen.token 2] =
          front ++ t :: rest ∧ LastUnclosed t rest ∧ t.span = ⟨0, 1⟩ := by
  have even : Covered 0 [Operator.openParen.token 0, Operator.closeParen.token 1] :=
    (covered_cons (show 0 + 1 = 1 + 0 from rfl)).mpr <|
      (covered_cons (show 1 + 0 = 0 + 1 from rfl)).mpr <| covered_nil 0
  have nested : Covered 0
      [Operator.openParen.token 0, Operator.openParen.token 1, Operator.closeParen.token 2] :=
    (covered_cons (show 0 + 1 = 1 + 0 from rfl)).mpr <|
      (covered_cons (show 1 + 1 = 2 + 0 from rfl)).mpr <|
        (covered_cons (show 2 + 0 = 1 + 1 from rfl)).mpr <| covered_nil 1
  have closed : execute {} ([Operator.openParen.token 0, Operator.closeParen.token 1] ++
      [Operator.closeParen.token 2]) = .error ⟨.parsing .unmatchedParentheses, some ⟨2, 1⟩⟩ := rfl
  have opened : execute {} [Operator.openParen.token 0, Operator.openParen.token 1,
      Operator.closeParen.token 2] = .error ⟨.parsing .unmatchedParentheses, some ⟨0, 1⟩⟩ := rfl
  obtain ⟨_, same⟩ := (unmatched_blame closed).1 _ _ [] rfl ⟨even, by decide⟩
  obtain ⟨front, t, rest, parts, last, span⟩ := (unmatched_blame opened).2 (covered_iff.mp nested)
  exact ⟨fun others => (same others).trans closed, front, t, rest, parts, last,
    (Option.some.inj span).symm⟩

end Engine

end InfixCalculator

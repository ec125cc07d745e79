import InfixCalculator.Proofs.Postfix

namespace InfixCalculator

theorem evaluate_eq_execute {t : Text} {ts : List Token} (c : Context)
    (read : Token.tokenize t.normalise = .ok ts) :
    evaluate c t = (Engine.execute c ts).mapError (Failure.ofStop t.normalise) := by
  unfold evaluate calculate
  simp only [read]
  cases Engine.execute c ts <;> rfl

theorem evaluate_ok {c : Context} {t : Text} {v : Float} (value : evaluate c t = .ok v) :
    ∃ ts, Token.tokenize t.normalise = .ok ts ∧ Engine.execute c ts = .ok v := by
  unfold evaluate calculate at value
  dsimp only at value
  split at value
  · cases value
  · next ts read =>
    split at value
    · cases value
    · next ran => cases value; exact ⟨ts, read, ran⟩

namespace Engine

variable {c : Context} {s next : State} {t : Token} {ts : List Token}

theorem steps_append (c : Context) (s : State) (first second : List Token) :
    steps c s (first ++ second) =
      match steps c s first with
      | .ok s => steps c s second
      | .error stop => .error stop := by
  induction first generalizing s with
  | nil => rfl
  | cons t first ih =>
    simp only [List.cons_append, steps]
    cases step c s t with
    | ok next => exact ih next
    | error stop => rfl

theorem step_waiting (waiting : Postfix.Waiting s.pending) (stepped : step c s t = .ok next) :
    Postfix.Waiting next.pending := by
  rcases Postfix.moves_or_unpaired t s.pending with ⟨emitted, left, moves⟩ | unpaired
  · rw [Postfix.step_eq_run c moves waiting] at stepped
    split at stepped
    · cases stepped
      exact moves.waiting waiting
    · cases stepped
  · rw [Postfix.step_unpaired c unpaired waiting] at stepped
    split at stepped <;> cases stepped

theorem steps_waiting (waiting : Postfix.Waiting s.pending) (stepped : steps c s ts = .ok next) :
    Postfix.Waiting next.pending := by
  induction ts generalizing s with
  | nil => cases stepped; exact waiting
  | cons t ts ih =>
    unfold steps at stepped
    split at stepped
    · next first => exact ih (step_waiting waiting first) stepped
    · cases stepped

theorem execute_append (c : Context) (us ts : List Token) :
    execute c (us ++ ts) =
      match steps c start us with
      | .ok s => Postfix.result c s.values (Postfix.translate s.pending ts)
      | .error stop => .error stop := by
  rw [execute, steps_append]
  cases reached : steps c start us with
  | error stop => rfl
  | ok s =>
    exact Postfix.steps_eq_result c ts (steps_waiting (s := start) Postfix.waiting_nil reached)

theorem steps_last {o : Operator} (last : ts.getLast? = some t) (kind : t.kind = .operator o)
    (applied : o ≠ .openParen ∧ o ≠ .closeParen) (reached : steps c start ts = .ok s) :
    ∃ below, s.pending = t :: below := by
  obtain ⟨front, rfl⟩ := List.getLast?_eq_some_iff.mp last
  rw [steps_append] at reached
  split at reached
  · next before stepped =>
    have waiting := steps_waiting (s := start) Postfix.waiting_nil stepped
    rw [steps, Postfix.step_eq_run c (.operator kind applied) waiting] at reached
    split at reached
    · next kept ran =>
      split at ran
      · cases ran
        cases reached
        exact ⟨_, rfl⟩
      · cases ran
    · cases reached
  · cases reached

end Engine

end InfixCalculator

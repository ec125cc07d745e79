import InfixCalculator.Proofs.Neighbours
import InfixCalculator.Proofs.TokenWords

namespace InfixCalculator

-- The causes that an operator can have, whatever its operands are. A current value
-- is missed by what is relative to it, and only where there is none or no number.
def Operator.Causes (c : Context) (o : Operator) : EvaluationCause → Prop
  | .divisionByZero => o = .divide
  | .imaginaryNumber => o = .power
  | .currentValueExpected =>
    (o = .percentage ∨ o = .times) ∧ ∀ v, c.current = some v → Binary64.isNaN v = true
  | .missingArguments => o.entry.arity = 1 ∨ o.entry.arity = 2
  | .unexpectedToken => o = .unknown

theorem Context.nan_of_none {c : Context} (none : ∀ v, ¬ c.Holds v) :
    ∀ v, c.current = some v → Binary64.isNaN v = true := by
  intro v present
  by_contra number
  exact none v ⟨present, Bool.eq_false_of_not_eq_true number⟩

theorem Operator.arity_of_short {o : Operator} {stack : List Float}
    (few : stack.length < o.operandCount) : o.entry.arity = 1 ∨ o.entry.arity = 2 := by
  have most : o.entry.arity ≤ 2 := by cases o <;> decide
  rw [← o.entry_arity] at few
  omega

theorem Operator.Refuses.causes {c : Context} {stack : List Float} {o : Operator}
    {cause : EvaluationCause} (refuses : Refuses c stack o cause)
    (applied : o ≠ .openParen ∧ o ≠ .closeParen) : o.Causes c cause := by
  cases refuses with
  | short few => exact arity_of_short few
  | made makes =>
    cases makes with
    | zero => rfl
    | imaginary => rfl
    | absent which none => exact ⟨which, Context.nan_of_none none⟩
    | refused unplaced =>
      obtain ⟨notOpen, notClose⟩ := applied
      cases o <;> first | contradiction | rfl

def Token.Causes (c : Context) (t : Token) (cause : EvaluationCause) : Prop :=
  ∃ o, t.kind = .operator o ∧ o.Causes c cause

namespace Postfix

variable {c : Context} {ts : List Token}

theorem Waiting.taken_inside {pending : List Token} (waiting : Waiting pending) {p : Token → Bool}
    (inside : ∀ top, p top = true → top.isOpen = false) :
    ∀ t ∈ pending.takeWhile p, t.isParenthesis = false := by
  intro t member
  have shut := inside t (List.all_eq_true.mp List.all_takeWhile t member)
  simp [Token.isParenthesis, shut, (waiting.takeWhile p t member).2]

theorem Moves.emitted_inside {t : Token} {pending emitted left : List Token}
    (moves : Moves t pending emitted left) (waiting : Waiting pending) :
    ∀ u ∈ emitted, u.isParenthesis = false := by
  cases moves with
  | number kind => simp [Token.isParenthesis, Token.isOpen, Token.operator?, kind]
  | opening kind => simp
  | closing kind standing => exact waiting.taken_inside (by simp)
  | operator kind applied => exact waiting.taken_inside fun _ => released_not_open

theorem items_inside (ts : List Token) {pending : List Token} (waiting : Waiting pending) :
    ∀ u ∈ (translate pending ts).items, u.isParenthesis = false := by
  induction ts generalizing pending with
  | nil => exact waiting.taken_inside (by simp)
  | cons t rest ih =>
    rcases moves_or_unpaired t pending with ⟨emitted, left, moves⟩ | unpaired
    · rw [moves.translate]
      intro u member
      rcases List.mem_append.mp member with first | later
      · exact moves.emitted_inside waiting u first
      · exact ih (moves.waiting waiting) u later
    · rw [unpaired.translate]
      exact waiting.taken_inside (by simp)

theorem execute_causes {stop : Stop} {cause : EvaluationCause}
    (failed : Engine.execute c ts = .error stop) (evaluation : stop.cause = .evaluation cause) :
    ∃ t ∈ ts, stop.span = some t.span ∧ t.Causes c cause := by
  rw [execute_eq_result] at failed
  unfold result at failed
  split at failed
  · next ran =>
    cases failed
    obtain ⟨t, member, refused⟩ := run_refused ran
    have inside := items_inside ts waiting_nil t member
    cases refused with
    | @intro o stack _ kind refuses =>
      cases evaluation
      refine ⟨t, by simpa using translate_mentions ts (.inl member), rfl, o, kind, ?_⟩
      refine refuses.causes ?_
      simpa [Token.isParenthesis, Token.isOpen, Token.operator?, kind] using inside
  · split at failed
    · cases failed; cases evaluation
    · split at failed
      · cases failed; cases evaluation
      · cases failed
      · cases failed; cases evaluation

theorem execute_unknown {t : Token} (member : t ∈ ts) (unknown : t.kind = .operator .unknown)
    (v : Float) : Engine.execute c ts ≠ .ok v := by
  intro ran
  have known := (execute_eq_ok_iff.mp ran).known t member
  simp [Token.isKnown, Token.operator?, unknown] at known

theorem execute_unknown_alone (c : Context) {t : Token} (unknown : t.kind = .operator .unknown) :
    Engine.execute c [t] = .error ⟨.evaluation .unexpectedToken, some t.span⟩ := by
  have alone : (translate [] [t]).items = [t] := by
    rw [translate, unknown]
    simp [translate, Translation.after, Token.isOpen, Token.operator?, unknown]
  rw [execute_eq_result, result, alone]
  simp only [run, applyItem, unknown]
  rfl

end Postfix

theorem tokenize_known {t : Text} {tokens : List Token} (read : Token.tokenize t = .ok tokens)
    {token : Token} (member : token ∈ tokens) : token.kind ≠ .operator .unknown := by
  intro unknown
  obtain ⟨_, proper⟩ := (Token.tokenize_eq_ok_iff.mp read).proper_of_mem member
  cases ((proper.kind_iff .unknown).mp unknown).2

theorem calculate_causes {c : Context} {t : Text} {f : Failure} {cause : EvaluationCause}
    (failed : calculate c t = .error f) (evaluation : f.cause = .evaluation cause) :
    ∃ tokens, Token.tokenize t.normalise = .ok tokens ∧
      ∃ token ∈ tokens, f.span = some token.span ∧ token.Causes c cause ∧
        cause ≠ .unexpectedToken := by
  rcases calculate_error failed with ⟨hole, _, rfl⟩ | ⟨tokens, stop, read, stuck, rfl⟩
  · cases evaluation
  · obtain ⟨token, member, span, o, kind, causes⟩ := Postfix.execute_causes stuck evaluation
    refine ⟨tokens, read, token, member, span, ⟨o, kind, causes⟩, ?_⟩
    rintro rfl
    cases (causes : o = .unknown)
    exact tokenize_known read member kind

-- An operator that fails is one that has this cause, for the tokens of a text and for any list of
-- tokens. What no text stands for fails as such.
theorem failed_operator_causes (c : Context) :
    (∀ t f cause, evaluate c t = .error f → f.cause = .evaluation cause →
      ∃ tokens, Token.tokenize t.normalise = .ok tokens ∧
        ∃ token ∈ tokens, f.span = some token.span ∧ token.Causes c cause ∧
          cause ≠ .unexpectedToken) ∧
      (∀ ts stop cause, Engine.execute c ts = .error stop → stop.cause = .evaluation cause →
        ∃ t ∈ ts, stop.span = some t.span ∧ t.Causes c cause) ∧
      ∀ t : Token, t.kind = .operator .unknown →
        Engine.execute c [t] = .error ⟨.evaluation .unexpectedToken, some t.span⟩ ∧
          ∀ ts, t ∈ ts → ∀ v, Engine.execute c ts ≠ .ok v := by
  refine ⟨fun t f cause failed => ?_, fun ts stop cause failed => ?_, fun t unknown => ⟨?_, ?_⟩⟩
  · exact calculate_causes (evaluate_eq_error_iff.mp failed)
  · exact Postfix.execute_causes failed
  · exact Postfix.execute_unknown_alone c unknown
  · exact fun ts member => Postfix.execute_unknown member unknown

theorem failed_operator_causes_division :
    evaluate {} ['1', '/', '0'] =
        .error ⟨.evaluation .divisionByZero, ['1', '/', '0'], some ⟨1, 1⟩⟩ ∧
      ∃ tokens, Token.tokenize (Text.normalise ['1', '/', '0']) = .ok tokens ∧
        ∃ token ∈ tokens, token.span = ⟨1, 1⟩ ∧ token.kind = .operator .divide := by
  have failed : evaluate {} ['1', '/', '0'] =
      .error ⟨.evaluation .divisionByZero, ['1', '/', '0'], some ⟨1, 1⟩⟩ := by decide +kernel
  obtain ⟨tokens, read, token, member, span, ⟨o, kind, causes⟩, _⟩ :=
    (failed_operator_causes {}).1 _ _ _ failed rfl
  cases (causes : o = .divide)
  exact ⟨failed, tokens, read, token, member, (Option.some.inj span).symm, kind⟩

end InfixCalculator

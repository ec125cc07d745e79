import InfixCalculator.Proofs.Listing

namespace InfixCalculator

variable {c : Context} {t : Text} {f : Failure}

theorem calculate_of_unread (unread : trace t = .error f) (c : Context) :
    calculate c t = .error f ∧ evaluate c t = .error f := by
  obtain ⟨hole, refused, rfl⟩ := trace_eq_error_iff.mp unread
  have failed : calculate c t = .error (.ofHole t.normalise hole) := by simp only [calculate, refused]
  exact ⟨failed, evaluate_eq_error_iff.mpr failed⟩

theorem Engine.malformed_unblamed {ts : List Token} {stop : Stop} (failed : execute c ts = .error stop)
    (malformed : stop.cause = .parsing .malformed) : stop.span = none := by
  rcases Postfix.execute_error failed with ⟨_, _, _, cause | ⟨_, cause⟩⟩ | ⟨unblamed, _⟩
  · cases malformed.symm.trans cause
  · cases malformed.symm.trans cause
  · exact unblamed

theorem unread_of_malformed (failed : evaluate c t = .error f) (malformed : f.cause = .parsing .malformed)
    (blamed : f.span ≠ none) : trace t = .error f := by
  rcases calculate_error (evaluate_eq_error_iff.mp failed) with
    ⟨hole, refused, same⟩ | ⟨tokens, stop, _, stuck, rfl⟩
  · exact trace_eq_error_iff.mpr ⟨hole, refused, same⟩
  · exact absurd (Engine.malformed_unblamed stuck malformed) blamed

theorem trace_of_calculate {r : Calculation} (found : calculate c t = .ok r) :
    trace t = .ok r.trace ∧ evaluate c t = .ok r.value := by
  have value : evaluate c t = .ok r.value := by rw [evaluate, found]; rfl
  refine ⟨?_, value⟩
  unfold calculate at found
  dsimp only at found
  split at found
  · cases found
  · next ts read =>
    split at found <;> cases found
    exact trace_eq_ok_iff.mpr ⟨ts, read, rfl⟩

theorem calculate_normalise (c : Context) (t : Text) : calculate c t.normalise = calculate c t := by
  simp only [calculate, Text.normalise_normalise]

theorem trace_normalise (t : Text) : trace t.normalise = trace t := by
  simp only [trace, Text.normalise_normalise]

theorem evaluate_normalise (c : Context) (t : Text) : evaluate c t.normalise = evaluate c t := by
  rw [evaluate, calculate_normalise, evaluate]

-- Reading, calculating and evaluating fail alike where an expression cannot be read, agree on the trace
-- and the value where they succeed, and do the same with the normalised expression.
theorem entry_points_agree (t : Text) :
    (∀ f, trace t = .error f → ∀ c, calculate c t = .error f ∧ evaluate c t = .error f) ∧
      (∀ c, (∃ f, evaluate c t = .error f ∧ f.cause = .parsing .malformed ∧ f.span ≠ none) ↔
        ∃ f, trace t = .error f) ∧
      (∀ c ts span, Engine.execute c ts ≠ .error ⟨.parsing .malformed, some span⟩) ∧
      (∀ c r, calculate c t = .ok r → trace t = .ok r.trace ∧ evaluate c t = .ok r.value) ∧
      trace t.normalise = trace t ∧
      ∀ c, calculate c t.normalise = calculate c t ∧ evaluate c t.normalise = evaluate c t ∧
        ∀ current unit, evaluateFrom current unit t = evaluate ⟨unit, some current⟩ t ∧
          evaluateFrom current unit t.normalise = evaluateFrom current unit t := by
  refine ⟨fun f unread c => calculate_of_unread unread c, fun c => ⟨?_, ?_⟩, ?_,
    fun c r found => trace_of_calculate found, trace_normalise t, fun c => ?_⟩
  · rintro ⟨f, failed, malformed, blamed⟩
    exact ⟨f, unread_of_malformed failed malformed blamed⟩
  · rintro ⟨f, unread⟩
    obtain ⟨hole, _, rfl⟩ := trace_eq_error_iff.mp unread
    exact ⟨_, (calculate_of_unread unread c).2, rfl, Option.some_ne_none hole⟩
  · intro c ts span failed
    cases Engine.malformed_unblamed failed rfl
  · exact ⟨calculate_normalise c t, evaluate_normalise c t,
      fun current unit => ⟨rfl, evaluate_normalise ⟨unit, some current⟩ t⟩⟩

theorem entry_points_agree_refused :
    (trace ['#'] = .error (.ofHole ['#'] ⟨0, 1⟩) ∧
        evaluate {} ['#'] = .error (.ofHole ['#'] ⟨0, 1⟩)) ∧
      calculate {} ['E'] = .ok ⟨Constant.euler, ['e'], ['e']⟩ ∧ trace ['E'] = .ok ⟨['e'], ['e']⟩ := by
  have unread : trace ['#'] = .error (.ofHole ['#'] ⟨0, 1⟩) := by decide +kernel
  have read : Token.tokenize (Text.normalise ['E']) = .ok [Operator.euler.token 0] :=
    Token.tokenize_eq_ok_iff.mpr (Token.reads_lexeme rfl rfl)
  have found : calculate {} ['E'] = .ok ⟨Constant.euler, ['e'], ['e']⟩ := by
    rw [calculate, read]
    rfl
  exact ⟨⟨unread, ((entry_points_agree ['#']).1 _ unread {}).2⟩, found,
    ((entry_points_agree ['E']).2.2.2.1 {} _ found).1⟩

end InfixCalculator

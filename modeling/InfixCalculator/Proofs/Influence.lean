import InfixCalculator.Proofs.Blame
import InfixCalculator.Proofs.Grammar
import InfixCalculator.Proofs.Steps

namespace InfixCalculator

-- Functions read the unit of angles, and what is relative to the current value reads that. A current
-- value that is no number is read as none.
structure Operator.Agrees (c d : Context) (o : Operator) : Prop where
  unit : o ∈ Level.function.operators → c.unit = d.unit
  current : o ∈ Level.relative.operators → c.currentValue = d.currentValue

namespace Operator

variable {c d : Context} {o : Operator}

theorem Agrees.action_apply (agrees : Agrees c d o) (stack : List Float) :
    o.action.apply c stack = o.action.apply d stack := by
  have unit := agrees.unit
  have current := agrees.current
  cases o with
  | sine | cosine | tangent | cosecant | secant | cotangent =>
    have same := unit (by decide)
    cases stack <;> simp only [action, Action.function, Action.apply, same]
  | percentage | times =>
    have same := current (by decide)
    cases stack <;> simp only [action, Action.apply, same]
  | _ => rcases stack with _ | ⟨b, _ | ⟨a, rest⟩⟩ <;> rfl

theorem Agrees.apply (agrees : Agrees c d o) (stack : List Float) :
    o.entry.apply c stack = o.entry.apply d stack := by
  rw [Entry.apply, Entry.apply, o.entry_operator, agrees.action_apply]

end Operator

def Token.Agrees (c d : Context) (t : Token) : Prop :=
  ∀ o, t.kind = .operator o → o.Agrees c d

namespace Postfix

variable {c d : Context} {ts items : List Token}

theorem applyItem_agrees {t : Token} (agrees : t.Agrees c d) (values : List Float) :
    applyItem c t values = applyItem d t values := by
  cases kind : t.kind with
  | number v => simp only [applyItem, kind]
  | operator o => simp only [applyItem, kind, (agrees o kind).apply]

theorem run_agrees (agrees : ∀ t ∈ items, t.Agrees c d) (values : List Float) :
    run c values items = run d values items := by
  induction items generalizing values with
  | nil => rfl
  | cons t items ih =>
    have later := ih fun u member => agrees u (List.mem_cons_of_mem _ member)
    simp only [run, applyItem_agrees (agrees t List.mem_cons_self), later]

theorem execute_agrees (agrees : ∀ t ∈ ts, t.Agrees c d) :
    Engine.execute c ts = Engine.execute d ts := by
  have items : ∀ t ∈ (translate [] ts).items, t.Agrees c d := by
    intro t member
    have listed : t ∈ ts := by simpa using translate_mentions ts (.inl member)
    exact agrees t listed
  rw [execute_eq_result, execute_eq_result, result, result, run_agrees items]

end Postfix

def Text.Mentions (t : Text) (o : Operator) : Prop :=
  ∃ tokens, Token.tokenize t.normalise = .ok tokens ∧ ∃ token ∈ tokens, token.kind = .operator o

theorem evaluate_agrees {c d : Context} {t : Text} (agrees : ∀ o, t.Mentions o → o.Agrees c d) :
    evaluate c t = evaluate d t := by
  cases read : Token.tokenize t.normalise with
  | error hole => simp only [evaluate, calculate, read]
  | ok tokens =>
    have listed : ∀ token ∈ tokens, token.Agrees c d := by
      intro token member o kind
      exact agrees o ⟨tokens, read, token, member, kind⟩
    rw [evaluate_eq_execute c read, evaluate_eq_execute d read, Postfix.execute_agrees listed]

theorem Context.currentValue_nan (unit : AngleUnit) {v : Float} (nan : Binary64.isNaN v = true) :
    Context.currentValue ⟨unit, some v⟩ = Context.currentValue ⟨unit, none⟩ := by
  simp only [Context.currentValue, nan, if_true]

-- The unit of angles plays no part where there is no function, the current value none where there is
-- no `%` and no `x`, and one that is no number is the same as none.
theorem evaluate_reads_context (t : Text) :
    ((∀ o ∈ Level.function.operators, ¬ t.Mentions o) →
      ∀ current first second, evaluate ⟨first, current⟩ t = evaluate ⟨second, current⟩ t) ∧
      ((∀ o ∈ Level.relative.operators, ¬ t.Mentions o) →
        ∀ unit first second, evaluate ⟨unit, first⟩ t = evaluate ⟨unit, second⟩ t) ∧
      ∀ unit v, Binary64.isNaN v = true → evaluate ⟨unit, some v⟩ t = evaluate ⟨unit, none⟩ t := by
  refine ⟨fun none current first second => ?_, fun none unit first second => ?_,
    fun unit v nan => ?_⟩
  · refine evaluate_agrees fun o mentioned => ⟨fun function => ?_, fun _ => rfl⟩
    exact absurd mentioned (none o function)
  · refine evaluate_agrees fun o mentioned => ⟨fun _ => rfl, fun relative => ?_⟩
    exact absurd mentioned (none o relative)
  · exact evaluate_agrees fun o _ => ⟨fun _ => rfl, fun _ => Context.currentValue_nan unit nan⟩

theorem not_mentions {t : Text} {tokens : List Token}
    (read : Token.tokenize t.normalise = .ok tokens) {o : Operator}
    (absent : ∀ token ∈ tokens, token.operator? ≠ some o) : ¬ t.Mentions o := by
  rintro ⟨others, listed, token, member, kind⟩
  cases read.symm.trans listed
  exact absent token member (by simp [Token.operator?, kind])

theorem evaluate_reads_context_relative :
    (∀ o ∈ Level.function.operators, ¬ Text.Mentions ['2', ' ', 'x'] o) ∧
      evaluate ⟨.degrees, some 3⟩ ['2', ' ', 'x'] = evaluate ⟨.radians, some 3⟩ ['2', ' ', 'x'] ∧
      Binary64.isNaN (0 / 0) = true ∧
      evaluate ⟨.degrees, some (0 / 0)⟩ ['2', ' ', 'x'] = evaluate ⟨.degrees, none⟩ ['2', ' ', 'x'] := by
  have written : Word.Written [Numeral.word ['2'], Operator.times.word] ['2', ' ', 'x'] :=
    Word.written_line (by simp) (by decide)
  have read := written.tokenize
    (.cons (Word.legible_digit '2' rfl true) (.cons (Word.legible_operator rfl) .nil))
  have none : ∀ o ∈ Level.function.operators, ¬ Text.Mentions ['2', ' ', 'x'] o := by
    intro o function
    refine not_mentions read ?_
    revert o
    decide
  obtain ⟨unit, _, nan⟩ := evaluate_reads_context ['2', ' ', 'x']
  have noNumber : Binary64.isNaN (0 / 0) = true := by decide +kernel
  exact ⟨none, unit none _ _ _, noNumber, nan _ _ noNumber⟩

end InfixCalculator

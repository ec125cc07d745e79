import InfixCalculator.Proofs.Application

namespace InfixCalculator

namespace Operator

variable {o : Operator} {k : Nat} {c : Context} {stack left : List Float} {cause : EvaluationCause}

theorem asking_ok_iff {results : List Float} :
    (o.asking k).apply c stack = .ok results ↔
      k ≤ stack.length ∧ ∃ operands below value, operands.length = o.operandCount ∧
        stack = operands ++ below ∧ Makes c o operands (.ok value) ∧ results = value :: below := by
  constructor
  · intro applied
    rcases asking_cases o k c stack with
      ⟨_, shape⟩ | ⟨asked, ⟨_, shape⟩ | ⟨operands, below, made, split, makes, shape⟩⟩
    · cases shape.symm.trans applied
    · cases shape.symm.trans applied
    · cases made with
      | error cause => cases shape.symm.trans applied
      | ok value =>
        cases shape.symm.trans applied
        exact ⟨asked, operands, below, value, makes.count, split, makes, rfl⟩
  · rintro ⟨asked, operands, below, value, _, rfl, makes, rfl⟩
    exact makes.apply_asking asked

theorem asking_error_iff :
    (o.asking k).apply c stack = .error ⟨cause, left⟩ ↔
      cause = .missingArguments ∧
          (stack.length < k ∧ left = stack ∨
            k ≤ stack.length ∧ stack.length < o.operandCount ∧ left = []) ∨
        k ≤ stack.length ∧ ∃ operands, operands.length = o.operandCount ∧
          stack = operands ++ left ∧ Makes c o operands (.error cause) := by
  constructor
  · intro failed
    rcases asking_cases o k c stack with
      ⟨short, shape⟩ | ⟨asked, ⟨few, shape⟩ | ⟨operands, below, made, split, makes, shape⟩⟩
    · cases shape.symm.trans failed
      exact .inl ⟨rfl, .inl ⟨short, rfl⟩⟩
    · cases shape.symm.trans failed
      exact .inl ⟨rfl, .inr ⟨asked, few, rfl⟩⟩
    · cases made with
      | ok value => cases shape.symm.trans failed
      | error cause =>
        cases shape.symm.trans failed
        exact .inr ⟨asked, operands, makes.count, split, makes⟩
  · rintro (⟨rfl, ⟨short, rfl⟩ | ⟨asked, few, rfl⟩⟩ | ⟨asked, operands, _, rfl, makes⟩)
    · rw [apply_asking, if_pos short]
    · rw [apply_asking, if_neg (Nat.not_lt.mpr asked)]
      exact Action.apply_short c _ (by rwa [action_operands])
    · exact makes.apply_asking asked

-- What an application for which `k` operands are asked does to a stack. It takes as many values off the
-- top as an operator of this kind has operands, makes one value of them or none, and moves none below.
structure Frame (o : Operator) (k : Nat) (c : Context) (stack : List Float) : Prop where
  succeeds : ∀ results, (o.asking k).apply c stack = .ok results ↔
    k ≤ stack.length ∧ ∃ operands below value, operands.length = o.operandCount ∧
      stack = operands ++ below ∧ Makes c o operands (.ok value) ∧ results = value :: below
  fails : ∀ cause left, (o.asking k).apply c stack = .error ⟨cause, left⟩ →
    ∃ taken : List Float, taken.length ≤ o.operandCount ∧ stack = taken ++ left
  missing : (∃ left, (o.asking k).apply c stack = .error ⟨.missingArguments, left⟩) ↔
    stack.length < k ∨ stack.length < o.operandCount
  untouched : ∀ left, o.entry.apply c stack = .error ⟨.missingArguments, left⟩ → left = stack
  refuses : ∀ cause left, cause ≠ .missingArguments →
    ((o.asking k).apply c stack = .error ⟨cause, left⟩ ↔
      k ≤ stack.length ∧ ∃ operands, operands.length = o.operandCount ∧
        stack = operands ++ left ∧ Makes c o operands (.error cause))
  zero : ∀ left, (o.asking k).apply c stack = .error ⟨.divisionByZero, left⟩ →
    o = .divide ∧ ∃ b a, stack = b :: a :: left ∧ (b == 0) = true
  imaginary : ∀ left, (o.asking k).apply c stack = .error ⟨.imaginaryNumber, left⟩ →
    o = .power ∧ ∃ b a, stack = b :: a :: left ∧ Imaginary a b
  absent : ∀ left, (o.asking k).apply c stack = .error ⟨.currentValueExpected, left⟩ →
    (o = .percentage ∨ o = .times) ∧ (∃ v, stack = v :: left) ∧ ∀ current, ¬ c.Holds current
  never : ∀ left, (o.asking k).apply c stack = .error ⟨.unexpectedToken, left⟩ →
    o.place? = none ∧ left = stack

theorem refuses_iff (other : cause ≠ .missingArguments) :
    (o.asking k).apply c stack = .error ⟨cause, left⟩ ↔
      k ≤ stack.length ∧ ∃ operands, operands.length = o.operandCount ∧
        stack = operands ++ left ∧ Makes c o operands (.error cause) :=
  asking_error_iff.trans (or_iff_right fun missing => other missing.1)

theorem missing_iff :
    (o.asking k).apply c stack = .error ⟨.missingArguments, left⟩ ↔
      stack.length < k ∧ left = stack ∨
        k ≤ stack.length ∧ stack.length < o.operandCount ∧ left = [] := by
  refine asking_error_iff.trans (Iff.trans (or_iff_left ?_) (and_iff_right rfl))
  rintro ⟨_, _, _, _, makes⟩
  exact makes.not_missing rfl

-- Applying an operator touches its own operands alone, however many are asked for.
theorem apply_frame (o : Operator) (k : Nat) (c : Context) (stack : List Float) :
    Frame o k c stack where
  succeeds _ := asking_ok_iff
  fails cause left failed := by
    rcases asking_error_iff.mp failed with
      ⟨_, ⟨_, rfl⟩ | ⟨_, few, rfl⟩⟩ | ⟨_, operands, count, split, _⟩
    · exact ⟨[], Nat.zero_le _, rfl⟩
    · exact ⟨stack, Nat.le_of_lt few, (List.append_nil stack).symm⟩
    · exact ⟨operands, Nat.le_of_eq count, split⟩
  missing := by
    constructor
    · rintro ⟨left, failed⟩
      rcases missing_iff.mp failed with ⟨short, _⟩ | ⟨_, few, _⟩
      · exact .inl short
      · exact .inr few
    · intro short
      by_cases asked : stack.length < k
      · exact ⟨stack, missing_iff.mpr (.inl ⟨asked, rfl⟩)⟩
      · exact ⟨[], missing_iff.mpr (.inr ⟨Nat.not_lt.mp asked, short.resolve_left asked, rfl⟩)⟩
  untouched left failed := by
    rw [← o.asking_operandCount] at failed
    rcases missing_iff.mp failed with ⟨_, same⟩ | ⟨asked, few, _⟩
    · exact same
    · exact absurd few (Nat.not_lt.mpr asked)
  refuses cause left := refuses_iff
  zero left failed := by
    obtain ⟨_, operands, _, rfl, makes⟩ := (refuses_iff (by simp)).mp failed
    cases makes with
    | zero zero => exact ⟨rfl, _, _, rfl, zero⟩
  imaginary left failed := by
    obtain ⟨_, operands, _, rfl, makes⟩ := (refuses_iff (by simp)).mp failed
    cases makes with
    | imaginary imaginary => exact ⟨rfl, _, _, rfl, imaginary⟩
  absent left failed := by
    obtain ⟨_, operands, _, rfl, makes⟩ := (refuses_iff (by simp)).mp failed
    cases makes with
    | absent which none => exact ⟨which, ⟨_, rfl⟩, none⟩
  never left failed := by
    obtain ⟨_, operands, _, rfl, makes⟩ := (refuses_iff (by simp)).mp failed
    cases makes with
    | refused placed => exact ⟨placed, rfl⟩

end Operator

end InfixCalculator

import InfixCalculator.Operator.Application
import Mathlib.Data.List.Basic

namespace InfixCalculator

inductive Place
  | alone
  | before
  | behind
  | between
deriving DecidableEq

def Place.operands : Place → Nat
  | alone => 0
  | before | behind => 1
  | between => 2

-- Neither a parenthesis nor an unknown operator is ever applied.
def Operator.place? : Operator → Option Place
  | euler | pi | tau => some .alone
  | plusSign | minusSign | sine | cosine | tangent | cosecant | secant | cotangent => some .before
  | percentage | times => some .behind
  | add | subtract | multiply | divide | power => some .between
  | openParen | closeParen | unknown => none

def Operator.operandCount (o : Operator) : Nat := (o.place?.map Place.operands).getD 0

def Context.Holds (c : Context) (v : Float) : Prop := c.current = some v ∧ Binary64.isNaN v = false

theorem Context.Holds.currentValue {c : Context} {v : Float} (held : c.Holds v) :
    c.currentValue = .ok v := by
  rw [Context.currentValue, held.1]
  simp only [held.2, Bool.false_eq_true, if_false]

theorem Context.currentValue_of_none {c : Context} (none : ∀ v, ¬ c.Holds v) :
    c.currentValue = .error .currentValueExpected := by
  unfold Context.currentValue
  split
  · next v present =>
    cases number : Binary64.isNaN v with
    | false => exact absurd ⟨present, number⟩ (none v)
    | true => rfl
  · rfl

def Imaginary (base exponent : Float) : Prop :=
  base < 0 ∧ Binary64.isFinite exponent = true ∧ Binary64.hasFraction exponent = true

theorem realPower_of_imaginary {a b : Float} (imaginary : Imaginary a b) :
    realPower a b = .error .imaginaryNumber := by
  obtain ⟨negative, finite, fraction⟩ := imaginary
  simp only [realPower, negative, finite, fraction, decide_true, Bool.and_self, if_true]

theorem realPower_of_real {a b : Float} (real : ¬ Imaginary a b) :
    realPower a b = .ok (a.pow b) := by
  unfold realPower
  refine if_neg fun guarded => real ?_
  simpa only [Imaginary, Bool.and_eq_true, decide_eq_true_eq, and_assoc] using guarded

-- The stack with a result on what was below its operands. That stays also when there is none.
def restack (below : List Float) : Except EvaluationCause Float → Except Refusal (List Float)
  | .ok value => .ok (value :: below)
  | .error cause => .error ⟨cause, below⟩

theorem Action.apply_short (c : Context) (a : Action) {stack : List Float}
    (few : stack.length < a.operands) : a.apply c stack = .error ⟨.missingArguments, []⟩ := by
  cases a with
  | refused => simp [operands] at few
  | constant value => simp [operands] at few
  | unary f =>
    rcases stack with _ | ⟨v, below⟩
    · rfl
    · simp [operands] at few
  | binary f =>
    rcases stack with _ | ⟨b, _ | ⟨a, below⟩⟩
    · rfl
    · rfl
    · simp only [operands, List.length_cons] at few
      omega

namespace Operator

theorem operandCount_of_place {o : Operator} {place : Place} (placed : o.place? = some place) :
    o.operandCount = place.operands := by
  simp [operandCount, placed]

theorem not_parenthesis_of_place {o : Operator} {place : Place} (placed : o.place? = some place) :
    o ≠ .openParen ∧ o ≠ .closeParen := by
  constructor <;> rintro rfl <;> cases placed

theorem entry_operator (o : Operator) : o.entry.operator = o := by cases o <;> rfl

theorem entry_arity (o : Operator) : o.entry.arity = o.operandCount := by cases o <;> rfl

theorem action_operands (o : Operator) : o.action.operands = o.operandCount := by cases o <;> rfl

-- What each operator makes of its operands, the last of them first.
inductive Makes (c : Context) : Operator → List Float → Except EvaluationCause Float → Prop
  | add : Makes c .add [b, a] (.ok (a + b))
  | subtract : Makes c .subtract [b, a] (.ok (a - b))
  | multiply : Makes c .multiply [b, a] (.ok (a * b))
  | divide : (b == 0) = false → Makes c .divide [b, a] (.ok (a / b))
  | power : ¬ Imaginary a b → Makes c .power [b, a] (.ok (a.pow b))
  | percentage : c.Holds current → Makes c .percentage [v] (.ok (v * current / 100))
  | times : c.Holds current → Makes c .times [v] (.ok (v * current))
  | sine : Makes c .sine [v] (.ok (c.unit.toRadians v).sin)
  | cosine : Makes c .cosine [v] (.ok (c.unit.toRadians v).cos)
  | tangent : Makes c .tangent [v] (.ok (c.unit.toRadians v).tan)
  | cosecant : Makes c .cosecant [v] (.ok (1 / (c.unit.toRadians v).sin))
  | secant : Makes c .secant [v] (.ok (1 / (c.unit.toRadians v).cos))
  | cotangent : Makes c .cotangent [v] (.ok (1 / (c.unit.toRadians v).tan))
  | minusSign : Makes c .minusSign [v] (.ok (-v))
  | plusSign : Makes c .plusSign [v] (.ok v)
  | euler : Makes c .euler [] (.ok Constant.euler)
  | pi : Makes c .pi [] (.ok Constant.pi)
  | tau : Makes c .tau [] (.ok Constant.tau)
  | zero : (b == 0) = true → Makes c .divide [b, a] (.error .divisionByZero)
  | imaginary : Imaginary a b → Makes c .power [b, a] (.error .imaginaryNumber)
  | absent : o = .percentage ∨ o = .times → (∀ current, ¬ c.Holds current) →
      Makes c o [v] (.error .currentValueExpected)
  | refused : o.place? = none → Makes c o [] (.error .unexpectedToken)

inductive Refuses (c : Context) (stack : List Float) (o : Operator) : EvaluationCause → Prop
  | short : stack.length < o.operandCount → Refuses c stack o .missingArguments
  | made : Makes c o operands (.error cause) → Refuses c stack o cause

variable {c : Context} {o : Operator} {k : Nat} {operands stack results below : List Float}
  {made : Except EvaluationCause Float} {value : Float} {cause : EvaluationCause}

theorem Makes.count (makes : Makes c o operands made) : operands.length = o.operandCount := by
  cases makes with
  | absent which => rcases which with rfl | rfl <;> rfl
  | refused placed => simp [operandCount, placed]
  | _ => rfl

theorem Makes.placed (makes : Makes c o operands (.ok value)) :
    ∃ place, o.place? = some place ∧ operands.length = place.operands := by
  have count := makes.count
  cases placed : o.place? with
  | none => cases makes <;> cases placed
  | some place => exact ⟨place, rfl, count.trans (operandCount_of_place placed)⟩

theorem Makes.not_missing (makes : Makes c o operands (.error cause)) :
    cause ≠ .missingArguments := by
  rintro rfl
  cases makes

theorem exists_makes (c : Context) (count : operands.length = o.operandCount) :
    ∃ made, Makes c o operands made := by
  have relative : (∃ current, c.Holds current) ∨ ∀ current, ¬ c.Holds current :=
    (Classical.em _).imp_right not_exists.mp
  cases o with
  | openParen | closeParen | unknown =>
    cases List.length_eq_zero_iff.mp count
    exact ⟨_, .refused rfl⟩
  | euler | pi | tau =>
    cases List.length_eq_zero_iff.mp count
    exact ⟨_, by constructor⟩
  | percentage =>
    obtain ⟨v, rfl⟩ := List.length_eq_one_iff.mp count
    rcases relative with ⟨current, held⟩ | none
    · exact ⟨_, .percentage held⟩
    · exact ⟨_, .absent (.inl rfl) none⟩
  | times =>
    obtain ⟨v, rfl⟩ := List.length_eq_one_iff.mp count
    rcases relative with ⟨current, held⟩ | none
    · exact ⟨_, .times held⟩
    · exact ⟨_, .absent (.inr rfl) none⟩
  | sine | cosine | tangent | cosecant | secant | cotangent | minusSign | plusSign =>
    obtain ⟨v, rfl⟩ := List.length_eq_one_iff.mp count
    exact ⟨_, by constructor⟩
  | add | subtract | multiply =>
    obtain ⟨b, a, rfl⟩ := List.length_eq_two.mp count
    exact ⟨_, by constructor⟩
  | divide =>
    obtain ⟨b, a, rfl⟩ := List.length_eq_two.mp count
    cases zero : b == 0 with
    | true => exact ⟨_, .zero zero⟩
    | false => exact ⟨_, .divide zero⟩
  | power =>
    obtain ⟨b, a, rfl⟩ := List.length_eq_two.mp count
    rcases Classical.em (Imaginary a b) with imaginary | real
    · exact ⟨_, .imaginary imaginary⟩
    · exact ⟨_, .power real⟩

-- What lies below the operands is neither read nor moved.
theorem Makes.action_apply (makes : Makes c o operands made) (below : List Float) :
    o.action.apply c (operands ++ below) = restack below made := by
  cases makes with
  | @divide b a nonzero =>
    have defined : quotient a b = .ok (a / b) := by simp only [quotient, nonzero, Bool.false_eq_true, if_false]
    simp only [action, List.cons_append, Action.apply, defined, restack, List.nil_append]
  | @zero b a zero =>
    have undefined : quotient a b = .error .divisionByZero := by simp only [quotient, zero, if_true]
    simp only [action, List.cons_append, Action.apply, undefined, restack, List.nil_append]
  | power real =>
    simp only [action, List.cons_append, Action.apply, realPower_of_real real, restack, List.nil_append]
  | imaginary imaginary =>
    simp only [action, List.cons_append, Action.apply, realPower_of_imaginary imaginary, restack,
      List.nil_append]
  | percentage held | times held =>
    simp only [action, List.cons_append, Action.apply, held.currentValue, Except.map, restack,
      List.nil_append]
  | absent which none =>
    have absent := Context.currentValue_of_none none
    rcases which with rfl | rfl <;>
      simp only [action, List.cons_append, Action.apply, absent, Except.map, restack, List.nil_append]
  | refused placed => cases o <;> first | rfl | cases placed
  | _ => rfl

theorem action_cases (o : Operator) (c : Context) (stack : List Float) :
    stack.length < o.operandCount ∧ o.action.apply c stack = .error ⟨.missingArguments, []⟩ ∨
      ∃ operands below made, stack = operands ++ below ∧ Makes c o operands made ∧
        o.action.apply c stack = restack below made := by
  rcases Nat.lt_or_ge stack.length o.operandCount with few | enough
  · exact .inl ⟨few, Action.apply_short c _ (by rwa [action_operands])⟩
  · obtain ⟨made, makes⟩ := exists_makes c (List.length_take_of_le enough)
    have applied := makes.action_apply (stack.drop o.operandCount)
    rw [List.take_append_drop] at applied
    exact .inr ⟨_, _, made, (List.take_append_drop o.operandCount stack).symm, makes, applied⟩

-- The row of the operator, with as many operands asked for as `k` says.
def asking (o : Operator) (k : Nat) : Entry := { o.entry with arity := k }

theorem asking_operandCount (o : Operator) : o.asking o.operandCount = o.entry := by
  rw [← o.entry_arity]
  rfl

theorem apply_asking (o : Operator) (k : Nat) (c : Context) (stack : List Float) :
    (o.asking k).apply c stack =
      if stack.length < k then .error ⟨.missingArguments, stack⟩ else o.action.apply c stack := by
  rw [Entry.apply, asking, o.entry_operator]

theorem Makes.apply_asking (makes : Makes c o operands made)
    (asked : k ≤ (operands ++ below).length) :
    (o.asking k).apply c (operands ++ below) = restack below made := by
  rw [Operator.apply_asking, if_neg (Nat.not_lt.mpr asked), makes.action_apply]

-- There are two ways to fall short: of what is asked for, which leaves the stack as it is, and of
-- what is taken off, which leaves nothing.
theorem asking_cases (o : Operator) (k : Nat) (c : Context) (stack : List Float) :
    stack.length < k ∧ (o.asking k).apply c stack = .error ⟨.missingArguments, stack⟩ ∨
      k ≤ stack.length ∧
        (stack.length < o.operandCount ∧
            (o.asking k).apply c stack = .error ⟨.missingArguments, []⟩ ∨
          ∃ operands below made, stack = operands ++ below ∧ Makes c o operands made ∧
            (o.asking k).apply c stack = restack below made) := by
  rw [apply_asking]
  split
  · next short => exact .inl ⟨short, rfl⟩
  · next asked => exact .inr ⟨Nat.not_lt.mp asked, action_cases o c stack⟩

theorem Makes.apply (makes : Makes c o operands made) (below : List Float) :
    o.entry.apply c (operands ++ below) = restack below made := by
  rw [← o.asking_operandCount, makes.apply_asking]
  simp [makes.count]

theorem apply_cases (o : Operator) (c : Context) (stack : List Float) :
    stack.length < o.operandCount ∧ o.entry.apply c stack = .error ⟨.missingArguments, stack⟩ ∨
      ∃ operands below made, stack = operands ++ below ∧ Makes c o operands made ∧
        o.entry.apply c stack = restack below made := by
  rw [← o.asking_operandCount]
  rcases asking_cases o o.operandCount c stack with short | ⟨asked, few | taken⟩
  · exact .inl short
  · exact absurd few.1 (Nat.not_lt.mpr asked)
  · exact .inr taken

theorem apply_ok (applied : o.entry.apply c stack = .ok results) :
    ∃ operands below value, stack = operands ++ below ∧ Makes c o operands (.ok value) ∧
      results = value :: below := by
  rcases apply_cases o c stack with ⟨_, short⟩ | ⟨operands, below, made, split, makes, shape⟩
  · cases short.symm.trans applied
  · cases made with
    | error cause => cases shape.symm.trans applied
    | ok value =>
      cases shape.symm.trans applied
      exact ⟨operands, below, value, split, makes, rfl⟩

theorem apply_append (applied : o.entry.apply c stack = .ok results) (below : List Float) :
    o.entry.apply c (stack ++ below) = .ok (results ++ below) := by
  obtain ⟨operands, rest, value, rfl, makes, rfl⟩ := apply_ok applied
  rw [List.append_assoc, makes.apply]
  rfl

theorem refuses_of_error {refusal : Refusal} (failed : o.entry.apply c stack = .error refusal) :
    Refuses c stack o refusal.cause := by
  rcases apply_cases o c stack with ⟨few, shape⟩ | ⟨operands, below, made, _, makes, shape⟩
  · cases shape.symm.trans failed
    exact .short few
  · cases made with
    | ok value => cases shape.symm.trans failed
    | error cause =>
      cases shape.symm.trans failed
      exact .made makes

end Operator

end InfixCalculator

import InfixCalculator.Proofs.Grammar
import InfixCalculator.Proofs.Parentheses
import InfixCalculator.Proofs.Steps

namespace InfixCalculator

namespace Token

def place? (t : Token) : Option Place := t.operator?.bind Operator.place?

def isOperand (t : Token) : Bool := t.isNumber || t.place? == some .alone

def isBinary (t : Token) : Bool := t.place? == some .between

end Token

def operands (ts : List Token) : Nat := ts.countP Token.isOperand

def binaries (ts : List Token) : Nat := ts.countP Token.isBinary

theorem operands_cons (t : Token) (ts : List Token) :
    operands (t :: ts) = operands [t] + operands ts :=
  @List.countP_append _ Token.isOperand [t] ts

theorem binaries_cons (t : Token) (ts : List Token) :
    binaries (t :: ts) = binaries [t] + binaries ts :=
  @List.countP_append _ Token.isBinary [t] ts

theorem operands_number {t : Token} {v : Float} (kind : t.kind = .number v) :
    operands [t] = 1 ∧ binaries [t] = 0 := by
  simp [operands, binaries, Token.isOperand, Token.isBinary, Token.isNumber, Token.place?,
    Token.operator?, kind]

theorem operands_operator {t : Token} {o : Operator} (kind : t.kind = .operator o) :
    operands [t] = (if o.place? = some .alone then 1 else 0) ∧
      binaries [t] = if o.place? = some .between then 1 else 0 := by
  simp [operands, binaries, List.countP_singleton, Token.isOperand, Token.isBinary, Token.isNumber,
    Token.place?, Token.operator?, kind]

theorem not_parenthesis_of_counted {t : Token} (counted : t.isOperand = true ∨ t.isBinary = true) :
    t.isParenthesis = false := by
  cases kind : t.kind with
  | number v => simp [Token.isParenthesis, Token.isOpen, Token.operator?, kind]
  | operator o =>
    cases o with
    | openParen | closeParen =>
      simp [Token.isOperand, Token.isBinary, Token.isNumber, Token.place?, Token.operator?, kind,
        Operator.place?] at counted
    | _ => simp [Token.isParenthesis, Token.isOpen, Token.operator?, kind]

theorem countP_inside {p : Token → Bool} (counted : ∀ t, p t = true → t.isParenthesis = false)
    (ts : List Token) : (ts.filter (!·.isParenthesis)).countP p = ts.countP p := by
  rw [List.countP_filter]
  refine List.countP_congr ?_
  intro t _
  simpa using counted t

namespace Postfix

variable {c : Context} {ts : List Token} {values results : List Float}

-- An operand makes the stack one higher, a binary operator one lower, and every
-- other operator leaves its height.
theorem applyItem_height {t : Token} (applied : applyItem c t values = .ok results) :
    results.length + binaries [t] = values.length + operands [t] ∧ results ≠ [] := by
  unfold applyItem at applied
  split at applied
  · next v kind =>
    cases applied
    obtain ⟨one, none⟩ := operands_number kind
    exact ⟨by rw [one, none]; rfl, by simp⟩
  · next o kind =>
    split at applied
    · next ran =>
      cases applied
      obtain ⟨alone, between⟩ := operands_operator kind
      obtain ⟨taken, below, value, rfl, makes, rfl⟩ := Operator.apply_ok ran
      obtain ⟨place, placed, count⟩ := makes.placed
      refine ⟨?_, List.cons_ne_nil _ _⟩
      rw [alone, between, placed, List.length_append, count, List.length_cons]
      cases place <;> simp [Place.operands] <;> omega
    · cases applied

theorem run_height {items : List Token} (ran : run c values items = .ok results) :
    results.length + binaries items = values.length + operands items ∧
      (items ≠ [] ∨ values ≠ [] → results ≠ []) := by
  induction items generalizing values with
  | nil => cases ran; simp [binaries, operands]
  | cons t items ih =>
    unfold run at ran
    split at ran
    · next between applied =>
      obtain ⟨first, nonempty⟩ := applyItem_height applied
      obtain ⟨later, left⟩ := ih ran
      refine ⟨?_, fun _ => left (.inr nonempty)⟩
      rw [binaries_cons, operands_cons]
      omega
    · cases ran

theorem items_parentheses (finished : (translate [] ts).unpaired? = none) :
    (translate [] ts).items = [] ↔ ∀ t ∈ ts, t.isParenthesis = true := by
  have perm := items_perm ts waiting_nil finished
  rw [← List.length_eq_zero_iff, perm.length_eq, List.length_eq_zero_iff]
  simp

theorem Leaves.height (left : Leaves c ts values) :
    values.length + binaries ts = operands ts := by
  obtain ⟨finished, ran⟩ := left
  have perm := items_perm ts waiting_nil finished
  rw [List.filter_nil, List.nil_append] at perm
  have taken : operands (translate [] ts).items = operands ts :=
    (perm.countP_eq _).trans
      (countP_inside (fun _ counted => not_parenthesis_of_counted (.inl counted)) ts)
  have applied : binaries (translate [] ts).items = binaries ts :=
    (perm.countP_eq _).trans
      (countP_inside (fun _ counted => not_parenthesis_of_counted (.inr counted)) ts)
  simpa [taken, applied] using (run_height ran).1

theorem Leaves.empty_iff (left : Leaves c ts values) :
    values = [] ↔ ∀ t ∈ ts, t.isParenthesis = true := by
  obtain ⟨finished, ran⟩ := left
  rw [← items_parentheses finished]
  constructor
  · rintro rfl
    by_contra some
    exact (run_height ran).2 (.inl some) rfl
  · intro none
    rw [none] at ran
    cases ran
    rfl

theorem leaves_nil (c : Context) (balanced : Balanced 0 ts)
    (parentheses : ∀ t ∈ ts, t.isParenthesis = true) : Leaves c ts [] := by
  have finished := (translate_finished_iff [] ts).mpr balanced
  exact ⟨finished, by rw [(items_parentheses finished).mpr parentheses]; rfl⟩

theorem Leaves.no_operands (left : Leaves c ts values) : values = [] ↔ operands ts = 0 := by
  have height := left.height
  constructor
  · intro none
    refine List.countP_eq_zero.mpr ?_
    intro t member counted
    have passed := left.empty_iff.mp none t member
    rw [not_parenthesis_of_counted (.inl counted)] at passed
    cases passed
  · intro none
    exact List.length_eq_zero_iff.mp (by omega)

theorem Leaves.execute (left : Leaves c ts values) :
    Engine.execute c ts = Engine.outcome values := by
  rw [execute_eq_result, result, left.2]
  simp only [left.1]
  rcases values with _ | ⟨_, _ | _⟩ <;> rfl

end Postfix

def Engine.FailsWith (c : Context) (ts : List Token) (cause : Cause) : Prop :=
  ∃ span, Engine.execute c ts = .error ⟨cause, span⟩

open Engine (FailsWith)

theorem Engine.FailsWith.unique {c : Context} {ts : List Token} {first second : Cause}
    (one : FailsWith c ts first) (other : FailsWith c ts second) : first = second := by
  obtain ⟨_, one⟩ := one
  obtain ⟨_, other⟩ := other
  cases one.symm.trans other
  rfl

theorem execute_cases (c : Context) (ts : List Token) :
    (∃ cause, FailsWith c ts (.evaluation cause)) ∨
      ¬ Balanced 0 ts ∧ FailsWith c ts (.parsing .unmatchedParentheses) ∨
      Balanced 0 ts ∧ ∃ values, Postfix.Leaves c ts values := by
  have finished := Postfix.translate_finished_iff [] ts
  have executed := Postfix.execute_eq_result c ts
  unfold Postfix.result at executed
  split at executed
  · next stop ran =>
    obtain ⟨_, _, refused⟩ := Postfix.run_refused ran
    cases refused with
    | intro => exact .inl ⟨_, _, executed⟩
  · next values ran =>
    split at executed
    · next paren unpaired =>
      refine .inr (.inl ⟨fun balanced => ?_, some paren.span, executed⟩)
      rw [finished.mpr balanced] at unpaired
      cases unpaired
    · next paired => exact .inr (.inr ⟨finished.mp paired, values, paired, ran⟩)

theorem Engine.outcome_ok_iff {values : List Float} :
    (∃ v, outcome values = .ok v) ↔ values.length = 1 := by
  rcases values with _ | ⟨v, _ | _⟩ <;> simp [outcome]

theorem Engine.outcome_malformed_iff {values : List Float} :
    outcome values = .error ⟨.parsing .malformed, none⟩ ↔ 2 ≤ values.length := by
  rcases values with _ | ⟨v, _ | _⟩ <;> simp [outcome]

theorem Engine.outcome_empty_iff {values : List Float} :
    (∃ span, outcome values = .error ⟨.parsing .emptyExpression, span⟩) ↔ values = [] := by
  rcases values with _ | ⟨v, _ | _⟩ <;> simp [outcome]

theorem Engine.outcome_paired {values : List Float} {span : Option Span} :
    outcome values ≠ .error ⟨.parsing .unmatchedParentheses, span⟩ := by
  rcases values with _ | ⟨v, _ | _⟩ <;> simp [outcome]

theorem Postfix.Leaves.counted {c : Context} {ts : List Token} {values : List Float}
    (left : Leaves c ts values) :
    ((∃ v, Engine.execute c ts = .ok v) ↔ operands ts = binaries ts + 1) ∧
      (Engine.execute c ts = .error ⟨.parsing .malformed, none⟩ ↔ binaries ts + 2 ≤ operands ts) ∧
      (FailsWith c ts (.parsing .emptyExpression) ↔ operands ts = 0) ∧
      ¬ (0 < operands ts ∧ operands ts ≤ binaries ts) := by
  have height := left.height
  have none := left.no_operands
  rw [FailsWith, left.execute, Engine.outcome_ok_iff, Engine.outcome_malformed_iff,
    Engine.outcome_empty_iff]
  refine ⟨by omega, by omega, none, ?_⟩
  rintro ⟨some, few⟩
  have empty := none.mp (List.length_eq_zero_iff.mp (by omega))
  omega

theorem emptyExpression_iff {c : Context} {ts : List Token} :
    FailsWith c ts (.parsing .emptyExpression) ↔
      (∀ t ∈ ts, t.isParenthesis = true) ∧ Balanced 0 ts := by
  constructor
  · intro empty
    rcases execute_cases c ts with ⟨cause, failed⟩ | ⟨_, failed⟩ | ⟨balanced, values, left⟩
    · cases failed.unique empty
    · cases failed.unique empty
    · rw [FailsWith, left.execute, Engine.outcome_empty_iff] at empty
      exact ⟨left.empty_iff.mp empty, balanced⟩
  · rintro ⟨parentheses, balanced⟩
    exact ⟨none, (Postfix.leaves_nil c balanced parentheses).execute⟩

theorem evaluate_error_of_counts {c : Context} {t : Text} {ts : List Token} {f : Failure}
    (balanced : Balanced 0 ts) (count : operands ts = binaries ts + 1)
    (read : Token.tokenize t.normalise = .ok ts) (failed : evaluate c t = .error f) :
    ∃ cause, f.cause = .evaluation cause := by
  rw [evaluate_eq_execute c read] at failed
  rcases execute_cases c ts with ⟨cause, span, stuck⟩ | ⟨unbalanced, _⟩ | ⟨_, values, left⟩
  · rw [stuck] at failed
    cases failed
    exact ⟨cause, rfl⟩
  · exact absurd balanced unbalanced
  · obtain ⟨v, ran⟩ := left.counted.1.mpr count
    rw [ran] at failed
    cases failed

inductive Expression.WellFormed : Expression → Prop
  | number : WellFormed (.number t)
  | constant : o.place? = some .alone → WellFormed (.constant o)
  | enclosed {content : Expression} : WellFormed content → WellFormed (.enclosed content)
  | before {o : Operator} : o.place? = some .before → WellFormed operand →
      WellFormed (.before o operand)
  | behind {o : Operator} : o.place? = some .behind → WellFormed operand →
      WellFormed (.behind o operand)
  | between {o : Operator} : o.place? = some .between → WellFormed left → WellFormed right →
      WellFormed (.between o left right)

theorem balanced_operator {o : Operator} {place : Place} (placed : o.place? = some place)
    (position depth : Nat) (rest : List Token) :
    Balanced depth (o.token position :: rest) ↔ Balanced depth rest := by
  obtain ⟨opens, closes⟩ := openings_operator (t := o.token position) rfl
  obtain ⟨notOpen, notClose⟩ := Operator.not_parenthesis_of_place placed
  rw [if_neg notOpen] at opens
  rw [if_neg notClose] at closes
  exact balanced_cons (by rw [opens, closes])

theorem operands_append (first second : List Token) :
    operands (first ++ second) = operands first + operands second := List.countP_append

theorem binaries_append (first second : List Token) :
    binaries (first ++ second) = binaries first + binaries second := List.countP_append

open Word in
theorem Expression.WellFormed.counts {e : Expression} (formed : e.WellFormed) (position : Nat) :
    (∀ depth rest, Balanced depth (place position e.words ++ rest) ↔ Balanced depth rest) ∧
      operands (place position e.words) = binaries (place position e.words) + 1 := by
  induction formed generalizing position with
  | number => exact ⟨fun depth rest => balanced_cons rfl, rfl⟩
  | @constant o placed =>
    obtain ⟨alone, between⟩ := operands_operator (t := o.token position) rfl
    refine ⟨balanced_operator placed position, ?_⟩
    simp only [words, place_operator, place, alone, between, placed]
    rfl
  | enclosed _ ih =>
    obtain ⟨level, count⟩ := ih (position + breadth [Operator.openParen.word])
    simp only [words, place_operator, place_append]
    refine ⟨fun depth rest => ?_, ?_⟩
    · have opened (ts : List Token) :
          Balanced depth (Operator.openParen.token position :: ts) ↔ Balanced (depth + 1) ts :=
        balanced_cons rfl
      rw [List.cons_append, List.append_assoc, opened, level]
      exact balanced_cons rfl
    · rw [operands_cons, binaries_cons, operands_append, binaries_append, count]
      rfl
  | @before operand o placed _ ih =>
    obtain ⟨level, count⟩ := ih (position + breadth [o.word])
    obtain ⟨alone, between⟩ := operands_operator (t := o.token position) rfl
    simp only [words, place_operator]
    refine ⟨fun depth rest => ?_, ?_⟩
    · exact (balanced_operator placed position depth _).trans (level depth rest)
    · rw [operands_cons, binaries_cons, alone, between, placed, count]
      rfl
  | @behind operand o placed _ ih =>
    obtain ⟨level, count⟩ := ih position
    obtain ⟨alone, between⟩ :=
      operands_operator (t := o.token (position + breadth operand.words)) rfl
    simp only [words, place_operator, place_append]
    refine ⟨fun depth rest => ?_, ?_⟩
    · rw [List.append_assoc, level]
      exact balanced_operator placed _ depth rest
    · simp only [operands_append, binaries_append, place, alone, between, placed, count]
      rfl
  | @between left right o placed _ _ before behind =>
    obtain ⟨first, taken⟩ := before position
    obtain ⟨last, given⟩ := behind (position + breadth left.words + breadth [o.word])
    obtain ⟨alone, between⟩ :=
      operands_operator (t := o.token (position + breadth left.words)) rfl
    simp only [words, place_operator, place_append]
    refine ⟨fun depth rest => ?_, ?_⟩
    · rw [List.append_assoc, first]
      exact (balanced_operator placed _ depth _).trans (last depth rest)
    · simp only [placed, Option.some.injEq, reduceCtorEq, if_true, if_false] at alone between
      rw [operands_append, binaries_append, operands_cons (o.token _), binaries_cons (o.token _)]
      omega

-- The class of the outcome is decided by counting: unless an operator fails, what remains of balanced
-- tokens is the number of operands less that of the binary operators.
theorem outcome_by_counts (c : Context) (ts : List Token) :
    ((∀ cause, ¬ FailsWith c ts (.evaluation cause)) →
      (FailsWith c ts (.parsing .unmatchedParentheses) ↔ ¬ Balanced 0 ts) ∧
        (Balanced 0 ts →
          ((∃ v, Engine.execute c ts = .ok v) ↔ operands ts = binaries ts + 1) ∧
          (Engine.execute c ts = .error ⟨.parsing .malformed, none⟩ ↔
            binaries ts + 2 ≤ operands ts) ∧
          (FailsWith c ts (.parsing .emptyExpression) ↔ operands ts = 0) ∧
          ¬ (0 < operands ts ∧ operands ts ≤ binaries ts))) ∧
      (FailsWith c ts (.parsing .emptyExpression) ↔
        (∀ t ∈ ts, t.isParenthesis = true) ∧ Balanced 0 ts) ∧
      (Balanced 0 ts → operands ts = binaries ts + 1 →
        ∀ t, Token.tokenize t.normalise = .ok ts →
          ∀ f, evaluate c t = .error f → ∃ cause, f.cause = .evaluation cause) ∧
      ∀ (e : Expression) position, e.WellFormed → ts = Word.place position e.words →
        Balanced 0 ts ∧ operands ts = binaries ts + 1 := by
  refine ⟨?_, emptyExpression_iff, ?_, ?_⟩
  · intro applied
    rcases execute_cases c ts with ⟨cause, failed⟩ | ⟨unbalanced, failed⟩ | ⟨balanced, values, left⟩
    · exact absurd failed (applied cause)
    · exact ⟨iff_of_true failed unbalanced, fun balanced => absurd balanced unbalanced⟩
    · refine ⟨iff_of_false ?_ (not_not_intro balanced), fun _ => left.counted⟩
      rintro ⟨span, failed⟩
      exact Engine.outcome_paired (left.execute ▸ failed)
  · intro balanced count t read f failed
    exact evaluate_error_of_counts balanced count read failed
  · rintro e position formed rfl
    obtain ⟨level, count⟩ := formed.counts position
    have whole := level 0 []
    rw [List.append_nil] at whole
    exact ⟨whole.mpr (balanced_nil.mpr rfl), count⟩

end InfixCalculator

import InfixCalculator.Calculation
import InfixCalculator.Proofs.Application

namespace InfixCalculator

namespace Token

def isNumber (t : Token) : Bool := t.operator?.isNone

def isOpen (t : Token) : Bool := t.operator? == some .openParen

def isParenthesis (t : Token) : Bool := t.isOpen || t.operator? == some .closeParen

theorem isOpen_iff {t : Token} : t.isOpen = true ↔ t.kind = .operator .openParen := by
  cases kind : t.kind <;> simp [isOpen, operator?, kind]

theorem entry_of_kind {t : Token} {o : Operator} (kind : t.kind = .operator o) :
    t.entry = o.entry := by
  simp [entry, operator?, kind]

end Token

-- A translation into postfix order, which calculates nothing, and a run of what it emits on a stack of
-- values, which knows no precedence.
namespace Postfix

structure Translation where
  items : List Token
  unpaired? : Option Token

def Translation.after (emitted : List Token) (translation : Translation) : Translation :=
  { translation with items := emitted ++ translation.items }

theorem Translation.after_append (first second : List Token) (translation : Translation) :
    (translation.after second).after first = translation.after (first ++ second) := by
  simp [Translation.after]

-- An operator first sends out what it releases on top of the stack, a closing
-- parenthesis all that stands above its partner, and the end all that waits.
def translate : (pending : List Token) → List Token → Translation
  | pending, [] =>
    ⟨pending.takeWhile (!·.isOpen), (pending.dropWhile (!·.isOpen)).head?⟩
  | pending, t :: rest =>
    match t.kind with
    | .number _ => (translate pending rest).after [t]
    | .operator .openParen => translate (t :: pending) rest
    | .operator .closeParen =>
      match pending.dropWhile (!·.isOpen) with
      | [] => ⟨pending.takeWhile (!·.isOpen), some t⟩
      | _ :: below => (translate below rest).after (pending.takeWhile (!·.isOpen))
    | .operator o =>
      (translate (t :: pending.dropWhile fun top => o.entry.releases top.entry) rest).after
        (pending.takeWhile fun top => o.entry.releases top.entry)

inductive Moves (t : Token) : (pending emitted left : List Token) → Prop
  | number : t.kind = .number value → Moves t pending [t] pending
  | opening : t.kind = .operator .openParen → Moves t pending [] (t :: pending)
  | closing {paren : Token} {pending left : List Token} : t.kind = .operator .closeParen →
      pending.dropWhile (!·.isOpen) = paren :: left →
      Moves t pending (pending.takeWhile (!·.isOpen)) left
  | operator {o : Operator} {pending : List Token} : t.kind = .operator o →
      o ≠ .openParen ∧ o ≠ .closeParen →
      Moves t pending (pending.takeWhile fun top => o.entry.releases top.entry)
        (t :: pending.dropWhile fun top => o.entry.releases top.entry)

theorem Moves.translate {t : Token} {pending emitted left : List Token}
    (moves : Moves t pending emitted left) (rest : List Token) :
    translate pending (t :: rest) = (translate left rest).after emitted := by
  cases moves with
  | number kind => rw [Postfix.translate, kind]
  | opening kind =>
    rw [Postfix.translate, kind]
    rfl
  | closing kind standing => simp only [Postfix.translate, kind, standing]
  | @operator o _ kind applied =>
    obtain ⟨notOpen, notClose⟩ := applied
    cases o with
    | openParen => contradiction
    | closeParen => contradiction
    | _ => rw [Postfix.translate, kind]

def Unpaired (t : Token) (pending : List Token) : Prop :=
  t.kind = .operator .closeParen ∧ pending.dropWhile (!·.isOpen) = []

theorem Unpaired.translate {t : Token} {pending : List Token} (unpaired : Unpaired t pending)
    (rest : List Token) :
    translate pending (t :: rest) = ⟨pending.takeWhile (!·.isOpen), some t⟩ := by
  obtain ⟨kind, standing⟩ := unpaired
  simp only [Postfix.translate, kind, standing]

theorem moves_or_unpaired (t : Token) (pending : List Token) :
    (∃ emitted left, Moves t pending emitted left) ∨ Unpaired t pending := by
  cases kind : t.kind with
  | number value => exact .inl ⟨_, _, .number kind⟩
  | operator o =>
    by_cases opens : o = .openParen
    · subst opens
      exact .inl ⟨_, _, .opening kind⟩
    · by_cases closes : o = .closeParen
      · subst closes
        cases standing : pending.dropWhile (!·.isOpen) with
        | nil => exact .inr ⟨kind, standing⟩
        | cons paren left => exact .inl ⟨_, _, .closing kind standing⟩
      · exact .inl ⟨_, _, .operator kind ⟨opens, closes⟩⟩

def applyItem (c : Context) (t : Token) (values : List Float) : Except Stop (List Float) :=
  match t.kind with
  | .number value => .ok (value :: values)
  | .operator o =>
    match o.entry.apply c values with
    | .ok values => .ok values
    | .error refusal => .error ⟨.evaluation refusal.cause, some t.span⟩

def run (c : Context) : List Float → List Token → Except Stop (List Float)
  | values, [] => .ok values
  | values, t :: rest =>
    match applyItem c t values with
    | .ok values => run c values rest
    | .error stop => .error stop

-- The first item that fails decides; if none does, the parenthesis without a
-- partner; and else the number of values that remain.
def result (c : Context) (values : List Float) (translation : Translation) : Except Stop Float :=
  match run c values translation.items with
  | .error stop => .error stop
  | .ok values =>
    match translation.unpaired? with
    | some paren => .error ⟨.parsing .unmatchedParentheses, some paren.span⟩
    | none =>
      match values with
      | [] => .error ⟨.parsing .emptyExpression, none⟩
      | [value] => .ok value
      | _ => .error ⟨.parsing .malformed, none⟩

theorem run_append (c : Context) (values : List Float) (first second : List Token) :
    run c values (first ++ second) =
      match run c values first with
      | .ok values => run c values second
      | .error stop => .error stop := by
  induction first generalizing values with
  | nil => rfl
  | cons t rest ih =>
    simp only [List.cons_append, run]
    cases applyItem c t values with
    | ok values => exact ih values
    | error stop => rfl

theorem result_after (c : Context) (values : List Float) (emitted : List Token)
    (translation : Translation) :
    result c values (translation.after emitted) =
      match run c values emitted with
      | .ok values => result c values translation
      | .error stop => .error stop := by
  simp only [result, Translation.after, run_append]
  cases run c values emitted <;> rfl

def Waiting (pending : List Token) : Prop :=
  ∀ t ∈ pending, t.isNumber = false ∧ t.operator? ≠ some .closeParen

theorem waiting_nil : Waiting [] := by simp [Waiting]

theorem waiting_cons {t : Token} {o : Operator} {pending : List Token} (kind : t.kind = .operator o)
    (other : o ≠ .closeParen) (waiting : Waiting pending) : Waiting (t :: pending) := by
  intro top member
  rcases List.mem_cons.mp member with rfl | below
  · simp [Token.isNumber, Token.operator?, kind, other]
  · exact waiting top below

theorem Waiting.operator {t : Token} {pending : List Token} (waiting : Waiting pending)
    (member : t ∈ pending) : ∃ o, t.kind = .operator o ∧ o ≠ .closeParen := by
  obtain ⟨operator, other⟩ := waiting t member
  cases kind : t.kind with
  | number v => simp [Token.isNumber, Token.operator?, kind] at operator
  | operator o => exact ⟨o, rfl, by simpa [Token.operator?, kind] using other⟩

theorem Waiting.tail {t : Token} {pending : List Token} (waiting : Waiting (t :: pending)) :
    Waiting pending := by
  intro top member
  exact waiting top (List.mem_cons_of_mem _ member)

theorem Waiting.dropWhile {pending : List Token} (waiting : Waiting pending) (p : Token → Bool) :
    Waiting (pending.dropWhile p) := by
  intro top member
  exact waiting top ((List.dropWhile_suffix p).subset member)

theorem Waiting.takeWhile {pending : List Token} (waiting : Waiting pending) (p : Token → Bool) :
    Waiting (pending.takeWhile p) := by
  intro top member
  exact waiting top ((List.takeWhile_prefix p).subset member)

theorem Moves.waiting {t : Token} {pending emitted left : List Token}
    (moves : Moves t pending emitted left) (waiting : Waiting pending) : Waiting left := by
  cases moves with
  | number kind => exact waiting
  | opening kind => exact waiting_cons kind (by decide) waiting
  | closing kind standing =>
    have below := waiting.dropWhile (!·.isOpen)
    rw [standing] at below
    exact below.tail
  | operator kind applied => exact waiting_cons kind applied.2 (waiting.dropWhile _)

theorem perform_eq_applyItem {t : Token} (c : Context) (values : List Float)
    (operator : t.isNumber = false) : Engine.perform c t values = applyItem c t values := by
  cases kind : t.kind with
  | number value => simp [Token.isNumber, Token.operator?, kind] at operator
  | operator o =>
    have entry := Token.entry_of_kind kind
    cases applied : o.entry.apply c values <;>
      simp only [Engine.perform, applyItem, kind, entry, applied]

theorem release_eq_run (c : Context) (entering : Operator.Entry) (values : List Float)
    {pending : List Token} (waiting : Waiting pending) :
    Engine.release c entering values pending =
      match run c values (pending.takeWhile fun top => entering.releases top.entry) with
      | .ok values => .ok ⟨values, pending.dropWhile fun top => entering.releases top.entry⟩
      | .error stop => .error stop := by
  induction pending generalizing values with
  | nil => rfl
  | cons top below ih =>
    cases released : entering.releases top.entry with
    | false => simp [Engine.release, released, run]
    | true =>
      simp only [Engine.release, released, List.takeWhile_cons, List.dropWhile_cons, if_true, run,
        perform_eq_applyItem c values (waiting top (by simp)).1]
      cases applyItem c top values with
      | ok values => exact ih values waiting.tail
      | error stop => rfl

theorem close_eq_run (c : Context) (closing : Token) (values : List Float) {pending : List Token}
    (waiting : Waiting pending) :
    Engine.close c closing values pending =
      match run c values (pending.takeWhile (!·.isOpen)) with
      | .error stop => .error stop
      | .ok values =>
        match pending.dropWhile (!·.isOpen) with
        | [] => .error (Engine.unmatched closing)
        | _ :: below => .ok ⟨values, below⟩ := by
  induction pending generalizing values with
  | nil => rfl
  | cons top below ih =>
    by_cases paren : top.operator? = some .openParen
    · simp [Engine.close, Token.isOpen, paren, run]
    · have inside : top.isOpen = false := by simpa [Token.isOpen] using paren
      simp only [Engine.close, paren, inside, if_false, List.takeWhile_cons, List.dropWhile_cons,
        Bool.not_false, if_true, run, perform_eq_applyItem c values (waiting top (by simp)).1]
      cases applyItem c top values with
      | ok values => exact ih values waiting.tail
      | error stop => rfl

theorem drain_eq_run (c : Context) (values : List Float) {pending : List Token}
    (waiting : Waiting pending) :
    Engine.drain c values pending =
      match run c values (pending.takeWhile (!·.isOpen)) with
      | .error stop => .error stop
      | .ok values =>
        match (pending.dropWhile (!·.isOpen)).head? with
        | some paren => .error (Engine.unmatched paren)
        | none => .ok values := by
  induction pending generalizing values with
  | nil => rfl
  | cons top below ih =>
    by_cases paren : top.operator? = some .openParen
    · simp [Engine.drain, Token.isOpen, paren, run]
    · have inside : top.isOpen = false := by simpa [Token.isOpen] using paren
      simp only [Engine.drain, paren, inside, if_false, List.takeWhile_cons, List.dropWhile_cons,
        Bool.not_false, if_true, run, perform_eq_applyItem c values (waiting top (by simp)).1]
      cases applyItem c top values with
      | ok values => exact ih values waiting.tail
      | error stop => rfl

theorem finish_eq_result (c : Context) {s : Engine.State} (waiting : Waiting s.pending) :
    Engine.finish c s = result c s.values (translate s.pending []) := by
  simp only [Engine.finish, drain_eq_run c s.values waiting, result, translate]
  cases run c s.values (s.pending.takeWhile (!·.isOpen)) with
  | error stop => rfl
  | ok values =>
    cases (s.pending.dropWhile (!·.isOpen)).head? with
    | some paren => rfl
    | none => rcases values with _ | ⟨_, _ | _⟩ <;> rfl

theorem step_operator (c : Context) (s : Engine.State) {t : Token} {o : Operator}
    (kind : t.kind = .operator o) (applied : o ≠ .openParen ∧ o ≠ .closeParen) :
    Engine.step c s t = (Engine.release c o.entry s.values s.pending).map (Engine.push t) := by
  obtain ⟨notOpen, notClose⟩ := applied
  cases o with
  | openParen => contradiction
  | closeParen => contradiction
  | _ => rw [Engine.step, kind]

theorem step_eq_run (c : Context) {t : Token} {s : Engine.State} {emitted left : List Token}
    (moves : Moves t s.pending emitted left) (waiting : Waiting s.pending) :
    Engine.step c s t =
      match run c s.values emitted with
      | .ok values => .ok ⟨values, left⟩
      | .error stop => .error stop := by
  cases moves with
  | number kind => simp only [Engine.step, kind, run, applyItem]
  | opening kind =>
    simp only [Engine.step, kind, run]
    rfl
  | closing kind standing =>
    simp only [Engine.step, kind, close_eq_run c t s.values waiting, standing]
    cases run c s.values (s.pending.takeWhile (!·.isOpen)) <;> rfl
  | @operator o _ kind applied =>
    rw [step_operator c s kind applied, release_eq_run c o.entry s.values waiting]
    cases run c s.values (s.pending.takeWhile fun top => o.entry.releases top.entry) <;> rfl

theorem step_unpaired (c : Context) {t : Token} {s : Engine.State} (unpaired : Unpaired t s.pending)
    (waiting : Waiting s.pending) :
    Engine.step c s t =
      match run c s.values (s.pending.takeWhile (!·.isOpen)) with
      | .ok _ => .error (Engine.unmatched t)
      | .error stop => .error stop := by
  obtain ⟨kind, standing⟩ := unpaired
  simp only [Engine.step, kind, close_eq_run c t s.values waiting, standing]
  cases run c s.values (s.pending.takeWhile (!·.isOpen)) <;> rfl

-- The stack of the engine is the pending list of the translation, and its values are what the items
-- emitted so far leave.
theorem steps_eq_result (c : Context) (ts : List Token) {s : Engine.State}
    (waiting : Waiting s.pending) :
    (match Engine.steps c s ts with
      | .ok s => Engine.finish c s
      | .error stop => .error stop) = result c s.values (translate s.pending ts) := by
  induction ts generalizing s with
  | nil => exact finish_eq_result c waiting
  | cons t rest ih =>
    rcases moves_or_unpaired t s.pending with ⟨emitted, left, moves⟩ | unpaired
    · rw [Engine.steps, step_eq_run c moves waiting, moves.translate, result_after]
      cases run c s.values emitted with
      | error stop => rfl
      | ok values => exact ih (s := ⟨values, left⟩) (moves.waiting waiting)
    · rw [Engine.steps, step_unpaired c unpaired waiting, unpaired.translate, result]
      cases run c s.values (s.pending.takeWhile (!·.isOpen)) <;> rfl

theorem execute_eq_result (c : Context) (ts : List Token) :
    Engine.execute c ts = result c [] (translate [] ts) :=
  steps_eq_result c ts (s := Engine.start) waiting_nil

theorem releases_openParen (o : Operator) : o.entry.releases Operator.openParen.entry = false := by
  cases o <;> rfl

theorem released_not_open {o : Operator} {top : Token} (released : o.entry.releases top.entry = true) :
    top.isOpen = false := by
  by_cases paren : top.operator? = some .openParen
  · simp [Token.entry, paren, releases_openParen] at released
  · simpa [Token.isOpen] using paren

theorem Waiting.filter_number {pending : List Token} (waiting : Waiting pending) :
    pending.filter Token.isNumber = [] := by
  refine List.filter_eq_nil_iff.mpr ?_
  intro t member
  simp [(waiting t member).1]

theorem Waiting.filter_parenthesis {pending : List Token} (waiting : Waiting pending)
    (inside : ∀ t ∈ pending, t.isOpen = false) :
    pending.filter (!·.isParenthesis) = pending := by
  refine List.filter_eq_self.mpr ?_
  intro t member
  simp [Token.isParenthesis, inside t member, (waiting t member).2]

theorem Waiting.filter_split {pending : List Token} (waiting : Waiting pending) (p : Token → Bool)
    (inside : ∀ t, p t = true → t.isOpen = false) :
    pending.filter (!·.isParenthesis) =
      pending.takeWhile p ++ (pending.dropWhile p).filter (!·.isParenthesis) := by
  have left : (pending.takeWhile p).filter (!·.isParenthesis) = pending.takeWhile p := by
    refine (waiting.takeWhile p).filter_parenthesis ?_
    intro t member
    exact inside t (List.all_eq_true.mp List.all_takeWhile t member)
  calc pending.filter (!·.isParenthesis)
      = (pending.takeWhile p ++ pending.dropWhile p).filter (!·.isParenthesis) := by
        rw [List.takeWhile_append_dropWhile]
    _ = pending.takeWhile p ++ (pending.dropWhile p).filter (!·.isParenthesis) := by
        rw [List.filter_append, left]

theorem Moves.perm {t : Token} {pending emitted left : List Token}
    (moves : Moves t pending emitted left) (waiting : Waiting pending) :
    (emitted ++ left.filter (!·.isParenthesis)).Perm
      (pending.filter (!·.isParenthesis) ++ [t].filter (!·.isParenthesis)) := by
  cases moves with
  | number kind =>
    have listed : t.isParenthesis = false := by
      simp [Token.isParenthesis, Token.isOpen, Token.operator?, kind]
    simpa [listed] using (List.perm_append_singleton t _).symm
  | opening kind =>
    have passed : t.isParenthesis = true := by
      simp [Token.isParenthesis, Token.isOpen, Token.operator?, kind]
    simp [passed]
  | @closing paren _ _ kind standing =>
    have passed : t.isParenthesis = true := by simp [Token.isParenthesis, Token.operator?, kind]
    have opened : paren.isParenthesis = true := by
      have head := List.head?_dropWhile_not (!·.isOpen) pending
      simp only [standing, List.head?_cons, Bool.not_eq_false'] at head
      simp [Token.isParenthesis, head]
    rw [waiting.filter_split (!·.isOpen) (by simp), standing]
    simp [passed, opened]
  | @operator o _ kind applied =>
    have listed : t.isParenthesis = false := by
      simp [Token.isParenthesis, Token.isOpen, Token.operator?, kind, applied]
    have split := waiting.filter_split (fun top => o.entry.releases top.entry)
      fun _ => released_not_open
    rw [split, List.append_assoc, List.filter_cons_of_pos (by simp [listed])]
    refine List.Perm.append_left _ ?_
    simpa [listed] using (List.perm_append_singleton t _).symm

theorem Moves.numbers {t : Token} {pending emitted left : List Token}
    (moves : Moves t pending emitted left) (waiting : Waiting pending) :
    emitted.filter Token.isNumber = [t].filter Token.isNumber := by
  cases moves with
  | number kind => rfl
  | opening kind => simp [Token.isNumber, Token.operator?, kind]
  | closing kind standing =>
    simp [(waiting.takeWhile _).filter_number, Token.isNumber, Token.operator?, kind]
  | operator kind applied =>
    simp [(waiting.takeWhile _).filter_number, Token.isNumber, Token.operator?, kind]

theorem items_perm (ts : List Token) {pending : List Token} (waiting : Waiting pending)
    (finished : (translate pending ts).unpaired? = none) :
    (translate pending ts).items.Perm
      (pending.filter (!·.isParenthesis) ++ ts.filter (!·.isParenthesis)) := by
  induction ts generalizing pending with
  | nil =>
    simp only [translate, List.head?_eq_none_iff] at finished
    simp [translate, waiting.filter_split (!·.isOpen) (by simp), finished]
  | cons t rest ih =>
    rcases moves_or_unpaired t pending with ⟨emitted, left, moves⟩ | unpaired
    · rw [moves.translate] at finished ⊢
      have later := (ih (moves.waiting waiting) finished).append_left emitted
      have first := (moves.perm waiting).append_right (rest.filter (!·.isParenthesis))
      have listed : (t :: rest).filter (!·.isParenthesis) =
          [t].filter (!·.isParenthesis) ++ rest.filter (!·.isParenthesis) :=
        List.filter_append [t] rest
      rw [← List.append_assoc] at later
      rw [listed, ← List.append_assoc]
      exact later.trans first
    · rw [unpaired.translate] at finished
      cases finished

theorem items_numbers (ts : List Token) {pending : List Token} (waiting : Waiting pending)
    (finished : (translate pending ts).unpaired? = none) :
    (translate pending ts).items.filter Token.isNumber = ts.filter Token.isNumber := by
  induction ts generalizing pending with
  | nil => exact (waiting.takeWhile _).filter_number
  | cons t rest ih =>
    rcases moves_or_unpaired t pending with ⟨emitted, left, moves⟩ | unpaired
    · rw [moves.translate] at finished ⊢
      have later := ih (moves.waiting waiting) finished
      rw [Translation.after, List.filter_append, moves.numbers waiting, later, ← List.filter_append,
        List.singleton_append]
    · rw [unpaired.translate] at finished
      cases finished

def Leaves (c : Context) (ts : List Token) (values : List Float) : Prop :=
  (translate [] ts).unpaired? = none ∧ run c [] (translate [] ts).items = .ok values

-- Calculating in place is translating into postfix order and running what that emits. The first item
-- that fails is reported, else the parenthesis without a partner, else what remains is counted.
theorem execute_eq_two_phases (c : Context) (ts : List Token) :
    Engine.execute c ts = result c [] (translate [] ts) ∧
      ((translate [] ts).unpaired? = none →
        (translate [] ts).items.Perm (ts.filter (!·.isParenthesis)) ∧
        (translate [] ts).items.filter Token.isNumber = ts.filter Token.isNumber) :=
  ⟨execute_eq_result c ts, fun finished =>
    ⟨items_perm ts waiting_nil finished, items_numbers ts waiting_nil finished⟩⟩

end Postfix

namespace Postfix

variable {c : Context} {values : List Float} {items : List Token} {stop : Stop}

inductive Refused (c : Context) (t : Token) : Stop → Prop
  | intro : t.kind = .operator o → Operator.Refuses c stack o cause →
      Refused c t ⟨.evaluation cause, some t.span⟩

theorem applyItem_refused {t : Token} (failed : applyItem c t values = .error stop) :
    Refused c t stop := by
  unfold applyItem at failed
  split at failed
  · cases failed
  · next o kind =>
    split at failed
    · cases failed
    · next refusal applied =>
      cases failed
      exact .intro kind (Operator.refuses_of_error applied)

theorem run_refused (failed : run c values items = .error stop) : ∃ t ∈ items, Refused c t stop := by
  induction items generalizing values with
  | nil => cases failed
  | cons t items ih =>
    unfold run at failed
    split at failed
    · obtain ⟨u, member, refused⟩ := ih failed
      exact ⟨u, List.mem_cons_of_mem _ member, refused⟩
    · next refused =>
      cases failed
      exact ⟨t, List.mem_cons_self, applyItem_refused refused⟩

end Postfix

end InfixCalculator

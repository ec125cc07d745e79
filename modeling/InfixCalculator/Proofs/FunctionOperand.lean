import InfixCalculator.Proofs.Precedence

namespace InfixCalculator

def verdict (c : Context) (t : Text) : Except Cause Float := (evaluate c t).mapError Failure.cause

theorem verdict_eq_execute {c : Context} {t : Text} {ts : List Token}
    (read : Token.tokenize t.normalise = .ok ts) :
    verdict c t = (Engine.execute c ts).mapError Stop.cause := by
  rw [verdict, evaluate_eq_execute c read]
  cases Engine.execute c ts <;> rfl

theorem Level.apply_function {f : Operator} (listed : f ∈ Level.function.operators) (c : Context)
    (v : Float) : ∃ w, f.entry.apply c [v] = .ok [w] := by
  simp only [Level.operators, List.mem_cons, List.not_mem_nil, or_false] at listed
  rcases listed with rfl | rfl | rfl | rfl | rfl | rfl <;> exact ⟨_, rfl⟩

def Text.call (f : Operator) (b : Text) : Text := f.symbol ++ b.enclose

def Token.call (f : Operator) (start : Nat) (b : Text) (bs : List Token) : List Token :=
  f.token start :: Token.enclose (start + f.symbol.byteLength) b bs

theorem Text.normaliseFrom_call (f : Operator) (afterBlank : Bool) (b : Text) :
    normaliseFrom afterBlank (call f b) = call f b.normalise := by
  have lower : f.symbol.map Char.toLower = f.symbol := by cases f <;> decide
  rw [call, normaliseFrom_append, normaliseFrom_visible f.visible_symbol, lower,
    normaliseFrom_enclose, call]

theorem Token.reads_call {f : Operator} (listed : f ∈ Level.function.operators) {b : Text}
    {bs : List Token} (reads : Reads true 0 b bs) (edge : Bool) (start : Nat) :
    Reads edge start (Text.call f b) (Token.call f start b bs) := by
  have found : Lexeme.first? (f.symbol ++ b.enclose) = some (.fixed f, f.symbol) := by
    simp only [Level.operators, List.mem_cons, List.not_mem_nil, or_false] at listed
    rcases listed with rfl | rfl | rfl | rfl | rfl | rfl <;> rfl
  exact Reads.token found rfl (reads.enclose _ _)

namespace Engine

-- The function comes in while operators wait for their right operand: those that it
-- releases are applied to what stands on the left of them.
def early (c : Context) (f : Operator) (w : Float) (s : State) : Except Stop Float :=
  match release c f.entry s.values s.pending with
  | .ok left => finish c ⟨w :: left.values, left.pending⟩
  | .error stop => .error stop

-- The value of the function comes in as an operand.
def late (c : Context) (w : Float) (s : State) : Except Stop Float :=
  finish c ⟨w :: s.values, s.pending⟩

end Engine

namespace Postfix

variable {c : Context} {f : Operator} {b : Text} {bs : List Token} {v w : Float} {s : Engine.State}

theorem result_function {t : Token} (kind : t.kind = .operator f)
    (listed : f ∈ Level.function.operators) (applied : f.entry.apply c [v] = .ok [w])
    (values : List Float) {kept : List Token} (waiting : Waiting kept) :
    result c (v :: values) (translate (t :: kept) []) = Engine.finish c ⟨w :: values, kept⟩ := by
  have inside : t.isOpen = false := by
    have other := (Level.not_parenthesis listed).1
    simpa [Token.isOpen, Token.operator?, kind] using other
  have first : translate (t :: kept) [] = (translate kept []).after [t] := by
    simp [translate, inside, Translation.after]
  have alone : applyItem c t [v] = .ok [w] := by simp [applyItem, kind, applied]
  have item := applyItem_append alone values
  rw [List.singleton_append] at item
  rw [first, result_after, finish_eq_result c (s := ⟨w :: values, kept⟩) waiting]
  simp only [run, item, List.singleton_append]

theorem result_call (listed : f ∈ Level.function.operators) (left : Leaves c bs [v])
    (applied : f.entry.apply c [v] = .ok [w]) (waiting : Waiting s.pending) (start : Nat) :
    result c s.values (translate s.pending (Token.call f start b bs)) = Engine.early c f w s := by
  have kind : (f.token start).kind = .operator f := rfl
  rw [Token.call, (Moves.operator kind (Level.not_parenthesis listed)).translate, result_after, Engine.early,
    release_eq_run c f.entry s.values waiting]
  cases run c s.values (s.pending.takeWhile fun top => f.entry.releases top.entry) with
  | error stop => rfl
  | ok values =>
    have kept := waiting.dropWhile fun top => f.entry.releases top.entry
    exact (result_enclosed (left.moved _) rfl rfl values).trans
      (result_function kind listed applied values kept)

theorem leaves_call (listed : f ∈ Level.function.operators) (left : Leaves c bs [v])
    (applied : f.entry.apply c [v] = .ok [w]) (start : Nat) :
    Leaves c (Token.call f start b bs) [w] := by
  rw [← execute_eq_ok_iff, execute_eq_result]
  exact result_call (s := Engine.start) listed left applied waiting_nil start

theorem result_enclosed_call (listed : f ∈ Level.function.operators) (left : Leaves c bs [v])
    (applied : f.entry.apply c [v] = .ok [w]) (waiting : Waiting s.pending) (start : Nat)
    (t : Text) :
    result c s.values (translate s.pending (Token.enclose start t (Token.call f 0 b bs))) =
      Engine.late c w s := by
  have inside := leaves_call (b := b) listed left applied 0
  rw [Engine.late, finish_eq_result c (s := ⟨w :: s.values, s.pending⟩) waiting]
  exact result_enclosed (inside.moved _) rfl rfl s.values

end Postfix

section

variable {c : Context} {u b : Text} {us : List Token} {f : Operator} {v w : Float}

theorem verdict_behind_blank {w : Text} {ws : Nat → List Token}
    {outcome : Engine.State → Except Stop Float} (read : Token.tokenize u.normalise = .ok us)
    (visible : (Text.normaliseFrom true w).head? ≠ some ' ')
    (reads : ∀ edge start, Token.Reads edge start (Text.normaliseFrom true w) (ws start))
    (goes : ∀ start s, Postfix.Waiting s.pending →
      Postfix.result c s.values (Postfix.translate s.pending (ws start)) = outcome s) :
    verdict c (u ++ ' ' :: w) =
      (match Engine.steps c Engine.start us with
        | .ok s => outcome s
        | .error stop => .error stop).mapError Stop.cause := by
  obtain ⟨start, whole⟩ := Token.tokenize_behind_blank read visible reads
  rw [verdict_eq_execute whole, Engine.execute_append]
  cases reached : Engine.steps c Engine.start us with
  | error stop => rfl
  | ok s =>
    have waiting := Engine.steps_waiting (s := Engine.start) Postfix.waiting_nil reached
    simp only [goes start s waiting]

theorem verdict_call (read : Token.tokenize u.normalise = .ok us)
    (listed : f ∈ Level.function.operators) (value : evaluate c b = .ok v)
    (applied : f.entry.apply c [v] = .ok [w]) :
    verdict c (u ++ ' ' :: Text.call f b) =
      (match Engine.steps c Engine.start us with
        | .ok s => Engine.early c f w s
        | .error stop => .error stop).mapError Stop.cause := by
  obtain ⟨bs, inner, ran⟩ := evaluate_ok value
  have left := Postfix.execute_eq_ok_iff.mp ran
  have reads := Token.reads_call listed (Token.tokenize_eq_ok_iff.mp inner)
  have visible : (Text.call f b.normalise).head? ≠ some ' ' := by
    simp only [Level.operators, List.mem_cons, List.not_mem_nil, or_false] at listed
    rcases listed with rfl | rfl | rfl | rfl | rfl | rfl <;> simp [Text.call, Operator.symbol]
  rw [← Text.normaliseFrom_call f true] at reads visible
  refine verdict_behind_blank read visible reads ?_
  intro start s waiting
  exact Postfix.result_call listed left applied waiting start

theorem verdict_enclosed_call (read : Token.tokenize u.normalise = .ok us)
    (listed : f ∈ Level.function.operators) (value : evaluate c b = .ok v)
    (applied : f.entry.apply c [v] = .ok [w]) :
    verdict c (u ++ ' ' :: (Text.call f b).enclose) =
      (match Engine.steps c Engine.start us with
        | .ok s => Engine.late c w s
        | .error stop => .error stop).mapError Stop.cause := by
  obtain ⟨bs, inner, ran⟩ := evaluate_ok value
  have left := Postfix.execute_eq_ok_iff.mp ran
  have reads := (Token.reads_call listed (Token.tokenize_eq_ok_iff.mp inner) true 0).enclose
  have written : Text.normaliseFrom true (Text.call f b).enclose =
      (Text.call f b.normalise).enclose := by
    rw [Text.normaliseFrom_enclose, Text.normalise, Text.normaliseFrom_call]
  have visible : (Text.call f b.normalise).enclose.head? ≠ some ' ' := by simp [Text.enclose]
  rw [← written] at reads visible
  refine verdict_behind_blank read visible reads ?_
  intro start s waiting
  exact Postfix.result_enclosed_call listed left applied waiting start _

theorem Operator.function_releases {o : Operator} (listed : f ∈ Level.function.operators)
    (waits : o ∈ Level.power.operators ++ Level.sign.operators) :
    f.entry.releases o.entry = true := by
  have loose := Level.entry_precedence listed
  have associates := Level.entry_associativity listed
  refine releases_tighter (by rw [associates]; decide) ?_
  rcases List.mem_append.mp waits with power | sign
  · rw [loose, Level.entry_precedence power]
    decide
  · rw [loose, Level.entry_precedence sign]
    decide

-- A function behind a blank, and the same in parentheses, come to the same exactly where it makes no
-- difference whether what the function releases is applied before its value is there or after. A sign
-- or a power that ends the text is always among that.
theorem function_operand_iff (read : Token.tokenize u.normalise = .ok us)
    (listed : f ∈ Level.function.operators) (value : evaluate c b = .ok v) :
    ∃ w, f.entry.apply c [v] = .ok [w] ∧
      (verdict c (u ++ ' ' :: Text.call f b) = verdict c (u ++ ' ' :: (Text.call f b).enclose) ↔
        ∀ s, Engine.steps c Engine.start us = .ok s →
          (Engine.early c f w s).mapError Stop.cause = (Engine.late c w s).mapError Stop.cause) ∧
      ∀ t o, us.getLast? = some t → t.kind = .operator o →
        o ∈ Level.power.operators ++ Level.sign.operators →
          ∀ s, Engine.steps c Engine.start us = .ok s →
            ∃ below, s.pending = t :: below ∧
              Engine.release c f.entry s.values s.pending =
                (match Engine.perform c t s.values with
                  | .ok values => Engine.release c f.entry values below
                  | .error stop => .error stop) ∧
              (s.values.length < o.entry.arity →
                verdict c (u ++ ' ' :: Text.call f b) =
                  .error (.evaluation .missingArguments)) := by
  obtain ⟨w, applied⟩ := Level.apply_function listed c v
  refine ⟨w, applied, ?_, ?_⟩
  · rw [verdict_call read listed value applied, verdict_enclosed_call read listed value applied]
    cases Engine.steps c Engine.start us with
    | error stop => simp
    | ok s => simp
  · intro t o last kind waits s reached
    have parenthesis : o ≠ .openParen ∧ o ≠ .closeParen := by
      rcases List.mem_append.mp waits with power | sign
      · exact Level.not_parenthesis power
      · exact Level.not_parenthesis sign
    obtain ⟨below, standing⟩ := Engine.steps_last last kind parenthesis reached
    have entry := Token.entry_of_kind kind
    have releases := Operator.function_releases listed waits
    have first : Engine.release c f.entry s.values s.pending =
        (match Engine.perform c t s.values with
          | .ok values => Engine.release c f.entry values below
          | .error stop => .error stop) := by
      cases performed : Engine.perform c t s.values <;>
        simp only [standing, Engine.release, entry, releases, if_true, performed]
    refine ⟨below, standing, first, fun few => ?_⟩
    rw [verdict_call read listed value applied, reached]
    simp only [Engine.early, first, Engine.perform, entry, Operator.Entry.apply, if_pos few]
    rfl

theorem tokenize_minus : Token.tokenize (Text.normalise ['-']) = .ok [Operator.minusSign.token 0] :=
  Token.tokenize_eq_ok_iff.mpr (Token.reads_lexeme rfl rfl)

theorem evaluate_zero : evaluate {} ['0'] = .ok (Numeral.value ['0']) := by
  have read : Token.tokenize (Text.normalise ['0']) = .ok [⟨['0'], 0, .number (Numeral.value ['0'])⟩] :=
    Token.tokenize_eq_ok_iff.mpr (Token.reads_lexeme rfl rfl)
  rw [evaluate_eq_execute {} read]
  rfl

theorem function_operand_iff_sign :
    verdict {} (['-'] ++ ' ' :: Text.call .cosine ['0']) =
      .error (.evaluation .missingArguments) := by
  obtain ⟨_, _, _, overtaken⟩ :=
    function_operand_iff tokenize_minus (f := .cosine) (by decide) evaluate_zero
  obtain ⟨_, _, _, missing⟩ := overtaken (Operator.minusSign.token 0) .minusSign rfl rfl (by decide)
    ⟨[], [Operator.minusSign.token 0]⟩ rfl
  exact missing (by decide)

theorem function_operand_differs :
    verdict {} ['-', ' ', 'c', 'o', 's', '(', '0', ')'] = .error (.evaluation .missingArguments) ∧
      (verdict {} ['-', ' ', '(', 'c', 'o', 's', '(', '0', ')', ')']).isOk = true := by
  have bare := verdict_call tokenize_minus (f := .cosine) (by decide) evaluate_zero rfl
  have enclosed := verdict_enclosed_call tokenize_minus (f := .cosine) (by decide) evaluate_zero rfl
  refine ⟨bare, ?_⟩
  exact congrArg Except.isOk enclosed

end

end InfixCalculator

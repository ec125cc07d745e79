import InfixCalculator.Proofs.DisplayedValue
import InfixCalculator.Proofs.EvaluationLog

namespace InfixCalculator

namespace Display

theorem magnitudeText_ne_nil (units : ℕ) : magnitudeText units ≠ [] := by
  have body (units places : ℕ) : dropFilling (fixedText units places) ≠ [] := by
    obtain ⟨d, rest, whole, _⟩ := (unfilled_dropFilling units places).first
    exact whole ▸ List.cons_ne_nil d rest
  rw [magnitudeText_eq]
  dsimp only
  split
  · simp [scientificText]
  · exact body _ _

theorem value_ne_nil (v : Float) : value v ≠ [] := by
  unfold value
  split
  · simp
  · dsimp only
    split
    · simp
    · split
      · simp
      · simp [magnitudeText_ne_nil]

end Display

namespace Event

def clears : Event → Bool
  | evaluated _ _ => false
  | _ => true

def success? : Event → Option Calculation
  | evaluated _ (.ok c) => some c
  | _ => none

def successes (stops : Event → Bool) (events : List Event) : List Calculation :=
  (since stops events).filterMap success?

def lastOutcome? (events : List Event) : Option (Except Failure Calculation) :=
  ((since clears events).filterMap outcome?).getLast?

theorem successes_concat (stops : Event → Bool) (es : List Event) (event : Event) :
    successes stops (es ++ [event]) =
      if stops event then [] else successes stops es ++ event.success?.toList := by
  rw [successes, since_concat]
  split
  · rfl
  · exact filterMap_concat success? (since stops es) event

theorem successes_passed {stops : Event → Bool} {event : Event} (es : List Event)
    (passed : stops event = false) (unsuccessful : event.success? = none) :
    successes stops (es ++ [event]) = successes stops es := by
  simp [successes_concat, passed, unsuccessful]

theorem lastOutcome?_evaluated (es : List Event) (entry : Text) (r : Except Failure Calculation) :
    lastOutcome? (es ++ [evaluated entry r]) = some r := by
  simp [lastOutcome?, since_concat, clears, outcome?]

theorem lastOutcome?_cleared (es : List Event) {event : Event} (cleared : event.clears = true) :
    lastOutcome? (es ++ [event]) = none := by
  simp [lastOutcome?, since_concat, cleared]

end Event

open Event (successes lastOutcome?)

def Trace.after : Option (Except Failure Calculation) → Trace
  | some (.ok c) => c.trace
  | _ => {}

-- What stands on a desk after these events.
structure Desk.Coherent (events : List Event) (d : Desk) : Prop where
  current : d.current = (successes Event.clearsAll events).getLast?.map Calculation.value
  result_shown : d.result ≠ [] ↔ successes Event.clears events ≠ []
  result_current : d.result ≠ [] → ∃ v, d.current = some v ∧ d.result = Display.value v
  notice : ∀ n, d.notice = some n ↔ ∃ f, lastOutcome? events = some (.error f) ∧ n = .ofFailure f
  trace : d.trace = .after (lastOutcome? events)
  trace_noticed : d.notice ≠ none → d.trace = {}

namespace Desk.Coherent

variable {d e : Desk} {events : List Event}

theorem accept (d : Desk) (events : List Event) (c : Calculation) :
    (d.accept c).Coherent (events ++ [.evaluated d.entry (.ok c)]) where
  current := by
    simp [Event.successes_concat, Event.clearsAll, Event.success?, Desk.accept]
  result_shown := by
    simp [Event.successes_concat, Event.clears, Event.success?, Desk.accept, Display.value_ne_nil]
  result_current _ := ⟨c.value, rfl, rfl⟩
  notice := by simp [Event.lastOutcome?_evaluated, Desk.accept]
  trace := by
    rw [Event.lastOutcome?_evaluated]
    rfl
  trace_noticed noticed := absurd rfl noticed

theorem refuse (coherent : d.Coherent events) (f : Failure) :
    (d.refuse f).Coherent (events ++ [.evaluated d.entry (.error f)]) where
  current := by
    rw [Event.successes_passed _ rfl rfl]
    exact coherent.current
  result_shown := by
    rw [Event.successes_passed _ rfl rfl]
    exact coherent.result_shown
  result_current := coherent.result_current
  notice := by simp [Event.lastOutcome?_evaluated, Desk.refuse, eq_comm]
  trace := by
    rw [Event.lastOutcome?_evaluated]
    rfl
  trace_noticed _ := rfl

theorem clearResults (coherent : d.Coherent events) :
    d.clearResults.Coherent (events ++ [.resultsCleared]) where
  current := by
    rw [Event.successes_passed _ rfl rfl]
    exact coherent.current
  result_shown := by simp [Event.successes_concat, Event.clears, Desk.clearResults]
  result_current shown := absurd rfl shown
  notice := by
    rw [Event.lastOutcome?_cleared _ rfl]
    simp [Desk.clearResults]
  trace := by
    rw [Event.lastOutcome?_cleared _ rfl]
    rfl
  trace_noticed _ := rfl

theorem clearAll (d : Desk) (events : List Event) :
    d.clearAll.Coherent (events ++ [.allCleared]) where
  current := by simp [Event.successes_concat, Event.clearsAll, Desk.clearAll]
  result_shown := by
    simp [Event.successes_concat, Event.clears, Desk.clearAll, Desk.clearResults]
  result_current shown := absurd rfl shown
  notice := by
    rw [Event.lastOutcome?_cleared _ rfl]
    simp [Desk.clearAll, Desk.clearResults]
  trace := by
    rw [Event.lastOutcome?_cleared _ rfl]
    rfl
  trace_noticed _ := rfl

theorem of_same (coherent : d.Coherent events) (same : e.SameRecord d) : e.Coherent events := by
  obtain ⟨result, notice, current, trace, _⟩ := same
  constructor
  · exact current.trans coherent.current
  · exact result ▸ coherent.result_shown
  · exact result ▸ current ▸ coherent.result_current
  · exact notice ▸ coherent.notice
  · exact trace.trans coherent.trace
  · exact notice ▸ trace ▸ coherent.trace_noticed

theorem fresh : ({} : Desk).Coherent [] where
  current := rfl
  result_shown := by simp [successes, Event.since]
  result_current shown := absurd rfl shown
  notice := by simp [lastOutcome?, Event.since]
  trace := rfl
  trace_noticed _ := rfl

end Desk.Coherent

namespace Window

theorem Effect.coherent {d e : Desk} {events : List Event} {event : Option Event}
    (coherent : d.Coherent events) (effect : Effect d event e) :
    e.Coherent (events ++ event.toList) := by
  cases effect with
  | @evaluated r =>
    cases r with
    | ok c => exact .accept d events c
    | error f => exact coherent.refuse f
  | resultsCleared => exact coherent.clearResults
  | allCleared => exact .clearAll d events
  | unrecorded same =>
    rw [Option.toList_none, List.append_nil]
    exact coherent.of_same same

-- After any steps, what is shown and the current value are those of the evaluations before,
-- since they were last cleared. When everything is cleared, only the unit of angles stays.
theorem run_coherent (steps : List Step) :
    (run {} steps).desk.Coherent (events {} steps) ∧
      ((run {} steps).step (.click .clearAll)).desk = { unit := (run {} steps).desk.unit } := by
  refine ⟨?_, rfl⟩
  exact run_keeps (fun events d => d.Coherent events) .fresh
    (fun coherent effect => effect.coherent coherent) steps

end Window

end InfixCalculator

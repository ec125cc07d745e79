import InfixCalculator.Proofs.FailedEvaluations
import Mathlib.Data.List.DropRight

namespace InfixCalculator

inductive Event
  | evaluated (entry : Text) (outcome : Except Failure Calculation)
  | resultsCleared
  | allCleared

namespace Event

def outcome? : Event → Option (Except Failure Calculation)
  | evaluated _ r => some r
  | _ => none

def line? : Event → Option Text
  | evaluated entry r => some (entry.trim ++ [' '] ++ Display.outcome (r.map Calculation.value))
  | _ => none

def clearsAll : Event → Bool
  | allCleared => true
  | _ => false

-- What came behind the last event at which it stops.
def since (stops : Event → Bool) (events : List Event) : List Event := events.rtakeWhile (!stops ·)

def log (events : List Event) : List Text := (since clearsAll events).filterMap line?

theorem since_concat (stops : Event → Bool) (es : List Event) (event : Event) :
    since stops (es ++ [event]) = if stops event then [] else since stops es ++ [event] := by
  cases stop : stops event <;> simp [since, stop]

theorem filterMap_concat (f : Event → Option α) (es : List Event) (event : Event) :
    (es ++ [event]).filterMap f = es.filterMap f ++ (f event).toList := by
  cases found : f event <;> simp [List.filterMap_append, found]

theorem log_concat (es : List Event) (event : Event) :
    log (es ++ [event]) = if event.clearsAll then [] else log es ++ event.line?.toList := by
  rw [log, since_concat]
  split
  · rfl
  · exact filterMap_concat line? (since clearsAll es) event

end Event

namespace Desk

structure SameRecord (d e : Desk) : Prop where
  result : d.result = e.result
  notice : d.notice = e.notice
  current : d.current = e.current
  trace : d.trace = e.trace
  history : d.history = e.history

theorem latest_isSuffix (lines : List Text) : latest lines <:+ lines := List.drop_suffix _ _

theorem length_latest (lines : List Text) : (latest lines).length = min historyLimit lines.length := by
  rw [latest, List.length_drop]
  omega

theorem latest_latest_append (lines : List Text) (line : Text) :
    latest (latest lines ++ [line]) = latest (lines ++ [line]) := by
  have size : (latest (latest lines ++ [line])).length = (latest (lines ++ [line])).length := by
    simp only [length_latest, List.length_append, List.length_singleton]
    omega
  have within : latest lines ++ [line] <:+ lines ++ [line] :=
    List.suffix_append_self_iff.mpr (latest_isSuffix lines)
  have first := (latest_isSuffix (latest lines ++ [line])).trans within
  have second := latest_isSuffix (lines ++ [line])
  exact (List.suffix_of_suffix_length_le first second size.le).eq_of_length size

theorem settle_history (d : Desk) (r : Except Failure Calculation) :
    (d.settle r).history =
      latest (d.history ++ [d.entry.trim ++ [' '] ++ Display.outcome (r.map Calculation.value)]) := by
  cases r <;> simp [settle, accept, refuse, log, logLine, Except.map]

end Desk

namespace Window

def event? (w : Window) : Step → Option Event
  | .click .clearResults => some .resultsCleared
  | .click .clearAll => some .allCleared
  | s => (w.outcome? s).map (.evaluated w.desk.entry)

def events : (w : Window) → List Step → List Event
  | _, [] => []
  | w, s :: steps => (w.event? s).toList ++ events (w.step s) steps

-- All that a step can do: one of the events, or nothing that is shown or kept.
inductive Effect (d : Desk) : Option Event → Desk → Prop
  | evaluated : Effect d (some (.evaluated d.entry r)) (d.settle r)
  | resultsCleared : Effect d (some .resultsCleared) d.clearResults
  | allCleared : Effect d (some .allCleared) d.clearAll
  | unrecorded : e.SameRecord d → Effect d none e

variable {w : Window} {s : Step} {event : Option Event} {d e : Desk} {es : List Event}

theorem step_effect (w : Window) (s : Step) : Effect w.desk (w.event? s) (w.step s).desk := by
  cases found : w.outcome? s with
  | some r =>
    have event : w.event? s = some (.evaluated w.desk.entry r) := by
      cases s with
      | click widget => cases widget <;> cases found; rfl
      | _ => cases found <;> rfl
    rw [event, step_settle found]
    exact .evaluated
  | none =>
    cases s with
    | write | escape => exact .unrecorded ⟨rfl, rfl, rfl, rfl, rfl⟩
    | confirm | accept | refuse => cases found
    | click widget =>
      cases widget with
      | equals => cases found
      | clearResults => exact .resultsCleared
      | clearAll => exact .allCleared
      | _ => exact .unrecorded ⟨rfl, rfl, rfl, rfl, rfl⟩

theorem run_effects {P : List Event → Desk → Prop}
    (keeps : ∀ {es event d e}, P es d → Effect d event e → P (es ++ event.toList) e)
    (holds : P es w.desk) (steps : List Step) : P (es ++ w.events steps) (w.run steps).desk := by
  induction steps generalizing w es with
  | nil => simpa [events, run] using holds
  | cons s steps ih =>
    have next := ih (keeps holds (step_effect w s))
    rwa [List.append_assoc] at next

-- What each effect keeps true of the events so far and the desk is true after a run.
theorem run_keeps (P : List Event → Desk → Prop) (start : P [] {})
    (keeps : ∀ {es event d e}, P es d → Effect d event e → P (es ++ event.toList) e)
    (steps : List Step) : P (events {} steps) (run {} steps).desk :=
  run_effects (w := {}) keeps start steps

theorem Effect.history (kept : d.history = Desk.latest (Event.log es)) (effect : Effect d event e) :
    e.history = Desk.latest (Event.log (es ++ event.toList)) := by
  cases effect with
  | evaluated =>
    rw [Desk.settle_history, kept, Desk.latest_latest_append, Option.toList_some, Event.log_concat]
    rfl
  | resultsCleared =>
    have same : Event.log (es ++ [.resultsCleared]) = Event.log es := by
      simp [Event.log_concat, Event.clearsAll, Event.line?]
    rw [Option.toList_some, same]
    exact kept
  | allCleared =>
    rw [Option.toList_some, Event.log_concat]
    rfl
  | unrecorded same => simpa using same.history.trans kept

end Window

end InfixCalculator

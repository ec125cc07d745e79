import InfixCalculator.Desk.Window
import InfixCalculator.Proofs.Pieces

namespace InfixCalculator

def Desk.settle (d : Desk) : Except Failure Calculation → Desk
  | .ok c => d.accept c
  | .error f => d.refuse f

theorem Desk.evaluate_eq_settle (d : Desk) : d.evaluate = d.settle (calculate d.context d.entry) := by
  unfold evaluate
  cases calculate d.context d.entry <;> rfl

namespace Window

def outcome? (w : Window) : Step → Option (Except Failure Calculation)
  | .click .equals => some (calculate w.desk.context w.desk.entry)
  | .confirm => some (calculate w.desk.context w.desk.entry)
  | .accept c => some (.ok c)
  | .refuse f => some (.error f)
  | _ => none

def Fails (w : Window) (s : Step) : Prop := ∃ f, w.outcome? s = some (.error f)

-- A run with its steps marked: those that are kept, and others that fail where they stand.
inductive Marked : (w : Window) → List (Step × Bool) → Prop
  | nil : Marked w []
  | kept : Marked (w.step s) rest → Marked w ((s, true) :: rest)
  | deleted : w.Fails s → Marked (w.step s) rest → Marked w ((s, false) :: rest)

def allSteps (marks : List (Step × Bool)) : List Step := marks.map Prod.fst

def keptSteps (marks : List (Step × Bool)) : List Step := allSteps (marks.filter Prod.snd)

-- Two windows that differ at most in what a failure touches: the notice, the trace and
-- the history.
structure Alike (w v : Window) : Prop where
  entry : w.desk.entry = v.desk.entry
  result : w.desk.result = v.desk.result
  current : w.desk.current = v.desk.current
  unit : w.desk.unit = v.desk.unit
  traceOpen : w.traceOpen = v.traceOpen
  historyOpen : w.historyOpen = v.historyOpen

structure ShownAlike (w v : Window) : Prop extends Alike w v where
  notice : w.desk.notice = v.desk.notice
  trace : w.desk.trace = v.desk.trace

variable {w v : Window} {s : Step} {marks front middle back : List (Step × Bool)}

theorem step_settle {r : Except Failure Calculation} (found : w.outcome? s = some r) :
    w.step s = { w with desk := w.desk.settle r } := by
  cases s with
  | click widget =>
    cases widget with
    | equals =>
      cases found
      rw [step, click, Desk.evaluate_eq_settle]
    | _ => cases found
  | confirm =>
    cases found
    rw [step, Desk.evaluate_eq_settle]
  | accept | refuse => cases found; rfl
  | _ => cases found

theorem Alike.refl (w : Window) : w.Alike w := ⟨rfl, rfl, rfl, rfl, rfl, rfl⟩

theorem Alike.trans {u : Window} (first : u.Alike w) (second : w.Alike v) : u.Alike v where
  entry := first.entry.trans second.entry
  result := first.result.trans second.result
  current := first.current.trans second.current
  unit := first.unit.trans second.unit
  traceOpen := first.traceOpen.trans second.traceOpen
  historyOpen := first.historyOpen.trans second.historyOpen

theorem Alike.outcome (alike : w.Alike v) (s : Step) : w.outcome? s = v.outcome? s := by
  have context : w.desk.context = v.desk.context := by
    rw [Desk.context, Desk.context, alike.unit, alike.current]
  have same : calculate w.desk.context w.desk.entry = calculate v.desk.context v.desk.entry := by
    rw [context, alike.entry]
  cases s with
  | click widget =>
    cases widget with
    | equals => exact congrArg some same
    | _ => rfl
  | confirm => exact congrArg some same
  | _ => rfl

theorem Alike.settle (alike : w.Alike v) {r : Except Failure Calculation}
    (found : w.outcome? s = some r) : (w.step s).ShownAlike (v.step s) := by
  have again : v.outcome? s = some r := (alike.outcome s).symm.trans found
  rw [step_settle found, step_settle again]
  cases r with
  | ok c => exact ⟨{ alike with result := rfl, current := rfl }, rfl, rfl⟩
  | error f => exact ⟨{ alike with }, rfl, rfl⟩

theorem Alike.step (alike : w.Alike v) (s : Step) : (w.step s).Alike (v.step s) := by
  cases found : w.outcome? s with
  | some r => exact (alike.settle found).toAlike
  | none =>
    cases s with
    | write => exact { alike with entry := rfl }
    | escape => exact { alike with entry := rfl }
    | confirm | accept | refuse => cases found
    | click widget =>
      cases widget with
      | key k => exact { alike with entry := congrArg (Text.insert k) alike.entry }
      | delete => exact { alike with entry := congrArg Text.deleteLast alike.entry }
      | equals => cases found
      | clearEntry => exact { alike with entry := rfl }
      | clearResults => exact { alike with result := rfl }
      | clearAll => exact { alike with entry := rfl, result := rfl, current := rfl }
      | degrees =>
        have unit : (w.desk.toggleUnit).unit = (v.desk.toggleUnit).unit := by
          rw [Desk.toggleUnit, Desk.toggleUnit, alike.unit]
        exact { alike with unit := unit }
      | traceHeader => exact { alike with traceOpen := congrArg (!·) alike.traceOpen }
      | historyHeader => exact { alike with historyOpen := congrArg (!·) alike.historyOpen }

theorem ShownAlike.step (shown : w.ShownAlike v) (s : Step) :
    (w.step s).ShownAlike (v.step s) := by
  cases found : w.outcome? s with
  | some r => exact shown.toAlike.settle found
  | none =>
    have alike := shown.toAlike.step s
    cases s with
    | write | escape => exact ⟨alike, shown.notice, shown.trace⟩
    | confirm | accept | refuse => cases found
    | click widget =>
      cases widget with
      | equals => cases found
      | clearResults | clearAll => exact ⟨alike, rfl, rfl⟩
      | _ => exact ⟨alike, shown.notice, shown.trace⟩

theorem ShownAlike.run (shown : w.ShownAlike v) (steps : List Step) :
    (w.run steps).ShownAlike (v.run steps) := by
  induction steps generalizing w v with
  | nil => exact shown
  | cons s steps ih => exact ih (shown.step s)

theorem Fails.alike (fails : w.Fails s) : (w.step s).Alike w := by
  obtain ⟨f, found⟩ := fails
  rw [step_settle found]
  exact ⟨rfl, rfl, rfl, rfl, rfl, rfl⟩

theorem Marked.of_append (marked : Marked w (front ++ back)) : Marked w front := by
  induction front generalizing w with
  | nil => exact .nil
  | cons mark front ih =>
    cases marked with
    | kept rest => exact .kept (ih rest)
    | deleted fails rest => exact .deleted fails (ih rest)

theorem Marked.run_alike (marked : Marked w marks) (alike : w.Alike v) :
    (w.run (allSteps marks)).Alike (v.run (keptSteps marks)) := by
  induction marked generalizing v with
  | nil => exact alike
  | kept _ ih => exact ih (alike.step _)
  | deleted fails _ ih => exact ih (fails.alike.trans alike)

-- Whatever steps that fail are deleted from a run, each other step has the same outcome. Once an
-- evaluation is kept, the error and the trace are the same too, up to the next step that is deleted.
theorem failures_are_forgotten (marked : Marked {} marks) :
    (∀ front s back, marks = front ++ (s, true) :: back →
      (run {} (allSteps front)).outcome? s = (run {} (keptSteps front)).outcome? s ∧
        ((run {} (allSteps front)).step s).Alike ((run {} (keptSteps front)).step s)) ∧
      ∀ front s middle back, marks = front ++ (s, true) :: (middle ++ back) →
        (∃ r, (run {} (allSteps front)).outcome? s = some r) → (∀ mark ∈ middle, mark.2 = true) →
        (((run {} (allSteps front)).step s).run (allSteps middle)).ShownAlike
          (((run {} (keptSteps front)).step s).run (keptSteps middle)) := by
  refine ⟨fun front s back parts => ?_, fun front s middle back parts evaluated kept => ?_⟩
  · have alike := (parts ▸ marked).of_append.run_alike (.refl {})
    exact ⟨alike.outcome s, alike.step s⟩
  · have alike := (parts ▸ marked).of_append.run_alike (.refl {})
    obtain ⟨r, found⟩ := evaluated
    have same : keptSteps middle = allSteps middle := congrArg allSteps (List.filter_eq_self.mpr kept)
    rw [same]
    exact (alike.settle found).run _

theorem failures_are_forgotten_empty :
    Marked {} [(.confirm, false), (.write ['e'], true), (.confirm, true)] ∧
      ((run {} [.confirm, .write ['e']]).step .confirm).ShownAlike
        ((run {} [.write ['e']]).step .confirm) := by
  have read : Token.tokenize (Text.normalise []) = .ok [] :=
    Token.tokenize_eq_ok_iff.mpr Token.reads_nil
  have empty : calculate {} [] = .error ⟨.parsing .emptyExpression, [], none⟩ := by
    rw [calculate, read]
    rfl
  have marked : Marked {} [(.confirm, false), (.write ['e'], true), (.confirm, true)] :=
    .deleted ⟨_, congrArg some empty⟩ (.kept (.kept .nil))
  refine ⟨marked, ?_⟩
  exact (failures_are_forgotten marked).2 [(.confirm, false), (.write ['e'], true)] .confirm [] []
    rfl ⟨_, rfl⟩ (by simp)

end Window

end InfixCalculator

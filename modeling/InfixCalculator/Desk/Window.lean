import InfixCalculator.Desk.Keypad

namespace InfixCalculator

inductive Widget
  | key (key : Key)
  | delete
  | equals
  | clearEntry
  | clearResults
  | clearAll
  | degrees
  | traceHeader
  | historyHeader
deriving DecidableEq

namespace Widget

def label : Widget → Text
  | key k => k.label
  | delete => "DEL".toList
  | equals => "=".toList
  | clearEntry => "C".toList
  | clearResults => "CLR".toList
  | clearAll => "AC".toList
  | degrees => "Degrés".toList
  | traceHeader => "Démarche".toList
  | historyHeader => "Historique".toList

def numberPad : List Widget :=
  [key (.digit 7), key (.digit 8), key (.digit 9), delete,
    key (.digit 4), key (.digit 5), key (.digit 6), key .divide,
    key (.digit 1), key (.digit 2), key (.digit 3), key .point,
    key (.digit 0), key .exponent]

def actions : List Widget := [clearEntry, clearResults, clearAll, degrees]

def buttons : List Widget := Key.row.map key ++ [equals] ++ numberPad

def all : List Widget := actions ++ buttons ++ [traceHeader, historyHeader]

def ofLabel? (label : Text) : Option Widget := all.find? fun widget => widget.label == label

end Widget

structure Window where
  desk : Desk := {}
  traceOpen : Bool := true
  historyOpen : Bool := false

-- `accept` and `refuse` lay an outcome on the desk that was found elsewhere.
inductive Step
  | write (entry : Text)
  | click (widget : Widget)
  | escape
  | confirm
  | accept (calculation : Calculation)
  | refuse (failure : Failure)

namespace Window

def click (w : Window) : Widget → Window
  | .key k => { w with desk := w.desk.press k }
  | .delete => { w with desk := w.desk.delete }
  | .equals => { w with desk := w.desk.evaluate }
  | .clearEntry => { w with desk := w.desk.clearEntry }
  | .clearResults => { w with desk := w.desk.clearResults }
  | .clearAll => { w with desk := w.desk.clearAll }
  | .degrees => { w with desk := w.desk.toggleUnit }
  | .traceHeader => { w with traceOpen := !w.traceOpen }
  | .historyHeader => { w with historyOpen := !w.historyOpen }

def step (w : Window) : Step → Window
  | .write entry => { w with desk := w.desk.setEntry entry }
  | .click widget => w.click widget
  | .escape => { w with desk := w.desk.clearEntry }
  | .confirm => { w with desk := w.desk.evaluate }
  | .accept c => { w with desk := w.desk.accept c }
  | .refuse f => { w with desk := w.desk.refuse f }

def run (w : Window) (steps : List Step) : Window := steps.foldl step w

def title : Text := "Calculatrice flottante".toList

def hint : Text := "Ex: 1 + (2 ^ 3) * sin 90, 50%, 2x, cos(tau)".toList

def entryShown (d : Desk) : Text := if d.entry.isEmpty then hint else d.entry

def currentShown (d : Desk) : Text :=
  "Courant : ".toList ++ match d.current with
    | some v => Display.value v
    | none => ['—']

def noticeShown : Option Notice → List Text
  | none => []
  | some n => if n.underline.isEmpty then [n.message] else [n.message, n.expression, n.underline]

def traceShown (w : Window) : List Text :=
  if w.traceOpen then
    ["Normalisée :".toList, w.desk.trace.normalised, "Jetons :".toList, w.desk.trace.listing]
  else []

def historyShown (w : Window) : List Text :=
  if w.historyOpen then [['\n'].intercalate w.desk.history.reverse] else []

def screen (w : Window) : List Text :=
  let texts :=
    [title, "Entrée :".toList, entryShown w.desk] ++
      Widget.actions.map Widget.label ++ [currentShown w.desk] ++
      Widget.buttons.map Widget.label ++ noticeShown w.desk.notice ++
      ["Résultat :".toList, w.desk.result] ++
      [Widget.traceHeader.label] ++ w.traceShown ++ [Widget.historyHeader.label] ++ w.historyShown
  texts.filter fun t => !t.isEmpty

end Window

end InfixCalculator

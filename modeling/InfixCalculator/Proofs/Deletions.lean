import InfixCalculator.Proofs.KeypadEntry

namespace InfixCalculator

namespace Text

variable {t : Text}

example : (insert .openParen ['s', 'i', 'n']).deleteLast = ['s', 'i', 'n'] := by decide

end Text

namespace Window

theorem run_append (w : Window) (first second : List Step) :
    w.run (first ++ second) = (w.run first).run second := List.foldl_append

end Window

end InfixCalculator

import InfixCalculator.Numeral
import InfixCalculator.Operator

namespace InfixCalculator

-- The smallest pieces of an expression. A `fixed` lexeme stands for the same
-- operator wherever it occurs; plus and minus are signs in some places.
inductive Lexeme
  | number
  | plus
  | minus
  | fixed (operator : Operator)
  | space
deriving DecidableEq

namespace Lexeme

def mark : Char → Option Lexeme
  | '(' => some (.fixed .openParen)
  | ')' => some (.fixed .closeParen)
  | '+' => some .plus
  | '-' => some .minus
  | '*' => some (.fixed .multiply)
  | '/' => some (.fixed .divide)
  | '^' => some (.fixed .power)
  | '%' => some (.fixed .percentage)
  | 'x' => some (.fixed .times)
  | _ => none

def words : List (Text × Operator) :=
  [(['c', 'o', 's'], .cosine), (['s', 'i', 'n'], .sine), (['t', 'a', 'n'], .tangent),
    (['c', 'o', 't'], .cotangent), (['c', 's', 'c'], .cosecant), (['s', 'e', 'c'], .secant),
    (['e'], .euler), (['p', 'i'], .pi), (['t', 'a', 'u'], .tau)]

def number? (t : Text) : Option (Lexeme × Text) := (Numeral.scan? t).map fun text => (.number, text)

def mark? : Text → Option (Lexeme × Text)
  | c :: _ => (mark c).map fun lexeme => (lexeme, [c])
  | [] => none

def word? (t : Text) : Option (Lexeme × Text) :=
  (words.find? fun (word, _) => word.isPrefixOf t).map fun (word, operator) => (.fixed operator, word)

def space? (t : Text) : Option (Lexeme × Text) :=
  let run := t.takeWhile (· == ' ')
  if run.isEmpty then none else some (.space, run)

def first? (t : Text) : Option (Lexeme × Text) :=
  number? t <|> mark? t <|> word? t <|> space? t

def hole : Text → Text
  | [] => []
  | c :: rest => if (first? (c :: rest)).isSome then [] else c :: hole rest

inductive Found : Text → Lexeme → Text → Prop
  | number : Numeral.scan? t = some text → Found t .number text
  | mark : number? (c :: rest) = none → mark c = some l → Found (c :: rest) l [c]
  | word : number? t = none → mark? t = none → (text, o) ∈ words → text.isPrefixOf t = true →
      Found t (.fixed o) text
  | space : t.takeWhile (· == ' ') ≠ [] → Found t .space (t.takeWhile (· == ' '))

theorem found_of_first? {t text : Text} {l : Lexeme} (found : first? t = some (l, text)) :
    Found t l text := by
  simp only [first?, Option.orElse_eq_orElse, Option.orElse_eq_or, Option.or_eq_some_iff] at found
  rcases found with found | ⟨noNumber, found | ⟨noMark, found | ⟨_, found⟩⟩⟩
  · simp only [number?, Option.map_eq_some_iff] at found
    obtain ⟨text, found, same⟩ := found
    cases same
    exact .number found
  · cases t with
    | nil => cases found
    | cons c rest =>
      simp only [mark?, Option.map_eq_some_iff] at found
      obtain ⟨l, marked, same⟩ := found
      cases same
      exact .mark noNumber marked
  · simp only [word?, Option.map_eq_some_iff] at found
    obtain ⟨⟨word, o⟩, listed, same⟩ := found
    cases same
    have stands := List.find?_some listed
    exact .word noNumber noMark (List.mem_of_find?_eq_some listed) stands
  · simp only [space?] at found
    split at found
    · cases found
    · next run => cases found; exact .space (by simpa using run)

theorem scan?_ne_nil {t text : Text} (found : Numeral.scan? t = some text) : text ≠ [] := by
  intro empty
  subst empty
  simp only [Numeral.scan?] at found
  split at found
  next digits =>
    simp only [Option.some.injEq, Numeral.Parts.text, List.append_eq_nil_iff] at found
    simp [Numeral.Parts.hasDigits, found] at digits
  next => cases found

theorem first?_ne_nil {t text : Text} {l : Lexeme} (found : first? t = some (l, text)) :
    text ≠ [] := by
  cases found_of_first? found with
  | number scanned => exact scan?_ne_nil scanned
  | mark => simp
  | word _ _ listed =>
    have nonempty : ∀ word ∈ words, word.1 ≠ [] := by simp [words]
    exact nonempty _ listed
  | space run => exact run

end Lexeme

end InfixCalculator

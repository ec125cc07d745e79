import InfixCalculator.Proofs.Postfix
import Mathlib.Data.List.TakeWhile

namespace InfixCalculator

def Token.isClose (t : Token) : Bool := t.operator? == some .closeParen

def openings (ts : List Token) : Nat := ts.countP Token.isOpen

def closings (ts : List Token) : Nat := ts.countP Token.isClose

-- With `depth` parentheses open on the left, no more are closed anywhere than are open there.
def Covered (depth : Nat) (ts : List Token) : Prop :=
  ∀ first rest, ts = first ++ rest → closings first ≤ depth + openings first

structure Balanced (depth : Nat) (ts : List Token) : Prop where
  covered : Covered depth ts
  even : closings ts = depth + openings ts

theorem openings_append (first second : List Token) :
    openings (first ++ second) = openings first + openings second := List.countP_append

theorem closings_append (first second : List Token) :
    closings (first ++ second) = closings first + closings second := List.countP_append

theorem openings_cons (t : Token) (ts : List Token) :
    openings (t :: ts) = openings [t] + openings ts := openings_append [t] ts

theorem closings_cons (t : Token) (ts : List Token) :
    closings (t :: ts) = closings [t] + closings ts := closings_append [t] ts

theorem covered_nil (depth : Nat) : Covered depth [] := by
  intro first rest parts
  obtain ⟨rfl, rfl⟩ := List.append_eq_nil_iff.mp parts.symm
  exact Nat.zero_le _

theorem covered_cons {depth inner : Nat} {t : Token} {ts : List Token}
    (moved : depth + openings [t] = inner + closings [t]) :
    Covered depth (t :: ts) ↔ Covered inner ts := by
  constructor
  · intro covered first rest parts
    have bound := covered (t :: first) rest (congrArg (t :: ·) parts)
    rw [openings_cons, closings_cons] at bound
    omega
  · intro covered first rest parts
    cases first with
    | nil => exact Nat.zero_le _
    | cons u first =>
      cases parts
      have bound := covered first rest rfl
      rw [openings_cons, closings_cons]
      omega

theorem balanced_nil {depth : Nat} : Balanced depth [] ↔ depth = 0 := by
  constructor
  · intro balanced
    have even := balanced.even
    simp only [closings, openings, List.countP_nil] at even
    omega
  · rintro rfl
    exact ⟨covered_nil 0, rfl⟩

theorem balanced_cons {depth inner : Nat} {t : Token} {ts : List Token}
    (moved : depth + openings [t] = inner + closings [t]) :
    Balanced depth (t :: ts) ↔ Balanced inner ts := by
  constructor
  · rintro ⟨covered, even⟩
    rw [openings_cons, closings_cons] at even
    exact ⟨(covered_cons moved).mp covered, by omega⟩
  · rintro ⟨covered, even⟩
    exact ⟨(covered_cons moved).mpr covered, by rw [openings_cons, closings_cons]; omega⟩

theorem openings_dropWhile {p : Token → Bool} (inside : ∀ t, p t = true → t.isOpen = false)
    (ts : List Token) : openings (ts.dropWhile p) = openings ts := by
  induction ts with
  | nil => rfl
  | cons t ts ih =>
    rw [List.dropWhile_cons]
    split
    · next passed =>
      have shut : openings [t] = 0 := by simp [openings, inside t passed]
      rw [openings_cons, shut, ih, Nat.zero_add]
    · rfl

theorem openings_number {t : Token} {v : Float} (kind : t.kind = .number v) :
    openings [t] = 0 ∧ closings [t] = 0 := by
  simp [openings, closings, Token.isOpen, Token.isClose, Token.operator?, kind]

theorem openings_operator {t : Token} {o : Operator} (kind : t.kind = .operator o) :
    openings [t] = (if o = .openParen then 1 else 0) ∧
      closings [t] = if o = .closeParen then 1 else 0 := by
  simp [openings, closings, List.countP_singleton, Token.isOpen, Token.isClose, Token.operator?, kind]

theorem openings_open {t : Token} (opens : t.isOpen = true) : openings [t] = 1 ∧ closings [t] = 0 :=
  openings_operator (Token.isOpen_iff.mp opens)

theorem closings_single (t : Token) : closings [t] ≤ 1 := List.countP_le_length

namespace Postfix

variable {t : Token} {pending emitted left : List Token}

theorem Moves.depth (moves : Moves t pending emitted left) :
    openings pending + openings [t] = openings left + closings [t] := by
  cases moves with
  | number kind => simp [openings_number kind]
  | opening kind =>
    have alone := openings_open (Token.isOpen_iff.mpr kind)
    rw [openings_cons t pending]
    omega
  | @closing paren _ _ kind standing =>
    have alone := openings_operator kind
    simp only [reduceCtorEq, if_true, if_false] at alone
    have opened : paren.isOpen = true := by
      have head := List.head?_dropWhile_not (!·.isOpen) pending
      simpa [standing] using head
    have below := openings_dropWhile (p := (!·.isOpen)) (by simp) pending
    have one := (openings_open opened).1
    rw [standing, openings_cons] at below
    omega
  | @operator o _ kind applied =>
    have alone := openings_operator kind
    rw [if_neg applied.1, if_neg applied.2] at alone
    have below := openings_dropWhile (p := fun top => o.entry.releases top.entry)
      (fun _ => released_not_open) pending
    rw [openings_cons t (pending.dropWhile _), below]
    omega

theorem Unpaired.depth (unpaired : Unpaired t pending) :
    openings pending = 0 ∧ openings [t] = 0 ∧ closings [t] = 1 := by
  obtain ⟨kind, standing⟩ := unpaired
  have alone := openings_operator kind
  have below := openings_dropWhile (p := (!·.isOpen)) (by simp) pending
  rw [standing] at below
  exact ⟨below.symm, alone.1, alone.2⟩

theorem translate_finished_iff (pending ts : List Token) :
    (translate pending ts).unpaired? = none ↔ Balanced (openings pending) ts := by
  induction ts generalizing pending with
  | nil => simp [translate, balanced_nil, openings, List.dropWhile_eq_nil_iff]
  | cons t rest ih =>
    rcases moves_or_unpaired t pending with ⟨emitted, left, moves⟩ | unpaired
    · rw [moves.translate, balanced_cons moves.depth]
      exact ih left
    · obtain ⟨none, opens, closes⟩ := unpaired.depth
      rw [unpaired.translate, none]
      simp only [reduceCtorEq, false_iff]
      intro balanced
      have bound := balanced.covered [t] rest rfl
      omega

end Postfix

end InfixCalculator

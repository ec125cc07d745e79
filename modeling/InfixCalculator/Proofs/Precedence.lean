import InfixCalculator.Proofs.Enclosure
import InfixCalculator.Proofs.Steps

namespace InfixCalculator

def Level.precedence : Level → Int
  | sum => 10
  | product => 20
  | relative => 30
  | function => 40
  | power => 90
  | sign => 100
  | atom => 200

def Level.associativity : Level → Associativity
  | sum | product | relative | atom => .left
  | function | power | sign => .right

theorem Level.entry_precedence {level : Level} {o : Operator} (listed : o ∈ level.operators) :
    o.entry.precedence = level.precedence := by
  revert o
  cases level <;> decide

theorem Level.entry_associativity {level : Level} {o : Operator} (listed : o ∈ level.operators) :
    o.entry.associativity = level.associativity := by
  revert o
  cases level <;> decide

namespace Operator

variable {entering waiting : Entry}

theorem releases_left (left : entering.associativity = .left)
    (tight : entering.precedence ≤ waiting.precedence) : entering.releases waiting = true := by
  simpa [Entry.releases, left] using tight

theorem releases_tighter (associates : entering.associativity ≠ .none)
    (tighter : entering.precedence < waiting.precedence) : entering.releases waiting = true := by
  cases side : entering.associativity with
  | none => contradiction
  | left => exact releases_left side (Int.le_of_lt tighter)
  | right => simpa [Entry.releases, side] using tighter

theorem Entry.releases_eq_false_iff :
    entering.releases waiting = false ↔
      (entering.associativity = .left → waiting.precedence < entering.precedence) ∧
        (entering.associativity = .right → waiting.precedence ≤ entering.precedence) := by
  cases side : entering.associativity <;> simp [releases, side]

theorem keeps_looser (looser : waiting.precedence < entering.precedence) :
    entering.releases waiting = false :=
  Entry.releases_eq_false_iff.mpr ⟨fun _ => looser, fun _ => Int.le_of_lt looser⟩

theorem keeps_right {o top : Operator} (right : top.entry.associativity = .right)
    (loose : top.entry.precedence ≤ o.entry.precedence) : o.entry.releases top.entry = false := by
  by_cases looser : top.entry.precedence < o.entry.precedence
  · exact keeps_looser looser
  · have same : top.entry.precedence = o.entry.precedence := by omega
    clear loose looser
    revert right same
    cases top <;> cases o <;> decide

end Operator

namespace Expression

def items : (position : Nat) → Expression → List Token
  | position, number t => [⟨t, position, .number (Numeral.value t)⟩]
  | position, constant o => [o.token position]
  | position, enclosed inner => inner.items (position + Word.breadth [Operator.openParen.word])
  | position, before o operand =>
    operand.items (position + Word.breadth [o.word]) ++ [o.token position]
  | position, behind o operand =>
    operand.items position ++ [o.token (position + Word.breadth operand.words)]
  | position, between o left right =>
    left.items position ++
      right.items (position + Word.breadth left.words + Word.breadth [o.word]) ++
      [o.token (position + Word.breadth left.words)]

end Expression

namespace Postfix

theorem translate_released {t : Token} {o : Operator} {held base : List Token}
    (kind : t.kind = .operator o) (applied : o ≠ .openParen ∧ o ≠ .closeParen)
    (released : ∀ top ∈ held, o.entry.releases top.entry = true)
    (kept : ∀ top ∈ base.head?, o.entry.releases top.entry = false) (rest : List Token) :
    translate (held ++ base) (t :: rest) = (translate (t :: base) rest).after held := by
  have stops : base.takeWhile (fun top => o.entry.releases top.entry) = [] ∧
      base.dropWhile (fun top => o.entry.releases top.entry) = base := by
    cases base with
    | nil => exact ⟨rfl, rfl⟩
    | cons top below => simp [kept top rfl]
  rw [(Moves.operator kind applied).translate, List.takeWhile_append_of_pos released,
    List.dropWhile_append_of_pos released, stops.1, stops.2, List.append_nil]

-- A stack on which every operator from this level on can be put without any of the
-- tokens below being applied.
def Firm (level : Level) (base : List Token) : Prop :=
  ∀ top ∈ base.head?, ∀ o : Operator, level.precedence ≤ o.entry.precedence →
    o.entry.releases top.entry = false

theorem Firm.tighter {level other : Level} {base : List Token} (firm : Firm level base)
    (tighter : level.precedence ≤ other.precedence) : Firm other base := by
  intro top member o above
  exact firm top member o (Int.le_trans tighter above)

theorem firm_open {t : Token} (paren : t.kind = .operator .openParen) (level : Level)
    (base : List Token) : Firm level (t :: base) := by
  intro top member o _
  cases member
  exact releases_isOpen (Token.isOpen_iff.mpr paren) o

theorem firm_looser {level other : Level} {t : Token} {o : Operator} (kind : t.kind = .operator o)
    (listed : o ∈ level.operators) (tighter : level.precedence < other.precedence)
    (base : List Token) : Firm other (t :: base) := by
  intro top member entering above
  cases member
  have waiting := Level.entry_precedence listed
  rw [Token.entry_of_kind kind]
  exact Operator.keeps_looser (by omega)

theorem firm_right {level : Level} {t : Token} {o : Operator} (kind : t.kind = .operator o)
    (listed : o ∈ level.operators) (right : level.associativity = .right) (base : List Token) :
    Firm level (t :: base) := by
  intro top member entering above
  cases member
  have waiting := Level.entry_precedence listed
  have associates := Level.entry_associativity listed
  rw [Token.entry_of_kind kind]
  exact Operator.keeps_right (by rw [associates, right]) (by omega)

theorem not_open_of_above {held : List Token}
    (above : ∀ top ∈ held, Level.sum.precedence ≤ top.entry.precedence) :
    ∀ top ∈ held, (!top.isOpen) = true := by
  intro top member
  have tight := above top member
  by_cases paren : top.operator? = some .openParen
  · simp [Token.entry, paren, Level.precedence, Operator.entry] at tight
  · simpa [Token.isOpen] using paren

-- Above `base` these tokens put out a first part of the items. The rest of the items
-- is left waiting, and is all of this level or tighter.
def Arranges (level : Level) (base tokens items : List Token) : Prop :=
  ∃ emitted held, emitted ++ held = items ∧
    (∀ top ∈ held, level.precedence ≤ top.entry.precedence) ∧
    ∀ rest, translate base (tokens ++ rest) = (translate (held ++ base) rest).after emitted

namespace Arranges

variable {level other : Level} {base tokens items operand behind : List Token} {t : Token}
  {o : Operator}

theorem tighter (arranges : Arranges other base tokens items)
    (looser : level.precedence ≤ other.precedence) : Arranges level base tokens items := by
  obtain ⟨emitted, held, parts, above, translated⟩ := arranges
  refine ⟨emitted, held, parts, ?_, translated⟩
  intro top member
  exact Int.le_trans looser (above top member)

theorem nil : Arranges level base [] [] := ⟨[], [], rfl, by simp, fun _ => rfl⟩

theorem number {v : Float} (kind : t.kind = .number v) : Arranges level base [t] [t] := by
  refine ⟨[t], [], rfl, by simp, ?_⟩
  intro rest
  exact (Moves.number kind).translate rest

theorem enter (arranges : Arranges other base tokens items) (kind : t.kind = .operator o)
    (listed : o ∈ level.operators) (firm : Firm level base)
    (looser : level.precedence < other.precedence ∨
      level.precedence ≤ other.precedence ∧ level.associativity = .left) (rest : List Token) :
    translate base (tokens ++ t :: rest) = (translate (t :: base) rest).after items := by
  obtain ⟨emitted, held, rfl, above, translated⟩ := arranges
  have precedence := Level.entry_precedence listed
  have associates := Level.entry_associativity listed
  have released : ∀ top ∈ held, o.entry.releases top.entry = true := by
    intro top member
    have tight := above top member
    rcases looser with strictly | ⟨weakly, left⟩
    · refine Operator.releases_tighter ?_ (by omega)
      rw [associates]
      cases level <;> simp [Level.associativity]
    · exact Operator.releases_left (by rw [associates, left]) (by omega)
  have kept : ∀ top ∈ base.head?, o.entry.releases top.entry = false := by
    intro top member
    exact firm top member o (Int.le_of_eq precedence.symm)
  rw [translated, translate_released kind (Level.not_parenthesis listed) released kept,
    Translation.after_append]

theorem wait (kind : t.kind = .operator o) (listed : o ∈ level.operators)
    (looser : level.precedence ≤ other.precedence)
    (entered : ∀ rest, translate base (tokens ++ t :: rest) = (translate (t :: base) rest).after items)
    (arranges : Arranges other (t :: base) behind operand) :
    Arranges level base (tokens ++ t :: behind) (items ++ operand ++ [t]) := by
  obtain ⟨emitted, held, rfl, above, translated⟩ := arranges
  refine ⟨items ++ emitted, held ++ [t], by simp, ?_, ?_⟩
  · intro top member
    rcases List.mem_append.mp member with inside | last
    · exact Int.le_trans looser (above top inside)
    · rw [List.mem_singleton.mp last]
      have precedence := Level.entry_precedence listed
      rw [Token.entry_of_kind kind]
      omega
  · intro rest
    rw [List.append_assoc, List.cons_append, entered, translated, Translation.after_append]
    simp

theorem enclosed {opening closing : Token} (opens : opening.kind = .operator .openParen)
    (closes : closing.kind = .operator .closeParen)
    (arranges : Arranges .sum (opening :: base) tokens items) :
    Arranges level base (opening :: (tokens ++ [closing])) items := by
  obtain ⟨emitted, held, rfl, above, translated⟩ := arranges
  refine ⟨emitted ++ held, [], by simp, by simp, ?_⟩
  intro rest
  obtain ⟨taken, dropped⟩ := while_above (Token.isOpen_iff.mpr opens) (not_open_of_above above) base
  rw [List.cons_append, List.append_assoc, (Moves.opening opens).translate, translated,
    List.singleton_append, (Moves.closing closes dropped).translate, taken,
    Translation.after_append, Translation.after_append]
  rfl

end Arranges

end Postfix

open Postfix Word in
-- Induction on the derivation, above any stack that is firm from its level on. Each
-- operator goes on that stack before its last operand and is firm for that.
theorem Derives.arranges {level : Level} {e : Expression} (derived : Derives level e)
    (position : Nat) {base : List Token} (firm : Firm level base) :
    Arranges level base (place position e.words) (e.items position) := by
  induction derived generalizing position base with
  | ofProduct _ ih | ofRelative _ ih | ofFunction _ ih | ofPower _ ih | ofSign _ ih | ofAtom _ ih =>
    exact (ih position (firm.tighter (by decide))).tighter (by decide)
  | number written => exact .number rfl
  | @constant o listed =>
    have nothing : Arranges .atom base [] [] := .nil
    have entered := nothing.enter (t := o.token position) rfl listed firm (.inr ⟨by decide, rfl⟩)
    exact .wait rfl listed (Int.le_refl _) entered .nil
  | enclosed _ ih =>
    simp only [Expression.words, place_operator, place_append]
    exact .enclosed rfl rfl (ih _ (firm_open rfl .sum base))
  | @function o operand listed _ ih | @sign o operand listed _ ih =>
    have nothing : Arranges .atom base [] [] := .nil
    have entered := nothing.enter (t := o.token position) rfl listed firm (.inl (by decide))
    have firm := firm_right (t := o.token position) rfl listed rfl base
    exact .wait rfl listed (Int.le_refl _) entered (ih _ firm)
  | @relative o operand listed _ ih =>
    simp only [Expression.words, place_append]
    have entered := (ih position firm).enter (t := o.token (position + breadth operand.words)) rfl
      listed firm (.inr ⟨Int.le_refl _, rfl⟩)
    have waits := Arranges.wait rfl listed (Int.le_refl _) entered .nil
    rw [List.append_nil] at waits
    exact waits
  | @sum o left right listed closed _ _ before behind
  | @product o left right listed _ _ before behind =>
    simp only [Expression.words, place_append, place_operator]
    have entered := (before position firm).enter (t := o.token (position + breadth left.words)) rfl
      listed firm (.inr ⟨Int.le_refl _, rfl⟩)
    have last := behind (position + breadth left.words + breadth [o.word])
      (firm_looser (t := o.token (position + breadth left.words)) rfl listed (by decide) base)
    exact .wait rfl listed (by decide) entered last
  | @power o left right listed _ _ before behind =>
    simp only [Expression.words, place_append, place_operator]
    have entered := (before position (firm.tighter (by decide))).enter
      (t := o.token (position + breadth left.words)) rfl listed firm (.inl (by decide))
    have firm := firm_right (t := o.token (position + breadth left.words)) rfl listed rfl base
    exact .wait rfl listed (Int.le_refl _) entered (behind _ firm)

namespace Expression

variable {c : Context} {level : Level} {o : Operator} {operands : List Float}

end Expression

open Expression

end InfixCalculator

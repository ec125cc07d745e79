import InfixCalculator.Proofs.Moments
import InfixCalculator.Proofs.Neighbours
import InfixCalculator.Proofs.Precedence
import Mathlib.Data.List.Chain

namespace InfixCalculator

theorem Operator.exists_level {o : Operator} (applied : o ≠ .openParen ∧ o ≠ .closeParen)
    (known : o ≠ .unknown) : ∃ level : Level, o ∈ level.operators := by
  obtain ⟨notOpen, notClose⟩ := applied
  cases o with
  | openParen | closeParen | unknown => contradiction
  | add | subtract => exact ⟨.sum, by decide⟩
  | multiply | divide => exact ⟨.product, by decide⟩
  | percentage | times => exact ⟨.relative, by decide⟩
  | sine | cosine | tangent | cosecant | secant | cotangent => exact ⟨.function, by decide⟩
  | power => exact ⟨.power, by decide⟩
  | minusSign | plusSign => exact ⟨.sign, by decide⟩
  | euler | pi | tau => exact ⟨.atom, by decide⟩

namespace Level

theorem associates (level : Level) : level.associativity = .left ∨ level.associativity = .right := by
  cases level <;> decide

theorem eq_of_precedence {level other : Level} (same : level.precedence = other.precedence) :
    level = other := by
  cases level <;> cases other <;> first | rfl | cases same

theorem eq_atom_of_place {level : Level} (alone : level.place = .alone) : level = .atom := by
  cases level <;> first | rfl | cases alone

theorem precedence_le_atom (level : Level) : level.precedence ≤ atom.precedence := by
  cases level <;> decide

end Level

def Token.OnLevel (level : Level) (t : Token) : Prop :=
  ∃ o, t.kind = .operator o ∧ o ∈ level.operators

namespace Token.OnLevel

variable {level : Level} {t : Token}

theorem precedence (listed : t.OnLevel level) : t.entry.precedence = level.precedence := by
  obtain ⟨o, kind, listed⟩ := listed
  rw [Token.entry_of_kind kind, Level.entry_precedence listed]

theorem associativity (listed : t.OnLevel level) : t.entry.associativity = level.associativity := by
  obtain ⟨o, kind, listed⟩ := listed
  rw [Token.entry_of_kind kind, Level.entry_associativity listed]

theorem eq_atom (listed : t.OnLevel level) (alone : t.place? = some .alone) : level = .atom := by
  obtain ⟨o, kind, listed⟩ := listed
  have placed : o.place? = some .alone := by simpa [Token.place?, Token.operator?, kind] using alone
  rw [Level.operator_place listed] at placed
  exact Level.eq_atom_of_place (Option.some.inj placed)

end Token.OnLevel

namespace Engine

-- The order of two operators that can be applied, where `t` waits above `s` and no open parenthesis
-- is between them. A constant has nothing above it.
structure Above (t s : Token) : Prop where
  rising : s.entry.precedence ≤ t.entry.precedence
  equals : t.entry.precedence = s.entry.precedence →
    t.entry.associativity = .right ∧ s.entry.associativity = .right
  constant : s.place? ≠ some .alone

theorem above_of_kept {t s : Token} {upper lower : Level} (onUpper : t.OnLevel upper)
    (onLower : s.OnLevel lower) (kept : t.entry.releases s.entry = false) : Above t s := by
  obtain ⟨left, right⟩ := Operator.Entry.releases_eq_false_iff.mp kept
  rw [onUpper.associativity, onUpper.precedence, onLower.precedence] at left right
  have rising : lower.precedence ≤ upper.precedence := by
    rcases upper.associates with side | side
    · exact Int.le_of_lt (left side)
    · exact right side
  have equals (same : upper.precedence = lower.precedence) : upper.associativity = .right := by
    rcases upper.associates with side | side
    · have below := left side
      omega
    · exact side
  refine ⟨by rwa [onUpper.precedence, onLower.precedence], ?_, ?_⟩
  · rw [onUpper.precedence, onLower.precedence, onUpper.associativity, onLower.associativity]
    intro same
    exact ⟨equals same, Level.eq_of_precedence same ▸ equals same⟩
  · -- No level is tighter than that of the constants, and it associates to the left.
    intro alone
    obtain rfl := onLower.eq_atom alone
    have top := Int.le_antisymm upper.precedence_le_atom rising
    obtain rfl := Level.eq_of_precedence top
    cases equals rfl

theorem Above.trans {t s u : Token} (one : Above t s) (other : Above s u) : Above t u := by
  have upper := one.rising
  have lower := other.rising
  refine ⟨Int.le_trans lower upper, fun same => ?_, other.constant⟩
  exact ⟨(one.equals (by omega)).1, (other.equals (by omega)).2⟩

instance : Trans Above Above Above := ⟨Above.trans⟩

-- What each change keeps of the waiting tokens, and of those taken in so far.
structure Stacked (taken pending : List Token) : Prop where
  waiting : Postfix.Waiting pending
  inOrder : pending.reverse.Sublist taken
  kept : pending.IsChain fun t s => t.entry.releases s.entry = false

namespace Stacked

variable {taken pending below : List Token} {t top : Token}

theorem nil : Stacked [] [] := ⟨Postfix.waiting_nil, .slnil, .nil⟩

theorem pass (stacked : Stacked taken pending) (t : Token) : Stacked (taken ++ [t]) pending :=
  { stacked with inOrder := stacked.inOrder.trans (List.sublist_append_left _ _) }

theorem put (stacked : Stacked taken pending) (operator : t.isNumber = false)
    (other : t.operator? ≠ some .closeParen)
    (kept : ∀ top ∈ pending.head?, t.entry.releases top.entry = false) :
    Stacked (taken ++ [t]) (t :: pending) where
  waiting := by
    intro u member
    rcases List.mem_cons.mp member with rfl | below
    · exact ⟨operator, other⟩
    · exact stacked.waiting u below
  inOrder := by
    rw [List.reverse_cons]
    exact stacked.inOrder.append (List.Sublist.refl [t])
  kept := stacked.kept.cons kept

theorem remove (stacked : Stacked taken (top :: below)) : Stacked taken below where
  waiting := stacked.waiting.tail
  inOrder := by
    have whole := stacked.inOrder
    rw [List.reverse_cons] at whole
    exact (List.sublist_append_left _ _).trans whole
  kept := stacked.kept.tail

theorem exists_level (stacked : Stacked taken pending) (known : ∀ t ∈ taken, t.isKnown = true)
    (waits : t ∈ pending) (shut : t.isOpen = false) : ∃ level, t.OnLevel level := by
  obtain ⟨o, kind, notClose⟩ := stacked.waiting.operator waits
  have named := known t (stacked.inOrder.subset (List.mem_reverse.mpr waits))
  simp only [Token.isKnown, Token.isOpen, Token.operator?, kind, bne_iff_ne, beq_eq_false_iff_ne, ne_eq,
    Option.some.injEq] at named shut
  obtain ⟨level, listed⟩ := Operator.exists_level ⟨shut, notClose⟩ named
  exact ⟨level, o, kind, listed⟩

theorem segment (stacked : Stacked taken pending) (known : ∀ t ∈ taken, t.isKnown = true)
    {segment : List Token} (inside : segment <:+: pending) (shut : ∀ t ∈ segment, t.isOpen = false) :
    segment.Pairwise Above := by
  have chain := List.IsChain.infix stacked.kept inside
  suffices above : segment.IsChain Above from above.pairwise
  refine chain.imp_of_mem_imp ?_
  intro t s above below kept
  obtain ⟨upper, onUpper⟩ := stacked.exists_level known (inside.subset above) (shut t above)
  obtain ⟨lower, onLower⟩ := stacked.exists_level known (inside.subset below) (shut s below)
  exact above_of_kept onUpper onLower kept

end Stacked

def Moment.Arranged (ts : List Token) (m : Moment) : Prop :=
  ∃ taken, ts = taken ++ m.rest ∧ Stacked taken m.state.pending

theorem Moment.Change.arranged {ts : List Token} {m next : Moment} (change : Change m next)
    (arranged : m.Arranged ts) : next.Arranged ts := by
  obtain ⟨taken, parts, stacked⟩ := arranged
  have more {t : Token} (passed : m.rest = t :: next.rest) : ts = taken ++ [t] ++ next.rest := by
    rw [parts, passed, List.append_assoc, List.singleton_append]
  cases change with
  | number passed _ same => exact ⟨_, more passed, same ▸ stacked.pass _⟩
  | waits passed operator other kept put =>
    exact ⟨_, more passed, put ▸ stacked.put operator other kept⟩
  | leaves left _ same =>
    rw [left] at stacked
    exact ⟨taken, same ▸ parts, stacked.remove⟩
  | closes passed _ left _ =>
    rw [left] at stacked
    exact ⟨_, more passed, stacked.remove.pass _⟩

theorem Reached.arranged {c : Context} {ts : List Token} {m next : Moment} (reached : Reached c m next)
    (arranged : m.Arranged ts) : next.Arranged ts := by
  induction reached with
  | refl => exact arranged
  | step _ moved ih => exact (Moment.change_of_advance moved).arranged ih

-- The order of the tokens that wait, out of `ts`, of which `rest` is not taken in.
structure Ordered (ts rest pending : List Token) : Prop where
  operators : ∀ t ∈ pending, ∃ o, t.kind = .operator o ∧ o ≠ .closeParen
  inOrder : ∃ taken, ts = taken ++ rest ∧ pending.reverse.Sublist taken
  neighbours : pending.IsChain fun t s => t.isOpen = false →
    (t.entry.associativity = .left → s.entry.precedence < t.entry.precedence) ∧
      (t.entry.associativity = .right → s.entry.precedence ≤ t.entry.precedence)
  segments : ∀ segment, segment <:+: pending → (∀ t ∈ segment, t.isOpen = false) →
    segment.Pairwise Above

theorem Moment.Arranged.ordered {ts : List Token} {m : Moment} (arranged : m.Arranged ts)
    (known : ∀ t ∈ ts, t.isKnown = true) : Ordered ts m.rest m.state.pending := by
  obtain ⟨taken, parts, stacked⟩ := arranged
  refine ⟨fun t => stacked.waiting.operator, ⟨taken, parts, stacked.inOrder⟩, ?_, ?_⟩
  · exact stacked.kept.imp fun _ _ kept _ => Operator.Entry.releases_eq_false_iff.mp kept
  · intro segment inside shut
    refine stacked.segment ?_ inside shut
    intro t member
    exact known t (parts ▸ List.mem_append_left _ member)

-- Each token that waits binds tighter than the one below it, or as tight when it associates to the
-- right. The states between two tokens are among the moments.
theorem pending_stays_ordered {c : Context} {ts : List Token}
    (known : ∀ t ∈ ts, t.isKnown = true) :
    (∀ taken rest s, ts = taken ++ rest → steps c start taken = .ok s →
      Reached c (.first ts) ⟨s, rest⟩) ∧
    (∃ last, Reached c (.first ts) last ∧ last.advance c = .done (execute c ts)) ∧
    ∀ m, Reached c (.first ts) m → Ordered ts m.rest m.state.pending := by
  refine ⟨?_, exists_last c (.first ts), ?_⟩
  · rintro taken rest s rfl ran
    exact steps_reached ran rest
  · intro m reached
    exact (reached.arranged ⟨[], rfl, .nil⟩).ordered known

theorem pending_stays_ordered_powers :
    ∃ ts m,
      ts = [⟨['2'], 0, .number 2⟩, Operator.multiply.token 1, Operator.openParen.token 2,
        ⟨['3'], 3, .number 3⟩, Operator.power.token 4, ⟨['4'], 5, .number 4⟩, Operator.power.token 6,
        Operator.pi.token 7, Operator.subtract.token 9] ∧
      (∀ t ∈ ts, t.isKnown = true) ∧ Reached {} (.first ts) m ∧ m.rest = [Operator.subtract.token 9] ∧
      m.state.pending = [Operator.power.token 6, Operator.power.token 4, Operator.openParen.token 2,
        Operator.multiply.token 1] ∧
      Ordered ts m.rest m.state.pending := by
  have ran : steps {} start [⟨['2'], 0, .number 2⟩, Operator.multiply.token 1, Operator.openParen.token 2,
      ⟨['3'], 3, .number 3⟩, Operator.power.token 4, ⟨['4'], 5, .number 4⟩, Operator.power.token 6,
      Operator.pi.token 7] = .ok ⟨[4, 3, 2], [Operator.pi.token 7, Operator.power.token 6,
        Operator.power.token 4, Operator.openParen.token 2, Operator.multiply.token 1]⟩ := rfl
  have reached := Reached.step (steps_reached ran [Operator.subtract.token 9]) rfl
  refine ⟨_, _, rfl, by decide, reached, rfl, rfl, ?_⟩
  exact (pending_stays_ordered (by decide)).2.2 _ reached

end Engine

end InfixCalculator

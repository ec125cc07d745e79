import InfixCalculator.Proofs.Postfix

namespace InfixCalculator

-- Whether a token on top of the stack is applied before the token that comes next is taken in,
-- or before the end when none comes.
def Token.leavesFor (top : Token) : (coming : Option Token) → Bool
  | none => !top.isOpen
  | some t =>
    match t.kind with
    | .number _ => false
    | .operator .closeParen => !top.isOpen
    | .operator o => o.entry.releases top.entry

namespace Engine

-- The engine between two changes of its stacks, and the tokens that are not taken in. A token
-- that comes to a stack from which others have to leave first is not taken in until they have.
structure Moment where
  state : State
  rest : List Token

inductive Progress
  | going (next : Moment)
  | done (result : Except Stop Float)

variable {c : Context} {values : List Float} {top t : Token} {below rest : List Token} {s : State}

namespace Moment

def first (ts : List Token) : Moment := ⟨start, ts⟩

def result (c : Context) (m : Moment) : Except Stop Float :=
  match steps c m.state m.rest with
  | .ok s => finish c s
  | .error stop => .error stop

def takeIn (c : Context) (s : State) : List Token → Progress
  | [] => .done (finish c s)
  | t :: rest =>
    match step c s t with
    | .ok next => .going ⟨next, rest⟩
    | .error stop => .done (.error stop)

-- One token leaves the stack and is applied, or, where none has to, one token is taken in.
def advance (c : Context) (m : Moment) : Progress :=
  match m.state.pending with
  | [] => takeIn c m.state m.rest
  | top :: below =>
    if top.leavesFor m.rest.head? then
      match perform c top m.state.values with
      | .ok values => .going ⟨⟨values, below⟩, m.rest⟩
      | .error stop => .done (.error stop)
    else takeIn c m.state m.rest

theorem advance_settled (settled : ∀ top ∈ s.pending.head?, top.leavesFor rest.head? = false) :
    advance c ⟨s, rest⟩ = takeIn c s rest := by
  obtain ⟨values, pending⟩ := s
  cases pending with
  | nil => rfl
  | cons top below => simp only [advance, settled top rfl, Bool.false_eq_true, if_false]

theorem advance_leaving (leaving : top.leavesFor rest.head? = true) :
    advance c ⟨⟨values, top :: below⟩, rest⟩ =
      match perform c top values with
      | .ok values => .going ⟨⟨values, below⟩, rest⟩
      | .error stop => .done (.error stop) := by
  cases performed : perform c top values <;> simp only [advance, leaving, if_true, performed]

theorem settled_or_leaving (pending : List Token) (coming : Option Token) :
    (∀ top ∈ pending.head?, top.leavesFor coming = false) ∨
      ∃ top below, pending = top :: below ∧ top.leavesFor coming = true := by
  cases pending with
  | nil => simp
  | cons top below => cases leaving : top.leavesFor coming <;> simp [leaving]

end Moment

theorem leavesFor_operator {o : Operator} (kind : t.kind = .operator o)
    (applied : o ≠ .openParen ∧ o ≠ .closeParen) :
    top.leavesFor (some t) = o.entry.releases top.entry := by
  obtain ⟨notOpen, notClose⟩ := applied
  cases o with
  | openParen => contradiction
  | closeParen => contradiction
  | _ => simp only [Token.leavesFor, kind]

theorem release_kept {entering : Operator.Entry} {pending : List Token}
    (kept : ∀ top ∈ pending.head?, entering.releases top.entry = false) :
    release c entering values pending = .ok ⟨values, pending⟩ := by
  cases pending with
  | nil => rfl
  | cons top below => simp only [release, kept top rfl, Bool.false_eq_true, if_false]

theorem step_leaving (leaving : top.leavesFor (some t) = true) :
    step c ⟨values, top :: below⟩ t =
      match perform c top values with
      | .ok values => step c ⟨values, below⟩ t
      | .error stop => .error stop := by
  cases kind : t.kind with
  | number v => simp [Token.leavesFor, kind] at leaving
  | operator o =>
    by_cases opens : o = .openParen
    · subst opens
      simp [Token.leavesFor, kind, Operator.Entry.releases, Operator.entry] at leaving
    · by_cases closes : o = .closeParen
      · subst closes
        have shut : top.operator? ≠ some .openParen := by
          simpa [Token.leavesFor, kind, Token.isOpen] using leaving
        cases performed : perform c top values <;>
          simp only [step, kind, close, if_neg shut, performed]
      · rw [leavesFor_operator kind ⟨opens, closes⟩] at leaving
        simp only [Postfix.step_operator c _ kind ⟨opens, closes⟩, release, leaving, if_true]
        cases perform c top values <;> rfl

theorem finish_leaving (leaving : top.leavesFor none = true) :
    finish c ⟨values, top :: below⟩ =
      match perform c top values with
      | .ok values => finish c ⟨values, below⟩
      | .error stop => .error stop := by
  have shut : top.operator? ≠ some .openParen := by simpa [Token.leavesFor, Token.isOpen] using leaving
  cases performed : perform c top values <;> simp only [finish, drain, if_neg shut, performed]

namespace Moment

theorem result_leaving (leaving : top.leavesFor rest.head? = true) :
    result c ⟨⟨values, top :: below⟩, rest⟩ =
      match perform c top values with
      | .ok values => result c ⟨⟨values, below⟩, rest⟩
      | .error stop => .error stop := by
  cases rest with
  | nil => exact finish_leaving leaving
  | cons t rest =>
    cases performed : perform c top values <;> simp only [result, steps, step_leaving leaving, performed]

theorem result_takeIn (c : Context) (s : State) (rest : List Token) :
    result c ⟨s, rest⟩ =
      match takeIn c s rest with
      | .going next => next.result c
      | .done result => result := by
  cases rest with
  | nil => rfl
  | cons t rest =>
    cases stepped : step c s t <;> simp only [result, steps, takeIn, stepped]

theorem result_advance (c : Context) (m : Moment) :
    m.result c =
      match m.advance c with
      | .going next => next.result c
      | .done result => result := by
  obtain ⟨⟨values, pending⟩, rest⟩ := m
  rcases settled_or_leaving pending rest.head? with settled | ⟨top, below, rfl, leaving⟩
  · rw [advance_settled settled]
    exact result_takeIn c _ rest
  · rw [advance_leaving leaving, result_leaving leaving]
    cases perform c top values <;> rfl

-- All that one change can do to the stack: nothing, or one token is put there, or one leaves.
inductive Change (m next : Moment) : Prop
  | number {t : Token} : m.rest = t :: next.rest → t.isNumber = true →
      next.state.pending = m.state.pending → Change m next
  | waits {t : Token} : m.rest = t :: next.rest → t.isNumber = false → t.operator? ≠ some .closeParen →
      (∀ top ∈ m.state.pending.head?, t.entry.releases top.entry = false) →
      next.state.pending = t :: m.state.pending → Change m next
  | leaves {top : Token} : m.state.pending = top :: next.state.pending →
      top.leavesFor m.rest.head? = true → next.rest = m.rest → Change m next
  | closes {t top : Token} : m.rest = t :: next.rest → t.operator? = some .closeParen →
      m.state.pending = top :: next.state.pending → top.isOpen = true → Change m next

theorem change_of_step {next : State}
    (settled : ∀ top ∈ s.pending.head?, top.leavesFor (some t) = false)
    (stepped : step c s t = .ok next) : Change ⟨s, t :: rest⟩ ⟨next, rest⟩ := by
  obtain ⟨values, pending⟩ := s
  cases kind : t.kind with
  | number v =>
    simp only [step, kind] at stepped
    cases stepped
    exact .number rfl (by simp [Token.isNumber, Token.operator?, kind]) rfl
  | operator o =>
    have operator : t.operator? = some o := by simp [Token.operator?, kind]
    have other : t.isNumber = false := by simp [Token.isNumber, operator]
    by_cases opens : o = .openParen
    · subst opens
      simp only [step, kind] at stepped
      cases stepped
      exact .waits rfl other (by simp [operator]) (fun _ _ => by rw [Token.entry_of_kind kind]; rfl) rfl
    · by_cases closes : o = .closeParen
      · subst closes
        simp only [step, kind] at stepped
        cases pending with
        | nil => cases stepped
        | cons top below =>
          have opened : top.isOpen = true := by simpa [Token.leavesFor, kind] using settled top rfl
          have paren : top.operator? = some .openParen := by simpa [Token.isOpen] using opened
          simp only [close, if_pos paren] at stepped
          cases stepped
          exact .closes rfl operator rfl opened
      · have kept : ∀ top ∈ pending.head?, o.entry.releases top.entry = false := by
          intro top member
          rw [← leavesFor_operator kind ⟨opens, closes⟩]
          exact settled top member
        simp only [Postfix.step_operator c _ kind ⟨opens, closes⟩, release_kept kept] at stepped
        cases stepped
        exact .waits rfl other (by simpa [operator] using closes) (Token.entry_of_kind kind ▸ kept) rfl

theorem change_of_takeIn {next : Moment}
    (settled : ∀ top ∈ s.pending.head?, top.leavesFor rest.head? = false)
    (taken : takeIn c s rest = .going next) : Change ⟨s, rest⟩ next := by
  unfold takeIn at taken
  split at taken
  · cases taken
  · split at taken
    · next stepped =>
      cases taken
      exact change_of_step settled stepped
    · cases taken

theorem change_of_advance {m next : Moment} (moved : m.advance c = .going next) : Change m next := by
  obtain ⟨⟨values, pending⟩, rest⟩ := m
  rcases settled_or_leaving pending rest.head? with settled | ⟨top, below, rfl, leaving⟩
  · rw [advance_settled settled] at moved
    exact change_of_takeIn settled moved
  · rw [advance_leaving leaving] at moved
    split at moved
    · cases moved
      exact .leaves rfl leaving rfl
    · cases moved

-- A token that is taken in may still have to leave the stack.
def size (m : Moment) : Nat := 2 * m.rest.length + m.state.pending.length

theorem Change.size_lt {m next : Moment} (change : Change m next) : next.size < m.size := by
  unfold size
  cases change with
  | number taken _ same => simp [taken, same]
  | waits taken _ _ _ put => simp [taken, put]; omega
  | leaves left _ same => simp [left, same]
  | closes taken _ left _ => simp [taken, left]; omega

end Moment

inductive Reached (c : Context) : Moment → Moment → Prop
  | refl : Reached c m m
  | step : Reached c m between → between.advance c = .going next → Reached c m next

variable {m between last : Moment}

theorem Reached.trans (first : Reached c m between) (second : Reached c between last) :
    Reached c m last := by
  induction second with
  | refl => exact first
  | step _ moved ih => exact .step ih moved

theorem Reached.behind (moved : m.advance c = .going between) (reached : Reached c between last) :
    Reached c m last := (Reached.step .refl moved).trans reached

theorem exists_last (c : Context) (m : Moment) :
    ∃ last, Reached c m last ∧ last.advance c = .done (m.result c) := by
  have follows := m.result_advance c
  cases moved : m.advance c with
  | going next =>
    have smaller := (Moment.change_of_advance moved).size_lt
    obtain ⟨last, reached, done⟩ := exists_last c next
    rw [moved] at follows
    exact ⟨last, reached.behind moved, follows ▸ done⟩
  | done result =>
    rw [moved] at follows
    exact ⟨m, .refl, by rw [moved, follows]⟩
termination_by m.size

theorem settled_reached {next : State}
    (settled : ∀ top ∈ s.pending.head?, top.leavesFor (some t) = false)
    (stepped : step c s t = .ok next) (rest : List Token) :
    Reached c ⟨s, t :: rest⟩ ⟨next, rest⟩ := by
  refine .step .refl ?_
  rw [Moment.advance_settled settled]
  simp only [Moment.takeIn, stepped]

-- The induction is on the stack, out of which the token lets one after the other leave.
theorem step_reached {next : State} (stepped : step c s t = .ok next) (rest : List Token) :
    Reached c ⟨s, t :: rest⟩ ⟨next, rest⟩ := by
  obtain ⟨values, pending⟩ := s
  induction pending generalizing values with
  | nil => exact settled_reached (by simp) stepped rest
  | cons top below ih =>
    cases leaving : top.leavesFor (some t) with
    | false => exact settled_reached (by simpa using leaving) stepped rest
    | true =>
      rw [step_leaving leaving] at stepped
      split at stepped
      · next left performed =>
        refine .behind ?_ (ih left stepped)
        rw [Moment.advance_leaving leaving]
        simp only [performed]
      · cases stepped

theorem steps_reached {taken : List Token} {next : State} (ran : steps c s taken = .ok next)
    (rest : List Token) : Reached c ⟨s, taken ++ rest⟩ ⟨next, rest⟩ := by
  induction taken generalizing s with
  | nil => cases ran; exact .refl
  | cons t taken ih =>
    unfold steps at ran
    split at ran
    · next stepped => exact (step_reached stepped (taken ++ rest)).trans (ih ran)
    · cases ran

end Engine

end InfixCalculator

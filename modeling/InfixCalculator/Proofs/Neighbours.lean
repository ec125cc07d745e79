import InfixCalculator.Proofs.Counts
import InfixCalculator.Proofs.Enclosure

namespace InfixCalculator

namespace Token

def startsOperand (t : Token) : Bool := t.isOperand || t.isOpen || t.place? == some .before

def endsOperand (t : Token) : Bool := t.isOperand || t.isClose || t.place? == some .behind

def takesLeft (t : Token) : Bool := t.isBinary || t.place? == some .behind

def takesRight (t : Token) : Bool := t.isBinary || t.place? == some .before

def isKnown (t : Token) : Bool := t.operator? != some .unknown

variable {t : Token}

theorem startsOperand_eq (known : t.isKnown = true) :
    t.startsOperand = (!t.takesLeft && !t.isClose) := by
  cases kind : t.kind with
  | number v =>
    simp [startsOperand, takesLeft, isOperand, isBinary, isClose, isNumber, place?, operator?, kind]
  | operator o =>
    revert known
    simp only [startsOperand, takesLeft, isOperand, isBinary, isClose, isOpen, isNumber, isKnown,
      place?, operator?, kind]
    cases o <;> decide

theorem endsOperand_eq (known : t.isKnown = true) :
    t.endsOperand = (!t.takesRight && !t.isOpen) := by
  cases kind : t.kind with
  | number v =>
    simp [endsOperand, takesRight, isOperand, isBinary, isOpen, isNumber, place?, operator?, kind]
  | operator o =>
    revert known
    simp only [endsOperand, takesRight, isOperand, isBinary, isClose, isOpen, isNumber, isKnown,
      place?, operator?, kind]
    cases o <;> decide

theorem takesLeft_of_close (t : Token) (closes : t.isClose = true) : t.takesLeft = false := by
  have operator : t.operator? = some .closeParen := by simpa [isClose] using closes
  simp [takesLeft, isBinary, place?, operator, Operator.place?]

theorem takesRight_of_open (t : Token) (opens : t.isOpen = true) : t.takesRight = false := by
  have operator : t.operator? = some .openParen := by simpa [isOpen] using opens
  simp [takesRight, isBinary, place?, operator, Operator.place?]

theorem sides (known : t.isKnown = true) :
    t.startsOperand.toNat + t.endsOperand.toNat + binaries [t] = 1 + operands [t] := by
  cases kind : t.kind with
  | number v =>
    obtain ⟨one, none⟩ := operands_number kind
    rw [one, none]
    simp [startsOperand, endsOperand, isOperand, isNumber, operator?, kind]
  | operator o =>
    obtain ⟨alone, between⟩ := operands_operator kind
    rw [alone, between]
    revert known
    simp only [startsOperand, endsOperand, isOperand, isClose, isOpen, isNumber, isKnown, place?,
      operator?, kind]
    cases o <;> decide

end Token

-- The place between two neighbours. Before the first token and behind the last,
-- nothing stands on the one side.
structure Seam where
  left : Option Token
  right : Option Token

def seams : (left : Option Token) → List Token → List Seam
  | left, [] => [⟨left, none⟩]
  | left, t :: rest => ⟨left, some t⟩ :: seams (some t) rest

namespace Seam

def adjoins (s : Seam) : Bool := s.left.any Token.endsOperand && s.right.any Token.startsOperand

def lacks (s : Seam) : Bool := !s.left.any Token.endsOperand && !s.right.any Token.startsOperand

def hollow (s : Seam) : Bool := s.left.any Token.isOpen && s.right.any Token.isClose

def Supplied (s : Seam) : Prop :=
  (s.right.any Token.takesLeft = true → s.left.any Token.endsOperand = true) ∧
    (s.left.any Token.takesRight = true → s.right.any Token.startsOperand = true)

end Seam

theorem countP_seams_cons (kind : Seam → Bool) (left : Option Token) (t : Token) (ts : List Token) :
    (seams left (t :: ts)).countP kind =
      (kind ⟨left, some t⟩).toNat + (seams (some t) ts).countP kind := by
  rw [seams, List.countP_cons, Nat.add_comm]
  cases kind ⟨left, some t⟩ <;> rfl

-- Induction on the tokens; what stands on the left counts with the side it offers.
theorem seams_balance {ts : List Token} (known : ∀ t ∈ ts, t.isKnown = true) (left : Option Token) :
    (seams left ts).countP Seam.adjoins + binaries ts + 1 =
      (seams left ts).countP Seam.lacks + operands ts + (left.any Token.endsOperand).toNat := by
  induction ts generalizing left with
  | nil =>
    cases ends : left.any Token.endsOperand <;>
      simp [seams, Seam.adjoins, Seam.lacks, binaries, operands, ends]
  | cons t ts ih =>
    have later := ih (fun u member => known u (List.mem_cons_of_mem _ member)) (some t)
    have sides := t.sides (known t List.mem_cons_self)
    rw [countP_seams_cons, countP_seams_cons, binaries_cons, operands_cons]
    cases ends : left.any Token.endsOperand <;> cases starts : t.startsOperand <;>
      simp [Seam.adjoins, Seam.lacks, ends, starts] at later sides ⊢ <;> omega

theorem seams_first {ts : List Token} {left : Option Token} {s : Seam} (member : s ∈ seams left ts) :
    s = ⟨left, ts.head?⟩ ∨ ∃ t ∈ ts, s.left = some t := by
  induction ts generalizing left with
  | nil => exact .inl (List.mem_singleton.mp member)
  | cons t ts ih =>
    rcases List.mem_cons.mp member with first | later
    · exact .inl first
    · rcases ih later with rfl | ⟨u, inside, stands⟩
      · exact .inr ⟨t, List.mem_cons_self, rfl⟩
      · exact .inr ⟨u, List.mem_cons_of_mem _ inside, stands⟩

theorem seams_last {ts : List Token} {left : Option Token} {s : Seam} (member : s ∈ seams left ts) :
    s = ⟨ts.getLast?.or left, none⟩ ∨ ∃ t ∈ ts, s.right = some t := by
  induction ts generalizing left with
  | nil => exact .inl (List.mem_singleton.mp member)
  | cons t ts ih =>
    rcases List.mem_cons.mp member with rfl | later
    · exact .inr ⟨t, List.mem_cons_self, rfl⟩
    · rcases ih later with rfl | ⟨u, inside, stands⟩
      · left
        cases ts <;> simp [List.getLast?_cons]
      · exact .inr ⟨u, List.mem_cons_of_mem _ inside, stands⟩

theorem seams_inside {ts : List Token} {s : Seam} (member : s ∈ seams none ts) {t : Token}
    (beside : s.left = some t ∨ s.right = some t) : t ∈ ts := by
  rcases beside with left | right
  · rcases seams_first member with rfl | ⟨u, inside, stands⟩
    · cases left
    · cases left.symm.trans stands
      exact inside
  · rcases seams_last member with rfl | ⟨u, inside, stands⟩
    · cases right
    · cases right.symm.trans stands
      exact inside

namespace Seam

variable {s : Seam}

theorem lacks_of_hollow (s : Seam) (nothing : s.hollow = true) : s.lacks = true := by
  obtain ⟨left, right⟩ := s
  cases left with
  | none => cases nothing
  | some t =>
    cases right with
    | none => simp [hollow] at nothing
    | some u =>
      simp only [hollow, Option.any_some, Bool.and_eq_true, Token.isOpen, Token.isClose,
        beq_iff_eq] at nothing
      simp [lacks, Token.endsOperand, Token.startsOperand, Token.isOperand, Token.isNumber,
        Token.isOpen, Token.isClose, Token.place?, Operator.place?, nothing]

theorem supplied_iff (known : ∀ t, s.left = some t ∨ s.right = some t → t.isKnown = true)
    (first : s.left = none → ∃ t, s.right = some t ∧ t.isClose = false)
    (last : s.right = none → ∃ t, s.left = some t ∧ t.isOpen = false) :
    s.Supplied ↔ (s.lacks = true → s.hollow = true) := by
  obtain ⟨left, right⟩ := s
  cases left with
  | none =>
    obtain ⟨u, rfl, shut⟩ := first rfl
    simp [Supplied, lacks, hollow, Token.startsOperand_eq (known u (.inr rfl)), shut]
  | some t =>
    have ends := Token.endsOperand_eq (known t (.inl rfl))
    cases right with
    | none =>
      obtain ⟨_, same, shut⟩ := last rfl
      cases same
      simp [Supplied, lacks, hollow, ends, shut]
    | some u =>
      have starts := Token.startsOperand_eq (known u (.inr rfl))
      have opening := t.takesRight_of_open
      have closing := u.takesLeft_of_close
      simp only [Supplied, lacks, hollow, Option.any_some, starts, ends]
      revert opening closing
      cases t.isOpen <;> cases u.isClose <;> cases t.takesRight <;> cases u.takesLeft <;> simp

end Seam

def AllSupplied (ts : List Token) : Prop := ∀ s ∈ seams none ts, s.Supplied

theorem countP_eq_iff {p q : Seam → Bool} (among : ∀ s, q s = true → p s = true) (l : List Seam) :
    l.countP q = l.countP p ↔ ∀ s ∈ l, p s = true → q s = true := by
  have both : (l.filter q).countP p = l.countP q := by
    rw [List.countP_filter]
    refine List.countP_congr ?_
    intro s _
    simpa using among s
  have others : (l.filter (!q ·)).countP p = 0 ↔ ∀ s ∈ l, p s = true → q s = true := by
    rw [List.countP_filter, List.countP_eq_zero]
    simp
  rw [← others, List.countP_eq_countP_filter_add l p q, both]
  omega

theorem Balanced.head {ts : List Token} (balanced : Balanced 0 ts) :
    ∀ t ∈ ts.head?, t.isClose = false := by
  intro t first
  obtain ⟨rest, rfl⟩ := List.head?_eq_some_iff.mp first
  have bound := balanced.covered [t] rest rfl
  cases closes : t.isClose with
  | false => rfl
  | true =>
    have opens : t.isOpen = false := by simp_all [Token.isClose, Token.isOpen]
    simp [closings, openings, closes, opens] at bound

theorem Balanced.last {ts : List Token} (balanced : Balanced 0 ts) :
    ∀ t ∈ ts.getLast?, t.isOpen = false := by
  intro t last
  obtain ⟨front, rfl⟩ := List.getLast?_eq_some_iff.mp last
  have bound := balanced.covered front [t] rfl
  have even := balanced.even
  cases opens : t.isOpen with
  | false => rfl
  | true =>
    have shuts : t.isClose = false := by simp_all [Token.isClose, Token.isOpen]
    simp only [closings, openings, List.countP_append, List.countP_singleton, opens, shuts] at bound even
    simp only [if_true, Bool.false_eq_true, if_false] at even
    omega

theorem allSupplied_iff {ts : List Token} (known : ∀ t ∈ ts, t.isKnown = true)
    (balanced : Balanced 0 ts) (nonempty : ts ≠ []) :
    AllSupplied ts ↔ (seams none ts).countP Seam.hollow = (seams none ts).countP Seam.lacks := by
  rw [countP_eq_iff Seam.lacks_of_hollow]
  refine forall₂_congr ?_
  intro s member
  refine Seam.supplied_iff (fun t beside => known t (seams_inside member beside)) ?_ ?_
  · intro nothing
    rcases seams_first member with rfl | ⟨u, _, stands⟩
    · obtain ⟨t, rest, rfl⟩ := List.exists_cons_of_ne_nil nonempty
      exact ⟨t, rfl, balanced.head t rfl⟩
    · cases nothing.symm.trans stands
  · intro nothing
    rcases seams_last member with rfl | ⟨u, _, stands⟩
    · refine ⟨ts.getLast nonempty, ?_, balanced.last _ (List.getLast?_eq_some_getLast nonempty)⟩
      simp [List.getLast?_eq_some_getLast nonempty]
    · cases nothing.symm.trans stands

namespace Postfix

variable {c : Context} {values results : List Float}

theorem applyItem_known {t : Token} (applied : applyItem c t values = .ok results) :
    t.isKnown = true := by
  by_contra unknown
  have operator : t.operator? = some .unknown := by simpa [Token.isKnown] using unknown
  have kind : t.kind = .operator .unknown := by
    cases kind : t.kind <;> simp_all [Token.operator?]
  simp only [applyItem, kind] at applied
  cases applied

theorem run_known {items : List Token} (ran : run c values items = .ok results) :
    ∀ t ∈ items, t.isKnown = true := by
  induction items generalizing values with
  | nil => simp
  | cons t items ih =>
    unfold run at ran
    split at ran
    · next applied =>
      intro u member
      rcases List.mem_cons.mp member with rfl | later
      · exact applyItem_known applied
      · exact ih ran u later
    · cases ran

theorem Leaves.known {ts : List Token} (left : Leaves c ts values) : ∀ t ∈ ts, t.isKnown = true := by
  obtain ⟨finished, ran⟩ := left
  have perm := items_perm ts waiting_nil finished
  intro t member
  cases parenthesis : t.isParenthesis with
  | false =>
    refine run_known ran t (perm.mem_iff.mpr ?_)
    simp [member, parenthesis]
  | true =>
    by_contra unknown
    simp_all [Token.isKnown, Token.isParenthesis, Token.isOpen]

end Postfix

-- A text with a value may hold operators that lack an operand beside them: it has as many places where
-- an operand is missing as places where two operands meet. No operator lacks one exactly if as many
-- operands meet as there are empty parentheses.
theorem supplied_iff_adjoining {c : Context} {t : Text} {v : Float} (value : evaluate c t = .ok v) :
    ∃ ts, Token.tokenize t.normalise = .ok ts ∧
      (seams none ts).countP Seam.lacks = (seams none ts).countP Seam.adjoins ∧
      (AllSupplied ts ↔ (seams none ts).countP Seam.adjoins = (seams none ts).countP Seam.hollow) := by
  obtain ⟨ts, read, ran⟩ := evaluate_ok value
  have left := Postfix.execute_eq_ok_iff.mp ran
  have balanced := (Postfix.translate_finished_iff [] ts).mp left.1
  have height := left.height
  have nonempty : ts ≠ [] := by
    rintro rfl
    simp [operands, binaries] at height
  have same := seams_balance left.known none
  have even : (seams none ts).countP Seam.lacks = (seams none ts).countP Seam.adjoins := by
    simp only [List.length_singleton, Option.any_none, Bool.toNat_false] at height same
    omega
  refine ⟨ts, read, even, ?_⟩
  rw [allSupplied_iff left.known balanced nonempty, even]
  exact eq_comm

theorem supplied_iff_adjoining_hollow :
    ∃ v ts, evaluate {} ['1', ' ', '(', ' ', ')'] = .ok v ∧
      Token.tokenize (Text.normalise ['1', ' ', '(', ' ', ')']) = .ok ts ∧
      (seams none ts).countP Seam.adjoins = 1 ∧ AllSupplied ts := by
  have legible : Word.AllLegible true [Numeral.word ['1'], Operator.openParen.word,
      Operator.closeParen.word] :=
    .cons (Word.legible_digit '1' rfl true)
      (.cons (Word.legible_operator rfl) (.cons (Word.legible_operator rfl) .nil))
  have read := (Word.written_line (by simp) (by decide)).tokenize legible
  have value : evaluate {} ['1', ' ', '(', ' ', ')'] = .ok (Numeral.value ['1']) :=
    (evaluate_eq_execute {} read).trans rfl
  obtain ⟨ts, listed, _, supplied⟩ := supplied_iff_adjoining value
  cases read.symm.trans listed
  exact ⟨_, _, value, read, rfl, supplied.mpr rfl⟩

-- The sum in the parentheses takes the operand before them as its own.
theorem not_supplied_sum :
    evaluate {} ['1', ' ', '(', ' ', '2', ' ', '+', ' ', ')'] =
        .ok (Numeral.value ['1'] + Numeral.value ['2']) ∧
      ∃ ts, Token.tokenize (Text.normalise ['1', ' ', '(', ' ', '2', ' ', '+', ' ', ')']) = .ok ts ∧
        ¬ AllSupplied ts := by
  have legible : Word.AllLegible true [Numeral.word ['1'], Operator.openParen.word,
      Numeral.word ['2'], Operator.add.word, Operator.closeParen.word] :=
    .cons (Word.legible_digit '1' rfl true) (.cons (Word.legible_operator rfl)
      (.cons (Word.legible_digit '2' rfl true) (.cons (Word.legible_operator rfl)
        (.cons (Word.legible_operator rfl) .nil))))
  have read := (Word.written_line (by simp) (by decide)).tokenize legible
  refine ⟨(evaluate_eq_execute {} read).trans rfl, _, read, ?_⟩
  intro supplied
  have beside := supplied ⟨some (Operator.add.token 6), some (Operator.closeParen.token 8)⟩
    (.tail _ (.tail _ (.tail _ (.tail _ (.head _)))))
  exact absurd (beside.2 rfl) (by decide)

end InfixCalculator

import InfixCalculator.Proofs.Spans

namespace InfixCalculator

namespace Text

variable {t a b fragment : Text} {n start stop : Nat}

theorem splitAtByte?_eq_some_iff :
    t.splitAtByte? n = some (a, b) ↔ t = a ++ b ∧ n = a.byteLength := by
  constructor
  · intro split
    induction n, t using splitAtByte?.induct generalizing a with
    | case1 t =>
      simp only [splitAtByte?, Option.some.injEq, Prod.mk.injEq] at split
      obtain ⟨rfl, rfl⟩ := split
      exact ⟨rfl, rfl⟩
    | case2 n => cases split
    | case3 n c rest fits ih =>
      simp only [splitAtByte?, if_pos fits, Option.map_eq_some_iff, Prod.mk.injEq] at split
      obtain ⟨⟨before, after⟩, inner, rfl, rfl⟩ := split
      obtain ⟨rfl, size⟩ := ih inner
      have whole : byteLength (c :: before) = c.utf8Size + before.byteLength := rfl
      exact ⟨rfl, by dsimp only; omega⟩
    | case4 n c rest wide =>
      rw [splitAtByte?, if_neg wide] at split
      cases split
  · rintro ⟨rfl, rfl⟩
    exact splitAtByte?_append a b

def Boundary (t : Text) (n : Nat) : Prop := ∃ before after, t = before ++ after ∧ n = before.byteLength

theorem between?_eq_some_iff :
    t.between? start stop = some fragment ↔
      ∃ before after, t = before ++ fragment ++ after ∧ start = before.byteLength ∧
        stop = before.byteLength + fragment.byteLength := by
  constructor
  · intro cut
    unfold between? at cut
    split at cut
    · next ordered =>
      split at cut
      · next split =>
        obtain ⟨⟨_, after⟩, inner, rfl⟩ := Option.map_eq_some_iff.mp cut
        obtain ⟨rfl, first⟩ := splitAtByte?_eq_some_iff.mp split
        obtain ⟨rfl, size⟩ := splitAtByte?_eq_some_iff.mp inner
        exact ⟨_, after, (List.append_assoc _ _ _).symm, first, by dsimp only; omega⟩
      · cases cut
    · cases cut
  · rintro ⟨before, after, rfl, rfl, rfl⟩
    exact between?_append before fragment after

theorem between?_eq_none (cut : ¬ (t.Boundary start ∧ t.Boundary stop)) : t.between? start stop = none := by
  cases found : t.between? start stop with
  | none => rfl
  | some fragment =>
    obtain ⟨before, after, rfl, rfl, rfl⟩ := between?_eq_some_iff.mp found
    refine absurd ⟨⟨before, fragment ++ after, by simp, rfl⟩, before ++ fragment, after, rfl, ?_⟩ cut
    rw [byteLength_append]

theorem length_le_byteLength (t : Text) : t.length ≤ t.byteLength := by
  induction t with
  | nil => exact Nat.le_refl _
  | cons c t ih =>
    have positive := c.utf8Size_pos
    rw [List.length_cons, byteLength]
    omega

def Underlines (line t : Text) : Prop :=
  ∃ spaces carets, line = List.replicate spaces ' ' ++ List.replicate carets '^' ∧ 1 ≤ carets ∧
    spaces ≤ t.length ∧ spaces + carets ≤ t.length + 1

theorem underlines_iff {spaces carets : Nat} (some : 1 ≤ carets) :
    Underlines (List.replicate spaces ' ' ++ List.replicate carets '^') t ↔
      spaces + carets ≤ t.length + 1 := by
  constructor
  · rintro ⟨m, n, line, _, _, bound⟩
    have length := congrArg List.length line
    simp only [List.length_append, List.length_replicate] at length
    omega
  · intro bound
    exact ⟨spaces, carets, rfl, some, by omega, bound⟩

end Text

namespace Span

variable {s : Span} {t before after : Text}

-- Past the text nothing can be cut: an end that falls inside a character is not pulled back.
theorem min_of_cut {n : Nat} (cut : ¬ t.Boundary (min n t.byteLength)) :
    min n t.byteLength = n := by
  by_cases inside : n ≤ t.byteLength
  · exact Nat.min_eq_left inside
  · have whole : t.Boundary t.byteLength := ⟨t, [], by simp, rfl⟩
    rw [Nat.min_eq_right (by omega)] at cut
    exact absurd whole cut

theorem indent_of_boundary (start : s.startIn (before ++ after) = before.byteLength) :
    s.indent (before ++ after) = before.length := by
  have left : (before ++ after).between? 0 before.byteLength = some before :=
    Text.between?_eq_some_iff.mpr ⟨[], after, rfl, rfl, by simp [Text.byteLength]⟩
  simp only [indent, start, left]

theorem indent_of_cut (cut : ¬ t.Boundary (s.startIn t)) : s.indent t = s.position := by
  have none : t.between? 0 (s.startIn t) = none := Text.between?_eq_none fun whole => cut whole.2
  simp only [indent, none]
  exact min_of_cut cut

theorem width_of_cut (cut : ¬ (t.Boundary (s.startIn t) ∧ t.Boundary (s.stopIn t))) :
    s.width t = max s.length 1 := by
  have none : s.fragment? t = none := Text.between?_eq_none cut
  simp only [width, none]

theorem exists_fragment (start : t.Boundary (s.startIn t)) (stop : t.Boundary (s.stopIn t)) :
    ∃ before fragment after, t = before ++ fragment ++ after ∧
      s.startIn t = before.byteLength ∧ s.fragment? t = some fragment := by
  obtain ⟨before, rest, whole, first⟩ := start
  obtain ⟨front, after, same, last⟩ := stop
  have ordered : before.byteLength ≤ front.byteLength := by
    rw [← first, ← last, startIn, stopIn, Span.stop]
    omega
  obtain ⟨fragment, rfl, rfl⟩ := Text.append_eq_append_of_le (whole.symm.trans same) ordered
  refine ⟨before, fragment, after, same, first, ?_⟩
  rw [Text.byteLength_append] at last
  exact Text.between?_eq_some_iff.mpr ⟨before, after, same, first, last⟩

theorem indent_le (s : Span) (t : Text) : s.indent t ≤ t.byteLength := by
  unfold indent
  split
  · next before cut =>
    obtain ⟨front, after, rfl, _, _⟩ := Text.between?_eq_some_iff.mp cut
    have chars := before.length_le_byteLength
    rw [Text.byteLength_append, Text.byteLength_append]
    omega
  · exact Nat.min_le_right _ _

theorem width_pos (s : Span) (t : Text) : 1 ≤ s.width t := by
  unfold width
  split <;> exact Nat.le_max_right _ _

theorem within_of_whole (start : t.Boundary (s.startIn t)) (stop : t.Boundary (s.stopIn t)) :
    s.indent t + s.width t ≤ t.length + 1 := by
  obtain ⟨before, fragment, after, rfl, first, shown⟩ := exists_fragment start stop
  have left : s.indent (before ++ fragment ++ after) = before.length := by
    rw [List.append_assoc] at first ⊢
    exact indent_of_boundary first
  have carets : s.width (before ++ fragment ++ after) = max fragment.length 1 := by
    simp only [width, shown]
  simp only [left, carets, List.length_append]
  omega

theorem position_of_cut (start : t.Boundary (s.startIn t)) (cut : ¬ t.Boundary (s.stopIn t)) :
    s.startIn t = s.position ∧ 1 ≤ s.length := by
  have last : s.stopIn t = s.position + s.length := min_of_cut cut
  have bound : s.stopIn t ≤ t.byteLength := Nat.min_le_right _ _
  have first : s.startIn t = s.position := Nat.min_eq_left (by omega)
  refine ⟨first, Nat.one_le_iff_ne_zero.mpr fun empty => cut ?_⟩
  rwa [last, empty, Nat.add_zero, ← first]

-- The line stays with the text when both ends of the span, pulled back into the text, fall between
-- characters. Where the span cuts a character its length is not pulled back, and the line stays with
-- the text only if the span happens to be short.
theorem underline_within_iff (s : Span) (t : Text) :
    (∃ spaces carets, s.underline t = List.replicate spaces ' ' ++ List.replicate carets '^' ∧
      1 ≤ carets ∧ spaces ≤ t.byteLength) ∧
      ((s.underline t).Underlines t ↔
        t.Boundary (s.startIn t) ∧ t.Boundary (s.stopIn t) ∨
          (∃ before after, t = before ++ after ∧ s.position = before.byteLength ∧
            before.length + s.length ≤ t.length + 1) ∨
          ¬ t.Boundary (s.startIn t) ∧ s.position + max s.length 1 ≤ t.length + 1) := by
  have carets := s.width_pos t
  refine ⟨⟨_, _, rfl, carets, s.indent_le t⟩, ?_⟩
  rw [underline, Text.underlines_iff carets]
  by_cases start : t.Boundary (s.startIn t)
  · by_cases stop : t.Boundary (s.stopIn t)
    · exact iff_of_true (within_of_whole start stop) (.inl ⟨start, stop⟩)
    · obtain ⟨first, some⟩ := position_of_cut start stop
      have cut : ¬ (t.Boundary (s.startIn t) ∧ t.Boundary (s.stopIn t)) := fun whole => stop whole.2
      obtain ⟨before, after, rfl, place⟩ := start
      rw [indent_of_boundary place, width_of_cut cut, Nat.max_eq_left some]
      constructor
      · intro within
        exact .inr (.inl ⟨before, after, rfl, first.symm.trans place, within⟩)
      · rintro (whole | ⟨front, rest, parts, position, within⟩ | ⟨inside, _⟩)
        · exact absurd whole cut
        · obtain ⟨more, rfl, _⟩ := Text.append_eq_append_of_le parts (by omega)
          rw [List.length_append] at within
          omega
        · exact absurd ⟨before, after, rfl, place⟩ inside
  · have first := min_of_cut start
    rw [indent_of_cut start, width_of_cut fun whole => start whole.1]
    constructor
    · intro within
      exact .inr (.inr ⟨start, within⟩)
    · rintro (whole | ⟨before, after, parts, position, _⟩ | ⟨_, within⟩)
      · exact absurd whole.1 start
      · exact absurd ⟨before, after, parts, first.trans position⟩ start
      · exact within

-- A span that starts at the last byte of the only character and claims nine bytes.
theorem underline_overruns_character :
    underline ⟨3, 9⟩ ['😀'] = List.replicate 3 ' ' ++ List.replicate 9 '^' ∧
      ¬ Text.Underlines (underline ⟨3, 9⟩ ['😀']) ['😀'] := by
  have line : underline ⟨3, 9⟩ ['😀'] = List.replicate 3 ' ' ++ List.replicate 9 '^' := by decide
  refine ⟨line, ?_⟩
  rw [line, Text.underlines_iff (by decide)]
  decide

end Span

end InfixCalculator

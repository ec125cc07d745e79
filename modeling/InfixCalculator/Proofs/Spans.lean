import InfixCalculator.Text

namespace InfixCalculator

namespace Text

theorem byteLength_append (a b : Text) : (a ++ b).byteLength = a.byteLength + b.byteLength := by
  induction a with
  | nil => simp [byteLength]
  | cons c a ih => simp only [List.cons_append, byteLength, ih, Nat.add_assoc]

theorem byteLength_spaces (n : Nat) : byteLength (List.replicate n ' ') = n := by
  have one : ' '.utf8Size = 1 := rfl
  induction n with
  | zero => rfl
  | succ n ih => rw [List.replicate_succ, byteLength, ih, one, Nat.add_comm]

theorem byteLength_pos {t : Text} (nonempty : t ≠ []) : 1 ≤ t.byteLength := by
  cases t with
  | nil => contradiction
  | cons c t =>
    have := c.utf8Size_pos
    simp only [byteLength]
    omega

theorem eq_nil_of_byteLength {t : Text} (none : t.byteLength = 0) : t = [] :=
  Decidable.byContradiction fun nonempty => by
    have := byteLength_pos nonempty
    omega

theorem append_eq_append_of_le {a b c d : Text} (same : a ++ b = c ++ d)
    (le : a.byteLength ≤ c.byteLength) : ∃ e, c = a ++ e ∧ b = e ++ d := by
  rcases List.append_eq_append_iff.mp same with found | ⟨e, rfl, rfl⟩
  · exact found
  · rw [byteLength_append] at le
    have empty : e = [] := eq_nil_of_byteLength (by omega)
    subst empty
    exact ⟨[], by simp, rfl⟩

theorem splitAtByte?_append (a b : Text) : (a ++ b).splitAtByte? a.byteLength = some (a, b) := by
  induction a with
  | nil => cases b <;> rfl
  | cons c a ih =>
    have positive := c.utf8Size_pos
    obtain ⟨n, size⟩ : ∃ n, c.utf8Size + byteLength a = n + 1 := ⟨_, (Nat.sub_add_cancel (by omega)).symm⟩
    have rest : n + 1 - c.utf8Size = byteLength a := by omega
    simp only [List.cons_append, byteLength, size, splitAtByte?]
    rw [if_pos (by omega), rest, ih]
    rfl

theorem between?_append (a b c : Text) :
    (a ++ b ++ c).between? a.byteLength (a.byteLength + b.byteLength) = some b := by
  rw [between?, if_pos (Nat.le_add_right _ _), List.append_assoc, splitAtByte?_append]
  simp only [Nat.add_sub_cancel_left, splitAtByte?_append, Option.map_some]

end Text

namespace Span

variable (before fragment after : Text)

theorem startIn_middle :
    startIn ⟨before.byteLength, fragment.byteLength⟩ (before ++ fragment ++ after) =
      before.byteLength := by
  simp only [startIn, Text.byteLength_append]
  omega

theorem stopIn_middle :
    stopIn ⟨before.byteLength, fragment.byteLength⟩ (before ++ fragment ++ after) =
      before.byteLength + fragment.byteLength := by
  simp only [stopIn, stop, Text.byteLength_append]
  omega

theorem fragment?_middle :
    fragment? ⟨before.byteLength, fragment.byteLength⟩ (before ++ fragment ++ after) =
      some fragment := by
  rw [fragment?, startIn_middle, stopIn_middle, Text.between?_append]

theorem underline_middle (nonempty : fragment ≠ []) :
    underline ⟨before.byteLength, fragment.byteLength⟩ (before ++ fragment ++ after) =
      List.replicate before.length ' ' ++ List.replicate fragment.length '^' := by
  have left : (before ++ fragment ++ after).between? 0 before.byteLength = some before := by
    simpa [Text.byteLength] using Text.between?_append [] before (fragment ++ after)
  have wide : max fragment.length 1 = fragment.length :=
    Nat.max_eq_left (List.length_pos_iff.mpr nonempty)
  simp only [underline, indent, width, startIn_middle, left, fragment?_middle, wide]

end Span

end InfixCalculator

import InfixCalculator.Text
import Mathlib.Data.List.Induction

namespace InfixCalculator

namespace Text

theorem dropTrailing_replicate (c : Char) (n : Nat) (t : Text) :
    dropTrailing (· == c) (t ++ List.replicate n c) = dropTrailing (· == c) t := by
  induction n with
  | zero => rw [List.replicate_zero, List.append_nil]
  | succ n ih =>
    rw [List.replicate_succ', ← List.append_assoc, dropTrailing_append (by simp), ih]

theorem exists_before_replicate (c : Char) (t : Text) :
    ∃ kept n, t = kept ++ List.replicate n c ∧ kept.getLast? ≠ some c := by
  induction t using List.reverseRecOn with
  | nil => exact ⟨[], 0, rfl, by simp⟩
  | append_singleton t d ih =>
    by_cases same : d = c
    · obtain ⟨kept, n, rfl, last⟩ := ih
      refine ⟨kept, n + 1, ?_, last⟩
      rw [same, List.replicate_succ', List.append_assoc]
    · exact ⟨t ++ [d], 0, by simp, by simpa using same⟩

theorem exists_behind_replicate (c : Char) (t : Text) :
    ∃ n rest, t = List.replicate n c ++ rest ∧ rest.head? ≠ some c := by
  obtain ⟨kept, n, split, last⟩ := exists_before_replicate c t.reverse
  refine ⟨n, kept.reverse, ?_, by rwa [List.head?_reverse]⟩
  rw [← t.reverse_reverse, split, List.reverse_append, List.reverse_replicate]

def Visible (t : Text) : Prop := ∀ c ∈ t, isBlank c = false

instance (t : Text) : Decidable t.Visible :=
  decidable_of_iff (t.all (!isBlank ·) = true) (by simp [Visible])

theorem visible_append {first second : Text} (left : first.Visible) (right : second.Visible) :
    (first ++ second).Visible := by
  intro c member
  exact (List.mem_append.mp member).elim (left c) (right c)

def Gap (t : Text) : Prop := t ≠ [] ∧ ∀ c ∈ t, isBlank c = true

-- Whether a blank stands on the left of what follows.
def blankAfter (afterBlank : Bool) (t : Text) : Bool := (t.getLast?.map isBlank).getD afterBlank

theorem blankAfter_cons (afterBlank : Bool) (c : Char) (t : Text) :
    blankAfter afterBlank (c :: t) = blankAfter (isBlank c) t := by
  cases t <;> simp [blankAfter, List.getLast?_cons]

theorem normaliseFrom_append (afterBlank : Bool) (s t : Text) :
    normaliseFrom afterBlank (s ++ t) =
      normaliseFrom afterBlank s ++ normaliseFrom (blankAfter afterBlank s) t := by
  induction s generalizing afterBlank with
  | nil => rfl
  | cons c s ih =>
    rw [blankAfter_cons]
    cases blank : isBlank c <;> cases afterBlank <;>
      simp [normaliseFrom, blank, ih]

theorem mem_normaliseFrom {c : Char} (member : c ∈ t) (visible : isBlank c = false) (afterBlank : Bool) :
    c.toLower ∈ normaliseFrom afterBlank t := by
  obtain ⟨before, behind, rfl⟩ := List.append_of_mem member
  simp [normaliseFrom_append, normaliseFrom, visible]

theorem normaliseFrom_visible {t : Text} (visible : Visible t) (afterBlank : Bool) :
    normaliseFrom afterBlank t = t.map Char.toLower := by
  induction t generalizing afterBlank with
  | nil => rfl
  | cons c t ih =>
    have first := visible c List.mem_cons_self
    have rest : Visible t := by
      intro d member
      exact visible d (List.mem_cons_of_mem _ member)
    simp [normaliseFrom, first, ih rest]

theorem blankAfter_visible {t : Text} (visible : Visible t) (nonempty : t ≠ [])
    (afterBlank : Bool) : blankAfter afterBlank t = false := by
  have last := visible _ (List.getLast_mem nonempty)
  simp [blankAfter, List.getLast?_eq_some_getLast nonempty, last]

theorem blankAfter_space (t : Text) : blankAfter false (t ++ [' ']) = true := by
  simp [blankAfter, isBlank, blanks]

theorem toLower_cases (c : Char) :
    c.toLower = c ∨ 65 ≤ c.toNat ∧ c.toNat ≤ 90 ∧ c.toLower.toNat = c.toNat + 32 := by
  unfold Char.toLower
  split
  · next upper =>
    have low : 65 ≤ c.toNat := UInt32.le_iff_toNat_le.mp upper.1
    have high : c.toNat ≤ 90 := UInt32.le_iff_toNat_le.mp upper.2
    have shift : ('a'.val - 'A'.val).toNat = 32 := by decide
    have value : (c.val + ('a'.val - 'A'.val)).toNat = (c.toNat + 32) % 2 ^ 32 := by
      rw [UInt32.toNat_add, shift]
      rfl
    have small : (c.toNat + 32) % 2 ^ 32 = c.toNat + 32 := by omega
    exact .inr ⟨low, high, value.trans small⟩
  · exact .inl rfl

theorem isBlank_toLower (c : Char) : isBlank c.toLower = isBlank c := by
  rcases toLower_cases c with same | ⟨low, high, letter⟩
  · rw [same]
  · have visible (d : Char) (large : 65 ≤ d.toNat) : isBlank d = false := by
      have small : ∀ b ∈ blanks, b.toNat < 65 := by simp [blanks]
      cases blank : isBlank d with
      | false => rfl
      | true =>
        have listed := small d (List.contains_iff_mem.mp blank)
        omega
    rw [visible c low, visible c.toLower (by omega)]

theorem toLower_toLower (c : Char) : c.toLower.toLower = c.toLower := by
  rcases toLower_cases c.toLower with same | ⟨_, high, _⟩
  · exact same
  · rcases toLower_cases c with same | ⟨low, _, letter⟩
    · rw [same, same]
    · omega

theorem visible_of_lower {t : Text} (visible : Visible (t.map Char.toLower)) : Visible t := by
  intro c member
  rw [← isBlank_toLower]
  exact visible c.toLower (List.mem_map_of_mem member)

theorem toLower_ne_space {c : Char} (visible : isBlank c = false) : c.toLower ≠ ' ' := by
  intro space
  rw [← isBlank_toLower, space] at visible
  exact absurd visible (by decide)

theorem normaliseFrom_blanks {t : Text} (blanks : ∀ c ∈ t, isBlank c = true) :
    normaliseFrom true t = [] := by
  induction t with
  | nil => rfl
  | cons c t ih =>
    have rest : ∀ d ∈ t, isBlank d = true := by
      intro d member
      exact blanks d (List.mem_cons_of_mem _ member)
    simp [normaliseFrom, blanks c List.mem_cons_self, ih rest]

theorem normaliseFrom_normaliseFrom (afterBlank : Bool) (t : Text) :
    normaliseFrom afterBlank (normaliseFrom afterBlank t) = normaliseFrom afterBlank t := by
  have space : isBlank ' ' = true := by decide
  induction t generalizing afterBlank with
  | nil => rfl
  | cons c t ih =>
    cases blank : isBlank c with
    | true => cases afterBlank <;> simp [normaliseFrom, blank, space, ih]
    | false =>
      simp only [normaliseFrom, blank, isBlank_toLower, toLower_toLower, ih, Bool.false_eq_true, if_false]

theorem normalise_normalise (t : Text) : t.normalise.normalise = t.normalise :=
  normaliseFrom_normaliseFrom false t

theorem normaliseFrom_gap {t : Text} (gap : Gap t) : normaliseFrom false t = [' '] := by
  obtain ⟨nonempty, blanks⟩ := gap
  cases t with
  | nil => contradiction
  | cons c t =>
    have rest : ∀ d ∈ t, isBlank d = true := by
      intro d member
      exact blanks d (List.mem_cons_of_mem _ member)
    simp [normaliseFrom, blanks c List.mem_cons_self, normaliseFrom_blanks rest]

theorem exists_stem (u : Text) : ∃ stem, stem.getLast? ≠ some ' ' ∧
    u.normalise = stem ++ (if blankAfter false u then [' '] else []) := by
  induction u using List.reverseRecOn with
  | nil => exact ⟨[], by simp, rfl⟩
  | append_singleton u c ih =>
    obtain ⟨stem, ending, same⟩ := ih
    unfold normalise at same ⊢
    rw [normaliseFrom_append, same]
    have last : blankAfter false (u ++ [c]) = isBlank c := by simp [blankAfter]
    cases blank : isBlank c with
    | true =>
      refine ⟨stem, ending, ?_⟩
      cases before : blankAfter false u <;> simp [normaliseFrom, blank, last]
    | false =>
      refine ⟨stem ++ (if blankAfter false u then [' '] else []) ++ [c.toLower], ?_, ?_⟩
      · simp [toLower_ne_space blank]
      · simp [normaliseFrom, blank, last]

theorem normalise_blank_append {u stem : Text}
    (same : u.normalise = stem ++ (if blankAfter false u then [' '] else [])) (w : Text) :
    (u ++ ' ' :: w).normalise = stem ++ ' ' :: normaliseFrom true w := by
  have blank : isBlank ' ' = true := by decide
  unfold normalise at same ⊢
  rw [normaliseFrom_append, same]
  cases blankAfter false u <;> simp [normaliseFrom, blank]

theorem normalise_letter (a b : Text) {c d : Char} (same : c.toLower = d.toLower) :
    (a ++ c :: b).normalise = (a ++ d :: b).normalise := by
  have blank : isBlank c = isBlank d := by rw [← isBlank_toLower c, same, isBlank_toLower]
  unfold normalise
  rw [normaliseFrom_append, normaliseFrom_append]
  cases blankAfter false a <;> simp [normaliseFrom, blank, same]

theorem getLast?_normalise {a : Text} (visible : blankAfter false a = false) :
    a.normalise.getLast? ≠ some ' ' := by
  obtain ⟨stem, ending, same⟩ := exists_stem a
  rw [same, visible]
  simpa using ending

theorem normalise_blank (a b : Text) {c : Char} (blank : isBlank c = true) :
    (a ++ c :: b).normalise = (a ++ b).normalise ∨
      ∃ rest, (a ++ b).normalise = a.normalise ++ rest ∧
        (a ++ c :: b).normalise = a.normalise ++ ' ' :: rest ∧
        a.normalise.getLast? ≠ some ' ' ∧ rest.head? ≠ some ' ' := by
  have before := normaliseFrom_append false a b
  have after := normaliseFrom_append false a (c :: b)
  cases ends : blankAfter false a with
  | true =>
    left
    rw [normalise, normalise, before, after, ends]
    simp [normaliseFrom, blank]
  | false =>
    rw [ends] at before after
    have ending := getLast?_normalise ends
    cases b with
    | nil =>
      refine .inr ⟨[], before, ?_, ending, by simp⟩
      simpa [normalise, normaliseFrom, blank] using after
    | cons d b =>
      cases next : isBlank d with
      | true =>
        left
        rw [normalise, normalise, before, after]
        simp [normaliseFrom, blank, next]
      | false =>
        refine .inr ⟨d.toLower :: normaliseFrom false b, ?_, ?_, ending, ?_⟩
        · simpa [normalise, normaliseFrom, next] using before
        · simpa [normalise, normaliseFrom, next, blank] using after
        · simpa using toLower_ne_space next

end Text

end InfixCalculator

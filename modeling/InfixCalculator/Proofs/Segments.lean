import InfixCalculator.Proofs.Normalisation
import Mathlib.Data.List.Forall2
import Mathlib.Data.List.SplitBy

namespace InfixCalculator

namespace Text

def segments (t : Text) : List Text := t.splitBy fun a b => isBlank a == isBlank b

inductive SameLetter : Char → Char → Prop
  | same : SameLetter c c
  | lower : 65 ≤ c.toNat → c.toNat ≤ 90 → d.toNat = c.toNat + 32 → SameLetter c d
  | upper : 65 ≤ d.toNat → d.toNat ≤ 90 → c.toNat = d.toNat + 32 → SameLetter c d

-- Two runs of blanks, whatever they are, or two words that differ in case alone.
inductive SameSegment : Text → Text → Prop
  | gap : Gap s → Gap t → SameSegment s t
  | word : Visible s → Visible t → List.Forall₂ SameLetter s t → SameSegment s t

-- Runs of blanks and words by turns. The first of them is a run of blanks if `blank` says so.
inductive Alternating : (blank : Bool) → List Text → Prop
  | nil : Alternating blank []
  | cons : s ≠ [] → (∀ c ∈ s, isBlank c = blank) → Alternating (!blank) rest →
      Alternating blank (s :: rest)

theorem toLower_capital {c : Char} (low : 65 ≤ c.toNat) (high : c.toNat ≤ 90) :
    c.toLower.toNat = c.toNat + 32 := by
  rcases toLower_cases c with same | ⟨_, _, letter⟩
  · have upper : c.val ≥ 'A'.val ∧ c.val ≤ 'Z'.val :=
      ⟨UInt32.le_iff_toNat_le.mpr low, UInt32.le_iff_toNat_le.mpr high⟩
    have shifted : c.val + ('a'.val - 'A'.val) = c.val := by
      have value := congrArg Char.val same
      unfold Char.toLower at value
      rwa [dif_pos upper] at value
    have none : 'a'.val - 'A'.val = 0 := UInt32.add_eq_left.mp shifted
    exact absurd none (by decide)
  · exact letter

theorem sameLetter_iff {c d : Char} : SameLetter c d ↔ c.toLower = d.toLower := by
  have kept {e : Char} (outside : ¬(65 ≤ e.toNat ∧ e.toNat ≤ 90)) : e.toLower = e := by
    rcases toLower_cases e with same | ⟨low, high, _⟩
    · exact same
    · exact absurd ⟨low, high⟩ outside
  constructor
  · rintro (_ | ⟨low, high, small⟩ | ⟨low, high, small⟩)
    · rfl
    · rw [kept (e := d) (by omega), ← Char.toNat_inj, toLower_capital low high, small]
    · rw [kept (e := c) (by omega), ← Char.toNat_inj, toLower_capital low high, small]
  · intro same
    rcases toLower_cases c with left | ⟨low, high, letter⟩ <;>
      rcases toLower_cases d with right | ⟨low', high', letter'⟩
    · rw [left, right] at same
      exact same ▸ .same
    · exact .upper low' high' (by rw [← letter', ← same, left])
    · exact .lower low high (by rw [← letter, same, right])
    · rw [same] at letter
      obtain rfl : c = d := Char.toNat_inj.mp (by omega)
      exact .same

variable {blank : Bool} {s : Text} {m n : List Text}

theorem Alternating.segment (alternating : Alternating blank m) :
    ∀ s ∈ m, Gap s ∨ s ≠ [] ∧ Visible s := by
  induction alternating with
  | nil => simp
  | @cons s blank rest some same _ ih =>
    intro t member
    rcases List.mem_cons.mp member with rfl | later
    · cases blank with
      | true => exact .inl ⟨some, same⟩
      | false => exact .inr ⟨some, same⟩
    · exact ih t later

theorem Alternating.segments_flatten (alternating : Alternating blank m) :
    segments m.flatten = m := by
  refine List.splitBy_flatten ?_ ?_ ?_
  · intro empty
    rcases alternating.segment [] empty with gap | word
    · exact gap.1 rfl
    · exact word.1 rfl
  · induction alternating with
    | nil => simp
    | @cons s blank rest some same _ ih =>
      intro t member
      rcases List.mem_cons.mp member with rfl | later
      · refine (List.pairwise_of_forall_mem_list fun a left b right => ?_).isChain
        rw [same a left, same b right, beq_self_eq_true]
      · exact ih t later
  · induction alternating with
    | nil => exact .nil
    | @cons s blank rest some same alternating ih =>
      refine List.isChain_cons.mpr ⟨fun t first => ?_, ih⟩
      cases alternating with
      | nil => cases first
      | cons some' same' =>
        cases first
        refine ⟨some, some', ?_⟩
        rw [same _ (List.getLast_mem some), same' _ (List.head_mem some')]
        cases blank <;> rfl

theorem exists_alternating (t : Text) : ∃ blank m, Alternating blank m ∧ m.flatten = t := by
  induction t with
  | nil => exact ⟨true, [], .nil, rfl⟩
  | cons c t ih =>
    obtain ⟨blank, m, alternating, rfl⟩ := ih
    have alone : ∀ d ∈ [c], isBlank d = isBlank c := by simp
    cases alternating with
    | nil => exact ⟨isBlank c, [[c]], .cons (by simp) alone .nil, rfl⟩
    | @cons s _ rest some same behind =>
      by_cases joined : isBlank c = blank
      · refine ⟨blank, (c :: s) :: rest, .cons (by simp) (fun d member => ?_) behind, rfl⟩
        rcases List.mem_cons.mp member with rfl | later
        · exact joined
        · exact same d later
      · have turned : blank = !isBlank c := by cases blank <;> simpa using joined
        exact ⟨isBlank c, [c] :: s :: rest,
          .cons (by simp) alone (turned ▸ .cons some same behind), rfl⟩

theorem exists_segments (t : Text) :
    ∃ blank, Alternating blank t.segments ∧ t.segments.flatten = t := by
  obtain ⟨blank, m, alternating, rfl⟩ := exists_alternating t
  rw [alternating.segments_flatten]
  exact ⟨blank, alternating, rfl⟩

theorem normalise_visible (visible : Visible s) : s.normalise = s.map Char.toLower :=
  normaliseFrom_visible visible false

theorem normalise_segment (some : s ≠ []) (same : ∀ c ∈ s, isBlank c = blank) :
    s.normalise ≠ [] ∧ ∀ c ∈ s.normalise, isBlank c = blank := by
  cases blank with
  | true =>
    rw [normalise, normaliseFrom_gap ⟨some, same⟩]
    exact ⟨by simp, by simp [isBlank, blanks]⟩
  | false =>
    rw [normalise_visible same]
    refine ⟨by simpa using some, fun c member => ?_⟩
    obtain ⟨d, inside, rfl⟩ := List.mem_map.mp member
    rw [isBlank_toLower, same d inside]

theorem blankAfter_segment (some : s ≠ []) (same : ∀ c ∈ s, isBlank c = blank) (afterBlank : Bool) :
    blankAfter afterBlank s = blank := by
  rw [blankAfter, List.getLast?_eq_some_getLast some, Option.map_some, Option.getD_some,
    same _ (List.getLast_mem some)]

theorem Alternating.normalise (alternating : Alternating blank m) :
    Alternating blank (m.map Text.normalise) := by
  induction alternating with
  | nil => exact .nil
  | cons some same _ ih =>
    obtain ⟨some, same⟩ := normalise_segment some same
    exact .cons some same ih

-- The segments are normalised one by one. A run of blanks at the start is lost where a blank
-- stands before it.
theorem Alternating.normalise_flatten (alternating : Alternating blank m) {afterBlank : Bool}
    (apart : afterBlank = true → blank = false) :
    normaliseFrom afterBlank m.flatten = (m.map Text.normalise).flatten := by
  induction alternating generalizing afterBlank with
  | nil => rfl
  | @cons s blank rest some same _ ih =>
    rw [List.flatten_cons, normaliseFrom_append, blankAfter_segment some same, List.map_cons,
      List.flatten_cons, ih (by simp)]
    congr 1
    cases blank with
    | true => cases afterBlank with
      | true => cases apart rfl
      | false => rfl
    | false => rw [normaliseFrom_visible same, normalise_visible same]

theorem segments_normalise (t : Text) : t.normalise.segments = t.segments.map normalise := by
  obtain ⟨blank, alternating, whole⟩ := exists_segments t
  have apart : false = true → blank = false := nofun
  have flat := alternating.normalise_flatten apart
  rw [whole] at flat
  rw [normalise, flat, alternating.normalise.segments_flatten]

theorem sameLetters_iff {t : Text} :
    List.Forall₂ SameLetter s t ↔ s.map Char.toLower = t.map Char.toLower := by
  rw [← List.forall₂_eq_eq_eq, List.forall₂_map_left_iff, List.forall₂_map_right_iff]
  exact ⟨.imp fun _ _ => sameLetter_iff.mp, .imp fun _ _ => sameLetter_iff.mpr⟩

theorem visible_ne_space (visible : Visible s) : s.map Char.toLower ≠ [' '] := by
  intro same
  obtain ⟨c, rfl, space⟩ := List.map_eq_singleton_iff.mp same
  exact toLower_ne_space (visible c List.mem_cons_self) space

theorem sameSegment_iff {t : Text} (left : Gap s ∨ s ≠ [] ∧ Visible s)
    (right : Gap t ∨ t ≠ [] ∧ Visible t) : SameSegment s t ↔ s.normalise = t.normalise := by
  have gap {u : Text} (gap : Gap u) : u.normalise = [' '] := normaliseFrom_gap gap
  constructor
  · rintro (⟨left, right⟩ | ⟨left, right, same⟩)
    · rw [gap left, gap right]
    · rw [normalise_visible left, normalise_visible right]
      exact sameLetters_iff.mp same
  · intro same
    rcases left with left | ⟨_, left⟩ <;> rcases right with right | ⟨_, right⟩
    · exact .gap left right
    · rw [gap left, normalise_visible right] at same
      exact absurd same.symm (visible_ne_space right)
    · rw [gap right, normalise_visible left] at same
      exact absurd same (visible_ne_space left)
    · rw [normalise_visible left, normalise_visible right] at same
      exact .word left right (sameLetters_iff.mpr same)

theorem sameSegments_iff (left : ∀ s ∈ m, Gap s ∨ s ≠ [] ∧ Visible s)
    (right : ∀ t ∈ n, Gap t ∨ t ≠ [] ∧ Visible t) :
    List.Forall₂ SameSegment m n ↔ m.map normalise = n.map normalise := by
  induction m generalizing n with
  | nil => simp
  | cons s m ih =>
    cases n with
    | nil => simp
    | cons t n =>
      rw [List.forall₂_cons, List.map_cons, List.map_cons, List.cons.injEq,
        sameSegment_iff (left s List.mem_cons_self) (right t List.mem_cons_self),
        ih (fun s member => left s (List.mem_cons_of_mem _ member))
          (fun t member => right t (List.mem_cons_of_mem _ member))]

def Respaced (s t : Text) : Prop := List.Forall₂ SameSegment s.segments t.segments

theorem normalise_eq_iff (s t : Text) : s.normalise = t.normalise ↔ Respaced s t := by
  obtain ⟨_, left, _⟩ := exists_segments s
  obtain ⟨_, right, _⟩ := exists_segments t
  rw [Respaced, sameSegments_iff left.segment right.segment, ← segments_normalise,
    ← segments_normalise]
  refine ⟨congrArg segments, fun same => ?_⟩
  obtain ⟨_, _, whole⟩ := exists_segments s.normalise
  obtain ⟨_, _, whole'⟩ := exists_segments t.normalise
  rw [← whole, ← whole', same]

structure Tidy (t : Text) : Prop where
  blanks : ∀ c ∈ t, isBlank c = true → c = ' '
  single : t.IsChain fun a b => a ≠ ' ' ∨ b ≠ ' '
  small : ∀ c ∈ t, ¬(65 ≤ c.toNat ∧ c.toNat ≤ 90)

theorem not_capital_toLower (c : Char) : ¬(65 ≤ c.toLower.toNat ∧ c.toLower.toNat ≤ 90) := by
  rintro ⟨low, high⟩
  have letter := toLower_capital low high
  rw [toLower_toLower] at letter
  omega

theorem Tidy.cons {c : Char} (tidy : Tidy s) (plain : isBlank c = true → c = ' ')
    (small : ¬(65 ≤ c.toNat ∧ c.toNat ≤ 90)) (apart : c = ' ' → s.head? ≠ some ' ') :
    Tidy (c :: s) where
  blanks := List.forall_mem_cons.mpr ⟨plain, tidy.blanks⟩
  single := by
    refine List.isChain_cons.mpr ⟨fun d first => ?_, tidy.single⟩
    by_cases space : c = ' '
    · refine .inr fun other => apart space ?_
      rw [first, other]
    · exact .inl space
  small := List.forall_mem_cons.mpr ⟨small, tidy.small⟩

theorem normaliseFrom_tidy (afterBlank : Bool) (t : Text) :
    Tidy (normaliseFrom afterBlank t) ∧
      (afterBlank = true → (normaliseFrom afterBlank t).head? ≠ some ' ') := by
  induction t generalizing afterBlank with
  | nil => exact ⟨⟨by simp [normaliseFrom], .nil, by simp [normaliseFrom]⟩, by simp [normaliseFrom]⟩
  | cons c t ih =>
    cases blank : isBlank c with
    | true =>
      obtain ⟨tidy, apart⟩ := ih true
      cases afterBlank with
      | true => simpa [normaliseFrom, blank] using ⟨tidy, apart rfl⟩
      | false =>
        simp only [normaliseFrom, blank, if_true, Bool.false_eq_true, if_false, false_imp_iff, and_true]
        exact tidy.cons (fun _ => rfl) (by decide) fun _ => apart rfl
    | false =>
      have visible : c.toLower ≠ ' ' := toLower_ne_space blank
      simp only [normaliseFrom, blank, Bool.false_eq_true, if_false, List.head?_cons]
      refine ⟨(ih false).1.cons ?_ (not_capital_toLower c) fun space => absurd space visible,
        fun _ space => visible (Option.some.inj space)⟩
      rw [isBlank_toLower, blank]
      exact fun none => absurd none Bool.false_ne_true

theorem normaliseFrom_normalise (afterBlank : Bool) (t : Text) :
    normaliseFrom afterBlank t.normalise = normaliseFrom afterBlank t := by
  have space : isBlank ' ' = true := rfl
  cases t with
  | nil => rfl
  | cons c t =>
    cases blank : isBlank c with
    | true =>
      cases afterBlank <;>
        simp [normalise, normaliseFrom, blank, space, normaliseFrom_normaliseFrom]
    | false =>
      simp only [normalise, normaliseFrom, blank, isBlank_toLower, toLower_toLower,
        normaliseFrom_normaliseFrom, Bool.false_eq_true, if_false]

theorem blankAfter_normaliseFrom (afterBlank : Bool) (t : Text) :
    blankAfter afterBlank (normaliseFrom afterBlank t) = blankAfter afterBlank t := by
  have space : isBlank ' ' = true := rfl
  induction t generalizing afterBlank with
  | nil => rfl
  | cons c t ih =>
    cases blank : isBlank c with
    | true =>
      cases afterBlank <;> simp [normaliseFrom, blank, blankAfter_cons, space, ih]
    | false =>
      simp [normaliseFrom, blank, blankAfter_cons, isBlank_toLower, ih]

theorem normalise_append (s t : Text) :
    (s ++ t).normalise = (s.normalise ++ t.normalise).normalise := by
  have ends : blankAfter false s.normalise = blankAfter false s := blankAfter_normaliseFrom false s
  have again : normaliseFrom false s.normalise = s.normalise := normalise_normalise s
  calc (s ++ t).normalise = s.normalise ++ normaliseFrom (blankAfter false s) t :=
        normaliseFrom_append false s t
    _ = normaliseFrom false s.normalise ++ normaliseFrom (blankAfter false s) t.normalise := by
        rw [again, normaliseFrom_normalise]
    _ = (s.normalise ++ t.normalise).normalise := by
        rw [← ends]
        exact (normaliseFrom_append false s.normalise t.normalise).symm

-- Texts are normalised alike just when they differ in the spelling of their runs of blanks and in case
-- alone. What normalisation picks is tidy and normalised already.
theorem normalise_is_canonical :
    (∀ s t : Text, s.normalise = t.normalise ↔ Respaced s t) ∧
      (∀ t : Text, t.normalise.normalise = t.normalise ∧ Tidy t.normalise) ∧
      ∀ s t : Text, (s ++ t).normalise = (s.normalise ++ t.normalise).normalise :=
  ⟨normalise_eq_iff, fun t => ⟨normalise_normalise t, (normaliseFrom_tidy false t).1⟩,
    normalise_append⟩

end Text

end InfixCalculator

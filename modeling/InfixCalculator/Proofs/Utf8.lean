import InfixCalculator.Proofs.Spans

namespace InfixCalculator

namespace Text

def utf8 (t : Text) : List UInt8 := t.flatMap String.utf8EncodeChar

def IsAscii (t : Text) : Prop := ∀ c ∈ t, c.toNat < 128

theorem utf8_append (a b : Text) : (a ++ b).utf8 = a.utf8 ++ b.utf8 := List.flatMap_append

theorem utf8_length (t : Text) : t.utf8.length = t.byteLength := by
  induction t with
  | nil => rfl
  | cons c t ih =>
    have first := String.length_utf8EncodeChar c
    simp only [utf8, byteLength, List.flatMap_cons, List.length_append] at ih ⊢
    omega

theorem utf8_cons_ascii {c : Char} (ascii : c.toNat < 128) (t : Text) :
    utf8 (c :: t) = c.toUInt8 :: t.utf8 := by
  have one : c.utf8Size = 1 := by
    rw [Char.utf8Size_eq_one_iff, UInt32.le_iff_toNat_le]
    exact Nat.lt_succ_iff.mp ascii
  have single := String.utf8EncodeChar_eq_singleton one
  simp only [utf8, List.flatMap_cons, single, List.singleton_append]
  rfl

theorem high_of_utf8EncodeChar {c : Char} (outside : 128 ≤ c.toNat) :
    ∀ b ∈ String.utf8EncodeChar c, 128 ≤ b.toNat := by
  have large : ¬ c.val.toNat ≤ 127 := Nat.not_le.mpr outside
  simp only [String.utf8EncodeChar, if_neg large]
  split
  · simp; omega
  · split
    · simp; omega
    · simp; omega

theorem toUInt8_toNat {c : Char} (ascii : c.toNat < 128) : c.toUInt8.toNat = c.toNat := by
  have value : c.toUInt8.toNat = c.toNat % 256 := UInt32.toNat_toUInt8 c.val
  omega

theorem utf8_head (c : Char) (t : Text) :
    ∃ b rest, utf8 (c :: t) = b :: rest ∧
      (c.toNat < 128 ∧ b = c.toUInt8 ∧ rest = t.utf8 ∨ 128 ≤ c.toNat ∧ 128 ≤ b.toNat) := by
  by_cases ascii : c.toNat < 128
  · exact ⟨_, _, utf8_cons_ascii ascii t, .inl ⟨ascii, rfl, rfl⟩⟩
  · have high := high_of_utf8EncodeChar (Nat.not_lt.mp ascii)
    have some : String.utf8EncodeChar c ≠ [] := by
      intro empty
      have length := String.length_utf8EncodeChar c
      rw [empty, List.length_nil] at length
      have := c.utf8Size_pos
      omega
    obtain ⟨b, rest, bytes⟩ := List.exists_cons_of_ne_nil some
    refine ⟨b, rest ++ t.utf8, ?_, .inr ⟨Nat.not_lt.mp ascii, high b (by simp [bytes])⟩⟩
    simp [utf8, bytes]

theorem drop_utf8 (before after : Text) :
    (before ++ after).utf8.drop before.byteLength = after.utf8 := by
  rw [utf8_append, ← utf8_length, List.drop_left]

theorem utf8_inside (before : Text) (c : Char) (rest : Text) :
    before.byteLength < (before ++ c :: rest).utf8.length := by
  have positive := c.utf8Size_pos
  rw [utf8_length, byteLength_append, byteLength]
  omega

theorem read_utf8 (before : Text) {c : Char} (ascii : c.toNat < 128) (rest : Text) :
    (before ++ c :: rest).utf8[before.byteLength]? = some c.toUInt8 := by
  rw [← List.head?_drop, drop_utf8, utf8_cons_ascii ascii]
  rfl

theorem byteLength_ascii {c : Char} (ascii : c.toNat < 128) (before : Text) :
    byteLength (before ++ [c]) = before.byteLength + 1 := by
  have one : byteLength [c] = 1 := by
    rw [← utf8_length, utf8_cons_ascii ascii]
    rfl
  rw [byteLength_append, one]

theorem byteLength_eq_zero {t : Text} : t.byteLength = 0 ↔ t = [] :=
  ⟨eq_nil_of_byteLength, fun empty => empty ▸ rfl⟩

structure Tests (p : UInt8 → Bool) (q : Char → Bool) : Prop where
  ascii : ∀ c : Char, c.toNat < 128 → p c.toUInt8 = q c
  high : ∀ b : UInt8, 128 ≤ b.toNat → p b = false
  outside : ∀ c : Char, 128 ≤ c.toNat → q c = false

theorem tests_char {a : Char} (ascii : a.toNat < 128) : Tests (· == a.toUInt8) (· == a) where
  ascii c small := by
    have left := toUInt8_toNat ascii
    have right := toUInt8_toNat small
    rw [Bool.eq_iff_iff, beq_iff_eq, beq_iff_eq, ← UInt8.toNat_inj, left, right, Char.toNat_inj]
  high b large := by
    have code := toUInt8_toNat ascii
    rw [beq_eq_false_iff_ne]
    rintro rfl
    omega
  outside c large := by
    rw [beq_eq_false_iff_ne]
    rintro rfl
    omega

variable {p : UInt8 → Bool} {q : Char → Bool}

theorem Tests.any_head (tests : Tests p q) (t : Text) : t.utf8.head?.any p = t.head?.any q := by
  cases t with
  | nil => rfl
  | cons c t =>
    obtain ⟨b, rest, bytes, ⟨small, code, _⟩ | ⟨large, high⟩⟩ := utf8_head c t
    · simp [bytes, code, tests.ascii c small]
    · simp [bytes, tests.high b high, tests.outside c large]

theorem Tests.takeWhile (tests : Tests p q) (t : Text) :
    t.utf8.takeWhile p = utf8 (t.takeWhile q) := by
  induction t with
  | nil => rfl
  | cons c t ih =>
    obtain ⟨b, rest, bytes, ⟨small, code, tail⟩ | ⟨large, high⟩⟩ := utf8_head c t
    · have same := tests.ascii c small
      rw [bytes, code, tail, List.takeWhile_cons, List.takeWhile_cons, ih, same]
      split
      · exact (utf8_cons_ascii small _).symm
      · rfl
    · rw [bytes, List.takeWhile_cons, List.takeWhile_cons, tests.high b high, tests.outside c large]
      rfl

theorem Tests.any_at (tests : Tests p q) (before after : Text) :
    ((before ++ after).utf8[before.byteLength]?).any p = after.head?.any q := by
  rw [← tests.any_head, ← drop_utf8 before after, List.head?_drop]

theorem Tests.any_behind (tests : Tests p q) {c : Char} (ascii : c.toNat < 128)
    (before after : Text) :
    ((before ++ c :: after).utf8[before.byteLength + 1]?).any p = after.head?.any q := by
  rw [List.append_cons, ← byteLength_ascii ascii, tests.any_at]

end Text

end InfixCalculator

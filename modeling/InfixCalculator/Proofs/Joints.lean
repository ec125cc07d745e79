import InfixCalculator.Proofs.StrayPoints
import InfixCalculator.Proofs.Fronts

namespace InfixCalculator

namespace Numeral

variable {front behind : Text} {c d : Char}

theorem sign_other (sign : c ∈ ['+', '-']) : c.isDigit = false ∧ c ≠ 'e' ∧ c ≠ '.' := by
  have signs : ∀ c ∈ ['+', '-'], c.isDigit = false ∧ c ≠ 'e' ∧ c ≠ '.' := by simp
  exact signs c sign

theorem IsExponent.sign_followed (written : IsExponent (front ++ c :: d :: behind))
    (sign : c ∈ ['+', '-']) : d.isDigit = true := by
  obtain ⟨digitless, letter, _⟩ := sign_other sign
  generalize whole : front ++ c :: d :: behind = t at written
  cases written with
  | absent => simp at whole
  | @present signed magnitude which grouped =>
    have outside (a : Text) : magnitude ≠ a ++ c :: d :: behind := by
      rintro rfl
      have digit := grouped.2 c (by simp)
      rw [digitless] at digit
      cases digit
    have behind_sign {a : Text} {s : Char} (rest : s :: magnitude = a ++ c :: d :: behind) :
        d.isDigit = true := by
      rcases List.cons_eq_append_iff.mp rest with ⟨_, first⟩ | ⟨a, _, rest⟩
      · exact grouped.2 d ((List.cons.inj first).2 ▸ List.mem_cons_self)
      · exact absurd rest (outside a)
    rw [List.cons_append, eq_comm] at whole
    rcases List.cons_eq_append_iff.mp whole with ⟨_, first⟩ | ⟨a, _, rest⟩
    · exact absurd (List.cons.inj first).1 letter
    · rcases which with rfl | rfl | rfl
      · exact absurd rest (outside a)
      · exact behind_sign rest
      · exact behind_sign rest

theorem IsNumeral.sign_followed (written : IsNumeral (front ++ c :: d :: behind))
    (sign : c ∈ ['+', '-']) : d.isDigit = true := by
  obtain ⟨digitless, _, unpointed⟩ := sign_other sign
  generalize whole : front ++ c :: d :: behind = t at written
  obtain @⟨digits, point, last, power, inside, pointed, grouped, exponent⟩ := written
  have outside : c ∉ digits ++ point ++ last := by
    have plain : ∀ x ∈ point, x = '.' := by rcases pointed with rfl | rfl <;> simp
    simp only [List.mem_append, not_or]
    refine ⟨⟨fun member => ?_, fun member => unpointed (plain c member)⟩, fun member => ?_⟩
    · simp [inside c member] at digitless
    · simp [grouped.2 c member] at digitless
  rcases List.append_eq_append_iff.mp whole with ⟨a, same, rest⟩ | ⟨a, same, rest⟩
  · rcases List.cons_eq_append_iff.mp rest with ⟨_, rfl⟩ | ⟨a, rfl, _⟩
    · exact @IsExponent.sign_followed [] behind c d exponent sign
    · exact absurd (by simp [same]) outside
  · exact IsExponent.sign_followed (rest ▸ exponent) sign

end Numeral

namespace Lexeme

def Parted (c d : Char) : Prop := ∀ front behind, ¬ Lexical (front ++ c :: d :: behind)

variable {c d : Char}

theorem parted_space (only : c = ' ' ↔ d ≠ ' ') : Parted c d := by
  intro front behind lexical
  have spaces (space : ' ' ∈ front ++ c :: d :: behind) : c = ' ' ∧ d = ' ' :=
    ⟨lexical.of_space space c (by simp), lexical.of_space space d (by simp)⟩
  by_cases blank : c = ' '
  · subst blank
    exact only.mp rfl (spaces (by simp)).2
  · have space : d = ' ' := by_contra fun visible => blank (only.mpr visible)
    subst space
    exact blank (spaces (by simp)).1

theorem Lexical.of_mark {front behind : Text} (lexical : Lexical (front ++ c :: d :: behind)) {m : Char}
    (member : m ∈ front ++ c :: d :: behind) (mark : m ∈ '.' :: marks) :
    Numeral.IsNumeral (front ++ c :: d :: behind) ∧ m ∈ ['.', '+', '-'] := by
  generalize whole : front ++ c :: d :: behind = t at lexical member
  cases lexical with
  | number written =>
    refine ⟨written, ?_⟩
    have digits : ∀ m ∈ '.' :: marks, m.isDigit = false := by simp [marks]
    have among : ∀ m ∈ ['e', '+', '-'], m ∈ '.' :: marks → m ∈ ['.', '+', '-'] := by simp [marks]
    rcases mem_numeral written m member with rfl | digit | listed
    · decide
    · rw [digits m mark] at digit
      cases digit
    · exact among m listed mark
  | mark =>
    have short := congrArg List.length whole
    simp only [List.length_append, List.length_cons, List.length_nil] at short
    omega
  | name listed =>
    have other : ∀ name ∈ names, ∀ m ∈ name, m ∉ '.' :: marks := by simp [names, marks]
    exact absurd mark (other t listed m member)
  | spaces _ all =>
    rw [all m member] at mark
    exact absurd mark (by decide)

theorem parted_behind_mark (mark : c ∈ '.' :: marks) (other : d.isDigit = false) : Parted c d := by
  intro front behind lexical
  obtain ⟨written, listed⟩ := lexical.of_mark (by simp) mark
  have digit : d.isDigit = true := by
    rcases List.mem_cons.mp listed with rfl | sign
    · obtain ⟨_, head, digit⟩ := written.pointsFollowed front (d :: behind) rfl
      cases head
      exact digit
    · exact written.sign_followed sign
  rw [other] at digit
  cases digit

theorem parted_before_mark (c : Char) (mark : d ∈ marks) (unsigned : d ∉ ['+', '-']) : Parted c d := by
  intro front behind lexical
  obtain ⟨_, listed⟩ := lexical.of_mark (by simp) (List.mem_cons_of_mem _ mark)
  rcases List.mem_cons.mp listed with rfl | sign
  · exact absurd mark (by decide)
  · exact unsigned sign

end Lexeme

def Text.PartedFrom (t rest : Text) : Prop :=
  ∀ c ∈ t.getLast?, ∀ d ∈ rest.head?, Lexeme.Parted c d

theorem Text.PartedFrom.suffix {a t rest : Text} (parted : (a ++ t).PartedFrom rest) :
    t.PartedFrom rest := by
  intro c last
  exact parted c (by simp [List.getLast?_append, Option.mem_def.mp last])

namespace Lexeme

-- Where no lexeme reaches across the joint, the lexeme in front is found as if it stood alone.
theorem first?_joined {t rest text : Text} {l : Lexeme}
    (parted : t.PartedFrom rest) (found : first? t = some (l, text)) :
    first? (t ++ rest) = some (l, text) := by
  have starts := (first?_isPrefix found).trans (List.prefix_append t rest)
  obtain ⟨⟨other, taken⟩, again⟩ := Option.isSome_iff_exists.mp (first?_isSome (first?_lexical found) starts)
  have within : taken <+: t := by
    rcases List.prefix_or_prefix_of_prefix (first?_isPrefix again) (List.prefix_append t rest) with
      inside | ⟨more, rfl⟩
    · exact inside
    · cases more with
      | nil => simp
      | cons d behind =>
        obtain ⟨_, whole⟩ := (List.prefix_append_right_inj t).mp (first?_isPrefix again)
        have nonempty : t ≠ [] := by
          rintro rfl
          exact first?_ne_nil found (List.prefix_nil.mp (first?_isPrefix found))
        have last := List.dropLast_concat_getLast nonempty
        have lexical := first?_lexical again
        rw [← last, List.append_assoc] at lexical
        exact absurd lexical (parted _ (List.getLast_mem_getLast? nonempty) d (by simp [← whole]) _ _)
  have alone := first?_front again within
  rw [again, ← alone, found]

end Lexeme

theorem Piece.Cut.joined {start : Nat} {t rest : Text} {pieces others : List Piece}
    (cut : Cut start t pieces) (covered : ∀ piece ∈ pieces, piece.isHole = false)
    (parted : t.PartedFrom rest) (tail : Cut (start + t.byteLength) rest others) :
    Cut start (t ++ rest) (pieces ++ others) := by
  induction cut with
  | nil => simpa [Text.byteLength] using tail
  | @cons taken behind l start pieces found cut ih =>
    obtain ⟨l, rfl⟩ := lexeme_of_covered (covered _ List.mem_cons_self)
    rw [Text.byteLength_append, ← Nat.add_assoc] at tail
    have joined := ih (fun piece member => covered piece (List.mem_cons_of_mem _ member)) parted.suffix tail
    have first := next?_of_first? (Lexeme.first?_joined parted (next?_lexeme found))
    rw [List.append_assoc] at first ⊢
    rw [List.cons_append]
    exact .cons first joined

namespace Token

variable {edge : Bool} {start : Nat} {t rest : Text} {tokens others : List Token}

theorem Reads.joined (reads : Reads edge start t tokens) (parted : t.PartedFrom rest)
    (tail : Reads (edgeAfter edge tokens) (start + t.byteLength) rest others) :
    Reads edge start (t ++ rest) (tokens ++ others) := by
  obtain ⟨covered, listed⟩ := reads
  have cut := (Piece.split_cut start t).joined covered parted (Piece.split_cut _ rest)
  refine ⟨?_, ?_⟩
  · rw [cut.split_eq]
    intro piece member
    exact (List.mem_append.mp member).elim (covered piece) (tail.covered piece)
  · rw [cut.split_eq, ofPieces_append, listed, tail.listed]

end Token

end InfixCalculator

import InfixCalculator.Proofs.LexicalGrammar
import InfixCalculator.Proofs.Normalisation

namespace InfixCalculator

namespace Text

def PointsFollowed (t : Text) : Prop :=
  ∀ before after, t = before ++ '.' :: after → ∃ d ∈ after.head?, d.isDigit = true

theorem pointsFollowed_of_free {t : Text} (free : '.' ∉ t) : PointsFollowed t := by
  rintro before after rfl
  exact absurd (List.mem_append_right before List.mem_cons_self) free

theorem pointsFollowed_cons {c : Char} {t : Text} :
    PointsFollowed (c :: t) ↔
      (c = '.' → ∃ d ∈ t.head?, d.isDigit = true) ∧ PointsFollowed t := by
  constructor
  · intro followed
    refine ⟨?_, fun before after parts => followed (c :: before) after (congrArg (c :: ·) parts)⟩
    rintro rfl
    exact followed [] t rfl
  · rintro ⟨first, others⟩ before after parts
    cases before with
    | nil => cases parts; exact first rfl
    | cons b before => exact others before after (List.cons.inj parts).2

theorem PointsFollowed.append {first second : Text} (left : PointsFollowed first)
    (right : PointsFollowed second) : PointsFollowed (first ++ second) := by
  induction first with
  | nil => exact right
  | cons c first ih =>
    obtain ⟨point, others⟩ := pointsFollowed_cons.mp left
    refine pointsFollowed_cons.mpr ⟨fun stands => ?_, ih others⟩
    obtain ⟨d, head, digit⟩ := point stands
    exact ⟨d, by simp [List.head?_append, Option.mem_def.mp head], digit⟩

theorem PointsFollowed.behind {first second : Text} (followed : PointsFollowed (first ++ second)) :
    PointsFollowed second := by
  rintro before after rfl
  exact followed (first ++ before) after (List.append_assoc ..).symm

theorem toLower_eq_point {c : Char} : c.toLower = '.' ↔ c = '.' := by
  rcases toLower_cases c with same | ⟨_, _, letter⟩
  · rw [same]
  · have code : '.'.toNat = 46 := rfl
    constructor
    · intro point
      rw [point] at letter
      omega
    · rintro rfl
      rfl

theorem isDigit_toLower (c : Char) : c.toLower.isDigit = c.isDigit := by
  rcases toLower_cases c with same | ⟨_, _, letter⟩
  · rw [same]
  · have zero : '0'.toNat = 48 := rfl
    have nine : '9'.toNat = 57 := rfl
    rw [Bool.eq_iff_iff, Char.isDigit_iff_toNat, Char.isDigit_iff_toNat]
    omega

theorem blank_plain {c : Char} (blank : isBlank c = true) : c ≠ '.' ∧ c.isDigit = false := by
  have plain : ∀ c ∈ blanks, c ≠ '.' ∧ c.isDigit = false := by simp [blanks]
  exact plain c (List.contains_iff_mem.mp blank)

theorem normaliseFrom_digit (t : Text) :
    (∃ d ∈ (normaliseFrom false t).head?, d.isDigit = true) ↔ ∃ d ∈ t.head?, d.isDigit = true := by
  cases t with
  | nil => rfl
  | cons c t =>
    cases blank : isBlank c with
    | true => simp [normaliseFrom, blank, (blank_plain blank).2]
    | false => simp [normaliseFrom, blank, isDigit_toLower]

theorem normaliseFrom_pointsFollowed (afterBlank : Bool) (t : Text) :
    PointsFollowed (normaliseFrom afterBlank t) ↔ PointsFollowed t := by
  induction t generalizing afterBlank with
  | nil => rfl
  | cons c t ih =>
    rw [pointsFollowed_cons]
    cases blank : isBlank c with
    | true =>
      have other := (blank_plain blank).1
      cases afterBlank <;> simp [normaliseFrom, blank, other, pointsFollowed_cons, ih]
    | false =>
      simp only [normaliseFrom, blank, Bool.false_eq_true, if_false, pointsFollowed_cons,
        toLower_eq_point, normaliseFrom_digit, ih]

end Text

open Text (PointsFollowed)

theorem Numeral.IsNumeral.pointsFollowed {n : Text} (written : IsNumeral n) : PointsFollowed n := by
  obtain @⟨whole, point, last, power, inside, pointed, ⟨nonempty, grouped⟩, exponent⟩ := written
  have digits {ds : Text} (inside : ∀ c ∈ ds, c.isDigit = true) : PointsFollowed ds :=
    Text.pointsFollowed_of_free fun member => absurd (inside '.' member) (by decide)
  have behind : PointsFollowed (last ++ power) := by
    refine (digits grouped).append (Text.pointsFollowed_of_free fun member => ?_)
    rcases Lexeme.plain_exponent exponent '.' member with digit | listed
    · exact absurd digit (by decide)
    · exact absurd listed (by decide)
  rw [List.append_assoc, List.append_assoc]
  refine (digits inside).append ?_
  rcases pointed with rfl | rfl
  · exact behind
  · refine Text.pointsFollowed_cons.mpr ⟨fun _ => ?_, behind⟩
    obtain ⟨d, ds, rfl⟩ := List.exists_cons_of_ne_nil nonempty
    exact ⟨d, rfl, grouped d List.mem_cons_self⟩

namespace Lexeme

theorem Lexical.pointsFollowed {t : Text} (lexical : Lexical t) : PointsFollowed t := by
  cases lexical with
  | number written => exact written.pointsFollowed
  | mark listed =>
    refine Text.pointsFollowed_of_free fun member => ?_
    cases List.mem_singleton.mp member
    exact absurd listed (by decide)
  | name listed =>
    have free : ∀ name ∈ names, '.' ∉ name := by decide
    exact Text.pointsFollowed_of_free (free t listed)
  | spaces _ all =>
    exact Text.pointsFollowed_of_free fun member => absurd (all '.' member) (by decide)

theorem Spelled.pointsFollowed {t : Text} (spelled : Spelled t) : PointsFollowed t := by
  induction spelled with
  | nil => exact Text.pointsFollowed_of_free (by simp)
  | cons lexical _ ih => exact lexical.pointsFollowed.append ih

def Lone (c : Char) : Prop := c.isDigit = true ∨ c ∈ '.' :: ' ' :: 'e' :: marks

-- A text that is cut into symbols: characters on their own and names. They are the
-- shortest lexemes, and the point.
inductive Symbolic : Text → Prop
  | nil : Symbolic []
  | lone : Lone c → Symbolic rest → Symbolic (c :: rest)
  | name : name ∈ names → Symbolic rest → Symbolic (name ++ rest)

theorem Symbolic.append {first second : Text} (left : Symbolic first) (right : Symbolic second) :
    Symbolic (first ++ second) := by
  induction left with
  | nil => exact right
  | lone single _ ih => exact .lone single ih
  | name listed _ ih =>
    rw [List.append_assoc]
    exact .name listed ih

theorem lexical_lone {c : Char} (lone : Lone c) : c = '.' ∨ Lexical [c] := by
  rcases lone with digit | listed
  · exact .inr (lexical_plain (.inl digit))
  · simp only [List.mem_cons] at listed
    rcases listed with rfl | rfl | rfl | listed
    · exact .inl rfl
    · exact .inr (.spaces (by simp) (by simp))
    · exact .inr (.name (by decide))
    · exact .inr (.mark listed)

theorem name_of_lone {c : Char} {tail : Text} (lone : Lone c) (listed : c :: tail ∈ names) :
    tail = [] := by
  have heads : ∀ name ∈ names, name = ['e'] ∨
      ∀ d ∈ name.head?, d.isDigit = false ∧ d ∉ '.' :: ' ' :: 'e' :: marks := by
    simp [names, marks]
  rcases heads _ listed with euler | other
  · exact (List.cons.inj euler).2
  · obtain ⟨noDigit, unlisted⟩ := other c rfl
    rcases lone with digit | member
    · rw [noDigit] at digit
      cases digit
    · exact absurd member unlisted

theorem Symbolic.tail {c : Char} {t : Text} (symbolic : Symbolic (c :: t)) (lone : Lone c) :
    Symbolic t := by
  generalize whole : c :: t = s at symbolic
  cases symbolic with
  | nil => cases whole
  | lone _ rest => cases whole; exact rest
  | @name name rest listed behind =>
    cases name with
    | nil => exact absurd listed (by decide)
    | cons d tail =>
      obtain ⟨rfl, rfl⟩ := List.cons.inj whole
      cases name_of_lone lone listed
      exact behind

theorem Symbolic.drop {first t : Text} (symbolic : Symbolic (first ++ t))
    (lone : ∀ c ∈ first, Lone c) : Symbolic t := by
  induction first with
  | nil => exact symbolic
  | cons c first ih =>
    have single := lone c List.mem_cons_self
    exact ih (symbolic.tail single) fun d member => lone d (List.mem_cons_of_mem _ member)

theorem Symbolic.drop_name {name t : Text} (symbolic : Symbolic (name ++ t))
    (listed : name ∈ names) : Symbolic t := by
  generalize whole : name ++ t = s at symbolic
  cases symbolic with
  | nil =>
    cases (List.append_eq_nil_iff.mp whole).1
    exact absurd listed (by decide)
  | @lone c rest single behind =>
    cases name with
    | nil => exact absurd listed (by decide)
    | cons d tail =>
      obtain ⟨rfl, rfl⟩ := List.cons.inj whole
      cases name_of_lone single listed
      exact behind
  | @name other rest meant behind =>
    have same : name = other := by
      rcases List.prefix_or_prefix_of_prefix ⟨t, whole⟩ (List.prefix_append other rest) with
        first | second
      · exact names_prefix_free _ listed _ meant first
      · exact (names_prefix_free _ meant _ listed second).symm
    cases same
    exact List.append_cancel_left whole ▸ behind

theorem lone_of_numeral {n : Text} (written : Numeral.IsNumeral n) : ∀ c ∈ n, Lone c := by
  have among : ∀ c ∈ ['e', '+', '-'], c ∈ '.' :: ' ' :: 'e' :: marks := by simp [marks]
  intro c member
  rcases mem_numeral written c member with rfl | plain
  · exact .inr (by simp)
  · exact plain.imp_right (among c)

-- Whatever the scan takes for a lexeme, it takes whole symbols.
theorem Symbolic.rest {taken rest : Text} {l : Lexeme} (symbolic : Symbolic (taken ++ rest))
    (found : first? (taken ++ rest) = some (l, taken)) : Symbolic rest := by
  cases first?_lexical found with
  | number written => exact symbolic.drop (lone_of_numeral written)
  | mark listed =>
    exact symbolic.drop (by simpa [Lone] using .inr (.inr (.inr (.inr listed))))
  | name listed => exact symbolic.drop_name listed
  | spaces _ all =>
    refine symbolic.drop fun c member => ?_
    rw [all c member]
    exact .inr (by decide)

theorem Symbolic.point {c : Char} {t : Text} (symbolic : Symbolic (c :: t))
    (stuck : first? (c :: t) = none) : c = '.' := by
  have starts {lexeme : Text} (lexical : Lexical lexeme) : ¬ lexeme <+: c :: t := by
    intro stands
    have found := first?_isSome lexical stands
    rw [stuck] at found
    cases found
  generalize whole : c :: t = s at symbolic starts
  cases symbolic with
  | nil => cases whole
  | lone single =>
    cases whole
    rcases lexical_lone single with point | lexical
    · exact point
    · exact absurd (List.prefix_append [c] t) (starts lexical)
  | @name name rest listed => exact absurd (List.prefix_append name rest) (starts (.name listed))

theorem Symbolic.hole {t : Text} (symbolic : Symbolic t) : ∀ c ∈ hole t, c = '.' := by
  induction t with
  | nil => simp [Lexeme.hole]
  | cons c t ih =>
    unfold Lexeme.hole
    split
    · simp
    · next stuck =>
      have point : c = '.' := symbolic.point (by simpa using stuck)
      have lone : Lone c := .inr (by simp [point])
      intro d member
      rcases List.mem_cons.mp member with rfl | later
      · exact point
      · exact ih (symbolic.tail lone) d later

theorem Symbolic.spelled {t : Text} (symbolic : Symbolic t) (followed : PointsFollowed t) :
    Spelled t := by
  induction symbolic with
  | nil => exact .nil
  | name listed _ ih => exact .cons (.name listed) (ih followed.behind)
  | @lone c rest single _ ih =>
    obtain ⟨point, others⟩ := Text.pointsFollowed_cons.mp followed
    have behind := ih others
    rcases lexical_lone single with rfl | lexical
    · obtain ⟨d, head, digit⟩ := point rfl
      obtain ⟨rest, rfl⟩ := List.head?_eq_some_iff.mp head
      have fraction : Numeral.IsNumeral ([] ++ ['.'] ++ [d] ++ []) :=
        .intro (by simp) (.inr rfl) ⟨by simp, by simpa using digit⟩ .absent
      exact .cons (.number fraction) (@Spelled.behind [] _ d (loose_digit digit) behind)
    · exact .cons lexical behind

theorem Symbolic.spelled_iff {t : Text} (symbolic : Symbolic t) : Spelled t ↔ PointsFollowed t :=
  ⟨Spelled.pointsFollowed, symbolic.spelled⟩

theorem lone_toLower {c : Char} (lone : Lone c) : Lone c.toLower := by
  have kept : ∀ d ∈ '.' :: ' ' :: 'e' :: marks, d.toLower = d := by simp [marks]
  rcases lone with digit | listed
  · exact .inl ((Text.isDigit_toLower c).trans digit)
  · exact .inr (by rwa [kept c listed])

theorem Symbolic.normaliseFrom {t : Text} (symbolic : Symbolic t) (afterBlank : Bool) :
    Symbolic (Text.normaliseFrom afterBlank t) := by
  induction symbolic generalizing afterBlank with
  | nil => exact .nil
  | @lone c rest single _ ih =>
    have space : Lone ' ' := .inr (by decide)
    cases blank : Text.isBlank c with
    | true => cases afterBlank <;> simp [Text.normaliseFrom, blank, ih, Symbolic.lone space]
    | false =>
      simp only [Text.normaliseFrom, blank, Bool.false_eq_true, if_false]
      exact .lone (lone_toLower single) (ih false)
  | @name name rest listed _ ih =>
    have visible : ∀ name ∈ names, name.Visible ∧ name.map Char.toLower = name := by decide
    obtain ⟨shown, lower⟩ := visible name listed
    rw [Text.normaliseFrom_append, Text.normaliseFrom_visible shown, lower]
    exact .name listed (ih _)

end Lexeme

open Lexeme (Symbolic)

theorem Piece.Cut.points {start : Nat} {t : Text} {pieces : List Piece} (cut : Cut start t pieces)
    (symbolic : Symbolic t) : ∀ piece ∈ pieces, piece.isHole = true → ∀ c ∈ piece.text, c = '.' := by
  induction cut with
  | nil => simp
  | @cons taken rest l start others found _ ih =>
    have first : l = none → ∀ c ∈ taken, c = '.' := by
      rintro rfl
      obtain ⟨_, same⟩ := next?_hole found
      exact same ▸ symbolic.hole
    have behind : Symbolic rest := by
      cases l with
      | some l => exact symbolic.rest (next?_lexeme found)
      | none =>
        refine symbolic.drop fun c member => ?_
        rw [first rfl c member]
        exact .inr (by decide)
    intro piece member hole
    rcases List.mem_cons.mp member with rfl | later
    · exact first (by simpa [isHole] using hole)
    · exact ih behind piece later hole

theorem check_symbolic {t : Text} (symbolic : Symbolic t) :
    Piece.check t.normalise = .ok () ↔ PointsFollowed t := by
  rw [Piece.check_ok_iff_spelled]
  exact (symbolic.normaliseFrom false).spelled_iff.trans (Text.normaliseFrom_pointsFollowed false t)

def RefusedAtPoints (t : Text) (f : Failure) : Prop :=
  (∀ c, evaluate c t = .error f) ∧ f.cause = .parsing .malformed ∧
    ∃ s points, f.span = some s ∧ f.fragment? = some points ∧ points ≠ [] ∧ ∀ c ∈ points, c = '.'

theorem refusedAtPoints {t : Text} (symbolic : Symbolic t) (stray : ¬ PointsFollowed t) :
    ∃ f, RefusedAtPoints t f := by
  cases checked : Piece.check t.normalise with
  | ok => exact absurd ((check_symbolic symbolic).mp checked) stray
  | error s =>
    have refused := tokenize_error_iff.mpr checked
    obtain ⟨points, first, before, after, stands⟩ := tokenize_error refused
    obtain ⟨_, _, shown, _⟩ := stands.shown (f := .ofHole t.normalise s) rfl
    obtain ⟨lexemes, hole, rest, parts, _, isHole, _, rfl⟩ := first
    have inside := (Piece.split_cut 0 t.normalise).points (symbolic.normaliseFrom false) hole
      (by simp [parts]) isHole
    refine ⟨.ofHole t.normalise s, fun c => ?_, rfl, s, hole.text, rfl, shown, stands.2.2.2, inside⟩
    simp only [evaluate, calculate, refused]
    rfl

end InfixCalculator

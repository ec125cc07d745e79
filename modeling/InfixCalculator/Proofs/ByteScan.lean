import InfixCalculator.Proofs.LexicalGrammar
import InfixCalculator.Proofs.Utf8

namespace InfixCalculator

namespace Lexeme

theorem Lexical.ascii {t : Text} (lexical : Lexical t) : t.IsAscii := by
  have listed : ∀ c ∈ letters, c.toNat < 128 := by simp [letters]
  intro c member
  rcases lexical.mem_letters c member with digit | letter
  · have bounds := Numeral.digit_iff.mp digit
    omega
  · exact listed c letter

theorem ascii_of_mem_words {word : Text × Operator} (listed : word ∈ words) : word.1.IsAscii :=
  (Lexical.name (words_names ▸ List.mem_map_of_mem listed)).ascii

theorem first?_high {c : Char} (outside : 128 ≤ c.toNat) (rest : Text) :
    first? (c :: rest) = none := by
  by_contra starts
  obtain ⟨⟨l, text⟩, found⟩ := Option.ne_none_iff_exists'.mp starts
  obtain ⟨d, tail, text⟩ := List.exists_cons_of_ne_nil (first?_ne_nil found)
  have same : d = c := by
    have front := first?_isPrefix found
    rw [text] at front
    exact (List.cons_prefix_cons.mp front).1
  have small := (first?_lexical found).ascii d (by simp [text])
  rw [same] at small
  omega

end Lexeme

namespace ByteScan

abbrev Checked (α : Type) := Option α

def isDigit (b : UInt8) : Bool := '0'.toUInt8 ≤ b && b ≤ '9'.toUInt8

def suffix (s : List UInt8) (i : Nat) : Checked (List UInt8) :=
  if i ≤ s.length then some (s.drop i) else none

def digits (s : List UInt8) (i : Nat) : Checked Nat :=
  (suffix s i).map fun rest => (rest.takeWhile isDigit).length

def mantissaEnd (s : List UInt8) (i : Nat) : Checked (Option Nat) := do
  let whole ← digits s i
  let stop := i + whole
  if s[stop]?.any (· == '.'.toUInt8) && s[stop + 1]?.any isDigit then
    let decimals ← digits s (stop + 1)
    return some (stop + 1 + decimals)
  else if whole = 0 then return none
  else return some stop

def exponentEnd (s : List UInt8) (i : Nat) : Checked Nat := do
  if s[i]?.any (· == 'e'.toUInt8) then
    let signed := s[i + 1]?.any (· == '+'.toUInt8) || s[i + 1]?.any (· == '-'.toUInt8)
    let start := if signed then i + 2 else i + 1
    let magnitude ← digits s start
    return if magnitude = 0 then i else start + magnitude
  else return i

def numeralLength (s : List UInt8) (i : Nat) : Checked (Option Nat) := do
  match ← mantissaEnd s i with
  | none => return none
  | some stop => return some ((← exponentEnd s stop) - i)

def lexeme (s : List UInt8) (i : Nat) : Checked (Option (Lexeme × Nat)) := do
  match ← numeralLength s i with
  | some n => return some (.number, n)
  | none =>
    let b ← s[i]?
    match Lexeme.mark (Char.ofUInt8 b) with
    | some l => return some (l, 1)
    | none =>
      let rest ← suffix s i
      match Lexeme.words.find? fun (word, _) => word.utf8.isPrefixOf rest with
      | some (word, o) => return some (.fixed o, word.utf8.length)
      | none =>
        if b == ' '.toUInt8 then
          return some (.space, (rest.takeWhile (· == ' '.toUInt8)).length)
        else return none

def holeEnd (s : List UInt8) (i : Nat) : Checked Nat :=
  if i < s.length then
    match lexeme s i with
    | none => none
    | some (some _) => some i
    | some none => holeEnd s (i + 1)
  else some i
termination_by s.length - i

-- The cuts from an index on: lexemes and holes with their spans, up to the end of the bytes.
inductive Cuts (s : List UInt8) : (i : Nat) → List (Option Lexeme × Span) → Prop
  | stop : s.length ≤ i → Cuts s i []
  | lexeme : i < s.length → ByteScan.lexeme s i = some (some (l, n)) → Cuts s (i + n) rest →
      Cuts s i ((some l, ⟨i, n⟩) :: rest)
  | hole : i < s.length → ByteScan.lexeme s i = some none → holeEnd s i = some j → Cuts s j rest →
      Cuts s i ((none, ⟨i, j - i⟩) :: rest)

theorem Cuts.unique {s : List UInt8} {i : Nat} {cuts others : List (Option Lexeme × Span)}
    (first : Cuts s i cuts) (second : Cuts s i others) : cuts = others := by
  induction first generalizing others with
  | stop ended =>
    cases second with
    | stop => rfl
    | lexeme inside | hole inside => omega
  | lexeme inside read _ ih =>
    cases second with
    | stop ended => omega
    | lexeme _ other behind =>
      cases read.symm.trans other
      rw [ih behind]
    | hole _ other => cases read.symm.trans other
  | hole inside read ends _ ih =>
    cases second with
    | stop ended => omega
    | lexeme _ other => cases read.symm.trans other
    | hole _ _ other behind =>
      cases ends.symm.trans other
      rw [ih behind]

open Text

theorem isDigit_iff {b : UInt8} : isDigit b = true ↔ 48 ≤ b.toNat ∧ b.toNat ≤ 57 := by
  simp only [isDigit, Bool.and_eq_true, decide_eq_true_eq, UInt8.le_iff_toNat_le]
  rfl

theorem tests_digit : Tests isDigit Char.isDigit where
  ascii c small := by
    rw [Bool.eq_iff_iff, isDigit_iff, Numeral.digit_iff, toUInt8_toNat small]
  high b large := by
    rw [← Bool.not_eq_true, isDigit_iff]
    omega
  outside c large := by
    rw [← Bool.not_eq_true, Numeral.digit_iff]
    omega

theorem suffix_utf8 (before after : Text) :
    suffix (before ++ after).utf8 before.byteLength = some after.utf8 := by
  have inside : before.byteLength ≤ (before ++ after).utf8.length := by
    rw [utf8_length, byteLength_append]
    omega
  rw [suffix, if_pos inside, drop_utf8]

theorem digits_utf8 (before after : Text) :
    digits (before ++ after).utf8 before.byteLength =
      some (byteLength (Numeral.digits after)) := by
  rw [digits, suffix_utf8, Option.map_some, tests_digit.takeWhile, utf8_length, Numeral.digits]

theorem digits_behind {c : Char} (ascii : c.toNat < 128) (before after : Text) :
    digits (before ++ c :: after).utf8 (before.byteLength + 1) =
      some (byteLength (Numeral.digits after)) := by
  rw [List.append_cons, ← byteLength_ascii ascii, digits_utf8]

theorem digits_eq_nil_iff {t : Text} :
    Numeral.digits t = [] ↔ t.head?.any Char.isDigit = false := by
  cases t with
  | nil => simp [Numeral.digits]
  | cons c t => by_cases digit : c.isDigit = true <;> simp [Numeral.digits, digit]

theorem pointed_utf8 (before after : Text) :
    ((before ++ after).utf8[before.byteLength]?.any (· == '.'.toUInt8) &&
      (before ++ after).utf8[before.byteLength + 1]?.any isDigit) =
        !(Numeral.fraction after).isEmpty := by
  have point := (tests_char (a := '.') (by decide)).any_at before after
  rw [point]
  cases after with
  | nil => rfl
  | cons c rest =>
    by_cases stands : c = '.'
    · subst stands
      rw [tests_digit.any_behind (by decide)]
      by_cases none : Numeral.digits rest = []
      · simp [Numeral.fraction, none, digits_eq_nil_iff.mp none]
      · have some := mt digits_eq_nil_iff.mpr none
        simpa [Numeral.fraction, none] using some
    · simp [Numeral.fraction, stands]

theorem decimals_utf8 (before : Text) {after : Text} (pointed : Numeral.fraction after ≠ []) :
    (digits (before ++ after).utf8 (before.byteLength + 1)).map (before.byteLength + 1 + ·) =
      some (Text.byteLength (before ++ Numeral.fraction after)) := by
  unfold Numeral.fraction at pointed ⊢
  split at pointed
  · next rest =>
    split at pointed
    · contradiction
    · next some =>
      have ascii : '.'.toNat < 128 := by decide
      rw [digits_behind ascii, if_neg some, Option.map_some, ← byteLength_ascii ascii,
        ← byteLength_append, ← List.append_cons]
  · contradiction

theorem mantissaEnd_utf8 (before after : Text) :
    mantissaEnd (before ++ after).utf8 before.byteLength =
      some (if (Numeral.parts after).hasDigits then
        some (Text.byteLength (before ++ (Numeral.digits after ++
          Numeral.fraction (Numeral.afterDigits after)))) else none) := by
  have whole : Numeral.digits after ++ Numeral.afterDigits after = after :=
    List.takeWhile_append_dropWhile
  have text : before ++ after = (before ++ Numeral.digits after) ++ Numeral.afterDigits after := by
    rw [List.append_assoc, whole]
  unfold mantissaEnd
  simp only [digits_utf8, ← byteLength_append, Option.bind_eq_bind, Option.bind_some]
  rw [text, pointed_utf8]
  by_cases unpointed : Numeral.fraction (Numeral.afterDigits after) = []
  · by_cases none : Numeral.digits after = []
    · simp [unpointed, none, Numeral.Parts.hasDigits, Numeral.parts, byteLength]
    · have some := mt byteLength_eq_zero.mp none
      simp [unpointed, none, some, Numeral.Parts.hasDigits, Numeral.parts]
  · have decimals := decimals_utf8 (before ++ Numeral.digits after) unpointed
    obtain ⟨n, read, same⟩ := Option.map_eq_some_iff.mp decimals
    rw [List.append_assoc] at same
    rw [read, Option.bind_some, same]
    simp [unpointed, Numeral.Parts.hasDigits, Numeral.parts]

theorem signed_utf8 (before rest : Text) :
    (if ((before ++ 'e' :: rest).utf8[before.byteLength + 1]?.any (· == '+'.toUInt8) ||
        (before ++ 'e' :: rest).utf8[before.byteLength + 1]?.any (· == '-'.toUInt8)) = true then
      before.byteLength + 2 else before.byteLength + 1) =
      Text.byteLength (before ++ 'e' :: Numeral.sign rest) := by
  have plus := (tests_char (a := '+') (by decide)).any_behind (c := 'e') (by decide) before rest
  have minus := (tests_char (a := '-') (by decide)).any_behind (c := 'e') (by decide) before rest
  rw [plus, minus, byteLength_append]
  cases rest with
  | nil => rfl
  | cons c rest =>
    by_cases positive : c = '+'
    · subst positive
      rfl
    · by_cases negative : c = '-'
      · subst negative
        rfl
      · have mark : 'e'.utf8Size = 1 := rfl
        simp [positive, negative, Numeral.sign, byteLength, mark]

theorem exponentEnd_utf8 (before after : Text) :
    exponentEnd (before ++ after).utf8 before.byteLength =
      some (Text.byteLength (before ++ Numeral.exponent after)) := by
  have mark := (tests_char (a := 'e') (by decide)).any_at before after
  unfold exponentEnd
  rw [mark]
  cases after with
  | nil => simp [Numeral.exponent]
  | cons c rest =>
    by_cases stands : c = 'e'
    · subst stands
      have parts : before ++ 'e' :: rest =
          (before ++ 'e' :: Numeral.sign rest) ++ rest.drop (Numeral.sign rest).length := by
        have signed := List.prefix_iff_eq_append.mp (Numeral.sign_isPrefix rest)
        simp [signed]
      have start := signed_utf8 before rest
      simp only [start]
      rw [parts, digits_utf8]
      by_cases none : Numeral.digits (rest.drop (Numeral.sign rest).length) = []
      · simp [Numeral.exponent, none, Text.byteLength]
      · have some := mt byteLength_eq_zero.mp none
        simp [Numeral.exponent, none, some, ← byteLength_append]
    · simp [Numeral.exponent, stands]

theorem numeralLength_utf8 (before after : Text) :
    numeralLength (before ++ after).utf8 before.byteLength =
      some ((Numeral.scan? after).map Text.byteLength) := by
  unfold numeralLength
  rw [mantissaEnd_utf8]
  by_cases found : (Numeral.parts after).hasDigits = true
  · obtain ⟨mantissa, read⟩ : ∃ mantissa, mantissa =
        Numeral.digits after ++ Numeral.fraction (Numeral.afterDigits after) := ⟨_, rfl⟩
    have pointed := List.prefix_iff_eq_append.mp
      (Numeral.fraction_isPrefix (Numeral.afterDigits after))
    obtain ⟨behind, left⟩ : ∃ behind, behind = (Numeral.afterDigits after).drop
        (Numeral.fraction (Numeral.afterDigits after)).length := ⟨_, rfl⟩
    have text : (Numeral.parts after).text = mantissa ++ Numeral.exponent behind := by
      rw [read, left]
      rfl
    have whole : mantissa ++ behind = after := by
      rw [read, left, List.append_assoc, pointed]
      exact List.takeWhile_append_dropWhile
    have power := exponentEnd_utf8 (before ++ mantissa) behind
    rw [List.append_assoc, List.append_assoc, whole, byteLength_append before (_ ++ _)] at power
    rw [if_pos found, Numeral.scan?, if_pos found, text, ← read]
    simp [power]
  · simp [found, Numeral.scan?]

theorem utf8_isPrefixOf {word : Text} (ascii : word.IsAscii) (t : Text) :
    word.utf8.isPrefixOf t.utf8 = word.isPrefixOf t := by
  induction word generalizing t with
  | nil => simp [Text.utf8]
  | cons a word ih =>
    have small := ascii a List.mem_cons_self
    have others := ih fun c member => ascii c (List.mem_cons_of_mem _ member)
    have tests := tests_char small
    rw [utf8_cons_ascii small]
    cases t with
    | nil => rfl
    | cons c t =>
      obtain ⟨b, rest, bytes, ⟨low, code, tail⟩ | ⟨large, high⟩⟩ := utf8_head c t
      · have same : (a.toUInt8 == c.toUInt8) = (a == c) := by
          rw [BEq.comm, BEq.comm (a := a)]
          exact tests.ascii c low
        rw [bytes, code, tail, List.isPrefixOf_cons_cons, List.isPrefixOf_cons_cons, others, same]
      · have byte : (a.toUInt8 == b) = false := by
          rw [BEq.comm]
          exact tests.high b high
        have char : (a == c) = false := by
          rw [BEq.comm]
          exact tests.outside c large
        rw [bytes, List.isPrefixOf_cons_cons, List.isPrefixOf_cons_cons, byte, char]
        rfl

theorem find_utf8 (t : Text) :
    (Lexeme.words.find? fun (word, _) => word.utf8.isPrefixOf t.utf8) =
      Lexeme.words.find? fun (word, _) => word.isPrefixOf t :=
  List.find?_congr fun _ listed => utf8_isPrefixOf (Lexeme.ascii_of_mem_words listed) t

theorem find_high {b : UInt8} (high : 128 ≤ b.toNat) (rest : List UInt8) :
    (Lexeme.words.find? fun (word, _) => word.utf8.isPrefixOf (b :: rest)) = none := by
  have initials : ∀ word ∈ Lexeme.words, ∃ a front, word.1 = a :: front := by
    simp [Lexeme.words]
  refine List.find?_eq_none.mpr fun word listed => ?_
  obtain ⟨a, front, text⟩ := initials word listed
  have small := Lexeme.ascii_of_mem_words listed a (by simp [text])
  have other : (a.toUInt8 == b) = false := by
    rw [BEq.comm]
    exact (tests_char small).high b high
  simp [text, utf8_cons_ascii small, ne_of_beq_false other]

theorem mark_high {b : UInt8} (high : 128 ≤ b.toNat) : Lexeme.mark (Char.ofUInt8 b) = none := by
  by_contra marked
  have listed := Lexeme.mark_isSome_iff.mp (Option.isSome_iff_ne_none.mpr marked)
  have low : b.toNat < 128 := (Lexeme.Lexical.mark listed).ascii _ (List.mem_singleton_self _)
  omega

theorem lexeme_high {s : List UInt8} {i : Nat} {b : UInt8} (read : s[i]? = some b)
    (high : 128 ≤ b.toNat) : lexeme s i = some none := by
  obtain ⟨inside, here⟩ := List.getElem?_eq_some_iff.mp read
  have rest : s.drop i = b :: s.drop (i + 1) := here ▸ List.drop_eq_getElem_cons inside
  have suffixed : suffix s i = some (b :: s.drop (i + 1)) := rest ▸ if_pos (Nat.le_of_lt inside)
  have unnumbered : numeralLength s i = some none := by
    have none : digits s i = some 0 := by simp [digits, suffixed, tests_digit.high b high]
    have unpointed := (tests_char (a := '.') (by decide)).high b high
    simp [numeralLength, mantissaEnd, none, read, unpointed]
  have unspaced := (tests_char (a := ' ') (by decide)).high b high
  simp only [lexeme, unnumbered, read, mark_high high, suffixed, find_high high, unspaced,
    Option.bind_eq_bind, Option.bind_some]
  rfl

theorem ofUInt8_toUInt8 {c : Char} (ascii : c.toNat < 128) : Char.ofUInt8 c.toUInt8 = c := by
  have code := toUInt8_toNat ascii
  exact Char.toNat_inj.mp code

theorem lexeme_ascii (before : Text) {c : Char} (ascii : c.toNat < 128) (rest : Text) :
    lexeme (before ++ c :: rest).utf8 before.byteLength =
      some ((Lexeme.first? (c :: rest)).map fun (l, text) => (l, text.byteLength)) := by
  unfold lexeme
  rw [numeralLength_utf8, read_utf8 before ascii]
  cases scanned : Numeral.scan? (c :: rest) with
  | some text => simp [Lexeme.first?, Lexeme.number?, scanned]
  | none =>
    have unnumbered : Lexeme.number? (c :: rest) = none := by simp [Lexeme.number?, scanned]
    simp only [Option.map_none, Option.bind_eq_bind, Option.bind_some, ofUInt8_toUInt8 ascii,
      suffix_utf8, find_utf8]
    cases marked : Lexeme.mark c with
    | some l =>
      have one : byteLength [c] = 1 := by simpa [byteLength] using byteLength_ascii ascii []
      simp [Lexeme.first?, unnumbered, Lexeme.mark?, marked, one]
    | none =>
      have unmarked : Lexeme.mark? (c :: rest) = none := by simp [Lexeme.mark?, marked]
      cases found : Lexeme.words.find? fun (word, _) => word.isPrefixOf (c :: rest) with
      | some word => simp [Lexeme.first?, unnumbered, unmarked, Lexeme.word?, found, utf8_length]
      | none =>
        have wordless : Lexeme.word? (c :: rest) = none := by simp [Lexeme.word?, found]
        have spaces := tests_char (a := ' ') (by decide)
        have run := spaces.takeWhile (c :: rest)
        have same : (c.toUInt8 == ' '.toUInt8) = (c == ' ') := spaces.ascii c ascii
        simp only [same, run, utf8_length]
        by_cases space : c = ' '
        · subst space
          rw [Lexeme.first?_spaces]
          simp
        · simp [Lexeme.first?, unnumbered, unmarked, wordless, Lexeme.space?, space]

theorem lexeme_utf8 (before : Text) (c : Char) (rest : Text) :
    lexeme (before ++ c :: rest).utf8 before.byteLength =
      some ((Lexeme.first? (c :: rest)).map fun (l, text) => (l, text.byteLength)) := by
  by_cases ascii : c.toNat < 128
  · exact lexeme_ascii before ascii rest
  · have outside := Nat.not_lt.mp ascii
    obtain ⟨b, bytes, first, ⟨small, _, _⟩ | ⟨_, high⟩⟩ := utf8_head c rest
    · exact absurd small ascii
    · have read : (before ++ c :: rest).utf8[before.byteLength]? = some b := by
        rw [← List.head?_drop, drop_utf8, first]
        rfl
      rw [lexeme_high read high, Lexeme.first?_high outside]
      rfl

theorem holeEnd_high {s : List UInt8} {n i : Nat}
    (high : ∀ k, k < n → ∃ b, s[i + k]? = some b ∧ 128 ≤ b.toNat) :
    holeEnd s i = holeEnd s (i + n) := by
  induction n generalizing i with
  | zero => rfl
  | succ n ih =>
    obtain ⟨b, read, large⟩ := high 0 (Nat.succ_pos n)
    rw [Nat.add_zero] at read
    have inside := (List.getElem?_eq_some_iff.mp read).1
    have others : holeEnd s (i + 1) = holeEnd s (i + 1 + n) := by
      refine ih fun k before => ?_
      have later := high (k + 1) (by omega)
      rwa [← Nat.add_assoc, Nat.add_right_comm] at later
    rw [holeEnd, if_pos inside, lexeme_high read large]
    simp only [others, Nat.add_assoc, Nat.add_comm 1 n]

theorem holeEnd_char (before : Text) {c : Char} {rest : Text}
    (stuck : Lexeme.first? (c :: rest) = none) :
    holeEnd (before ++ c :: rest).utf8 before.byteLength =
      holeEnd (before ++ c :: rest).utf8 (before.byteLength + c.utf8Size) := by
  by_cases ascii : c.toNat < 128
  · have one : c.utf8Size = 1 := by simpa [Text.byteLength] using byteLength_ascii ascii []
    have read := read_utf8 before ascii rest
    have inside := (List.getElem?_eq_some_iff.mp read).1
    have none := lexeme_utf8 before c rest
    rw [stuck, Option.map_none] at none
    rw [holeEnd, if_pos inside, none, one]
  · refine holeEnd_high fun k within => ?_
    rw [← String.length_utf8EncodeChar] at within
    have bytes := drop_utf8 before (c :: rest)
    have split : Text.utf8 (c :: rest) = String.utf8EncodeChar c ++ rest.utf8 := List.flatMap_cons
    refine ⟨(String.utf8EncodeChar c)[k], ?_, ?_⟩
    · rw [← List.getElem?_drop, bytes, split, List.getElem?_append_left within,
        List.getElem?_eq_getElem within]
    · exact high_of_utf8EncodeChar (Nat.not_lt.mp ascii) _ (List.getElem_mem within)

theorem holeEnd_utf8 (before after : Text) :
    holeEnd (before ++ after).utf8 before.byteLength =
      some (before.byteLength + (Lexeme.hole after).byteLength) := by
  induction after generalizing before with
  | nil =>
    have ended : ¬ before.byteLength < (before ++ []).utf8.length := by
      rw [List.append_nil, utf8_length]
      omega
    rw [holeEnd, if_neg ended]
    rfl
  | cons c rest ih =>
    cases found : Lexeme.first? (c :: rest) with
    | some piece =>
      have inside := utf8_inside before c rest
      have read := lexeme_utf8 before c rest
      rw [found, Option.map_some] at read
      rw [holeEnd, if_pos inside, read]
      simp [Lexeme.hole, found, Text.byteLength]
    | none =>
      have behind := ih (before ++ [c])
      have one : Text.byteLength [c] = c.utf8Size := Nat.add_zero _
      have whole : Lexeme.hole (c :: rest) = c :: Lexeme.hole rest := by simp [Lexeme.hole, found]
      rw [← List.append_cons, byteLength_append, one] at behind
      rw [holeEnd_char before found, behind, whole, Text.byteLength, Nat.add_assoc]

end ByteScan

open ByteScan Text in
-- The pieces of a text are the cuts that the scan makes in its bytes.
theorem Piece.Cut.cuts {start : Nat} {t : Text} {pieces : List Piece}
    (cut : Piece.Cut start t pieces) (before : Text) (behind : start = before.byteLength) :
    Cuts (before ++ t).utf8 start (pieces.map fun piece => (piece.lexeme?, piece.span)) := by
  induction cut generalizing before with
  | nil =>
    refine .stop ?_
    rw [List.append_nil, utf8_length, behind]
  | @cons taken rest l start pieces found _ ih =>
    subst behind
    obtain ⟨c, tail, text⟩ := List.exists_cons_of_ne_nil (Piece.next?_ne_nil found)
    have others := ih (before ++ taken) (byteLength_append before taken).symm
    have inside := utf8_inside before c (tail ++ rest)
    have read := lexeme_utf8 before c (tail ++ rest)
    rw [← List.cons_append, ← text] at inside read
    rw [List.append_assoc] at others
    cases l with
    | some l =>
      rw [Piece.next?_lexeme found] at read
      exact .lexeme inside read others
    | none =>
      obtain ⟨stuck, hole⟩ := Piece.next?_hole found
      have ends := holeEnd_utf8 before (taken ++ rest)
      rw [stuck] at read
      rw [← hole] at ends
      have cuts := Cuts.hole inside read ends others
      rwa [Nat.add_sub_cancel_left] at cuts

end InfixCalculator

import InfixCalculator.Proofs.Pieces
import InfixCalculator.Proofs.Postfix

namespace InfixCalculator

namespace Postfix

def Blames (t : Token) (stop : Stop) : Prop :=
  stop.span = some t.span ∧
    (stop.cause = .parsing .unmatchedParentheses ∨ ∃ cause, stop.cause = .evaluation cause)

theorem Refused.blames {c : Context} {t : Token} {stop : Stop} (refused : Refused c t stop) :
    Blames t stop := by
  cases refused with
  | intro => exact ⟨rfl, .inr ⟨_, rfl⟩⟩

def Translation.Mentions (translation : Translation) (t : Token) : Prop :=
  t ∈ translation.items ∨ translation.unpaired? = some t

theorem Translation.mentions_after {emitted : List Token} {translation : Translation} {t : Token}
    (mentioned : (translation.after emitted).Mentions t) :
    t ∈ emitted ∨ translation.Mentions t := by
  rcases mentioned with item | paren
  · rcases List.mem_append.mp item with first | later
    · exact .inl first
    · exact .inr (.inl later)
  · exact .inr (.inr paren)

theorem Moves.mentions {t u : Token} {pending emitted left : List Token}
    (moves : Moves t pending emitted left) (mentioned : u ∈ emitted ∨ u ∈ left) :
    u ∈ pending ∨ u = t := by
  have above {p : Token → Bool} (item : u ∈ pending.takeWhile p) : u ∈ pending :=
    (List.takeWhile_prefix p).subset item
  have below {p : Token → Bool} (waits : u ∈ pending.dropWhile p) : u ∈ pending :=
    (List.dropWhile_suffix p).subset waits
  cases moves with
  | number kind =>
    rcases mentioned with item | waits
    · exact .inr (List.mem_singleton.mp item)
    · exact .inl waits
  | opening kind =>
    rcases mentioned with item | waits
    · cases item
    · exact (List.mem_cons.mp waits).symm
  | closing kind standing =>
    rcases mentioned with item | waits
    · exact .inl (above item)
    · exact .inl (below (standing ▸ List.mem_cons_of_mem _ waits))
  | operator kind applied =>
    rcases mentioned with item | waits
    · exact .inl (above item)
    · rcases List.mem_cons.mp waits with same | waits
      · exact .inr same
      · exact .inl (below waits)

theorem translate_mentions (ts : List Token) {pending : List Token} {u : Token}
    (mentioned : (translate pending ts).Mentions u) : u ∈ pending ∨ u ∈ ts := by
  induction ts generalizing pending with
  | nil =>
    rcases mentioned with item | paren
    · exact .inl ((List.takeWhile_prefix _).subset item)
    · exact .inl ((List.dropWhile_suffix _).subset (List.mem_of_mem_head? paren))
  | cons t rest ih =>
    rcases moves_or_unpaired t pending with ⟨emitted, left, moves⟩ | unpaired
    · rw [moves.translate] at mentioned
      have first (now : u ∈ emitted ∨ u ∈ left) : u ∈ pending ∨ u ∈ t :: rest :=
        (moves.mentions now).imp_right fun same => List.mem_cons.mpr (.inl same)
      rcases Translation.mentions_after mentioned with item | later
      · exact first (.inl item)
      · rcases ih later with waits | later
        · exact first (.inr waits)
        · exact .inr (List.mem_cons_of_mem _ later)
    · rw [unpaired.translate] at mentioned
      rcases mentioned with item | paren
      · exact .inl ((List.takeWhile_prefix _).subset item)
      · cases paren
        exact .inr List.mem_cons_self

theorem execute_error {c : Context} {ts : List Token} {stop : Stop}
    (failed : Engine.execute c ts = .error stop) :
    (∃ t ∈ ts, Blames t stop) ∨
      stop.span = none ∧ ∃ values, Leaves c ts values ∧
        (values = [] ∧ stop.cause = .parsing .emptyExpression ∨
          2 ≤ values.length ∧ stop.cause = .parsing .malformed) := by
  rw [execute_eq_result] at failed
  unfold result at failed
  split at failed
  · next ran =>
    cases failed
    obtain ⟨t, member, refused⟩ := run_refused ran
    exact .inl ⟨t, by simpa using translate_mentions ts (.inl member), refused.blames⟩
  · next values ran =>
    split at failed
    · next paren unpaired =>
      cases failed
      exact .inl ⟨paren, by simpa using translate_mentions ts (.inr unpaired), rfl, .inl rfl⟩
    · next finished =>
      have left : Leaves c ts values := ⟨finished, ran⟩
      split at failed
      · cases failed; exact .inr ⟨rfl, [], left, .inl ⟨rfl, rfl⟩⟩
      · cases failed
      · next several =>
        cases failed
        refine .inr ⟨rfl, values, left, .inr ⟨?_, rfl⟩⟩
        rcases values with _ | ⟨a, _ | ⟨b, rest⟩⟩
        · contradiction
        · exact absurd rfl (several a)
        · simp

end Postfix

def IsFirstHole (t : Text) (s : Span) (fragment : Text) : Prop :=
  ∃ lexemes hole rest, Piece.split 0 t = lexemes ++ hole :: rest ∧
    (∀ piece ∈ lexemes, piece.isHole = false) ∧ hole.isHole = true ∧
    hole.span = s ∧ hole.text = fragment

-- A text that stands in another one, over just the bytes of the span.
def StandsAt (s : Span) (before fragment after t : Text) : Prop :=
  t = before ++ fragment ++ after ∧ s.position = before.byteLength ∧
    s.length = fragment.byteLength ∧ fragment ≠ []

theorem StandsAt.sliced {s : Span} {before fragment after t : Text}
    (stands : StandsAt s before fragment after t) :
    t.between? s.position s.stop = some fragment := by
  obtain ⟨rfl, position, length, _⟩ := stands
  rw [Span.stop, position, length]
  exact Text.between?_append before fragment after

theorem piece_stands {t : Text} {piece : Piece} (listed : piece ∈ Piece.split 0 t) :
    ∃ before after, StandsAt piece.span before piece.text after t := by
  have cut := Piece.split_cut 0 t
  obtain ⟨first, last, parts⟩ := List.append_of_mem listed
  rw [parts] at cut
  obtain ⟨before, after, whole, position⟩ := cut.located
  exact ⟨before, after, whole, by rw [Piece.span, position, Nat.zero_add], rfl,
    cut.ne_nil piece (by simp)⟩

theorem token_stands {t : Text} {tokens : List Token} (read : Token.tokenize t = .ok tokens)
    {token : Token} (member : token ∈ tokens) :
    ∃ before after, StandsAt token.span before token.text after t := by
  obtain ⟨_, rfl⟩ := Token.tokenize_eq_ok_iff.mp read
  obtain ⟨piece, listed, text, position, _⟩ := Token.mem_ofPieces member
  have same : token.span = piece.span := by rw [Token.span, Piece.span, text, position]
  rw [same, text]
  exact piece_stands listed

theorem tokenize_error {t : Text} {s : Span} (refused : Token.tokenize t = .error s) :
    ∃ fragment, IsFirstHole t s fragment ∧
      ∃ before after, StandsAt s before fragment after t := by
  cases found : Piece.firstHole? t with
  | none => simp [Token.tokenize, Piece.check, found] at refused
  | some span =>
    simp only [Token.tokenize, Piece.check, found] at refused
    cases refused
    obtain ⟨hole, listed, rfl⟩ := Option.map_eq_some_iff.mp found
    obtain ⟨isHole, lexemes, rest, parts, covered⟩ := List.find?_eq_some_iff_append.mp listed
    refine ⟨hole.text, ⟨lexemes, hole, rest, parts, ?_, isHole, rfl, rfl⟩,
      piece_stands (parts ▸ by simp)⟩
    simpa using covered

theorem evaluate_eq_error_iff {c : Context} {t : Text} {f : Failure} :
    evaluate c t = .error f ↔ calculate c t = .error f := by
  unfold evaluate
  cases calculate c t <;> simp [Except.map]

theorem calculate_error {c : Context} {t : Text} {f : Failure} (failed : calculate c t = .error f) :
    (∃ hole, Token.tokenize t.normalise = .error hole ∧ f = .ofHole t.normalise hole) ∨
      ∃ tokens stop, Token.tokenize t.normalise = .ok tokens ∧
        Engine.execute c tokens = .error stop ∧ f = .ofStop t.normalise stop := by
  unfold calculate at failed
  dsimp only at failed
  split at failed
  · next hole refused => cases failed; exact .inl ⟨hole, refused, rfl⟩
  · next tokens read =>
    split at failed
    · next stop stuck => cases failed; exact .inr ⟨tokens, stop, read, stuck, rfl⟩
    · cases failed

theorem StandsAt.shown {s : Span} {before fragment after : Text} {f : Failure}
    (stands : StandsAt s before fragment after f.expression) (span : f.span = some s) :
    s.stop ≤ f.expression.byteLength ∧ 1 ≤ s.length ∧ f.fragment? = some fragment ∧
      f.underline? = some
        (List.replicate before.length ' ' ++ List.replicate fragment.length '^') := by
  obtain ⟨whole, position, length, nonempty⟩ := stands
  have same : s = ⟨before.byteLength, fragment.byteLength⟩ := by rw [← position, ← length]
  refine ⟨?_, length ▸ Text.byteLength_pos nonempty, ?_, ?_⟩
  · rw [whole, Text.byteLength_append, Text.byteLength_append, Span.stop, position, length]
    omega
  · rw [Failure.fragment?, span, whole, same]
    exact Span.fragment?_middle before fragment after
  · rw [Failure.underline?, span, whole, same]
    exact congrArg some (Span.underline_middle before fragment after nonempty)

-- A failure has no span when the expression is empty or several operands are left. Otherwise its span
-- is that of the first hole or of a token, whose text is what is shown and what is underlined.
theorem failure_points_at_text {c : Context} {t : Text} {f : Failure}
    (failed : evaluate c t = .error f ∨ calculate c t = .error f) :
    f.expression = t.normalise ∧
      (f.span = none ↔
        f.cause = .parsing .emptyExpression ∨
          f.cause = .parsing .malformed ∧ ∃ tokens values,
            Token.tokenize t.normalise = .ok tokens ∧ Postfix.Leaves c tokens values ∧
              2 ≤ values.length) ∧
      ∀ s, f.span = some s → ∃ before fragment after,
        StandsAt s before fragment after f.expression ∧
          s.stop ≤ f.expression.byteLength ∧ 1 ≤ s.length ∧
          f.fragment? = some fragment ∧
          f.underline? = some
            (List.replicate before.length ' ' ++ List.replicate fragment.length '^') ∧
          (IsFirstHole f.expression s fragment ∨
            ∃ tokens, Token.tokenize f.expression = .ok tokens ∧
              ∃ token ∈ tokens, token.span = s ∧ token.text = fragment) := by
  have failed : calculate c t = .error f := failed.elim evaluate_eq_error_iff.mp id
  rcases calculate_error failed with ⟨hole, refused, rfl⟩ | ⟨tokens, stop, read, stuck, rfl⟩
  · obtain ⟨fragment, first, before, after, stands⟩ := tokenize_error refused
    refine ⟨rfl, ?_, ?_⟩
    · simp [Failure.ofHole, refused]
    · intro s span
      cases span
      obtain ⟨bound, positive, shown, underlined⟩ :=
        stands.shown (f := .ofHole t.normalise hole) rfl
      exact ⟨before, fragment, after, stands, bound, positive, shown, underlined, .inl first⟩
  · rcases Postfix.execute_error stuck with ⟨token, member, span, cause⟩ | ⟨span, values, left, count⟩
    · obtain ⟨before, after, stands⟩ := token_stands read member
      refine ⟨rfl, ?_, ?_⟩
      · rcases cause with cause | ⟨reason, cause⟩ <;> simp [Failure.ofStop, span, cause]
      · intro s same
        cases span.symm.trans same
        obtain ⟨bound, positive, shown, underlined⟩ :=
          stands.shown (f := .ofStop t.normalise stop) span
        exact ⟨before, token.text, after, stands, bound, positive, shown, underlined,
          .inr ⟨tokens, read, token, member, rfl, rfl⟩⟩
    · refine ⟨rfl, ⟨fun _ => ?_, fun _ => span⟩, fun s same => ?_⟩
      · rcases count with ⟨_, cause⟩ | ⟨several, cause⟩
        · exact .inl cause
        · exact .inr ⟨cause, tokens, values, read, left, several⟩
      · cases span.symm.trans same

theorem failure_points_at_text_accent :
    evaluate {} ['1', ' ', '+', ' ', 'é'] =
        .error ⟨.parsing .malformed, ['1', ' ', '+', ' ', 'é'], some ⟨4, 2⟩⟩ ∧
      ∃ before fragment after,
        StandsAt ⟨4, 2⟩ before fragment after ['1', ' ', '+', ' ', 'é'] := by
  have failed : evaluate {} ['1', ' ', '+', ' ', 'é'] =
      .error ⟨.parsing .malformed, ['1', ' ', '+', ' ', 'é'], some ⟨4, 2⟩⟩ := by decide +kernel
  obtain ⟨_, _, shown⟩ := failure_points_at_text (.inl failed)
  obtain ⟨before, fragment, after, stands, _⟩ := shown ⟨4, 2⟩ rfl
  exact ⟨failed, before, fragment, after, stands⟩

end InfixCalculator

import InfixCalculator.Proofs.Correspondence
import InfixCalculator.Proofs.Grammar

namespace InfixCalculator

namespace Postfix

variable {c : Context} {ts rest inner under : List Token} {opening closing : Token}

theorem releases_isOpen {t : Token} (paren : t.isOpen = true) (o : Operator) :
    o.entry.releases t.entry = false := by
  have operator : t.operator? = some .openParen := by simpa [Token.isOpen] using paren
  simpa [Token.entry, operator] using releases_openParen o

theorem takeWhile_above {p : Token → Bool} (stop : p opening = false) (inner under : List Token) :
    (inner ++ opening :: under).takeWhile p = inner.takeWhile p := by
  induction inner with
  | nil => simp [stop]
  | cons top inner ih =>
    simp only [List.cons_append, List.takeWhile_cons]
    rw [ih]

theorem dropWhile_above {p : Token → Bool} (stop : p opening = false) (inner under : List Token) :
    (inner ++ opening :: under).dropWhile p = inner.dropWhile p ++ opening :: under := by
  induction inner with
  | nil => simp [stop]
  | cons top inner ih =>
    simp only [List.cons_append, List.dropWhile_cons]
    split
    · exact ih
    · rfl

theorem Moves.sealed {t : Token} {inner emitted left : List Token}
    (moves : Moves t inner emitted left) (opens : opening.isOpen = true) (under : List Token) :
    Moves t (inner ++ opening :: under) emitted (left ++ opening :: under) := by
  have stop : (!opening.isOpen) = false := by simp [opens]
  cases moves with
  | number kind => exact .number kind
  | opening kind => exact .opening kind
  | @closing paren _ _ kind standing =>
    have below := dropWhile_above (p := fun top => !top.isOpen) stop inner under
    rw [standing, List.cons_append] at below
    rw [← takeWhile_above (p := fun top => !top.isOpen) stop inner under]
    exact .closing kind below
  | @operator o _ kind applied =>
    have kept := releases_isOpen opens o
    have moves : Moves t (inner ++ opening :: under) _ _ := .operator kind applied
    rw [takeWhile_above kept, dropWhile_above kept] at moves
    exact moves

-- Above an open parenthesis the tokens send out what they would send out without it, but for the
-- operators that only the end sends out. Those still wait there.
theorem translate_inside (opens : opening.isOpen = true)
    (finished : (translate inner ts).unpaired? = none) (under : List Token) :
    ∃ emitted left, (translate inner ts).items = emitted ++ left ∧ (∀ t ∈ left, (!t.isOpen) = true) ∧
      ∀ rest, translate (inner ++ opening :: under) (ts ++ rest) =
        (translate (left ++ opening :: under) rest).after emitted := by
  induction ts generalizing inner with
  | nil =>
    simp only [translate, List.head?_eq_none_iff, List.dropWhile_eq_nil_iff] at finished
    exact ⟨[], inner, List.takeWhile_eq_self_iff.mpr finished, finished, fun _ => rfl⟩
  | cons t ts ih =>
    rcases moves_or_unpaired t inner with ⟨sent, kept, moves⟩ | unpaired
    · rw [moves.translate] at finished ⊢
      obtain ⟨emitted, left, items, shut, goes⟩ := ih finished
      refine ⟨sent ++ emitted, left, ?_, shut, fun rest => ?_⟩
      · rw [Translation.after, items, List.append_assoc]
      · rw [List.cons_append, (moves.sealed opens under).translate, goes, Translation.after_append]
    · rw [unpaired.translate] at finished
      cases finished

theorem while_above (opens : opening.isOpen = true) (shut : ∀ t ∈ inner, (!t.isOpen) = true)
    (under : List Token) :
    (inner ++ opening :: under).takeWhile (!·.isOpen) = inner ∧
      (inner ++ opening :: under).dropWhile (!·.isOpen) = opening :: under := by
  rw [List.takeWhile_append_of_pos shut, List.dropWhile_append_of_pos shut]
  simp [opens]

theorem translate_sealed (opens : opening.isOpen = true)
    (closes : closing.kind = .operator .closeParen)
    (finished : (translate inner ts).unpaired? = none) :
    translate (inner ++ opening :: under) (ts ++ closing :: rest) =
      (translate under rest).after (translate inner ts).items := by
  obtain ⟨emitted, left, items, shut, goes⟩ := translate_inside opens finished under
  obtain ⟨above, standing⟩ := while_above opens shut under
  rw [goes, (Moves.closing closes standing).translate, above, Translation.after_append, items]

theorem translate_above (opens : opening.isOpen = true)
    (finished : (translate inner ts).unpaired? = none) (under : List Token) :
    translate (inner ++ opening :: under) ts = ⟨(translate inner ts).items, some opening⟩ := by
  obtain ⟨emitted, left, items, shut, goes⟩ := translate_inside opens finished under
  obtain ⟨above, standing⟩ := while_above opens shut under
  have whole := goes []
  rw [List.append_nil] at whole
  rw [whole, translate, above, standing, items]
  rfl

theorem applyItem_append {t : Token} {values results : List Float}
    (applied : applyItem c t values = .ok results) (below : List Float) :
    applyItem c t (values ++ below) = .ok (results ++ below) := by
  unfold applyItem at applied ⊢
  split at applied
  · cases applied; rfl
  · next o kind =>
    split at applied
    · next ran =>
      cases applied
      rw [Operator.apply_append ran below]
    · cases applied

theorem run_above {items : List Token} {values results : List Float}
    (ran : run c values items = .ok results) (below : List Float) :
    run c (values ++ below) items = .ok (results ++ below) := by
  induction items generalizing values with
  | nil => cases ran; rfl
  | cons t items ih =>
    unfold run at ran ⊢
    split at ran
    · next applied =>
      rw [applyItem_append applied below]
      exact ih ran
    · cases ran

theorem Leaves.moved {values : List Float} (left : Leaves c ts values) (k : Nat) :
    Leaves c (ts.map (Token.moved k)) values := by
  have kinds : List.Forall₂ (fun t u : Token => t.kind = u.kind) ts (ts.map (Token.moved k)) :=
    List.forall₂_map_right_iff.mpr (List.forall₂_same.mpr fun _ _ => rfl)
  exact left.related id kinds

theorem execute_eq_ok_iff {v : Float} : Engine.execute c ts = .ok v ↔ Leaves c ts [v] := by
  rw [execute_eq_result, result, Leaves]
  cases run c [] (translate [] ts).items with
  | error stop => simp
  | ok values =>
    cases (translate [] ts).unpaired? with
    | some paren => simp
    | none => rcases values with _ | ⟨a, _ | ⟨b, rest⟩⟩ <;> simp

theorem result_enclosed {v : Float} (left : Leaves c ts [v]) (opens : opening.kind = .operator .openParen)
    (closes : closing.kind = .operator .closeParen) (values : List Float) :
    result c values (translate under (opening :: (ts ++ closing :: rest))) =
      result c (v :: values) (translate under rest) := by
  obtain ⟨finished, ran⟩ := left
  have paren := Token.isOpen_iff.mpr opens
  have inside : translate ([] ++ opening :: under) (ts ++ closing :: rest) = _ :=
    translate_sealed paren closes finished
  have above := run_above ran values
  rw [List.nil_append] at inside above
  rw [translate, opens]
  simp only [inside, result_after, above, List.singleton_append]

end Postfix

namespace Engine

-- What stands between parentheses comes to the same as its value, whatever stands
-- around it and however that goes on.
theorem execute_enclosed {c : Context} {us ts ws : List Token} {opening closing number : Token}
    {v : Float} (opens : opening.kind = .operator .openParen)
    (closes : closing.kind = .operator .closeParen) (value : number.kind = .number v)
    (ran : execute c ts = .ok v) :
    execute c (us ++ opening :: (ts ++ closing :: ws)) = execute c (us ++ number :: ws) := by
  rw [execute_append, execute_append]
  cases steps c start us with
  | error stop => rfl
  | ok s =>
    have left := Postfix.execute_eq_ok_iff.mp ran
    have inside : Postfix.result c s.values
        (Postfix.translate s.pending (opening :: (ts ++ closing :: ws))) = _ :=
      Postfix.result_enclosed left opens closes s.values
    have given : Postfix.run c s.values [number] = .ok (v :: s.values) := by
      simp only [Postfix.run, Postfix.applyItem, value]
    simp only [inside, (Postfix.Moves.number value).translate, Postfix.result_after, given]

theorem execute_enclosed_product :
    execute {} [⟨['3'], 3, .number 3⟩, Operator.add.token 4, Operator.pi.token 5] =
        .ok (3 + Constant.pi) ∧
      execute {} [⟨['2'], 0, .number 2⟩, Operator.multiply.token 1, Operator.openParen.token 2,
          ⟨['3'], 3, .number 3⟩, Operator.add.token 4, Operator.pi.token 5,
          Operator.closeParen.token 7, Operator.closeParen.token 8] =
        execute {} [⟨['2'], 0, .number 2⟩, Operator.multiply.token 1,
          ⟨['6'], 2, .number (3 + Constant.pi)⟩, Operator.closeParen.token 8] :=
  ⟨rfl, @execute_enclosed {} [⟨['2'], 0, .number 2⟩, Operator.multiply.token 1]
    [⟨['3'], 3, .number 3⟩, Operator.add.token 4, Operator.pi.token 5] _ _ _ _ _ rfl rfl rfl rfl⟩

end Engine

namespace Text

def enclose (t : Text) : Text := '(' :: (t ++ [')'])

theorem normaliseFrom_enclose (afterBlank : Bool) (t : Text) :
    normaliseFrom afterBlank t.enclose = t.normalise.enclose := by
  have opens : isBlank '(' = false ∧ '('.toLower = '(' := by decide
  have closes : isBlank ')' = false ∧ ')'.toLower = ')' := by decide
  simp [enclose, normaliseFrom, normaliseFrom_append, normalise, opens, closes]

end Text

namespace Token

def enclose (start : Nat) (t : Text) (ts : List Token) : List Token :=
  Operator.openParen.token start ::
    (ts.map (moved (start + 1)) ++ [Operator.closeParen.token (start + 1 + t.byteLength)])

variable {t : Text} {ts us : List Token}

theorem Reads.enclose (reads : Reads true 0 t ts) (edge : Bool) (start : Nat) :
    Reads edge start t.enclose (Token.enclose start t ts) := by
  have apart : t.Apart [')'] := ⟨by simp [Text.dividers], by simp⟩
  have inside := reads.moved (start + 1)
  rw [Nat.zero_add] at inside
  have closing : Reads (edgeAfter true (ts.map (Token.moved (start + 1)))) (start + 1 + t.byteLength) [')']
      [Operator.closeParen.token (start + 1 + t.byteLength)] := reads_lexeme rfl rfl
  have opening : Lexeme.first? (['('] ++ (t ++ [')'])) = some (.fixed .openParen, ['(']) := rfl
  exact Reads.token opening rfl (inside.append apart closing)

theorem tokenize_behind_blank {u w : Text} {ws : Nat → List Token}
    (read : tokenize u.normalise = .ok us) (visible : (Text.normaliseFrom true w).head? ≠ some ' ')
    (reads : ∀ edge start, Reads edge start (Text.normaliseFrom true w) (ws start)) :
    ∃ start, tokenize (u ++ ' ' :: w).normalise = .ok (us ++ ws start) := by
  obtain ⟨stem, ending, same⟩ := Text.exists_stem u
  have apart (rest : Text) : stem.Apart (' ' :: rest) :=
    ⟨by simp [Text.dividers], fun last => absurd last ending⟩
  have stemmed := (tokenize_stem ending same).mp read
  refine ⟨0 + stem.byteLength + 1, ?_⟩
  rw [Text.normalise_blank_append same, tokenize_eq_ok_iff]
  exact stemmed.append (apart _) (Reads.space visible (reads _ _))

end Token

end InfixCalculator

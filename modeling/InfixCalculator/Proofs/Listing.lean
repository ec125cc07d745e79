import InfixCalculator.Proofs.Correspondence
import InfixCalculator.Proofs.TokenWords
import Mathlib.Data.List.Nodup

namespace InfixCalculator

theorem trace_eq_ok_iff {t : Text} {p : Trace} :
    trace t = .ok p ↔
      ∃ ts, Token.tokenize t.normalise = .ok ts ∧ p = ⟨t.normalise, Token.listing ts⟩ := by
  cases read : Token.tokenize t.normalise with
  | error hole => simp [trace, read]
  | ok ts => simp [trace, read, eq_comm]

theorem trace_eq_error_iff {t : Text} {f : Failure} :
    trace t = .error f ↔
      ∃ hole, Token.tokenize t.normalise = .error hole ∧ f = .ofHole t.normalise hole := by
  cases read : Token.tokenize t.normalise with
  | error hole => simp [trace, read, eq_comm]
  | ok ts => simp [trace, read]

namespace Operator

theorem mem_all (o : Operator) : o ∈ all := by cases o <;> decide

theorem name_injective {o other : Operator} (same : o.entry.name = other.entry.name) :
    o = other := by
  have distinct : (all.map fun o => o.entry.name).Nodup := by decide
  exact List.inj_on_of_nodup_map distinct o.mem_all other.mem_all same

theorem name_plain (o : Operator) :
    o.entry.name ≠ [] ∧ ' ' ∉ o.entry.name ∧ ∀ c ∈ o.entry.name, c.isDigit = false := by
  cases o <;> simp [entry]

end Operator

namespace Token

variable {edge : Bool} {t u : Token} {ts us : List Token}

theorem label_number {v : Float} (kind : t.kind = .number v) : t.label = t.text := by
  simp only [label, kind]

theorem label_operator {o : Operator} (kind : t.kind = .operator o) : t.label = o.entry.name := by
  simp only [label, kind]

inductive Listed (t : Token) : Prop
  | number : Numeral.IsNumeral t.label → t.kind = .number (Numeral.value t.label) → Listed t
  | operator : t.kind = .operator o → t.label = o.entry.name → Listed t

theorem listed_of_proper (proper : t.word.Proper edge) : t.Listed := by
  generalize same : t.word = w at proper
  cases proper with
  | @number numeral written =>
    have text : t.text = numeral := congrArg Word.text same
    have kind : t.kind = .number (Numeral.value numeral) := congrArg Word.kind same
    have label : t.label = numeral := (label_number kind).trans text
    exact .number (label ▸ written) (label ▸ kind)
  | operator =>
    have kind : t.kind = .operator _ := congrArg Word.kind same
    exact .operator kind (label_operator kind)

theorem Reads.listed_tokens {start : Nat} {text : Text} (reads : Reads edge start text ts) :
    ∀ t ∈ ts, t.Listed := by
  intro t member
  obtain ⟨_, proper⟩ := reads.proper_of_mem member
  exact listed_of_proper proper

theorem Listed.label_plain (listed : t.Listed) : t.label ≠ [] ∧ ' ' ∉ t.label := by
  cases listed with
  | number written =>
    have legible := Word.legible_number written true
    exact ⟨legible.nonempty, legible.not_space⟩
  | @operator o _ label =>
    obtain ⟨some, unspaced, _⟩ := o.name_plain
    rw [label]
    exact ⟨some, unspaced⟩

theorem Listed.kind_of_label (listed : t.Listed) (other : u.Listed) (same : t.label = u.label) :
    t.kind = u.kind := by
  have apart (o : Operator) : ¬ Numeral.IsNumeral o.entry.name := by
    intro written
    obtain ⟨front, d, parts, digit⟩ := written.last
    have plain := o.name_plain.2.2 d (by simp [parts])
    rw [digit] at plain
    cases plain
  cases listed with
  | number written kind =>
    cases other with
    | number _ again => rw [kind, again, same]
    | operator _ label =>
      rw [same, label] at written
      exact absurd written (apart _)
  | operator kind label =>
    cases other with
    | number written =>
      rw [← same, label] at written
      exact absurd written (apart _)
    | operator again later =>
      have names := label.symm.trans (same.trans later)
      rw [kind, again, Operator.name_injective names]

theorem kinds_of_labels (listed : ∀ t ∈ ts, t.Listed) (others : ∀ u ∈ us, u.Listed)
    (same : ts.map label = us.map label) : ts.map kind = us.map kind := by
  induction ts generalizing us with
  | nil => rw [List.map_eq_nil_iff.mp same.symm]
  | cons t ts ih =>
    cases us with
    | nil => cases same
    | cons u us =>
      obtain ⟨first, rest⟩ := List.cons.inj same
      have kinds := (listed t List.mem_cons_self).kind_of_label (others u List.mem_cons_self) first
      have behind := ih (fun t member => listed t (List.mem_cons_of_mem _ member))
        (fun u member => others u (List.mem_cons_of_mem _ member)) rest
      exact congrArg₂ List.cons kinds behind

theorem listing_eq_nil_iff (listed : ∀ t ∈ ts, t.Listed) : listing ts = [] ↔ ts = [] := by
  cases ts with
  | nil => simp [listing]
  | cons t ts =>
    have some := (listed t List.mem_cons_self).label_plain.1
    cases ts <;> simp [listing, List.intercalate_cons_cons, some]

-- The line is cut at its spaces into the labels again.
theorem labels_of_listing (listed : ∀ t ∈ ts, t.Listed) (others : ∀ u ∈ us, u.Listed)
    (same : listing ts = listing us) : ts.map label = us.map label := by
  have unspaced {ts : List Token} (listed : ∀ t ∈ ts, t.Listed) :
      ∀ text ∈ ts.map label, ' ' ∉ text := by
    intro text member
    obtain ⟨t, inside, rfl⟩ := List.mem_map.mp member
    exact (listed t inside).label_plain.2
  by_cases empty : ts = []
  · have none := (listing_eq_nil_iff others).mp (same ▸ (listing_eq_nil_iff listed).mpr empty)
    rw [empty, none]
  · have some : us ≠ [] := fun none =>
      empty ((listing_eq_nil_iff listed).mp (same ▸ (listing_eq_nil_iff others).mpr none))
    have first := List.splitOn_intercalate ' ' (unspaced listed) (by simpa using empty)
    have second := List.splitOn_intercalate ' ' (unspaced others) (by simpa using some)
    rw [← first, ← second]
    exact congrArg (List.splitOn ' ') same

end Token

-- Two expressions that are listed alike are calculated alike: the listing tells the kinds
-- of the tokens, the values of the numbers included.
theorem listing_determines {s t : Text} {p q : Trace} (first : trace s = .ok p)
    (second : trace t = .ok q) (same : p.listing = q.listing) :
    ∃ ts us, Token.tokenize s.normalise = .ok ts ∧ Token.tokenize t.normalise = .ok us ∧
      ts.map Token.kind = us.map Token.kind ∧
      ∀ c, SameOutcome ts us (evaluate c s) (evaluate c t) := by
  obtain ⟨ts, read, rfl⟩ := trace_eq_ok_iff.mp first
  obtain ⟨us, other, rfl⟩ := trace_eq_ok_iff.mp second
  have listed := (Token.tokenize_eq_ok_iff.mp read).listed_tokens
  have others := (Token.tokenize_eq_ok_iff.mp other).listed_tokens
  have labels := Token.labels_of_listing listed others same
  have kinds := Token.kinds_of_labels listed others labels
  exact ⟨ts, us, read, other, kinds, evaluate_of_kinds read other kinds⟩

theorem listing_determines_signed :
    trace ['-', 'e'] = .ok ⟨['-', 'e'], ['n', 'e', 'g', ' ', 'e']⟩ ∧
      trace ['-', '\t', '\n', 'E'] = .ok ⟨['-', ' ', 'e'], ['n', 'e', 'g', ' ', 'e']⟩ ∧
      ∃ ts us, Token.tokenize (Text.normalise ['-', 'e']) = .ok ts ∧
        Token.tokenize (Text.normalise ['-', '\t', '\n', 'E']) = .ok us ∧
        ts.map Token.kind = us.map Token.kind ∧
        ∀ c, SameOutcome ts us (evaluate c ['-', 'e']) (evaluate c ['-', '\t', '\n', 'E']) := by
  have sign : Lexeme.first? (['-'] ++ ['e']) = some (.minus, ['-']) := rfl
  have constant (start : Nat) : Token.Reads true start ['e'] [Operator.euler.token start] :=
    Token.reads_lexeme rfl rfl
  have joined := Token.tokenize_eq_ok_iff.mpr (Token.Reads.token sign rfl (constant _))
  have legible : Word.AllLegible true [Operator.minusSign.word, Operator.euler.word] :=
    .cons (Word.legible_operator rfl) (.cons (Word.legible_operator rfl) .nil)
  have spaced := Token.tokenize_eq_ok_iff.mpr (legible.reads 0)
  have first : trace ['-', 'e'] = .ok ⟨['-', 'e'], ['n', 'e', 'g', ' ', 'e']⟩ :=
    trace_eq_ok_iff.mpr ⟨_, joined, rfl⟩
  have second : trace ['-', '\t', '\n', 'E'] = .ok ⟨['-', ' ', 'e'], ['n', 'e', 'g', ' ', 'e']⟩ :=
    trace_eq_ok_iff.mpr ⟨_, spaced, rfl⟩
  exact ⟨first, second, listing_determines first second rfl⟩

end InfixCalculator

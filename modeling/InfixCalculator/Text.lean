namespace InfixCalculator

-- A text is the list of its characters. Lengths and positions that leave the
-- library are counted in UTF-8 bytes, see `Text.byteLength`.
abbrev Text := List Char

namespace Text

-- The six blanks that separate lexemes. Other Unicode spaces are not blanks:
-- they stay in the text, and no lexeme covers them.
def blanks : Text := [' ', '\t', '\n', '\r', '\x0C', '\x0B']

def isBlank (c : Char) : Bool := blanks.contains c

def normaliseFrom : (afterBlank : Bool) → Text → Text
  | _, [] => []
  | afterBlank, c :: rest =>
    if isBlank c then
      if afterBlank then normaliseFrom true rest else ' ' :: normaliseFrom true rest
    else c.toLower :: normaliseFrom false rest

-- Every run of blanks becomes one space, also at the two ends. The case of letters outside ASCII is
-- untouched.
def normalise (t : Text) : Text := normaliseFrom false t

-- The Unicode property `White_Space`, which is wider than the blanks.
def isWhiteSpace (c : Char) : Bool :=
  let n := c.toNat
  (0x09 ≤ n && n ≤ 0x0D) || n == 0x20 || n == 0x85 || n == 0xA0 || n == 0x1680 ||
    (0x2000 ≤ n && n ≤ 0x200A) || n == 0x2028 || n == 0x2029 || n == 0x202F || n == 0x205F ||
    n == 0x3000

def dropTrailing (p : Char → Bool) (t : Text) : Text := (t.reverse.dropWhile p).reverse

theorem dropTrailing_append {p : Char → Bool} {t : Text} {c : Char} (dropped : p c = true) :
    dropTrailing p (t ++ [c]) = dropTrailing p t := by
  simp [dropTrailing, dropped]

theorem dropTrailing_kept {p : Char → Bool} {t : Text} (kept : ∀ c ∈ t.getLast?, p c = false) :
    dropTrailing p t = t := by
  rcases List.eq_nil_or_concat t with rfl | ⟨front, c, rfl⟩
  · rfl
  · have last := kept c (by simp)
    simp [dropTrailing, last]

def dropTrailingSpaces (t : Text) : Text := t.dropTrailing (· == ' ')

def trim (t : Text) : Text := dropTrailing isWhiteSpace (t.dropWhile isWhiteSpace)

def lastVisible? (t : Text) : Option Char := t.reverse.find? fun c => !isWhiteSpace c

def endsInWhiteSpace (t : Text) : Bool := t.getLast?.any isWhiteSpace

def byteLength : Text → Nat
  | [] => 0
  | c :: rest => c.utf8Size + byteLength rest

def splitAtByte? : (n : Nat) → Text → Option (Text × Text)
  | 0, t => some ([], t)
  | _ + 1, [] => none
  | n + 1, c :: rest =>
    if c.utf8Size ≤ n + 1 then
      (splitAtByte? (n + 1 - c.utf8Size) rest).map fun (before, after) => (c :: before, after)
    else none

def between? (start stop : Nat) (t : Text) : Option Text :=
  if start ≤ stop then
    match t.splitAtByte? start with
    | some (_, after) => (after.splitAtByte? (stop - start)).map Prod.fst
    | none => none
  else none

end Text

-- A stretch of a text, in bytes. Nothing forces it to lie within any text, so
-- whoever shows it pulls it back into the text first.
structure Span where
  position : Nat
  length : Nat
deriving DecidableEq

namespace Span

def stop (s : Span) : Nat := s.position + s.length

def startIn (s : Span) (t : Text) : Nat := min s.position t.byteLength

def stopIn (s : Span) (t : Text) : Nat := min s.stop t.byteLength

def fragment? (s : Span) (t : Text) : Option Text := t.between? (s.startIn t) (s.stopIn t)

def indent (s : Span) (t : Text) : Nat :=
  match t.between? 0 (s.startIn t) with
  | some before => before.length
  | none => s.startIn t

-- Columns under the span, at least one. A span that cuts a character keeps its
-- own length, which may reach past the text.
def width (s : Span) (t : Text) : Nat :=
  match s.fragment? t with
  | some fragment => max fragment.length 1
  | none => max s.length 1

def underline (s : Span) (t : Text) : Text :=
  List.replicate (s.indent t) ' ' ++ List.replicate (s.width t) '^'

end Span

end InfixCalculator

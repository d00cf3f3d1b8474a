/-
# Cutting a source text into segments

A segment is the longest stretch at the front of a text that reads as one
thing: a token, a blank (white space or a comment up to its newline), a stray
character, or a string that is never closed.  `Segment.first` cuts off one
segment, `Segment.ofChars` cuts until nothing is left.  No character is lost
or invented: `first_append` says that a cut's two parts join to the text, and
`flatten_ofChars` that all segments do.
-/
import Lox.Token

namespace Lox

/-- What a stretch of source text reads as. -/
inductive SegmentKind where
  | token (kind : TokenKind)
  | blank
  | stray
  | unclosed
deriving DecidableEq, Repr

/-- A stretch of source text and what it reads as. -/
structure Segment where
  kind : SegmentKind
  text : List Char
deriving DecidableEq, Repr

namespace Segment

/-- A letter or an underscore, of ASCII only. -/
def startsWord (c : Char) : Bool := c.isAlpha || c = '_'

/-- A letter, a digit or an underscore, of ASCII only. -/
def inWord (c : Char) : Bool := c.isAlphanum || c = '_'

/-- The tokens of one character that begin no longer token. -/
def punctuation : List (Char × TokenKind) :=
  [('(', .leftParen), (')', .rightParen), ('{', .leftBrace), ('}', .rightBrace),
   ('[', .leftBracket), (']', .rightBracket), (':', .colon), (',', .comma), ('.', .dot),
   ('-', .minus), ('+', .plus), (';', .semicolon), ('*', .star), ('/', .slash)]

/-- The operators that an equals sign can extend: alone, and extended. -/
def extensible : List (Char × TokenKind × TokenKind) :=
  [('!', .bang, .bangEqual), ('=', .equal, .equalEqual), ('<', .less, .lessEqual),
   ('>', .greater, .greaterEqual)]

/-- The fraction at the front of a text: a point and at least one digit. -/
def fraction : List Char → List Char
  | '.' :: d :: r => if d.isDigit then '.' :: d :: r.takeWhile Char.isDigit else []
  | _ => []

/-- The digits at the front of a text, with a fraction if one follows. -/
def numeral (cs : List Char) : List Char :=
  cs.takeWhile Char.isDigit ++ fraction (cs.dropWhile Char.isDigit)

/-- The segment that a quote opens, `cs` being the text after the quote. -/
def quoted (cs : List Char) : Segment :=
  if '"' ∈ cs then ⟨.token .string, '"' :: cs.takeWhile (· ≠ '"') ++ ['"']⟩
  else ⟨.unclosed, '"' :: cs⟩

/-- The segment of an operator, which takes an equals sign if one follows. -/
def operator (c : Char) (alone extended : TokenKind) : List Char → Segment
  | '=' :: _ => ⟨.token extended, [c, '=']⟩
  | _ => ⟨.token alone, [c]⟩

/-- The segment at the front of the text `c :: cs`. -/
def first (c : Char) (cs : List Char) : Segment :=
  if c = ' ' ∨ c = '\r' ∨ c = '\t' ∨ c = '\n' then ⟨.blank, [c]⟩
  else if c = '/' ∧ cs.head? = some '/' then ⟨.blank, c :: cs.takeWhile (· ≠ '\n')⟩
  else if c = '"' then quoted cs
  else if c.isDigit then ⟨.token .number, numeral (c :: cs)⟩
  else if startsWord c then
    let word := c :: cs.takeWhile inWord
    ⟨.token (.ofWord (String.ofList word)), word⟩
  else match extensible.lookup c with
    | some (alone, extended) => operator c alone extended cs
    | none => match punctuation.lookup c with
      | some kind => ⟨.token kind, [c]⟩
      | none => ⟨.stray, [c]⟩

/-! ## Every cut takes something, and takes it from the front -/

theorem fraction_prefix (cs : List Char) : fraction cs <+: cs := by
  unfold fraction
  split
  · rename_i d r
    split
    · simpa using List.takeWhile_prefix _
    · exact List.nil_prefix
  · exact List.nil_prefix

theorem numeral_prefix (cs : List Char) : numeral cs <+: cs := by
  obtain ⟨r, hr⟩ := fraction_prefix (cs.dropWhile Char.isDigit)
  exact ⟨r, by rw [numeral, List.append_assoc, hr, List.takeWhile_append_dropWhile]⟩

theorem quoted_prefix (cs : List Char) : (quoted cs).text <+: '"' :: cs := by
  unfold quoted
  split
  · rename_i h
    refine ⟨(cs.dropWhile (· ≠ '"')).tail, ?_⟩
    have hd : cs.dropWhile (· ≠ '"') = '"' :: (cs.dropWhile (· ≠ '"')).tail := by
      induction cs with
      | nil => simp at h
      | cons c r ih =>
        by_cases hc : c = '"'
        · simp [hc]
        · simpa [hc] using ih (by simpa [Ne.symm hc] using h)
    have := List.takeWhile_append_dropWhile (p := (· ≠ '"')) (l := cs)
    rw [hd] at this
    simpa using this
  · exact List.prefix_rfl

theorem operator_prefix (c : Char) (a e : TokenKind) (cs : List Char) :
    (operator c a e cs).text <+: c :: cs := by
  unfold operator
  split <;> simp

/-- A segment is a front of its text. -/
theorem first_prefix (c : Char) (cs : List Char) : (first c cs).text <+: c :: cs := by
  unfold first
  repeat' split
  · simp
  · simpa using List.takeWhile_prefix _
  · rename_i h; subst h; exact quoted_prefix cs
  · exact numeral_prefix _
  · simpa using List.takeWhile_prefix _
  · exact operator_prefix ..
  · simp
  · simp

/-- A segment is not empty. -/
theorem first_ne_nil (c : Char) (cs : List Char) : (first c cs).text ≠ [] := by
  unfold first quoted operator
  repeat' split
  all_goals simp
  rename_i h
  simp [numeral, h]

/-- What a text holds after its first segment. -/
def rest (c : Char) (cs : List Char) : List Char :=
  (c :: cs).drop (first c cs).text.length

theorem first_append (c : Char) (cs : List Char) :
    (first c cs).text ++ rest c cs = c :: cs := by
  obtain ⟨r, hr⟩ := first_prefix c cs
  rw [rest, ← hr]
  simp

theorem length_rest (c : Char) (cs : List Char) :
    (rest c cs).length < (c :: cs).length := by
  have := List.length_pos_iff.2 (first_ne_nil c cs)
  simp only [rest, List.length_drop, List.length_cons]
  omega

/-- All segments of a text, in order. -/
def ofChars : List Char → List Segment
  | [] => []
  | c :: cs => first c cs :: ofChars (rest c cs)
termination_by cs => cs.length
decreasing_by exact length_rest c cs

/-- Induction on the segments of a text: what holds of the rest behind the first
segment holds of the text. -/
@[elab_as_elim]
theorem ofChars_induct {P : List Char → Prop} (nil : P [])
    (cons : ∀ c cs, P (rest c cs) → P (c :: cs)) (cs : List Char) : P cs :=
  ofChars.induct P nil cons cs

/-- The segments join to the text. -/
theorem flatten_ofChars (cs : List Char) : ((ofChars cs).map text).flatten = cs := by
  induction cs using ofChars_induct with
  | nil => simp only [ofChars, List.map_nil, List.flatten_nil]
  | cons c cs ih => rw [ofChars, List.map_cons, List.flatten_cons, ih, first_append]

end Segment

end Lox

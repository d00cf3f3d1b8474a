/-
# Tokens written back

A token is written back as it was spelled: its lexeme, between quotes if it is a string.
`Spelled` says that the spelling has the shape of the token's kind, as that of a scanned
token has.

No shape but that of a string goes on over a blank, and no token's shape reaches beyond
its last quote.  So spelled tokens with blanks between them are cut where they were joined,
and a text that is written back so has the same tokens as before: `scan_respaced`.  The
induction is on the tokens, each of which is cut off before the rest is looked at.
-/
import Lox.Proofs.Tiling

namespace Lox

/-! ## Spellings -/

/-- The characters that a token is written with. -/
def Token.spelling (t : Token) : List Char :=
  if t.kind = .string then '"' :: (t.lexeme.toList ++ ['"']) else t.lexeme.toList

/-- What a token is, wherever it stands. -/
def Token.content (t : Token) : TokenKind × String := (t.kind, t.lexeme)

/-- A token that is written as tokens of its kind are. -/
def Token.Spelled (t : Token) : Prop := Segment.Shape (.token t.kind) t.spelling

namespace Segment

/-- The lexeme of a token is what its spelling contributes. -/
theorem lexeme_spelling (t : Token) : lexeme t.kind t.spelling = t.lexeme := by
  unfold lexeme Token.spelling
  split <;> simp

/-- What is cut off as a token is the spelling of the token. -/
theorem spelling_of_shape {kind : TokenKind} {text : List Char} (h : Shape (.token kind) text)
    (p : Position) : (⟨kind, lexeme kind text, p⟩ : Token).spelling = text := by
  by_cases hkind : kind = .string
  · subst hkind
    obtain ⟨cs, rfl⟩ := h.of_string
    simp [Token.spelling, lexeme]
  · simp [Token.spelling, lexeme, hkind]

theorem spelled_of_token? {s : Position × Segment} (h : Shape s.2.kind s.2.text) {t : Token}
    (ht : token? s = some t) : t.Spelled := by
  obtain ⟨p, kind, text⟩ := s
  cases kind with
  | token kind =>
      cases ht
      rw [Token.Spelled, spelling_of_shape h]
      exact h
  | blank | stray | unclosed => cases ht

theorem spelled_ofChars {cs : List Char} {p : Position} {t : Token}
    (h : t ∈ (place p (ofChars cs)).filterMap token?) : t.Spelled := by
  obtain ⟨s, hs, ht⟩ := List.mem_filterMap.mp h
  exact spelled_of_token? (shape_of_mem_ofChars (mem_of_mem_place hs)) ht

/-! ## A token before a blank -/

/-- The characters between tokens. -/
def blanks : List Char := [' ', '\r', '\t', '\n']

/-- Nothing follows, or a blank does. -/
def Ends (rest : List Char) : Prop := ∀ b ∈ rest.head?, b ∈ blanks

section
variable {b : Char} (hb : b ∈ blanks)
include hb

/-- A blank goes on with no token but a string. -/
theorem ends_token : b.isDigit = false ∧ inWord b = false ∧ b ≠ '=' ∧ b ≠ '.' ∧ b ≠ '/' := by
  simp only [blanks, List.mem_cons, List.not_mem_nil, or_false] at hb
  rcases hb with rfl | rfl | rfl | rfl <;> decide

theorem numeral_blank (rest : List Char) : numeral (b :: rest) = [] := by
  obtain ⟨hdigit, -, -, hdot, -⟩ := ends_token hb
  have hfraction : fraction (b :: rest) = [] := by
    unfold fraction
    split
    · rename_i heq
      exact absurd (List.cons.inj heq).1 hdot
    · rfl
  simp [numeral, hdigit, hfraction]

theorem operator_blank (c : Char) (alone extended : TokenKind) (rest : List Char) :
    operator c alone extended (b :: rest) = ⟨.token alone, [c]⟩ := by
  unfold operator
  split
  · rename_i heq
    exact absurd (List.cons.inj heq).1 (ends_token hb).2.2.1
  · rfl

theorem punctuation_blank {c : Char} {kind : TokenKind} (h : punctuation.lookup c = some kind)
    (rest : List Char) : first c (b :: rest) = ⟨.token kind, [c]⟩ := by
  have hslash : ¬ (c = '/' ∧ (b :: rest).head? = some '/') := fun h =>
    (ends_token hb).2.2.2.2 (Option.some.inj h.2)
  have hmem := mem_of_lookup h
  simp only [punctuation, List.mem_cons, Prod.mk.injEq, List.not_mem_nil, or_false] at hmem
  unfold first
  rw [if_neg hslash]
  rcases hmem with ⟨rfl, rfl⟩ | ⟨rfl, rfl⟩ | ⟨rfl, rfl⟩ | ⟨rfl, rfl⟩ | ⟨rfl, rfl⟩ | ⟨rfl, rfl⟩ |
    ⟨rfl, rfl⟩ | ⟨rfl, rfl⟩ | ⟨rfl, rfl⟩ | ⟨rfl, rfl⟩ | ⟨rfl, rfl⟩ | ⟨rfl, rfl⟩ | ⟨rfl, rfl⟩ |
    ⟨rfl, rfl⟩ <;> rfl

end

/-- A token is cut off whole before a blank and at the end of a text. -/
theorem Shape.first_of_ends {kind : TokenKind} {c : Char} {cs rest : List Char}
    (h : Shape (.token kind) (c :: cs)) (hrest : Ends rest) :
    first c (cs ++ rest) = ⟨.token kind, c :: cs⟩ := by
  cases rest with
  | nil => rw [List.append_nil, h.first_eq]
  | cons b rest =>
      have hb : b ∈ blanks := hrest b rfl
      obtain ⟨hdigit, hword, -⟩ := ends_token hb
      cases h with
      | string h =>
          rw [List.append_assoc, List.singleton_append, first_quote, quoted_closed h]
      | whole h =>
          rw [first_digit (h _ List.mem_cons_self), ← List.cons_append, numeral_whole h,
            numeral_blank hb, List.append_nil]
      | @decimal _ ds e es h hes =>
          have hnumeral := numeral_whole h ('.' :: e :: (es ++ b :: rest))
          rw [numeral_decimal hes, List.takeWhile_cons_of_neg (by simp [hdigit]),
            List.append_nil] at hnumeral
          rw [first_digit (h _ List.mem_cons_self)]
          simpa using hnumeral
      | word hc hcs =>
          rw [first_word hc, List.takeWhile_append_of_pos hcs,
            List.takeWhile_cons_of_neg (by simp [hword]), List.append_nil]
      | alone h => rw [first_extensible h, List.nil_append, operator_blank hb]
      | extended h =>
          rw [first_extensible h]
          rfl
      | punctuation h => exact punctuation_blank hb h rest

theorem Shape.ne_nil {kind : SegmentKind} {text : List Char} (h : Shape kind text) : text ≠ [] := by
  cases h <;> exact List.cons_ne_nil _ _

theorem ofChars_token {kind : TokenKind} {text rest : List Char} (h : Shape (.token kind) text)
    (hrest : Ends rest) : ofChars (text ++ rest) = ⟨.token kind, text⟩ :: ofChars rest := by
  obtain ⟨c, cs, rfl⟩ := List.exists_cons_of_ne_nil h.ne_nil
  have hfirst := h.first_of_ends hrest
  have hcut := first_append c (cs ++ rest)
  rw [hfirst] at hcut
  rw [List.cons_append, ofChars, hfirst, List.append_cancel_left hcut]

theorem ofChars_blank {b : Char} (hb : b ∈ blanks) (rest : List Char) :
    ofChars (b :: rest) = ⟨.blank, [b]⟩ :: ofChars rest := by
  have hcut := first_append b rest
  rw [first_space hb] at hcut
  rw [ofChars, first_space hb, List.append_cancel_left hcut]

/-! ## The tokens of a text -/

/-- Wherever the text stands, it has no errors, and these are its tokens. -/
def Scans (text : List Char) (contents : List (TokenKind × String)) : Prop :=
  ∀ p, (place p (ofChars text)).filterMap error? = [] ∧
    ((place p (ofChars text)).filterMap token?).map Token.content = contents

theorem scans_nil : Scans [] [] := by
  intro p
  rw [ofChars]
  exact ⟨rfl, rfl⟩

theorem scans_blanks {gap text : List Char} {contents : List (TokenKind × String)}
    (hgap : ∀ b ∈ gap, b ∈ blanks) (h : Scans text contents) : Scans (gap ++ text) contents := by
  induction gap with
  | nil => exact h
  | cons b gap ih =>
      obtain ⟨hb, hgap⟩ := List.forall_mem_cons.mp hgap
      intro p
      rw [List.cons_append, ofChars_blank hb]
      exact ih hgap _

theorem scans_token {t : Token} {rest : List Char} {contents : List (TokenKind × String)}
    (ht : t.Spelled) (hrest : Ends rest) (h : Scans rest contents) :
    Scans (t.spelling ++ rest) (t.content :: contents) := by
  intro p
  obtain ⟨herrors, htokens⟩ := h (p.after t.spelling)
  rw [ofChars_token ht hrest, place]
  refine ⟨herrors, ?_⟩
  show (⟨t.kind, lexeme t.kind t.spelling, p⟩ : Token).content :: List.map Token.content _ = _
  rw [htokens, lexeme_spelling]
  rfl

end Segment

/-! ## Texts with blanks between their tokens -/

namespace Token

open Segment

/-- The tokens, as they are spelled, one after the other.  Blanks may follow each of them, and
do unless it is the last. -/
inductive Spaced : List Token → List Char → Prop
  | nil : Spaced [] []
  | cons {t gap ts text} : (∀ b ∈ gap, b ∈ blanks) → (ts ≠ [] → gap ≠ []) → Spaced ts text →
      Spaced (t :: ts) (t.spelling ++ (gap ++ text))

theorem scans_spaced {ts : List Token} {text : List Char} (h : Spaced ts text)
    (hts : ∀ t ∈ ts, t.Spelled) : Scans text (ts.map content) := by
  induction h with
  | nil => exact scans_nil
  | @cons t gap ts text hgap hne hspaced ih =>
      obtain ⟨ht, hts⟩ := List.forall_mem_cons.mp hts
      refine scans_token ht ?_ (scans_blanks hgap (ih hts))
      cases gap with
      | cons b gap =>
          rintro _ ⟨⟩
          exact hgap b List.mem_cons_self
      | nil =>
          obtain rfl : ts = [] := by
            by_contra hmore
            exact hne hmore rfl
          cases hspaced
          exact nofun

/-- The tokens of a text, written back with blanks between them and perhaps around them, are
scanned to the same tokens: the kinds and the lexemes are those that they were, with the end
of the text after them. -/
theorem scan_respaced {source : String} {tokens : List Token} (h : scan source = .ok tokens) :
    ∃ (ts : List Token) (e : Token), tokens = ts ++ [e] ∧ e.content = (.eof, "") ∧
      (∀ t ∈ ts, t.kind ≠ .eof) ∧
      ∀ before text, (∀ b ∈ before, b ∈ blanks) → Spaced ts text →
        ∃ (us : List Token) (e' : Token), scan (String.ofList (before ++ text)) = .ok (us ++ [e']) ∧
          us.map content = ts.map content ∧ e'.content = (.eof, "") := by
  obtain ⟨-, rfl⟩ := scan_eq_ok h
  refine ⟨_, _, rfl, rfl, fun t ht => (written_ofChars ht).kind, ?_⟩
  intro before text hbefore htext
  obtain ⟨herrors, htokens⟩ :=
    scans_blanks hbefore (scans_spaced htext fun t => spelled_ofChars) .start
  refine ⟨_, endOf (before ++ text), ?_, htokens, rfl⟩
  unfold scan
  rw [String.toList_ofList]
  dsimp only
  rw [herrors]

theorem scan_pointed : scan "1 .5\"//\"" = .ok ([⟨.number, "1", ⟨1, 1⟩⟩, ⟨.dot, ".", ⟨1, 3⟩⟩,
    ⟨.number, "5", ⟨1, 4⟩⟩, ⟨.string, "//", ⟨1, 5⟩⟩] ++ [⟨.eof, "", ⟨1, 9⟩⟩]) := by
  decide +kernel

/-- A point between two numbers, and a string that holds what would be a comment, stay what they
are when they are written back. -/
theorem scan_respaced_pointed :
    ∃ (us : List Token) (e' : Token), scan " 1\n. 5\t\"//\"" = .ok (us ++ [e']) ∧
      us.map content = [(.number, "1"), (.dot, "."), (.number, "5"), (.string, "//")] := by
  obtain ⟨ts, e, htokens, -, -, hspaced⟩ := scan_respaced scan_pointed
  obtain ⟨rfl, -⟩ := List.append_inj' htokens rfl
  have hgap : ∀ b ∈ blanks, ∀ c ∈ [b], c ∈ blanks := fun b hb => List.forall_mem_singleton.mpr hb
  have hspaced' := hspaced [' '] _ (hgap ' ' (by decide))
    (.cons (hgap '\n' (by decide)) (fun _ => List.cons_ne_nil _ _)
      (.cons (hgap ' ' (by decide)) (fun _ => List.cons_ne_nil _ _)
        (.cons (hgap '\t' (by decide)) (fun _ => List.cons_ne_nil _ _)
          (.cons (List.forall_mem_nil _) (absurd rfl) .nil))))
  obtain ⟨us, e', hus, hcontents, -⟩ := hspaced'
  exact ⟨us, e', hus, hcontents⟩

end Token

end Lox

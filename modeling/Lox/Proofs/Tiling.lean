/-
# The tiling of a source text

What a token, a blank or an error looks like is said without the scanner
(`Segment.Shape`), and so is where a character stands: by the newlines before it
and by what follows the last of them (`Position.behind`).  A tiling cuts a text
into stretches that follow one another, each with a shape and none that could be
longer.  A text has just one, and the scanner's tokens and errors are those of
its tiles.  The induction is on the text, one tile after another.
-/
import Lox.Proofs.Scan
import Mathlib.Data.List.Induction
import Mathlib.Data.List.Nodup

namespace Lox

namespace Position

/-- The place behind a text, counted from its newlines and from what follows the
last of them. -/
def behind (text : List Char) : Position :=
  ⟨1 + text.count '\n', 1 + (text.reverse.takeWhile (· ≠ '\n')).length⟩

theorem behind_concat (text : List Char) (c : Char) :
    behind (text ++ [c]) = (behind text).advance c := by
  unfold behind advance
  by_cases hc : c = '\n'
  · subst hc
    simp [Nat.add_assoc]
  · simp [hc, Nat.add_assoc]

theorem after_start (text : List Char) : start.after text = behind text := by
  induction text using List.reverseRecOn with
  | nil => rfl
  | append_singleton text c ih =>
      rw [after_append, ih, behind_concat]
      rfl

theorem behind_append (s t : List Char) : behind (s ++ t) = (behind s).after t := by
  rw [← after_start, after_append, after_start]

example : behind "say \"a\nbc\"".toList = ⟨2, 4⟩ := by decide

end Position

namespace Segment

/-! ## Shapes -/

/-- A character that none of the other segments begins with. -/
def Strays (c : Char) : Prop :=
  c ∉ [' ', '\r', '\t', '\n', '"'] ∧ c.isDigit = false ∧ startsWord c = false ∧
    extensible.lookup c = none ∧ punctuation.lookup c = none

/-- What segments look like. -/
inductive Shape : SegmentKind → List Char → Prop
  | space {c} : c ∈ [' ', '\r', '\t', '\n'] → Shape .blank [c]
  | comment {cs} : '\n' ∉ cs → Shape .blank ('/' :: '/' :: cs)
  | string {cs} : '"' ∉ cs → Shape (.token .string) ('"' :: (cs ++ ['"']))
  | unclosed {cs} : '"' ∉ cs → Shape .unclosed ('"' :: cs)
  | whole {d ds} : (∀ x ∈ d :: ds, x.isDigit = true) → Shape (.token .number) (d :: ds)
  | decimal {d ds e es} : (∀ x ∈ d :: ds, x.isDigit = true) → (∀ x ∈ e :: es, x.isDigit = true) →
      Shape (.token .number) (d :: (ds ++ '.' :: e :: es))
  | word {c cs} : startsWord c = true → (∀ x ∈ cs, inWord x = true) →
      Shape (.token (.ofWord (String.ofList (c :: cs)))) (c :: cs)
  | alone {c a e} : extensible.lookup c = some (a, e) → Shape (.token a) [c]
  | extended {c a e} : extensible.lookup c = some (a, e) → Shape (.token e) [c, '=']
  | punctuation {c k} : punctuation.lookup c = some k → Shape (.token k) [c]
  | stray {c} : Strays c → Shape .stray [c]

/-! ## The first segment has a shape -/

theorem not_isDigit_of_startsWord {c : Char} (h : startsWord c = true) : c.isDigit = false := by
  by_contra hd
  have hletter : c.isAlpha = (decide (c.val ≥ 'A'.val ∧ c.val ≤ 'Z'.val) ||
      (decide (c.val ≥ 'a'.val) && decide (c.val ≤ 'z'.val))) := rfl
  simp [startsWord, hletter, Char.isDigit] at h hd
  rcases h with (h | h) | h
  · have := h.1; simp only [UInt32.le_iff_toNat_le] at *; simp at *; omega
  · have := h.1; simp only [UInt32.le_iff_toNat_le] at *; simp at *; omega
  · subst h; simp at hd

theorem shape_quoted (cs : List Char) : Shape (quoted cs).kind (quoted cs).text := by
  unfold quoted
  split
  · exact .string fun h => by simpa using List.mem_takeWhile_imp h
  · exact .unclosed ‹_›

theorem fraction_cases (cs : List Char) :
    fraction cs = [] ∨ ∃ e es, fraction cs = '.' :: e :: es ∧ ∀ x ∈ e :: es, x.isDigit = true := by
  unfold fraction
  split
  · split
    · refine .inr ⟨_, _, rfl, List.forall_mem_cons.mpr ⟨‹_›, fun x hx => List.mem_takeWhile_imp hx⟩⟩
    · exact .inl rfl
  · exact .inl rfl

theorem shape_numeral {d : Char} {cs : List Char} (hd : d.isDigit = true) :
    Shape (.token .number) (numeral (d :: cs)) := by
  have htake : (d :: cs).takeWhile Char.isDigit = d :: cs.takeWhile Char.isDigit :=
    List.takeWhile_cons_of_pos hd
  have hdigits : ∀ x ∈ d :: cs.takeWhile Char.isDigit, x.isDigit = true :=
    List.forall_mem_cons.mpr ⟨hd, fun x hx => List.mem_takeWhile_imp hx⟩
  rw [numeral, htake]
  rcases fraction_cases ((d :: cs).dropWhile Char.isDigit) with hf | ⟨e, es, hf, hes⟩
  · rw [hf, List.append_nil]
    exact .whole hdigits
  · rw [hf]
    exact .decimal hdigits hes

/-- The first segment of a text has the shape of its kind. -/
theorem shape_first (c : Char) (cs : List Char) : Shape (first c cs).kind (first c cs).text := by
  unfold first
  split
  · rename_i h
    exact .space (by simpa using h)
  · rename_i hblank
    split
    · rename_i h
      obtain ⟨rfl, hslash⟩ := h
      obtain ⟨cs, rfl⟩ : ∃ r, cs = '/' :: r := by
        cases cs with
        | nil => cases hslash
        | cons d r =>
            cases hslash
            exact ⟨r, rfl⟩
      exact .comment fun h => by simpa using List.mem_takeWhile_imp h
    · split
      · exact shape_quoted cs
      · rename_i hquote
        split
        · exact shape_numeral ‹_›
        · rename_i hdigit
          split
          · exact .word ‹_› fun x hx => List.mem_takeWhile_imp hx
          · rename_i hword
            split
            · rename_i hext
              unfold operator
              split
              · exact .extended hext
              · exact .alone hext
            · rename_i hext
              split
              · exact .punctuation ‹_›
              · rename_i hpunct
                refine .stray ⟨?_, by simpa using hdigit, by simpa using hword, hext, hpunct⟩
                simp only [List.mem_cons, List.not_mem_nil, or_false] at hblank ⊢
                tauto

/-! ## How a segment begins says what is cut off -/

theorem first_space {c : Char} (h : c ∈ [' ', '\r', '\t', '\n']) (cs : List Char) :
    first c cs = ⟨.blank, [c]⟩ :=
  if_pos (by simpa using h)

theorem first_comment (cs : List Char) :
    first '/' ('/' :: cs) = ⟨.blank, '/' :: '/' :: cs.takeWhile (· ≠ '\n')⟩ := rfl

theorem first_quote (cs : List Char) : first '"' cs = quoted cs := rfl

theorem first_digit {d : Char} (hd : d.isDigit = true) (cs : List Char) :
    first d cs = ⟨.token .number, numeral (d :: cs)⟩ := by
  have hne : ∀ c ∈ [' ', '\r', '\t', '\n', '/', '"'], d ≠ c := by
    rintro c hc rfl
    have hno : ([' ', '\r', '\t', '\n', '/', '"'].all fun c => !c.isDigit) = true := by decide
    have hdigit := List.all_eq_true.mp hno _ hc
    rw [hd] at hdigit
    cases hdigit
  unfold first
  simp only [List.forall_mem_cons] at hne
  simp [hne, hd]

theorem first_word {c : Char} (hc : startsWord c = true) (cs : List Char) :
    first c cs = ⟨.token (.ofWord (String.ofList (c :: cs.takeWhile inWord))),
      c :: cs.takeWhile inWord⟩ := by
  have hne : ∀ d ∈ [' ', '\r', '\t', '\n', '/', '"'], c ≠ d := by
    rintro d hd rfl
    have hno : ([' ', '\r', '\t', '\n', '/', '"'].all fun d => !startsWord d) = true := by decide
    have hword := List.all_eq_true.mp hno _ hd
    rw [hc] at hword
    cases hword
  unfold first
  simp only [List.forall_mem_cons] at hne
  simp [hne, hc, not_isDigit_of_startsWord hc]

theorem first_extensible {c : Char} {a e : TokenKind} (h : extensible.lookup c = some (a, e))
    (cs : List Char) : first c cs = operator c a e cs := by
  have hmem := mem_of_lookup h
  simp only [extensible, List.mem_cons, Prod.mk.injEq, List.not_mem_nil, or_false] at hmem
  rcases hmem with ⟨rfl, rfl, rfl⟩ | ⟨rfl, rfl, rfl⟩ | ⟨rfl, rfl, rfl⟩ | ⟨rfl, rfl, rfl⟩ <;> rfl

theorem first_punctuation {c : Char} {kind : TokenKind} (h : punctuation.lookup c = some kind) :
    first c [] = ⟨.token kind, [c]⟩ := by
  have hmem := mem_of_lookup h
  simp only [punctuation, List.mem_cons, Prod.mk.injEq, List.not_mem_nil, or_false] at hmem
  rcases hmem with ⟨rfl, rfl⟩ | ⟨rfl, rfl⟩ | ⟨rfl, rfl⟩ | ⟨rfl, rfl⟩ | ⟨rfl, rfl⟩ | ⟨rfl, rfl⟩ |
    ⟨rfl, rfl⟩ | ⟨rfl, rfl⟩ | ⟨rfl, rfl⟩ | ⟨rfl, rfl⟩ | ⟨rfl, rfl⟩ | ⟨rfl, rfl⟩ | ⟨rfl, rfl⟩ |
    ⟨rfl, rfl⟩ <;> rfl

theorem first_stray {c : Char} (h : Strays c) : first c [] = ⟨.stray, [c]⟩ := by
  obtain ⟨hne, hdigit, hword, hext, hpunct⟩ := h
  simp only [List.mem_cons, List.not_mem_nil, or_false, not_or] at hne
  simp [first, hne, hdigit, hword, hext, hpunct]

/-! ## Each shape is cut off whole -/

theorem quoted_closed {cs : List Char} (h : '"' ∉ cs) (rest : List Char) :
    quoted (cs ++ '"' :: rest) = ⟨.token .string, '"' :: (cs ++ ['"'])⟩ := by
  have hall : ∀ c ∈ cs, decide (c ≠ '"') = true := fun c hc =>
    decide_eq_true fun he => h (he ▸ hc)
  rw [quoted, if_pos (List.mem_append_right _ List.mem_cons_self),
    List.takeWhile_append_of_pos hall]
  simp

theorem prefix_quoted {cs : List Char} (h : '"' ∉ cs) (rest : List Char) :
    '"' :: cs <+: (quoted (cs ++ rest)).text := by
  have hall : ∀ c ∈ cs, decide (c ≠ '"') = true := fun c hc =>
    decide_eq_true fun he => h (he ▸ hc)
  unfold quoted
  split
  · rw [List.takeWhile_append_of_pos hall]
    exact ⟨rest.takeWhile (· ≠ '"') ++ ['"'], by simp⟩
  · exact ⟨rest, by simp⟩

theorem numeral_whole {ds : List Char} (h : ∀ d ∈ ds, d.isDigit = true) (rest : List Char) :
    numeral (ds ++ rest) = ds ++ numeral rest := by
  rw [numeral, List.takeWhile_append_of_pos h, List.dropWhile_append_of_pos h, numeral,
    List.append_assoc]

theorem numeral_decimal {e : Char} {es : List Char} (h : ∀ d ∈ e :: es, d.isDigit = true)
    (rest : List Char) :
    numeral ('.' :: e :: (es ++ rest)) = '.' :: e :: (es ++ rest.takeWhile Char.isDigit) := by
  obtain ⟨he, hes⟩ := List.forall_mem_cons.mp h
  have hdot : Char.isDigit '.' = false := by decide
  rw [numeral, List.takeWhile_cons_of_neg (by simp [hdot]),
    List.dropWhile_cons_of_neg (by simp [hdot]), List.nil_append, fraction, if_pos he,
    List.takeWhile_append_of_pos hes]

/-- A shaped front of a text is no longer than the first segment of the text. -/
theorem Shape.prefix_first {kind : SegmentKind} {c : Char} {cs : List Char}
    (h : Shape kind (c :: cs)) (rest : List Char) : c :: cs <+: (first c (cs ++ rest)).text := by
  have hone : ∀ ds, [c] <+: (first c ds).text := fun ds => by
    obtain ⟨r, hr⟩ := first_prefix c ds
    obtain ⟨d, t, ht⟩ := List.exists_cons_of_ne_nil (first_ne_nil c ds)
    rw [ht] at hr ⊢
    cases hr
    exact ⟨t, rfl⟩
  cases h with
  | space | alone | punctuation | stray => exact hone _
  | @comment cs h =>
      have hall : ∀ c ∈ cs, decide (c ≠ '\n') = true := fun c hc =>
        decide_eq_true fun he => h (he ▸ hc)
      rw [List.cons_append, first_comment, List.takeWhile_append_of_pos hall]
      exact List.prefix_append ('/' :: '/' :: cs) _
  | @string cs h =>
      have hquoted : (first '"' (cs ++ ['"'] ++ rest)).text = '"' :: (cs ++ ['"']) := by
        rw [List.append_assoc, List.singleton_append, first_quote, quoted_closed h]
      exact hquoted ▸ List.prefix_rfl
  | unclosed h => exact prefix_quoted h rest
  | whole h =>
      rw [first_digit (h _ List.mem_cons_self)]
      dsimp only
      rw [← List.cons_append, numeral_whole h]
      exact List.prefix_append ..
  | @decimal _ ds e es h hes =>
      rw [first_digit (h _ List.mem_cons_self)]
      have hnumeral : numeral (c :: (ds ++ '.' :: e :: es ++ rest)) =
          c :: (ds ++ '.' :: e :: (es ++ rest.takeWhile Char.isDigit)) := by
        have := numeral_whole h ('.' :: e :: (es ++ rest))
        rw [numeral_decimal hes] at this
        simpa using this
      dsimp only
      rw [hnumeral]
      exact ⟨rest.takeWhile Char.isDigit, by simp⟩
  | word hc hcs =>
      rw [first_word hc, List.takeWhile_append_of_pos hcs]
      exact List.prefix_append (c :: cs) _
  | extended h =>
      rw [first_extensible h]
      exact List.prefix_rfl

/-- A shaped text is a segment of its own. -/
theorem Shape.first_eq {kind : SegmentKind} {c : Char} {cs : List Char}
    (h : Shape kind (c :: cs)) : first c cs = ⟨kind, c :: cs⟩ := by
  have htext : (first c cs).text = c :: cs := by
    have := h.prefix_first []
    rw [List.append_nil] at this
    have hfront := first_prefix c cs
    exact hfront.eq_of_length_le this.length_le
  have hkind : (first c cs).kind = kind := by
    cases h with
    | space h => rw [first_space h]
    | comment h => rfl
    | string h => rw [first_quote, quoted_closed h]
    | unclosed h => rw [first_quote, quoted, if_neg h]
    | whole h | decimal h _ => rw [first_digit (h _ List.mem_cons_self)]
    | word hc hcs =>
        rw [first_word hc, List.takeWhile_eq_self_iff.mpr hcs]
    | alone h => rw [first_extensible h]; rfl
    | extended h => rw [first_extensible h]; rfl
    | punctuation h => rw [first_punctuation h]
    | stray h => rw [first_stray h]
  cases hf : first c cs
  rw [hf] at htext hkind
  cases htext
  cases hkind
  rfl

/-! ## Tilings -/

/-- A segment in front of `rest`: it has the shape of its kind, and nothing longer
at that place has a shape. -/
structure Longest (s : Segment) (rest : List Char) : Prop where
  shaped : Shape s.kind s.text
  longest : ∀ kind more, more <+: rest → Shape kind (s.text ++ more) → more = []

/-- The tilings of a text that stands after the text `before`: the longest
segment at its front, placed by what stands before it, and a tiling of the rest. -/
inductive Tiles : List Char → List Char → List (Position × Segment) → Prop
  | nil {before} : Tiles before [] []
  | cons {before rest s tiles} : s.text ≠ [] → Longest s rest →
      Tiles (before ++ s.text) rest tiles →
      Tiles before (s.text ++ rest) ((.behind before, s) :: tiles)

theorem longest_first (c : Char) (cs : List Char) : Longest (first c cs) (rest c cs) := by
  refine ⟨shape_first c cs, fun kind more hmore hshape => ?_⟩
  obtain ⟨after, hafter⟩ := hmore
  have hsplit : ((first c cs).text ++ more) ++ after = c :: cs := by
    rw [List.append_assoc, hafter, first_append]
  obtain ⟨d, t, ht⟩ := List.exists_cons_of_ne_nil
    (List.append_ne_nil_of_left_ne_nil (first_ne_nil c cs) more)
  rw [ht] at hshape
  rw [ht, List.cons_append] at hsplit
  obtain ⟨rfl, rfl⟩ := List.cons.inj hsplit
  have hle := (hshape.prefix_first after).length_le
  rw [← ht, List.length_append] at hle
  exact List.length_eq_zero_iff.mp (by omega)

/-- The longest segment at the front of a text is the first one. -/
theorem Longest.eq_first {s : Segment} {r cs : List Char} {c : Char} (h : Longest s r)
    (hne : s.text ≠ []) (hcs : s.text ++ r = c :: cs) : s = first c cs ∧ r = rest c cs := by
  obtain ⟨kind, text⟩ := s
  obtain ⟨d, t, rfl⟩ := List.exists_cons_of_ne_nil hne
  obtain ⟨rfl, rfl⟩ := List.cons.inj hcs
  -- The first segment starts with `s`; were it longer, `s` would not be the longest.
  obtain ⟨more, hmore⟩ := h.shaped.prefix_first r
  have hrest : more ++ rest d (t ++ r) = r := by
    have happ := first_append d (t ++ r)
    rw [← hmore, List.append_assoc] at happ
    exact List.append_cancel_left happ
  have hshape := shape_first d (t ++ r)
  rw [← hmore] at hshape
  have hnil : more = [] := h.longest _ more ⟨_, hrest⟩ hshape
  subst hnil
  rw [List.append_nil] at hmore hshape
  refine ⟨?_, hrest.symm⟩
  have hkind := h.shaped.first_eq.symm.trans hshape.first_eq
  cases hf : first d (t ++ r)
  rw [hf] at hmore hkind
  cases hmore
  exact hkind

theorem tiles_place (before cs : List Char) :
    Tiles before cs (place (.behind before) (ofChars cs)) := by
  induction cs using ofChars_induct generalizing before with
  | nil =>
      rw [ofChars]
      exact .nil
  | cons c cs ih =>
      have := Tiles.cons (first_ne_nil c cs) (longest_first c cs) (ih (before ++ (first c cs).text))
      rw [first_append, Position.behind_append] at this
      rw [ofChars, place]
      exact this

/-- A text has one tiling. -/
theorem Tiles.eq_place {before cs : List Char} {tiles : List (Position × Segment)}
    (h : Tiles before cs tiles) : tiles = place (.behind before) (ofChars cs) := by
  induction h with
  | nil =>
      rw [ofChars]
      rfl
  | @cons before r s tiles hne hlongest _ ih =>
      obtain ⟨c, cs, hcs⟩ := List.exists_cons_of_ne_nil (List.append_ne_nil_of_left_ne_nil hne r)
      obtain ⟨rfl, rfl⟩ := hlongest.eq_first hne hcs
      rw [hcs, ofChars, place, ih, Position.behind_append]

/-! ## What the segments contribute -/

/-- Segments that become tokens, and the tokens: their text, less the quotes of a
string, at their place. -/
inductive Yields : Position × Segment → Token → Prop
  | string {p cs} :
      Yields (p, ⟨.token .string, '"' :: (cs ++ ['"'])⟩) ⟨.string, String.ofList cs, p⟩
  | other {p kind cs} : kind ≠ .string → Yields (p, ⟨.token kind, cs⟩) ⟨kind, String.ofList cs, p⟩

/-- Segments that are errors, and the errors, at their place. -/
inductive Reports : Position × Segment → ScanError → Prop
  | stray {p c} : Reports (p, ⟨.stray, [c]⟩) ⟨.stray c, p⟩
  | unclosed {p cs} : Reports (p, ⟨.unclosed, cs⟩) ⟨.unclosedString, p⟩

/-- The segments of a tiling that become tokens. -/
def ofTokens (tiles : List (Position × Segment)) : List (Position × Segment) :=
  tiles.filter fun s => match s.2.kind with
    | .token _ => true
    | _ => false

/-- The segments of a tiling that are errors. -/
def ofErrors (tiles : List (Position × Segment)) : List (Position × Segment) :=
  tiles.filter fun s => match s.2.kind with
    | .stray | .unclosed => true
    | _ => false

theorem Shape.of_string {text : List Char} (h : Shape (.token .string) text) :
    ∃ cs, text = '"' :: (cs ++ ['"']) := by
  generalize hkind : SegmentKind.token .string = kind at h
  cases h with
  | string => exact ⟨_, rfl⟩
  | @word c cs =>
      injection hkind with hkind
      have hne : TokenKind.ofWord (String.ofList (c :: cs)) ≠ .identifier := by
        rw [← hkind]
        decide
      exact absurd hkind.symm (reservedWords_ne _ (mem_reservedWords hne)).2.2
  | alone h | extended h =>
      injection hkind with hkind
      subst hkind
      simpa [extensible] using mem_of_lookup h
  | punctuation h =>
      injection hkind with hkind
      subst hkind
      simpa [Segment.punctuation] using mem_of_lookup h
  | _ => cases hkind

theorem yields_token? {p : Position} {kind : TokenKind} {text : List Char}
    (h : Shape (.token kind) text) :
    Yields (p, ⟨.token kind, text⟩) ⟨kind, lexeme kind text, p⟩ := by
  by_cases hkind : kind = .string
  · subst hkind
    obtain ⟨cs, rfl⟩ := h.of_string
    rw [lexeme, if_pos rfl, List.tail_cons, List.dropLast_concat]
    exact .string
  · rw [lexeme, if_neg hkind]
    exact .other hkind

theorem shape_of_mem_ofChars {cs : List Char} {s : Segment} (h : s ∈ ofChars cs) :
    Shape s.kind s.text := by
  induction cs using ofChars_induct with
  | nil =>
      rw [ofChars] at h
      cases h
  | cons c cs ih =>
      rw [ofChars] at h
      rcases List.mem_cons.mp h with rfl | h
      · exact shape_first c cs
      · exact ih h

theorem forall₂_yields {tiles : List (Position × Segment)}
    (h : ∀ s ∈ tiles, Shape s.2.kind s.2.text) :
    List.Forall₂ Yields (ofTokens tiles) (tiles.filterMap token?) := by
  induction tiles with
  | nil => exact .nil
  | cons s tiles ih =>
      obtain ⟨hs, htiles⟩ := List.forall_mem_cons.mp h
      obtain ⟨p, kind, text⟩ := s
      cases kind with
      | token kind => exact .cons (yields_token? hs) (ih htiles)
      | blank | stray | unclosed => exact ih htiles

theorem forall₂_reports {tiles : List (Position × Segment)}
    (h : ∀ s ∈ tiles, Shape s.2.kind s.2.text) :
    List.Forall₂ Reports (ofErrors tiles) (tiles.filterMap error?) := by
  induction tiles with
  | nil => exact .nil
  | cons s tiles ih =>
      obtain ⟨hs, htiles⟩ := List.forall_mem_cons.mp h
      obtain ⟨p, kind, text⟩ := s
      cases kind with
      | token | blank => exact ih htiles
      | unclosed => exact .cons .unclosed (ih htiles)
      | stray =>
          cases hs with
          | stray hs => exact .cons .stray (ih htiles)

end Segment

namespace Token

open Segment

/-- A source text has one tiling: stretches that follow one another, each the
longest that reads as one thing and placed by the newlines before it.  It has its
tokens from the tiles that are none of blank or error, and the end of the text
after them, unless a tile is an error; then it has one error for each such tile. -/
theorem scan_tiles (source : String) :
    ∃ tiles, Tiles [] source.toList tiles ∧
      (∀ others, Tiles [] source.toList others → others = tiles) ∧
      match scan source with
      | .ok tokens =>
        ofErrors tiles = [] ∧
          ∃ ts, tokens = ts ++ [⟨.eof, "", .behind source.toList⟩] ∧
            List.Forall₂ Yields (ofTokens tiles) ts ∧ ∀ t ∈ ts, t.Written
      | .error errors => errors ≠ [] ∧ List.Forall₂ Reports (ofErrors tiles) errors := by
  have hshape : ∀ s ∈ place .start (ofChars source.toList), Shape s.2.kind s.2.text :=
    fun s hs => shape_of_mem_ofChars (mem_of_mem_place hs)
  have hreports := forall₂_reports hshape
  refine ⟨_, tiles_place [] source.toList, fun others h => h.eq_place, ?_⟩
  unfold scan
  dsimp only
  cases herrors : (place .start (ofChars source.toList)).filterMap error? with
  | nil =>
      rw [herrors] at hreports
      refine ⟨?_, _, ?_, forall₂_yields hshape, fun t ht => written_ofChars ht⟩
      · exact List.forall₂_nil_right_iff.mp hreports
      · rw [endOf, Position.after_start]
        rfl
  | cons error errors =>
      rw [herrors] at hreports
      exact ⟨List.cons_ne_nil _ _, hreports⟩

end Token

end Lox

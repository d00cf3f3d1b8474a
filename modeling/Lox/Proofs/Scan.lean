/-
# Scanning two texts as one

Two texts with a newline between them are cut where each of them is cut, as long
as the first one closes its strings: a newline ends every other segment.  So the
tokens of the whole are the tokens of the first text and those of the second, a
number of lines further down: `scan_append`.

The second part is about the words that a token can be: a name is never the word
`super`, and the keyword of that name always is.
-/
import Lox.Scan
import Mathlib.Data.List.TakeWhile

namespace Lox

/-! ## Places further down -/

/-- The same place so many lines further down. -/
def Position.shift (k : Nat) (p : Position) : Position := ⟨p.line + k, p.column⟩

/-- The same token so many lines further down. -/
def Token.shift (k : Nat) (t : Token) : Token := { t with position := t.position.shift k }

theorem Position.after_shift (k : Nat) (p : Position) (text : List Char) :
    (p.shift k).after text = (p.after text).shift k := by
  induction text generalizing p with
  | nil => rfl
  | cons c text ih =>
      have hadvance : (p.shift k).advance c = (p.advance c).shift k := by
        unfold advance shift
        split
        · simp only [Nat.add_right_comm]
        · rfl
      rw [after_cons, after_cons, hadvance, ih]

theorem Position.line_after (p : Position) (text : List Char) :
    (p.after text).line = p.line + text.count '\n' := by
  induction text generalizing p with
  | nil => rfl
  | cons c text ih =>
      rw [after_cons, ih, List.count_cons]
      unfold advance
      split
      · simp only [*, beq_self_eq_true, if_true]
        omega
      · simp only [beq_iff_eq, if_neg ‹_›, Nat.add_zero]

/-- A text after another one and a newline begins so many lines further down. -/
theorem Position.after_newline (text : List Char) :
    Position.start.after (text ++ ['\n']) = Position.start.shift (text.count '\n' + 1) := by
  rw [after_append]
  show (Position.start.after text).advance '\n' = _
  unfold advance shift
  rw [if_pos rfl, line_after]
  rfl

namespace Segment

/-! ## The segments of a longer text -/

theorem takeWhile_newline {p : Char → Bool} (hp : p '\n' = false) (cs ds : List Char) :
    (cs ++ '\n' :: ds).takeWhile p = cs.takeWhile p := by
  induction cs with
  | nil => simp [hp]
  | cons c cs ih =>
      simp only [List.cons_append, List.takeWhile_cons, ih]

theorem dropWhile_newline {p : Char → Bool} (hp : p '\n' = false) (cs ds : List Char) :
    (cs ++ '\n' :: ds).dropWhile p = cs.dropWhile p ++ '\n' :: ds := by
  induction cs with
  | nil => simp [hp]
  | cons c cs ih =>
      simp only [List.cons_append, List.dropWhile_cons, ih]
      split <;> rfl

theorem fraction_newline (cs ds : List Char) :
    fraction (cs ++ '\n' :: ds) = fraction cs := by
  match cs with
  | [] => rfl
  | [c] =>
      by_cases hc : c = '.'
      · subst hc
        rfl
      · simp [fraction, hc]
  | c :: d :: r =>
      by_cases hc : c = '.'
      · subst hc
        simp only [List.cons_append, fraction]
        rw [takeWhile_newline (by decide)]
      · simp [fraction, hc]

theorem numeral_newline (cs ds : List Char) :
    numeral (cs ++ '\n' :: ds) = numeral cs := by
  have hn : Char.isDigit '\n' = false := by decide
  rw [numeral, takeWhile_newline hn, dropWhile_newline hn, fraction_newline]
  rfl

theorem operator_newline (c : Char) (a e : TokenKind) (cs ds : List Char) :
    operator c a e (cs ++ '\n' :: ds) = operator c a e cs := by
  cases cs with
  | nil => rfl
  | cons d cs =>
      by_cases hd : d = '='
      · subst hd
        rfl
      · simp [operator, hd]

theorem quoted_newline {cs : List Char} (ds : List Char)
    (h : (quoted cs).kind ≠ .unclosed) : quoted (cs ++ '\n' :: ds) = quoted cs := by
  unfold quoted at h ⊢
  by_cases hq : '"' ∈ cs
  · rw [if_pos hq, if_pos (List.mem_append_left _ hq)]
    have htake : (cs ++ '\n' :: ds).takeWhile (· ≠ '"') = cs.takeWhile (· ≠ '"') := by
      induction cs with
      | nil => exact absurd hq List.not_mem_nil
      | cons c cs ih =>
          by_cases hc : c = '"'
          · simp [hc]
          · have hmem : '"' ∈ cs := by simpa [Ne.symm hc] using hq
            have := ih (by simp [hmem]) hmem
            simpa [hc] using this
    rw [htake]
  · rw [if_neg hq] at h
    exact absurd rfl h

/-- The first segment does not get beyond a newline, unless it is a string. -/
theorem first_newline {c : Char} {cs : List Char} (ds : List Char)
    (h : (first c cs).kind ≠ .unclosed) : first c (cs ++ '\n' :: ds) = first c cs := by
  have hslash : (cs ++ '\n' :: ds).head? = some '/' ↔ cs.head? = some '/' := by
    cases cs <;> simp
  unfold first at h ⊢
  simp only [hslash]
  split
  · rfl
  · rename_i hblank
    split
    · rw [takeWhile_newline (by decide)]
    · rename_i hcomment
      split
      · rename_i hquote
        rw [if_neg hblank, if_neg hcomment, if_pos hquote] at h
        exact quoted_newline ds h
      · split
        · rw [← List.cons_append, numeral_newline]
        · split
          · rw [takeWhile_newline (by decide)]
          · split
            · rw [operator_newline]
            · rfl

theorem rest_newline {c : Char} {cs : List Char} (ds : List Char)
    (h : (first c cs).kind ≠ .unclosed) :
    rest c (cs ++ '\n' :: ds) = rest c cs ++ '\n' :: ds := by
  have htext := first_prefix c cs
  rw [rest, rest, first_newline ds h, ← List.cons_append,
    List.drop_append_of_le_length htext.length_le]

/-- A text after another one and a newline is cut by itself. -/
theorem ofChars_newline (cs ds : List Char) (h : ∀ s ∈ ofChars cs, s.kind ≠ .unclosed) :
    ofChars (cs ++ '\n' :: ds) = ofChars cs ++ ⟨.blank, ['\n']⟩ :: ofChars ds := by
  induction cs using ofChars_induct with
  | nil =>
      rw [List.nil_append, ofChars, ofChars, List.nil_append]
      rfl
  | cons c cs ih =>
      rw [ofChars] at h
      have hfirst := h _ List.mem_cons_self
      rw [List.cons_append, ofChars, first_newline ds hfirst, rest_newline ds hfirst,
        ih fun s hs => h s (List.mem_cons_of_mem _ hs), ofChars, List.cons_append]

/-! ## Placing segments -/

theorem place_append (p : Position) (as bs : List Segment) :
    place p (as ++ bs) = place p as ++ place (p.after (as.map text).flatten) bs := by
  induction as generalizing p with
  | nil => rfl
  | cons a as ih =>
      simp only [List.cons_append, place, ih, List.map_cons, List.flatten_cons,
        Position.after_append]

theorem place_shift (k : Nat) (p : Position) (as : List Segment) :
    place (p.shift k) as = (place p as).map fun s => (s.1.shift k, s.2) := by
  induction as generalizing p with
  | nil => rfl
  | cons a as ih =>
      rw [place, place, Position.after_shift, ih]
      rfl

theorem token?_shift (k : Nat) (s : Position × Segment) :
    token? (s.1.shift k, s.2) = (token? s).map (Token.shift k) := by
  obtain ⟨p, kind, text⟩ := s
  cases kind <;> rfl

theorem error?_shift {k : Nat} {s : Position × Segment} :
    error? (s.1.shift k, s.2) = none ↔ error? s = none := by
  obtain ⟨p, kind, text⟩ := s
  cases kind with
  | stray => cases text <;> simp [error?]
  | unclosed => simp [error?]
  | token | blank => rfl

theorem mem_place {p : Position} {as : List Segment} {a : Segment} (h : a ∈ as) :
    ∃ q, (q, a) ∈ place p as := by
  induction as generalizing p with
  | nil => cases h
  | cons b as ih =>
      rcases List.mem_cons.mp h with rfl | h
      · exact ⟨p, List.mem_cons_self⟩
      · obtain ⟨q, hq⟩ := ih (p := p.after b.text) h
        exact ⟨q, List.mem_cons_of_mem _ hq⟩

theorem mem_of_mem_place {p : Position} {as : List Segment} {s : Position × Segment}
    (h : s ∈ place p as) : s.2 ∈ as := by
  induction as generalizing p with
  | nil => cases h
  | cons b as ih =>
      rcases List.mem_cons.mp h with rfl | h
      · exact List.mem_cons_self
      · exact List.mem_cons_of_mem _ (ih h)

/-! ## Words -/

theorem mem_of_lookup {α β : Type} [BEq α] [LawfulBEq α] {l : List (α × β)} {a : α} {b : β}
    (h : l.lookup a = some b) : (a, b) ∈ l := by
  obtain ⟨before, later, rfl, -⟩ := List.lookup_eq_some_iff.mp h
  exact List.mem_append_right _ List.mem_cons_self

theorem mem_reservedWords {word : String} (h : TokenKind.ofWord word ≠ .identifier) :
    (word, TokenKind.ofWord word) ∈ reservedWords := by
  unfold TokenKind.ofWord at h ⊢
  cases hlookup : reservedWords.lookup word with
  | none =>
      rw [hlookup] at h
      exact absurd rfl h
  | some kind => exact mem_of_lookup hlookup

end Segment

/-- A token that a text can hold: not its end, and a reserved word if and only if
its kind is that of the word. -/
structure Token.Written (t : Token) : Prop where
  kind : t.kind ≠ .eof
  identifier : t.kind = .identifier → ∀ kind, (t.lexeme, kind) ∉ reservedWords
  keyword : ∀ word, (word, t.kind) ∈ reservedWords → t.lexeme = word

namespace Segment

/-- Every reserved word has a kind of its own. -/
theorem reservedWords_injective : ∀ a ∈ reservedWords, ∀ b ∈ reservedWords,
    a.2 = b.2 → a.1 = b.1 := by
  decide

theorem reservedWords_ne : ∀ a ∈ reservedWords, a.2 ≠ .identifier ∧ a.2 ≠ .eof ∧ a.2 ≠ .string := by
  decide

theorem written_of_kind {kind : TokenKind}
    (h : kind ∉ .eof :: .identifier :: reservedWords.map Prod.snd)
    (lexeme : String) (p : Position) : Token.Written ⟨kind, lexeme, p⟩ := by
  simp only [List.mem_cons, not_or] at h
  exact ⟨h.1, fun hk => absurd hk h.2.1,
    fun word hw => absurd (List.mem_map_of_mem hw) h.2.2⟩

theorem written_word (word : List Char) (p : Position) :
    Token.Written ⟨.ofWord (String.ofList word),
      lexeme (.ofWord (String.ofList word)) word, p⟩ := by
  have hreserved : TokenKind.ofWord (String.ofList word) ≠ .identifier →
      (String.ofList word, TokenKind.ofWord (String.ofList word)) ∈ reservedWords :=
    mem_reservedWords
  have hkind : ∀ kind ∈ [TokenKind.eof, .string],
      TokenKind.ofWord (String.ofList word) ≠ kind := by
    rintro kind hmem rfl
    have hne : TokenKind.ofWord (String.ofList word) ≠ .identifier := by
      intro h
      rw [h] at hmem
      exact absurd hmem (by decide)
    obtain ⟨-, heof, hstring⟩ := reservedWords_ne _ (hreserved hne)
    simp only [List.mem_cons, List.not_mem_nil, or_false] at hmem
    exact hmem.elim heof hstring
  have hlexeme : lexeme (.ofWord (String.ofList word)) word = String.ofList word := by
    rw [lexeme, if_neg (hkind .string (by decide))]
  rw [hlexeme]
  refine ⟨hkind .eof (by decide), ?_, ?_⟩
  · intro h kind hmem
    replace h : (reservedWords.lookup (String.ofList word)).getD .identifier = .identifier := h
    cases hlookup : reservedWords.lookup (String.ofList word) with
    | none =>
        have := List.lookup_eq_none_iff.mp hlookup _ hmem
        simp at this
    | some k =>
        rw [hlookup] at h
        exact (reservedWords_ne _ (mem_of_lookup hlookup)).1 h
  · intro other hmem
    have hne := (reservedWords_ne _ hmem).1
    exact reservedWords_injective _ (hreserved hne) _ hmem rfl

theorem written_operator {c : Char} {a e : TokenKind} (h : (c, a, e) ∈ extensible)
    (cs : List Char) {p : Position} {t : Token} (ht : token? (p, operator c a e cs) = some t) :
    t.Written := by
  have hkinds : a ∉ .eof :: .identifier :: reservedWords.map Prod.snd ∧
      e ∉ .eof :: .identifier :: reservedWords.map Prod.snd := by
    simp only [extensible, List.mem_cons, Prod.mk.injEq, List.not_mem_nil, or_false] at h
    rcases h with ⟨-, rfl, rfl⟩ | ⟨-, rfl, rfl⟩ | ⟨-, rfl, rfl⟩ | ⟨-, rfl, rfl⟩ <;> decide
  unfold operator at ht
  split at ht
  · cases ht
    exact written_of_kind hkinds.2 _ p
  · cases ht
    exact written_of_kind hkinds.1 _ p

theorem written_first {c : Char} {cs : List Char} {p : Position} {t : Token}
    (h : token? (p, first c cs) = some t) : t.Written := by
  unfold first at h
  split at h
  · cases h
  · split at h
    · cases h
    · split at h
      · unfold quoted at h
        split at h
        · cases h
          exact written_of_kind (by decide) _ p
        · cases h
      · split at h
        · cases h
          exact written_of_kind (by decide) _ p
        · split at h
          · cases h
            exact written_word _ p
          · split at h
            · exact written_operator (mem_of_lookup ‹_›) cs h
            · split at h
              · rename_i kind hkind
                have hmem := mem_of_lookup hkind
                cases h
                refine written_of_kind ?_ _ p
                simp only [punctuation, List.mem_cons, Prod.mk.injEq, List.not_mem_nil,
                  or_false] at hmem
                rcases hmem with ⟨-, rfl⟩ | ⟨-, rfl⟩ | ⟨-, rfl⟩ | ⟨-, rfl⟩ | ⟨-, rfl⟩ | ⟨-, rfl⟩ |
                  ⟨-, rfl⟩ | ⟨-, rfl⟩ | ⟨-, rfl⟩ | ⟨-, rfl⟩ | ⟨-, rfl⟩ | ⟨-, rfl⟩ | ⟨-, rfl⟩ |
                  ⟨-, rfl⟩ <;> decide
              · cases h

theorem written_ofChars {cs : List Char} {p : Position} {t : Token}
    (h : t ∈ (place p (ofChars cs)).filterMap token?) : t.Written := by
  obtain ⟨s, hs, ht⟩ := List.mem_filterMap.mp h
  have hmem := mem_of_mem_place hs
  obtain ⟨q, a⟩ := s
  replace hmem : a ∈ ofChars cs := hmem
  clear hs h
  induction cs using ofChars_induct with
  | nil =>
      rw [ofChars] at hmem
      cases hmem
  | cons c cs ih =>
      rw [ofChars] at hmem
      rcases List.mem_cons.mp hmem with rfl | hmem
      · exact written_first ht
      · exact ih hmem

end Segment

/-! ## The tokens of a longer text -/

namespace Token

/-- What a text without errors is scanned to. -/
theorem scan_eq_ok {source : String} {tokens : List Token} (h : scan source = .ok tokens) :
    (∀ s ∈ Segment.place .start (Segment.ofChars source.toList), Segment.error? s = none) ∧
      tokens = (Segment.place .start (Segment.ofChars source.toList)).filterMap Segment.token? ++
        [endOf source.toList] := by
  unfold scan at h
  dsimp only at h
  split at h
  · rename_i hnone
    cases h
    exact ⟨fun s hs => List.filterMap_eq_nil_iff.mp hnone s hs, rfl⟩
  · cases h

/-- Two texts with a newline between them have the tokens of both, those of the
second further down. -/
theorem scan_append {first second : String} {ts us : List Token} (hts : scan first = .ok ts)
    (hus : scan second = .ok us) :
    ∃ ts₀ us₀ e₁ e₂ e, ts = ts₀ ++ [e₁] ∧ us = us₀ ++ [e₂] ∧
      (∀ t ∈ ts₀, t.Written) ∧ (∀ u ∈ us₀, u.Written) ∧
      e₁.kind = .eof ∧ e₂.kind = .eof ∧ e.kind = .eof ∧
      scan (first ++ "\n" ++ second) =
        .ok (ts₀ ++ us₀.map (shift (first.toList.count '\n' + 1)) ++ [e]) := by
  obtain ⟨hfirst, rfl⟩ := scan_eq_ok hts
  obtain ⟨hsecond, rfl⟩ := scan_eq_ok hus
  refine ⟨_, _, _, _, endOf (first ++ "\n" ++ second).toList, rfl, rfl,
    fun t => Segment.written_ofChars, fun u => Segment.written_ofChars, rfl, rfl, rfl, ?_⟩
  have hclosed : ∀ a ∈ Segment.ofChars first.toList, a.kind ≠ .unclosed := by
    rintro ⟨kind, text⟩ ha rfl
    obtain ⟨p, hp⟩ := Segment.mem_place (p := .start) ha
    cases hfirst _ hp
  have hchars : (first ++ "\n" ++ second).toList =
      first.toList ++ '\n' :: second.toList := by
    rw [String.toList_append, String.toList_append, List.append_assoc]
    rfl
  have hplaced : Segment.place .start (Segment.ofChars (first ++ "\n" ++ second).toList) =
      Segment.place .start (Segment.ofChars first.toList) ++
        (Position.start.after first.toList, ⟨.blank, ['\n']⟩) ::
          (Segment.place .start (Segment.ofChars second.toList)).map
            fun s => (s.1.shift (first.toList.count '\n' + 1), s.2) := by
    rw [hchars, Segment.ofChars_newline _ _ hclosed, Segment.place_append,
      Segment.flatten_ofChars, Segment.place, ← Position.after_append, Position.after_newline,
      Segment.place_shift]
  have herror : (Segment.place .start (Segment.ofChars (first ++ "\n" ++ second).toList)).filterMap
      Segment.error? = [] := by
    rw [hplaced, List.filterMap_eq_nil_iff]
    intro s hs
    rcases List.mem_append.mp hs with hs | hs
    · exact hfirst s hs
    · rcases List.mem_cons.mp hs with rfl | hs
      · rfl
      · obtain ⟨u, hu, rfl⟩ := List.mem_map.mp hs
        exact Segment.error?_shift.mpr (hsecond u hu)
  unfold scan
  dsimp only
  rw [herror, hplaced]
  have htokens : ∀ l : List (Position × Segment),
      (l.map fun s => (s.1.shift (first.toList.count '\n' + 1), s.2)).filterMap Segment.token? =
        (l.filterMap Segment.token?).map (shift (first.toList.count '\n' + 1)) := by
    intro l
    rw [List.filterMap_map, List.map_filterMap]
    exact congrArg (List.filterMap · l) (funext fun s => Segment.token?_shift _ s)
  rw [List.filterMap_append, List.filterMap_cons_none rfl, htokens]

/-! ## Blank lines -/

theorem shift_shift (j k : Nat) (t : Token) : (t.shift j).shift k = t.shift (j + k) := by
  simp only [shift, Position.shift, Nat.add_assoc]

/-- A text after so many blank lines. -/
def below (k : Nat) (source : String) : String := String.ofList (List.replicate k '\n') ++ source

theorem below_zero (source : String) : below 0 source = source := by
  simp [below]

theorem below_succ (k : Nat) (source : String) :
    "" ++ "\n" ++ below k source = below (k + 1) source := by
  apply String.ext_iff.mpr
  simp [below, List.replicate_succ]

/-- Blank lines have no tokens, and take those after them further down. -/
theorem scan_below {source : String} {us : List Token} {e : Token}
    (h : scan source = .ok (us ++ [e])) (he : e.kind = .eof) (k : Nat) :
    ∃ e', e'.kind = .eof ∧ scan (below k source) = .ok (us.map (shift k) ++ [e']) := by
  induction k with
  | zero =>
      refine ⟨e, he, ?_⟩
      have hid : us.map (shift 0) = us :=
        (List.map_congr_left fun _ _ => rfl).trans (List.map_id us)
      rw [below_zero, h, hid]
  | succ k ih =>
      obtain ⟨e', -, hk⟩ := ih
      have hempty : scan "" = .ok ([] ++ [⟨.eof, "", .start⟩]) := by cbv
      obtain ⟨ts₀, us₀, e₁, e₂, e', hts, hus, -, -, -, -, he', hscan⟩ := scan_append hempty hk
      obtain ⟨rfl, -⟩ := List.append_inj' hts rfl
      obtain ⟨rfl, -⟩ := List.append_inj' hus rfl
      refine ⟨e', he', ?_⟩
      rw [below_succ, List.nil_append, List.map_map] at hscan
      rw [hscan]
      exact congrArg (fun f => Except.ok (us.map f ++ [e'])) (funext (shift_shift k 1))

end Token

end Lox

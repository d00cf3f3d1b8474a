/-
# Forms and their texts

A form is what the text of an expression consists of: words, quoted strings, numbers, and
heads with operands between parentheses.  A legible form is told by its text, and by any
text that begins with it: `chars_unique`.

    form    begins with                ends before
    word    a letter or underscore     a blank or a closing parenthesis
    quoted  a quote                    after the next quote
    number  a digit or a minus         a blank or a closing parenthesis
    node    an opening parenthesis     after its closing parenthesis

So the first character says what a form is, and the induction goes through the two forms at
once, head first and then operand after operand; each operand is `Delimited` by what comes
behind it.  What is between quotes is anything but a quote, so that no blank and no
parenthesis in it counts.
-/
import Lox.Proofs.Numeral
import Lox.Proofs.Tiling

namespace Lox

/-- What the text of an expression consists of. -/
inductive Form where
  | word (text : String)
  | quoted (content : String)
  | number (x : Float)
  | node (head : String) (operands : List Form)

namespace Form

mutual

/-- The characters of a form. -/
def chars : Form → List Char
  | word text => text.toList
  | quoted content => '"' :: (content.toList ++ ['"'])
  | number x => (Number.text x).toList
  | node head operands => '(' :: (head.toList ++ (charsAll operands ++ [')']))

/-- The characters of operands, each behind a blank. -/
def charsAll : List Form → List Char
  | [] => []
  | f :: fs => ' ' :: (f.chars ++ charsAll fs)

end

/-! ## Legible forms -/

/-- A character that ends a word, a number or a head. -/
def ends (c : Char) : Bool := c = ' ' || c = ')'

mutual

/-- A form that can be read: words are spelled as words, strings are without quotes, numbers
are finite, and heads end where a blank or a parenthesis comes. -/
inductive Legible : Form → Prop
  | word {text} : (∃ c cs, text.toList = c :: cs ∧ Segment.startsWord c = true ∧
      ∀ x ∈ cs, Segment.inWord x = true) → Legible (.word text)
  | quoted {content} : '"' ∉ content.toList → Legible (.quoted content)
  | number {x} : Number.IsFinite x → Legible (.number x)
  | node {head operands} : (∀ c ∈ head.toList, ends c = false) → LegibleAll operands →
      Legible (.node head operands)

/-- Operands that can be read. -/
inductive LegibleAll : List Form → Prop
  | nil : LegibleAll []
  | cons {f fs} : Legible f → LegibleAll fs → LegibleAll (f :: fs)

end

/-- What comes behind a form: nothing, a blank, or a closing parenthesis. -/
def Delimited (rest : List Char) : Prop := ∀ c ∈ rest.head?, ends c = true

theorem delimited_nil : Delimited [] := nofun

theorem delimited_cons {c : Char} {rest : List Char} (h : ends c = true) :
    Delimited (c :: rest) := by
  rintro _ ⟨⟩
  exact h

/-- What comes behind an operand: the next one, or the closing parenthesis. -/
theorem delimited_charsAll (fs : List Form) (rest : List Char) :
    Delimited (charsAll fs ++ ')' :: rest) := by
  cases fs with
  | nil => exact delimited_cons rfl
  | cons f fs => exact delimited_cons rfl

/-! ## Where a stretch ends -/

/-- Two texts that agree have the same stretch in front, if each stretch ends as soon as a
character stops it. -/
theorem stretch_unique {p : Char → Bool} {a b r s : List Char} (ha : ∀ c ∈ a, p c = false)
    (hb : ∀ c ∈ b, p c = false) (hr : ∀ c ∈ r.head?, p c = true)
    (hs : ∀ c ∈ s.head?, p c = true) (h : a ++ r = b ++ s) : a = b ∧ r = s := by
  induction a generalizing b with
  | nil =>
      cases b with
      | nil => exact ⟨rfl, h⟩
      | cons c b =>
          rw [List.nil_append] at h
          rw [h] at hr
          exact absurd (hb c List.mem_cons_self) (by simp [hr c rfl])
  | cons c a ih =>
      cases b with
      | nil =>
          rw [List.nil_append] at h
          rw [← h] at hs
          exact absurd (ha c List.mem_cons_self) (by simp [hs c rfl])
      | cons d b =>
          obtain ⟨rfl, htail⟩ := List.cons.inj h
          obtain ⟨ha, hb⟩ := And.intro (List.forall_mem_cons.mp ha).2 (List.forall_mem_cons.mp hb).2
          obtain ⟨rfl, rfl⟩ := ih ha hb htail
          exact ⟨rfl, rfl⟩

theorem inWord_of_startsWord {c : Char} (h : Segment.startsWord c = true) :
    Segment.inWord c = true := by
  simp only [Segment.startsWord, Segment.inWord, Char.isAlphanum, Bool.or_eq_true] at h ⊢
  exact h.imp_left .inl

/-- No character of a word ends it. -/
theorem ends_word {text : String} (h : Legible (.word text)) :
    ∀ c ∈ text.toList, ends c = false := by
  have hends : ∀ c, Segment.inWord c = true → ends c = false := by
    intro c hc
    have hno : Segment.inWord ' ' = false ∧ Segment.inWord ')' = false := by decide
    simp only [ends, Bool.or_eq_false_iff, decide_eq_false_iff_not]
    constructor <;> rintro rfl <;> simp [hno] at hc
  obtain ⟨c, cs, htext, hc, hcs⟩ : ∃ c cs, text.toList = c :: cs ∧
      Segment.startsWord c = true ∧ ∀ x ∈ cs, Segment.inWord x = true := by
    cases h
    assumption
  rw [htext]
  exact List.forall_mem_cons.mpr
    ⟨hends c (inWord_of_startsWord hc), fun x hx => hends x (hcs x hx)⟩

/-- No character of a finite number ends it. -/
theorem ends_number {x : Float} (h : Number.IsFinite x) :
    ∀ c ∈ (Number.text x).toList, ends c = false := by
  intro c hc
  simp only [ends, Bool.or_eq_false_iff, decide_eq_false_iff_not]
  rcases h.chars c hc with hdigit | rfl | rfl
  · constructor <;> rintro rfl <;> cases hdigit
  · decide
  · decide

/-! ## The first character -/

/-- The kinds of form. -/
inductive Kind where
  | word | quoted | number | node

def kind : Form → Kind
  | word _ => .word
  | quoted _ => .quoted
  | number _ => .number
  | node _ _ => .node

/-- The kind of form that a character begins. -/
def kindOf (c : Char) : Kind :=
  if c = '(' then .node else if c = '"' then .quoted
  else if Segment.startsWord c then .word else .number

theorem kindOf_word {c : Char} (h : Segment.startsWord c = true) : kindOf c = .word := by
  have hno : Segment.startsWord '(' = false ∧ Segment.startsWord '"' = false := by decide
  have hparen : c ≠ '(' := by
    rintro rfl
    simp [hno] at h
  have hquote : c ≠ '"' := by
    rintro rfl
    simp [hno] at h
  simp [kindOf, hparen, hquote, h]

theorem kindOf_digit {c : Char} (h : c.isDigit = true) : kindOf c = .number := by
  have hno : Char.isDigit '(' = false ∧ Char.isDigit '"' = false := by decide
  have hparen : c ≠ '(' := by
    rintro rfl
    simp [hno] at h
  have hquote : c ≠ '"' := by
    rintro rfl
    simp [hno] at h
  have hword : Segment.startsWord c = false := by
    by_contra hc
    rw [Segment.not_isDigit_of_startsWord (by simpa using hc)] at h
    cases h
  simp [kindOf, hparen, hquote, hword]

/-- A legible form begins with a character that tells its kind. -/
theorem Legible.first {f : Form} (h : Legible f) :
    ∃ c rest, f.chars = c :: rest ∧ kindOf c = f.kind := by
  cases h with
  | word h =>
      obtain ⟨c, cs, htext, hc, -⟩ := h
      exact ⟨c, cs, htext, kindOf_word hc⟩
  | quoted => exact ⟨'"', _, rfl, rfl⟩
  | number h =>
      obtain ⟨c, rest, htext, hc | rfl⟩ := h.head
      · exact ⟨c, rest, htext, kindOf_digit hc⟩
      · exact ⟨'-', rest, htext, rfl⟩
  | node => exact ⟨'(', _, rfl, rfl⟩

theorem kind_unique {f g : Form} {r s : List Char} (hf : Legible f) (hg : Legible g)
    (h : f.chars ++ r = g.chars ++ s) : f.kind = g.kind := by
  obtain ⟨c, rest, hc, hkind⟩ := hf.first
  obtain ⟨d, rest', hd, hkind'⟩ := hg.first
  rw [hc, hd] at h
  rw [← hkind, ← hkind', (List.cons.inj h).1]

/-! ## Texts are read in one way -/

theorem quoted_unique {a b : String} {r s : List Char} (ha : '"' ∉ a.toList)
    (hb : '"' ∉ b.toList) (h : (quoted a).chars ++ r = (quoted b).chars ++ s) :
    a = b ∧ r = s := by
  have hstop : ∀ {cs : List Char}, '"' ∉ cs → ∀ c ∈ cs, decide (c = '"') = false :=
    fun hcs c hc => decide_eq_false fun heq => hcs (heq ▸ hc)
  simp only [chars, List.cons_append, List.append_assoc, List.nil_append, List.cons.injEq,
    true_and] at h
  obtain ⟨htext, htail⟩ := stretch_unique (hstop ha) (hstop hb) (by simp) (by simp) h
  exact ⟨String.toList_inj.mp htext, (List.cons.inj htail).2⟩

mutual

/-- A legible form at the front of a text is the only one there. -/
theorem chars_unique : ∀ {f g : Form} {r s : List Char}, Legible f → Legible g → Delimited r →
    Delimited s → f.chars ++ r = g.chars ++ s → f = g ∧ r = s
  | .word a, .word b, _, _, hf, hg, hr, hs, h => by
      obtain ⟨htext, rfl⟩ := stretch_unique (ends_word hf) (ends_word hg) hr hs h
      exact ⟨congrArg word (String.toList_inj.mp htext), rfl⟩
  | .quoted a, .quoted b, _, _, .quoted ha, .quoted hb, _, _, h => by
      obtain ⟨rfl, rfl⟩ := quoted_unique ha hb h
      exact ⟨rfl, rfl⟩
  | .number x, .number y, _, _, .number hx, .number hy, hr, hs, h => by
      obtain ⟨htext, rfl⟩ := stretch_unique (ends_number hx) (ends_number hy) hr hs h
      exact ⟨congrArg number (Number.text_injective hx hy (String.toList_inj.mp htext)), rfl⟩
  | .node a fs, .node b gs, r, s, .node ha hfs, .node hb hgs, _, _, h => by
      simp only [chars, List.cons_append, List.append_assoc, List.nil_append, List.cons.injEq,
        true_and] at h
      obtain ⟨hhead, htail⟩ := stretch_unique ha hb (delimited_charsAll fs r)
        (delimited_charsAll gs s) h
      obtain ⟨rfl, rfl⟩ := charsAll_unique hfs hgs htail
      exact ⟨congrArg (node · fs) (String.toList_inj.mp hhead), rfl⟩
  | .word _, .quoted _, _, _, hf, hg, _, _, h | .word _, .number _, _, _, hf, hg, _, _, h
  | .word _, .node _ _, _, _, hf, hg, _, _, h | .quoted _, .word _, _, _, hf, hg, _, _, h
  | .quoted _, .number _, _, _, hf, hg, _, _, h | .quoted _, .node _ _, _, _, hf, hg, _, _, h
  | .number _, .word _, _, _, hf, hg, _, _, h | .number _, .quoted _, _, _, hf, hg, _, _, h
  | .number _, .node _ _, _, _, hf, hg, _, _, h | .node _ _, .word _, _, _, hf, hg, _, _, h
  | .node _ _, .quoted _, _, _, hf, hg, _, _, h | .node _ _, .number _, _, _, hf, hg, _, _, h =>
      Kind.noConfusion (kind_unique hf hg h)

/-- Operands before a closing parenthesis are the only ones there. -/
theorem charsAll_unique : ∀ {fs gs : List Form} {r s : List Char}, LegibleAll fs →
    LegibleAll gs → charsAll fs ++ ')' :: r = charsAll gs ++ ')' :: s → fs = gs ∧ r = s
  | [], [], _, _, _, _, h => ⟨rfl, (List.cons.inj h).2⟩
  | [], _ :: _, _, _, _, _, h | _ :: _, [], _, _, _, _, h => by
      have hne : ' ' ≠ ')' := by decide
      simp [charsAll, hne, hne.symm] at h
  | f :: fs, g :: gs, r, s, .cons hf hfs, .cons hg hgs, h => by
      simp only [charsAll, List.cons_append, List.append_assoc, List.cons.injEq, true_and] at h
      obtain ⟨rfl, htail⟩ := chars_unique hf hg (delimited_charsAll fs r)
        (delimited_charsAll gs s) h
      obtain ⟨rfl, rfl⟩ := charsAll_unique hfs hgs htail
      exact ⟨rfl, rfl⟩

end

end Form

end Lox

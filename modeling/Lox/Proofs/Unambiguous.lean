/-
# Printed trees are unambiguous

The text of an expression is that of a form (`spells_text`).  The form of an expression that
was read from a text is legible, if no function and no infinite number is part of it, and a
legible form is told by its text.  From the form the expression is put together again
(`ofForm?_form`), but for the places of its tokens and the depths of its names, which no
text tells.  So expressions with the same text are the same but for these: `text_tells_tree`.

Operators of one lexeme are told apart by the number of their operands, and the heads of the
other expressions are no operators.  `nil` is no name, since it is reserved; but a number too
large for a double is printed as the name `inf` is, and so numbers are asked to be finite.
-/
import Lox.Proofs.Form
import Lox.Proofs.Fitted
import Lox.Syntax.Printer

namespace Lox

/-! ## Forms of expressions -/

/-- The form of a literal. -/
def Literal.form : Literal → Form
  | .nil => .word "nil"
  | .boolean b => .word (if b then "true" else "false")
  | .number x => .number x
  | .string s => .quoted s

mutual

/-- The form of an expression. -/
def Expr.form : Expr → Form
  | .literal v => v.form
  | .grouping e => .node "group" [e.form]
  | .unary op e => .node op.lexeme [e.form]
  | .binary l op r => .node op.lexeme [l.form, r.form]
  | .logical l op r => .node op.lexeme [l.form, r.form]
  | .variable name _ => .word name.lexeme
  | .assign name v _ => .node "assign" [.word name.lexeme, v.form]
  | .call callee _ arguments => .node "call" (callee.form :: Expr.forms arguments)
  | .get object name => .node "." [object.form, .word name.lexeme]
  | .set object name v => .node "set" [object.form, .word name.lexeme, v.form]
  | .receiver _ _ => .word "this"
  | .superMethod _ method _ => .node "super" [.word method.lexeme]
  | .function d => .node "fun" (d.lexeme?.toList.map .word)
  | .array _ none elements => .node "list" (Expr.forms elements)
  | .array _ (some size) elements =>
    .node "array" [size.form, .node "list" (Expr.forms elements)]
  | .index object _ i => .node "[]" [object.form, i.form]
  | .setIndex object _ i v => .node "[]=" [object.form, i.form, v.form]

/-- The forms of several expressions. -/
def Expr.forms : List Expr → List Form
  | [] => []
  | e :: es => e.form :: Expr.forms es

end

/-! ## Their texts -/

/-- A text is that of a form. -/
def Form.Spells (text : String) (f : Form) : Prop := text.toList = f.chars

theorem spells_literal (v : Literal) : v.form.Spells v.text := by
  cases v with
  | boolean b => cases b <;> rfl
  | nil | number => rfl
  | string s => simp [Form.Spells, Literal.text, Literal.form, Form.chars]

theorem spells_parenthesized (head : String) {operands : List String} {fs : List Form}
    (h : List.Forall₂ Form.Spells operands fs) :
    (Form.node head fs).Spells (parenthesized head operands) := by
  have hjoin : (String.join (operands.map (" " ++ ·))).toList = Form.charsAll fs := by
    induction h with
    | nil => rfl
    | cons hf _ ih =>
        rw [Form.Spells] at hf
        simp [Form.charsAll, hf, ih]
  simp [Form.Spells, parenthesized, Form.chars, hjoin]

mutual

/-- The text of an expression is that of its form. -/
theorem spells_text : ∀ e : Expr, e.form.Spells e.text
  | .literal v => spells_literal v
  | .variable _ _ | .receiver _ _ => rfl
  | .grouping e | .unary _ e => spells_parenthesized _ (.cons (spells_text e) .nil)
  | .binary l _ r | .logical l _ r | .index l _ r =>
      spells_parenthesized _ (.cons (spells_text l) (.cons (spells_text r) .nil))
  | .assign _ v _ => spells_parenthesized _ (.cons rfl (.cons (spells_text v) .nil))
  | .call callee _ arguments =>
      spells_parenthesized _ (.cons (spells_text callee) (spells_texts arguments))
  | .get object _ => spells_parenthesized _ (.cons (spells_text object) (.cons rfl .nil))
  | .set object _ v =>
      spells_parenthesized _ (.cons (spells_text object) (.cons rfl (.cons (spells_text v) .nil)))
  | .superMethod _ _ _ => spells_parenthesized _ (.cons rfl .nil)
  | .function d => by
      refine spells_parenthesized _ ?_
      cases d.lexeme? with
      | none => exact .nil
      | some name => exact .cons rfl .nil
  | .array _ none elements => spells_parenthesized _ (spells_texts elements)
  | .array _ (some size) elements =>
      spells_parenthesized _ (.cons (spells_text size)
        (.cons (spells_parenthesized _ (spells_texts elements)) .nil))
  | .setIndex object _ i v =>
      spells_parenthesized _
        (.cons (spells_text object) (.cons (spells_text i) (.cons (spells_text v) .nil)))

theorem spells_texts : ∀ es : List Expr, List.Forall₂ Form.Spells (Expr.texts es) (Expr.forms es)
  | [] => .nil
  | e :: es => .cons (spells_text e) (spells_texts es)

end

/-! ## Legible expressions -/

mutual

/-- Whether an expression has a legible text: no function is part of it, and all numbers in
it are finite. -/
def Expr.isLegible : Expr → Bool
  | .literal (.number x) => decide (Number.IsFinite x)
  | .literal _ | .variable _ _ | .receiver _ _ | .superMethod _ _ _ => true
  | .grouping e | .unary _ e | .assign _ e _ | .get e _ => e.isLegible
  | .binary l _ r | .logical l _ r | .set l _ r | .index l _ r => l.isLegible && r.isLegible
  | .call callee _ arguments => callee.isLegible && Expr.areLegible arguments
  | .function _ => false
  | .array _ none elements => Expr.areLegible elements
  | .array _ (some size) elements => size.isLegible && Expr.areLegible elements
  | .setIndex object _ i v => object.isLegible && i.isLegible && v.isLegible

/-- Whether several expressions have legible texts. -/
def Expr.areLegible : List Expr → Bool
  | [] => true
  | e :: es => e.isLegible && Expr.areLegible es

end

/-- The words that are expressions by themselves. -/
theorem legible_keyword : ∀ text ∈ ["nil", "true", "false", "this"], (Form.word text).Legible := by
  have hword : ∀ c cs, Segment.startsWord c = true → cs.all Segment.inWord = true →
      (Form.word (String.ofList (c :: cs))).Legible := fun c cs hc hcs =>
    .word ⟨c, cs, String.toList_ofList, hc, List.all_eq_true.mp hcs⟩
  simp only [List.forall_mem_cons]
  exact ⟨hword 'n' ['i', 'l'] rfl rfl, hword 't' ['r', 'u', 'e'] rfl rfl,
    hword 'f' ['a', 'l', 's', 'e'] rfl rfl, hword 't' ['h', 'i', 's'] rfl rfl, nofun⟩

theorem legible_literal {v : Literal} (hv : v.Fitted) (h : (Expr.literal v).isLegible = true) :
    v.form.Legible := by
  cases v with
  | nil => exact legible_keyword _ (by decide)
  | boolean b => exact legible_keyword _ (by cases b <;> decide)
  | number x => exact .number (of_decide_eq_true h)
  | string s => exact .quoted hv

theorem legible_name {name : Token} (h : name.Fits [.identifier]) :
    (Form.word name.lexeme).Legible := .word (h.spelled.name (List.mem_singleton.mp h.kind)).2

/-- The operators, each with its kind. -/
def operators : List (String × TokenKind) :=
  [("!", .bang), ("-", .minus), ("+", .plus), ("*", .star), ("/", .slash), ("==", .equalEqual),
   ("!=", .bangEqual), (">", .greater), (">=", .greaterEqual), ("<", .less),
   ("<=", .lessEqual), ("and", .kwAnd), ("or", .kwOr)]

theorem operators_fixed : ∀ a ∈ operators, a ∈ fixedLexemes := by
  decide +kernel

/-- An operator is written as its kind is. -/
theorem mem_operators {kinds : List TokenKind} {op : Token} (h : op.Fits kinds)
    (hkinds : ∀ k ∈ kinds, k ∈ operators.map Prod.snd) : (op.lexeme, op.kind) ∈ operators := by
  obtain ⟨⟨lexeme, kind⟩, hmem, hkind⟩ := List.mem_map.mp (hkinds _ h.kind)
  cases hkind
  rwa [h.spelled.fixed (operators_fixed _ hmem)]

theorem ends_operator : ∀ a ∈ operators, ∀ c ∈ a.1.toList, Form.ends c = false := by
  simp [operators, Form.ends]

/-- The heads of expressions that are no operations. -/
def heads : List String :=
  ["group", "assign", "call", ".", "set", "super", "array", "list", "[]", "[]="]

/-- The form with one of the heads is legible if its operands are. -/
theorem legible_head {head : String} (h : head ∈ heads) {fs : List Form}
    (hfs : Form.LegibleAll fs) : (Form.node head fs).Legible := by
  have hends : ∀ head ∈ heads, ∀ c ∈ head.toList, Form.ends c = false := by
    simp [heads, Form.ends]
  exact .node (hends head h) hfs

mutual

/-- The form of a legible expression whose tokens fit is legible. -/
theorem legible_form : ∀ e : Expr, FittedExpr e → e.isLegible = true → e.form.Legible
  | .literal v, .literal hv, h => legible_literal hv h
  | .grouping e, .grouping he, h =>
      legible_head (by decide) (.cons (legible_form e he h) .nil)
  | .unary op e, .unary hop he, h =>
      .node (ends_operator _ (mem_operators hop (by decide))) (.cons (legible_form e he h) .nil)
  | .binary l op r, .binary hop hl hr, h | .logical l op r, .logical hop hl hr, h => by
      obtain ⟨hleft, hright⟩ := Bool.and_eq_true_iff.mp h
      exact .node (ends_operator _ (mem_operators hop (by decide)))
        (.cons (legible_form l hl hleft) (.cons (legible_form r hr hright) .nil))
  | .variable name _, .variable hname, _ => legible_name hname
  | .assign name v _, .assign hname hv, h =>
      legible_head (by decide) (.cons (legible_name hname) (.cons (legible_form v hv h) .nil))
  | .call callee _ arguments, .call _ hcallee hes, h => by
      obtain ⟨hfirst, hrest⟩ := Bool.and_eq_true_iff.mp h
      exact legible_head (by decide)
        (.cons (legible_form callee hcallee hfirst) (legible_forms arguments hes hrest))
  | .get object name, .get hname hobject, h =>
      legible_head (by decide)
        (.cons (legible_form object hobject h) (.cons (legible_name hname) .nil))
  | .set object name v, .set hname hobject hv, h => by
      obtain ⟨hfirst, hlast⟩ := Bool.and_eq_true_iff.mp h
      exact legible_head (by decide) (.cons (legible_form object hobject hfirst)
        (.cons (legible_name hname) (.cons (legible_form v hv hlast) .nil)))
  | .receiver _ _, _, _ => legible_keyword "this" (by decide)
  | .superMethod _ method _, .superMethod _ hmethod, _ =>
      legible_head (by decide) (.cons (legible_name hmethod) .nil)
  | .function _, _, h => by cases h
  | .array _ none elements, .array _ _ hes, h =>
      legible_head (by decide) (legible_forms elements hes h)
  | .array _ (some size) elements, .array _ hsize hes, h => by
      obtain ⟨hfirst, hrest⟩ := Bool.and_eq_true_iff.mp h
      exact legible_head (by decide) (.cons (legible_form size (hsize size rfl) hfirst)
        (.cons (legible_head (by decide) (legible_forms elements hes hrest)) .nil))
  | .index object _ i, .index _ hobject hi, h => by
      obtain ⟨hfirst, hlast⟩ := Bool.and_eq_true_iff.mp h
      exact legible_head (by decide)
        (.cons (legible_form object hobject hfirst) (.cons (legible_form i hi hlast) .nil))
  | .setIndex object _ i v, .setIndex _ hobject hi hv, h => by
      obtain ⟨hfirst, hlast⟩ := Bool.and_eq_true_iff.mp h
      obtain ⟨hfirst, hsecond⟩ := Bool.and_eq_true_iff.mp hfirst
      exact legible_head (by decide) (.cons (legible_form object hobject hfirst)
        (.cons (legible_form i hi hsecond) (.cons (legible_form v hv hlast) .nil)))

theorem legible_forms : ∀ es : List Expr, (∀ e ∈ es, FittedExpr e) →
    Expr.areLegible es = true → Form.LegibleAll (Expr.forms es)
  | [], _, _ => .nil
  | e :: es, hes, h => by
      obtain ⟨hfirst, hrest⟩ := Bool.and_eq_true_iff.mp h
      obtain ⟨he, hes⟩ := List.forall_mem_cons.mp hes
      exact .cons (legible_form e he hfirst) (legible_forms es hes hrest)

end

/-! ## Expressions from their forms -/

/-- A token without its place. -/
def Token.stripped (t : Token) : Token := { t with position := .start }

mutual

/-- An expression without the places of its tokens and the depths of its names. -/
def Expr.stripped : Expr → Expr
  | .literal v => .literal v
  | .grouping e => .grouping e.stripped
  | .unary op e => .unary op.stripped e.stripped
  | .binary l op r => .binary l.stripped op.stripped r.stripped
  | .logical l op r => .logical l.stripped op.stripped r.stripped
  | .variable name _ => .variable name.stripped none
  | .assign name v _ => .assign name.stripped v.stripped none
  | .call callee paren arguments =>
    .call callee.stripped paren.stripped (Expr.allStripped arguments)
  | .get object name => .get object.stripped name.stripped
  | .set object name v => .set object.stripped name.stripped v.stripped
  | .receiver keyword _ => .receiver keyword.stripped none
  | .superMethod keyword method _ => .superMethod keyword.stripped method.stripped none
  | .function d => .function d
  | .array bracket none elements => .array bracket.stripped none (Expr.allStripped elements)
  | .array bracket (some size) elements =>
    .array bracket.stripped (some size.stripped) (Expr.allStripped elements)
  | .index object bracket i => .index object.stripped bracket.stripped i.stripped
  | .setIndex object bracket i v =>
    .setIndex object.stripped bracket.stripped i.stripped v.stripped

/-- Several expressions without places and depths. -/
def Expr.allStripped : List Expr → List Expr
  | [] => []
  | e :: es => e.stripped :: Expr.allStripped es

end

mutual

/-- Places and depths are not printed. -/
theorem text_stripped : ∀ e : Expr, e.stripped.text = e.text
  | .literal _ | .variable _ _ | .receiver _ _ | .superMethod _ _ _ | .function _ => rfl
  | .grouping e | .unary _ e => by
      simp only [Expr.stripped, Expr.text, Token.stripped, text_stripped e]
  | .binary l _ r | .logical l _ r | .index l _ r => by
      simp only [Expr.stripped, Expr.text, Token.stripped, text_stripped l, text_stripped r]
  | .assign _ v _ => by simp only [Expr.stripped, Expr.text, Token.stripped, text_stripped v]
  | .call callee _ arguments => by
      simp only [Expr.stripped, Expr.text, text_stripped callee, texts_allStripped arguments]
  | .get object _ => by
      simp only [Expr.stripped, Expr.text, Token.stripped, text_stripped object]
  | .set object _ v => by
      simp only [Expr.stripped, Expr.text, Token.stripped, text_stripped object, text_stripped v]
  | .array _ none elements => by
      simp only [Expr.stripped, Expr.text, texts_allStripped elements]
  | .array _ (some size) elements => by
      simp only [Expr.stripped, Expr.text, text_stripped size, texts_allStripped elements]
  | .setIndex object _ i v => by
      simp only [Expr.stripped, Expr.text, text_stripped object, text_stripped i, text_stripped v]

theorem texts_allStripped : ∀ es : List Expr, Expr.texts (Expr.allStripped es) = Expr.texts es
  | [] => rfl
  | e :: es => by
      simp only [Expr.allStripped, Expr.texts, text_stripped e, texts_allStripped es]

end

namespace Expr

/-- The token of a kind, without a place. -/
def token (kind : TokenKind) (lexeme : String) : Token := ⟨kind, lexeme, .start⟩

/-- The expression that a word is. -/
def ofWord (text : String) : Expr :=
  if text = "nil" then .literal .nil
  else if text = "true" then .literal (.boolean true)
  else if text = "false" then .literal (.boolean false)
  else if text = "this" then .receiver (token .kwThis "this") none
  else .variable (token .identifier text) none

/-- The operation of an operator, which is unary or not by the number of its operands. -/
def ofOperator? (op : Token) : List Expr → Option Expr
  | [e] => some (.unary op e)
  | [l, r] => some (if op.kind ∈ logicalKinds then .logical l op r else .binary l op r)
  | _ => none

/-- The expression of a head that is no operator.  A name among the operands is read as the
variable of this name. -/
def ofHead? : String → List Expr → Option Expr
  | "group", [e] => some (.grouping e)
  | "assign", [.variable name _, v] => some (.assign name v none)
  | "call", callee :: arguments => some (.call callee (token .rightParen ")") arguments)
  | ".", [object, .variable name _] => some (.get object name)
  | "set", [object, .variable name _, v] => some (.set object name v)
  | "super", [.variable method _] => some (.superMethod (token .kwSuper "super") method none)
  | "list", elements => some (.array (token .leftBracket "[") none elements)
  | "array", [size, .array bracket none elements] => some (.array bracket (some size) elements)
  | "[]", [object, i] => some (.index object (token .leftBracket "[") i)
  | "[]=", [object, i, v] => some (.setIndex object (token .leftBracket "[") i v)
  | _, _ => none

/-- The expression of a head and its operands. -/
def assemble? (head : String) (operands : List Expr) : Option Expr :=
  match operators.lookup head with
  | some kind => ofOperator? (token kind head) operands
  | none => ofHead? head operands

mutual

/-- The expression of a form, without places and depths. -/
def ofForm? : Form → Option Expr
  | .word text => some (ofWord text)
  | .quoted content => some (.literal (.string content))
  | .number x => some (.literal (.number x))
  | .node head operands => (ofForms? operands).bind (assemble? head)

/-- The expressions of several forms. -/
def ofForms? : List Form → Option (List Expr)
  | [] => some []
  | f :: fs => (ofForm? f).bind fun e => (ofForms? fs).map (e :: ·)

end

variable {fs : List Form} {es : List Expr}

theorem ofForms?_nil : ofForms? [] = some [] := rfl

theorem ofForms?_cons {f : Form} {e : Expr} (hf : ofForm? f = some e)
    (hfs : ofForms? fs = some es) : ofForms? (f :: fs) = some (e :: es) := by
  simp [ofForms?, hf, hfs]

theorem ofForm?_head (head : String) {e : Expr} (h : head ∈ heads) (hfs : ofForms? fs = some es)
    (he : ofHead? head es = some e) : ofForm? (.node head fs) = some e := by
  have hno : ∀ head ∈ heads, operators.lookup head = none := by decide +kernel
  simp [ofForm?, hfs, assemble?, hno head h, he]

theorem ofForm?_operator {op : Token} {e : Expr} (h : (op.lexeme, op.kind) ∈ operators)
    (hfs : ofForms? fs = some es) (he : ofOperator? op.stripped es = some e) :
    ofForm? (.node op.lexeme fs) = some e := by
  have hkind : ∀ a ∈ operators, operators.lookup a.1 = some a.2 := by decide +kernel
  have hop : token op.kind op.lexeme = op.stripped := rfl
  simp [ofForm?, hfs, assemble?, hkind _ h, hop, he]

theorem ofForm?_name {name : Token} (h : name.Fits [.identifier]) :
    ofForm? (.word name.lexeme) = some (.variable name.stripped none) := by
  have hkind : name.kind = .identifier := List.mem_singleton.mp h.kind
  have hword : TokenKind.ofWord name.lexeme = .identifier :=
    (h.spelled.name hkind).1.trans hkind
  -- a name is not one of the words that are expressions of another kind
  have hne : ∀ text ∈ ["nil", "true", "false", "this"], name.lexeme ≠ text := by
    rintro text htext rfl
    have hreserved : ∀ text ∈ ["nil", "true", "false", "this"],
        TokenKind.ofWord text ≠ .identifier := by decide +kernel
    exact hreserved _ htext hword
  simp only [List.forall_mem_cons] at hne
  obtain ⟨hnil, htrue, hfalse, hthis, -⟩ := hne
  simp [ofForm?, ofWord, hnil, htrue, hfalse, hthis, token, Token.stripped, hkind]

/-- A token whose kind has one lexeme is told by its kind. -/
theorem stripped_fixed {t : Token} {kind : TokenKind} (lexeme : String) (h : t.Fits [kind])
    (hmem : (lexeme, kind) ∈ fixedLexemes) : t.stripped = token kind lexeme := by
  obtain ⟨hspelled, hkind⟩ := h
  cases List.mem_singleton.mp hkind
  rw [Token.stripped, hspelled.fixed hmem, token]

mutual

/-- From its form an expression is put together again. -/
theorem ofForm?_form : ∀ e : Expr, FittedExpr e → e.isLegible = true →
    ofForm? e.form = some e.stripped
  | .literal v, _, _ => by
      cases v with
      | boolean b => cases b <;> rfl
      | nil | number | string => rfl
  | .grouping e, .grouping he, h =>
      ofForm?_head "group" (by decide) (ofForms?_cons (ofForm?_form e he h) ofForms?_nil) rfl
  | .unary op e, .unary hop he, h =>
      ofForm?_operator (mem_operators hop (by decide))
        (ofForms?_cons (ofForm?_form e he h) ofForms?_nil) rfl
  | .binary l op r, .binary hop hl hr, h => by
      obtain ⟨hleft, hright⟩ := Bool.and_eq_true_iff.mp h
      have hbinary : ∀ k ∈ binaryKinds, k ∉ logicalKinds := by decide
      have hoperands := ofForms?_cons (ofForm?_form l hl hleft)
        (ofForms?_cons (ofForm?_form r hr hright) ofForms?_nil)
      exact ofForm?_operator (mem_operators hop (by decide)) hoperands
        (congrArg some (if_neg (hbinary _ hop.kind)))
  | .logical l op r, .logical hop hl hr, h => by
      obtain ⟨hleft, hright⟩ := Bool.and_eq_true_iff.mp h
      have hoperands := ofForms?_cons (ofForm?_form l hl hleft)
        (ofForms?_cons (ofForm?_form r hr hright) ofForms?_nil)
      exact ofForm?_operator (mem_operators hop (by decide)) hoperands
        (congrArg some (if_pos hop.kind))
  | .variable name _, .variable hname, _ => ofForm?_name hname
  | .assign name v _, .assign hname hv, h =>
      ofForm?_head "assign" (by decide) (ofForms?_cons (ofForm?_name hname)
        (ofForms?_cons (ofForm?_form v hv h) ofForms?_nil)) rfl
  | .call callee paren arguments, .call hparen hcallee hes, h => by
      obtain ⟨hfirst, hrest⟩ := Bool.and_eq_true_iff.mp h
      rw [Expr.stripped, stripped_fixed ")" hparen (by decide)]
      exact ofForm?_head "call" (by decide) (ofForms?_cons (ofForm?_form callee hcallee hfirst)
        (ofForms?_forms arguments hes hrest)) rfl
  | .get object name, .get hname hobject, h =>
      ofForm?_head "." (by decide) (ofForms?_cons (ofForm?_form object hobject h)
        (ofForms?_cons (ofForm?_name hname) ofForms?_nil)) rfl
  | .set object name v, .set hname hobject hv, h => by
      obtain ⟨hfirst, hlast⟩ := Bool.and_eq_true_iff.mp h
      exact ofForm?_head "set" (by decide) (ofForms?_cons (ofForm?_form object hobject hfirst)
        (ofForms?_cons (ofForm?_name hname)
          (ofForms?_cons (ofForm?_form v hv hlast) ofForms?_nil))) rfl
  | .receiver keyword _, .receiver hkeyword, _ => by
      rw [Expr.stripped, stripped_fixed "this" hkeyword (by decide)]
      rfl
  | .superMethod keyword method _, .superMethod hkeyword hmethod, _ => by
      rw [Expr.stripped, stripped_fixed "super" hkeyword (by decide)]
      exact ofForm?_head "super" (by decide)
        (ofForms?_cons (ofForm?_name hmethod) ofForms?_nil) rfl
  | .function _, _, h => by cases h
  | .array bracket none elements, .array hbracket _ hes, h => by
      rw [Expr.stripped, stripped_fixed "[" hbracket (by decide)]
      exact ofForm?_head "list" (by decide) (ofForms?_forms elements hes h) rfl
  | .array bracket (some size) elements, .array hbracket hsize hes, h => by
      obtain ⟨hfirst, hrest⟩ := Bool.and_eq_true_iff.mp h
      rw [Expr.stripped, stripped_fixed "[" hbracket (by decide)]
      have hlist : ofForm? (.node "list" (forms elements)) =
          some (.array (token .leftBracket "[") none (allStripped elements)) :=
        ofForm?_head "list" (by decide) (ofForms?_forms elements hes hrest) rfl
      exact ofForm?_head "array" (by decide)
        (ofForms?_cons (ofForm?_form size (hsize size rfl) hfirst)
          (ofForms?_cons hlist ofForms?_nil)) rfl
  | .index object bracket i, .index hbracket hobject hi, h => by
      obtain ⟨hfirst, hlast⟩ := Bool.and_eq_true_iff.mp h
      rw [Expr.stripped, stripped_fixed "[" hbracket (by decide)]
      exact ofForm?_head "[]" (by decide) (ofForms?_cons (ofForm?_form object hobject hfirst)
        (ofForms?_cons (ofForm?_form i hi hlast) ofForms?_nil)) rfl
  | .setIndex object bracket i v, .setIndex hbracket hobject hi hv, h => by
      obtain ⟨hfirst, hlast⟩ := Bool.and_eq_true_iff.mp h
      obtain ⟨hfirst, hsecond⟩ := Bool.and_eq_true_iff.mp hfirst
      rw [Expr.stripped, stripped_fixed "[" hbracket (by decide)]
      exact ofForm?_head "[]=" (by decide) (ofForms?_cons (ofForm?_form object hobject hfirst)
        (ofForms?_cons (ofForm?_form i hi hsecond)
          (ofForms?_cons (ofForm?_form v hv hlast) ofForms?_nil))) rfl

theorem ofForms?_forms : ∀ es : List Expr, (∀ e ∈ es, FittedExpr e) →
    areLegible es = true → ofForms? (forms es) = some (allStripped es)
  | [], _, _ => rfl
  | e :: es, hes, h => by
      obtain ⟨hfirst, hrest⟩ := Bool.and_eq_true_iff.mp h
      obtain ⟨he, hes⟩ := List.forall_mem_cons.mp hes
      exact ofForms?_cons (ofForm?_form e he hfirst) (ofForms?_forms es hes hrest)

end

end Expr

/-! ## Trees from their texts -/

/-- Two expressions that were read from texts are printed alike just when they are the same tree
but for the places of tokens and the depths of names, if no function is part of them and all
numbers in them are finite. -/
theorem text_tells_tree {e e' : Expr} (he : e.Parsed) (he' : e'.Parsed)
    (hlegible : e.isLegible = true) (hlegible' : e'.isLegible = true) :
    e.text = e'.text ↔ e.stripped = e'.stripped := by
  constructor
  · intro h
    have hchars : e.form.chars ++ [] = e'.form.chars ++ [] := by
      rw [← spells_text e, ← spells_text e', h]
    obtain ⟨hform, -⟩ := Form.chars_unique (legible_form e he.fitted hlegible)
      (legible_form e' he'.fitted hlegible') Form.delimited_nil Form.delimited_nil hchars
    have hread := Expr.ofForm?_form e he.fitted hlegible
    rw [hform, Expr.ofForm?_form e' he'.fitted hlegible'] at hread
    exact (Option.some.inj hread).symm
  · intro h
    rw [← text_stripped e, ← text_stripped e', h]

/-- The call of `f` with `-x` and a string that looks like it, its tokens being where they are
said to be. -/
def minusCall (f minus x paren : Position) : Expr :=
  .call (.variable ⟨.identifier, "f", f⟩ none) ⟨.rightParen, ")", paren⟩
    [.unary ⟨.minus, "-", minus⟩ (.variable ⟨.identifier, "x", x⟩ none),
      .literal (.string "(- x)")]

/-- A call that is written in two ways is the same tree, since it is printed in one way. -/
theorem text_tells_tree_spaced :
    (Session.read "f(-x, \"(- x)\");").2 =
        .ok [.expression (minusCall ⟨1, 1⟩ ⟨1, 3⟩ ⟨1, 4⟩ ⟨1, 14⟩)] ∧
      (Session.read "f ( -\nx,\"(- x)\");").2 =
        .ok [.expression (minusCall ⟨1, 1⟩ ⟨1, 5⟩ ⟨2, 1⟩ ⟨2, 10⟩)] ∧
      (minusCall ⟨1, 1⟩ ⟨1, 3⟩ ⟨1, 4⟩ ⟨1, 14⟩).stripped =
        (minusCall ⟨1, 1⟩ ⟨1, 5⟩ ⟨2, 1⟩ ⟨2, 10⟩).stripped := by
  have hread : (Session.read "f(-x, \"(- x)\");").2 =
      .ok [.expression (minusCall ⟨1, 1⟩ ⟨1, 3⟩ ⟨1, 4⟩ ⟨1, 14⟩)] := by
    with_unfolding_all rfl
  have hread' : (Session.read "f ( -\nx,\"(- x)\");").2 =
      .ok [.expression (minusCall ⟨1, 1⟩ ⟨1, 5⟩ ⟨2, 1⟩ ⟨2, 10⟩)] := by
    with_unfolding_all rfl
  have hparsed : (minusCall ⟨1, 1⟩ ⟨1, 3⟩ ⟨1, 4⟩ ⟨1, 14⟩).Parsed :=
    ⟨_, [0, 0, 0], _, ⟨_, hread⟩, rfl⟩
  have hparsed' : (minusCall ⟨1, 1⟩ ⟨1, 5⟩ ⟨2, 1⟩ ⟨2, 10⟩).Parsed :=
    ⟨_, [0, 0, 0], _, ⟨_, hread'⟩, rfl⟩
  exact ⟨hread, hread', (text_tells_tree hparsed hparsed' rfl rfl).mp rfl⟩

end Lox

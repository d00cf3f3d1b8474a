/-
# Errors do not leave their sentence

Sentences are written one after the other, and some of them are wrong.  A
reader that is stuck in a sentence is stuck before its semicolon, so that what
is skipped then ends at the semicolon or before it; what is left of the
sentence is read the same way, and the next sentence is begun at its first
token.  `errors_confined`, at the end of this file, says so of `parse`: the
errors of the whole are those of the sentences by themselves, in order, and
when there are none its statements are those of the sentences.

An `else` is left out at the front of a sentence, for it could go on with the
`if` of the sentence before.
-/
import Lox.Proofs.Recovery

namespace Lox

/-! ## Skipping -/

/-- A skip that begins in a sentence ends in it. -/
theorem skipAfter_append {t : Token} {ts : List Token} (h : Sentence (t :: ts))
    (more : List Token) : skipAfter t (ts ++ more) = skipAfter t ts ++ more := by
  induction ts generalizing t with
  | nil =>
      cases h with
      | last ht =>
          cases more with
          | nil => rfl
          | cons u more => simp [skipAfter, ht]
      | cons _ _ hts => exact absurd rfl hts.ne_nil
  | cons u ts ih =>
      have hne : t.kind ≠ .semicolon := fun ht => List.cons_ne_nil _ _ (h.eq_nil ht)
      have hstep : ∀ us, skipAfter t (u :: us) =
          if u.kind ∈ beginsStatement then u :: us else skipAfter u us := fun us => by
        rw [skipAfter, if_neg hne]
      rw [List.cons_append, hstep, hstep]
      split
      · rfl
      · exact ih (h.tail hne)

theorem resume_append {ts : List Token} (h : Sentence ts) (more : List Token) :
    resume (ts ++ more) = resume ts ++ more := by
  cases ts with
  | nil => exact absurd rfl h.ne_nil
  | cons t ts => exact skipAfter_append h more

namespace Parser

open Reading

variable {more : List Token}

/-! ## Reading -/

instance (ts : List Token) : Decidable (NoElse ts) :=
  inferInstanceAs (Decidable (nextIs .kwElse ts = false))

/-- A turn in a sentence is the same with other sentences behind. -/
theorem turn_append (eof eof' : Token) {t : Token} {ts : List Token}
    (h : Sentence (t :: ts)) (hmore : NoElse more) :
    (turn eof' t (ts ++ more)).statement = (turn eof t ts).statement ∧
      (turn eof' t (ts ++ more)).noted = (turn eof t ts).noted ∧
      (turn eof' t (ts ++ more)).rest = (turn eof t ts).rest ++ more ∧
      ((turn eof t ts).rest ≠ [] → Sentence (turn eof t ts).rest) := by
  have hlaw : Law eof more AtEnd (t :: ts) (declaration eof (t :: ts))
      (declaration eof' (t :: (ts ++ more))) :=
    law_declaration (laws hmore (t :: ts).length) hmore (Nat.lt_succ_self _)
  have hkeeps := hlaw.keeps h
  have hsuffix := hlaw.accounts.suffix
  unfold turn
  generalize declaration eof (t :: ts) = r at hkeeps hsuffix ⊢
  generalize declaration eof' (t :: (ts ++ more)) = r' at hkeeps ⊢
  cases r with
  | done st rest noted hlt =>
      obtain ⟨rfl, rfl, _, rfl⟩ := hkeeps
      exact ⟨rfl, rfl, rfl, fun hne => absurd rfl hne⟩
  | stuck e rest noted hle =>
      obtain ⟨rfl, hne, _, rfl⟩ := hkeeps
      have hrest : Sentence rest := h.suffix hsuffix hne
      exact ⟨rfl, rfl, resume_append hrest more, hrest.suffix (resume_suffix rest)⟩

/-- The statements and the errors of a sentence are the first ones. -/
theorem statements_append (eof eof' : Token) {k : Nat} {ts : List Token} (hlt : ts.length < k)
    (h : Sentence ts) (hmore : NoElse more) :
    (statements eof' false (ts ++ more)).body =
        (statements eof false ts).body ++ (statements eof' false more).body ∧
      (statements eof' false (ts ++ more)).noted =
        (statements eof false ts).noted ++ (statements eof' false more).noted := by
  induction k generalizing ts with
  | zero => exact absurd hlt (Nat.not_lt_zero _)
  | succ k ih =>
      cases ts with
      | nil => exact absurd rfl h.ne_nil
      | cons t ts =>
          obtain ⟨hstatement, hnoted, hrest, hsentence⟩ :=
            turn_append eof eof' h hmore
          have hk : ¬(false && decide (t.kind = .rightBrace)) = true := nofun
          obtain ⟨hbody₁, hnoted₁, -⟩ := statements_cons eof ts hk
          obtain ⟨hbody₂, hnoted₂, -⟩ := statements_cons eof' (ts ++ more) hk
          rw [List.cons_append, hbody₁, hbody₂, hnoted₁, hnoted₂, hstatement, hnoted, hrest,
            List.append_assoc, List.append_assoc]
          -- what the turn leaves of the sentence is nothing or read the same way
          rcases Classical.em ((turn eof t ts).rest = []) with hnil | hne
          · rw [hnil, statements_nil]
            exact ⟨rfl, rfl⟩
          · obtain ⟨hbody, hlater⟩ :=
              ih (Nat.lt_of_lt_of_le (turn eof t ts).shorter (Nat.le_of_lt_succ hlt))
                (hsentence hne)
            rw [hbody, hlater]
            exact ⟨rfl, rfl⟩

/-- No `else` comes first in sentences that do not begin with one. -/
theorem noElse_flatten {sentences : List (List Token)}
    (h : ∀ ts ∈ sentences, Sentence ts ∧ NoElse ts) : NoElse sentences.flatten := by
  cases sentences with
  | nil => rfl
  | cons ts sentences =>
      obtain ⟨hsentence, helse⟩ := h ts List.mem_cons_self
      cases ts with
      | nil => exact absurd rfl hsentence.ne_nil
      | cons t ts => exact helse

/-- Sentences that do not begin with `else` are read one after the other. -/
theorem statements_flatten (eof : Token) (ends : List Token → Token)
    {sentences : List (List Token)} (h : ∀ ts ∈ sentences, Sentence ts ∧ NoElse ts) :
    (statements eof false sentences.flatten).body =
        sentences.flatMap (fun ts => (statements (ends ts) false ts).body) ∧
      (statements eof false sentences.flatten).noted =
        sentences.flatMap (fun ts => (statements (ends ts) false ts).noted) := by
  induction sentences with
  | nil =>
      rw [List.flatten_nil, statements_nil]
      exact ⟨rfl, rfl⟩
  | cons ts sentences ih =>
      have hlater : ∀ us ∈ sentences, Sentence us ∧ NoElse us := fun us hus =>
        h us (List.mem_cons_of_mem _ hus)
      obtain ⟨hbody, hnoted⟩ := ih hlater
      obtain ⟨hfirst, hfirst'⟩ := statements_append (ends ts) eof (Nat.lt_succ_self _)
        (h ts List.mem_cons_self).1 (noElse_flatten hlater)
      rw [List.flatten_cons, hfirst, hfirst', hbody, hnoted]
      exact ⟨rfl, rfl⟩

end Parser

/-! ## The theorem -/

/-- The errors that parsing reports. -/
def syntaxErrors (tokens : List Token) : List SyntaxError :=
  match parse tokens with
  | .ok _ => []
  | .error errors => errors

theorem Sentence.not_eof {ts : List Token} (h : Sentence ts) : ∀ t ∈ ts, t.kind ≠ .eof := by
  induction h with
  | last ht => simp [ht]
  | cons _ ht _ ih =>
      intro u hu
      rcases List.mem_cons.mp hu with rfl | hu
      · exact fun h0 => ht (h0 ▸ by decide)
      · exact ih u hu

theorem syntaxErrors_eq {ts : List Token} {e : Token} (hts : ∀ t ∈ ts, t.kind ≠ .eof)
    (he : e.kind = .eof) : syntaxErrors (ts ++ [e]) = (Parser.statements e false ts).noted := by
  unfold syntaxErrors
  rw [parse_eq hts he]
  cases (Parser.statements e false ts).noted <;> rfl

/-- Sentences one after the other have the errors that they have by themselves,
and without any they have the statements that they have by themselves. -/
theorem errors_confined (ends : List Token → Token) {sentences : List (List Token)} {e : Token}
    (hsentences : ∀ ts ∈ sentences, Sentence ts ∧ Parser.NoElse ts) (he : e.kind = .eof)
    (hends : ∀ ts ∈ sentences, (ends ts).kind = .eof) :
    syntaxErrors (sentences.flatten ++ [e]) =
        sentences.flatMap (fun ts => syntaxErrors (ts ++ [ends ts])) ∧
      ((∀ ts ∈ sentences, syntaxErrors (ts ++ [ends ts]) = []) →
        ∃ bodies, List.Forall₂ (fun ts body => parse (ts ++ [ends ts]) = .ok body)
            sentences bodies ∧
          parse (sentences.flatten ++ [e]) = .ok bodies.flatten) := by
  have hones : ∀ ts ∈ sentences,
      syntaxErrors (ts ++ [ends ts]) = (Parser.statements (ends ts) false ts).noted :=
    fun ts hts => syntaxErrors_eq (hsentences ts hts).1.not_eof (hends ts hts)
  have hall : ∀ t ∈ sentences.flatten, t.kind ≠ .eof := fun t ht => by
    obtain ⟨ts, hts, ht⟩ := List.mem_flatten.mp ht
    exact (hsentences ts hts).1.not_eof t ht
  obtain ⟨hbody, hnoted⟩ := Parser.statements_flatten e ends hsentences
  have herrors : syntaxErrors (sentences.flatten ++ [e]) =
      sentences.flatMap (fun ts => syntaxErrors (ts ++ [ends ts])) := by
    rw [syntaxErrors_eq hall he, hnoted]
    exact List.flatMap_congr fun ts hts => (hones ts hts).symm
  refine ⟨herrors, fun hnone => ?_⟩
  refine ⟨sentences.map fun ts => (Parser.statements (ends ts) false ts).body, ?_, ?_⟩
  · rw [List.forall₂_map_right_iff, List.forall₂_same]
    intro ts hts
    rw [parse_eq (hsentences ts hts).1.not_eof (hends ts hts), ← hones ts hts, hnone ts hts]
  · rw [parse_eq hall he, ← syntaxErrors_eq hall he, herrors,
      List.flatMap_eq_nil_iff.mpr hnone, hbody, List.flatMap_def]

/-! ## Two wrong sentences and a right one -/

namespace Confined

/-- `var = nil;` -/
def nameless : List Token :=
  [⟨.kwVar, "var", ⟨1, 1⟩⟩, ⟨.equal, "=", ⟨1, 5⟩⟩, ⟨.kwNil, "nil", ⟨1, 7⟩⟩,
    ⟨.semicolon, ";", ⟨1, 10⟩⟩]

/-- `print true;` -/
def printing : List Token :=
  [⟨.kwPrint, "print", ⟨2, 1⟩⟩, ⟨.kwTrue, "true", ⟨2, 7⟩⟩, ⟨.semicolon, ";", ⟨2, 11⟩⟩]

/-- `nil = nil;` -/
def untargeted : List Token :=
  [⟨.kwNil, "nil", ⟨3, 1⟩⟩, ⟨.equal, "=", ⟨3, 5⟩⟩, ⟨.kwNil, "nil", ⟨3, 7⟩⟩,
    ⟨.semicolon, ";", ⟨3, 10⟩⟩]

def textEnd : Token := ⟨.eof, "", ⟨4, 1⟩⟩

/-- The wrong sentences have an error each, with the right one between them. -/
theorem errors_of_nameless_and_untargeted :
    (∀ ts ∈ [nameless, printing, untargeted], Sentence ts ∧ Parser.NoElse ts) ∧
      textEnd.kind = .eof ∧
      syntaxErrors ([nameless, printing, untargeted].flatten ++ [textEnd]) =
        [⟨.expected "variable name", ⟨.equal, "=", ⟨1, 5⟩⟩⟩,
          ⟨.invalidTarget, ⟨.equal, "=", ⟨3, 5⟩⟩⟩] := by
  have hsentences : ∀ ts ∈ [nameless, printing, untargeted], Sentence ts ∧ Parser.NoElse ts := by
    decide
  have hend : textEnd.kind = .eof := rfl
  have herrors := (errors_confined (fun _ => textEnd) hsentences hend fun _ _ => hend).1
  refine ⟨hsentences, hend, herrors.trans ?_⟩
  decide +kernel

end Confined

end Lox

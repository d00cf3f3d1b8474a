/-
# A parse ends where its tokens do

`parse` reads statements up to the first `eof`, turn by turn: one statement is
read, or what cannot be read is skipped.  `parse_bounded`, at the end of this
file, says of every list of tokens with an `eof` in it that

  * what stands behind the first `eof` does not matter;
  * every turn leaves fewer tokens than it found, so that the turns come to the
    `eof`, and neither a turn nor a reader in it goes beyond: what is left is
    always the end of the tokens before the `eof`, and the token that is looked
    at is a token of the list;
  * there is a program or there are errors, at least one and no more than there
    are tokens before the `eof`, and each blames a token of the list.
-/
import Lox.Proofs.Recovery

namespace Lox

namespace Parser

variable {eof e : Token}

/-! ## Turns -/

/-- From `ts` on, the loop over statements comes to `rest`. -/
inductive Turns (eof : Token) : List Token → List Token → Prop
  | refl {ts : List Token} : Turns eof ts ts
  | step {t : Token} {ts rest : List Token} (h : Turns eof (turn eof t ts).rest rest) :
      Turns eof (t :: ts) rest

theorem accounts_declaration (eof : Token) (ts : List Token) :
    (declaration eof ts).Accounts eof ts 1 := by
  have hmore : NoElse [] := rfl
  have hlaws : Laws eof eof [] ts.length := laws hmore ts.length
  exact (law_declaration hlaws hmore (Nat.lt_succ_self _)).accounts

theorem spent_turn (eof t : Token) (ts : List Token) :
    Spent eof (t :: ts) (turn eof t ts).noted (turn eof t ts).rest :=
  spent_recover (accounts_declaration eof (t :: ts))

/-- Turn by turn, a run of statements spends its tokens. -/
theorem Turns.spent {ts rest : List Token} (h : Turns eof ts rest) :
    ∃ noted, Spent eof ts noted rest ∧
      (statements eof false ts).noted = noted ++ (statements eof false rest).noted := by
  induction h with
  | @refl ts => exact ⟨[], .refl eof ts, rfl⟩
  | @step t ts rest _ ih =>
      obtain ⟨noted, hspent, hnoted⟩ := ih
      refine ⟨_, (spent_turn eof t ts).append hspent, ?_⟩
      rw [(statements_cons eof ts (by simp)).2.1, hnoted, List.append_assoc]

theorem turns_nil (eof : Token) (ts : List Token) : Turns eof ts [] := by
  induction hlen : ts.length using Nat.strongRecOn generalizing ts with
  | ind k ih =>
      cases ts with
      | nil => exact .refl
      | cons t ts => exact .step (ih _ (hlen ▸ (turn eof t ts).shorter) _ rfl)

/-- What is left is at a place of the list, and so is the `eof` behind it. -/
theorem getElem?_place {ts rest more : List Token} (h : rest <:+ ts) :
    (ts ++ e :: more)[ts.length - rest.length]? = some (rest.headD e) := by
  obtain ⟨used, rfl⟩ := h
  rw [List.length_append, Nat.add_sub_cancel, List.append_assoc, List.getElem?_append_right
    (Nat.le_refl _), Nat.sub_self]
  cases rest with
  | nil => rfl
  | cons t rest => rfl

end Parser

/-! ## The theorem -/

/-- Parsing reads up to the first `eof`: turn by turn it comes there, at any turn
with no more errors than tokens passed, and at no place is it beyond.  Then it
has a program, or errors that are one or more, no more than the tokens before
the `eof`, and on tokens of the list. -/
theorem parse_bounded {ts : List Token} {e : Token} (more : List Token)
    (hts : ∀ t ∈ ts, t.kind ≠ .eof) (he : e.kind = .eof) :
    parse (ts ++ e :: more) = parse (ts ++ [e]) ∧
    Parser.Turns e ts [] ∧
    (∀ rest, Parser.Turns e ts rest →
      (∃ noted, Parser.Spent e ts noted rest ∧ (Parser.statements e false ts).noted =
        noted ++ (Parser.statements e false rest).noted) ∧
      (Parser.declaration e rest).Accounts e rest 1 ∧
      ∀ t us, rest = t :: us → (Parser.turn e t us).rest.length < rest.length) ∧
    (∀ rest, rest <:+ ts →
      (ts ++ e :: more)[ts.length - rest.length]? = some (rest.headD e)) ∧
    ((∃ body, parse (ts ++ e :: more) = .ok body ∧ (Parser.statements e false ts).noted = []) ∨
      ∃ errors, parse (ts ++ e :: more) = .error errors ∧
        errors = (Parser.statements e false ts).noted ∧ errors ≠ [] ∧
        errors.length ≤ ts.length ∧ ∀ error ∈ errors, error.token ∈ ts ++ [e]) := by
  refine ⟨?_, Parser.turns_nil e ts, fun rest h => ⟨h.spent, ?_, ?_⟩,
    fun rest h => Parser.getElem?_place h, ?_⟩
  · rw [parse_before hts he more, parse_eq hts he]
  · exact Parser.accounts_declaration e rest
  · rintro t us rfl
    exact (Parser.turn e t us).shorter
  · obtain ⟨noted, hspent, hnoted⟩ := (Parser.turns_nil e ts).spent
    rw [Parser.statements_nil, List.append_nil] at hnoted
    rw [parse_before hts he more, hnoted]
    cases noted with
    | nil => exact .inl ⟨_, rfl, rfl⟩
    | cons error errors =>
        refine .inr ⟨_, rfl, rfl, List.cons_ne_nil _ _, hspent.counts, fun error' herror' => ?_⟩
        have hmem := hspent.blamed error' herror'
        simpa [or_comm] using hmem

/-! ## A list that has as many errors as it can have -/

/-- `{ {` at the start of a text. -/
def openBraces : List Token := [⟨.leftBrace, "\x7b", ⟨1, 1⟩⟩, ⟨.leftBrace, "\x7b", ⟨1, 2⟩⟩]

/-- The end of the text behind the two braces. -/
def endOfBraces : Token := ⟨.eof, "", ⟨1, 3⟩⟩

/-- Each brace that nothing closes is an error, and a `}` behind the end closes
none. -/
theorem openBraces_bounded :
    (∀ t ∈ openBraces, t.kind ≠ .eof) ∧ endOfBraces.kind = .eof ∧
      ∃ errors, parse (openBraces ++ endOfBraces :: [⟨.rightBrace, "\x7d", ⟨1, 4⟩⟩]) =
          .error errors ∧
        errors.length = 2 ∧ errors.length ≤ openBraces.length ∧
        ∀ error ∈ errors, error.token ∈ openBraces ++ [endOfBraces] := by
  have hts : ∀ t ∈ openBraces, t.kind ≠ .eof := by decide
  have hend : endOfBraces.kind = .eof := rfl
  have htwo : (Parser.statements endOfBraces false openBraces).noted.length = 2 := by
    decide +kernel
  obtain ⟨-, -, -, -, hresult⟩ :=
    parse_bounded [⟨.rightBrace, "\x7d", ⟨1, 4⟩⟩] hts hend
  refine ⟨hts, hend, ?_⟩
  rw [parse_before hts hend] at hresult ⊢
  cases hnoted : (Parser.statements endOfBraces false openBraces).noted with
  | nil =>
      rw [hnoted] at htwo
      cases htwo
  | cons error errors =>
      rw [hnoted] at hresult htwo
      rcases hresult with ⟨_, hbody, -⟩ | ⟨_, herrors, -, -, hlength, htoken⟩
      · cases hbody
      · cases herrors
        exact ⟨_, rfl, htwo, hlength, htoken⟩

end Lox

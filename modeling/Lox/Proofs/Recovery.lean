/-
# What a reader takes, and where it stops

Done or stuck, a reader takes tokens from the front of its list only, blames a
token of the list or the one behind it, and has noted fewer errors than it took
tokens (`Reading.Accounts`).  The last part needs care inside of a block, where
a statement that is skipped may take no token when the list is at its end: the
brace that opened the block pays for it.

In a sentence, a list that ends at its only semicolon and has no brace and no
`for`, a reader also does the same whatever comes behind the sentence; it is
never stuck at the end, and only what a semicolon ends gets to the end
(`Reading.Keeps`).  This is what makes a skip stop where the sentence does.

Both are proved of all readers at once, `Reading.Law`, with one lemma for each
way of joining readers and then one for each construct.  The constructs call
each other, so the lemmas are about lists shorter than a bound, and an
induction on the bound puts them together: `laws`.
-/
import Lox.Proofs.Parse

namespace Lox

/-! ## Sentences -/

/-- The kinds of tokens that end a program or begin what may hold more than one
semicolon. -/
def unconfined : List TokenKind := [.eof, .leftBrace, .rightBrace, .kwFor]

/-- Tokens of confined kinds up to a semicolon, which is the only one. -/
inductive Sentence : List Token → Prop
  | last {t : Token} (ht : t.kind = .semicolon) : Sentence [t]
  | cons {t : Token} {ts : List Token} (hne : t.kind ≠ .semicolon) (ht : t.kind ∉ unconfined)
      (hts : Sentence ts) : Sentence (t :: ts)

namespace Sentence

variable {t : Token} {ts us : List Token}

theorem ne_nil (h : Sentence ts) : ts ≠ [] := by
  cases h <;> exact List.cons_ne_nil _ _

theorem tail (h : Sentence (t :: ts)) (hne : t.kind ≠ .semicolon) : Sentence ts := by
  cases h with
  | last ht => exact absurd ht hne
  | cons _ _ hts => exact hts

theorem eq_nil (h : Sentence (t :: ts)) (ht : t.kind = .semicolon) : ts = [] := by
  cases h with
  | last => rfl
  | cons hne => exact absurd ht hne

theorem confined (h : Sentence (t :: ts)) : t.kind ∉ unconfined := by
  cases h with
  | last ht => simp [ht, unconfined]
  | cons _ ht => exact ht

theorem cons_iff :
    Sentence (t :: ts) ↔ if t.kind = .semicolon then ts = []
      else t.kind ∉ unconfined ∧ Sentence ts := by
  constructor
  · intro h
    split
    · exact h.eq_nil ‹_›
    · exact ⟨h.confined, h.tail ‹_›⟩
  · intro h
    split at h
    · exact h ▸ .last ‹_›
    · exact .cons ‹_› h.1 h.2

instance decidable : (ts : List Token) → Decidable (Sentence ts)
  | [] => .isFalse nofun
  | t :: ts =>
    have := decidable ts
    decidable_of_iff' (if t.kind = .semicolon then ts = [] else t.kind ∉ unconfined ∧ Sentence ts)
      cons_iff

/-- What is left of a sentence is a sentence or nothing. -/
theorem suffix (h : Sentence ts) (hs : us <:+ ts) (hne : us ≠ []) : Sentence us := by
  induction h with
  | last ht =>
      rcases List.suffix_cons_iff.mp hs with rfl | hs
      · exact .last ht
      · exact absurd (List.suffix_nil.mp hs) hne
  | cons hk ht hts ih =>
      rcases List.suffix_cons_iff.mp hs with rfl | hs
      · exact .cons hk ht hts
      · exact ih hs

end Sentence

namespace Reading

variable {α β : Type} {n n' k k' : Nat}

/-! ## What a reading accounts for -/

/-- The errors of a reading, that which it is stuck at the last. -/
def errors : Reading α n → List SyntaxError
  | done _ _ noted _ => noted
  | stuck e _ noted _ => noted ++ [e]

/-- What a reading leaves of its list. -/
def rest : Reading α n → List Token
  | done _ rest _ _ => rest
  | stuck _ rest _ _ => rest

/-- Done, a reading took more of the `n` tokens than it noted errors.  Stuck, it
noted none, or at least `spare` errors less than it took tokens. -/
def Counts (spare : Nat) : Reading α n → Prop
  | done _ rest noted _ => noted.length + rest.length < n
  | stuck _ rest noted _ => noted = [] ∨ noted.length + rest.length + spare ≤ n

/-- What a reading of the list `ts` takes and blames. -/
structure Accounts (eof : Token) (ts : List Token) (spare : Nat) (r : Reading α n) : Prop where
  suffix : r.rest <:+ ts
  blamed : ∀ e ∈ r.errors, e.token ∈ eof :: ts
  counts : r.Counts spare

variable {eof eof' : Token} {t : Token} {ts rest : List Token} {spare : Nat} {r : Reading α n}

theorem accounts_here {a : α} (h : rest <:+ ts) : (here a rest).Accounts eof ts spare where
  suffix := h
  blamed := List.forall_mem_nil _
  counts := by simp [here, Counts]

theorem accounts_stuck {e : SyntaxError} {hle : rest.length ≤ n} (h : rest <:+ ts)
    (he : e.token ∈ eof :: ts) : (stuck e rest [] hle : Reading α n).Accounts eof ts spare where
  suffix := h
  blamed := by simpa [errors] using he
  counts := .inl rfl

theorem accounts_stopAt {fault : SyntaxFault} :
    (stopAt eof fault ts : Reading α ts.length).Accounts eof ts spare := by
  refine accounts_stuck List.suffix_rfl ?_
  cases ts with
  | nil => exact List.mem_cons_self
  | cons t ts => exact List.mem_cons_of_mem _ List.mem_cons_self

namespace Accounts

theorem map {f : α → β} (h : r.Accounts eof ts spare) : (r.map f).Accounts eof ts spare := by
  cases r with
  | done | stuck => exact ⟨h.suffix, h.blamed, h.counts⟩

theorem widen {le : n ≤ k} (h : r.Accounts eof ts spare) :
    (r.widen le).Accounts eof ts spare := by
  cases r with
  | done => exact ⟨h.suffix, h.blamed, Nat.lt_of_lt_of_le h.counts le⟩
  | stuck => exact ⟨h.suffix, h.blamed, h.counts.imp id fun hc => Nat.le_trans hc le⟩

theorem spend (h : r.Accounts eof ts spare) : r.Accounts eof ts 0 := by
  cases r with
  | done => exact ⟨h.suffix, h.blamed, h.counts⟩
  | stuck => exact ⟨h.suffix, h.blamed, h.counts.imp id fun hc => Nat.le_of_add_right_le hc⟩

/-- A list that begins one token earlier has one to spare. -/
theorem behind (h : r.Accounts eof ts 0) : r.loosen.Accounts eof (t :: ts) 1 := by
  have hblamed : ∀ e ∈ r.errors, e.token ∈ eof :: t :: ts := fun e he =>
    (List.mem_cons.mp (h.blamed e he)).elim (fun h0 => h0 ▸ List.mem_cons_self)
      fun h0 => List.mem_cons_of_mem _ (List.mem_cons_of_mem _ h0)
  cases r with
  | done => exact ⟨h.suffix.trans (List.suffix_cons _ _), hblamed, Nat.lt_succ_of_lt h.counts⟩
  | stuck =>
      exact ⟨h.suffix.trans (List.suffix_cons _ _), hblamed,
        h.counts.imp id fun hc => Nat.succ_le_succ hc⟩

/-- Errors noted earlier and then those of a reading of what was left then. -/
theorem noting {us : List Token} (spare : Nat) {spare' : Nat}
    {r : Reading α (us.length + spare)} {earlier : List SyntaxError}
    {le : us.length + spare ≤ n} (hspare : spare ≤ spare') (h : r.Accounts eof us spare)
    (hs : us <:+ ts) (hblamed : ∀ e ∈ earlier, e.token ∈ eof :: ts)
    (hcounts : earlier.length + us.length + spare' ≤ n) :
    ((r.widen le).noting earlier).Accounts eof ts spare' := by
  have hlater : ∀ e ∈ r.errors, e.token ∈ eof :: ts := fun e he =>
    List.cons_subset_cons _ hs.subset (h.blamed e he)
  have hrest := h.suffix.length_le
  cases r with
  | done a rest noted hlt =>
      have hc : noted.length + rest.length < us.length + spare := h.counts
      refine ⟨h.suffix.trans hs, ?_, ?_⟩
      · exact fun e he => (List.mem_append.mp he).elim (hblamed e) (hlater e)
      · simp only [Reading.widen, Reading.noting, Counts, List.length_append]
        omega
  | stuck e rest noted hle =>
      refine ⟨h.suffix.trans hs, ?_, ?_⟩
      · intro e' he'
        simp only [Reading.widen, Reading.noting, errors, List.append_assoc] at he'
        exact (List.mem_append.mp he').elim (hblamed e') (hlater e')
      · simp only [Reading.widen, Reading.noting, Counts, List.length_append]
        rcases h.counts with rfl | hc
        · exact .inr (by simp only [Reading.rest] at hrest; simp only [List.length_nil]; omega)
        · exact .inr (by omega)

/-- What is read after a token was taken need have nothing to spare. -/
theorem andThen {f : α → (rest : List Token) → rest.length < n → Reading β rest.length}
    (h : r.Accounts eof ts 1) (hf : ∀ a ts₁ hs, (f a ts₁ hs).Accounts eof ts₁ 0) :
    (r.andThen f).Accounts eof ts 1 := by
  cases r with
  | stuck => exact ⟨h.suffix, h.blamed, h.counts⟩
  | done a ts₁ noted hs => exact noting 0 (Nat.zero_le _) (hf a ts₁ hs) h.suffix h.blamed h.counts

theorem andPerhaps
    {f : α → (rest : List Token) → rest.length < n → Reading β (rest.length + 1)}
    (h : r.Accounts eof ts 1) (hf : ∀ a ts₁ hs, (f a ts₁ hs).Accounts eof ts₁ 1) :
    (r.andPerhaps f).Accounts eof ts 1 := by
  cases r with
  | stuck => exact ⟨h.suffix, h.blamed, h.counts⟩
  | done a ts₁ noted hs => exact noting 1 (Nat.le_refl _) (hf a ts₁ hs) h.suffix h.blamed h.counts

end Accounts

/-! ## What does not depend on what comes behind -/

/-- Without an error noted, `r'` does what `r` does, with `more` behind what is
left; `P` holds of what is left when they are done, and when they are stuck it
is not nothing. -/
def Keeps (more : List Token) (P : List Token → Prop) (r : Reading α n) (r' : Reading α n') :
    Prop :=
  match r with
  | done a rest noted _ => noted = [] ∧ P rest ∧ ∃ h, r' = done a (rest ++ more) [] h
  | stuck e rest noted _ => noted = [] ∧ rest ≠ [] ∧ ∃ h, r' = stuck e (rest ++ more) [] h

/-- There is something left. -/
abbrev Inside (rest : List Token) : Prop := rest ≠ []

/-- There is nothing left. -/
abbrev AtEnd (rest : List Token) : Prop := rest = []

variable {more : List Token} {P Q : List Token → Prop} {r' : Reading α n'}

namespace Keeps

theorem map {f : α → β} (h : Keeps more P r r') : Keeps more P (r.map f) (r'.map f) := by
  cases r with
  | done =>
      obtain ⟨hnoted, hP, _, rfl⟩ := h
      exact ⟨hnoted, hP, _, rfl⟩
  | stuck =>
      obtain ⟨hnoted, hne, _, rfl⟩ := h
      exact ⟨hnoted, hne, _, rfl⟩

theorem widen {le : n ≤ k} {le' : n' ≤ k'} (h : Keeps more P r r') :
    Keeps more P (r.widen le) (r'.widen le') := by
  cases r with
  | done =>
      obtain ⟨hnoted, hP, _, rfl⟩ := h
      exact ⟨hnoted, hP, _, rfl⟩
  | stuck =>
      obtain ⟨hnoted, hne, _, rfl⟩ := h
      exact ⟨hnoted, hne, _, rfl⟩

theorem noting_nil (h : Keeps more P r r') : Keeps more P (r.noting []) (r'.noting []) := by
  cases r with
  | done =>
      obtain ⟨hnoted, hP, _, rfl⟩ := h
      exact ⟨hnoted, hP, _, rfl⟩
  | stuck =>
      obtain ⟨hnoted, hne, _, rfl⟩ := h
      exact ⟨hnoted, hne, _, rfl⟩

theorem andThen {f : α → (rest : List Token) → rest.length < n → Reading β rest.length}
    {g : α → (rest : List Token) → rest.length < n' → Reading β rest.length}
    (h : Keeps more P r r')
    (hfg : ∀ a ts₁ hs hs', r.rest = ts₁ → P ts₁ →
      Keeps more Q (f a ts₁ hs) (g a (ts₁ ++ more) hs')) :
    Keeps more Q (r.andThen f) (r'.andThen g) := by
  cases r with
  | done a ts₁ noted hs =>
      obtain ⟨rfl, hP, hs', rfl⟩ := h
      exact (hfg a ts₁ hs hs' rfl hP).widen.noting_nil
  | stuck =>
      obtain ⟨hnoted, hne, _, rfl⟩ := h
      exact ⟨hnoted, hne, _, rfl⟩

theorem andPerhaps
    {f : α → (rest : List Token) → rest.length < n → Reading β (rest.length + 1)}
    {g : α → (rest : List Token) → rest.length < n' → Reading β (rest.length + 1)}
    (h : Keeps more P r r')
    (hfg : ∀ a ts₁ hs hs', r.rest = ts₁ → P ts₁ →
      Keeps more Q (f a ts₁ hs) (g a (ts₁ ++ more) hs')) :
    Keeps more Q (r.andPerhaps f) (r'.andPerhaps g) := by
  cases r with
  | done a ts₁ noted hs =>
      obtain ⟨rfl, hP, hs', rfl⟩ := h
      exact (hfg a ts₁ hs hs' rfl hP).widen.noting_nil
  | stuck =>
      obtain ⟨hnoted, hne, _, rfl⟩ := h
      exact ⟨hnoted, hne, _, rfl⟩

end Keeps

/-! ## The law of a reader -/

/-- What reading the list `ts` accounts for, and what it keeps with `more`
behind the list if that is a sentence. -/
structure Law (eof : Token) (more : List Token) (P : List Token → Prop) (ts : List Token)
    (r : Reading α n) (r' : Reading α n') : Prop where
  accounts : r.Accounts eof ts 1
  keeps : Sentence ts → Keeps more P r r'

theorem law_of_nil (h : r.Accounts eof [] 1) : Law eof more P [] r r' :=
  ⟨h, fun hsent => absurd rfl hsent.ne_nil⟩

theorem law_here {a : α} (h : rest <:+ ts) (hP : Sentence ts → P rest) :
    Law eof more P ts (here a rest) (here a (rest ++ more)) :=
  ⟨accounts_here h, fun hsent => ⟨rfl, hP hsent, _, rfl⟩⟩

theorem law_stuck {e : SyntaxError} {hle : rest.length ≤ n} {hle' : (rest ++ more).length ≤ n'}
    (h : rest <:+ ts) (he : e.token ∈ eof :: ts) (hrest : Sentence ts → rest ≠ []) :
    Law eof more P ts (stuck e rest [] hle : Reading α n)
      (stuck e (rest ++ more) [] hle' : Reading α n') :=
  ⟨accounts_stuck h he, fun hsent => ⟨rfl, hrest hsent, _, rfl⟩⟩

/-- A token that is no semicolon is not the last one. -/
theorem law_token {kind : TokenKind} {a : α} (ht : t.kind = kind) (hne : kind ≠ .semicolon) :
    Law eof more Inside (t :: ts) (here a ts) (here a (ts ++ more)) :=
  law_here (List.suffix_cons _ _) fun hsent => (hsent.tail (ht ▸ hne)).ne_nil

/-- The token to blame is in the sentence. -/
theorem law_stopAt {fault : SyntaxFault} : Law eof more P ts
    (stopAt eof fault ts : Reading α ts.length)
    (stopAt eof' fault (ts ++ more) : Reading α (ts ++ more).length) := by
  cases ts with
  | nil => exact law_of_nil accounts_stopAt
  | cons t ts => exact ⟨accounts_stopAt, fun _ => ⟨rfl, List.cons_ne_nil _ _, _, rfl⟩⟩

namespace Law

theorem map {f : α → β} (h : Law eof more P ts r r') :
    Law eof more P ts (r.map f) (r'.map f) :=
  ⟨h.accounts.map, fun hsent => (h.keeps hsent).map⟩

theorem loosen (h : Law eof more P ts r r') : Law eof more P ts r.loosen r'.loosen :=
  ⟨h.accounts.widen, fun hsent => (h.keeps hsent).widen⟩

/-- A token in front that is no semicolon. -/
theorem behind {kind : TokenKind} (ht : t.kind = kind) (hne : kind ≠ .semicolon)
    (h : Law eof more P ts r r') : Law eof more P (t :: ts) r.loosen r'.loosen :=
  ⟨h.accounts.spend.behind, fun hsent => (h.keeps (hsent.tail (ht ▸ hne))).widen⟩

/-- A token in front that no sentence has. -/
theorem barred {kind : TokenKind} (ht : t.kind = kind) (hmem : kind ∈ unconfined)
    (h : r.Accounts eof ts 0) : Law eof more P (t :: ts) r.loosen r' :=
  ⟨h.behind, fun hsent => absurd (ht ▸ hmem) hsent.confined⟩

theorem ite {c c' : Prop} [Decidable c] [Decidable c'] {a b : Reading α n} {a' b' : Reading α n'}
    (hc : Sentence ts → (c' ↔ c)) (ha : Law eof more P ts a a') (hb : Law eof more P ts b b') :
    Law eof more P ts (if c then a else b) (if c' then a' else b') := by
  refine ⟨?_, fun hsent => ?_⟩
  · split
    · exact ha.accounts
    · exact hb.accounts
  · rw [if_congr (hc hsent) rfl rfl]
    split
    · exact ha.keeps hsent
    · exact hb.keeps hsent

theorem length_append_lt {us : List Token} (h : us.length < ts.length) :
    (us ++ more).length < (ts ++ more).length := by
  simpa using h

/-- What reads the rest of a sentence reads a sentence. -/
theorem andThen {r : Reading α ts.length} {r' : Reading α (ts ++ more).length}
    {f : α → (rest : List Token) → rest.length < ts.length → Reading β rest.length}
    {g : α → (rest : List Token) → rest.length < (ts ++ more).length → Reading β rest.length}
    (h : Law eof more Inside ts r r')
    (hfg : ∀ a ts₁ hs hs', Law eof more Q ts₁ (f a ts₁ hs) (g a (ts₁ ++ more) hs')) :
    Law eof more Q ts (r.andThen f) (r'.andThen g) := by
  refine ⟨h.accounts.andThen fun a ts₁ hs => ?_, fun hsent => (h.keeps hsent).andThen ?_⟩
  · exact (hfg a ts₁ hs (length_append_lt hs)).accounts.spend
  · rintro a ts₁ hs hs' rfl hne
    exact (hfg a _ hs hs').keeps (hsent.suffix h.accounts.suffix hne)

theorem andPerhaps {r : Reading α ts.length} {r' : Reading α (ts ++ more).length}
    {f : α → (rest : List Token) → rest.length < ts.length → Reading β (rest.length + 1)}
    {g : α → (rest : List Token) → rest.length < (ts ++ more).length →
      Reading β (rest.length + 1)}
    (h : Law eof more Inside ts r r')
    (hfg : ∀ a ts₁ hs hs', Law eof more Q ts₁ (f a ts₁ hs) (g a (ts₁ ++ more) hs')) :
    Law eof more Q ts (r.andPerhaps f) (r'.andPerhaps g) := by
  refine ⟨h.accounts.andPerhaps fun a ts₁ hs => ?_, fun hsent => (h.keeps hsent).andPerhaps ?_⟩
  · exact (hfg a ts₁ hs (length_append_lt hs)).accounts
  · rintro a ts₁ hs hs' rfl hne
    exact (hfg a _ hs hs').keeps (hsent.suffix h.accounts.suffix hne)

/-- Behind what no sentence has, nothing is to be kept. -/
theorem andNever {r : Reading α ts.length} {r' : Reading α (ts ++ more).length}
    {f : α → (rest : List Token) → rest.length < ts.length → Reading β rest.length}
    {g : α → (rest : List Token) → rest.length < (ts ++ more).length → Reading β rest.length}
    (h : Law eof more (fun _ => False) ts r r')
    (hf : ∀ a ts₁ hs, (f a ts₁ hs).Accounts eof ts₁ 0) :
    Law eof more Q ts (r.andThen f) (r'.andThen g) :=
  ⟨h.accounts.andThen hf, fun hsent => (h.keeps hsent).andThen fun _ _ _ _ _ => False.elim⟩

/-- What is read may be wanting, and the token in front is blamed for it. -/
theorem checked {kind : TokenKind} (fault : SyntaxFault) {r : Reading α ts.length}
    {r' : Reading α (ts ++ more).length}
    {f : α → (rest : List Token) → rest.length < ts.length → Reading β (rest.length + 1)}
    {g : α → (rest : List Token) → rest.length < (ts ++ more).length →
      Reading β (rest.length + 1)} (ht : t.kind = kind) (hne : kind ≠ .semicolon)
    (h : Law eof more Inside ts r r')
    (hfg : ∀ a,
      (∃ b, (∀ ts₁ hs, f a ts₁ hs = here b ts₁) ∧ ∀ ts₁ hs, g a ts₁ hs = here b ts₁) ∨
      (∀ ts₁ hs, f a ts₁ hs = stuck ⟨fault, t⟩ ts₁ [] (Nat.le_succ _)) ∧
        ∀ ts₁ hs, g a ts₁ hs = stuck ⟨fault, t⟩ ts₁ [] (Nat.le_succ _)) :
    Law eof more Inside (t :: ts) (r.andPerhaps f).loosen (r'.andPerhaps g).loosen := by
  refine ⟨?_, fun hsent => ((h.keeps (hsent.tail (ht ▸ hne))).andPerhaps ?_).widen⟩
  · have hr : (r.loosen).Accounts eof (t :: ts) 1 := h.accounts.spend.behind
    cases r with
    | stuck => exact ⟨hr.suffix, hr.blamed, hr.counts⟩
    | done a ts₁ noted hs =>
        have hblamed : ∀ e ∈ noted, e.token ∈ eof :: t :: ts := hr.blamed
        have hcounts : noted.length + ts₁.length < ts.length := h.accounts.counts
        rcases hfg a with ⟨b, hf, -⟩ | ⟨hf, -⟩
        · simp only [Reading.andPerhaps, hf, here, Reading.widen, Reading.noting,
            Reading.loosen, List.append_nil]
          exact ⟨hr.suffix, hblamed, Nat.lt_succ_of_lt hcounts⟩
        · simp only [Reading.andPerhaps, hf, Reading.widen, Reading.noting, Reading.loosen,
            List.append_nil]
          refine ⟨hr.suffix, ?_, .inr (Nat.succ_le_succ (Nat.le_of_lt hcounts))⟩
          intro e he
          rcases List.mem_append.mp he with he | he
          · exact hblamed e he
          · rw [List.mem_singleton.mp he]
            exact List.mem_cons_of_mem _ List.mem_cons_self
  · rintro a ts₁ hs hs' rfl hrest
    rcases hfg a with ⟨b, hf, hg⟩ | ⟨hf, hg⟩
    · rw [hf, hg]
      exact ⟨rfl, hrest, _, rfl⟩
    · rw [hf, hg]
      exact ⟨rfl, hrest, _, rfl⟩

end Law

end Reading

namespace Parser

open Reading

variable {eof eof' : Token} {more : List Token} {n : Nat}

/-! ## Tokens -/

theorem accounts_expect {kind : TokenKind} {what : String} {ts : List Token} :
    (expect eof kind what ts).Accounts eof ts 1 := by
  unfold expect
  split
  · split
    · exact accounts_here (List.suffix_cons _ _)
    · exact accounts_stopAt
  · exact accounts_stopAt

theorem law_expect (kind : TokenKind) (what : String) (ts : List Token) {P : List Token → Prop}
    (hP : ∀ t rest, t.kind = kind → Sentence (t :: rest) → P rest) :
    Law eof more P ts (expect eof kind what ts) (expect eof' kind what (ts ++ more)) := by
  refine ⟨accounts_expect, fun hsent => ?_⟩
  cases ts with
  | nil => exact absurd rfl hsent.ne_nil
  | cons t ts =>
      unfold expect
      simp only [List.cons_append]
      by_cases hk : t.kind = kind
      · simp only [if_pos hk]
        exact ⟨rfl, hP t ts hk hsent, _, rfl⟩
      · simp only [if_neg hk]
        exact ⟨rfl, List.cons_ne_nil _ _, _, rfl⟩

/-- A sentence does not end with a token of another kind than a semicolon. -/
theorem law_expect_inside (kind : TokenKind) (hne : kind ≠ .semicolon) (what : String)
    (ts : List Token) :
    Law eof more Inside ts (expect eof kind what ts) (expect eof' kind what (ts ++ more)) :=
  law_expect kind what ts fun _ _ hk hsent => (hsent.tail (hk ▸ hne)).ne_nil

theorem law_expect_atEnd (what : String) (ts : List Token) :
    Law eof more AtEnd ts (expect eof .semicolon what ts)
      (expect eof' .semicolon what (ts ++ more)) :=
  law_expect .semicolon what ts fun _ _ hk hsent => hsent.eq_nil hk

theorem law_expect_never (kind : TokenKind) (hmem : kind ∈ unconfined) (what : String)
    (ts : List Token) :
    Law eof more (fun _ => False) ts (expect eof kind what ts)
      (expect eof' kind what (ts ++ more)) :=
  law_expect kind what ts fun _ _ hk hsent => hsent.confined (hk ▸ hmem)

/-- What comes next in a sentence comes next with more behind. -/
theorem nextIs_append {kind : TokenKind} {ts : List Token} (hsent : Sentence ts) :
    nextIs kind (ts ++ more) = true ↔ nextIs kind ts = true := by
  cases ts with
  | nil => exact absurd rfl hsent.ne_nil
  | cons t ts => rfl

theorem law_parameters (n count : Nat) {ts : List Token} (hlt : ts.length < n) :
    Law eof more Inside ts (parameters eof count ts) (parameters eof' count (ts ++ more)) := by
  induction n generalizing count ts with
  | zero => exact absurd hlt (Nat.not_lt_zero _)
  | succ n ih =>
      unfold parameters
      by_cases hcount : maxArguments ≤ count
      · simp only [if_pos hcount]
        exact law_stopAt
      · simp only [if_neg hcount]
        refine (law_expect_inside .identifier (by decide) _ _).andPerhaps ?_
        intro name ts₁ hs _
        cases ts₁ with
        | nil => exact law_of_nil (accounts_here List.suffix_rfl)
        | cons t ts₂ =>
            simp only [List.cons_append]
            by_cases hk : t.kind = .comma
            · simp only [if_pos hk]
              simp only [List.length_cons] at hs
              exact ((ih (count + 1) (by omega)).map.behind hk (by decide)).loosen
            · simp only [if_neg hk]
              exact law_here List.suffix_rfl Sentence.ne_nil

/-! ## Readers of lists shorter than a bound -/

/-- The law of a reader on lists shorter than `n`. -/
def Lawful (eof : Token) (more : List Token) (n : Nat) (P : List Token → Prop) {α : Type}
    (r r' : (ts : List Token) → Reading α ts.length) : Prop :=
  ∀ {ts}, ts.length < n → Law eof more P ts (r ts) (r' (ts ++ more))

/-- The readers that earlier ones call, on shorter lists. -/
structure Laws (eof eof' : Token) (more : List Token) (n : Nat) : Prop where
  operand : ∀ p, Lawful eof more n Inside (operand eof p) (operand eof' p)
  climbOn : ∀ p l {ts}, ts.length < n →
    Law eof more Inside ts (climbOn eof p l ts) (climbOn eof' p l (ts ++ more))
  unary : Lawful eof more n Inside (unary eof) (unary eof')
  callOn : ∀ e {ts}, ts.length < n →
    Law eof more Inside ts (callOn eof e ts) (callOn eof' e (ts ++ more))
  expression : Lawful eof more n Inside (expression eof) (expression eof')
  argumentList : ∀ count,
    Lawful eof more n Inside (argumentList eof count) (argumentList eof' count)
  arguments : Lawful eof more n Inside (arguments eof) (arguments eof')
  elementsAfter : Lawful eof more n Inside (elementsAfter eof) (elementsAfter eof')
  elements : Lawful eof more n Inside (elements eof) (elements eof')
  array : ∀ b, Lawful eof more n Inside (array eof b) (array eof' b)
  methods : ∀ {ts}, ts.length < n → (methods eof ts).Accounts eof ts 1
  statement : Lawful eof more n AtEnd (statement eof) (statement eof')
  blockBody : ∀ {ts}, ts.length < n → (blockBody eof ts).Accounts eof ts 0

variable (ih : Laws eof eof' more n)
include ih

/-! ## Expressions -/

omit ih in
theorem semicolon_not_mem_operators (p : Precedence) : .semicolon ∉ p.operators := by
  cases p <;> decide

theorem law_climbOn (p : Precedence) (l : Expr) {ts : List Token} (hlt : ts.length < n + 1) :
    Law eof more Inside ts (climbOn eof p l ts) (climbOn eof' p l (ts ++ more)) := by
  cases ts with
  | nil =>
      unfold climbOn
      exact law_of_nil (accounts_here List.suffix_rfl)
  | cons t ts =>
      have hts : ts.length < n := Nat.lt_of_succ_lt_succ hlt
      unfold climbOn
      simp only [List.cons_append]
      by_cases hk : t.kind ∈ p.operators
      · simp only [if_pos hk]
        refine (((ih.operand p hts).andPerhaps ?_).behind rfl ?_).loosen
        · exact fun r ts₂ hs _ => ih.climbOn p _ (Nat.lt_trans hs hts)
        · exact fun h0 => semicolon_not_mem_operators p (h0 ▸ hk)
      · simp only [if_neg hk]
        exact law_here List.suffix_rfl Sentence.ne_nil

theorem law_elementsAfter :
    Lawful eof more (n + 1) Inside (elementsAfter eof) (elementsAfter eof') := by
  intro ts hlt
  cases ts with
  | nil =>
      unfold elementsAfter
      exact law_of_nil accounts_stopAt
  | cons t ts =>
      have hts : ts.length < n := Nat.lt_of_succ_lt_succ hlt
      unfold elementsAfter
      simp only [List.cons_append]
      by_cases hk : t.kind = .comma
      · simp only [if_pos hk]
        refine ((ih.expression hts).andThen ?_).behind hk (by decide)
        exact fun e ts₂ hs _ => (ih.elementsAfter (Nat.lt_trans hs hts)).map
      by_cases hk' : t.kind = .rightBracket
      · simp only [if_neg hk, if_pos hk']
        exact law_token hk' (by decide)
      · simp only [if_neg hk, if_neg hk']
        exact law_stopAt

theorem law_callOn (e : Expr) {ts : List Token} (hlt : ts.length < n + 1) :
    Law eof more Inside ts (callOn eof e ts) (callOn eof' e (ts ++ more)) := by
  cases ts with
  | nil =>
      unfold callOn
      exact law_of_nil (accounts_here List.suffix_rfl)
  | cons t ts =>
      have hts : ts.length < n := Nat.lt_of_succ_lt_succ hlt
      unfold callOn
      simp only [List.cons_append]
      by_cases hk : t.kind = .leftParen
      · simp only [if_pos hk]
        refine (((ih.arguments hts).andPerhaps ?_).behind hk (by decide)).loosen
        exact fun _ ts₂ hs _ => ih.callOn _ (Nat.lt_trans hs hts)
      by_cases hdot : t.kind = .dot
      · simp only [if_neg hk, if_pos hdot]
        refine (((law_expect_inside .identifier (by decide) _ _).andPerhaps ?_).behind hdot
          (by decide)).loosen
        exact fun _ ts₂ hs _ => ih.callOn _ (Nat.lt_trans hs hts)
      by_cases hbracket : t.kind = .leftBracket
      · simp only [if_neg hk, if_neg hdot, if_pos hbracket]
        refine (((ih.expression hts).andThen ?_).behind hbracket (by decide)).loosen
        intro i ts₂ hs _
        refine (law_expect_inside .rightBracket (by decide) _ _).andPerhaps ?_
        exact fun _ ts₃ hs' _ => ih.callOn _ (Nat.lt_trans hs' (Nat.lt_trans hs hts))
      · simp only [if_neg hk, if_neg hdot, if_neg hbracket]
        exact law_here List.suffix_rfl Sentence.ne_nil

/-! ## Functions -/

/-- A sentence has no body of a function, so that nothing is read. -/
theorem law_functionBody (k : Token) (name : Option Token) (ps : List Token) {ts : List Token}
    {P : List Token → Prop} (hlt : ts.length < n + 1) :
    Law eof more P ts (functionBody eof k name ps ts)
      (functionBody eof' k name ps (ts ++ more)) := by
  unfold functionBody
  refine (law_expect_inside .rightParen (by decide) _ _).andThen ?_
  intro _ ts₁ hs₁ _
  refine (law_expect_never .leftBrace (by decide) _ _).andNever ?_
  exact fun _ ts₂ hs₂ => (ih.blockBody (by omega)).map

theorem law_functionAfterName (k : Token) (name : Option Token) {ts : List Token}
    {P : List Token → Prop} (hlt : ts.length < n + 1) :
    Law eof more P ts (functionAfterName eof k name ts)
      (functionAfterName eof' k name (ts ++ more)) := by
  unfold functionAfterName
  refine (law_expect_inside .leftParen (by decide) _ _).andThen ?_
  intro _ ts₁ hs₁ _
  refine .ite nextIs_append (law_functionBody ih k name [] (by omega)) ?_
  refine (law_parameters _ 0 (Nat.lt_succ_self _)).andThen ?_
  exact fun ps ts₂ hs₂ _ => law_functionBody ih k name ps (by omega)

theorem law_functionNamed (k : Token) {ts : List Token} {P : List Token → Prop}
    (hlt : ts.length < n + 1) :
    Law eof more P ts (functionNamed eof k ts) (functionNamed eof' k (ts ++ more)) := by
  unfold functionNamed
  refine (law_expect_inside .identifier (by decide) _ _).andThen ?_
  exact fun name ts₁ hs₁ _ => law_functionAfterName ih k (some name) (by omega)

theorem law_lambda (k : Token) : Lawful eof more (n + 1) Inside (lambda eof k) (lambda eof' k) := by
  intro ts hlt
  cases ts with
  | nil =>
      unfold lambda
      have hafter : Law eof more Inside [] _ (functionAfterName eof' k none ([] ++ more)) :=
        law_functionAfterName ih k none hlt
      exact law_of_nil hafter.accounts
  | cons t ts =>
      unfold lambda
      simp only [List.cons_append]
      by_cases hi : t.kind = .identifier
      · simp only [if_pos hi]
        exact (law_functionAfterName ih k (some t) (Nat.lt_of_succ_lt hlt)).behind hi (by decide)
      · simp only [if_neg hi]
        exact law_functionAfterName ih k none hlt

/-! ## Operands -/

theorem law_arrayAfter (b : Token) (e : Expr) {ts : List Token} (hlt : ts.length < n + 1) :
    Law eof more Inside ts (arrayAfter eof b e ts) (arrayAfter eof' b e (ts ++ more)) := by
  unfold arrayAfter
  refine .ite nextIs_append ?_ (law_elementsAfter ih hlt).map
  refine (law_expect_inside .colon (by decide) _ _).andThen ?_
  exact fun _ ts₁ hs₁ _ => (ih.elements (by omega)).map

theorem law_primary : Lawful eof more (n + 1) Inside (primary eof) (primary eof') := by
  intro ts hlt
  cases ts with
  | nil =>
      unfold primary
      exact law_of_nil accounts_stopAt
  | cons t ts =>
      have hts : ts.length < n := Nat.lt_of_succ_lt_succ hlt
      unfold primary
      simp only [List.cons_append]
      split
      · rename_i hk
        exact law_token hk (by decide)
      · rename_i hk
        exact law_token hk (by decide)
      · rename_i hk
        exact law_token hk (by decide)
      · rename_i hk
        cases Number.ofText? t.lexeme with
        | some x => exact law_token hk (by decide)
        | none =>
            refine law_stuck (List.suffix_cons _ _) ?_ ?_
            · exact List.mem_cons_of_mem _ List.mem_cons_self
            · exact fun hsent => (hsent.tail (by simp [hk])).ne_nil
      · rename_i hk
        exact law_token hk (by decide)
      · rename_i hk
        exact law_token hk (by decide)
      · rename_i hk
        exact law_token hk (by decide)
      · rename_i hk
        refine ((law_expect_inside .dot (by decide) _ _).andThen ?_).behind hk (by decide)
        exact fun _ ts₂ _ _ => (law_expect_inside .identifier (by decide) _ _).map
      · rename_i hk
        exact (law_lambda ih t (Nat.lt_of_succ_lt hlt)).map.behind hk (by decide)
      · rename_i hk
        exact (ih.array t hts).behind hk (by decide)
      · rename_i hk
        refine ((ih.expression hts).andThen ?_).behind hk (by decide)
        exact fun e ts₂ _ _ => (law_expect_inside .rightParen (by decide) _ _).map
      · exact law_stopAt

theorem law_call : Lawful eof more (n + 1) Inside (call eof) (call eof') := by
  intro ts hlt
  unfold call
  refine (law_primary ih hlt).andPerhaps ?_
  exact fun e ts₁ hs _ => law_callOn ih e (Nat.lt_trans hs hlt)

theorem law_unary : Lawful eof more (n + 1) Inside (unary eof) (unary eof') := by
  intro ts hlt
  cases ts with
  | nil =>
      unfold unary
      exact law_of_nil (law_call ih hlt).accounts
  | cons t ts =>
      unfold unary
      simp only [List.cons_append]
      by_cases hk : t.kind = .bang ∨ t.kind = .minus
      · simp only [if_pos hk]
        refine (ih.unary (Nat.lt_of_succ_lt_succ hlt)).map.behind rfl ?_
        rcases hk with hk | hk <;> simp [hk]
      · simp only [if_neg hk]
        exact law_call ih hlt

/-! ## Binary operators, from tight to loose -/

theorem law_operand (p : Precedence) :
    Lawful eof more (n + 1) Inside (operand eof p) (operand eof' p) := by
  induction hh : p.height using Nat.strongRecOn generalizing p with
  | ind h hp =>
      intro ts hlt
      unfold operand
      split
      · rename_i q hq
        unfold climb
        refine (hp q.height (hh ▸ Precedence.height_tighter hq) q rfl hlt).andPerhaps ?_
        exact fun l ts₁ hs _ => law_climbOn ih q l (Nat.lt_trans hs hlt)
      · exact law_unary ih hlt

theorem law_climb (p : Precedence) :
    Lawful eof more (n + 1) Inside (climb eof p) (climb eof' p) := by
  intro ts hlt
  unfold climb
  refine (law_operand ih p hlt).andPerhaps ?_
  exact fun l ts₁ hs _ => law_climbOn ih p l (Nat.lt_trans hs hlt)

theorem law_expression : Lawful eof more (n + 1) Inside (expression eof) (expression eof') := by
  intro ts hlt
  unfold expression
  refine (law_climb ih .disjunction hlt).andPerhaps ?_
  intro target ts₁ hs _
  cases ts₁ with
  | nil => exact law_of_nil (accounts_here List.suffix_rfl)
  | cons t ts₂ =>
      simp only [List.cons_append]
      by_cases hk : t.kind = .equal
      · simp only [if_pos hk]
        have hlt₂ : ts₂.length < n := by
          simp only [List.length_cons] at hs
          omega
        refine ((ih.expression hlt₂).checked .invalidTarget hk (by decide) ?_).loosen
        intro value
        cases target.assigned? value with
        | some e => exact .inl ⟨e, fun _ _ => rfl, fun _ _ => rfl⟩
        | none => exact .inr ⟨fun _ _ => rfl, fun _ _ => rfl⟩
      · simp only [if_neg hk]
        exact law_here List.suffix_rfl Sentence.ne_nil

/-! ## Lists of expressions -/

theorem law_argumentList (count : Nat) :
    Lawful eof more (n + 1) Inside (argumentList eof count) (argumentList eof' count) := by
  intro ts hlt
  unfold argumentList
  by_cases hcount : maxArguments ≤ count
  · simp only [if_pos hcount]
    exact law_stopAt
  · simp only [if_neg hcount]
    refine (law_expression ih hlt).andPerhaps ?_
    intro value ts₁ hs _
    cases ts₁ with
    | nil => exact law_of_nil (accounts_here List.suffix_rfl)
    | cons t ts₂ =>
        simp only [List.cons_append]
        by_cases hk : t.kind = .comma
        · simp only [if_pos hk]
          simp only [List.length_cons] at hs
          exact ((ih.argumentList (count + 1) (by omega)).map.behind hk (by decide)).loosen
        · simp only [if_neg hk]
          exact law_here List.suffix_rfl Sentence.ne_nil

theorem law_arguments : Lawful eof more (n + 1) Inside (arguments eof) (arguments eof') := by
  intro ts hlt
  cases ts with
  | nil =>
      unfold arguments
      exact law_of_nil accounts_stopAt
  | cons t ts =>
      unfold arguments
      simp only [List.cons_append]
      by_cases hk : t.kind = .rightParen
      · simp only [if_pos hk]
        exact law_token hk (by decide)
      · simp only [if_neg hk]
        refine (law_argumentList ih 0 hlt).andThen ?_
        exact fun values ts₂ _ _ => (law_expect_inside .rightParen (by decide) _ _).map

theorem law_elements : Lawful eof more (n + 1) Inside (elements eof) (elements eof') := by
  intro ts hlt
  cases ts with
  | nil =>
      unfold elements
      exact law_of_nil accounts_stopAt
  | cons t ts =>
      unfold elements
      simp only [List.cons_append]
      by_cases hk : t.kind = .rightBracket
      · simp only [if_pos hk]
        exact law_token hk (by decide)
      · simp only [if_neg hk]
        refine (law_expression ih hlt).andThen ?_
        exact fun e ts₂ hs _ => (law_elementsAfter ih (Nat.lt_trans hs hlt)).map

theorem law_array (b : Token) : Lawful eof more (n + 1) Inside (array eof b) (array eof' b) := by
  intro ts hlt
  cases ts with
  | nil =>
      unfold array
      exact law_of_nil accounts_stopAt
  | cons t ts =>
      unfold array
      simp only [List.cons_append]
      by_cases hk : t.kind = .rightBracket
      · simp only [if_pos hk]
        exact law_token hk (by decide)
      · simp only [if_neg hk]
        refine (law_expression ih hlt).andThen ?_
        exact fun e ts₂ hs _ => law_arrayAfter ih b e (Nat.lt_trans hs hlt)

/-! ## Declarations -/

theorem law_varDeclaration :
    Lawful eof more (n + 1) AtEnd (varDeclaration eof) (varDeclaration eof') := by
  intro ts hlt
  unfold varDeclaration
  refine (law_expect_inside .identifier (by decide) _ _).andThen ?_
  intro name ts₁ hs₁ _
  refine .ite nextIs_append ?_ (law_expect_atEnd _ _).map
  refine (law_expect_inside .equal (by decide) _ _).andThen ?_
  intro _ ts₂ hs₂ _
  refine (law_expression ih (by omega)).andThen ?_
  exact fun value ts₃ _ _ => (law_expect_atEnd _ _).map

theorem law_letDeclaration :
    Lawful eof more (n + 1) AtEnd (letDeclaration eof) (letDeclaration eof') := by
  intro ts hlt
  unfold letDeclaration
  refine (law_expect_inside .identifier (by decide) _ _).andThen ?_
  intro name ts₁ hs₁ _
  refine (law_expect_inside .equal (by decide) _ _).andThen ?_
  intro _ ts₂ hs₂ _
  refine (law_expression ih (by omega)).andThen ?_
  exact fun value ts₃ _ _ => (law_expect_atEnd _ _).map

theorem accounts_methods {ts : List Token} (hlt : ts.length < n + 1) :
    (methods eof ts).Accounts eof ts 1 := by
  cases ts with
  | nil =>
      unfold methods
      exact accounts_stopAt
  | cons t ts =>
      unfold methods
      by_cases hk : t.kind = .rightBrace
      · simp only [if_pos hk]
        exact accounts_here (List.suffix_cons _ _)
      · simp only [if_neg hk]
        have hnamed : Law eof more Inside _ _ _ := law_functionNamed ih t hlt
        refine hnamed.accounts.andThen ?_
        exact fun m ts₂ hs => (ih.methods (by omega)).map.spend

/-- A sentence has no body of a class, so that nothing is read. -/
theorem law_classBody (name : Token) (superclass : Option Expr) {ts : List Token}
    {P : List Token → Prop} (hlt : ts.length < n + 1) :
    Law eof more P ts (classBody eof name superclass ts)
      (classBody eof' name superclass (ts ++ more)) := by
  unfold classBody
  refine (law_expect_never .leftBrace (by decide) _ _).andNever ?_
  exact fun _ ts₁ hs => (accounts_methods ih (Nat.lt_trans hs hlt)).map.spend

theorem law_classDeclaration :
    Lawful eof more (n + 1) AtEnd (classDeclaration eof) (classDeclaration eof') := by
  intro ts hlt
  unfold classDeclaration
  refine (law_expect_inside .identifier (by decide) _ _).andThen ?_
  intro name ts₁ hs₁ _
  refine .ite nextIs_append ?_ (law_classBody ih name none (by omega))
  refine (law_expect_inside .less (by decide) _ _).andThen ?_
  intro _ ts₂ hs₂ _
  refine (law_call ih (by omega)).andThen ?_
  exact fun superclass ts₃ hs₃ _ => law_classBody ih name (some superclass) (by omega)

theorem law_moduleDeclaration :
    Lawful eof more (n + 1) AtEnd (moduleDeclaration eof) (moduleDeclaration eof') := by
  intro ts hlt
  unfold moduleDeclaration
  refine (law_expect_inside .identifier (by decide) _ _).andThen ?_
  intro name ts₁ hs₁ _
  refine (law_expect_never .leftBrace (by decide) _ _).andNever ?_
  exact fun _ ts₂ hs₂ => (ih.blockBody (by omega)).map

/-! ## Statements -/

theorem law_expressionStatement :
    Lawful eof more (n + 1) AtEnd (expressionStatement eof) (expressionStatement eof') := by
  intro ts hlt
  unfold expressionStatement
  refine (law_expression ih hlt).andThen ?_
  exact fun e ts₁ _ _ => (law_expect_atEnd _ _).map

theorem law_returnStatement (k : Token) :
    Lawful eof more (n + 1) AtEnd (returnStatement eof k) (returnStatement eof' k) := by
  intro ts hlt
  unfold returnStatement
  refine .ite nextIs_append (law_expect_atEnd _ _).map ?_
  refine (law_expression ih hlt).andThen ?_
  exact fun e ts₁ _ _ => (law_expect_atEnd _ _).map

theorem accounts_elseBranch {ts : List Token} (hlt : ts.length < n) :
    (elseBranch eof ts).Accounts eof ts 1 := by
  cases ts with
  | nil =>
      unfold elseBranch
      exact accounts_here List.suffix_rfl
  | cons t ts =>
      unfold elseBranch
      by_cases hk : t.kind = .kwElse
      · simp only [if_pos hk]
        exact (ih.statement (Nat.lt_of_succ_lt hlt)).accounts.map.spend.behind.widen
      · simp only [if_neg hk]
        exact accounts_here List.suffix_rfl

omit ih in
/-- At the end of a sentence no `else` is next, nor is one behind it. -/
theorem keeps_elseBranch (hmore : NoElse more) :
    Keeps more AtEnd (elseBranch eof []) (elseBranch eof' ([] ++ more)) := by
  have hnil : elseBranch eof [] = .here none [] := by
    unfold elseBranch
    rfl
  have hbehind : elseBranch eof' more = .here none more := by
    unfold elseBranch
    cases more with
    | nil => rfl
    | cons t more =>
        have hk : ¬ t.kind = .kwElse := by simpa [NoElse, nextIs] using hmore
        simp only [if_neg hk]
  rw [hnil, List.nil_append, hbehind]
  exact ⟨rfl, rfl, _, rfl⟩

theorem law_ifStatement (hmore : NoElse more) :
    Lawful eof more (n + 1) AtEnd (ifStatement eof) (ifStatement eof') := by
  intro ts hlt
  unfold ifStatement
  refine (law_expect_inside .leftParen (by decide) _ _).andThen ?_
  intro _ ts₁ hs₁ _
  refine (law_expression ih (by omega)).andThen ?_
  intro condition ts₂ hs₂ _
  refine (law_expect_inside .rightParen (by decide) _ _).andThen ?_
  intro _ ts₃ hs₃ _
  have hlt₃ : ts₃.length < n := by omega
  have hstatement := ih.statement hlt₃
  -- the branch ends the sentence, and what an `else` would begin is behind it
  refine ⟨hstatement.accounts.andPerhaps fun onTrue ts₄ hs₄ => ?_, fun hsent => ?_⟩
  · exact (accounts_elseBranch ih (by omega)).map
  · refine (hstatement.keeps hsent).andPerhaps ?_
    rintro onTrue _ _ _ - rfl
    exact (keeps_elseBranch hmore).map

theorem law_whileStatement :
    Lawful eof more (n + 1) AtEnd (whileStatement eof) (whileStatement eof') := by
  intro ts hlt
  unfold whileStatement
  refine (law_expect_inside .leftParen (by decide) _ _).andThen ?_
  intro _ ts₁ hs₁ _
  refine (law_expression ih (by omega)).andThen ?_
  intro condition ts₂ hs₂ _
  refine (law_expect_inside .rightParen (by decide) _ _).andThen ?_
  exact fun _ ts₃ hs₃ _ => (ih.statement (by omega)).map

theorem accounts_forInitializer {ts : List Token} (hlt : ts.length < n + 1) :
    (forInitializer eof ts).Accounts eof ts 1 := by
  cases ts with
  | nil =>
      unfold forInitializer
      exact (law_expressionStatement ih hlt).accounts.map
  | cons t ts =>
      have hts : ts.length < n + 1 := Nat.lt_of_succ_lt hlt
      unfold forInitializer
      split
      · exact accounts_here (List.suffix_cons _ _)
      · exact (law_varDeclaration ih hts).accounts.map.spend.behind
      · exact (law_letDeclaration ih hts).accounts.map.spend.behind
      · exact (law_expressionStatement ih hlt).accounts.map

theorem accounts_forCondition {ts : List Token} (hlt : ts.length < n + 1) :
    (forCondition eof ts).Accounts eof ts 1 := by
  unfold forCondition
  split
  · exact accounts_expect.map
  · exact (law_expression ih hlt).accounts.andThen fun e ts₁ _ => accounts_expect.map.spend

theorem accounts_forStep {ts : List Token} (hlt : ts.length < n + 1) :
    (forStep eof ts).Accounts eof ts 1 := by
  unfold forStep
  split
  · exact accounts_expect.map
  · exact (law_expression ih hlt).accounts.andThen fun e ts₁ _ => accounts_expect.map.spend

theorem accounts_forStatement {ts : List Token} (hlt : ts.length < n + 1) :
    (forStatement eof ts).Accounts eof ts 1 := by
  unfold forStatement
  refine accounts_expect.andThen fun _ ts₁ hs₁ => ?_
  refine ((accounts_forInitializer ih (by omega)).andThen fun initializer ts₂ hs₂ => ?_).spend
  refine ((accounts_forCondition ih (by omega)).andThen fun condition ts₃ hs₃ => ?_).spend
  refine ((accounts_forStep ih (by omega)).andThen fun step ts₄ hs₄ => ?_).spend
  exact (ih.statement (by omega)).accounts.map.spend

theorem law_statement (hmore : NoElse more) :
    Lawful eof more (n + 1) AtEnd (statement eof) (statement eof') := by
  intro ts hlt
  cases ts with
  | nil =>
      unfold statement
      exact law_of_nil (law_expressionStatement ih hlt).accounts
  | cons t ts =>
      have hts : ts.length < n := Nat.lt_of_succ_lt_succ hlt
      have hts' : ts.length < n + 1 := Nat.lt_succ_of_lt hts
      unfold statement
      simp only [List.cons_append]
      split
      · rename_i hk
        exact (law_ifStatement ih hmore hts').behind hk (by decide)
      · rename_i hk
        refine ((law_expression ih hts').andThen ?_).behind hk (by decide)
        exact fun e ts₂ _ _ => (law_expect_atEnd _ _).map
      · rename_i hk
        exact .barred hk (by decide) (ih.blockBody hts).map
      · rename_i hk
        exact (law_whileStatement ih hts').behind hk (by decide)
      · rename_i hk
        exact .barred hk (by decide) (accounts_forStatement ih hts').spend
      · rename_i hk
        exact (law_returnStatement ih t hts').behind hk (by decide)
      · rename_i hk
        exact (law_expect_atEnd _ _).map.behind hk (by decide)
      · rename_i hk
        exact (law_expect_atEnd _ _).map.behind hk (by decide)
      · exact law_expressionStatement ih hlt

theorem law_declaration (hmore : NoElse more) :
    Lawful eof more (n + 1) AtEnd (declaration eof) (declaration eof') := by
  intro ts hlt
  cases ts with
  | nil =>
      unfold declaration
      exact law_of_nil (law_statement ih hmore hlt).accounts
  | cons t ts =>
      have hts : ts.length < n + 1 := Nat.lt_of_succ_lt hlt
      unfold declaration
      simp only [List.cons_append]
      split
      · rename_i hk
        exact (law_varDeclaration ih hts).behind hk (by decide)
      · rename_i hk
        exact (law_letDeclaration ih hts).behind hk (by decide)
      · rename_i hk
        exact (law_classDeclaration ih hts).behind hk (by decide)
      · rename_i hk
        exact (law_moduleDeclaration ih hts).behind hk (by decide)
      · rename_i hk
        refine .ite (fun hsent => nextIs_append (hsent.tail (by simp [hk]))) ?_ ?_
        · exact (law_functionNamed ih t hts).map.behind hk (by decide)
        · exact law_statement ih hmore hlt
      · exact law_statement ih hmore hlt

/-! ## Runs of statements -/

section
omit ih

theorem skipAfter_suffix (last : Token) (ts : List Token) : skipAfter last ts <:+ ts := by
  induction ts generalizing last with
  | nil => exact List.suffix_rfl
  | cons t ts ih =>
      unfold skipAfter
      split
      · exact List.suffix_rfl
      · split
        · exact List.suffix_rfl
        · exact (ih t).trans (List.suffix_cons _ _)

theorem resume_suffix (ts : List Token) : resume ts <:+ ts := by
  cases ts with
  | nil => exact List.suffix_rfl
  | cons t ts => exact (skipAfter_suffix t ts).trans (List.suffix_cons _ _)

theorem length_cons_pos (t : Token) (ts : List Token) : 0 < (t :: ts).length :=
  Nat.succ_pos ts.length

/-- One turn of the loop over statements: one that is read, or what is skipped
instead. -/
def turn (eof t : Token) (ts : List Token) : Recovered (t :: ts).length :=
  (declaration eof (t :: ts)).recover (length_cons_pos t ts)

theorem statements_nil (eof : Token) (inBlock : Bool) :
    statements eof inBlock [] = ⟨[], [], [], Nat.le_refl _⟩ := by
  unfold statements
  rfl

/-- A run is its first turn and the run from there. -/
theorem statements_cons (eof : Token) {inBlock : Bool} {t : Token} (ts : List Token)
    (hk : ¬(inBlock && decide (t.kind = .rightBrace)) = true) :
    (statements eof inBlock (t :: ts)).body =
        (turn eof t ts).statement.toList ++ (statements eof inBlock (turn eof t ts).rest).body ∧
      (statements eof inBlock (t :: ts)).noted =
        (turn eof t ts).noted ++ (statements eof inBlock (turn eof t ts).rest).noted ∧
      (statements eof inBlock (t :: ts)).rest =
        (statements eof inBlock (turn eof t ts).rest).rest := by
  rw [statements]
  simp only [if_neg hk]
  exact ⟨rfl, rfl, rfl⟩

/-- From `ts` on to `rest`, errors were noted on tokens from `ts` on, no more
than there are tokens between. -/
structure Spent (eof : Token) (ts : List Token) (noted : List SyntaxError) (rest : List Token) :
    Prop where
  suffix : rest <:+ ts
  blamed : ∀ e ∈ noted, e.token ∈ eof :: ts
  counts : noted.length + rest.length ≤ ts.length

theorem Spent.refl (eof : Token) (ts : List Token) : Spent eof ts [] ts where
  suffix := List.suffix_rfl
  blamed := List.forall_mem_nil _
  counts := Nat.le_of_eq (Nat.zero_add _)

theorem Spent.append {ts us rest : List Token} {noted later : List SyntaxError}
    (h : Spent eof ts noted us) (h' : Spent eof us later rest) :
    Spent eof ts (noted ++ later) rest where
  suffix := h'.suffix.trans h.suffix
  blamed := fun e he => (List.mem_append.mp he).elim (h.blamed e) fun he' =>
    List.cons_subset_cons _ h.suffix.subset (h'.blamed e he')
  counts := by
    have := h.counts
    have := h'.counts
    simp only [List.length_append]
    omega

/-- A statement that is skipped takes a token, which pays for the error. -/
theorem spent_recover {ts : List Token} {pos : 0 < ts.length} {r : Reading Stmt ts.length}
    (h : r.Accounts eof ts 1) : Spent eof ts (r.recover pos).noted (r.recover pos).rest := by
  cases r with
  | done st rest noted hlt => exact ⟨h.suffix, h.blamed, Nat.le_of_lt h.counts⟩
  | stuck e rest noted hle =>
      refine ⟨(resume_suffix rest).trans h.suffix, h.blamed, ?_⟩
      have hskip : (resume rest).length < ts.length := length_resume_lt pos hle
      have hresume : (resume rest).length ≤ rest.length := (resume_suffix rest).length_le
      simp only [Reading.recover, List.length_append, List.length_singleton]
      rcases h.counts with rfl | hc
      · simp only [List.length_nil]
        omega
      · omega

end

theorem spent_statements (hmore : NoElse more) (inBlock : Bool) {k : Nat} (hk : k ≤ n + 1)
    {ts : List Token} (hlt : ts.length < k) :
    Spent eof ts (statements eof inBlock ts).noted (statements eof inBlock ts).rest := by
  induction k generalizing ts with
  | zero => exact absurd hlt (Nat.not_lt_zero _)
  | succ k ihk =>
      cases ts with
      | nil =>
          rw [statements_nil]
          exact .refl eof []
      | cons t ts =>
          by_cases hb : (inBlock && decide (t.kind = .rightBrace)) = true
          · unfold statements
            simp only [if_pos hb]
            exact .refl eof (t :: ts)
          · obtain ⟨-, hnoted, hrest⟩ := statements_cons eof ts hb
            have hturn : Spent eof (t :: ts) (turn eof t ts).noted (turn eof t ts).rest :=
              spent_recover (law_declaration ih hmore (by omega)).accounts
            have hshorter := (turn eof t ts).shorter
            rw [hnoted, hrest]
            exact hturn.append (ihk (by omega) (by omega))

/-- The brace before a block pays for the brace that may be missing. -/
theorem accounts_blockBody (hmore : NoElse more) {ts : List Token} (hlt : ts.length < n + 1) :
    (blockBody eof ts).Accounts eof ts 0 := by
  have hspent := spent_statements ih hmore true (Nat.le_refl _) hlt
  unfold blockBody
  exact Accounts.noting 0 (Nat.le_refl _) accounts_expect.map.spend hspent.suffix hspent.blamed
    hspent.counts

omit ih in
/-- All readers keep the law on lists of any length. -/
theorem laws (hmore : NoElse more) (n : Nat) : Laws eof eof' more n := by
  induction n with
  | zero =>
      constructor
      all_goals first
        | exact fun hlt => absurd hlt (Nat.not_lt_zero _)
        | exact fun _ => fun hlt => absurd hlt (Nat.not_lt_zero _)
        | exact fun _ _ => fun hlt => absurd hlt (Nat.not_lt_zero _)
  | succ n ih =>
      exact {
        operand := fun p => law_operand ih p
        climbOn := fun p l => law_climbOn ih p l
        unary := law_unary ih
        callOn := fun e => law_callOn ih e
        expression := law_expression ih
        argumentList := fun count => law_argumentList ih count
        arguments := law_arguments ih
        elementsAfter := law_elementsAfter ih
        elements := law_elements ih
        array := fun b => law_array ih b
        methods := accounts_methods ih
        statement := law_statement ih hmore
        blockBody := accounts_blockBody ih hmore }

end Parser

end Lox

import DocShapes.Proofs.SpecText

/-! # Tokens of specs

The tokens of a spec are symbols, parentheses and operators. Blanks may stand anywhere between them
and a comment behind them; what a text begins with shows its first token.
-/

namespace DocShapes

/-! ## Characters of symbols -/

/-- A test that each ASCII character of a symbol passes. -/
theorem Name.forall_continuesSymbol (test : Char → Bool)
    (table : ∀ k : Fin 128, continuesSymbol (Char.ofNat k) = true → test (Char.ofNat k) = true)
    {c : Char} (continues : continuesSymbol c = true) : test c = true := by
  have bound : c.toNat < 128 := by
    simp only [continuesSymbol, isWordChar, Bool.or_eq_true, decide_eq_true_eq] at continues
    rcases continues with (letter | rfl) | rfl
    · have wordy : Literal.isWordy c = true := by simp [Literal.isWordy, letter]
      have ascii := Literal.forall_isWordy (fun c => decide (c.toNat < 128)) (by decide) wordy
      exact of_decide_eq_true ascii
    · decide
    · decide
  have here := table ⟨c.toNat, bound⟩
  rw [Char.ofNat_toNat] at here
  exact here continues

theorem Name.continuesSymbol_of_startsSymbol {c : Char} (starts : startsSymbol c = true) :
    continuesSymbol c = true := by
  simp only [startsSymbol, Bool.or_eq_true, decide_eq_true_eq] at starts
  rcases starts with letter | rfl
  · simp [continuesSymbol, isWordChar, Char.isAlphanum, letter]
  · decide

theorem Connective.eq_mark_of_ofChar? {c : Char} {connective : Connective}
    (operator : ofChar? c = some connective) : c = connective.mark := by
  unfold ofChar? at operator
  split at operator
  · cases operator
    assumption
  · split at operator
    · cases operator
      assumption
    · cases operator

theorem Name.leading_prefix (more : Char → Bool) (text : List Char) :
    leading more text <+: text := by
  cases text with
  | nil => exact List.nil_prefix
  | cons c rest =>
    by_cases starts : startsSymbol c
    · rw [leading, if_pos starts]
      exact (List.prefix_cons_inj c).mpr (List.takeWhile_prefix _)
    · rw [leading, if_neg starts]
      exact List.nil_prefix

/-- The keywords that take an argument have one name each. -/
theorem Name.eq_of_keyword? {name : String} {keyword : Keyword}
    (means : keyword? name = some keyword) :
    (keyword = .list → name = "list") ∧ (keyword = .reference → name = "reference") ∧
      (keyword = .record → name = "record") := by
  unfold keyword? at means
  split at means
  · cases means
    simp
  · split at means <;> cases means <;> simp

/-! ## Tokens -/

inductive Token where
  | symbol (word : String)
  | opening
  | closing
  | operator (connective : Connective)
  deriving Repr, DecidableEq

namespace Token

def chars : Token → List Char
  | .symbol word => word.toList
  | .opening => ['(']
  | .closing => [')']
  | .operator connective => [connective.mark]

/-- The word of a symbol is one. -/
def Proper : Token → Prop
  | .symbol word => Name.isSymbol word = true
  | _ => True

/-- The parenthesis or operator that a character is. -/
def ofMark? (c : Char) : Option Token :=
  if c = '(' then some .opening
  else if c = ')' then some .closing
  else (Connective.ofChar? c).map .operator

/-- A token begins with a character that is no blank and does not start a comment. -/
theorem Proper.exists_chars_eq_cons {token : Token} (proper : token.Proper) :
    ∃ c rest, token.chars = c :: rest ∧ Text.isBlank c = false ∧ c ≠ '#' := by
  cases token with
  | symbol word =>
    obtain ⟨filled, whole⟩ := Name.isSymbol_iff.mp proper
    obtain ⟨c, rest, text, starts, _⟩ := Name.exists_of_leading_eq filled whole
    refine ⟨c, rest, text, (Name.front_of_startsSymbol starts).1, ?_⟩
    rintro rfl
    exact absurd starts (by decide)
  | opening => exact ⟨'(', [], rfl, by decide⟩
  | closing => exact ⟨')', [], rfl, by decide⟩
  | operator connective => cases connective <;> exact ⟨_, [], rfl, by decide⟩

theorem ofMark?_of_ofChar? {c : Char} {connective : Connective}
    (operator : Connective.ofChar? c = some connective) :
    ofMark? c = some (.operator connective) := by
  rw [Connective.eq_mark_of_ofChar? operator]
  cases connective <;> rfl

theorem proper_of_ofMark? {c : Char} {mark : Token} (marks : ofMark? c = some mark) :
    mark.Proper ∧ mark.chars = [c] := by
  unfold ofMark? at marks
  split at marks
  · subst c
    cases marks
    exact ⟨trivial, rfl⟩
  · split at marks
    · subst c
      cases marks
      exact ⟨trivial, rfl⟩
    · obtain ⟨connective, operator, rfl⟩ := Option.map_eq_some_iff.mp marks
      refine ⟨trivial, ?_⟩
      rw [chars, Connective.eq_mark_of_ofChar? operator]

/-- Only the token itself begins with its mark. -/
theorem Proper.eq_of_ofMark? {token mark : Token} {c : Char} {rest : List Char}
    (proper : token.Proper) (chars : token.chars = c :: rest) (marks : ofMark? c = some mark) :
    token = mark := by
  cases token with
  | symbol word =>
    obtain ⟨filled, whole⟩ := Name.isSymbol_iff.mp proper
    obtain ⟨d, others, text, starts, _⟩ := Name.exists_of_leading_eq filled whole
    rw [Token.chars, text] at chars
    obtain ⟨rfl, _⟩ := List.cons.inj chars
    have continues := Name.continuesSymbol_of_startsSymbol starts
    have unmarked := Name.forall_continuesSymbol (fun c => (ofMark? c).isNone) (by decide) continues
    simp [marks] at unmarked
  | opening =>
    cases chars
    exact Option.some.inj marks
  | closing =>
    cases chars
    exact Option.some.inj marks
  | operator connective =>
    cases connective <;> cases chars <;> exact Option.some.inj marks

end Token

namespace Spec

open Literal (Words)

/-- The text has the tokens, with blanks anywhere between them and perhaps a comment at its end. -/
inductive Spells : List Token → List Char → Prop
  | done : Spells [] []
  | comment {text : List Char} : Spells [] ('#' :: text)
  | blank {tokens : List Token} {c : Char} {text : List Char} (blank : Text.isBlank c = true)
      (behind : Spells tokens text) : Spells tokens (c :: text)
  | token {token : Token} {tokens : List Token} {text : List Char} (proper : token.Proper)
      (behind : Spells tokens text) : Spells (token :: tokens) (token.chars ++ text)

section

variable {token : Token} {tokens more : List Token} {text : List Char}

theorem spells_trimStart : Spells tokens (Text.trimStart text) ↔ Spells tokens text := by
  induction text with
  | nil => rfl
  | cons c rest ih =>
    by_cases blank : Text.isBlank c
    · have same : Text.trimStart (c :: rest) = Text.trimStart rest := by
        simp [Text.trimStart, blank]
      rw [same, ih]
      refine ⟨.blank blank, fun spells => ?_⟩
      generalize front : c :: rest = text at spells
      cases spells with
      | done => cases front
      | comment =>
        cases front
        exact absurd blank (by decide)
      | blank _ behind =>
        cases front
        exact behind
      | token proper behind =>
        obtain ⟨d, others, chars, visible, _⟩ := proper.exists_chars_eq_cons
        rw [chars] at front
        cases front
        exact absurd blank (by simp [visible])
    · rw [Text.trimStart_of_visible (by simpa using blank)]

/-- What is spelled begins with the first token, behind blanks. -/
theorem Spells.front (spells : Spells (token :: tokens) text) :
    token.Proper ∧ ∃ rest, Text.trimStart text = token.chars ++ rest ∧ Spells tokens rest := by
  generalize whole : token :: tokens = all at spells
  induction spells with
  | done | comment => cases whole
  | @blank _ c text blank _ ih =>
    rw [Text.trimStart_of_blank blank]
    exact ih whole
  | token proper behind =>
    cases whole
    obtain ⟨c, rest, chars, visible, _⟩ := proper.exists_chars_eq_cons
    refine ⟨proper, _, ?_, behind⟩
    rw [chars, List.cons_append, Text.trimStart_of_visible visible]

/-- Behind the last token there is nothing but a comment. -/
theorem Spells.end (spells : Spells [] text) :
    Text.trimStart text = [] ∨ ∃ rest, Text.trimStart text = '#' :: rest := by
  generalize whole : [] = all at spells
  induction spells with
  | done => exact .inl rfl
  | comment => exact .inr ⟨_, Text.trimStart_of_visible (by decide)⟩
  | @blank _ c text blank _ ih =>
    rw [Text.trimStart_of_blank blank]
    exact ih whole
  | token => cases whole

theorem Spells.length_le (spells : Spells tokens text) : tokens.length ≤ text.length := by
  induction spells with
  | done | comment => simp
  | blank _ _ ih => exact Nat.le_succ_of_le ih
  | token proper _ ih =>
    obtain ⟨c, rest, chars, _⟩ := proper.exists_chars_eq_cons
    simp only [chars, List.cons_append, List.length_cons, List.length_append]
    omega

/-- What follows a symbol does not continue it. -/
theorem Spells.outside (spells : Spells tokens text)
    (other : ∀ word, tokens.head? ≠ some (.symbol word)) :
    ∀ c ∈ text.head?, Name.continuesSymbol c = false := by
  cases spells with
  | done => simp
  | comment =>
    rintro c ⟨⟩
    decide
  | @blank _ c _ blank =>
    rintro _ ⟨⟩
    cases continues : Name.continuesSymbol c with
    | false => rfl
    | true =>
      have visible := Name.forall_continuesSymbol (fun c => !Text.isBlank c) (by decide) continues
      simp [blank] at visible
  | @token token _ _ proper =>
    cases token with
    | symbol word => exact absurd rfl (other word)
    | opening | closing =>
      rintro c ⟨⟩
      decide
    | operator connective =>
      cases connective <;>
        (rintro c ⟨⟩; decide)

/-- A parenthesis or an operator in the text is one among the tokens. -/
theorem Spells.head_eq_mark {c : Char} {mark : Token} (spells : Spells tokens text)
    (here : (Text.trimStart text).head? = some c) (marks : Token.ofMark? c = some mark) :
    tokens.head? = some mark := by
  cases tokens with
  | nil =>
    rcases spells.end with none | ⟨_, comment⟩
    · rw [none] at here
      cases here
    · rw [comment] at here
      cases here
      cases marks
  | cons token others =>
    obtain ⟨proper, rest, front, _⟩ := spells.front
    obtain ⟨d, more, chars, _⟩ := proper.exists_chars_eq_cons
    rw [front, chars] at here
    cases here
    rw [proper.eq_of_ofMark? chars marks, List.head?_cons]

end

end Spec

end DocShapes

import DocShapes.Proofs.Tokens

/-! # The grammar of specs

A spec derives from the grammar along with its tokens. What derives is read, wherever a text with
these tokens stands in front of something that can follow it (`Spec.Derives.isRead`).
-/

namespace DocShapes.Spec

open Literal (Words)

/-! ## Derivations -/

/-- What a keyword stands for without an argument. -/
def ofBare : Name.Keyword → Spec
  | .scalar name => .scalar name
  | .null => .constant .null
  | .true => .constant (.boolean true)
  | .false => .constant (.boolean false)
  | .list => .list
  | .reference => .reference
  | .oneof => .sequence .oneof []
  | .union => .sequence .union []
  | .record => .record

/-- What a name stands for without an argument. -/
def ofName (name : String) : Spec :=
  match Name.keyword? name with
  | some keyword => ofBare keyword
  | none => .named name

theorem ofName_of_keyword? {name : String} {keyword : Name.Keyword}
    (means : Name.keyword? name = some keyword) : ofName name = ofBare keyword := by
  rw [ofName, means]

theorem ofName_of_not_keyword? {name : String} (other : Name.keyword? name = none) :
    ofName name = .named name := by
  rw [ofName, other]

/-- A single atom is itself; the first operator makes all atoms one sequence. -/
def joined (first : Spec) : List (Connective × Spec) → Spec
  | [] => first
  | (connective, second) :: others =>
      .sequence connective (first :: second :: others.map Prod.snd)

/-- What the nonterminals of the grammar stand for. -/
inductive Phrase where
  | atom (spec : Spec)
  | operands (operands : List (Connective × Spec))
  | sequence (spec : Spec)

/-- The grammar of specs: `Sequence := Atom (('|' | '&') Atom)*` with an atom that is a symbol or a
sequence in parentheses. Only symbols for `list` and `reference` take an argument, which may be
empty, and those for `record` an empty one. -/
inductive Derives (aliases : AliasTable) : Phrase → List Token → Prop
  | parentheses {spec : Spec} {tokens : List Token}
      (inside : Derives aliases (.sequence spec) tokens) :
      Derives aliases (.atom spec) (.opening :: (tokens ++ [.closing]))
  | symbol (word : String) : Derives aliases (.atom (ofName (aliases.resolve word))) [.symbol word]
  | noArgument {word : String}
      (takes : aliases.resolve word ∈ ["list", "reference", "record"]) :
      Derives aliases (.atom (ofName (aliases.resolve word))) [.symbol word, .opening, .closing]
  | listOf {word : String} {item : Spec} {tokens : List Token}
      (takes : aliases.resolve word = "list") (inside : Derives aliases (.sequence item) tokens) :
      Derives aliases (.atom (.listOf item)) (.symbol word :: .opening :: (tokens ++ [.closing]))
  | referenceTo {word : String} {target : Spec} {tokens : List Token}
      (takes : aliases.resolve word = "reference")
      (inside : Derives aliases (.sequence target) tokens) :
      Derives aliases (.atom (.referenceTo target))
        (.symbol word :: .opening :: (tokens ++ [.closing]))
  | noOperand : Derives aliases (.operands []) []
  | operand {connective : Connective} {item : Spec} {others : List (Connective × Spec)}
      {front rest : List Token} (first : Derives aliases (.atom item) front)
      (behind : Derives aliases (.operands others) rest) :
      Derives aliases (.operands ((connective, item) :: others))
        (.operator connective :: (front ++ rest))
  | sequence {item : Spec} {others : List (Connective × Spec)} {front rest : List Token}
      (first : Derives aliases (.atom item) front)
      (behind : Derives aliases (.operands others) rest) :
      Derives aliases (.sequence (joined item others)) (front ++ rest)

/-- The tokens of the text derive from the grammar as a sequence. -/
def Derived (aliases : AliasTable) (text : List Char) (spec : Spec) : Prop :=
  ∃ tokens, Spells tokens text ∧ Derives aliases (.sequence spec) tokens

/-! ## Derivations are read -/

section

variable {words : Words} {inner item : Reader Spec} {cursor : Cursor} {tokens more : List Token}

/-- The tokens may stand behind an atom. -/
def EndsAtom (tokens : List Token) : Prop :=
  ∀ token ∈ tokens.head?, token = .closing ∨ ∃ connective, token = .operator connective

/-- The tokens may stand behind a sequence. -/
def EndsSequence (tokens : List Token) : Prop := ∀ token ∈ tokens.head?, token = .closing

theorem EndsSequence.endsAtom (ends : EndsSequence tokens) : EndsAtom tokens :=
  fun token front => .inl (ends token front)

/-- The reader gives the spec of the tokens and stops in front of the others. -/
def GivesBefore (reader : Reader Spec) (cursor : Cursor) (spec : Spec) (more : List Token) : Prop :=
  ∃ next, reader cursor = .ok (spec, next) ∧ Spells more next.rest

theorem closed_before {spec : Spec} (gives : GivesBefore inner cursor spec (.closing :: more)) :
    GivesBefore (closed inner) cursor spec more := by
  obtain ⟨next, read, behind⟩ := gives
  obtain ⟨_, rest, here, spells⟩ := behind.front
  obtain ⟨last, eaten, same⟩ := Cursor.eat_eq_some here
  exact ⟨last, by simp only [closed, read, bind_ok, eaten], same ▸ spells⟩

theorem argument_before_end (spells : Spells more cursor.rest) (ends : EndsAtom more) :
    argument inner cursor = .ok (none, cursor) := by
  have absent : (Text.trimStart cursor.rest).head? ≠ some '(' := fun here => by
    rcases ends _ (spells.head_eq_mark here rfl) with closing | ⟨_, operator⟩
    · cases closing
    · cases operator
  simp only [argument, Cursor.eat_eq_none absent]

theorem argument_empty (spells : Spells (.opening :: .closing :: more) cursor.rest) :
    ∃ next, argument inner cursor = .ok (none, next) ∧ Spells more next.rest := by
  obtain ⟨_, _, here, inside⟩ := spells.front
  obtain ⟨opened, eaten, rfl⟩ := Cursor.eat_eq_some here
  obtain ⟨_, _, here, behind⟩ := inside.front
  obtain ⟨next, closing, rfl⟩ := Cursor.eat_eq_some here
  exact ⟨next, by simp only [argument, eaten, closing], behind⟩

/-- Sequences and atoms begin with a symbol or with an opening parenthesis. -/
theorem Derives.front {aliases : AliasTable} {phrase : Phrase}
    (derives : Derives aliases phrase tokens) (several : ∀ operands, phrase ≠ .operands operands) :
    ∃ token rest, tokens = token :: rest ∧ token ≠ .closing := by
  induction derives with
  | parentheses | symbol | noArgument | listOf | referenceTo => exact ⟨_, _, rfl, by simp⟩
  | noOperand | operand => exact absurd rfl (several _)
  | sequence _ _ firstFront _ =>
    obtain ⟨token, rest, rfl, other⟩ := firstFront (by simp)
    exact ⟨token, _, rfl, other⟩

theorem argument_filled {aliases : AliasTable} {part : Spec}
    (derives : Derives aliases (.sequence part) tokens)
    (spells : Spells (.opening :: (tokens ++ .closing :: more)) cursor.rest)
    (gives : ∀ opened : Cursor, Spells (tokens ++ .closing :: more) opened.rest →
      GivesBefore inner opened part (.closing :: more)) :
    ∃ next, argument inner cursor = .ok (some part, next) ∧ Spells more next.rest := by
  obtain ⟨_, _, here, inside⟩ := spells.front
  obtain ⟨opened, eaten, rfl⟩ := Cursor.eat_eq_some here
  have filled : opened.eat ')' = none := by
    refine Cursor.eat_eq_none fun closing => ?_
    obtain ⟨token, rest, rfl, other⟩ := derives.front (by simp)
    have front := inside.head_eq_mark closing rfl
    exact other (Option.some.inj front)
  obtain ⟨next, read, behind⟩ := closed_before (gives opened inside)
  exact ⟨next, by simp only [argument, eaten, filled, read, bind_ok], behind⟩

/-- Without an argument, or with an empty one where one is allowed, a keyword is what its name stands
for. -/
theorem ofKeyword_alone {name : String} {keyword : Name.Keyword} {next : Cursor}
    (means : Name.keyword? name = some keyword) (alone : argument inner cursor = .ok (none, next))
    (takes : name ∈ ["list", "reference", "record"] ∨ next = cursor) :
    ofKeyword inner cursor keyword = .ok (ofName name, next) := by
  cases keyword with
  | list | reference | record => simp [ofKeyword, alone, ofName_of_keyword? means, ofBare]
  | _ =>
    rcases takes with member | rfl
    · simp only [List.mem_cons, List.not_mem_nil, or_false] at member
      rcases member with rfl | rfl | rfl <;> cases means
    · simp [ofKeyword, ofName_of_keyword? means, ofBare]

theorem atom_alone {word : String} (spells : Spells (.symbol word :: more) cursor.rest)
    (ends : EndsAtom more) :
    GivesBefore (atom words inner) cursor (ofName (words.aliases.resolve word)) more := by
  obtain ⟨symbol, rest, here, behind⟩ := spells.front
  have outside : ∀ other, more.head? ≠ some (.symbol other) := fun other front => by
    rcases ends _ front with closing | ⟨_, operator⟩
    · cases closing
    · cases operator
  obtain ⟨next, rfl, keyword, name⟩ :=
    atom_symbol words inner symbol (behind.outside outside) here
  refine ⟨next, ?_, behind⟩
  cases means : Name.keyword? (words.aliases.resolve word) with
  | none => rw [name means, ofName_of_not_keyword? means]
  | some found =>
    rw [keyword found means]
    exact ofKeyword_alone means (argument_before_end behind ends) (.inr rfl)

/-- A keyword with an opening parenthesis behind it is read by its argument. -/
theorem atom_applied (inner : Reader Spec) {word : String} {keyword : Name.Keyword}
    (spells : Spells (.symbol word :: .opening :: tokens) cursor.rest)
    (means : Name.keyword? (words.aliases.resolve word) = some keyword) :
    ∃ next : Cursor, Spells (.opening :: tokens) next.rest ∧
      atom words inner cursor = ofKeyword inner next keyword := by
  obtain ⟨symbol, rest, here, behind⟩ := spells.front
  obtain ⟨next, rfl, found, _⟩ :=
    atom_symbol words inner symbol (behind.outside (by simp)) here
  exact ⟨next, behind, found keyword means⟩

/-- What derives from the grammar is read, with room for all levels of parentheses. -/
def IsRead (words : Words) : Phrase → List Token → Prop
  | .atom spec, tokens => ∀ {depth more cursor}, tokens.length ≤ depth → EndsAtom more →
      Spells (tokens ++ more) cursor.rest →
      GivesBefore (atom words (nested words depth)) cursor spec more
  | .operands others, tokens => ∀ {depth fuel more cursor}, tokens.length ≤ depth →
      tokens.length ≤ fuel → EndsSequence more → Spells (tokens ++ more) cursor.rest →
      ∃ next, operands (atom words (nested words depth)) fuel cursor = .ok (others, next) ∧
        Spells more next.rest
  | .sequence spec, tokens => ∀ {depth more cursor}, tokens.length ≤ depth → EndsSequence more →
      Spells (tokens ++ more) cursor.rest →
      GivesBefore (nested words (depth + 1)) cursor spec more

theorem Derives.endsAtom {aliases : AliasTable} {others : List (Connective × Spec)}
    (derives : Derives aliases (.operands others) tokens) (ends : EndsSequence more) :
    EndsAtom (tokens ++ more) := by
  cases derives with
  | noOperand => exact ends.endsAtom
  | operand =>
    rintro _ ⟨⟩
    exact .inr ⟨_, rfl⟩

theorem endsSequence_closing (tokens : List Token) : EndsSequence (.closing :: tokens) := by
  rintro _ ⟨⟩
  rfl

/-- A keyword with an argument. -/
theorem atom_argument {word : String} {part spec : Spec} {keyword : Name.Keyword} {depth : Nat}
    (means : Name.keyword? (words.aliases.resolve word) = some keyword)
    (meant : ∀ (inner : Reader Spec) (cursor next : Cursor),
      argument inner cursor = .ok (some part, next) →
        ofKeyword inner cursor keyword = .ok (spec, next))
    (derives : Derives words.aliases (.sequence part) tokens)
    (reads : IsRead words (.sequence part) tokens) (room : tokens.length < depth)
    (spells : Spells (.symbol word :: .opening :: (tokens ++ .closing :: more)) cursor.rest) :
    GivesBefore (atom words (nested words depth)) cursor spec more := by
  obtain ⟨depth, rfl⟩ : ∃ less, depth = less + 1 := ⟨depth - 1, by omega⟩
  obtain ⟨next, opening, read⟩ := atom_applied (nested words (depth + 1)) spells means
  obtain ⟨last, found, behind⟩ := argument_filled derives opening fun opened inside =>
    reads (Nat.le_of_lt_succ room) (endsSequence_closing more) inside
  exact ⟨last, by rw [read, meant _ _ _ found], behind⟩

/-- The operators behind an atom are read up to the end of the sequence. -/
theorem operands_cons {connective : Connective} {part : Spec}
    {others : List (Connective × Spec)} {front rest : List Token} {fuel : Nat}
    (spells : Spells (.operator connective :: (front ++ (rest ++ more))) cursor.rest)
    (first : ∀ start : Cursor, Spells (front ++ (rest ++ more)) start.rest →
      GivesBefore item start part (rest ++ more))
    (further : ∀ start : Cursor, Spells (rest ++ more) start.rest →
      ∃ next, operands item fuel start = .ok (others, next) ∧ Spells more next.rest) :
    ∃ next, operands item (fuel + 1) cursor = .ok ((connective, part) :: others, next) ∧
      Spells more next.rest := by
  obtain ⟨_, text, here, behind⟩ := spells.front
  have start : cursor.skipBlank.rest = connective.mark :: text := by
    rw [Cursor.rest_skipBlank, here]
    rfl
  have operator : cursor.skipBlank.peek.bind Connective.ofChar? = some connective := by
    rw [Cursor.peek, start]
    exact connective.ofChar?_mark
  have stepped : cursor.skipBlank.step.rest = text := by
    rw [Cursor.step, Cursor.rest_forward, start]
    rfl
  obtain ⟨middle, read, between⟩ := first _ (stepped ▸ behind)
  obtain ⟨next, found, last⟩ := further middle between
  exact ⟨next, by simp only [operands, operator, read, found, bind_ok, after_ok], last⟩

theorem bind_eq_ok {α β : Type} {reading : Reading α} {next : α → Reading β} {found : β}
    (read : (reading >>= next) = .ok found) :
    ∃ middle, reading = .ok middle ∧ next middle = .ok found := by
  cases reading with
  | ok middle => exact ⟨middle, rfl, read⟩
  | error => cases read

theorem after_eq_ok {α : Type} {reading : Reading α} {completed : List Spec} {found : α}
    (read : reading.after completed = .ok found) : reading = .ok found := by
  cases reading with
  | ok => exact read
  | error => cases read

/-- A sequence is its first atom joined with those behind operators. -/
theorem chain_eq_ok_iff {spec : Spec} {next : Cursor} :
    chain item cursor = .ok (spec, next) ↔
      ∃ first middle others, item cursor = .ok (first, middle) ∧
        operands item middle.rest.length middle = .ok (others, next) ∧
        spec = joined first others := by
  unfold chain
  constructor
  · intro read
    obtain ⟨⟨first, middle⟩, atom, further⟩ := bind_eq_ok read
    obtain ⟨⟨others, last⟩, behind, whole⟩ := bind_eq_ok further
    refine ⟨first, middle, others, atom, ?_⟩
    cases others with
    | nil =>
      cases whole
      exact ⟨after_eq_ok behind, rfl⟩
    | cons operand others =>
      cases whole
      exact ⟨after_eq_ok behind, rfl⟩
  · rintro ⟨first, middle, others, read, found, rfl⟩
    cases others with
    | nil => simp only [read, found, bind_ok, after_ok, joined]
    | cons operand others => simp only [read, found, bind_ok, after_ok, joined, List.map_cons]

theorem Derives.isRead {phrase : Phrase} (derives : Derives words.aliases phrase tokens) :
    IsRead words phrase tokens := by
  -- What stands in parentheses has two tokens less, and there is a level less for it.
  induction derives with
  | @parentheses spec tokens _ ih =>
    intro depth more cursor room ends spells
    simp only [List.length_cons, List.length_append, List.length_nil] at room
    obtain ⟨depth, rfl⟩ : ∃ less, depth = less + 1 := ⟨depth - 1, by omega⟩
    rw [List.cons_append, List.append_assoc, List.singleton_append] at spells
    obtain ⟨_, text, here, inside⟩ := spells.front
    obtain ⟨opened, rfl, read⟩ := atom_parenthesis words (nested words (depth + 1)) here
    rw [GivesBefore, read]
    exact closed_before (ih (by omega) (endsSequence_closing more) inside)
  | symbol word =>
    intro depth more cursor room ends spells
    exact atom_alone spells ends
  | @noArgument word takes =>
    intro depth more cursor room ends spells
    have means : ∃ keyword, Name.keyword? (words.aliases.resolve word) = some keyword := by
      simp only [List.mem_cons, List.not_mem_nil, or_false] at takes
      rcases takes with same | same | same <;> exact ⟨_, by rw [same]; rfl⟩
    obtain ⟨keyword, means⟩ := means
    obtain ⟨middle, opening, read⟩ := atom_applied (nested words depth) spells means
    obtain ⟨next, alone, behind⟩ := argument_empty opening
    exact ⟨next, by rw [read, ofKeyword_alone means alone (.inl takes)], behind⟩
  | @listOf word item tokens takes inside ih =>
    intro depth more cursor room ends spells
    simp only [List.length_cons, List.length_append, List.length_nil] at room
    simp only [List.cons_append, List.append_assoc, List.nil_append] at spells
    have means : Name.keyword? (words.aliases.resolve word) = some .list := by rw [takes]; rfl
    refine atom_argument means (fun _ _ _ found => ?_) inside ih (by omega) spells
    simp only [ofKeyword, found, bind_ok, Option.elim]
  | @referenceTo word target tokens takes inside ih =>
    intro depth more cursor room ends spells
    simp only [List.length_cons, List.length_append, List.length_nil] at room
    simp only [List.cons_append, List.append_assoc, List.nil_append] at spells
    have means : Name.keyword? (words.aliases.resolve word) = some .reference := by rw [takes]; rfl
    refine atom_argument means (fun _ _ _ found => ?_) inside ih (by omega) spells
    simp only [ofKeyword, found, bind_ok, Option.elim]
  | noOperand =>
    intro depth fuel more cursor room enough ends spells
    refine ⟨cursor, operands_eq_nil (fun c here => ?_) fuel, spells⟩
    cases operator : Connective.ofChar? c with
    | none => rfl
    | some connective =>
      have closing := ends _ (spells.head_eq_mark here (Token.ofMark?_of_ofChar? operator))
      cases closing
  | @operand connective item others front rest _ behind first ih =>
    intro depth fuel more cursor room enough ends spells
    simp only [List.length_cons, List.length_append] at room enough
    simp only [List.cons_append, List.append_assoc] at spells
    obtain ⟨fuel, rfl⟩ : ∃ less, fuel = less + 1 := ⟨fuel - 1, by omega⟩
    refine operands_cons spells (fun start text => ?_) fun start text => ?_
    · exact first (by omega) (behind.endsAtom ends) text
    · exact ih (by omega) (by omega) ends text
  | @sequence item others front rest _ behind first ih =>
    intro depth more cursor room ends spells
    rw [List.length_append] at room
    rw [List.append_assoc] at spells
    obtain ⟨middle, read, between⟩ :=
      @first depth _ _ (by omega) (behind.endsAtom ends) spells
    have enough : rest.length ≤ middle.rest.length := by
      have bound := between.length_le
      rw [List.length_append] at bound
      omega
    obtain ⟨next, found, last⟩ := @ih depth _ _ _ (by omega) enough ends between
    exact ⟨next, chain_eq_ok_iff.mpr ⟨item, middle, others, read, found, rfl⟩, last⟩

end

end DocShapes.Spec

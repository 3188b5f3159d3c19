import DocShapes.Proofs.Derivations
import DocShapes.Proofs.Registering
import DocShapes.Proofs.Representation

/-! # Reading specs is deriving them

Where no atom begins like a constant, every reading of a spec is a derivation. So a text is accepted
exactly if it derives from the grammar, and its type is the tree of the derivation
(`Catalog.Consistent.parseType_iff_derived`).
-/

namespace DocShapes

namespace Spec

open Literal (Words)

/-! ## Readings are derivations -/

/-- The characters that a constant begins with. -/
def startsConstant (c : Char) : Bool := c.isDigit || c ∈ ['-', '\'', '"', '\x7b', '[']

/-- No atom in front of the comment begins like a constant. Atoms stand at the start of a text and
behind opening parentheses and operators; `here` says that one stands at the start of this text. -/
def constantFree (here : Bool) : List Char → Bool
  | [] => true
  | c :: rest =>
      if c = '#' then true
      else if Text.isBlank c then constantFree here rest
      else !(here && startsConstant c) &&
        constantFree (c = '(' || (Connective.ofChar? c).isSome) rest

section

variable {words : Words} {inner item : Reader Spec} {cursor next : Cursor}
  {tokens more : List Token} {here : Bool}

theorem constantFree_trimStart (here : Bool) (text : List Char) :
    constantFree here (Text.trimStart text) = constantFree here text := by
  induction text with
  | nil => rfl
  | cons c rest ih =>
    by_cases blank : Text.isBlank c
    · have inside : c ≠ '#' := by
        rintro rfl
        exact absurd blank (by decide)
      rw [Text.trimStart_of_blank blank, ih, constantFree, if_neg inside, if_pos blank]
    · rw [Text.trimStart_of_visible (by simpa using blank)]

/-- No constant begins like a symbol, and no atom stands inside of one. -/
theorem constantFree_symbol {symbol rest : List Char} (filled : symbol ≠ [])
    (whole : Name.symbol symbol = symbol) (free : constantFree here (symbol ++ rest) = true) :
    constantFree false rest = true := by
  have table (c : Char) (continues : Name.continuesSymbol c = true) :
      Text.isBlank c = false ∧ c ≠ '#' ∧ (c = '(' || (Connective.ofChar? c).isSome) = false := by
    have passes := Name.forall_continuesSymbol (fun c => !Text.isBlank c && c ≠ '#' &&
      !(c = '(' || (Connective.ofChar? c).isSome)) (by decide) continues
    simpa [and_assoc] using passes
  obtain ⟨c, others, rfl, starts, inside⟩ := Name.exists_of_leading_eq filled whole
  obtain ⟨visible, bare, plain⟩ := table c (Name.continuesSymbol_of_startsSymbol starts)
  simp only [List.cons_append, constantFree, if_neg bare, visible, Bool.false_eq_true, if_false,
    Bool.and_eq_true, plain] at free
  have behind := free.2
  clear filled whole free
  induction others with
  | nil => exact behind
  | cons d others ih =>
    obtain ⟨first, further⟩ := List.forall_mem_cons.mp inside
    obtain ⟨visible, bare, plain⟩ := table d first
    simp only [List.cons_append, constantFree, if_neg bare, visible, Bool.false_eq_true, if_false,
      Bool.and_eq_true, plain] at behind
    exact ih further behind.2

/-- The tokens stand between two places, and `here` says whether an atom stands behind them; no
later atom begins like a constant. -/
structure Between (here : Bool) (cursor : Cursor) (tokens : List Token) (next : Cursor) : Prop where
  free : constantFree here next.rest = true
  spells : ∀ {more}, Spells more next.rest → Spells (tokens ++ more) cursor.rest

theorem Between.trans {middle : Cursor} {behind : Bool}
    (first : Between here cursor tokens middle) (second : Between behind middle more next) :
    Between behind cursor (tokens ++ more) next where
  free := second.free
  spells text := by
    rw [List.append_assoc]
    exact first.spells (second.spells text)

theorem between_mark {c : Char} {mark : Token} (marks : Token.ofMark? c = some mark)
    (front : Text.trimStart cursor.rest = c :: next.rest)
    (free : constantFree here cursor.rest = true) :
    Between (c = '(' || (Connective.ofChar? c).isSome) cursor [mark] next := by
  obtain ⟨proper, chars⟩ := Token.proper_of_ofMark? marks
  obtain ⟨_, _, same, visible, bare⟩ := proper.exists_chars_eq_cons
  obtain ⟨rfl, _⟩ := List.cons.inj (chars.symm.trans same)
  constructor
  · rw [← constantFree_trimStart, front] at free
    simp only [constantFree, if_neg bare, visible, Bool.false_eq_true, if_false,
      Bool.and_eq_true] at free
    exact free.2
  · intro more spells
    rw [← spells_trimStart, front]
    have text := spells.token proper
    rwa [chars] at text

/-- Where no constant stands, the reader gives the spec of some tokens. -/
def GivesDerived (aliases : AliasTable) (reader : Reader Spec) (phrase : Spec → Phrase) : Prop :=
  ∀ cursor next spec, constantFree true cursor.rest = true → reader cursor = .ok (spec, next) →
    ∃ tokens, Derives aliases (phrase spec) tokens ∧ Between false cursor tokens next

theorem GivesDerived.closed {aliases : AliasTable} {spec : Spec}
    (derived : GivesDerived aliases inner .sequence) (free : constantFree true cursor.rest = true)
    (read : Spec.closed inner cursor = .ok (spec, next)) :
    ∃ tokens, Derives aliases (.sequence spec) tokens ∧
      Between false cursor (tokens ++ [.closing]) next := by
  obtain ⟨⟨found, middle⟩, inside, ended⟩ := bind_eq_ok read
  dsimp only at ended
  split at ended
  · rename_i last eaten
    cases ended
    obtain ⟨tokens, derives, between⟩ := derived _ _ _ free inside
    have closing := between_mark rfl (Cursor.trimStart_of_eat eaten) between.free
    exact ⟨tokens, derives, between.trans closing⟩
  · cases ended

/-- The argument of a keyword, with its tokens. -/
theorem GivesDerived.argument {aliases : AliasTable} {found : Option Spec}
    (derived : GivesDerived aliases inner .sequence) (free : constantFree false cursor.rest = true)
    (read : Spec.argument inner cursor = .ok (found, next)) :
    (found = none ∧ next = cursor) ∨
      (found = none ∧ Between false cursor [.opening, .closing] next) ∨
      ∃ part tokens, found = some part ∧ Derives aliases (.sequence part) tokens ∧
        Between false cursor (.opening :: (tokens ++ [.closing])) next := by
  unfold Spec.argument at read
  split at read
  · cases read
    exact .inl ⟨rfl, rfl⟩
  · rename_i opened eaten
    have opening := between_mark rfl (Cursor.trimStart_of_eat eaten) free
    split at read
    · rename_i last closed
      cases read
      have closing := between_mark rfl (Cursor.trimStart_of_eat closed) opening.free
      exact .inr (.inl ⟨rfl, opening.trans closing⟩)
    · obtain ⟨⟨part, last⟩, inside, ended⟩ := bind_eq_ok read
      cases ended
      obtain ⟨tokens, derives, between⟩ := derived.closed opening.free inside
      exact .inr (.inr ⟨part, tokens, rfl, derives, opening.trans between⟩)

theorem between_symbol (filled : (Name.symbol cursor.skipBlank.rest).isEmpty = false)
    (free : constantFree here cursor.rest = true) :
    Between false cursor [.symbol (String.ofList (Name.symbol cursor.skipBlank.rest))]
      (cursor.skipBlank.forward (Name.symbol cursor.skipBlank.rest).length) := by
  have proper := Name.isSymbol_of_symbol filled
  generalize same : cursor.skipBlank.rest = text at *
  have whole : Name.symbol text ++ text.drop (Name.symbol text).length = text :=
    List.prefix_iff_eq_append.mp (Name.leading_prefix _ text)
  have behind : (cursor.skipBlank.forward (Name.symbol text).length).rest =
      text.drop (Name.symbol text).length := by
    rw [Cursor.rest_forward, same]
  rw [Cursor.rest_skipBlank] at same
  constructor
  · rw [behind]
    rw [← constantFree_trimStart, same, ← whole] at free
    have named : Name.symbol text ≠ [] := by simpa using filled
    exact constantFree_symbol named (Name.leading_leading _ text) free
  · intro more spells
    rw [behind] at spells
    have front := @Spells.token (.symbol _) _ _ proper spells
    rw [Token.chars, String.toList_ofList, whole] at front
    rwa [← spells_trimStart, same]

/-- A symbol that may take an argument, and the argument if there is one. -/
theorem GivesDerived.applied {aliases : AliasTable} {word : String} {start : Cursor}
    {found : Option Spec} (derived : GivesDerived aliases inner .sequence)
    (takes : aliases.resolve word ∈ ["list", "reference", "record"])
    (symbol : Between false start [.symbol word] cursor)
    (read : Spec.argument inner cursor = .ok (found, next)) :
    (found = none ∧ ∃ tokens, Derives aliases (.atom (ofName (aliases.resolve word))) tokens ∧
        Between false start tokens next) ∨
      ∃ part tokens, found = some part ∧ Derives aliases (.sequence part) tokens ∧
        Between false start (.symbol word :: .opening :: (tokens ++ [.closing])) next := by
  rcases derived.argument symbol.free read with ⟨rfl, rfl⟩ | ⟨rfl, between⟩ | filled
  · exact .inl ⟨rfl, _, .symbol word, symbol⟩
  · exact .inl ⟨rfl, _, .noArgument takes, symbol.trans between⟩
  · obtain ⟨part, tokens, rfl, derives, between⟩ := filled
    exact .inr ⟨part, tokens, rfl, derives, symbol.trans between⟩

theorem GivesDerived.ofKeyword {aliases : AliasTable} {word : String} {keyword : Name.Keyword}
    {start : Cursor} {spec : Spec} (derived : GivesDerived aliases inner .sequence)
    (means : Name.keyword? (aliases.resolve word) = some keyword)
    (symbol : Between false start [.symbol word] cursor)
    (read : Spec.ofKeyword inner cursor keyword = .ok (spec, next)) :
    ∃ tokens, Derives aliases (.atom spec) tokens ∧ Between false start tokens next := by
  have name := ofName_of_keyword? means
  cases keyword with
  | list =>
    have named := (Name.eq_of_keyword? means).1 rfl
    obtain ⟨⟨found, last⟩, argument, ended⟩ := bind_eq_ok read
    cases ended
    rcases derived.applied (by simp [named]) symbol argument with ⟨rfl, alone⟩ | filled
    · rwa [name] at alone
    · obtain ⟨part, tokens, rfl, derives, between⟩ := filled
      exact ⟨_, .listOf named derives, between⟩
  | reference =>
    have named := (Name.eq_of_keyword? means).2.1 rfl
    obtain ⟨⟨found, last⟩, argument, ended⟩ := bind_eq_ok read
    cases ended
    rcases derived.applied (by simp [named]) symbol argument with ⟨rfl, alone⟩ | filled
    · rwa [name] at alone
    · obtain ⟨part, tokens, rfl, derives, between⟩ := filled
      exact ⟨_, .referenceTo named derives, between⟩
  | record =>
    have named := (Name.eq_of_keyword? means).2.2 rfl
    obtain ⟨⟨found, last⟩, argument, ended⟩ := bind_eq_ok read
    rcases derived.applied (by simp [named]) symbol argument with ⟨rfl, alone⟩ | filled
    · cases ended
      rwa [name] at alone
    · obtain ⟨part, tokens, rfl, _⟩ := filled
      cases ended
  | _ =>
    cases read
    have alone := @Derives.symbol aliases word
    rw [name] at alone
    exact ⟨_, alone, symbol⟩

/-- Where no constant begins, the reader of constants finds none. -/
theorem ends_constant?_other (other : ∀ c ∈ cursor.rest.head?, startsConstant c = false) :
    Ends (Literal.constant? words) cursor (fun found _ => found = none) fun _ => True := by
  simp only [Literal.constant?, ends_bind, ends_get]
  split
  · rename_i text
    exact absurd (other '0' (by rw [text]; rfl)) (by decide)
  · rename_i text
    exact absurd (other '0' (by rw [text]; rfl)) (by decide)
  · rename_i first _ _ _ text
    have plain := other first (by rw [text]; rfl)
    simp only [startsConstant, Bool.or_eq_false_iff, decide_eq_false_iff_not, List.mem_cons,
      List.not_mem_nil, or_false, not_or] at plain
    obtain ⟨digit, sign, single, double, brace, bracket⟩ := plain
    simp [digit, sign, single, double, brace, bracket]
  · simp

theorem startsConstant_of_constantFree {text : List Char} (free : constantFree true text = true) :
    ∀ c ∈ (Text.trimStart text).head?, startsConstant c = false := by
  intro c front
  obtain ⟨rest, same⟩ := List.head?_eq_some_iff.mp front
  have visible : Text.isBlank c = false := by
    have first := List.head?_dropWhile_not Text.isBlank text
    rw [show text.dropWhile Text.isBlank = c :: rest from same] at first
    simpa using first
  by_cases comment : c = '#'
  · subst comment
    decide
  · rw [← constantFree_trimStart, same, constantFree, if_neg comment, visible] at free
    simp only [Bool.false_eq_true, if_false, Bool.true_and, Bool.and_eq_true, Bool.not_eq_true']
      at free
    exact free.1

theorem GivesDerived.atom (derived : GivesDerived words.aliases inner .sequence) :
    GivesDerived words.aliases (Spec.atom words inner) .atom := by
  intro cursor next spec free read
  simp only [Spec.atom] at read
  split at read
  · rename_i opening
    have mark := between_mark rfl (Cursor.trimStart_of_peek opening) free
    obtain ⟨tokens, derives, between⟩ := derived.closed mark.free read
    exact ⟨_, .parentheses derives, mark.trans between⟩
  · split at read
    · obtain ⟨⟨value?, last⟩, scanned, ended⟩ := bind_eq_ok read
      have none : value? = none := by
        have front := startsConstant_of_constantFree free
        rw [← Cursor.rest_skipBlank] at front
        have absent := @ends_constant?_other words _ front
        have found := @reads_ofScan _ (fun _ => True) _ _ _ absent
        rwa [scanned] at found
      subst none
      cases ended
    · rename_i filled
      have symbol := between_symbol (by simpa using filled) free
      split at read
      · rename_i keyword means
        exact derived.ofKeyword means symbol read
      · rename_i other
        cases read
        refine ⟨_, ?_, symbol⟩
        have name := @Derives.symbol words.aliases
          (String.ofList (Name.symbol cursor.skipBlank.rest))
        rwa [ofName_of_not_keyword? other] at name

theorem GivesDerived.operands {aliases : AliasTable} {others : List (Connective × Spec)}
    {fuel : Nat} (derived : GivesDerived aliases item .atom)
    (free : constantFree false cursor.rest = true)
    (read : Spec.operands item fuel cursor = .ok (others, next)) :
    ∃ tokens, Derives aliases (.operands others) tokens ∧ Between false cursor tokens next := by
  induction fuel generalizing cursor others with
  | zero =>
    cases read
    exact ⟨[], .noOperand, free, fun text => text⟩
  | succ fuel ih =>
    simp only [Spec.operands] at read
    split at read
    · cases read
      exact ⟨[], .noOperand, free, fun text => text⟩
    · rename_i connective operator
      obtain ⟨⟨part, middle⟩, atom, further⟩ := bind_eq_ok read
      obtain ⟨⟨rest, last⟩, behind, ended⟩ := bind_eq_ok further
      cases ended
      obtain ⟨c, front, marks⟩ := Option.bind_eq_some_iff.mp operator
      have mark := between_mark (Token.ofMark?_of_ofChar? marks) (Cursor.trimStart_of_peek front) free
      rw [marks, Option.isSome_some, Bool.or_true] at mark
      obtain ⟨front, partDerives, partBetween⟩ := derived _ _ _ mark.free atom
      obtain ⟨tokens, restDerive, restBetween⟩ := ih partBetween.free (after_eq_ok behind)
      exact ⟨_, .operand partDerives restDerive, mark.trans (partBetween.trans restBetween)⟩

theorem GivesDerived.chain {aliases : AliasTable} (derived : GivesDerived aliases item .atom) :
    GivesDerived aliases (Spec.chain item) .sequence := by
  intro cursor next spec free read
  obtain ⟨first, middle, others, atom, behind, rfl⟩ := chain_eq_ok_iff.mp read
  obtain ⟨front, firstDerives, firstBetween⟩ := derived _ _ _ free atom
  obtain ⟨rest, othersDerive, othersBetween⟩ := derived.operands firstBetween.free behind
  exact ⟨front ++ rest, .sequence firstDerives othersDerive, firstBetween.trans othersBetween⟩

theorem givesDerived_nested (depth : Nat) :
    GivesDerived words.aliases (nested words depth) .sequence := by
  induction depth with
  | zero =>
    intro cursor next spec free read
    cases read
  | succ depth ih => exact GivesDerived.chain (GivesDerived.atom ih)

/-! ## Whole texts -/

/-- Nothing but a comment is left exactly if no token is. -/
theorem expectEnd_eq_ok_iff (marker : words.marker = ['#']) :
    (∃ last, expectEnd words cursor = .ok ((), last)) ↔ Spells [] cursor.rest := by
  unfold expectEnd ended
  dsimp only
  rw [Cursor.atEnd, Cursor.rest_skipBlank, ← spells_trimStart, marker]
  constructor
  · rintro ⟨last, read⟩
    split at read
    · rename_i ended
      generalize Text.trimStart cursor.rest = text at ended
      cases text with
      | nil => exact .done
      | cons c rest =>
        have comment : '#' = c := by simpa using ended
        subst comment
        exact .comment
    · cases read
  · intro spells
    have ended : (Text.trimStart cursor.rest).isEmpty ||
        ['#'].isPrefixOf (Text.trimStart cursor.rest) := by
      rcases spells.end with none | ⟨rest, comment⟩
      · rw [Text.trimStart_trimStart] at none
        simp [none]
      · rw [Text.trimStart_trimStart] at comment
        simp [comment]
    exact ⟨_, if_pos ended⟩

/-- Where no atom begins like a constant, a text is read exactly if it derives from the grammar. -/
theorem read_eq_ok_iff {text : String} {spec : Spec} (marker : words.marker = ['#'])
    (free : constantFree true text.toList = true) :
    read words text = .ok spec ↔ Derived words.aliases text.toList spec := by
  constructor
  · intro found
    obtain ⟨⟨first, cursor⟩, front, further⟩ := bind_eq_ok found
    obtain ⟨⟨_, last⟩, ended, same⟩ := bind_eq_ok further
    cases same
    obtain ⟨tokens, derives, between⟩ := givesDerived_nested _ _ _ _ free front
    have rest := (expectEnd_eq_ok_iff marker).mp ⟨last, after_eq_ok ended⟩
    have spells := between.spells rest
    rw [List.append_nil] at spells
    exact ⟨tokens, spells, derives⟩
  · rintro ⟨tokens, spells, derives⟩
    obtain ⟨cursor, front, rest⟩ := @Derives.isRead words _ _ derives text.toList.length []
      (.ofString text) spells.length_le (by simp [EndsSequence])
      (by rwa [List.append_nil])
    obtain ⟨last, ended⟩ := (expectEnd_eq_ok_iff marker).mpr rest
    have whole : readFront words text = .ok (spec, cursor) := front
    simp only [read, whole, ended, bind_ok, after_ok]

end

end Spec

/-! ## Types of texts -/

namespace Catalog

variable {catalog : Catalog}

theorem words_of_marker (marker : catalog.marker = Config.standard.marker) :
    catalog.words.marker = ['#'] := by
  rw [words, marker]
  rfl

/-- The spec of a text comes into being, as definitions that stand for it. -/
theorem Consistent.ends_parseType_read (consistent : catalog.Consistent) {text : String}
    {spec : Spec} (read : Spec.read catalog.words text = .ok spec) :
    Ends (parseType text) catalog (fun id after => after.Represents spec id) fun _ => False := by
  have canonical := Spec.reads_read catalog.words text
  rw [read] at canonical
  simp only [parseType, ends_bind, ends_get, read, accept, ends_pure]
  exact ((elaborates spec).ends consistent canonical).imp fun _ _ made => made.2.2

/-- A type comes into being only for a text that is read. -/
theorem exists_read_of_parseType {text : String} {id : TypeId} {after : Catalog}
    (parsed : parseType text catalog = .ok id after) :
    ∃ spec, Spec.read catalog.words text = .ok spec := by
  cases read : Spec.read catalog.words text with
  | ok spec => exact ⟨spec, rfl⟩
  | error rejection =>
    have rejected : Ends (parseType text) catalog (fun _ _ => False) fun _ => True := by
      simp only [parseType, ends_bind, ends_get, read, accept, ends_throw]
      unfold Ends
      split <;> trivial
    exact (rejected.of_ok parsed).elim

/-- Where no atom of a text begins like a constant, the text is accepted exactly if it derives from
the grammar. It derives as one spec at most, and its type is the tree of that spec: a sequence of
one atom and an atom in parentheses have no node of their own. -/
theorem Consistent.parseType_iff_derived (consistent : catalog.Consistent)
    (marker : catalog.marker = Config.standard.marker) {text : String}
    (free : Spec.constantFree true text.toList = true) :
    ((∃ id after, parseType text catalog = .ok id after) ↔
        ∃ spec, Spec.Derived catalog.aliases text.toList spec) ∧
      ∀ id after, parseType text catalog = .ok id after →
        ∃ spec, Spec.Derived catalog.aliases text.toList spec ∧ after.Represents spec id ∧
          ∀ other, Spec.Derived catalog.aliases text.toList other → other = spec := by
  have iff {spec : Spec} : Spec.read catalog.words text = .ok spec ↔
      Spec.Derived catalog.aliases text.toList spec :=
    Spec.read_eq_ok_iff (words_of_marker marker) free
  refine ⟨⟨?_, ?_⟩, ?_⟩
  · rintro ⟨id, after, parsed⟩
    obtain ⟨spec, read⟩ := exists_read_of_parseType parsed
    exact ⟨spec, iff.mp read⟩
  · rintro ⟨spec, derives⟩
    obtain ⟨id, after, parsed, _⟩ := (consistent.ends_parseType_read (iff.mpr derives)).exists_ok
    exact ⟨id, after, parsed⟩
  · intro id after parsed
    obtain ⟨spec, read⟩ := exists_read_of_parseType parsed
    have represents := (consistent.ends_parseType_read read).of_ok parsed
    refine ⟨spec, iff.mp read, represents, fun other derives => ?_⟩
    exact (Except.ok.inj (read.symm.trans (iff.mpr derives))).symm

/-- Spellings, nested parentheses, blanks, two operators and a comment. -/
def matrixText : String := " array( (int|Unit) ) & dict () | ref # of ("

theorem parseType_iff_derived_matrix :
    (∃ spec, Spec.Derived empty.aliases matrixText.toList spec) ∧
      ¬∃ spec, Spec.Derived empty.aliases "dict(int)".toList spec := by
  have consistent : empty.Consistent := consistent_fresh .standard
  have accepted : succeeds (parseType matrixText) empty = true := by decide +kernel
  have rejected : succeeds (parseType "dict(int)") empty = false := by decide +kernel
  constructor
  · obtain ⟨id, parsed⟩ := eq_ok_of_succeeds accepted
    exact (consistent.parseType_iff_derived rfl (by decide +kernel)).1.mp ⟨id, _, parsed⟩
  · intro derived
    obtain ⟨id, after, parsed⟩ :=
      (consistent.parseType_iff_derived rfl (by decide +kernel)).1.mpr derived
    simp [succeeds, parsed] at rejected

end Catalog

end DocShapes

import DocShapes.Proofs.DocLines
import DocShapes.Proofs.Restoring
import DocShapes.Proofs.StrictPrefix

/-! # Lenient readings in front of more text

What a lenient reader takes from the front of a text it takes in front of more text, too, and it
stops at the same place (`prolongs_lenient`). The text behind must go on neither with a bare value
nor with a single quote.
-/

namespace DocShapes

variable {α : Type} {tail : List Char} {cursor other next : Cursor} {c : Char}

/-! ## Marks -/

theorem Text.trimStart_append_of_visible {text : List Char} (visible : trimStart text ≠ []) :
    trimStart (text ++ tail) = trimStart text ++ tail := by
  rw [trimStart, List.dropWhile_append, if_neg]
  · rfl
  · simpa [trimStart] using visible

theorem Cursor.eat_append (eaten : cursor.eat c = some next)
    (here : other.rest = cursor.rest ++ tail) :
    ∃ after, other.eat c = some after ∧ after.rest = next.rest ++ tail := by
  have front := trimStart_of_eat eaten
  apply eat_eq_some
  rw [here, Text.trimStart_append_of_visible (by simp [front]), front, List.cons_append]

theorem Cursor.eat_append_none (absent : cursor.eat c = none)
    (visible : Text.trimStart cursor.rest ≠ []) (here : other.rest = cursor.rest ++ tail) :
    other.eat c = none := by
  obtain ⟨d, rest, front⟩ := List.exists_cons_of_ne_nil visible
  apply eat_eq_none
  rw [here, Text.trimStart_append_of_visible visible, front, List.cons_append, List.head?_cons]
  intro same
  cases same
  obtain ⟨_, eaten, _⟩ := eat_eq_some front
  rw [absent] at eaten
  cases eaten

theorem Scan.eat_of_some (eaten : cursor.eat c = some next) :
    Scan.eat c cursor = .ok true next := by
  rw [eat, get_bind, eaten]
  rfl

theorem Scan.eat_of_none (absent : cursor.eat c = none) : Scan.eat c cursor = .ok false cursor := by
  rw [eat, get_bind, absent]
  rfl

/-- Behind a part there is a comma and more, or the mark that closes the whole. -/
theorem Scan.delimited_eq_ok_iff {again : Scan α} {last found : α} {close : Char}
    {fault : SpecFault} :
    (do
        if ← eat ',' then again
        else if ← eat close then return last
        else Scan.fail fault) cursor = .ok found next ↔
      (∃ behind, cursor.eat ',' = some behind ∧ again behind = .ok found next) ∨
        cursor.eat ',' = none ∧ cursor.eat close = some next ∧ found = last := by
  cases comma : cursor.eat ',' with
  | some behind =>
    rw [bind_of_ok (eat_of_some comma), if_pos rfl]
    simp
  | none =>
    rw [bind_of_ok (eat_of_none comma), if_neg (by simp)]
    cases closed : cursor.eat close with
    | some behind =>
      rw [bind_of_ok (eat_of_some closed), if_pos rfl]
      constructor
      · intro read
        cases read
        simp
      · rintro (⟨_, none, _⟩ | ⟨_, same, rfl⟩)
        · cases none
        · cases same
          rfl
    | none =>
      rw [bind_of_ok (eat_of_none closed), if_neg (by simp)]
      constructor
      · intro read
        cases read
      · rintro (⟨_, none, _⟩ | ⟨_, none, _⟩) <;> cases none

theorem suffix_forward (cursor : Cursor) (count : Nat) :
    (cursor.forward count).rest <:+ cursor.rest := by
  rw [Cursor.rest_forward]
  exact List.drop_suffix _ _

namespace Literal

/-! ## What is left -/

section

variable {left : Cursor → Prop}

theorem gives_takeQuoted_of (lasting : Lasting left) : Gives left takeQuoted fun _ => True := by
  apply gives_get.bind
  intro start _
  dsimp only
  split
  · apply (gives_forward lasting _).bind
    intro _ _
    exact gives_pure trivial
  · apply (gives_forward lasting _).bind
    intro _ _
    exact gives_throw _

theorem gives_takeBare_of (lasting : Lasting left) (stops marker : List Char) :
    Gives left (takeBare stops marker) fun _ => True := by
  apply gives_get.bind
  intro start _
  apply (gives_forward lasting _).bind
  intro _ _
  exact gives_pure trivial

theorem gives_takeKey_of_lasting (lasting : Lasting left) (marker : List Char) :
    Gives left (takeKey marker) fun _ => True :=
  gives_takeKey_of lasting ((gives_takeQuoted_of lasting).imp fun _ _ _ => trivial)
    ((gives_takeBare_of lasting _ _).imp fun _ _ _ => trivial)

/-- A lenient reader keeps every property that lasts. -/
theorem handed_of (words : Words) (lasting : Lasting left) :
    Handed words left (fun _ => True) fun _ => True where
  lasting := lasting
  quoted := gives_takeQuoted_of lasting
  named := gives_takeKey_of_lasting lasting _
  word := gives_takeBare_of lasting _ _
  list _ _ := trivial
  record _ _ := trivial

end

theorem lasting_suffix (text : List Char) : Lasting fun cursor => cursor.rest <:+ text := by
  intro cursor count inside
  exact (suffix_forward cursor count).trans inside

/-- What keeps every property that lasts leaves an end of the text. -/
theorem suffix_of_gives {scan : Scan α} {holds : α → Prop} {found : α}
    (gives : ∀ left, Lasting left → Gives left scan holds) (read : scan cursor = .ok found next) :
    next.rest <:+ cursor.rest :=
  ((gives _ (lasting_suffix cursor.rest) cursor (List.suffix_refl _)).of_ok read).2

/-! ## Lists -/

/-- The longer scan, in front of the tail, gives what the scan gives without it. -/
structure Prolongs (tail : List Char) (scan longer : Scan α) : Prop where
  visible : ∀ {cursor found next}, scan cursor = .ok found next → Text.trimStart cursor.rest ≠ []
  within : ∀ {cursor found next}, scan cursor = .ok found next → next.rest <:+ cursor.rest
  append : ∀ {cursor other found next}, scan cursor = .ok found next →
    Text.trimStart other.rest = Text.trimStart cursor.rest ++ tail →
      ∃ after, longer other = .ok found after ∧ after.rest = next.rest ++ tail

/-- The mark behind a part stands behind it in front of the tail, too. -/
theorem prolongs_delimited {again longer : Scan α} {last found : α} {close : Char}
    {fault : SpecFault} (here : other.rest = cursor.rest ++ tail)
    (further : ∀ {behind beyond : Cursor}, cursor.eat ',' = some behind →
      beyond.rest = behind.rest ++ tail → again behind = .ok found next →
        ∃ after, longer beyond = .ok found after ∧ after.rest = next.rest ++ tail)
    (read : (do
        if ← Scan.eat ',' then again
        else if ← Scan.eat close then return last
        else Scan.fail fault) cursor = .ok found next) :
    ∃ after, (do
        if ← Scan.eat ',' then longer
        else if ← Scan.eat close then return last
        else Scan.fail fault) other = .ok found after ∧ after.rest = next.rest ++ tail := by
  simp only [Scan.delimited_eq_ok_iff] at read ⊢
  rcases read with ⟨behind, comma, rest⟩ | ⟨comma, closed, rfl⟩
  · obtain ⟨beyond, eaten, same⟩ := Cursor.eat_append comma here
    obtain ⟨after, taken, left⟩ := further comma same rest
    exact ⟨after, .inl ⟨beyond, eaten, taken⟩, left⟩
  · have visible : Text.trimStart cursor.rest ≠ [] := by simp [Cursor.trimStart_of_eat closed]
    obtain ⟨after, eaten, left⟩ := Cursor.eat_append closed here
    exact ⟨after, .inr ⟨Cursor.eat_append_none comma visible here, eaten, rfl⟩, left⟩

theorem length_lt_of_eat (eaten : cursor.eat c = some next) :
    next.rest.length < cursor.rest.length := by
  have shorter := Text.length_trimStart_le cursor.rest
  rw [Cursor.trimStart_of_eat eaten, List.length_cons] at shorter
  exact shorter

theorem Prolongs.takeItems {scan longer : Scan Literal} (element : Prolongs tail scan longer)
    {fuel more : Nat} {items : List Literal} (room : cursor.rest.length < fuel)
    (below : fuel ≤ more) (here : other.rest = cursor.rest ++ tail)
    (read : takeItems scan fuel cursor = .ok items next) :
    ∃ after, takeItems longer more other = .ok items after ∧ after.rest = next.rest ++ tail := by
  induction fuel generalizing more cursor other items with
  | zero => exact absurd room (Nat.not_lt_zero _)
  | succ fuel ih =>
    obtain ⟨more, rfl⟩ := Nat.exists_eq_add_one_of_ne_zero (Nat.ne_zero_of_lt below)
    rw [Literal.takeItems] at read ⊢
    cases closed : cursor.eat ']' with
    | some last =>
      obtain ⟨after, eaten, rest⟩ := Cursor.eat_append closed here
      rw [bind_of_ok (Scan.eat_of_some closed)] at read
      rw [bind_of_ok (Scan.eat_of_some eaten)]
      cases read
      exact ⟨after, rfl, rest⟩
    | none =>
      rw [bind_of_ok (Scan.eat_of_none closed)] at read
      obtain ⟨first, middle, taken, further⟩ := of_bind_eq_ok read
      have visible := element.visible taken
      obtain ⟨beyond, again, rest⟩ := element.append taken
        (by rw [here, Text.trimStart_append_of_visible visible])
      rw [bind_of_ok (Scan.eat_of_none (Cursor.eat_append_none closed visible here)),
        if_neg (by simp), bind_of_ok again]
      refine prolongs_delimited rest (fun comma same read => ?_) further
      obtain ⟨others, last, behind, ended⟩ := of_bind_eq_ok read
      cases ended
      have shorter := Nat.lt_of_lt_of_le (length_lt_of_eat comma) (element.within taken).length_le
      obtain ⟨after, found, left⟩ := ih (by omega) (Nat.le_of_succ_le_succ below) same behind
      exact ⟨after, by rw [bind_of_ok found]; rfl, left⟩

/-! ## Quoted texts and bare words -/

theorem doubleQuoted_append {text body rest : List Char}
    (quoted : doubleQuoted text = some (body, rest)) :
    rest <:+ text ∧ doubleQuoted (text ++ tail) = some (body, rest ++ tail) := by
  fun_induction doubleQuoted text generalizing body rest with
  | case1 => cases quoted
  | case2 rest =>
    cases quoted
    exact ⟨List.suffix_cons _ _, rfl⟩
  | case3 c text meant =>
    rename_i ih
    obtain ⟨⟨inner, behind⟩, more, same⟩ := Option.map_eq_some_iff.mp quoted
    cases same
    obtain ⟨inside, longer⟩ := ih more
    refine ⟨(inside.trans (List.suffix_cons _ _)).trans (List.suffix_cons _ _), ?_⟩
    simp [doubleQuoted, longer, meant]
  | case4 => cases quoted
  | case5 c text quote long plain ih =>
    obtain ⟨⟨inner, behind⟩, more, same⟩ := Option.map_eq_some_iff.mp quoted
    cases same
    obtain ⟨inside, longer⟩ := ih more
    refine ⟨inside.trans (List.suffix_cons _ _), ?_⟩
    simp [doubleQuoted, plain, longer]

theorem singleQuoted_append {text body rest : List Char} (single : tail.head? ≠ some '\'')
    (quoted : singleQuoted text = some (body, rest)) :
    rest <:+ text ∧ singleQuoted (text ++ tail) = some (body, rest ++ tail) := by
  fun_induction singleQuoted text generalizing body rest with
  | case1 => cases quoted
  | case2 text ih =>
    obtain ⟨⟨inner, behind⟩, more, same⟩ := Option.map_eq_some_iff.mp quoted
    cases same
    obtain ⟨inside, longer⟩ := ih more
    refine ⟨(inside.trans (List.suffix_cons _ _)).trans (List.suffix_cons _ _), ?_⟩
    simp [singleQuoted, longer]
  | case3 rest last =>
    cases quoted
    refine ⟨List.suffix_cons _ _, ?_⟩
    rw [List.cons_append, singleQuoted]
    intro other same
    cases rest with
    | nil => exact single (by rw [← List.nil_append tail, same, List.head?_cons])
    | cons c rest =>
      cases same
      exact last _ rfl
  | case4 c text double other ih =>
    obtain ⟨⟨inner, behind⟩, more, same⟩ := Option.map_eq_some_iff.mp quoted
    cases same
    obtain ⟨inside, longer⟩ := ih more
    refine ⟨inside.trans (List.suffix_cons _ _), ?_⟩
    rw [List.cons_append, singleQuoted]
    · rw [longer]
      rfl
    · exact fun _ same => (other same).elim
    · exact fun same => (other same).elim

/-- The text between the quotes that a text begins with, and what stands behind them. -/
def quotedBody : List Char → Option (List Char × List Char)
  | '"' :: rest => doubleQuoted rest
  | _ :: rest => singleQuoted rest
  | [] => none

theorem quotedBody_append {text body rest : List Char} (single : tail.head? ≠ some '\'')
    (quoted : quotedBody text = some (body, rest)) :
    rest <:+ text ∧ quotedBody (text ++ tail) = some (body, rest ++ tail) := by
  unfold quotedBody at quoted
  split at quoted
  · obtain ⟨inside, longer⟩ := doubleQuoted_append quoted
    exact ⟨inside.trans (List.suffix_cons _ _), longer⟩
  · rename_i other
    obtain ⟨inside, longer⟩ := singleQuoted_append single quoted
    refine ⟨inside.trans (List.suffix_cons _ _), ?_⟩
    rw [List.cons_append, quotedBody]
    · exact longer
    · exact fun same => (other same).elim
  · cases quoted

theorem takeQuoted_eq (cursor : Cursor) :
    takeQuoted cursor = (match quotedBody cursor.rest with
      | some (body, rest) => do
          Scan.forward (cursor.rest.length - rest.length)
          return String.ofList body
      | none => do
          Scan.forward cursor.rest.length
          Scan.failAt cursor
            (if cursor.rest.isEmpty then .missingQuoted else .unterminatedString)) cursor := rfl

theorem takeQuoted_eq_ok_iff {text : String} :
    takeQuoted cursor = .ok text next ↔
      ∃ body rest, quotedBody cursor.rest = some (body, rest) ∧ text = String.ofList body ∧
        next = cursor.forward (cursor.rest.length - rest.length) := by
  rw [takeQuoted_eq]
  cases quotedBody cursor.rest with
  | none =>
    constructor
    · intro read
      cases read
    · rintro ⟨_, _, none, _⟩
      cases none
  | some found =>
    constructor
    · intro read
      cases read
      exact ⟨_, _, rfl, rfl, rfl⟩
    · rintro ⟨_, _, same, rfl, rfl⟩
      cases same
      rfl

/-- The tail goes on neither with a bare value nor with a single quote. -/
structure Bounds (marker tail : List Char) : Prop where
  word : ∀ text, bareWord valueStops marker (text ++ tail) = bareWord valueStops marker text
  quote : tail.head? ≠ some '\''

/-- A character that ends a bare value bounds every value, and so does the end of the text. -/
theorem bounds_of_stop {marker : List Char} (stop : ∀ c ∈ tail.head?, c ∈ valueStops) :
    Bounds marker tail where
  word text := by
    rw [bareWord, Json.takeWhile_append (fun c front => by simp [stop c front]), bareWord]
  quote front := absurd (stop _ front) (by decide)

/-- A comment behind a blank bounds every value where the mark of comments is `#`. -/
theorem bounds_comment (comment : List Char) : Bounds ['#'] (' ' :: '#' :: comment) where
  word text := by
    have run : ∃ blanks, Text.trimEnd blanks = [] ∧
        beforeMarker ['#'] ((text ++ ' ' :: '#' :: comment).takeWhile
          fun c => !valueStops.contains c) =
        beforeMarker ['#'] (text.takeWhile fun c => !valueStops.contains c) ++ blanks := by
      induction text with
      | nil => exact ⟨[' '], rfl, by simp [valueStops, beforeMarker]⟩
      | cons c text ih =>
        obtain ⟨blanks, blank, same⟩ := ih
        rw [List.cons_append, List.takeWhile_cons, List.takeWhile_cons]
        split
        · by_cases mark : '#' = c
          · subst mark
            exact ⟨[], rfl, rfl⟩
          · have step (rest : List Char) :
                beforeMarker ['#'] (c :: rest) = c :: beforeMarker ['#'] rest := by
              simp [beforeMarker, mark]
            exact ⟨blanks, blank, by rw [step, step, same, List.cons_append]⟩
        · exact ⟨[], rfl, rfl⟩
    obtain ⟨blanks, blank, same⟩ := run
    rw [bareWord, bareWord, if_neg (by simp), if_neg (by simp), same,
      Text.trimEnd_append_of_eq_nil blank]
  quote := by simp

theorem prolongs_takeQuoted (single : tail.head? ≠ some '\'') {text : String}
    (here : other.rest = cursor.rest ++ tail) (read : takeQuoted cursor = .ok text next) :
    ∃ after, takeQuoted other = .ok text after ∧ after.rest = next.rest ++ tail := by
  obtain ⟨body, rest, quoted, rfl, rfl⟩ := takeQuoted_eq_ok_iff.mp read
  obtain ⟨⟨used, whole⟩, longer⟩ := quotedBody_append single quoted
  rw [← here] at longer
  refine ⟨_, takeQuoted_eq_ok_iff.mpr ⟨body, rest ++ tail, longer, rfl, rfl⟩, ?_⟩
  rw [rest_forward_run whole.symm, rest_forward_run]
  rw [here, ← whole, List.append_assoc]

theorem takeBare_eq (stops marker : List Char) (cursor : Cursor) :
    takeBare stops marker cursor = .ok (bareWord stops marker cursor.rest)
      (cursor.forward (bareWord stops marker cursor.rest).length) := rfl

theorem prolongs_takeBare {stops marker word : List Char}
    (same : bareWord stops marker (cursor.rest ++ tail) = bareWord stops marker cursor.rest)
    (here : other.rest = cursor.rest ++ tail)
    (read : takeBare stops marker cursor = .ok word next) :
    ∃ after, takeBare stops marker other = .ok word after ∧ after.rest = next.rest ++ tail := by
  rw [takeBare_eq] at read ⊢
  cases read
  rw [here, same]
  refine ⟨_, rfl, ?_⟩
  have inside := (prefix_bareWord stops marker cursor.rest).length_le
  rw [Cursor.rest_forward, Cursor.rest_forward, here, List.drop_append_of_le_length inside]

/-! ## Records -/

/-- A bare key ends in front of its colon, so that the tail does not matter. -/
theorem bareWord_key_append {marker text : List Char} (colon : ':' ∈ text) :
    bareWord keyStops marker (text ++ tail) = bareWord keyStops marker text := by
  have run : (text ++ tail).takeWhile (fun c => !keyStops.contains c) =
      text.takeWhile fun c => !keyStops.contains c := by
    have stops : (!keyStops.contains ':') = false := by decide
    obtain ⟨before, behind, rfl⟩ := List.append_of_mem colon
    clear colon
    induction before with
    | nil => simp only [List.nil_append, List.cons_append, List.takeWhile_cons, stops,
        Bool.false_eq_true, if_false]
    | cons c before ih =>
      simp only [List.cons_append, List.takeWhile_cons] at ih ⊢
      rw [ih]
  rw [bareWord, run, bareWord]

/-- The key at a cursor, which may be empty. -/
def keyText (marker : List Char) : Scan String := do
  let start ← get
  if start.peek = some '"' ∨ start.peek = some '\'' then takeQuoted
  else String.ofList <$> takeBare keyStops marker

theorem takeKey_eq_ok_iff {marker : List Char} {key : String} :
    takeKey marker cursor = .ok key next ↔
      keyText marker cursor.skipBlank = .ok key next ∧ key ≠ "" := by
  have checked (taken : Scan String) :
      (do
        let key ← taken
        if key.isEmpty then Scan.failAt cursor.skipBlank .missingKey
        return key) cursor.skipBlank = .ok key next ↔
      taken cursor.skipBlank = .ok key next ∧ key ≠ "" := by
    constructor
    · intro read
      obtain ⟨found, middle, first, ended⟩ := of_bind_eq_ok read
      by_cases empty : found.isEmpty = true
      · rw [if_pos empty] at ended
        cases ended
      · rw [if_neg empty] at ended
        cases ended
        exact ⟨first, by simpa using empty⟩
    · rintro ⟨first, filled⟩
      rw [bind_of_ok first, if_neg (by simpa using filled)]
      rfl
  rw [takeKey, keyText, get_bind,
    bind_of_ok (show Scan.skipBlank cursor = .ok () cursor.skipBlank from rfl), get_bind]
  generalize cursor.skipBlank.peek = front
  dsimp only
  split
  · rw [if_pos (.inl rfl)]
    exact checked takeQuoted
  · rw [if_pos (.inr rfl)]
    exact checked takeQuoted
  · rename_i double single
    rw [if_neg (not_or.mpr ⟨fun same => double same, fun same => single same⟩)]
    exact checked (String.ofList <$> takeBare keyStops marker)

theorem peek_append (visible : cursor.rest ≠ []) (here : other.rest = cursor.rest ++ tail) :
    other.peek = cursor.peek := by
  obtain ⟨c, rest, front⟩ := List.exists_cons_of_ne_nil visible
  rw [Cursor.peek, Cursor.peek, here, front, List.cons_append, List.head?_cons, List.head?_cons]

theorem map_eq_ok_iff {β : Type} {scan : Scan α} {view : α → β} {found : β} :
    (view <$> scan) cursor = .ok found next ↔
      ∃ taken, scan cursor = .ok taken next ∧ view taken = found := by
  simp only [Functor.map, EStateM.map]
  cases scan cursor <;> simp [and_comm]

theorem visible_of_takeKey {marker : List Char} {key : String}
    (read : takeKey marker cursor = .ok key next) : Text.trimStart cursor.rest ≠ [] := by
  intro blank
  obtain ⟨taken, filled⟩ := takeKey_eq_ok_iff.mp read
  rw [← Cursor.rest_skipBlank] at blank
  rw [keyText, get_bind, if_neg (by simp [Cursor.peek, blank])] at taken
  obtain ⟨word, bare, rfl⟩ := map_eq_ok_iff.mp taken
  rw [takeBare_eq, blank] at bare
  cases bare
  rw [List.prefix_nil.mp (prefix_bareWord _ _ _)] at filled
  exact filled rfl

/-- A key in front of its colon. -/
theorem prolongs_takeKey {marker : List Char} (single : tail.head? ≠ some '\'') {key : String}
    {colon : Cursor} (here : other.rest = cursor.rest ++ tail)
    (read : takeKey marker cursor = .ok key next) (eaten : next.eat ':' = some colon) :
    ∃ after, takeKey marker other = .ok key after ∧ after.rest = next.rest ++ tail := by
  obtain ⟨taken, filled⟩ := takeKey_eq_ok_iff.mp read
  have visible := visible_of_takeKey read
  have start : other.skipBlank.rest = cursor.skipBlank.rest ++ tail := by
    rw [Cursor.rest_skipBlank, Cursor.rest_skipBlank, here,
      Text.trimStart_append_of_visible visible]
  rw [← Cursor.rest_skipBlank] at visible
  suffices longer : ∃ after, keyText marker other.skipBlank = .ok key after ∧
      after.rest = next.rest ++ tail by
    obtain ⟨after, again, rest⟩ := longer
    exact ⟨after, takeKey_eq_ok_iff.mpr ⟨again, filled⟩, rest⟩
  rw [keyText, get_bind] at taken ⊢
  rw [peek_append visible start]
  split at taken
  · rename_i quote
    rw [if_pos quote]
    exact prolongs_takeQuoted single start taken
  · rename_i bare
    rw [if_neg bare]
    obtain ⟨word, bare, rfl⟩ := map_eq_ok_iff.mp taken
    have inside : ':' ∈ cursor.skipBlank.rest := by
      rw [takeBare_eq] at bare
      cases bare
      have front := Cursor.trimStart_of_eat eaten
      rw [Cursor.rest_forward] at front
      apply List.mem_of_mem_drop
      apply (List.dropWhile_sublist Text.isBlank).subset
      rw [← Text.trimStart, front]
      exact List.mem_cons_self
    obtain ⟨after, again, rest⟩ := prolongs_takeBare (bareWord_key_append inside) start bare
    exact ⟨after, map_eq_ok_iff.mpr ⟨word, again, rfl⟩, rest⟩

theorem suffix_takeKey {marker : List Char} {key : String}
    (read : takeKey marker cursor = .ok key next) : next.rest <:+ cursor.rest :=
  suffix_of_gives (fun _ lasting => gives_takeKey_of_lasting lasting marker) read

theorem Prolongs.takeFields {scan longer : Scan Literal} (element : Prolongs tail scan longer)
    (single : tail.head? ≠ some '\'') {marker : List Char} {fuel more : Nat}
    {before fields : List (String × Literal)} (room : cursor.rest.length < fuel)
    (below : fuel ≤ more) (here : other.rest = cursor.rest ++ tail)
    (read : takeFields marker scan fuel before cursor = .ok fields next) :
    ∃ after, takeFields marker longer more before other = .ok fields after ∧
      after.rest = next.rest ++ tail := by
  induction fuel generalizing more cursor other before with
  | zero => exact absurd room (Nat.not_lt_zero _)
  | succ fuel ih =>
    obtain ⟨more, rfl⟩ := Nat.exists_eq_add_one_of_ne_zero (Nat.ne_zero_of_lt below)
    rw [Literal.takeFields] at read ⊢
    cases closed : cursor.eat '\x7d' with
    | some last =>
      obtain ⟨after, eaten, rest⟩ := Cursor.eat_append closed here
      rw [bind_of_ok (Scan.eat_of_some closed)] at read
      rw [bind_of_ok (Scan.eat_of_some eaten)]
      cases read
      exact ⟨after, rfl, rest⟩
    | none =>
      rw [bind_of_ok (Scan.eat_of_none closed)] at read
      obtain ⟨key, named, taken, further⟩ := of_bind_eq_ok read
      cases colon : named.eat ':' with
      | none =>
        rw [bind_of_ok (Scan.eat_of_none colon)] at further
        cases further
      | some opened =>
        rw [bind_of_ok (Scan.eat_of_some colon)] at further
        obtain ⟨value, middle, read, further⟩ := of_bind_eq_ok further
        have visible := visible_of_takeKey taken
        obtain ⟨beyond, again, rest⟩ := prolongs_takeKey single here taken colon
        obtain ⟨beyond, eaten, rest⟩ := Cursor.eat_append colon rest
        obtain ⟨beyond, once, rest⟩ := element.append read
          (by rw [rest, Text.trimStart_append_of_visible (element.visible read)])
        rw [bind_of_ok (Scan.eat_of_none (Cursor.eat_append_none closed visible here)),
          if_neg (by simp), bind_of_ok again, bind_of_ok (Scan.eat_of_some eaten), if_pos rfl]
        dsimp only at further ⊢
        rw [bind_of_ok once]
        refine prolongs_delimited rest (fun comma same others => ?_) further
        have shorter := calc
          _ < middle.rest.length := length_lt_of_eat comma
          _ ≤ opened.rest.length := (element.within read).length_le
          _ < named.rest.length := length_lt_of_eat colon
          _ ≤ cursor.rest.length := (suffix_takeKey taken).length_le
        exact ih (by omega) (Nat.le_of_succ_le_succ below) same others

/-! ## Values -/

theorem suffix_lenient {words : Words} {depth : Nat} {found : Literal}
    (read : lenient words depth cursor = .ok found next) : next.rest <:+ cursor.rest :=
  suffix_of_gives (fun _ lasting => (handed_of words lasting).lenient depth) read

section

variable {words : Words} {depth : Nat} {rest : List Char}

theorem lenient_succ (words : Words) (depth : Nat) (cursor : Cursor) :
    lenient words (depth + 1) cursor =
      (match cursor.skipBlank.peek with
      | some '"' => Literal.string <$> takeQuoted
      | some '\'' => Literal.string <$> takeQuoted
      | some '[' => do
          Scan.forward 1
          Literal.list <$> takeItems (lenient words depth) (cursor.skipBlank.rest.length + 1)
      | some '\x7b' => do
          Scan.forward 1
          Literal.record <$>
            takeFields words.marker (lenient words depth) (cursor.skipBlank.rest.length + 1) []
      | _ => do
          let word ← takeBare valueStops words.marker
          if word.isEmpty then Scan.failAt cursor.skipBlank .missingLiteral
          return ofWord words.aliases word) cursor.skipBlank := rfl

theorem lenient_quote (quote : c = '"' ∨ c = '\'') (front : Text.trimStart cursor.rest = c :: rest) :
    lenient words (depth + 1) cursor = (Literal.string <$> takeQuoted) cursor.skipBlank := by
  rw [lenient_succ, (peek_skipBlank front).1]
  rcases quote with rfl | rfl <;> rfl

theorem lenient_bracket (front : Text.trimStart cursor.rest = '[' :: rest) :
    lenient words (depth + 1) cursor =
      (Literal.list <$> takeItems (lenient words depth) (rest.length + 2))
        cursor.skipBlank.step := by
  rw [lenient_succ, (peek_skipBlank front).1, (peek_skipBlank front).2]
  rfl

theorem lenient_brace (front : Text.trimStart cursor.rest = '\x7b' :: rest) :
    lenient words (depth + 1) cursor =
      (Literal.record <$> takeFields words.marker (lenient words depth) (rest.length + 2) [])
        cursor.skipBlank.step := by
  rw [lenient_succ, (peek_skipBlank front).1, (peek_skipBlank front).2]
  rfl

/-- A value that begins with no quote and no bracket is a word. -/
theorem lenient_word
    (bare : ∀ c ∈ (Text.trimStart cursor.rest).head?, c ∉ ['"', '\'', '[', '\x7b']) :
    lenient words (depth + 1) cursor =
      (do
        let word ← takeBare valueStops words.marker
        if word.isEmpty then Scan.failAt cursor.skipBlank .missingLiteral
        return ofWord words.aliases word) cursor.skipBlank := by
  rw [lenient_succ]
  rw [← Cursor.rest_skipBlank, ← Cursor.peek] at bare
  generalize cursor.skipBlank.peek = front at bare ⊢
  split
  · exact absurd (by decide) (bare '"' rfl)
  · exact absurd (by decide) (bare '\'' rfl)
  · exact absurd (by decide) (bare '[' rfl)
  · exact absurd (by decide) (bare '\x7b' rfl)
  · rfl

theorem lenient_word_eq_ok_iff {found : Literal}
    (bare : ∀ c ∈ (Text.trimStart cursor.rest).head?, c ∉ ['"', '\'', '[', '\x7b']) :
    lenient words (depth + 1) cursor = .ok found next ↔
      ∃ word, takeBare valueStops words.marker cursor.skipBlank = .ok word next ∧ word ≠ [] ∧
        found = ofWord words.aliases word := by
  rw [lenient_word bare, bind_of_ok (takeBare_eq _ _ _), takeBare_eq]
  constructor
  · intro read
    split at read
    · cases read
    · rename_i filled
      cases read
      exact ⟨_, rfl, by simpa using filled, rfl⟩
  · rintro ⟨word, taken, filled, rfl⟩
    cases taken
    rw [if_neg (by simpa using filled)]
    rfl

end

/-- Nothing is read where only blanks are left. -/
theorem visible_of_lenient {words : Words} {depth : Nat} {found : Literal}
    (read : lenient words depth cursor = .ok found next) : Text.trimStart cursor.rest ≠ [] := by
  intro blank
  cases depth with
  | zero => cases read
  | succ depth =>
    obtain ⟨word, bare, filled, _⟩ := (lenient_word_eq_ok_iff (by simp [blank])).mp read
    rw [takeBare_eq, Cursor.rest_skipBlank, blank] at bare
    cases bare
    exact filled (List.prefix_nil.mp (prefix_bareWord _ _ _))

theorem prolongs_lenient {words : Words} (bounds : Bounds words.marker tail) {depth more : Nat}
    (below : depth ≤ more) : Prolongs tail (lenient words depth) (lenient words more) where
  visible := visible_of_lenient
  within := suffix_lenient
  append := by
    induction depth generalizing more with
    | zero =>
      intro cursor other found next read
      cases read
    | succ depth ih =>
      intro cursor other found next read here
      obtain ⟨more, rfl⟩ := Nat.exists_eq_add_one_of_ne_zero (Nat.ne_zero_of_lt below)
      have element : Prolongs tail (lenient words depth) (lenient words more) :=
        ⟨visible_of_lenient, suffix_lenient, ih (Nat.le_of_succ_le_succ below)⟩
      obtain ⟨c, rest, front⟩ := List.exists_cons_of_ne_nil (visible_of_lenient read)
      have start : other.skipBlank.rest = cursor.skipBlank.rest ++ tail := by
        rw [Cursor.rest_skipBlank, Cursor.rest_skipBlank, here]
      rw [front, List.cons_append] at here
      by_cases quote : c = '"' ∨ c = '\''
      · rw [lenient_quote quote front] at read
        obtain ⟨text, taken, rfl⟩ := map_eq_ok_iff.mp read
        obtain ⟨after, again, left⟩ := prolongs_takeQuoted bounds.quote start taken
        rw [lenient_quote quote here]
        exact ⟨after, map_eq_ok_iff.mpr ⟨text, again, rfl⟩, left⟩
      have inside : cursor.skipBlank.step.rest = rest := by
        rw [Cursor.step, Cursor.rest_forward, Cursor.rest_skipBlank, front, List.drop_one,
          List.tail_cons]
      have inner : other.skipBlank.step.rest = cursor.skipBlank.step.rest ++ tail := by
        rw [inside, Cursor.step, Cursor.rest_forward, Cursor.rest_skipBlank, here, List.drop_one,
          List.tail_cons]
      have room : cursor.skipBlank.step.rest.length < rest.length + 2 := by
        rw [inside]
        omega
      have length : rest.length + 2 ≤ (rest ++ tail).length + 2 := by simp
      by_cases bracket : c = '['
      · subst bracket
        rw [lenient_bracket front] at read
        obtain ⟨items, taken, rfl⟩ := map_eq_ok_iff.mp read
        obtain ⟨after, again, left⟩ := element.takeItems room length inner taken
        rw [lenient_bracket here]
        exact ⟨after, map_eq_ok_iff.mpr ⟨items, again, rfl⟩, left⟩
      by_cases brace : c = '\x7b'
      · subst brace
        rw [lenient_brace front] at read
        obtain ⟨fields, taken, rfl⟩ := map_eq_ok_iff.mp read
        obtain ⟨after, again, left⟩ := element.takeFields bounds.quote room length inner taken
        rw [lenient_brace here]
        exact ⟨after, map_eq_ok_iff.mpr ⟨fields, again, rfl⟩, left⟩
      · have bare : c ∉ ['"', '\'', '[', '\x7b'] := by
          simpa [bracket, brace, not_or] using quote
        rw [lenient_word_eq_ok_iff (by simpa [front] using bare)] at read
        obtain ⟨word, taken, filled, rfl⟩ := read
        obtain ⟨after, again, left⟩ := prolongs_takeBare (bounds.word _) start taken
        refine ⟨after, ?_, left⟩
        rw [lenient_word_eq_ok_iff (by simpa [here] using bare)]
        exact ⟨word, again, filled, rfl⟩

/-! ## Constants

The first characters of a constant decide which reader takes it.
-/

/-- A text begins like bytes, like a number, with a quote or a bracket, or like no constant. -/
theorem front_cases (text : List Char) :
    (∀ c ∈ text.head?, c.isDigit = false ∧ c ∉ ['-', '"', '\'', '[', '\x7b']) ∨
      (∃ c rest, text = '0' :: c :: rest ∧ (c = 'x' ∨ c = 'X')) ∨
      (∃ c rest, text = c :: rest ∧ (c.isDigit = true ∨ c = '-') ∧
        (c = '0' → ∀ d ∈ rest.head?, d ≠ 'x' ∧ d ≠ 'X')) ∨
      ∃ c rest, text = c :: rest ∧ c ∈ ['"', '\'', '[', '\x7b'] := by
  cases text with
  | nil => exact .inl (by simp)
  | cons c rest =>
    by_cases hex : c = '0' ∧ ∃ d more, rest = d :: more ∧ (d = 'x' ∨ d = 'X')
    · obtain ⟨rfl, d, more, rfl, mark⟩ := hex
      exact .inr (.inl ⟨d, more, rfl, mark⟩)
    by_cases digit : c.isDigit = true ∨ c = '-'
    · refine .inr (.inr (.inl ⟨c, rest, rfl, digit, fun zero d second => ?_⟩))
      obtain ⟨more, rfl⟩ := List.head?_eq_some_iff.mp second
      exact not_or.mp fun mark => hex ⟨zero, d, more, rfl, mark⟩
    by_cases opening : c ∈ ['"', '\'', '[', '\x7b']
    · exact .inr (.inr (.inr ⟨c, rest, rfl, opening⟩))
    · obtain ⟨digit, sign⟩ := not_or.mp digit
      refine .inl ?_
      rintro _ ⟨⟩
      rw [List.mem_cons, not_or]
      exact ⟨by simpa using digit, sign, opening⟩

theorem takeStrict_eq (cursor : Cursor) :
    takeStrict cursor = match strict? cursor.rest with
      | none => .ok none cursor
      | some (found, rest) =>
          .ok (some (ofJson found)) (cursor.forward (cursor.rest.length - rest.length)) := by
  rw [takeStrict, get_bind]
  cases strict? cursor.rest <;> rfl

theorem takeHex_eq (cursor : Cursor) :
    takeHex cursor =
      match ofHex? ((cursor.rest.drop 2).takeWhile Text.isHexDigit) with
      | some found => .ok found
          (cursor.forward (2 + ((cursor.rest.drop 2).takeWhile Text.isHexDigit).length))
      | none => .error (cursor.fault .unevenHex) cursor := by
  rw [takeHex, get_bind]
  cases ofHex? ((cursor.rest.drop 2).takeWhile Text.isHexDigit) <;> rfl

section

variable {words : Words}

theorem constant?_hex {rest : List Char} (front : cursor.rest = '0' :: c :: rest)
    (mark : c = 'x' ∨ c = 'X') : constant? words cursor = (some <$> takeHex) cursor := by
  rw [constant?, get_bind, front]
  rcases mark with rfl | rfl <;> rfl

theorem constant?_number {rest : List Char} (front : cursor.rest = c :: rest)
    (digit : c.isDigit = true ∨ c = '-')
    (decimal : c = '0' → ∀ d ∈ rest.head?, d ≠ 'x' ∧ d ≠ 'X') :
    constant? words cursor = (do
      match ← takeStrict with
      | some found => return some found
      | none => Scan.fail .malformedNumber) cursor := by
  have number : (c.isDigit || c = '-') = true := by simpa using digit
  rw [constant?, get_bind]
  generalize cursor.rest = text at front ⊢
  split
  · obtain ⟨zero, same⟩ := List.cons.inj front
    exact absurd rfl (decimal zero.symm 'x' (by rw [← same]; rfl)).1
  · obtain ⟨zero, same⟩ := List.cons.inj front
    exact absurd rfl (decimal zero.symm 'X' (by rw [← same]; rfl)).2
  · obtain ⟨rfl, _⟩ := List.cons.inj front
    exact congrFun (if_pos number) cursor
  · cases front

theorem constant?_opening {rest : List Char} (front : cursor.rest = c :: rest)
    (opening : c ∈ ['"', '\'', '[', '\x7b']) :
    constant? words cursor = (do
      match ← takeStrict with
      | some found => return some found
      | none => some <$> takeLenient words) cursor := by
  rw [constant?, get_bind, front]
  simp only [List.mem_cons, List.not_mem_nil, or_false] at opening
  rcases opening with rfl | rfl | rfl | rfl <;> rfl

theorem constant?_other
    (other : ∀ c ∈ cursor.rest.head?, c.isDigit = false ∧ c ∉ ['-', '"', '\'', '[', '\x7b']) :
    constant? words cursor = .ok none cursor := by
  rw [constant?, get_bind]
  generalize cursor.rest = text at other ⊢
  split
  · exact absurd (other '0' rfl).1 (by decide)
  · exact absurd (other '0' rfl).1 (by decide)
  · rename_i first _ _ _
    obtain ⟨digit, plain⟩ := other first rfl
    simp only [List.mem_cons, List.not_mem_nil, or_false, not_or] at plain
    obtain ⟨sign, double, single, bracket, brace⟩ := plain
    rw [if_neg (by simp [digit, sign]), if_neg (by simp [single, double, brace, bracket])]
    rfl
  · rfl

end

end Literal

end DocShapes

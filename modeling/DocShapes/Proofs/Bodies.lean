import DocShapes.Catalog.Block
import DocShapes.Proofs.Visible

/-! # Headers and their bodies

An outline parts a block into headers, each with the lines behind it that it owns, so that no line
is lost, doubled or given to another header. Bodies are shorter than their block. So the reading of
nested blocks, which goes on in the bodies, comes to an end: feeding a body to a type is the one
solution of its recursion (`lines_owned_once`).
-/

namespace DocShapes

/-! ## Parts of a block -/

namespace Outline

open Text (blank trimmed)

/-- A header and the lines that it owns, as they stand in the block. -/
structure Part where
  header : String
  body : List String

def Part.lines (part : Part) : List String := part.header :: part.body

/-- No line, or a blank one, stands last or first among some lines. -/
def BlankOrAbsent (line? : Option String) : Prop := ∀ line ∈ line?, blank line = true

/-- What the outline shows for a part, of which `before` and `behind` are the lines around it. -/
structure Part.Shown (part : Part) (before behind : List String) (line : Line) : Prop where
  text : line.text = trimmed part.header
  declaration : line.declaration = classify (trimmed part.header)
  body : line.body = dedent part.body
  /-- A blank line owns nothing. -/
  empty : blank part.header = true → part.body = []
  last : ∀ last ∈ part.body.getLast?, blank last = false
  deeper : ∀ line ∈ part.body, blank line = false → indent part.header < indent line
  /-- The first visible line behind the part is not deep enough to belong to it. -/
  ended : blank part.header = false →
    ∀ next ∈ behind.find? (fun line => !blank line), indent next ≤ indent part.header
  blankBefore : blank part.header = false →
    (line.blankBefore = true ↔ BlankOrAbsent before.getLast?)
  blankAfter : blank part.header = false →
    (line.blankAfter = true ↔ BlankOrAbsent behind.head?)

/-- The lines of an outline show some parts one by one; `before` are the lines in front of them. -/
inductive Divided : (before : List String) → List Part → List Line → Prop
  | nil (before : List String) : Divided before [] []
  | cons {before : List String} {part : Part} {parts : List Part} {line : Line} {rest : List Line} :
      part.Shown before (parts.flatMap Part.lines) line →
      Divided (before ++ part.lines) parts rest →
      Divided before (part :: parts) (line :: rest)

/-! ## Owned lines -/

variable {own : Nat} {lines : List String}

/-- The lines behind a header are those that it owns, blank lines, and others that are no deeper. -/
theorem exists_owned_append (own : Nat) (lines : List String) :
    ∃ gap others, lines = owned own lines ++ (gap ++ others) ∧
      (∀ line ∈ gap, blank line = true) ∧
      ∀ line ∈ others.head?, blank line = false ∧ indent line ≤ own := by
  obtain ⟨gap, silent, same, _⟩ :=
    Doc.dropBlankEnd_append (lines.takeWhile fun line => blank line || own < indent line)
  refine ⟨gap, lines.dropWhile fun line => blank line || own < indent line, ?_, silent, ?_⟩
  · rw [← List.append_assoc, owned, ← same, List.takeWhile_append_dropWhile]
  · intro line first
    have stops := List.head?_dropWhile_not (fun line => blank line || own < indent line) lines
    rw [Option.mem_def.mp first] at stops
    simpa using stops

theorem getLast?_owned (own : Nat) (lines : List String) :
    ∀ last ∈ (owned own lines).getLast?, blank last = false := by
  obtain ⟨_, _, _, visible⟩ :=
    Doc.dropBlankEnd_append (lines.takeWhile fun line => blank line || own < indent line)
  exact visible

theorem lt_indent_of_mem_owned {line : String} (member : line ∈ owned own lines)
    (shown : blank line = false) : own < indent line := by
  obtain ⟨_, _, same, _⟩ :=
    Doc.dropBlankEnd_append (lines.takeWhile fun line => blank line || own < indent line)
  have within : line ∈ lines.takeWhile fun line => blank line || own < indent line := by
    rw [same]
    exact List.mem_append_left _ member
  simpa [shown] using List.mem_takeWhile_imp within

theorem le_of_find?_drop_owned (own : Nat) (lines : List String) :
    ∀ next ∈ (lines.drop (owned own lines).length).find? (fun line => !blank line),
      indent next ≤ own := by
  obtain ⟨gap, others, same, silent, stops⟩ := exists_owned_append own lines
  intro next found
  have behind : lines.drop (owned own lines).length = gap ++ others := by
    have dropped := congrArg (List.drop (owned own lines).length) same
    rwa [List.drop_left] at dropped
  have passed : gap.find? (fun line => !blank line) = none := by
    simpa using silent
  rw [behind, List.find?_append, passed, Option.none_or] at found
  cases others with
  | nil => cases found
  | cons other rest =>
    obtain ⟨shown, shallow⟩ := stops other rfl
    rw [List.find?_cons_of_pos (by simp [shown])] at found
    cases found
    exact shallow

theorem linesFrom_skipped (before : Bool) (skipped : Nat) (lines : List String) :
    linesFrom before skipped lines = linesFrom before 0 (lines.drop skipped) := by
  induction lines generalizing skipped with
  | nil => simp [linesFrom]
  | cons line rest ih =>
    cases skipped with
    | zero => rfl
    | succ skipped => exact ih skipped

/-! ## Outlines -/

theorem getD_blank_iff (line? : Option String) :
    (line?.map blank).getD true = true ↔ BlankOrAbsent line? := by
  cases line? with
  | none => simp [BlankOrAbsent]
  | some => simp [BlankOrAbsent]

theorem shown_blank {header : String} (before behind : List String) (silent : blank header = true) :
    (Part.mk header []).Shown before behind blankLine where
  text := (Text.trimmed_eq_empty_iff.mpr silent).symm
  declaration := by rw [Text.trimmed_eq_empty_iff.mpr silent]; rfl
  body := rfl
  empty _ := rfl
  last := by simp
  deeper := by simp
  ended shown := by simp [silent] at shown
  blankBefore shown := by simp [silent] at shown
  blankAfter shown := by simp [silent] at shown

theorem shown_header {header : String} {earlier rest : List String} {before : Bool}
    (visible : blank header = false) (here : before = true ↔ BlankOrAbsent earlier.getLast?) :
    (Part.mk header (owned (indent header) rest)).Shown earlier
      (rest.drop (owned (indent header) rest).length)
      { text := trimmed header
        declaration := classify (trimmed header)
        body := dedent (owned (indent header) rest)
        blankBefore := before
        blankAfter :=
          ((rest.drop (owned (indent header) rest).length).head?.map blank).getD true } where
  text := rfl
  declaration := by dsimp only
  body := rfl
  empty silent := by simp [visible] at silent
  last := getLast?_owned (indent header) rest
  deeper _ member shown := lt_indent_of_mem_owned member shown
  ended _ := le_of_find?_drop_owned (indent header) rest
  blankBefore _ := here
  blankAfter _ := getD_blank_iff (rest.drop (owned (indent header) rest).length).head?

/-- The last line of a part with a visible header is visible. -/
theorem visible_last (earlier : List String) {header : String} {mine : List String}
    (shown : blank header = false) (last : ∀ last ∈ mine.getLast?, blank last = false) :
    ¬BlankOrAbsent (earlier ++ header :: mine).getLast? := by
  intro silent
  rw [List.getLast?_append_of_ne_nil _ (by simp)] at silent
  cases mine with
  | nil => simpa [shown] using silent header rfl
  | cons first others =>
    rw [List.getLast?_cons_cons] at silent
    obtain ⟨final, ended⟩ : ∃ final, (first :: others).getLast? = some final :=
      ⟨_, List.getLast?_eq_some_getLast (by simp)⟩
    simpa [last final ended] using silent final ended

/-- From any place on, an outline shows parts that make up the lines which are left. -/
theorem exists_divided (earlier : List String) (before : Bool) (lines : List String)
    (here : before = true ↔ BlankOrAbsent earlier.getLast?) :
    ∃ parts : List Part, parts.flatMap Part.lines = lines ∧
      Divided earlier parts (linesFrom before 0 lines) := by
  match lines with
  | [] => exact ⟨[], rfl, .nil earlier⟩
  | header :: rest =>
    rw [linesFrom]
    split
    · rename_i silent
      obtain ⟨parts, same, divided⟩ := exists_divided (earlier ++ [header]) true rest
        (by simpa [BlankOrAbsent] using silent)
      exact ⟨⟨header, []⟩ :: parts, by simp [Part.lines, same],
        .cons (shown_blank _ _ silent) divided⟩
    · rename_i visible
      have shown : blank header = false := by simpa using visible
      have owns := @shown_header header earlier rest before shown here
      have body := List.prefix_iff_eq_append.mp (prefix_owned (indent header) rest)
      have last := getLast?_owned (indent header) rest
      dsimp only
      rw [linesFrom_skipped]
      generalize owned (indent header) rest = mine at *
      obtain ⟨parts, same, divided⟩ := exists_divided (earlier ++ header :: mine) false
        (rest.drop mine.length) (iff_of_false (by simp) (visible_last earlier shown last))
      refine ⟨⟨header, mine⟩ :: parts, ?_, .cons (same.symm ▸ owns) divided⟩
      rw [List.flatMap_cons, same, Part.lines, List.cons_append, body]
termination_by lines.length

end Outline

/-! ## Bodies are read to their end -/

namespace Catalog

open Outline (Line)

variable {left right : Feed}

theorem declaration?_congr (mode : Mode) (line : Line)
    (same : ∀ id, left id line.body = right id line.body) :
    declaration? left mode line = declaration? right mode line := by
  unfold declaration? declare declareAlone
  simp only [same]

theorem nextEntry_congr (mode : Mode) (prose : List String) (lines : List Line)
    (same : ∀ line ∈ lines, ∀ id, left id line.body = right id line.body) :
    nextEntry left mode prose lines = nextEntry right mode prose lines := by
  induction lines generalizing prose with
  | nil => rfl
  | cons line rest ih =>
    obtain ⟨here, others⟩ := List.forall_mem_cons.mp same
    simp only [nextEntry, declaration?_congr mode line here, ih _ others]

/-- The lines behind an entry are among those that it was drawn from. -/
theorem suffix_of_nextEntry {feed : Feed} {mode : Mode} {prose : List String}
    {lines rest : List Line} {entry : Entry} {catalog after : Catalog}
    (drawn : nextEntry feed mode prose lines catalog = .ok (some (entry, rest)) after) :
    rest <:+ lines := by
  induction lines generalizing prose catalog with
  | nil =>
    cases found : Doc.ofLines prose with
    | none => simp [nextEntry, found, pure, EStateM.pure] at drawn
    | some doc =>
      simp only [nextEntry, found, pure, EStateM.pure, Option.map_some, EStateM.Result.ok.injEq,
        Option.some.injEq, Prod.mk.injEq] at drawn
      exact drawn.1.2 ▸ List.suffix_rfl
  | cons line others ih =>
    rw [nextEntry] at drawn
    split at drawn
    · exact (ih drawn).trans (List.suffix_cons line others)
    · obtain ⟨slot?, middle, _, further⟩ := of_bind_eq_ok drawn
      cases slot? with
      | none => exact (ih further).trans (List.suffix_cons line others)
      | some slot =>
        obtain ⟨channel, eager⟩ := mode
        cases channel <;>
        · obtain ⟨_, _, _, last⟩ := of_bind_eq_ok further
          cases last
          exact List.suffix_cons line rest

theorem drawEntries_congr (mode : Mode) (count : Nat) (lines : List Line)
    (same : ∀ line ∈ lines, ∀ id, left id line.body = right id line.body) :
    drawEntries left mode count lines = drawEntries right mode count lines := by
  induction count generalizing lines with
  | zero => rfl
  | succ count ih =>
    funext catalog
    simp only [drawEntries, ← nextEntry_congr mode [] lines same]
    split
    · rfl
    · rfl
    · rename_i entry rest after drawn
      rw [ih rest fun line member => same line ((suffix_of_nextEntry drawn).subset member)]

theorem allEntries_congr (mode : Mode) (lines : List Line)
    (same : ∀ line ∈ lines, ∀ id, left id line.body = right id line.body) :
    allEntries left mode lines = allEntries right mode lines := by
  rw [allEntries, drawEntries_congr mode _ lines same, ← allEntries]

/-- Feeding a body uses the feed for shorter bodies only. -/
theorem feedBody_congr {body : List String}
    (same : ∀ inner : List String, inner.length < body.length →
      ∀ id, left id inner = right id inner)
    (id : TypeId) : feedBody left id body = feedBody right id body := by
  have entries (eager : Bool) : allEntries left ⟨none, eager⟩ (Outline.ofLines body) =
      allEntries right ⟨none, eager⟩ (Outline.ofLines body) :=
    allEntries_congr _ _ fun line member => same _ (Outline.length_body_lt body line member)
  unfold feedBody feedTarget
  simp only [entries]

/-- The feed that has room for any body. -/
def feedAll : Feed := fun id body => feedWithin body.length id body

theorem feedWithin_nil (depth : Nat) (id : TypeId) : feedWithin depth id [] = pure none := by
  cases depth <;> rfl

/-- Room for more lines than the body has changes nothing. -/
theorem feedWithin_eq_of_le {depth more : Nat} {body : List String} (room : body.length ≤ depth)
    (further : body.length ≤ more) (id : TypeId) :
    feedWithin depth id body = feedWithin more id body := by
  induction depth generalizing more body id with
  | zero =>
    obtain rfl := List.length_eq_zero_iff.mp (Nat.le_zero.mp room)
    rw [feedWithin_nil, feedWithin_nil]
  | succ depth ih =>
    cases more with
    | zero =>
      obtain rfl := List.length_eq_zero_iff.mp (Nat.le_zero.mp further)
      rw [feedWithin_nil, feedWithin_nil]
    | succ more =>
      exact feedBody_congr (fun inner shorter id => ih (by omega) (by omega) id) id

/-- Feeding is the one solution of its recursion. -/
structure OnlyFeed (feed : Feed) : Prop where
  solves : ∀ id body, feed id body = feedBody feed id body
  unique : ∀ other : Feed, (∀ id body, other id body = feedBody other id body) → other = feed

theorem onlyFeed_feedAll : OnlyFeed feedAll where
  solves id body := by
    rw [feedAll, feedWithin_eq_of_le le_rfl (Nat.le_succ body.length), feedWithin]
    refine feedBody_congr (fun inner shorter id => ?_) id
    exact feedWithin_eq_of_le (Nat.le_of_lt shorter) le_rfl id
  unique other solves := by
    have same (depth : Nat) (body : List String) (room : body.length ≤ depth) (id : TypeId) :
        other id body = feedWithin depth id body := by
      induction depth generalizing body id with
      | zero =>
        obtain rfl := List.length_eq_zero_iff.mp (Nat.le_zero.mp room)
        rw [solves, feedWithin_nil]
        rfl
      | succ depth ih =>
        rw [solves]
        exact feedBody_congr (fun inner shorter id => ih inner (by omega) id) id
    funext id body
    exact same body.length body le_rfl id

/-! ## Blocks -/

/-- An outline parts its lines into headers and the lines that they own, one for one, and says of
each header what stands around it. Bodies are shorter than the block, so that feeding them is a
recursion with one solution, and a block of this length is read as with room for any body. -/
theorem lines_owned_once (lines : List String) :
    (∃ parts : List Outline.Part, parts.flatMap Outline.Part.lines = lines ∧
      Outline.Divided [] parts (Outline.ofLines lines)) ∧
    (∀ line ∈ Outline.ofLines lines, line.body.length < lines.length) ∧
    OnlyFeed feedAll ∧
    ∀ mode depth, lines.length ≤ depth + 1 →
      allEntries (feedWithin depth) mode (Outline.ofLines lines) =
        allEntries feedAll mode (Outline.ofLines lines) := by
  refine ⟨Outline.exists_divided [] true lines (by simp [Outline.BlankOrAbsent]),
    Outline.length_body_lt lines, onlyFeed_feedAll, fun mode depth room => ?_⟩
  refine allEntries_congr mode _ fun line member id => ?_
  have shorter := Outline.length_body_lt lines line member
  exact feedWithin_eq_of_le (by omega) le_rfl id

end Catalog

end DocShapes

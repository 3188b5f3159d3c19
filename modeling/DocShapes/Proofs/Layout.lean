import DocShapes.Proofs.Representation
import DocShapes.Proofs.Visible

/-! # Layout of a block

A block consists of headers, which are the lines that declare slots, and of prose. The body of a
header is a block of its own if the declared type takes it, and prose otherwise. What a type takes
depends on what names mean, and as long as this stays the same the layout does (`Steady.layout_eq`).
A layout leaves out no line of its block (`Catalog.lines_layout`).
-/

namespace DocShapes

/-! ## Layouts -/

/-- Headers and lines of prose, in their order. A header has the name that it declares, if any, and
the layout of its body. -/
inductive Layout where
  | done
  | prose (line : String) (rest : Layout)
  | header (line : String) (name : Option String) (body rest : Layout)
  deriving Repr, DecidableEq, Inhabited

namespace Layout

/-- All lines, headers included. -/
def lines : Layout → List String
  | done => []
  | prose line rest => line :: rest.lines
  | header line _ body rest => line :: (body.lines ++ rest.lines)

/-- All lines that are no headers, at any depth. -/
def documentation : Layout → List String
  | done => []
  | prose line rest => line :: rest.documentation
  | header _ _ body rest => body.documentation ++ rest.documentation

/-- The names that the headers declare, without those inside of bodies. -/
def names : Layout → List (Option String)
  | done => []
  | prose _ rest => rest.names
  | header _ name _ rest => name :: rest.names

/-- The prose in front of each header, without what stands inside of bodies. -/
def fronts : Layout → List (List String)
  | done => []
  | prose line rest => rest.fronts.modifyHead (line :: ·)
  | header _ _ _ rest => [] :: rest.fronts

/-- The prose behind the last header. -/
def tail : Layout → List String
  | done => []
  | prose line rest => if rest.fronts.isEmpty then line :: rest.tail else rest.tail
  | header _ _ _ rest => rest.tail

/-- The prose that a body has for the type that takes it: in front of the first header and behind
the last one. In front of any other header it is for what the header declares. -/
def own (layout : Layout) : List String := layout.fronts.headD [] ++ layout.tail

/-- The bodies of the headers. -/
def bodies : Layout → List Layout
  | done => []
  | prose _ rest => rest.bodies
  | header _ _ body rest => body :: rest.bodies

/-- Lines of prose in front of a layout. -/
def behind (front : List String) (rest : Layout) : Layout := front.foldr prose rest

theorem lines_behind (front : List String) (rest : Layout) :
    (behind front rest).lines = front ++ rest.lines := by
  induction front with
  | nil => rfl
  | cons line _ ih => rw [behind, List.foldr_cons, lines, ← behind, ih, List.cons_append]

theorem documentation_behind (front : List String) (rest : Layout) :
    (behind front rest).documentation = front ++ rest.documentation := by
  induction front with
  | nil => rfl
  | cons line _ ih =>
    rw [behind, List.foldr_cons, documentation, ← behind, ih, List.cons_append]

theorem names_behind (front : List String) (rest : Layout) :
    (behind front rest).names = rest.names := by
  induction front with
  | nil => rfl
  | cons line _ ih => rw [behind, List.foldr_cons, names, ← behind, ih]

theorem fronts_behind (front : List String) (rest : Layout) :
    (behind front rest).fronts = rest.fronts.modifyHead (front ++ ·) := by
  induction front with
  | nil =>
    rw [behind, List.foldr_nil]
    cases rest.fronts <;> rfl
  | cons line _ ih =>
    rw [behind, List.foldr_cons, fronts, ← behind, ih, List.modifyHead_modifyHead]
    rfl

theorem tail_behind (front : List String) (rest : Layout) :
    (behind front rest).tail = if rest.fronts.isEmpty then front ++ rest.tail else rest.tail := by
  induction front with
  | nil => simp [behind]
  | cons line more ih =>
    have same : (behind more rest).fronts.isEmpty = rest.fronts.isEmpty := by
      rw [fronts_behind]
      cases rest.fronts <;> rfl
    rw [behind, List.foldr_cons, tail, ← behind, ih, same]
    split <;> rfl

theorem bodies_behind (front : List String) (rest : Layout) :
    (behind front rest).bodies = rest.bodies := by
  induction front with
  | nil => rfl
  | cons line _ ih => rw [behind, List.foldr_cons, bodies, ← behind, ih]

theorem own_behind_done (front : List String) : (behind front done).own = front := by
  rw [own, fronts_behind, tail_behind]
  simp [fronts, tail]

theorem behind_append (front more : List String) (rest : Layout) :
    behind (front ++ more) rest = behind front (behind more rest) := by
  simp [behind]

end Layout

/-- How a type takes the declarations of a body: as its fields, or as the item that it lacks. -/
inductive Intake where
  | fields
  | item
  deriving Repr, DecidableEq

namespace Outline

/-- A line that is cut off at both ends, and that has a body only if it is not blank. -/
structure Line.Cut (line : Line) : Prop where
  trimmed : Text.trimmed line.text = line.text
  bodyless : line.isBlank = true → line.body = []

theorem cut_of_mem_linesFrom {before : Bool} {skipped : Nat} {lines : List String} {line : Line}
    (member : line ∈ linesFrom before skipped lines) : line.Cut := by
  induction lines generalizing before skipped with
  | nil => simp [linesFrom] at member
  | cons first rest ih =>
    cases skipped with
    | succ skipped => exact ih member
    | zero =>
      rw [linesFrom] at member
      split at member
      · rcases List.mem_cons.mp member with rfl | later
        · exact ⟨by decide, fun _ => rfl⟩
        · exact ih later
      · rename_i shown
        rcases List.mem_cons.mp member with rfl | later
        · refine ⟨Text.trimmed_trimmed first, fun empty => ?_⟩
          have none : Text.trimmed first = "" := String.isEmpty_iff.mp empty
          exact absurd (Text.trimmed_eq_empty_iff.mp none) shown
        · exact ih later

theorem cut_of_mem_ofLines {lines : List String} : ∀ line ∈ ofLines lines, line.Cut :=
  fun _ member => cut_of_mem_linesFrom member

/-- A blank line says nothing. -/
theorem Line.Cut.visible_own {line : Line} (cut : line.Cut) (blank : line.isBlank = true) :
    Text.visible line.own = [] := by
  have none : line.text = "" := String.isEmpty_iff.mp blank
  rw [Line.own, none, cut.bodyless blank]
  rfl

/-- A line that is not blank says what it is. -/
theorem Line.Cut.visible_text {line : Line} (cut : line.Cut) (shown : line.isBlank = false) :
    Text.visible [line.text] = [line.text] := by
  have filled : line.text.isEmpty = false := shown
  simp [Text.visible, cut.trimmed, filled]

end Outline

namespace Catalog

open Outline (Line)

variable {catalog before after : Catalog}

/-! ## Headers -/

/-- How the type of a spec takes a body, if it takes one. -/
def intake? (catalog : Catalog) : Spec → Option Intake
  | .named name =>
      match catalog.mention name with
      | .record .. => some .fields
      | _ => none
  | .record => some .fields
  | .list => some .item
  | .listOf item => catalog.intake? item
  | _ => none

/-- What a header declares: a name, and how its type takes the body. -/
structure Heading where
  name : Option String
  intake? : Option Intake
  deriving Repr, DecidableEq

/-- The heading of a line, if it declares a slot. Lone type names do so in eager blocks only. -/
def heading? (catalog : Catalog) (eager : Bool) (line : Line) : Option Heading :=
  match line.declaration with
  | some (name, spec) =>
      some ⟨name,
        match Spec.readDeclaration catalog.words spec with
        | .ok (spec, _) => catalog.intake? spec
        | .error _ => none⟩
  | none =>
      if catalog.isStandalone ⟨none, eager⟩ line then
        some ⟨none,
          match Spec.read catalog.words line.text with
          | .ok spec => catalog.intake? spec
          | .error _ => none⟩
      else none

/-- A body that no type takes. -/
def proseLayout (body : List String) : Layout := .behind (Text.visible body) .done

/-- The layout of a body, with the layout of taken bodies made by `taken`. -/
def bodyLayout (taken : Bool → List String → Layout) (intake? : Option Intake)
    (body : List String) : Layout :=
  match intake? with
  | none => proseLayout body
  | some intake => taken (intake = .item) body

/-- The layout of lines, with the layout of taken bodies made by `taken`; the body of an eager
block goes to a list. -/
def linesLayout (catalog : Catalog) (taken : Bool → List String → Layout) (eager : Bool) :
    List Line → Layout
  | [] => .done
  | line :: rest =>
      match (if line.isBlank then none else catalog.heading? eager line) with
      | none => .behind (Text.visible line.own) (linesLayout catalog taken eager rest)
      | some heading =>
          .header line.text heading.name (bodyLayout taken heading.intake? line.body)
            (linesLayout catalog taken eager rest)

/-- The layout of a body of at most `depth` lines that is taken. -/
def layoutWithin (catalog : Catalog) : Nat → Bool → List String → Layout
  | 0, _, body => proseLayout body
  | depth + 1, eager, body =>
      catalog.linesLayout (catalog.layoutWithin depth) eager (Outline.ofLines body)

/-- The layout of a whole block. -/
def layout (catalog : Catalog) (eager : Bool) (text : String) : Layout :=
  catalog.linesLayout (catalog.layoutWithin (Text.linesOf text).length) eager (Outline.ofText text)

/-! ## All lines -/

theorem lines_linesLayout {taken : Bool → List String → Layout}
    (whole : ∀ eager body, (taken eager body).lines = Text.visible body) (eager : Bool)
    {lines : List Line} (cut : ∀ line ∈ lines, line.Cut) :
    (catalog.linesLayout taken eager lines).lines = Text.visible (lines.flatMap Line.own) := by
  induction lines with
  | nil => rfl
  | cons line rest ih =>
    obtain ⟨lineCut, restCut⟩ := List.forall_mem_cons.mp cut
    rw [linesLayout, List.flatMap_cons, Text.visible_append]
    split
    · rw [Layout.lines_behind, ih restCut]
    · rename_i heading found
      have shown : line.isBlank = false := by
        cases blank : line.isBlank with
        | true => simp [blank] at found
        | false => rfl
      have body : (bodyLayout taken heading.intake? line.body).lines = Text.visible line.body := by
        unfold bodyLayout
        split
        · rw [proseLayout, Layout.lines_behind]
          exact List.append_nil _
        · exact whole _ _
      rw [Layout.lines, body, ih restCut, Line.own, Text.visible_cons, lineCut.visible_text shown]
      rfl

theorem lines_layoutWithin (catalog : Catalog) (depth : Nat) (eager : Bool) (body : List String) :
    (catalog.layoutWithin depth eager body).lines = Text.visible body := by
  induction depth generalizing eager body with
  | zero =>
    rw [layoutWithin, proseLayout, Layout.lines_behind]
    exact List.append_nil _
  | succ depth ih =>
    rw [layoutWithin, lines_linesLayout ih eager Outline.cut_of_mem_ofLines,
      Outline.ofLines, Outline.visible_linesFrom, List.drop_zero]

/-- The lines of the layout are the visible lines of the text, in their order. -/
theorem lines_layout (catalog : Catalog) (eager : Bool) (text : String) :
    (catalog.layout eager text).lines = Text.visible (Text.linesOf text) := by
  have cut : ∀ line ∈ Outline.ofText text, line.Cut := Outline.cut_of_mem_ofLines
  rw [layout, lines_linesLayout (catalog.lines_layoutWithin _) eager cut, Outline.visible_ofText]

/-- The bound on the depth of a layout cuts nothing off, as a body has no more levels than lines. -/
theorem layoutWithin_succ (catalog : Catalog) {depth : Nat} (eager : Bool) {body : List String}
    (short : body.length ≤ depth) :
    catalog.layoutWithin (depth + 1) eager body = catalog.layoutWithin depth eager body := by
  induction depth generalizing eager body with
  | zero =>
    rw [List.length_eq_zero_iff.mp (Nat.le_zero.mp short)]
    rfl
  | succ depth ih =>
    have shorter : ∀ line ∈ Outline.ofLines body, line.body.length ≤ depth := fun line member =>
      Nat.le_of_lt_succ (Nat.lt_of_lt_of_le (Outline.length_body_lt body line member) short)
    rw [layoutWithin, layoutWithin]
    generalize Outline.ofLines body = lines at shorter
    induction lines with
    | nil => rfl
    | cons line rest inner =>
      obtain ⟨here, others⟩ := List.forall_mem_cons.mp shorter
      have same (intake : Option Intake) :
          bodyLayout (catalog.layoutWithin (depth + 1)) intake line.body =
            bodyLayout (catalog.layoutWithin depth) intake line.body := by
        cases intake with
        | none => rfl
        | some intake => exact ih _ here
      simp only [linesLayout, inner others, same]

/-! ## Layouts stay -/

/-- Names mean the same in specs, and specs are read with the same settings. -/
structure Steady (before after : Catalog) : Prop where
  aliases : after.aliases = before.aliases
  marker : after.marker = before.marker
  mention_eq : ∀ name, after.mention name = before.mention name

theorem Steady.refl (catalog : Catalog) : catalog.Steady catalog := ⟨rfl, rfl, fun _ => rfl⟩

theorem Steady.trans {middle : Catalog} (first : before.Steady middle)
    (second : middle.Steady after) : before.Steady after where
  aliases := second.aliases.trans first.aliases
  marker := second.marker.trans first.marker
  mention_eq name := (second.mention_eq name).trans (first.mention_eq name)

theorem Steady.words_eq (steady : before.Steady after) : after.words = before.words := by
  rw [words, words, steady.aliases, steady.marker]

theorem Steady.intake?_eq (steady : before.Steady after) (spec : Spec) :
    after.intake? spec = before.intake? spec := by
  induction spec using Spec.induction with
  | step spec ih =>
    cases spec with
    | named name => rw [intake?, intake?, steady.mention_eq]
    | listOf item => exact ih item List.mem_cons_self
    | _ => rfl

theorem meaning_of_keyword {name : String} {keyword : Name.Keyword}
    (means : Name.keyword? name = some keyword) : catalog.meaning name = .keyword keyword := by
  rw [meaning, means]

theorem meaning_ne_keyword {name : String} (plain : Name.keyword? name = none)
    (keyword : Name.Keyword) : catalog.meaning name ≠ .keyword keyword := by
  rw [meaning, plain]
  dsimp only
  split
  · simp
  · split <;> simp

/-- A name that is no keyword is unknown exactly if a mention of it is. -/
theorem meaning_eq_unknown_iff {name : String} (plain : Name.keyword? name = none) :
    catalog.meaning name = .unknown ↔ catalog.mention name = .unknown name := by
  unfold mention
  cases means : catalog.meaning name with
  | keyword keyword => exact absurd means (meaning_ne_keyword plain keyword)
  | registered base => cases base <;> simp
  | custom => simp
  | unknown => simp

/-- What a lone name must mean to declare a slot. -/
theorem declares_iff {name : String} (plain : Name.keyword? name = none) :
    (match catalog.meaning name with
      | .unknown => false
      | .keyword .null => false
      | .keyword .true => false
      | .keyword .false => false
      | _ => true) = true ↔ catalog.mention name ≠ .unknown name := by
  rw [Ne, ← meaning_eq_unknown_iff plain]
  cases means : catalog.meaning name with
  | keyword keyword => exact absurd means (meaning_ne_keyword plain keyword)
  | registered | custom | unknown => simp

theorem Steady.isStandalone_eq (steady : before.Steady after) (mode : Mode) (line : Line) :
    after.isStandalone mode line = before.isStandalone mode line := by
  have resolved : after.resolveAlias line.text = before.resolveAlias line.text := by
    rw [resolveAlias, resolveAlias, steady.aliases]
  unfold isStandalone
  rw [resolved]
  congr 1
  generalize before.resolveAlias line.text = name
  cases plain : Name.keyword? name with
  | some keyword => rw [meaning_of_keyword plain, meaning_of_keyword plain]
  | none =>
    have mentions : after.mention name ≠ .unknown name ↔ before.mention name ≠ .unknown name := by
      rw [steady.mention_eq]
    have declares := (declares_iff plain).trans (mentions.trans (declares_iff plain).symm)
    exact Bool.eq_iff_iff.mpr declares

theorem Steady.heading?_eq (steady : before.Steady after) (eager : Bool) (line : Line) :
    after.heading? eager line = before.heading? eager line := by
  have intake : after.intake? = before.intake? := funext steady.intake?_eq
  rw [heading?, heading?, steady.words_eq, steady.isStandalone_eq, intake]

theorem Steady.linesLayout_eq (steady : before.Steady after)
    (taken : Bool → List String → Layout) (eager : Bool) (lines : List Line) :
    after.linesLayout taken eager lines = before.linesLayout taken eager lines := by
  induction lines with
  | nil => rfl
  | cons line rest ih => rw [linesLayout, linesLayout, steady.heading?_eq, ih]

theorem Steady.layoutWithin_eq (steady : before.Steady after) (depth : Nat) :
    after.layoutWithin depth = before.layoutWithin depth := by
  induction depth with
  | zero => rfl
  | succ depth ih =>
    funext eager body
    rw [layoutWithin, layoutWithin, ih, steady.linesLayout_eq]

end Catalog

end DocShapes

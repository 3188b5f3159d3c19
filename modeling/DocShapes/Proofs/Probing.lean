import DocShapes.Proofs.Consuming
import DocShapes.Proofs.Offsets

/-! # Literals read on byte offsets

Every reader of literals has a probe that does the same on byte offsets: it takes the slices that
the reader takes and goes where the reader goes. The probes mirror the readers (`mirrors_value`), so
that no slice of theirs is missing and no place of theirs is inside a character.
-/

namespace DocShapes

open Text (Boundary width within)

/-! ## Places of cursors -/

namespace Cursor

variable {cursor : Cursor}

theorem position_forward (count : Nat) (cursor : Cursor) :
    (cursor.forward count).position = cursor.position + width (cursor.rest.take count) := by
  induction count generalizing cursor with
  | zero => simp [forward, position]
  | succ count ih =>
    obtain ⟨passed, rest⟩ := cursor
    cases rest with
    | nil => simp [forward]
    | cons c rest =>
      rw [forward, ih]
      simp only [position, width, List.take_succ_cons]
      omega

theorem position_le_forward (count : Nat) (cursor : Cursor) :
    cursor.position ≤ (cursor.forward count).position := by
  rw [position_forward]
  exact Nat.le_add_right _ _

theorem position_le_skipBlank (cursor : Cursor) : cursor.position ≤ cursor.skipBlank.position :=
  cursor.position_le_forward _

theorem position_seek (target : Nat) (cursor : Cursor) :
    (cursor.seek target).position = width (within target cursor.text) := by
  have taken := List.prefix_iff_eq_take.mp (Text.within_prefix target cursor.text)
  rw [seek, position_forward]
  show 0 + width (cursor.text.take _) = _
  rw [← taken, Nat.zero_add]

theorem text_eq (cursor : Cursor) : cursor.text = cursor.passed.reverse ++ cursor.rest := rfl

theorem width_reverse_passed (cursor : Cursor) : width cursor.passed.reverse = cursor.position :=
  Text.width_reverse _

theorem boundary_position (cursor : Cursor) : Boundary cursor.text cursor.position := by
  rw [← width_reverse_passed]
  exact Text.boundary_append _ _

end Cursor

namespace Matches

variable {text : List Char} {place : Place} {cursor : Cursor}

theorem start (text : List Char) : Matches text .start (.ofList text) :=
  ⟨rfl, rfl, by simpa [Place.start, Place.visited] using Text.boundary_append [] text⟩

/-- The text of a place is sliced where the cursor stands. -/
theorem rest (here : Matches text place cursor) :
    Probe.rest text place = .ok cursor.rest place := by
  have behind := Text.slice?_append cursor.passed.reverse cursor.rest []
  rw [List.append_nil, ← cursor.text_eq, here.whole, cursor.width_reverse_passed] at behind
  have finish : cursor.position + width cursor.rest = width text := by
    rw [← here.whole, cursor.text_eq, Text.width_append, cursor.width_reverse_passed]
  rw [finish, ← here.position] at behind
  show Probe.slice text place.position (width text) place = _
  rw [Probe.slice, behind]
  rfl

end Matches

/-! ## Rules -/

section Rules

variable {α β : Type} {text : List Char} {place : Place} {cursor middle : Cursor}
  {probe : Probe α} {reading : Spec.Reading (α × Cursor)}

theorem mirrors_pure (here : Matches text place cursor) (found : α) :
    Mirrors text place cursor (pure found) (.ok (found, cursor)) :=
  ⟨Nat.le_refl _, place, rfl, here⟩

theorem Probe.bind_of_ok {next : α → Probe β} {found : α} {after : Place}
    (succeeds : probe place = .ok found after) : (probe >>= next) place = next found after := by
  simp only [Bind.bind, EStateM.bind, succeeds]

/-- What is not behind a place is not behind a later one. -/
theorem Mirrors.from_before {earlier : Cursor} (mirrors : Mirrors text place cursor probe reading)
    (le : earlier.position ≤ cursor.position) : Mirrors text place earlier probe reading := by
  unfold Mirrors at mirrors ⊢
  split
  · exact ⟨le.trans mirrors.1, mirrors.2⟩
  · exact mirrors

/-- After a step of a probe, the probe goes on from there; it may go back to where it began. -/
theorem Mirrors.step_back {found : α} {next : α → Probe β} {reading : Spec.Reading (β × Cursor)}
    (first : Mirrors text place cursor probe (.ok (found, middle)))
    (second : ∀ after, Matches text after middle →
      Mirrors text after cursor (next found) reading) :
    Mirrors text place cursor (probe >>= next) reading := by
  obtain ⟨_, after, ended, here⟩ := first
  have behind := second after here
  unfold Mirrors at behind ⊢
  rwa [Probe.bind_of_ok ended]

/-- After a step of a probe, the probe goes on from there. -/
theorem Mirrors.step {found : α} {next : α → Probe β} {reading : Spec.Reading (β × Cursor)}
    (first : Mirrors text place cursor probe (.ok (found, middle)))
    (second : ∀ after, Matches text after middle →
      Mirrors text after middle (next found) reading) :
    Mirrors text place cursor (probe >>= next) reading :=
  first.step_back fun after here => (second after here).from_before first.1

/-- Two probes in turn mirror two readings in turn. -/
theorem Mirrors.bind {next : α → Probe β} {further : α × Cursor → Spec.Reading (β × Cursor)}
    (first : Mirrors text place cursor probe reading)
    (second : ∀ found middle, reading = .ok (found, middle) → ∀ after, Matches text after middle →
      Mirrors text after middle (next found) (further (found, middle))) :
    Mirrors text place cursor (probe >>= next) (reading >>= further) := by
  cases reading with
  | ok result => exact first.step (second result.1 result.2 rfl)
  | error rejection =>
    obtain ⟨placed, after, ended, visited⟩ := first
    refine ⟨placed, after, ?_, visited⟩
    simp only [Bind.bind, EStateM.bind, ended]

/-- What was completed before an error does not matter. -/
theorem Mirrors.after (mirrors : Mirrors text place cursor probe reading)
    (completed : List Spec) : Mirrors text place cursor probe (reading.after completed) := by
  cases reading with
  | ok => exact mirrors
  | error => exact mirrors

theorem mirrors_ite {condition : Prop} [Decidable condition] {other : Probe α}
    {otherwise : Spec.Reading (α × Cursor)}
    (ifTrue : condition → Mirrors text place cursor probe reading)
    (ifFalse : ¬condition → Mirrors text place cursor other otherwise) :
    Mirrors text place cursor (if condition then probe else other)
      (if condition then reading else otherwise) := by
  split
  · exact ifTrue ‹_›
  · exact ifFalse ‹_›

/-! ### Reading the text -/

theorem mirrors_position (here : Matches text place cursor) :
    Mirrors text place cursor Probe.position (.ok (cursor.position, cursor)) :=
  ⟨Nat.le_refl _, place, by rw [← here.position]; rfl, here⟩

theorem mirrors_rest (here : Matches text place cursor) :
    Mirrors text place cursor (Probe.rest text) (.ok (cursor.rest, cursor)) :=
  ⟨Nat.le_refl _, place, here.rest, here⟩

theorem mirrors_peek (here : Matches text place cursor) :
    Mirrors text place cursor (Probe.peek text) (.ok (cursor.peek, cursor)) :=
  (mirrors_rest here).step fun _ here => mirrors_pure here _

theorem mirrors_slice {slice piece : List Char} {start finish : Nat}
    (here : Matches text place cursor) (found : Text.slice? slice start finish = some piece) :
    Mirrors text place cursor (Probe.slice slice start finish) (.ok (piece, cursor)) := by
  refine ⟨Nat.le_refl _, place, ?_, here⟩
  rw [Probe.slice, found]
  rfl

/-- The bytes of a piece at the front of a text are a slice of it. -/
theorem mirrors_slice_front {piece behind whole : List Char} (here : Matches text place cursor)
    (front : whole = piece ++ behind) :
    Mirrors text place cursor (Probe.slice whole 0 (width piece)) (.ok (piece, cursor)) := by
  refine mirrors_slice here ?_
  simpa [front] using Text.slice?_append [] piece behind

/-! ### Moving on -/

theorem mirrors_moveTo {next : Cursor} (here : Matches text place middle)
    (whole : next.text = text) (le : cursor.position ≤ next.position) :
    Mirrors text place cursor (Probe.moveTo next.position) (.ok ((), next)) := by
  refine ⟨le, ⟨next.position, place.visited⟩, rfl, whole, rfl, ?_⟩
  exact List.forall_mem_cons.mpr ⟨whole ▸ next.boundary_position, here.visited⟩

theorem mirrors_pass {piece behind : List Char} (here : Matches text place cursor)
    (front : cursor.rest = piece ++ behind) :
    Mirrors text place cursor (Probe.pass piece) (.ok ((), cursor.forward piece.length)) := by
  induction piece generalizing place cursor with
  | nil => exact mirrors_pure here ()
  | cons c piece ih =>
    have next : cursor.step.position = cursor.position + c.utf8Size := by
      simp [Cursor.step, Cursor.position_forward, front]
    have first : Mirrors text place cursor
        (Probe.position >>= fun position => Probe.moveTo (position + c.utf8Size))
        (.ok ((), cursor.step)) := by
      refine (mirrors_position here).step fun after here => ?_
      rw [← next]
      refine mirrors_moveTo here ?_ (cursor.position_le_forward 1)
      rw [Cursor.step, Cursor.text_forward, here.whole]
    have again : cursor.step.forward piece.length = cursor.forward (c :: piece).length := by
      obtain ⟨passed, rest⟩ := cursor
      obtain rfl : rest = c :: (piece ++ behind) := front
      rfl
    rw [← again]
    refine first.step fun after here => ih here ?_
    rw [Cursor.step, Cursor.rest_forward, front]
    rfl

/-- A position that is sought stands for the boundary at it or in front of it. -/
theorem mirrors_seek {target : Nat} {next : Cursor} (here : Matches text place middle)
    (whole : next.text = text) (reached : width (within target text) = next.position)
    (le : cursor.position ≤ next.position) :
    Mirrors text place cursor (Probe.seek text target) (.ok ((), next)) := by
  rw [Probe.seek, Text.floorBoundary_min, reached]
  exact mirrors_moveTo here whole le

theorem mirrors_advance {piece behind : List Char} (here : Matches text place cursor)
    (front : cursor.rest = piece ++ behind) :
    Mirrors text place cursor (Probe.advance text (width piece))
      (.ok ((), cursor.forward piece.length)) := by
  have whole : (cursor.forward piece.length).text = text := by
    rw [Cursor.text_forward, here.whole]
  have reached : width (within (cursor.position + width piece) text) =
      (cursor.forward piece.length).position := by
    rw [Cursor.position_forward, front, List.take_left, ← here.whole, cursor.text_eq, front,
      ← cursor.width_reverse_passed, ← Text.width_append, ← List.append_assoc, Text.within_width]
  exact (mirrors_position here).step fun _ here =>
    mirrors_seek here whole reached (cursor.position_le_forward _)

theorem mirrors_skipBlank (here : Matches text place cursor) :
    Mirrors text place cursor (Probe.skipBlank text) (.ok ((), cursor.skipBlank)) := by
  refine (mirrors_rest here).step fun after here => ?_
  exact mirrors_pass here List.takeWhile_append_dropWhile.symm

theorem mirrors_eat (here : Matches text place cursor) (c : Char) :
    Mirrors text place cursor (Probe.eat text c)
      (.ok ((cursor.eat c).isSome, (cursor.eat c).getD cursor)) := by
  refine (mirrors_position here).step_back fun after here => ?_
  refine (mirrors_skipBlank here).step_back fun after blank => ?_
  have seen := (mirrors_peek blank).from_before cursor.position_le_skipBlank
  refine seen.step_back fun after blank => ?_
  rw [Cursor.eat]
  by_cases next : cursor.skipBlank.peek = some c
  · obtain ⟨behind, front⟩ := List.head?_eq_some_iff.mp next
    have taken : Mirrors text after cursor.skipBlank (Probe.pass [c])
        (.ok ((), cursor.skipBlank.step)) := mirrors_pass blank front
    rw [if_pos next, if_pos next]
    exact (taken.from_before cursor.position_le_skipBlank).step
      fun after here => mirrors_pure here true
  · rw [if_neg next, if_neg next]
    exact (mirrors_moveTo blank here.whole (Nat.le_refl _)).step
      fun after here => mirrors_pure here false

/-! ### Faults -/

theorem mirrors_failAt {start : Cursor} (here : Matches text place middle)
    (whole : start.text = text) (fault : SpecFault) (completed : List Spec) :
    Mirrors text place cursor (Probe.failAt text start.position fault : Probe α)
      (Spec.reject completed (start.fault fault)) := by
  rw [← whole]
  refine ⟨Error.placedIn_located _ _ _, place, ?_, whole ▸ here.visited⟩
  rw [Probe.failAt, Error.locate?_eq]
  rfl

theorem mirrors_fail (here : Matches text place cursor) (fault : SpecFault)
    (completed : List Spec) :
    Mirrors text place cursor (Probe.fail text fault : Probe α)
      (Spec.reject completed (cursor.fault fault)) :=
  (mirrors_position here).step fun _ here => mirrors_failAt here here.whole fault completed

end Rules

/-! ## Scans -/

section Scans

open Spec (Reader)

variable {α β : Type} {text : List Char} {place : Place} {cursor : Cursor} {probe : Probe α}

theorem ofScan_bind (scan : Scan α) (next : α → Scan β) (cursor : Cursor) :
    Reader.ofScan (scan >>= next) cursor =
      Reader.ofScan scan cursor >>= fun result => Reader.ofScan (next result.1) result.2 := by
  unfold Reader.ofScan
  simp only [Bind.bind, EStateM.bind]
  cases scan cursor <;> rfl

theorem ofScan_get_bind (next : Cursor → Scan α) (cursor : Cursor) :
    Reader.ofScan (get >>= next) cursor = Reader.ofScan (next cursor) cursor := rfl

/-- Two probes in turn mirror two scans in turn. -/
theorem Mirrors.scan {scan : Scan α} {next : α → Probe β} {further : α → Scan β}
    (first : Mirrors text place cursor probe (Reader.ofScan scan cursor))
    (second : ∀ found middle after, Matches text after middle →
      Mirrors text after middle (next found) (Reader.ofScan (further found) middle)) :
    Mirrors text place cursor (probe >>= next) (Reader.ofScan (scan >>= further) cursor) := by
  rw [ofScan_bind]
  exact first.bind fun found middle _ after here => second found middle after here

theorem Mirrors.map {scan : Scan α} (view : α → β)
    (mirrors : Mirrors text place cursor probe (Reader.ofScan scan cursor)) :
    Mirrors text place cursor (view <$> probe) (Reader.ofScan (view <$> scan) cursor) := by
  rw [map_eq_pure_bind, map_eq_pure_bind]
  exact mirrors.scan fun found _ _ here => mirrors_pure here (view found)

theorem mirrors_scan_ite {condition : Prop} [Decidable condition] {other : Probe α}
    {scan otherwise : Scan α}
    (ifTrue : condition → Mirrors text place cursor probe (Reader.ofScan scan cursor))
    (ifFalse : ¬condition → Mirrors text place cursor other (Reader.ofScan otherwise cursor)) :
    Mirrors text place cursor (if condition then probe else other)
      (Reader.ofScan (if condition then scan else otherwise) cursor) := by
  split
  · exact ifTrue ‹_›
  · exact ifFalse ‹_›

theorem mirrors_scan_eat (here : Matches text place cursor) (c : Char) :
    Mirrors text place cursor (Probe.eat text c) (Reader.ofScan (Scan.eat c) cursor) := by
  have same : Reader.ofScan (Scan.eat c) cursor =
      .ok ((cursor.eat c).isSome, (cursor.eat c).getD cursor) := by
    unfold Reader.ofScan
    cases eaten : cursor.eat c with
    | none => rw [Scan.eat_of_none eaten]; rfl
    | some next => rw [Scan.eat_of_some eaten]; rfl
  rw [same]
  exact mirrors_eat here c

end Scans

/-! ## Probes for literals -/

namespace Probe

open Literal (Words)

variable (text : List Char)

/-- A strict value is taken by the number of its bytes. -/
def takeStrict : Probe (Option Literal) := do
  let here ← rest text
  match Literal.strict? here with
  | none => return none
  | some (found, behind) =>
      let cut := width here - width behind
      let _ ← slice here 0 cut
      advance text cut
      return some (.ofJson found)

def takeHex : Probe Literal := do
  let start ← position
  let here ← rest text
  let behind ← slice here 2 (width here)
  let digits := behind.takeWhile Text.isHexDigit
  match Literal.ofHex? digits with
  | some found =>
      advance text (2 + width digits)
      return found
  | none => failAt text start .unevenHex

def takeQuoted : Probe String := do
  let start ← position
  let here ← rest text
  match Literal.quotedBody here with
  | some (body, behind) =>
      pass (here.take (here.length - behind.length))
      return String.ofList body
  | none =>
      pass here
      failAt text start (if here.isEmpty then .missingQuoted else .unterminatedString)

def takeBare (stops marker : List Char) : Probe (List Char) := do
  let here ← rest text
  let run ← slice here 0 (width (here.takeWhile fun c => !stops.contains c))
  let kept ← slice here 0
    (width (if marker.isEmpty then run else Literal.beforeMarker marker run))
  let word := Text.trimEnd kept
  advance text (width word)
  return word

def takeItems (element : Probe Literal) : Nat → Probe (List Literal)
  | 0 => return []
  | fuel + 1 => do
      if ← eat text ']' then return []
      let first ← element
      if ← eat text ',' then
        let others ← takeItems element fuel
        return first :: others
      if ← eat text ']' then return [first]
      fail text .listDelimiter

def takeKey (marker : List Char) : Probe String := do
  skipBlank text
  let start ← position
  let next ← peek text
  let key ←
    if next = some '"' ∨ next = some '\'' then takeQuoted text
    else String.ofList <$> takeBare text Literal.keyStops marker
  if key.isEmpty then failAt text start .missingKey
  return key

def takeFields (marker : List Char) (element : Probe Literal) :
    Nat → List (String × Literal) → Probe (List (String × Literal))
  | 0, before => return before
  | fuel + 1, before => do
      if ← eat text '\x7d' then return before
      let key ← takeKey text marker
      unless ← eat text ':' do fail text .keyDelimiter
      let value ← element
      let sofar := OrderedMap.put key value before
      if ← eat text ',' then takeFields marker element fuel sofar
      else if ← eat text '\x7d' then return sofar
      else fail text .recordDelimiter

def lenient (words : Words) : Nat → Probe Literal
  | 0 => fail text .missingLiteral
  | depth + 1 => do
      skipBlank text
      let start ← position
      let here ← rest text
      if here.head? = some '"' ∨ here.head? = some '\'' then .string <$> takeQuoted text
      else if here.head? = some '[' then
        pass ['[']
        .list <$> takeItems text (lenient words depth) (here.length + 1)
      else if here.head? = some '\x7b' then
        pass ['\x7b']
        .record <$> takeFields text words.marker (lenient words depth) (here.length + 1) []
      else
        let word ← takeBare text Literal.valueStops words.marker
        if word.isEmpty then failAt text start .missingLiteral
        return Literal.ofWord words.aliases word

def takeLenient (words : Words) : Probe Literal := do
  lenient text words ((← rest text).length + 1)

def constant? (words : Words) : Probe (Option Literal) := do
  match ← rest text with
  | '0' :: 'x' :: _ => some <$> takeHex text
  | '0' :: 'X' :: _ => some <$> takeHex text
  | first :: _ =>
      if first.isDigit || first = '-' then
        match ← takeStrict text with
        | some found => return some found
        | none => fail text .malformedNumber
      else if first = '"' || first = '\'' || first = '\x7b' || first = '[' then
        match ← takeStrict text with
        | some found => return some found
        | none => some <$> takeLenient text words
      else return none
  | [] => return none

def value (words : Words) : Probe Literal := do
  match ← constant? text words with
  | some found => return found
  | none => takeLenient text words

end Probe

/-! ## Literals -/

section Literals

open Spec (Reader)
open Literal (Words)

variable {text : List Char} {place : Place} {cursor : Cursor}

theorem mirrors_takeStrict :
    MirrorsReader text (Probe.takeStrict text) (Reader.ofScan Literal.takeStrict) := by
  intro place cursor here
  rw [Reader.ofScan, Literal.takeStrict_eq]
  refine (mirrors_rest here).step fun after here => ?_
  dsimp only
  cases read : Literal.strict? cursor.rest with
  | none => exact mirrors_pure here none
  | some result =>
    obtain ⟨found, behind⟩ := result
    obtain ⟨front, whole⟩ := Literal.suffix_of_strict? read
    have cut : width cursor.rest - width behind = width front := by
      rw [← whole, Text.width_append, Nat.add_sub_cancel]
    have taken : cursor.rest.length - behind.length = front.length := by
      rw [← whole, List.length_append, Nat.add_sub_cancel]
    dsimp only
    rw [cut, taken]
    refine (mirrors_slice_front here whole.symm).step fun after here => ?_
    exact (mirrors_advance here whole.symm).step fun after here => mirrors_pure here _

theorem mirrors_takeHex {c : Char} {rest : List Char} (here : Matches text place cursor)
    (front : cursor.rest = '0' :: c :: rest) (mark : c = 'x' ∨ c = 'X') :
    Mirrors text place cursor (Probe.takeHex text) (Reader.ofScan Literal.takeHex cursor) := by
  have digits :
      (cursor.rest.drop 2).takeWhile Text.isHexDigit = rest.takeWhile Text.isHexDigit := by
    rw [front]
    rfl
  have two : width ['0', c] = 2 := by rcases mark with rfl | rfl <;> decide
  have behind : Text.slice? cursor.rest 2 (width cursor.rest) = some rest := by
    have all := Text.slice?_append ['0', c] rest []
    rw [two, List.append_nil] at all
    rw [front, ← all, ← two, ← Text.width_append]
    rfl
  rw [Reader.ofScan, Literal.takeHex_eq, digits]
  refine (mirrors_position here).step fun after here => ?_
  refine (mirrors_rest here).step fun after here => ?_
  refine (mirrors_slice here behind).step fun after here => ?_
  dsimp only
  cases Literal.ofHex? (rest.takeWhile Text.isHexDigit) with
  | none => exact mirrors_failAt here here.whole _ []
  | some found =>
    have run : cursor.rest = ['0', c] ++ rest.takeWhile Text.isHexDigit ++
        rest.dropWhile Text.isHexDigit := by
      rw [List.append_assoc, List.takeWhile_append_dropWhile, front]
      rfl
    have taken := mirrors_advance here run
    rw [Text.width_append, two, List.length_append] at taken
    exact taken.step fun after here => mirrors_pure here found

theorem mirrors_takeQuoted :
    MirrorsReader text (Probe.takeQuoted text) (Reader.ofScan Literal.takeQuoted) := by
  intro place cursor here
  rw [Reader.ofScan, Literal.takeQuoted_eq]
  refine (mirrors_position here).step fun after here => ?_
  refine (mirrors_rest here).step fun after here => ?_
  cases read : Literal.quotedBody cursor.rest with
  | none =>
    have passed := mirrors_pass here (List.append_nil cursor.rest).symm
    refine passed.step fun after behind => ?_
    exact mirrors_failAt behind here.whole _ []
  | some result =>
    obtain ⟨body, behind⟩ := result
    have passed := mirrors_pass here
      (List.take_append_drop (cursor.rest.length - behind.length) cursor.rest).symm
    rw [List.length_take, Nat.min_eq_left (Nat.sub_le _ _)] at passed
    exact passed.step fun after here => mirrors_pure here (String.ofList body)

theorem mirrors_takeBare (stops marker : List Char) :
    MirrorsReader text (Probe.takeBare text stops marker)
      (Reader.ofScan (Literal.takeBare stops marker)) := by
  intro place cursor here
  have run : cursor.rest = (cursor.rest.takeWhile fun c => !stops.contains c) ++
      cursor.rest.dropWhile fun c => !stops.contains c := List.takeWhile_append_dropWhile.symm
  obtain ⟨comment, kept⟩ : (if marker.isEmpty then cursor.rest.takeWhile fun c => !stops.contains c
      else Literal.beforeMarker marker (cursor.rest.takeWhile fun c => !stops.contains c)) <+:
        cursor.rest := by
    split
    · exact List.takeWhile_prefix _
    · exact (Literal.prefix_beforeMarker marker _).trans (List.takeWhile_prefix _)
  obtain ⟨behind, word⟩ := Literal.prefix_bareWord stops marker cursor.rest
  rw [Reader.ofScan, Literal.takeBare_eq]
  refine (mirrors_rest here).step fun _ here => ?_
  refine (mirrors_slice_front here run).step fun _ here => ?_
  refine (mirrors_slice_front here kept.symm).step fun _ here => ?_
  exact (mirrors_advance here word.symm).step fun _ here => mirrors_pure here _

/-! ### Lists and records -/

variable {element : Probe Literal} {scan : Scan Literal}

theorem MirrorsReader.takeItems (each : MirrorsReader text element (Reader.ofScan scan))
    (fuel : Nat) :
    MirrorsReader text (Probe.takeItems text element fuel)
      (Reader.ofScan (Literal.takeItems scan fuel)) := by
  induction fuel with
  | zero => exact fun _ _ here => mirrors_pure here []
  | succ fuel ih =>
    intro place cursor here
    refine (mirrors_scan_eat here ']').scan fun closed cursor place here => ?_
    refine mirrors_scan_ite (fun _ => mirrors_pure here []) fun _ => ?_
    refine (each here).scan fun first cursor place here => ?_
    refine (mirrors_scan_eat here ',').scan fun comma cursor place here => ?_
    refine mirrors_scan_ite (fun _ => ?_) fun _ => ?_
    · exact (ih here).scan fun others cursor place here => mirrors_pure here (first :: others)
    refine (mirrors_scan_eat here ']').scan fun last cursor place here => ?_
    exact mirrors_scan_ite (fun _ => mirrors_pure here [first]) fun _ => mirrors_fail here _ []

theorem mirrors_takeKey (marker : List Char) :
    MirrorsReader text (Probe.takeKey text marker) (Reader.ofScan (Literal.takeKey marker)) := by
  intro place cursor here
  have checked {place : Place} {start : Cursor} {taken : Probe String} {scan : Scan String}
      (here : Matches text place start)
      (mirrors : Mirrors text place start taken (Reader.ofScan scan start)) :
      Mirrors text place start
        (do
          let key ← taken
          if key.isEmpty then Probe.failAt text start.position .missingKey
          return key)
        (Reader.ofScan
          (do
            let key ← scan
            if key.isEmpty then Scan.failAt start .missingKey
            return key) start) := by
    refine mirrors.scan fun key cursor place middle => ?_
    refine mirrors_scan_ite (fun _ => ?_) fun _ => mirrors_pure middle key
    exact Mirrors.scan (mirrors_failAt middle here.whole _ []) fun _ _ _ here =>
      mirrors_pure here key
  refine Mirrors.scan (mirrors_skipBlank here) fun _ cursor place here => ?_
  rw [ofScan_get_bind]
  refine (mirrors_position here).step fun place here => ?_
  refine (mirrors_peek here).step fun place here => ?_
  dsimp only
  by_cases quoted : cursor.peek = some '"' ∨ cursor.peek = some '\''
  · rw [if_pos quoted]
    rcases quoted with front | front
    · rw [front]
      exact checked here (mirrors_takeQuoted here)
    · rw [front]
      exact checked here (mirrors_takeQuoted here)
  · rw [if_neg quoted]
    split
    · exact absurd (.inl ‹_›) quoted
    · exact absurd (.inr ‹_›) quoted
    · exact checked here ((mirrors_takeBare _ _ here).map _)

theorem MirrorsReader.takeFields (each : MirrorsReader text element (Reader.ofScan scan))
    (marker : List Char) (fuel : Nat) (before : List (String × Literal)) :
    MirrorsReader text (Probe.takeFields text marker element fuel before)
      (Reader.ofScan (Literal.takeFields marker scan fuel before)) := by
  induction fuel generalizing before with
  | zero => exact fun _ _ here => mirrors_pure here before
  | succ fuel ih =>
    intro place cursor here
    refine (mirrors_scan_eat here '\x7d').scan fun closed cursor place here => ?_
    refine mirrors_scan_ite (fun _ => mirrors_pure here before) fun _ => ?_
    refine (mirrors_takeKey marker here).scan fun key cursor place here => ?_
    refine (mirrors_scan_eat here ':').scan fun colon cursor place here => ?_
    have rest {place : Place} {cursor : Cursor} (here : Matches text place cursor) :
        Mirrors text place cursor
          (do
            let value ← element
            let sofar := OrderedMap.put key value before
            if ← Probe.eat text ',' then Probe.takeFields text marker element fuel sofar
            else if ← Probe.eat text '\x7d' then return sofar
            else Probe.fail text .recordDelimiter)
          (Reader.ofScan
            (do
              let value ← scan
              let sofar := OrderedMap.put key value before
              if ← Scan.eat ',' then Literal.takeFields marker scan fuel sofar
              else if ← Scan.eat '\x7d' then return sofar
              else Scan.fail .recordDelimiter) cursor) := by
      refine (each here).scan fun value cursor place here => ?_
      refine (mirrors_scan_eat here ',').scan fun comma cursor place here => ?_
      refine mirrors_scan_ite (fun _ => ih _ here) fun _ => ?_
      refine (mirrors_scan_eat here '\x7d').scan fun last cursor place here => ?_
      exact mirrors_scan_ite (fun _ => mirrors_pure here _) fun _ => mirrors_fail here _ []
    refine mirrors_scan_ite (fun _ => rest here) fun _ => ?_
    exact Mirrors.scan (mirrors_fail here _ []) fun _ _ _ here => rest here

/-! ### Values -/

theorem mirrors_lenient (words : Words) (depth : Nat) :
    MirrorsReader text (Probe.lenient text words depth)
      (Reader.ofScan (Literal.lenient words depth)) := by
  induction depth with
  | zero => exact fun _ _ here => mirrors_fail here _ []
  | succ depth ih =>
    intro place cursor here
    refine Mirrors.scan (mirrors_skipBlank here) fun _ cursor place here => ?_
    rw [ofScan_get_bind]
    refine (mirrors_position here).step fun place here => ?_
    refine (mirrors_rest here).step fun place here => ?_
    have step {c : Char} (front : cursor.rest.head? = some c) :
        Mirrors text place cursor (Probe.pass [c]) (Reader.ofScan (Scan.forward 1) cursor) := by
      obtain ⟨behind, front⟩ := List.head?_eq_some_iff.mp front
      exact mirrors_pass here front
    rw [Cursor.peek]
    dsimp only
    by_cases quoted : cursor.rest.head? = some '"' ∨ cursor.rest.head? = some '\''
    · rw [if_pos quoted]
      rcases quoted with front | front
      · rw [front]
        exact (mirrors_takeQuoted here).map _
      · rw [front]
        exact (mirrors_takeQuoted here).map _
    rw [if_neg quoted]
    by_cases bracket : cursor.rest.head? = some '['
    · rw [if_pos bracket, bracket]
      exact (step bracket).scan fun _ _ _ here => (ih.takeItems _ here).map _
    rw [if_neg bracket]
    by_cases brace : cursor.rest.head? = some '\x7b'
    · rw [if_pos brace, brace]
      exact (step brace).scan fun _ _ _ here => (ih.takeFields _ _ [] here).map _
    rw [if_neg brace]
    split
    · exact absurd (.inl ‹_›) quoted
    · exact absurd (.inr ‹_›) quoted
    · exact absurd ‹_› bracket
    · exact absurd ‹_› brace
    · refine (mirrors_takeBare _ _ here).scan fun word _ _ middle => ?_
      refine mirrors_scan_ite (fun _ => ?_) fun _ => mirrors_pure middle _
      exact Mirrors.scan (mirrors_failAt middle here.whole _ []) fun _ _ _ here =>
        mirrors_pure here _

theorem mirrors_takeLenient (words : Words) :
    MirrorsReader text (Probe.takeLenient text words)
      (Reader.ofScan (Literal.takeLenient words)) :=
  fun _ _ here => (mirrors_rest here).step fun _ here => mirrors_lenient words _ here

/-- A strict value, or what is tried where there is none. -/
theorem mirrors_strictly_or {otherwise : Probe (Option Literal)} {scan : Scan (Option Literal)}
    (other : MirrorsReader text otherwise (Reader.ofScan scan)) :
    MirrorsReader text
      (do
        match ← Probe.takeStrict text with
        | some found => return some found
        | none => otherwise)
      (Reader.ofScan do
        match ← Literal.takeStrict with
        | some found => return some found
        | none => scan) := by
  intro place cursor here
  refine (mirrors_takeStrict here).scan fun found? cursor place here => ?_
  cases found? with
  | none => exact other here
  | some found => exact mirrors_pure here (some found)

theorem ofScan_congr {α : Type} {scan other : Scan α} (same : scan cursor = other cursor) :
    Reader.ofScan scan cursor = Reader.ofScan other cursor := by
  unfold Reader.ofScan
  rw [same]

theorem mirrors_constant? (words : Words) :
    MirrorsReader text (Probe.constant? text words)
      (Reader.ofScan (Literal.constant? words)) := by
  intro place cursor here
  refine (mirrors_rest here).step fun place here => ?_
  split
  · rename_i front
    rw [ofScan_congr (Literal.constant?_hex front (.inl rfl))]
    exact (mirrors_takeHex here front (.inl rfl)).map some
  · rename_i front
    rw [ofScan_congr (Literal.constant?_hex front (.inr rfl))]
    exact (mirrors_takeHex here front (.inr rfl)).map some
  · rename_i first rest lower upper front
    have decimal : first = '0' → ∀ d ∈ rest.head?, d ≠ 'x' ∧ d ≠ 'X' := by
      intro zero d second
      obtain ⟨more, behind⟩ := List.head?_eq_some_iff.mp second
      exact ⟨fun mark => lower more zero (mark ▸ behind),
        fun mark => upper more zero (mark ▸ behind)⟩
    split
    · rename_i number
      rw [ofScan_congr (Literal.constant?_number front (by simpa using number) decimal)]
      exact mirrors_strictly_or (fun _ _ here => mirrors_fail here _ []) here
    rename_i number
    have marks : first ∈ ['"', '\'', '[', '\x7b'] ↔
        (first = '"' || first = '\'' || first = '\x7b' || first = '[') = true := by
      simp only [List.mem_cons, List.not_mem_nil, Bool.or_eq_true, decide_eq_true_eq]
      grind
    split
    · rename_i opening
      rw [ofScan_congr (Literal.constant?_opening front (marks.mpr opening))]
      exact mirrors_strictly_or (fun _ _ here => (mirrors_takeLenient words here).map some) here
    · rename_i opening
      rw [ofScan_congr (Literal.constant?_other fun c head => ?_)]
      · exact mirrors_pure here none
      obtain rfl : first = c := by simpa [front] using head
      rw [Bool.or_eq_true, decide_eq_true_eq, not_or, Bool.not_eq_true] at number
      exact ⟨number.1, List.not_mem_cons_of_ne_of_not_mem number.2 (mt marks.mp opening)⟩
  · rename_i front
    rw [ofScan_congr (Literal.constant?_other (by simp [front]))]
    exact mirrors_pure here none

theorem mirrors_value (words : Words) :
    MirrorsReader text (Probe.value text words) (Reader.ofScan (Literal.value words)) := by
  intro place cursor here
  refine (mirrors_constant? words here).scan fun found? _ _ here => ?_
  cases found? with
  | none => exact mirrors_takeLenient words here
  | some found => exact mirrors_pure here found

end Literals

end DocShapes

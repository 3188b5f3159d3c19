import DocShapes.Proofs.Prolonging
import DocShapes.Proofs.Scalars

/-! # Strict readings of text that a lenient reader takes

A lenient reader walks through a text as a strict one does. Where both take the text, the strict
reader stops at the same place, also in front of more text (`follows`); and a lenient reader takes
every strict text without rare escapes and empty keys, as the same literal.
-/

namespace DocShapes

open Json (skipSpace stringBody)

/-! ## Parts of strict containers -/

namespace Json

variable {item : List Char → Option (Json × List Char)} {fuel : Nat} {text rest : List Char}

/-- Behind an element there is a comma and more, or the bracket that closes the list. -/
theorem elements_succ_iff {items : List Json} :
    elements item (fuel + 1) text = some (items, rest) ↔
      ∃ first behind, item text = some (first, behind) ∧
        ((∃ more others, skipSpace behind = ',' :: more ∧
            elements item fuel more = some (others, rest) ∧ items = first :: others) ∨
          skipSpace behind = ']' :: rest ∧ items = [first]) := by
  constructor
  · intro read
    rw [elements] at read
    split at read
    · cases read
    rename_i first behind here
    refine ⟨first, behind, here, ?_⟩
    split at read
    · rename_i more comma
      obtain ⟨⟨others, last⟩, parts, same⟩ := Option.map_eq_some_iff.mp read
      cases same
      exact .inl ⟨more, others, comma, parts, rfl⟩
    · rename_i closed
      cases read
      exact .inr ⟨closed, rfl⟩
    · cases read
  · rintro ⟨first, behind, here, ⟨more, others, comma, parts, rfl⟩ | ⟨closed, rfl⟩⟩
    · simp only [elements, here, comma, parts, Option.map_some]
    · simp only [elements, here, closed]

/-- A key stands between quotes, and a colon behind it. -/
theorem memberKey_eq_some_iff {key : String} :
    memberKey text = some (key, rest) ↔
      ∃ quoted body closed, skipSpace text = '"' :: quoted ∧
        stringBody quoted = some (body, closed) ∧ skipSpace closed = ':' :: rest ∧
          key = String.ofList body := by
  constructor
  · intro read
    rw [memberKey] at read
    split at read
    case h_2 => cases read
    rename_i quoted front
    split at read
    · cases read
    rename_i body closed string
    split at read
    case h_2 => cases read
    rename_i colon
    cases read
    exact ⟨quoted, body, closed, front, string, colon, rfl⟩
  · rintro ⟨quoted, body, closed, front, string, colon, rfl⟩
    simp only [memberKey, front, string, colon]

/-- Behind a member there is a comma and more, or the brace that closes the record. -/
theorem entries_succ_iff {before members : List (String × Json)} :
    entries item (fuel + 1) before text = some (members, rest) ↔
      ∃ key opened value behind, memberKey text = some (key, opened) ∧
        item opened = some (value, behind) ∧
        ((∃ more, skipSpace behind = ',' :: more ∧
            entries item fuel (OrderedMap.put key value before) more = some (members, rest)) ∨
          skipSpace behind = '\x7d' :: rest ∧ members = OrderedMap.put key value before) := by
  constructor
  · intro read
    rw [entries] at read
    split at read
    · cases read
    rename_i key opened named
    split at read
    · cases read
    rename_i value behind here
    refine ⟨key, opened, value, behind, named, here, ?_⟩
    dsimp only at read
    split at read
    · rename_i more comma
      exact .inl ⟨more, comma, read⟩
    · rename_i closed
      cases read
      exact .inr ⟨closed, rfl⟩
    · cases read
  · rintro ⟨key, opened, value, behind, named, here, ⟨more, comma, parts⟩ | ⟨closed, rfl⟩⟩
    · simp only [entries, named, here, comma, parts]
    · simp only [entries, named, here, closed]

end Json

/-! ## Strings -/

namespace Json

/-- A strict reader takes the body of a string whatever stands behind it. -/
theorem exists_stringBody {text body rest : List Char}
    (read : stringBody text = some (body, rest)) :
    ∃ used, text = used ++ rest ∧ ∀ more, stringBody (used ++ more) = some (body, more) := by
  fun_induction stringBody text generalizing body rest with
  | case1 => cases read
  | case2 rest =>
    cases read
    exact ⟨['"'], rfl, fun _ => rfl⟩
  | case3 => cases read
  | case4 => cases read
  | case5 a b c d high first upper e f g h rest found second ih =>
    obtain ⟨⟨inner, behind⟩, more, same⟩ := Option.map_eq_some_iff.mp read
    cases same
    obtain ⟨used, rfl, takes⟩ := ih more
    refine ⟨'\\' :: 'u' :: a :: b :: c :: d :: '\\' :: 'u' :: e :: f :: g :: h :: used, rfl, ?_⟩
    intro more
    simp [stringBody, first, upper, second, takes more]
  | case6 => cases read
  | case7 => cases read
  | case8 a b c d rest high first upper lower ih =>
    obtain ⟨⟨inner, behind⟩, more, same⟩ := Option.map_eq_some_iff.mp read
    cases same
    obtain ⟨used, rfl, takes⟩ := ih more
    refine ⟨'\\' :: 'u' :: a :: b :: c :: d :: used, rfl, ?_⟩
    intro more
    simp [stringBody, first, upper, lower, takes more]
  | case9 => cases read
  | case10 c rest long found escape ih =>
    obtain ⟨⟨inner, behind⟩, more, same⟩ := Option.map_eq_some_iff.mp read
    cases same
    obtain ⟨used, rfl, takes⟩ := ih more
    have other : c ≠ 'u' := by
      rintro rfl
      cases escape
    refine ⟨'\\' :: c :: used, rfl, ?_⟩
    intro more
    simp [stringBody, other, escape, takes more]
  | case11 => cases read
  | case12 c rest _ long short plain ih =>
    obtain ⟨⟨inner, behind⟩, more, same⟩ := Option.map_eq_some_iff.mp read
    cases same
    obtain ⟨used, rfl, takes⟩ := ih more
    obtain ⟨slash, visible⟩ : c ≠ '\\' ∧ ¬c.toNat < 32 := by simpa using plain
    refine ⟨c :: used, rfl, ?_⟩
    intro more
    simp [stringBody, slash, visible, takes more]

/-- The quotes of an empty key, behind the first one. -/
def emptyKey : List Char → Bool
  | '"' :: rest => (skipSpace rest).head? = some ':'
  | _ => false

/-- The text has no escape that only strict readers know, and no empty key. -/
def common : List Char → Bool
  | [] => true
  | '\\' :: c :: rest => c ∉ ['b', 'f', 'u'] && common rest
  | '"' :: rest => !emptyKey rest && common rest
  | _ :: rest => common rest

theorem common_of_cons {c : Char} {rest : List Char} (plain : c ≠ '\\')
    (tame : common (c :: rest) = true) : common rest = true := by
  by_cases quote : c = '"'
  · subst quote
    rw [common, Bool.and_eq_true] at tame
    exact tame.2
  · rwa [common] at tame
    · exact fun _ _ same _ => absurd same plain
    · exact quote

theorem common_of_append {run rest : List Char} (plain : ∀ c ∈ run, c ≠ '\\')
    (tame : common (run ++ rest) = true) : common rest = true := by
  induction run with
  | nil => exact tame
  | cons c run ih =>
    obtain ⟨here, others⟩ := List.forall_mem_cons.mp plain
    exact ih others (common_of_cons here tame)

end Json

namespace Literal

open Json (common emptyKey)

theorem doubleQuoted_plain {c : Char} {rest : List Char} (quote : c ≠ '"') (slash : c ≠ '\\') :
    doubleQuoted (c :: rest) = (doubleQuoted rest).map fun (body, rest) => (c :: body, rest) := by
  rw [doubleQuoted]
  · rw [if_neg slash]
  · exact quote
  · exact fun _ _ same _ => absurd same slash

/-- A hexadecimal digit stands for itself in a string. -/
theorem plain_of_hexValue? {c : Char} {n : Nat} (digit : Text.hexValue? c = some n) :
    c ≠ '"' ∧ c ≠ '\\' := by
  constructor
  · rintro rfl
    cases digit
  · rintro rfl
    cases digit

theorem doubleQuoted_unit {a b c d : Char} {n : Nat} (unit : Json.unit? a b c d = some n) :
    ∃ front, ∀ rest, doubleQuoted ('\\' :: 'u' :: a :: b :: c :: d :: rest) =
      (doubleQuoted rest).map fun (body, rest) => (front ++ body, rest) := by
  simp only [Json.unit?, Option.bind_eq_bind, Option.bind_eq_some_iff] at unit
  obtain ⟨_, first, _, second, _, third, _, fourth, _⟩ := unit
  obtain ⟨quote₁, slash₁⟩ := plain_of_hexValue? first
  obtain ⟨quote₂, slash₂⟩ := plain_of_hexValue? second
  obtain ⟨quote₃, slash₃⟩ := plain_of_hexValue? third
  obtain ⟨quote₄, slash₄⟩ := plain_of_hexValue? fourth
  refine ⟨['u', a, b, c, d], fun rest => ?_⟩
  rw [doubleQuoted, doubleQuoted_plain quote₁ slash₁, doubleQuoted_plain quote₂ slash₂,
    doubleQuoted_plain quote₃ slash₃, doubleQuoted_plain quote₄ slash₄]
  cases doubleQuoted rest <;> rfl

/-- What the escapes stand for that both readers know. -/
theorem meant_of_plainEscape? {c found : Char} (escape : Json.plainEscape? c = some found)
    (known : c ∉ ['b', 'f', 'u']) :
    (if c = 'n' then '\n' else if c = 't' then '\t' else if c = 'r' then '\r' else c) = found := by
  obtain ⟨back, feed, _⟩ : c ≠ 'b' ∧ c ≠ 'f' ∧ c ≠ 'u' := by simpa using known
  simp only [Json.plainEscape?, back, feed, if_false] at escape
  split at escape
  · rename_i itself
    simp only [Bool.or_eq_true, decide_eq_true_eq] at itself
    cases escape
    rcases itself with (rfl | rfl) | rfl <;> rfl
  split at escape
  · rename_i line
    subst line
    exact Option.some.inj escape
  split at escape
  · rename_i back
    subst back
    exact Option.some.inj escape
  split at escape
  · rename_i tab
    subst tab
    exact Option.some.inj escape
  · cases escape

theorem eq_of_doubleQuoted_nil {text rest : List Char} (quoted : doubleQuoted text = some ([], rest)) :
    text = '"' :: rest := by
  unfold doubleQuoted at quoted
  split at quoted
  · cases quoted
  · cases quoted
    rfl
  · obtain ⟨_, _, same⟩ := Option.map_eq_some_iff.mp quoted
    cases same
  · split at quoted
    · cases quoted
    · obtain ⟨_, _, same⟩ := Option.map_eq_some_iff.mp quoted
      cases same

/-- A lenient reader ends a string where a strict one does, and finds the same in it if it has no
rare escapes. -/
theorem doubleQuoted_of_stringBody {text body rest : List Char}
    (read : Json.stringBody text = some (body, rest)) :
    ∃ other, doubleQuoted text = some (other, rest) ∧
      (common text = true → other = body ∧ common rest = true) := by
  fun_induction Json.stringBody text generalizing body rest with
  | case1 => cases read
  | case2 rest =>
    cases read
    exact ⟨[], rfl, fun tame => ⟨rfl, Json.common_of_cons (by decide) tame⟩⟩
  | case3 => cases read
  | case4 => cases read
  | case5 a b c d high first upper e f g h rest found second ih =>
    obtain ⟨⟨inner, behind⟩, more, same⟩ := Option.map_eq_some_iff.mp read
    cases same
    obtain ⟨other, quoted, _⟩ := ih more
    obtain ⟨low, last, _⟩ := Option.bind_eq_some_iff.mp second
    obtain ⟨front, unit⟩ := doubleQuoted_unit first
    obtain ⟨further, pair⟩ := doubleQuoted_unit last
    rw [unit, pair, quoted]
    exact ⟨_, rfl, fun rare => by simp [common] at rare⟩
  | case6 => cases read
  | case7 => cases read
  | case8 a b c d rest high first upper lower ih =>
    obtain ⟨⟨inner, behind⟩, more, same⟩ := Option.map_eq_some_iff.mp read
    cases same
    obtain ⟨other, quoted, _⟩ := ih more
    obtain ⟨front, unit⟩ := doubleQuoted_unit first
    rw [unit, quoted]
    exact ⟨_, rfl, fun rare => by simp [common] at rare⟩
  | case9 => cases read
  | case10 c rest long found escape ih =>
    obtain ⟨⟨inner, behind⟩, more, same⟩ := Option.map_eq_some_iff.mp read
    cases same
    obtain ⟨other, quoted, means⟩ := ih more
    rw [doubleQuoted, quoted]
    refine ⟨_, rfl, fun tame => ?_⟩
    rw [common, Bool.and_eq_true, decide_eq_true_eq] at tame
    obtain ⟨rfl, left⟩ := means tame.2
    exact ⟨by rw [meant_of_plainEscape? escape tame.1], left⟩
  | case11 => cases read
  | case12 c rest quote long short plain ih =>
    obtain ⟨⟨inner, behind⟩, more, same⟩ := Option.map_eq_some_iff.mp read
    cases same
    obtain ⟨other, quoted, means⟩ := ih more
    obtain ⟨slash, visible⟩ : c ≠ '\\' ∧ ¬c.toNat < 32 := by simpa using plain
    rw [doubleQuoted_plain quote slash, quoted]
    refine ⟨_, rfl, fun tame => ?_⟩
    obtain ⟨rfl, left⟩ := means (Json.common_of_cons slash tame)
    exact ⟨rfl, left⟩

/-! ## Steps of both readers -/

section

variable {α : Type} {tail rest text : List Char} {cursor middle next : Cursor} {limit : Nat} {c : Char}

theorem trimStart_of_skipSpace (here : skipSpace text = c :: rest)
    (visible : Text.isBlank c = false) : Text.trimStart text = c :: rest := by
  induction text with
  | nil => cases here
  | cons d text ih =>
    by_cases space : Json.isSpace d = true
    · rw [skipSpace, List.dropWhile_cons_of_pos space] at here
      rw [Text.trimStart_of_blank (isBlank_of_isSpace space)]
      exact ih here
    · rw [Json.skipSpace_of_visible (by simpa using space)] at here
      cases here
      exact Text.trimStart_of_visible visible

theorem trimStart_of_skipSpace_nil (here : skipSpace text = []) : Text.trimStart text = [] := by
  rw [skipSpace, List.dropWhile_eq_nil_iff] at here
  rw [Text.trimStart, List.dropWhile_eq_nil_iff]
  exact fun c member => isBlank_of_isSpace (here c member)

/-- A mark that a strict reader finds in front of the tail, or else only blanks stand there. -/
theorem mark_or_blank {more : List Char} (visible : Text.isBlank c = false)
    (here : skipSpace (text ++ tail) = c :: more) :
    (∃ rest, skipSpace text = c :: rest ∧ Text.trimStart text = c :: rest ∧ more = rest ++ tail) ∨
      Text.trimStart text = [] ∧ tail ≠ [] := by
  cases front : skipSpace text with
  | nil =>
    refine .inr ⟨trimStart_of_skipSpace_nil front, ?_⟩
    rintro rfl
    rw [List.append_nil, front] at here
    cases here
  | cons d rest =>
    rw [Json.skipSpace_append front] at here
    cases here
    exact .inl ⟨rest, rfl, trimStart_of_skipSpace front visible, rfl⟩

/-- A lenient scan has gone where the strict reader went in front of the tail. -/
structure Tracks (tail rest : List Char) (cursor next : Cursor) : Prop where
  rest : rest = next.rest ++ tail
  shorter : next.rest.length < cursor.rest.length
  common : common cursor.rest = true → common next.rest = true

/-- A lenient scan fails in front of a tail, and without one only for want of room or because the
text has rare escapes or empty keys. -/
def Stuck (tail : List Char) (limit : Nat) (cursor : Cursor) : Prop :=
  tail = [] → common cursor.rest = true → limit ≤ cursor.rest.length

theorem Tracks.trans {further : List Char} (first : Tracks tail further cursor middle)
    (second : Tracks tail rest middle next) : Tracks tail rest cursor next where
  rest := second.rest
  shorter := Nat.lt_trans second.shorter first.shorter
  common tame := second.common (first.common tame)

theorem Tracks.stuck (tracks : Tracks tail rest cursor middle) (stuck : Stuck tail limit middle) :
    Stuck tail limit cursor := fun none tame =>
  Nat.le_trans (stuck none (tracks.common tame)) (Nat.le_of_lt tracks.shorter)

theorem stuck_of_tail (some : tail ≠ []) : Stuck tail limit cursor := fun none => absurd none some

theorem common_trimStart (tame : common text = true) : common (Text.trimStart text) = true := by
  rw [← List.takeWhile_append_dropWhile (p := Text.isBlank) (l := text)] at tame
  apply Json.common_of_append _ tame
  intro d member
  have blank := List.mem_takeWhile_imp member
  rintro rfl
  cases blank

/-- A mark that has been passed. -/
theorem tracks_mark (plain : c ≠ '\\') (front : Text.trimStart cursor.rest = c :: next.rest) :
    Tracks tail (next.rest ++ tail) cursor next where
  rest := rfl
  shorter := by
    have shorter := Text.length_trimStart_le cursor.rest
    rwa [front] at shorter
  common tame := Json.common_of_cons plain (front ▸ common_trimStart tame)

theorem Tracks.of_skipBlank (tracks : Tracks tail rest cursor.skipBlank next) :
    Tracks tail rest cursor next where
  rest := tracks.rest
  shorter := by
    have shorter := tracks.shorter
    rw [Cursor.rest_skipBlank] at shorter
    exact Nat.lt_of_lt_of_le shorter (Text.length_trimStart_le _)
  common tame := tracks.common (by rw [Cursor.rest_skipBlank]; exact common_trimStart tame)

section

variable {again : Scan α} {last : α} {close : Char} {fault : SpecFault} {more : List Char}
  {done : α → Cursor → Prop} {failed : Cursor → Prop}

/-- Where only blanks are left there is neither a comma nor a closing mark. -/
theorem ends_delimited_blank (blank : Text.trimStart cursor.rest = []) (fails : failed cursor) :
    Ends (do
        if ← Scan.eat ',' then again
        else if ← Scan.eat close then return last
        else Scan.fail fault) cursor done failed := by
  rw [ends_bind]
  apply Scan.ends_eat_false (by simp [blank])
  rw [if_neg (by simp), ends_bind]
  apply Scan.ends_eat_false (by simp [blank])
  exact fails

/-- A strict reader finds a comma behind a part. -/
theorem ends_delimited_comma (here : skipSpace (cursor.rest ++ tail) = ',' :: more)
    (further : ∀ next, skipSpace cursor.rest = ',' :: next.rest → Tracks tail more cursor next →
      Ends again next done failed)
    (fails : tail ≠ [] → failed cursor) :
    Ends (do
        if ← Scan.eat ',' then again
        else if ← Scan.eat close then return last
        else Scan.fail fault) cursor done failed := by
  rcases mark_or_blank (by decide) here with ⟨rest, skip, trim, rfl⟩ | ⟨blank, some⟩
  · rw [ends_bind]
    apply Scan.ends_eat_true trim
    rintro next rfl
    rw [if_pos rfl]
    exact further next skip (tracks_mark (by decide) trim)
  · exact ends_delimited_blank blank (fails some)

/-- A strict reader finds the closing mark behind a part. -/
theorem ends_delimited_close (here : skipSpace (cursor.rest ++ tail) = close :: more)
    (mark : close ∈ [']', '\x7d'])
    (closed : ∀ next, skipSpace cursor.rest = close :: next.rest → Tracks tail more cursor next →
      done last next)
    (fails : tail ≠ [] → failed cursor) :
    Ends (do
        if ← Scan.eat ',' then again
        else if ← Scan.eat close then return last
        else Scan.fail fault) cursor done failed := by
  have plain : ∀ c ∈ [']', '\x7d'], Text.isBlank c = false ∧ c ≠ ',' ∧ c ≠ '\\' :=
    List.all_iff_forall_prop.mp (by decide)
  obtain ⟨visible, other, bare⟩ := plain close mark
  rcases mark_or_blank visible here with ⟨rest, skip, trim, rfl⟩ | ⟨blank, some⟩
  · rw [ends_bind]
    apply Scan.ends_eat_false (by simp [trim, other])
    rw [if_neg (by simp), ends_bind]
    apply Scan.ends_eat_true trim
    rintro next rfl
    exact closed next skip (tracks_mark bare trim)
  · exact ends_delimited_blank blank (fails some)

end

/-! ## Strings and keys -/

theorem shadows_takeQuoted {more body : List Char} (here : cursor.rest = '"' :: more)
    (read : stringBody (more ++ tail) = some (body, rest)) :
    Ends takeQuoted cursor
      (fun found next => Tracks tail rest cursor next ∧ stringBody more = some (body, next.rest) ∧
        (common cursor.rest = true → found = String.ofList body) ∧
        (found = "" → more = '"' :: next.rest))
      fun _ => tail ≠ [] := by
  obtain ⟨other, quoted, means⟩ := doubleQuoted_of_stringBody read
  unfold Ends
  split
  · rename_i found next taken
    obtain ⟨inner, behind, own, rfl, rfl⟩ := takeQuoted_eq_ok_iff.mp taken
    rw [here, quotedBody] at own
    obtain ⟨⟨used, whole⟩, longer⟩ := @doubleQuoted_append tail _ _ _ own
    rw [longer] at quoted
    obtain ⟨rfl, rfl⟩ : other = inner ∧ rest = behind ++ tail := by simpa [eq_comm] using quoted
    obtain ⟨front, same, takes⟩ := Json.exists_stringBody read
    have split : more = front ++ behind := by
      rw [← List.append_assoc] at same
      exact List.append_cancel_right same
    have alone : stringBody more = some (body, behind) := by rw [split, takes]
    have left : (cursor.forward (cursor.rest.length - behind.length)).rest = behind := by
      apply rest_forward_run
      rw [here, split, List.cons_append]
    obtain ⟨_, again, means⟩ := doubleQuoted_of_stringBody alone
    rw [own] at again
    cases again
    have tame (tame : common cursor.rest = true) := by
      rw [here] at tame
      exact means (Json.common_of_cons (by decide) tame)
    rw [left]
    refine ⟨⟨by rw [left], ?_, fun known => ?_⟩, alone, fun known => ?_, fun empty => ?_⟩
    · rw [left, here, split, List.length_cons, List.length_append]
      omega
    · rw [left]
      exact (tame known).2
    · rw [(tame known).1]
    · rw [String.ofList_eq_empty_iff] at empty
      exact eq_of_doubleQuoted_nil (empty ▸ own)
  · rename_i error after fails
    rintro rfl
    rw [List.append_nil] at quoted
    have taken := takeQuoted_eq_ok_iff.mpr ⟨other, rest, by rw [here, quotedBody, quoted], rfl, rfl⟩
    rw [fails] at taken
    cases taken

theorem ends_takeKey_blank {marker : List Char} {done : String → Cursor → Prop}
    {failed : Cursor → Prop} (blank : Text.trimStart cursor.rest = [])
    (fails : ∀ after, failed after) : Ends (takeKey marker) cursor done failed := by
  unfold Ends
  split
  · rename_i taken
    exact absurd blank (visible_of_takeKey taken)
  · exact fails _

/-- A key is refused for being empty only where the text has an empty key. -/
theorem shadows_takeKey {marker quoted body behind : List Char}
    (front : skipSpace (cursor.rest ++ tail) = '"' :: quoted)
    (read : stringBody quoted = some (body, rest)) (colon : skipSpace rest = ':' :: behind) :
    Ends (takeKey marker) cursor
      (fun found next => Tracks tail rest cursor next ∧
        (∃ more, skipSpace cursor.rest = '"' :: more ∧ stringBody more = some (body, next.rest)) ∧
        (common cursor.rest = true → found = String.ofList body))
      fun _ => Stuck tail limit cursor := by
  rcases mark_or_blank (by decide) front with ⟨more, skip, trim, rfl⟩ | ⟨blank, some⟩
  · obtain ⟨peek, start⟩ := peek_skipBlank trim
    simp only [takeKey, Scan.skipBlank, ends_bind, ends_modify, ends_get, peek]
    refine (shadows_takeQuoted start read).mono ?_ fun _ some => stuck_of_tail some
    rintro found next ⟨tracks, own, means, empty⟩
    have tame (tame : common cursor.rest = true) : common cursor.skipBlank.rest = true := by
      rw [Cursor.rest_skipBlank]
      exact common_trimStart tame
    apply ends_ite
    · intro none
      simp only [Scan.failAt, ends_bind, ends_throw]
      rintro rfl known
      have same : more = '"' :: next.rest := empty (by simpa using none)
      have left := tracks.rest
      rw [List.append_nil] at left
      have rare := tame known
      rw [start, common, same, emptyKey, ← left, colon] at rare
      simp at rare
    · intro filled
      simp only [ends_pure]
      exact ⟨tracks.of_skipBlank, ⟨more, skip, own⟩, fun known => means (tame known)⟩
  · exact ends_takeKey_blank blank fun _ => stuck_of_tail some

end

/-! ## Lists and records -/

section

variable {words : Words} {tail : List Char} {depth limit : Nat} {cursor : Cursor}

/-- A value is delimited by its own quotes or brackets, or by what stands behind it. -/
def Settled (text rest : List Char) : Prop :=
  (∀ c ∈ (skipSpace text).head?, c ∈ ['"', '[', '\x7b']) ∨ Stops rest

/-- A lenient reader that succeeds stops where the strict one stopped in front of the tail, and
without the tail the strict one stops there, too. -/
def FollowsAt (words : Words) (tail : List Char) (depth limit : Nat) (cursor : Cursor)
    (found : Json) (rest : List Char) : Prop :=
  Ends (lenient words limit) cursor
    (fun other next => Tracks tail rest cursor next ∧
      Json.value depth cursor.rest = some (found, next.rest) ∧
      (common cursor.rest = true → words.aliases.Faithful → other = ofJson found))
    fun _ => Stuck tail limit cursor

/-- A lenient reader follows a strict one on every text with such a tail. -/
def Follows (words : Words) (tail : List Char) (depth limit : Nat) : Prop :=
  ∀ cursor found rest, Json.value depth (cursor.rest ++ tail) = some (found, rest) →
    Settled cursor.rest rest → FollowsAt words tail depth limit cursor found rest

/-- A strict value begins with a character that is not blank and closes no list or record. -/
theorem exists_front_of_value {text : List Char} {found : Json × List Char}
    (read : Json.value depth text = some found) :
    ∃ c rest, skipSpace text = c :: rest ∧ Text.isBlank c = false ∧ c ≠ ']' ∧ c ≠ '\x7d' := by
  rw [Json.value] at read
  cases front : skipSpace text with
  | nil =>
    rw [front] at read
    cases read
  | cons c rest =>
    rw [front] at read
    refine ⟨c, rest, rfl, ?_⟩
    have mark : c.isDigit = true ∨ c ∈ ['"', '-', 'n', 't', 'f', '[', '\x7b'] := by
      by_cases digit : c.isDigit = true
      · exact .inl digit
      · refine .inr (Decidable.not_not.mp fun other => ?_)
        simp only [List.mem_cons, List.not_mem_nil, or_false, not_or] at other
        obtain ⟨quote, sign, null, yes, no, bracket, brace⟩ := other
        simp only [quote, sign, digit, null, yes, no, bracket, brace, if_false] at read
        cases depth <;> cases read
    rcases mark with digit | mark
    · have table := Json.forall_isDigit (fun c => !Text.isBlank c && c ≠ ']' && c ≠ '\x7d')
        (by decide) digit
      simpa [and_assoc] using table
    · have table : ∀ c ∈ ['"', '-', 'n', 't', 'f', '[', '\x7b'],
          Text.isBlank c = false ∧ c ≠ ']' ∧ c ≠ '\x7d' := List.all_iff_forall_prop.mp (by decide)
      exact table c mark

/-- Where a strict value begins in front of the tail, nothing closes a list or a record. -/
theorem head_trimStart_of_value {found : Json × List Char}
    (read : Json.value depth (cursor.rest ++ tail) = some found) :
    (Text.trimStart cursor.rest).head? ≠ some ']' ∧
      (Text.trimStart cursor.rest).head? ≠ some '\x7d' := by
  obtain ⟨c, rest, front, visible, bracket, brace⟩ := exists_front_of_value read
  rcases mark_or_blank visible front with ⟨_, _, trim, _⟩ | ⟨blank, _⟩
  · simp [trim, bracket, brace]
  · simp [blank]

/-- What stands behind a part of a container ends the part. -/
theorem stops_of_mark {c : Char} {text more : List Char} (front : skipSpace text = c :: more)
    (stop : c ∈ valueStops) : Stops text := by simpa [Stops, front] using stop

theorem Follows.takeItems (follows : Follows words tail depth limit) {fuel room : Nat}
    {items : List Json} {rest : List Char} (enough : cursor.rest.length < room)
    (read : Json.elements (Json.value depth) fuel (cursor.rest ++ tail) = some (items, rest)) :
    Ends (takeItems (lenient words limit) room) cursor
      (fun others next => Tracks tail rest cursor next ∧
        (∀ more, cursor.rest.length ≤ more →
          Json.elements (Json.value depth) more cursor.rest = some (items, next.rest)) ∧
        (common cursor.rest = true → words.aliases.Faithful → others = items.map ofJson))
      fun _ => Stuck tail limit cursor := by
  induction fuel generalizing cursor room items with
  | zero => cases read
  | succ fuel ih =>
    obtain ⟨room, rfl⟩ := Nat.exists_eq_add_one_of_ne_zero (Nat.ne_zero_of_lt enough)
    obtain ⟨first, behind, here, further⟩ := Json.elements_succ_iff.mp read
    have stops : Stops behind := by
      rcases further with ⟨_, _, comma, _⟩ | ⟨closed, _⟩
      · exact stops_of_mark comma (by decide)
      · exact stops_of_mark closed (by decide)
    rw [Literal.takeItems, ends_bind]
    apply Scan.ends_eat_false (head_trimStart_of_value here).1
    rw [if_neg (by simp), ends_bind]
    refine (follows cursor first behind here (.inr stops)).mono ?_ fun _ stuck => stuck
    rintro value middle ⟨tracks, alone, means⟩
    rw [tracks.rest] at further
    rcases further with ⟨_, others, comma, parts, rfl⟩ | ⟨closed, rfl⟩
    · refine ends_delimited_comma comma ?_ fun some => stuck_of_tail some
      intro next skip marked
      have passed := tracks.trans marked
      have shorter := passed.shorter
      rw [marked.rest] at parts
      rw [ends_bind]
      refine (ih (by omega) parts).mono ?_ fun _ stuck => passed.stuck stuck
      rintro values final ⟨whole, parts, mean⟩
      refine ⟨passed.trans whole, fun more room => ?_, fun tame faithful => ?_⟩
      · obtain ⟨more, rfl⟩ := Nat.exists_eq_add_one_of_ne_zero
          (Nat.ne_zero_of_lt (Nat.lt_of_lt_of_le shorter room))
        exact Json.elements_succ_iff.mpr
          ⟨first, _, alone, .inl ⟨_, others, skip, parts more (by omega), rfl⟩⟩
      · rw [means tame faithful, mean (passed.common tame) faithful, List.map_cons]
    · refine ends_delimited_close closed (by decide) ?_ fun some => stuck_of_tail some
      intro next skip marked
      have passed := tracks.trans marked
      refine ⟨passed, fun more room => ?_, fun tame faithful => ?_⟩
      · obtain ⟨more, rfl⟩ := Nat.exists_eq_add_one_of_ne_zero
          (Nat.ne_zero_of_lt (Nat.lt_of_lt_of_le passed.shorter room))
        exact Json.elements_succ_iff.mpr ⟨first, _, alone, .inr ⟨skip, rfl⟩⟩
      · rw [means tame faithful, List.map_cons, List.map_nil]

/-- A key with the colon behind it. -/
theorem ends_member {α : Type} {marker rest : List Char} {key : String} {step : String → Scan α}
    {done : α → Cursor → Prop} {failed : Cursor → Prop}
    (read : Json.memberKey (cursor.rest ++ tail) = some (key, rest))
    (further : ∀ name next, Tracks tail rest cursor next →
      Json.memberKey cursor.rest = some (key, next.rest) →
      (common cursor.rest = true → name = key) → Ends (step name) next done failed)
    (fails : ∀ after, Stuck tail limit cursor → failed after) :
    Ends (do
        let name ← takeKey marker
        unless ← Scan.eat ':' do Scan.fail .keyDelimiter
        step name) cursor done failed := by
  obtain ⟨quoted, body, closed, front, string, colon, rfl⟩ := Json.memberKey_eq_some_iff.mp read
  rw [ends_bind]
  refine (shadows_takeKey front string colon).mono ?_ fails
  rintro name middle ⟨tracks, ⟨more, opening, own⟩, spelled⟩
  rw [tracks.rest] at colon
  rw [ends_bind]
  rcases mark_or_blank (by decide) colon with ⟨left, skip, trim, same⟩ | ⟨blank, some⟩
  · apply Scan.ends_eat_true trim
    rintro next rfl
    rw [if_pos rfl]
    refine further name next ?_ ?_ spelled
    · rw [same]
      exact tracks.trans (tracks_mark (by decide) trim)
    · exact Json.memberKey_eq_some_iff.mpr ⟨more, body, _, opening, own, skip, rfl⟩
  · apply Scan.ends_eat_false (by simp [blank])
    exact fails _ (stuck_of_tail some)

theorem head_trimStart_of_memberKey {found : String × List Char}
    (read : Json.memberKey (cursor.rest ++ tail) = some found) :
    (Text.trimStart cursor.rest).head? ≠ some '\x7d' := by
  obtain ⟨_, _, _, front, _⟩ := Json.memberKey_eq_some_iff.mp read
  rcases mark_or_blank (by decide) front with ⟨_, _, trim, _⟩ | ⟨blank, _⟩
  · simp [trim]
  · simp [blank]

theorem map_put (key : String) (value : Json) (members : List (String × Json)) :
    (OrderedMap.put key value members).map (fun member => (member.1, ofJson member.2)) =
      OrderedMap.put key (ofJson value)
        (members.map fun member => (member.1, ofJson member.2)) := by
  induction members with
  | nil => rfl
  | cons member rest ih =>
    obtain ⟨other, old⟩ := member
    by_cases same : other = key
    · simp [OrderedMap.put, same]
    · simpa [OrderedMap.put, same] using ih

theorem Follows.takeFields (follows : Follows words tail depth limit) {fuel room : Nat}
    {before members : List (String × Json)} {sofar : List (String × Literal)} {rest : List Char}
    {plain : Prop} (tame : plain → common cursor.rest = true ∧ words.aliases.Faithful)
    (enough : cursor.rest.length < room)
    (start : plain → sofar = before.map fun member => (member.1, ofJson member.2))
    (read : Json.entries (Json.value depth) fuel before (cursor.rest ++ tail) =
      some (members, rest)) :
    Ends (takeFields words.marker (lenient words limit) room sofar) cursor
      (fun fields next => Tracks tail rest cursor next ∧
        (∀ more, cursor.rest.length ≤ more →
          Json.entries (Json.value depth) more before cursor.rest = some (members, next.rest)) ∧
        (plain → fields = members.map fun member => (member.1, ofJson member.2)))
      fun _ => Stuck tail limit cursor := by
  induction fuel generalizing cursor room before sofar with
  | zero => cases read
  | succ fuel ih =>
    obtain ⟨room, rfl⟩ := Nat.exists_eq_add_one_of_ne_zero (Nat.ne_zero_of_lt enough)
    obtain ⟨key, opened, value, behind, named, here, further⟩ := Json.entries_succ_iff.mp read
    have stops : Stops behind := by
      rcases further with ⟨_, comma, _⟩ | ⟨closed, _⟩
      · exact stops_of_mark comma (by decide)
      · exact stops_of_mark closed (by decide)
    rw [Literal.takeFields, ends_bind]
    apply Scan.ends_eat_false (head_trimStart_of_memberKey named)
    rw [if_neg (by simp)]
    refine ends_member named ?_ fun _ stuck => stuck
    intro name colon marked label spelled
    rw [marked.rest] at here
    have grown {other : Literal} (known : plain) (means : other = ofJson value) :
        OrderedMap.put name other sofar =
          (OrderedMap.put key value before).map fun member => (member.1, ofJson member.2) := by
      rw [spelled (tame known).1, start known, means, map_put]
    dsimp only
    rw [ends_bind]
    refine (follows colon value behind here (.inr stops)).mono ?_ fun _ stuck =>
      marked.stuck stuck
    rintro other middle ⟨tracks, alone, means⟩
    rw [tracks.rest] at further
    rcases further with ⟨_, comma, parts⟩ | ⟨closed, rfl⟩
    · refine ends_delimited_comma comma ?_ fun some => stuck_of_tail some
      intro next skip eaten
      have passed := (marked.trans tracks).trans eaten
      have shorter := passed.shorter
      rw [eaten.rest] at parts
      refine (ih (fun known => ⟨passed.common (tame known).1, (tame known).2⟩) (by omega)
        (fun known => ?_) parts).mono ?_ fun _ stuck => passed.stuck stuck
      · exact grown known (means (marked.common (tame known).1) (tame known).2)
      rintro fields final ⟨whole, parts, mean⟩
      refine ⟨passed.trans whole, fun more room => ?_, mean⟩
      obtain ⟨more, rfl⟩ := Nat.exists_eq_add_one_of_ne_zero
        (Nat.ne_zero_of_lt (Nat.lt_of_lt_of_le shorter room))
      exact Json.entries_succ_iff.mpr
        ⟨key, _, value, _, label, alone, .inl ⟨_, skip, parts more (by omega)⟩⟩
    · refine ends_delimited_close closed (by decide) ?_ fun some => stuck_of_tail some
      intro next skip eaten
      have passed := (marked.trans tracks).trans eaten
      refine ⟨passed, fun more room => ?_, fun known => ?_⟩
      · obtain ⟨more, rfl⟩ := Nat.exists_eq_add_one_of_ne_zero
          (Nat.ne_zero_of_lt (Nat.lt_of_lt_of_le passed.shorter room))
        exact Json.entries_succ_iff.mpr ⟨key, _, value, _, label, alone, .inr ⟨skip, rfl⟩⟩
      · exact grown known (means (marked.common (tame known).1) (tame known).2)

/-! ## Values -/

theorem ends_lenient_blank {done : Literal → Cursor → Prop} {failed : Cursor → Prop}
    (blank : Text.trimStart cursor.rest = []) (fails : ∀ after, failed after) :
    Ends (lenient words limit) cursor done failed := by
  unfold Ends
  split
  · rename_i taken
    exact absurd blank (visible_of_lenient taken)
  · exact fails _

theorem value_skipSpace (depth : Nat) (text : List Char) :
    Json.value depth (skipSpace text) = Json.value depth text := by
  have again : skipSpace (skipSpace text) = skipSpace text := List.dropWhile_idempotent _ _
  rw [Json.value, Json.value, again]

theorem value_of_elements {text rest : List Char} {items : List Json}
    (read : Json.elements (Json.value depth) text.length text = some (items, rest)) :
    Json.value (depth + 1) ('[' :: text) = some (.array items, rest) := by
  have opened {fuel : Nat}
      (read : Json.elements (Json.value depth) fuel text = some (items, rest)) :
      ∃ found, Json.value depth text = some found := by
    cases fuel with
    | zero => cases read
    | succ fuel =>
      obtain ⟨found, behind, here, _⟩ := Json.elements_succ_iff.mp read
      exact ⟨_, here⟩
  obtain ⟨found, first⟩ := opened read
  obtain ⟨c, more, front, _, bracket, _⟩ := exists_front_of_value first
  rw [Json.value_bracket, read]
  split
  · rename_i closed
    rw [closed] at front
    cases front
    exact absurd rfl bracket
  · rfl

theorem value_of_entries {text rest : List Char} {members : List (String × Json)}
    (read : Json.entries (Json.value depth) text.length [] text = some (members, rest)) :
    Json.value (depth + 1) ('\x7b' :: text) = some (.object members, rest) := by
  have opened {fuel : Nat}
      (read : Json.entries (Json.value depth) fuel [] text = some (members, rest)) :
      ∃ more, skipSpace text = '"' :: more := by
    cases fuel with
    | zero => cases read
    | succ fuel =>
      obtain ⟨_, _, _, _, named, _⟩ := Json.entries_succ_iff.mp read
      obtain ⟨more, _, _, front, _⟩ := Json.memberKey_eq_some_iff.mp named
      exact ⟨more, front⟩
  obtain ⟨more, front⟩ := opened read
  rw [Json.value_brace, read, front]
  rfl

theorem Stops.of_append {text : List Char} (stops : Stops (text ++ tail)) : Stops text := by
  intro c front
  obtain ⟨rest, same⟩ := List.head?_eq_some_iff.mp front
  apply stops c
  rw [Json.skipSpace_append same]
  rfl

theorem Tracks.stuck_succ {rest : List Char} {middle : Cursor}
    (tracks : Tracks tail rest cursor middle) (stuck : Stuck tail limit middle) :
    Stuck tail (limit + 1) cursor := fun none tame =>
  Nat.lt_of_le_of_lt (stuck none (tracks.common tame)) tracks.shorter

section

variable {inner rest : List Char} {found : Json}

theorem followsAt_string (skip : skipSpace cursor.rest = '"' :: inner)
    (read : Json.value depth ('"' :: (inner ++ tail)) = some (found, rest)) :
    FollowsAt words tail depth (limit + 1) cursor found rest := by
  have trim := trimStart_of_skipSpace skip (by decide)
  rw [FollowsAt, ← value_skipSpace, skip]
  rw [Json.value_mark] at read ⊢
  obtain ⟨⟨body, behind⟩, string, same⟩ := Option.map_eq_some_iff.mp read
  cases same
  apply Ends.of_eq (lenient_quote (.inl rfl) trim)
  rw [ends_map]
  refine (shadows_takeQuoted (peek_skipBlank trim).2 string).mono ?_ fun _ some =>
    stuck_of_tail some
  rintro text next ⟨tracks, own, means, _⟩
  refine ⟨tracks.of_skipBlank, by rw [own]; rfl, fun tame _ => ?_⟩
  rw [means (by rw [Cursor.rest_skipBlank]; exact common_trimStart tame), ofJson]

/-- The place behind the bracket that a container begins with. -/
theorem tracks_step {c : Char} (plain : c ≠ '\\') (trim : Text.trimStart cursor.rest = c :: inner) :
    cursor.skipBlank.step.rest = inner ∧
      Tracks tail (inner ++ tail) cursor cursor.skipBlank.step := by
  have step : cursor.skipBlank.step.rest = inner := by
    rw [Cursor.step, Cursor.rest_forward, Cursor.rest_skipBlank, trim, List.drop_one,
      List.tail_cons]
  refine ⟨step, ?_⟩
  rw [← step] at trim ⊢
  exact tracks_mark plain trim

theorem Follows.list (follows : Follows words tail depth limit)
    (skip : skipSpace cursor.rest = '[' :: inner)
    (read : Json.value (depth + 1) ('[' :: (inner ++ tail)) = some (found, rest)) :
    FollowsAt words tail (depth + 1) (limit + 1) cursor found rest := by
  have trim := trimStart_of_skipSpace skip (by decide)
  obtain ⟨step, passed⟩ := @tracks_step tail _ _ '[' (by decide) trim
  rw [FollowsAt, ← value_skipSpace, skip]
  apply Ends.of_eq (lenient_bracket trim)
  rw [ends_map]
  rw [Json.value_bracket] at read
  split at read
  · rename_i closed
    cases read
    rw [Literal.takeItems, ends_bind]
    rcases mark_or_blank (by decide) closed with ⟨left, skip, trim, rfl⟩ | ⟨blank, some⟩
    · rw [← step] at trim
      apply Scan.ends_eat_true trim
      rintro next rfl
      rw [if_pos rfl]
      refine ⟨passed.trans (tracks_mark (by decide) trim), ?_, fun _ _ => rfl⟩
      rw [Json.value_bracket, skip]
      rfl
    · rw [← step] at blank
      apply Scan.ends_eat_false (by simp [blank])
      rw [if_neg (by simp), ends_bind]
      exact ends_lenient_blank blank fun _ => stuck_of_tail some
  · obtain ⟨⟨items, last⟩, parts, same⟩ := Option.map_eq_some_iff.mp read
    cases same
    rw [← step] at parts
    refine (follows.takeItems (by rw [step]; omega) parts).mono ?_ fun _ stuck =>
      passed.stuck_succ stuck
    rintro others next ⟨tracks, own, means⟩
    refine ⟨passed.trans tracks, ?_, fun tame faithful => ?_⟩
    · rw [← step]
      exact value_of_elements (own _ (Nat.le_refl _))
    · rw [means (passed.common tame) faithful, ofJson, map_ofJson]

theorem Follows.record (follows : Follows words tail depth limit)
    (skip : skipSpace cursor.rest = '\x7b' :: inner)
    (read : Json.value (depth + 1) ('\x7b' :: (inner ++ tail)) = some (found, rest)) :
    FollowsAt words tail (depth + 1) (limit + 1) cursor found rest := by
  have trim := trimStart_of_skipSpace skip (by decide)
  obtain ⟨step, passed⟩ := @tracks_step tail _ _ '\x7b' (by decide) trim
  rw [FollowsAt, ← value_skipSpace, skip]
  apply Ends.of_eq (lenient_brace trim)
  rw [ends_map]
  rw [Json.value_brace] at read
  split at read
  · rename_i closed
    cases read
    rw [Literal.takeFields, ends_bind]
    rcases mark_or_blank (by decide) closed with ⟨left, skip, trim, rfl⟩ | ⟨blank, some⟩
    · rw [← step] at trim
      apply Scan.ends_eat_true trim
      rintro next rfl
      rw [if_pos rfl]
      refine ⟨passed.trans (tracks_mark (by decide) trim), ?_, fun _ _ => rfl⟩
      rw [Json.value_brace, skip]
      rfl
    · rw [← step] at blank
      apply Scan.ends_eat_false (by simp [blank])
      rw [if_neg (by simp), ends_bind]
      exact ends_takeKey_blank blank fun _ => stuck_of_tail some
  · obtain ⟨⟨members, last⟩, parts, same⟩ := Option.map_eq_some_iff.mp read
    cases same
    rw [← step] at parts
    have tame (known : common cursor.rest = true ∧ words.aliases.Faithful) :
        common cursor.skipBlank.step.rest = true ∧ words.aliases.Faithful :=
      ⟨passed.common known.1, known.2⟩
    refine (follows.takeFields tame (by rw [step]; omega) (fun _ => rfl) parts).mono ?_
      fun _ stuck => passed.stuck_succ stuck
    rintro others next ⟨tracks, own, means⟩
    refine ⟨passed.trans tracks, ?_, fun tame faithful => ?_⟩
    · rw [← step]
      exact value_of_entries (own _ (Nat.le_refl _))
    · rw [means ⟨tame, faithful⟩, ofJson, map_ofJson_members]

/-- In front of the end of a value, the run of a scalar is a bare word of its own. -/
theorem followsAt_scalar {c : Char} (outside : Outside tail) (marker : Outside words.marker)
    (skip : skipSpace cursor.rest = c :: inner) (plain : c ∉ ['"', '[', '\x7b'])
    (visible : Text.isBlank c = false) (stops : Stops rest)
    (read : Json.value depth (cursor.rest ++ tail) = some (found, rest)) :
    FollowsAt words tail depth (limit + 1) cursor found rest := by
  have trim := trimStart_of_skipSpace skip visible
  obtain ⟨run, whole, scalar⟩ :=
    Json.exists_scalar (Json.skipSpace_append skip) plain stops.outside read
  rw [← List.cons_append] at whole
  obtain ⟨behind, split, rfl⟩ := exists_of_run_append scalar.bare outside whole
  have start := (peek_skipBlank trim).2
  rw [split] at trim start skip
  have word : bareWord valueStops words.marker cursor.skipBlank.rest = run := by
    rw [start]
    exact bareWord_run scalar.bare marker stops.of_append
  have bare : ∀ c ∈ (Text.trimStart cursor.rest).head?, c ∉ ['"', '\'', '[', '\x7b'] := by
    obtain ⟨d, run, rfl⟩ := List.exists_cons_of_ne_nil scalar.filled
    rw [trim]
    intro c front
    cases front
    exact (plain_of_isBare (scalar.bare d List.mem_cons_self)).2.2.2.2
  have taken : lenient words (limit + 1) cursor =
      .ok (ofWord words.aliases run) (cursor.skipBlank.forward run.length) :=
    (lenient_word_eq_ok_iff bare).mpr
      ⟨run, by rw [takeBare_eq, word], scalar.filled, rfl⟩
  have left : (cursor.skipBlank.forward run.length).rest = behind := by
    rw [Cursor.rest_forward, start, List.drop_left]
  apply ends_of_ok taken
  refine ⟨Tracks.of_skipBlank ⟨by rw [left], ?_, fun tame => ?_⟩, ?_, fun _ faithful => ?_⟩
  · rw [left, start, List.length_append]
    have filled := List.length_pos_of_ne_nil scalar.filled
    omega
  · rw [start] at tame
    rw [left]
    exact Json.common_of_append (fun c member => (plain_of_isBare (scalar.bare c member)).2.2.2.1) tame
  · rw [← value_skipSpace, skip, left]
    exact scalar.value depth behind (Stops.outside stops.of_append)
  · exact ofWord_of_scalar scalar faithful

end

/-- A lenient reader follows a strict one through every text. -/
theorem follows (outside : Outside tail) (marker : Outside words.marker) (depth limit : Nat) :
    Follows words tail depth limit := by
  induction limit generalizing depth with
  | zero => exact fun _ _ _ _ _ _ _ => Nat.zero_le _
  | succ limit ih =>
    intro cursor found rest read settled
    obtain ⟨c, more, front, visible, _⟩ := exists_front_of_value read
    rcases mark_or_blank visible front with ⟨inner, skip, _, rfl⟩ | ⟨blank, some⟩
    case inr => exact ends_lenient_blank blank fun _ => stuck_of_tail some
    by_cases plain : c ∉ ['"', '[', '\x7b']
    · have stops : Stops rest := settled.resolve_left fun opens => plain (opens c (by rw [skip]; rfl))
      exact followsAt_scalar outside marker skip plain visible stops read
    rw [← value_skipSpace, front] at read
    simp only [List.mem_cons, List.not_mem_nil, or_false, Decidable.not_not] at plain
    rcases plain with rfl | rfl | rfl
    · exact followsAt_string skip read
    · cases depth with
      | zero => cases read
      | succ depth => exact (ih depth).list skip read
    · cases depth with
      | zero => cases read
      | succ depth => exact (ih depth).record skip read

end

end Literal

end DocShapes

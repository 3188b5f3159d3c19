import DocShapes.Proofs.Restoring
import DocShapes.Proofs.StrictPrefix

/-! # Scalars of strict texts

A number, a constant word and the hexadecimal digits of bytes are runs of the same few characters.
A strict reader takes such a run as a whole, whatever stands behind it, and where a bare word is the
same run it means the same (`Scalar.ofWord`).
-/

namespace DocShapes

/-! ## Runs -/

/-- The characters of numbers, of constant words and of bytes. -/
def isBare (c : Char) : Bool := Literal.isWordy c || c = '+' || c = '.'

theorem forall_isBare (test : Char → Bool)
    (table : ∀ k : Fin 128, isBare (Char.ofNat k) = true → test (Char.ofNat k) = true) {c : Char}
    (bare : isBare c = true) : test c = true := by
  have wordy (k : Fin 128) (wordy : Literal.isWordy (Char.ofNat k) = true) :
      test (Char.ofNat k) = true := table k (by simp [isBare, wordy])
  simp only [isBare, Bool.or_eq_true, decide_eq_true_eq] at bare
  rcases bare with (letter | rfl) | rfl
  · exact Literal.forall_isWordy test wordy letter
  · exact table 43 (by decide)
  · exact table 46 (by decide)

/-- No run goes on at the front of the text. -/
def Outside (text : List Char) : Prop := ∀ c ∈ text.head?, isBare c = false

variable {run rest text tail : List Char}

/-- A run stays in front of what it does not go on with. -/
theorem exists_of_run_append (bare : ∀ c ∈ run, isBare c = true) (outside : Outside tail)
    (same : text ++ tail = run ++ rest) : ∃ behind, text = run ++ behind ∧ rest = behind ++ tail := by
  rcases List.append_eq_append_iff.mp same with ⟨more, whole, front⟩ | ⟨more, whole, front⟩
  · cases more with
    | nil => exact ⟨[], by simpa using whole.symm, by simpa using front.symm⟩
    | cons c more =>
      have inside := bare c (by rw [whole]; simp)
      have none := outside c (by rw [front]; rfl)
      rw [inside] at none
      cases none
  · exact ⟨more, whole, front⟩

namespace Json

/-! ## Numbers -/

theorem isBare_of_isDigit {c : Char} (digit : c.isDigit = true) : isBare c = true :=
  forall_isDigit isBare (by decide) digit

theorem Outside.endsNumber (outside : Outside tail) : EndsNumber tail := by
  intro c front
  have none := outside c front
  by_cases continues : continuesNumber c = true
  · have bare : isBare c = true := by
      simp only [continuesNumber, Bool.or_eq_true, decide_eq_true_eq] at continues
      rcases continues with ((digit | rfl) | rfl) | rfl
      · exact isBare_of_isDigit digit
      · decide
      · decide
      · decide
    rw [bare] at none
    cases none
  · simpa using continues

variable {α : Type}

/-- What a reader refuses it refuses in front of the tail, too. -/
def Refuses (reader : List Char → Option α) (tail text : List Char) : Prop :=
  reader text = none → reader (text ++ tail) = none

theorem refuses_digits (ends : EndsNumber tail) (view : List Char → α) (text : List Char) :
    Refuses (fun text =>
      if (text.takeWhile Char.isDigit).isEmpty then none
      else some (view (text.takeWhile Char.isDigit),
        text.drop (text.takeWhile Char.isDigit).length)) tail text := by
  intro none
  dsimp only at none ⊢
  rw [ends.digits]
  split at none
  · rename_i empty
    rw [if_pos empty]
  · cases none

theorem refuses_fraction? (ends : EndsNumber tail) (text : List Char) :
    Refuses fraction? tail text := by
  intro none
  cases text with
  | nil => cases none
  | cons c text =>
    by_cases point : c = '.'
    · subst point
      exact refuses_digits ends id text none
    · rw [fraction?_of_ne point] at none
      cases none

theorem refuses_signedExponent? (outside : Outside tail) (text : List Char) :
    Refuses signedExponent? tail text := by
  have ends := Outside.endsNumber outside
  intro none
  cases text with
  | nil =>
    cases tail with
    | nil => rfl
    | cons c tail =>
      have plain := outside c rfl
      have plus : c ≠ '+' := by
        rintro rfl
        cases plain
      have minus : c ≠ '-' := by
        rintro rfl
        cases plain
      have digit := (ends.head c rfl).1
      rw [List.nil_append, signedExponent?_of_ne plus minus]
      simp [digit]
  | cons c text =>
    by_cases plus : c = '+'
    · subst plus
      exact refuses_digits ends (fun run => (naturalOf run : Int)) text none
    by_cases minus : c = '-'
    · subst minus
      exact refuses_digits ends (fun run => -(naturalOf run : Int)) text none
    rw [List.cons_append, signedExponent?_of_ne plus minus]
    rw [signedExponent?_of_ne plus minus] at none
    exact refuses_digits ends (fun run => (naturalOf run : Int)) (c :: text) none

theorem refuses_exponent? (outside : Outside tail) (text : List Char) :
    Refuses exponent? tail text := by
  intro none
  cases text with
  | nil => cases none
  | cons c text =>
    by_cases mark : c = 'e' ∨ c = 'E'
    · have step (rest : List Char) : exponent? (c :: rest) =
          (signedExponent? rest).map fun found => (some found.1, found.2) := by
        simp [exponent?, mark]
      rw [step, Option.map_eq_none_iff] at none
      rw [List.cons_append, step, refuses_signedExponent? outside text none]
      rfl
    · obtain ⟨lower, upper⟩ := not_or.mp mark
      rw [exponent?_of_ne lower upper] at none
      cases none

theorem refuses_unsigned (negative : Bool) (outside : Outside tail) (text : List Char) :
    Refuses (unsigned negative) tail text := by
  have ends := Outside.endsNumber outside
  intro none
  unfold unsigned at none ⊢
  dsimp only at none ⊢
  rw [ends.digits]
  split at none
  · rename_i whole
    rw [if_pos whole]
  rename_i whole
  rw [if_neg whole, drop_digits]
  generalize text.drop _ = behind at none ⊢
  cases point : fraction? behind with
  | none => simp [refuses_fraction? ends behind point]
  | some fraction =>
    rw [keeps_fraction? ends behind _ _ point]
    simp only [point, Option.bind_eq_bind, Option.bind_some] at none ⊢
    cases mark : exponent? fraction.2 with
    | none => simp [refuses_exponent? outside _ mark]
    | some power =>
      rw [keeps_exponent? ends _ _ _ mark]
      simp only [mark, Option.bind_some] at none ⊢
      split at none
      · rename_i plain
        rw [if_pos plain]
        simpa using none
      · rename_i decimal
        rw [if_neg decimal]
        simpa using none

/-- A run stands between the text and the rest. -/
def IsRun (text rest : List Char) : Prop := ∃ run, text = run ++ rest ∧ ∀ c ∈ run, isBare c = true

theorem isRun_refl (text : List Char) : IsRun text text := ⟨[], rfl, by simp⟩

theorem IsRun.cons {c : Char} (run : IsRun text rest) (bare : isBare c = true) :
    IsRun (c :: text) rest := by
  obtain ⟨run, rfl, inside⟩ := run
  exact ⟨c :: run, rfl, List.forall_mem_cons.mpr ⟨bare, inside⟩⟩

theorem IsRun.trans {middle : List Char} (first : IsRun text middle) (second : IsRun middle rest) :
    IsRun text rest := by
  obtain ⟨front, rfl, inside⟩ := first
  obtain ⟨run, rfl, others⟩ := second
  exact ⟨front ++ run, (List.append_assoc _ _ _).symm, List.forall_mem_append.mpr ⟨inside, others⟩⟩

theorem isRun_digits (text : List Char) :
    IsRun text (text.drop (text.takeWhile Char.isDigit).length) :=
  ⟨text.takeWhile Char.isDigit, (List.prefix_iff_eq_append.mp (List.takeWhile_prefix _)).symm,
    fun _ member => isBare_of_isDigit (List.mem_takeWhile_imp member)⟩

theorem isRun_fraction? {fraction : List Char} (read : fraction? text = some (fraction, rest)) :
    IsRun text rest := by
  unfold fraction? at read
  dsimp only at read
  split at read
  · split at read
    · cases read
    · cases read
      exact (isRun_digits _).cons (by decide)
  · cases read
    exact isRun_refl _

theorem isRun_signedExponent? {power : Int} (read : signedExponent? text = some (power, rest)) :
    IsRun text rest := by
  unfold signedExponent? at read
  split at read
  rename_i negative digits sign
  dsimp only at read
  split at read
  · cases read
  cases read
  split at sign
  · cases sign
    exact (isRun_digits _).cons (by decide)
  · cases sign
    exact (isRun_digits _).cons (by decide)
  · cases sign
    exact isRun_digits _

theorem isRun_exponent? {power : Option Int} (read : exponent? text = some (power, rest)) :
    IsRun text rest := by
  unfold exponent? at read
  split at read
  · rename_i c text
    split at read
    · rename_i mark
      obtain ⟨⟨size, behind⟩, signed, same⟩ := Option.map_eq_some_iff.mp read
      cases same
      apply (isRun_signedExponent? signed).cons
      simp only [Bool.or_eq_true, decide_eq_true_eq] at mark
      rcases mark with rfl | rfl <;> decide
    · cases read
      exact isRun_refl _
  · cases read
    exact isRun_refl _

theorem isRun_unsigned {negative : Bool} {found : Json}
    (read : unsigned negative text = some (found, rest)) : IsRun text rest := by
  unfold unsigned at read
  dsimp only at read
  split at read
  · cases read
  simp only [Option.bind_eq_bind, Option.bind_eq_some_iff] at read
  obtain ⟨⟨fraction, _⟩, point, ⟨power, behind⟩, mark, value⟩ := read
  have last : rest = behind := by
    split at value
    · obtain ⟨_, _, same⟩ := Option.bind_eq_some_iff.mp value
      cases same
      rfl
    · obtain ⟨_, _, same⟩ := Option.bind_eq_some_iff.mp value
      cases same
      rfl
  subst last
  exact (isRun_digits text).trans ((isRun_fraction? point).trans (isRun_exponent? mark))

/-- A number that nothing goes on with is the value of its run, whatever stands behind it. -/
theorem exists_unsigned {negative : Bool} {found : Json} (outside : Outside rest)
    (read : unsigned negative text = some (found, rest)) :
    ∃ run, text = run ++ rest ∧ run ≠ [] ∧ (∀ c ∈ run, isBare c = true) ∧
      ∀ more, Outside more → unsigned negative (run ++ more) = some (found, more) := by
  obtain ⟨run, rfl, bare⟩ := isRun_unsigned read
  have alone : unsigned negative run = some (found, []) := by
    cases first : unsigned negative run with
    | none =>
      rw [refuses_unsigned negative outside run first] at read
      cases read
    | some other =>
      rw [keeps_unsigned negative (Outside.endsNumber outside) run _ _ first] at read
      obtain ⟨same, left⟩ := Prod.mk.inj (Option.some.inj read)
      have empty : other.2 = [] := by simpa using left
      rw [← same, ← empty]
  refine ⟨run, rfl, ?_, bare, fun more apart => ?_⟩
  · rintro rfl
    cases alone
  · exact keeps_unsigned negative (Outside.endsNumber apart) run found [] alone

/-- What numbers stand for. -/
def isNumeric : Json → Bool
  | .integer _ => true
  | .number _ => true
  | _ => false

theorem isNumeric_of_unsigned {negative : Bool} {found : Json}
    (read : unsigned negative text = some (found, rest)) : isNumeric found = true := by
  unfold unsigned at read
  dsimp only at read
  split at read
  · cases read
  simp only [Option.bind_eq_bind, Option.bind_eq_some_iff] at read
  obtain ⟨fraction, _, power, _, read⟩ := read
  split at read
  · obtain ⟨whole, fits, same⟩ := Option.bind_eq_some_iff.mp read
    cases same
    unfold ofWhole at fits
    extract_lets size small at fits
    split at fits
    · cases fits
      rfl
    · obtain ⟨_, _, rfl⟩ := Option.map_eq_some_iff.mp fits
      rfl
  · obtain ⟨_, _, same⟩ := Option.bind_eq_some_iff.mp read
    cases same
    rfl

/-! ## Constants -/

theorem eq_append_of_word? {word : List Char} (read : word? word text = some rest) :
    text = word ++ rest := by
  fun_induction word? word text with
  | case1 => exact Option.some.inj read
  | case2 _ _ _ ih => rw [ih read, List.cons_append]
  | case3 => cases read
  | case4 => cases read

theorem word?_self (word more : List Char) : word? word (word ++ more) = some more := by
  induction word with
  | nil => rfl
  | cons c word ih => rw [List.cons_append, word?, if_pos rfl, ih]

/-- The words of constants and what they stand for. -/
def constants : List (List Char × Json) :=
  [("null".toList, .null), ("true".toList, .boolean true), ("false".toList, .boolean false)]

/-- The run is a number or the word of a constant, and a strict reader takes it as a whole. -/
structure Scalar (run : List Char) (found : Json) : Prop where
  filled : run ≠ []
  bare : ∀ c ∈ run, isBare c = true
  value : ∀ depth more, Outside more → Json.value depth (run ++ more) = some (found, more)
  kind : (run, found) ∈ constants ∨
    isNumeric found = true ∧ ∀ c ∈ run.head?, c.isDigit = true ∨ c = '-'

theorem exists_scalar_constant {c : Char} {word more : List Char} {meaning found : Json}
    (known : (c :: word, meaning) ∈ constants)
    (takes : ∀ depth text, value depth (c :: text) =
      (word? word text).map fun rest => (meaning, rest))
    (read : (word? word more).map (fun rest => (meaning, rest)) = some (found, rest)) :
    ∃ run, c :: more = run ++ rest ∧ Scalar run found := by
  obtain ⟨behind, front, same⟩ := Option.map_eq_some_iff.mp read
  cases same
  have letters : ∀ entry ∈ constants, ∀ c ∈ entry.1, isBare c = true := by
    simp [constants]
    decide
  refine ⟨c :: word, by rw [eq_append_of_word? front, List.cons_append], by simp,
    letters _ known, ?_, .inl known⟩
  · intro depth more _
    rw [List.cons_append, takes, word?_self]
    rfl

/-- A value that is no string and no container is a scalar. -/
theorem exists_scalar {depth : Nat} {c : Char} {more : List Char} {found : Json}
    (front : skipSpace text = c :: more) (plain : c ∉ ['"', '[', '\x7b'])
    (outside : Outside rest) (read : value depth text = some (found, rest)) :
    ∃ run, c :: more = run ++ rest ∧ Scalar run found := by
  simp only [List.mem_cons, List.not_mem_nil, or_false, not_or] at plain
  obtain ⟨quote, bracket, brace⟩ := plain
  rw [value, front] at read
  dsimp only at read
  rw [if_neg quote] at read
  split at read
  · rename_i sign
    subst sign
    obtain ⟨run, rfl, _, bare, reads⟩ := exists_unsigned outside read
    refine ⟨'-' :: run, rfl, by simp, List.forall_mem_cons.mpr ⟨by decide, bare⟩, ?_, ?_⟩
    · intro depth more apart
      rw [List.cons_append, value_sign, reads more apart]
    · exact .inr ⟨isNumeric_of_unsigned read, by simp⟩
  split at read
  · rename_i digit
    obtain ⟨run, whole, filled, bare, reads⟩ := exists_unsigned outside read
    obtain ⟨d, digits, rfl⟩ := List.exists_cons_of_ne_nil filled
    obtain ⟨rfl, rfl⟩ := List.cons.inj whole
    refine ⟨c :: digits, rfl, by simp, bare, ?_, ?_⟩
    · intro depth more apart
      have spaced : isSpace c = false ∧ c ≠ '"' ∧ c ≠ '-' := by
        have table := forall_isDigit (fun c => !isSpace c && c ≠ '"' && c ≠ '-') (by decide) digit
        simpa [and_assoc] using table
      rw [← reads more apart, List.cons_append, value, skipSpace_of_visible spaced.1]
      simp only [spaced, digit, if_true, if_false]
    · exact .inr ⟨isNumeric_of_unsigned read, by simp [digit]⟩
  split at read
  · rename_i null
    subst null
    exact exists_scalar_constant (by simp [constants]) (fun depth _ => by cases depth <;> rfl) read
  split at read
  · rename_i yes
    subst yes
    exact exists_scalar_constant (by simp [constants]) (fun depth _ => by cases depth <;> rfl) read
  split at read
  · rename_i no
    subst no
    exact exists_scalar_constant (by simp [constants]) (fun depth _ => by cases depth <;> rfl) read
  cases depth with
  | zero => cases read
  | succ => cases read

end Json

namespace AliasTable

/-- No spelling of a constant is the word of another one or looks like a number. -/
structure Faithful (aliases : AliasTable) : Prop where
  constant : ∀ word ∈ ["null", "true", "false"], aliases.resolveWord word = word
  numeric : ∀ c rest, c.isDigit = true ∨ c = '-' →
    aliases.resolveWord (String.ofList (c :: rest)) ∉ ["null", "true", "false"]

theorem faithful_builtin : builtin.Faithful where
  constant := by decide
  numeric c rest front := by
    apply Literal.resolveWord_of_front
    rcases front with digit | rfl
    · simpa using Json.forall_isDigit (fun c => !Name.startsSymbol c) (by decide) digit
    · decide

end AliasTable

namespace Literal

open Json (Scalar skipSpace)

variable {aliases : AliasTable} {found : Json}

theorem outside_nil : Outside [] := by simp [Outside]

theorem word?_hex_of_scalar {run : List Char} (scalar : Scalar run found) :
    Json.word? ['0', 'x'] run = none := by
  cases marked : Json.word? ['0', 'x'] run with
  | none => rfl
  | some digits =>
    have whole := scalar.value 0 [] outside_nil
    rw [Json.eq_append_of_word? marked] at whole
    cases whole

theorem read_of_scalar {run : List Char} (scalar : Scalar run found) :
    Json.read (String.ofList run) = some found := by
  have whole := scalar.value Json.deepest [] outside_nil
  rw [List.append_nil] at whole
  rw [Json.read, Json.readWithin, String.toList_ofList, whole]
  rfl

/-- As a bare word, the run of a scalar means what it means to a strict reader. -/
theorem ofWord_of_scalar {run : List Char} (scalar : Scalar run found)
    (faithful : aliases.Faithful) : ofWord aliases run = ofJson found := by
  rcases scalar.kind with known | ⟨numeric, front⟩
  · simp only [Json.constants, List.mem_cons, Prod.mk.injEq, List.not_mem_nil, or_false] at known
    rcases known with ⟨rfl, rfl⟩ | ⟨rfl, rfl⟩ | ⟨rfl, rfl⟩
    · rw [ofWord, String.ofList_toList, faithful.constant "null" (by decide)]
      rfl
    · rw [ofWord, String.ofList_toList, faithful.constant "true" (by decide)]
      rfl
    · rw [ofWord, String.ofList_toList, faithful.constant "false" (by decide)]
      rfl
  · obtain ⟨c, rest, rfl⟩ := List.exists_cons_of_ne_nil scalar.filled
    rw [ofWord_of_not_mem (faithful.numeric c rest (front c rfl)), word?_hex_of_scalar scalar,
      Option.bind_none, read_of_scalar scalar]
    cases found with
    | integer => rfl
    | number => rfl
    | _ => cases numeric

/-! ## Bare words -/

theorem beforeMarker_run {marker run text : List Char} (bare : ∀ c ∈ run, isBare c = true)
    (outside : Outside marker) (filled : marker ≠ []) :
    beforeMarker marker (run ++ text) = run ++ beforeMarker marker text := by
  induction run with
  | nil => rfl
  | cons c run ih =>
    obtain ⟨here, others⟩ := List.forall_mem_cons.mp bare
    have different : marker.isPrefixOf (c :: (run ++ text)) = false := by
      obtain ⟨d, marker, rfl⟩ := List.exists_cons_of_ne_nil filled
      have other : d ≠ c := by
        rintro rfl
        rw [outside d rfl] at here
        cases here
      simp [List.isPrefixOf, other]
    rw [List.cons_append, beforeMarker, different, ih others]
    rfl

theorem plain_of_isBare {c : Char} (bare : isBare c = true) :
    Text.isBlank c = false ∧ Json.isSpace c = false ∧ c ∉ valueStops ∧ c ≠ '\\' ∧
      c ∉ ['"', '\'', '[', '\x7b'] := by
  have table := forall_isBare (fun c => !Text.isBlank c && !Json.isSpace c && c ∉ valueStops &&
    c ≠ '\\' && c ∉ ['"', '\'', '[', '\x7b']) (by decide) bare
  simpa [and_assoc] using table

/-- Behind the text there is the end of a value, or nothing, behind blanks. -/
def Stops (text : List Char) : Prop := ∀ c ∈ (skipSpace text).head?, c ∈ valueStops

theorem isBlank_of_isSpace {c : Char} (space : Json.isSpace c = true) : Text.isBlank c = true := by
  simp only [Json.isSpace, Bool.or_eq_true, beq_iff_eq] at space
  rcases space with ((rfl | rfl) | rfl) | rfl <;> decide

theorem Stops.blank {text : List Char} (stops : Stops text) :
    ∀ c ∈ text.takeWhile fun c => !valueStops.contains c, Text.isBlank c = true := by
  induction text with
  | nil => simp
  | cons c rest ih =>
    by_cases space : Json.isSpace c = true
    · have behind : Stops rest := by simpa [Stops, skipSpace, space] using stops
      rw [List.takeWhile_cons]
      split
      · exact List.forall_mem_cons.mpr ⟨isBlank_of_isSpace space, ih behind⟩
      · simp
    · have stop : c ∈ valueStops := by
        apply stops c
        rw [skipSpace, List.dropWhile_cons_of_neg space]
        rfl
      simp [stop]

theorem Stops.outside {text : List Char} (stops : Stops text) : Outside text := by
  intro c front
  obtain ⟨rest, rfl⟩ := List.head?_eq_some_iff.mp front
  by_cases bare : isBare c = true
  · obtain ⟨_, space, inside, _⟩ := plain_of_isBare bare
    have stop : c ∈ valueStops := by
      apply stops c
      rw [Json.skipSpace_of_visible space]
      rfl
    exact absurd stop inside
  · simpa using bare

/-- In front of the end of a value, a bare word is a run without the blanks behind it. -/
theorem bareWord_run {marker run behind : List Char} (bare : ∀ c ∈ run, isBare c = true)
    (outside : Outside marker) (stops : Stops behind) :
    bareWord valueStops marker (run ++ behind) = run := by
  have inside : ∀ c ∈ run, (!valueStops.contains c) = true := by
    intro c member
    simpa using (plain_of_isBare (bare c member)).2.2.1
  have visible : ∀ c ∈ run, Text.isBlank c = false := fun c member =>
    (plain_of_isBare (bare c member)).1
  rw [bareWord, List.takeWhile_append_of_pos inside]
  split
  · exact Text.trimEnd_append visible stops.blank
  · rename_i filled
    rw [beforeMarker_run bare outside (by simpa using filled)]
    apply Text.trimEnd_append visible
    exact fun c member => stops.blank c ((prefix_beforeMarker _ _).subset member)

end Literal

end DocShapes

import DocShapes.Proofs.Arena
import Mathlib.Data.List.Forall2

/-! # Two runs side by side

One step simulates another one if it succeeds wherever the other one does, with a result and a state
that are related to the other ones. The rules take both steps apart along their sequences, so that
two runs of one program on related states are compared part by part.
-/

namespace DocShapes

variable {σ α β γ δ : Type}

/-! ## Steps on a state -/

/-- Where `one` succeeds, `other` succeeds too, and their results and the states that they leave are
related. -/
def Simulates (one : EStateM Error σ α) (left : σ) (other : EStateM Error σ β) (right : σ)
    (related : α → σ → β → σ → Prop) : Prop :=
  ∀ found after, one left = .ok found after →
    ∃ result later, other right = .ok result later ∧ related found after result later

section

variable {one : EStateM Error σ α} {other : EStateM Error σ β} {left right : σ}
  {related : α → σ → β → σ → Prop}

theorem Simulates.imp {further : α → σ → β → σ → Prop}
    (simulates : Simulates one left other right related)
    (more : ∀ found after result later, related found after result later →
      further found after result later) :
    Simulates one left other right further := by
  intro found after done
  obtain ⟨result, later, follows, holds⟩ := simulates found after done
  exact ⟨result, later, follows, more _ _ _ _ holds⟩

theorem simulates_pure {found : α} {result : β} (holds : related found left result right) :
    Simulates (pure found) left (pure result) right related := by
  intro _ _ done
  cases done
  exact ⟨result, right, rfl, holds⟩

theorem simulates_throw (error : Error) :
    Simulates (throw error) left other right related := by
  intro _ _ done
  cases done

/-- What is known of the first parts, and that they have been run, is known to the further ones. -/
theorem Simulates.bind {next : α → EStateM Error σ γ} {further : β → EStateM Error σ δ}
    {last : γ → σ → δ → σ → Prop} (first : Simulates one left other right related)
    (more : ∀ found after result later, one left = .ok found after →
      other right = .ok result later → related found after result later →
        Simulates (next found) after (further result) later last) :
    Simulates (one >>= next) left (other >>= further) right last := by
  intro found after done
  obtain ⟨middle, between, begins, ends⟩ := of_bind_eq_ok done
  obtain ⟨result, later, follows, holds⟩ := first middle between begins
  obtain ⟨final, state, finishes, reached⟩ :=
    more middle between result later begins follows holds found after ends
  exact ⟨final, state, by rw [bind_of_ok follows, finishes], reached⟩

theorem Simulates.map {view : α → γ} {view' : β → δ} {last : γ → σ → δ → σ → Prop}
    (first : Simulates one left other right related)
    (more : ∀ found after result later, related found after result later →
      last (view found) after (view' result) later) :
    Simulates (view <$> one) left (view' <$> other) right last := by
  intro found after done
  rw [map_eq_pure_bind] at done
  obtain ⟨middle, between, begins, ends⟩ := of_bind_eq_ok done
  cases ends
  obtain ⟨result, later, follows, holds⟩ := first middle _ begins
  refine ⟨view' result, later, ?_, more _ _ _ _ holds⟩
  rw [map_eq_pure_bind, bind_of_ok follows]
  rfl

theorem simulates_get {next : σ → EStateM Error σ α} {further : σ → EStateM Error σ β}
    (more : Simulates (next left) left (further right) right related) :
    Simulates (get >>= next) left (get >>= further) right related := more

theorem simulates_modify {change change' : σ → σ} {related : PUnit → σ → PUnit → σ → Prop}
    (holds : related ⟨⟩ (change left) ⟨⟩ (change' right)) :
    Simulates (modify change) left (modify change') right related := by
  intro _ _ done
  cases done
  exact ⟨⟨⟩, change' right, rfl, holds⟩

/-- Both steps make the same decision. -/
theorem simulates_ite {condition condition' : Prop} [Decidable condition] [Decidable condition']
    {one' : EStateM Error σ α} {other' : EStateM Error σ β} (same : condition ↔ condition')
    (ifTrue : condition → condition' → Simulates one left other right related)
    (ifFalse : ¬condition → ¬condition' → Simulates one' left other' right related) :
    Simulates (if condition then one else one') left (if condition' then other else other') right
      related := by
  by_cases holds : condition
  · rw [if_pos holds, if_pos (same.mp holds)]
    exact ifTrue holds (same.mp holds)
  · rw [if_neg holds, if_neg (mt same.mpr holds)]
    exact ifFalse holds (mt same.mpr holds)

end

/-- Steps over related items, each of which keeps a relation of the states. -/
theorem simulates_forM {holds : σ → σ → Prop} {linked : α → β → Prop}
    {step : α → EStateM Error σ PUnit} {step' : β → EStateM Error σ PUnit}
    (each : ∀ item item' left right, linked item item' → holds left right →
      Simulates (step item) left (step' item') right fun _ after _ later => holds after later)
    {items : List α} {items' : List β} (same : List.Forall₂ linked items items')
    {left right : σ} (start : holds left right) :
    Simulates (items.forM step) left (items'.forM step') right
      fun _ after _ later => holds after later := by
  induction same generalizing left right with
  | nil => exact simulates_pure start
  | cons first _ ih =>
    rw [List.forM, List.forM]
    exact (each _ _ left right first start).bind fun _ _ _ _ _ _ kept => ih kept

/-- Steps over related items with related results. -/
theorem simulates_mapM {holds : σ → σ → Prop} {linked : α → β → Prop} {made : γ → δ → Prop}
    {step : α → EStateM Error σ γ} {step' : β → EStateM Error σ δ}
    (each : ∀ item item' left right, linked item item' → holds left right →
      Simulates (step item) left (step' item') right
        fun found after result later => made found result ∧ holds after later)
    {items : List α} {items' : List β} (same : List.Forall₂ linked items items')
    {left right : σ} (start : holds left right) :
    Simulates (items.mapM step) left (items'.mapM step') right
      fun found after results later => List.Forall₂ made found results ∧ holds after later := by
  induction same generalizing left right with
  | nil =>
    rw [List.mapM_nil, List.mapM_nil]
    exact simulates_pure ⟨.nil, start⟩
  | cons first _ ih =>
    rw [List.mapM_cons, List.mapM_cons]
    refine (each _ _ left right first start).bind fun _ _ _ _ _ _ kept => ?_
    refine (ih kept.2).bind fun _ _ _ _ _ _ others => ?_
    exact simulates_pure ⟨.cons kept.1 others.1, others.2⟩

/-! ## Results without a state -/

/-- Where `one` is a result, `other` is one too, and the two are related. -/
def Echoes (one : Except Error α) (other : Except Error β) (related : α → β → Prop) : Prop :=
  ∀ found, one = .ok found → ∃ result, other = .ok result ∧ related found result

section

variable {one : Except Error α} {other : Except Error β} {related : α → β → Prop}

theorem echoes_pure {found : α} {result : β} (holds : related found result) :
    Echoes (pure found) (pure result) related := by
  intro _ done
  cases done
  exact ⟨result, rfl, holds⟩

theorem echoes_error (error : Error) : Echoes (.error error) other related := by
  intro _ done
  cases done

theorem Echoes.bind {next : α → Except Error γ} {further : β → Except Error δ}
    {last : γ → δ → Prop} (first : Echoes one other related)
    (more : ∀ found result, one = .ok found → other = .ok result → related found result →
      Echoes (next found) (further result) last) :
    Echoes (one >>= next) (other >>= further) last := by
  intro final done
  cases found : one with
  | error error =>
    rw [found] at done
    cases done
  | ok middle =>
    obtain ⟨result, follows, holds⟩ := first middle found
    rw [found] at done
    rw [follows]
    exact more middle result found follows holds final done

theorem Echoes.imp {further : α → β → Prop} (echoes : Echoes one other related)
    (more : ∀ found result, related found result → further found result) :
    Echoes one other further := by
  intro found done
  obtain ⟨result, follows, holds⟩ := echoes found done
  exact ⟨result, follows, more _ _ holds⟩

theorem echoes_mapM {linked : γ → δ → Prop} {step : γ → Except Error α} {step' : δ → Except Error β}
    (each : ∀ item item', linked item item' → Echoes (step item) (step' item') related)
    {items : List γ} {items' : List δ} (same : List.Forall₂ linked items items') :
    Echoes (items.mapM step) (items'.mapM step') (List.Forall₂ related) := by
  induction same with
  | nil =>
    rw [List.mapM_nil, List.mapM_nil]
    exact echoes_pure .nil
  | cons first _ ih =>
    rw [List.mapM_cons, List.mapM_cons]
    refine (each _ _ first).bind fun _ _ _ _ kept => ?_
    exact ih.bind fun _ _ _ _ others => echoes_pure (.cons kept others)

theorem Echoes.ofExcept {left right : Catalog} (echoes : Echoes one other related) :
    Simulates (Catalog.ofExcept one) left (Catalog.ofExcept other) right
      fun found after result later => related found result ∧ after = left ∧ later = right := by
  intro found after done
  cases made : one with
  | error error =>
    rw [made] at done
    cases done
  | ok middle =>
    obtain ⟨result, follows, holds⟩ := echoes middle made
    rw [made] at done
    cases done
    exact ⟨result, right, by rw [follows]; rfl, holds, rfl, rfl⟩

end

/-! ## Lists -/

/-- Views that related items have in common. -/
theorem map_eq_of_forall₂ {α β γ : Type} {related : α → β → Prop} {view : α → γ} {view' : β → γ}
    {items : List α} {items' : List β} (same : List.Forall₂ related items items')
    (each : ∀ item item', related item item' → view' item' = view item) :
    items'.map view' = items.map view := by
  induction same with
  | nil => rfl
  | cons first _ ih => rw [List.map_cons, List.map_cons, each _ _ first, ih]

theorem any_eq_of_forall₂ {related : α → β → Prop} {test : α → Bool} {test' : β → Bool}
    {items : List α} {items' : List β} (same : List.Forall₂ related items items')
    (each : ∀ item item', related item item' → test' item' = test item) :
    items'.any test' = items.any test := by
  induction same with
  | nil => rfl
  | cons first _ ih => rw [List.any_cons, List.any_cons, each _ _ first, ih]

theorem map_eq_of_rel {α β γ : Type} {related : α → β → Prop} {view : α → γ} {view' : β → γ}
    {item : Option α} {item' : Option β} (same : Option.Rel related item item')
    (each : ∀ item item', related item item' → view' item' = view item) :
    item'.map view' = item.map view := by
  cases same with
  | none => rfl
  | some own => exact congrArg some (each _ _ own)

/-- Each item on the right has a related one on the left. -/
theorem exists_of_forall₂ {related : α → β → Prop} {items : List α} {items' : List β}
    (same : List.Forall₂ related items items') {item' : β} (member : item' ∈ items') :
    ∃ item ∈ items, related item item' := by
  induction same with
  | nil => cases member
  | @cons first _ _ _ own _ ih =>
    rcases List.mem_cons.mp member with rfl | later
    · exact ⟨first, List.mem_cons_self, own⟩
    · obtain ⟨item, inside, twin⟩ := ih later
      exact ⟨item, List.mem_cons_of_mem _ inside, twin⟩

/-- Related items are items of their list. -/
theorem forall₂_mem {related : α → β → Prop} {items : List α} {items' : List β}
    (same : List.Forall₂ related items items') :
    List.Forall₂ (fun item item' => item ∈ items ∧ related item item') items items' := by
  induction same with
  | nil => exact .nil
  | cons first _ ih =>
    exact .cons ⟨List.mem_cons_self, first⟩
      (ih.imp fun _ _ own => ⟨List.mem_cons_of_mem _ own.1, own.2⟩)

/-- What holds of any two items of a list holds of the related ones. -/
theorem pairwise_of_forall₂ {related : α → β → Prop} {first : α → α → Prop} {second : β → β → Prop}
    {items : List α} {items' : List β} (same : List.Forall₂ related items items')
    (each : ∀ item other item' other', item ∈ items → related item item' → related other other' →
      first item other → second item' other') (holds : items.Pairwise first) :
    items'.Pairwise second := by
  induction same with
  | nil => exact .nil
  | @cons item item' items items' own rest ih =>
    obtain ⟨here, further⟩ := List.pairwise_cons.mp holds
    refine .cons (fun other' member => ?_) (ih (fun _ _ _ _ inside =>
      each _ _ _ _ (List.mem_cons_of_mem _ inside)) further)
    obtain ⟨other, inside, twin⟩ := exists_of_forall₂ rest member
    exact each item other item' other' List.mem_cons_self own twin (here other inside)

theorem forall₂_insertBy {related : α → β → Prop} {before : α → α → Bool} {before' : β → β → Bool}
    (agree : ∀ item item' other other', related item item' → related other other' →
      before item other = before' item' other') {item : α} {item' : β} (own : related item item')
    {items : List α} {items' : List β} (same : List.Forall₂ related items items') :
    List.Forall₂ related (insertBy before item items) (insertBy before' item' items') := by
  induction same with
  | nil => exact .cons own .nil
  | cons first rest ih =>
    rw [insertBy, insertBy, agree _ _ _ _ first own]
    split
    · exact .cons first ih
    · exact .cons own (.cons first rest)

/-- Related items sorted by what they share stay related. -/
theorem forall₂_sortBy {related : α → β → Prop} {before : α → α → Bool} {before' : β → β → Bool}
    (agree : ∀ item item' other other', related item item' → related other other' →
      before item other = before' item' other')
    {items : List α} {items' : List β} (same : List.Forall₂ related items items') :
    List.Forall₂ related (sortBy before items) (sortBy before' items') := by
  induction same with
  | nil => exact .nil
  | cons first _ ih => exact forall₂_insertBy agree first ih

/-! ## Maps -/

namespace OrderedMap

variable {κ ι : Type} {keyed : κ → ι → Prop} {related : α → β → Prop}

/-- The same entries in the same order, up to how keys and values are related. -/
def Parallel (keyed : κ → ι → Prop) (related : α → β → Prop) (left : OrderedMap κ α)
    (right : OrderedMap ι β) : Prop :=
  List.Forall₂ (fun entry other => keyed entry.1 other.1 ∧ related entry.2 other.2)
    left.entries right.entries

theorem parallel_empty : Parallel keyed related (empty : OrderedMap κ α) (empty : OrderedMap ι β) :=
  .nil

theorem Parallel.keys {left : OrderedMap κ α} {right : OrderedMap κ β}
    (parallel : Parallel Eq related left right) : left.keys = right.keys := by
  have same : List.Forall₂ Eq left.keys right.keys :=
    List.rel_map (fun _ _ entry => entry.1) parallel
  rwa [List.forall₂_eq_eq_eq] at same

theorem Parallel.values {left : OrderedMap κ α} {right : OrderedMap ι β}
    (parallel : Parallel keyed related left right) :
    List.Forall₂ related left.values right.values :=
  List.rel_map (fun _ _ entry => entry.2) parallel

theorem biUnique_eq : Relator.BiUnique (Eq : κ → κ → Prop) :=
  ⟨fun _ _ _ first second => first.trans second.symm,
    fun _ _ _ first second => first.symm.trans second⟩

variable [DecidableEq κ]

/-- Each key has a counterpart. -/
theorem Parallel.exists_key {left : OrderedMap κ α} {right : OrderedMap ι β}
    (parallel : Parallel keyed related left right) {key : κ} {value : α}
    (found : left.get? key = some value) : ∃ key', keyed key key' := by
  replace found : (key, value) ∈ left.entries := mem_entries_of_get? found
  obtain ⟨entries⟩ := left
  obtain ⟨others⟩ := right
  change List.Forall₂ _ entries others at parallel
  induction parallel with
  | nil => cases found
  | @cons entry other _ _ first _ ih =>
    rcases List.mem_cons.mp found with rfl | later
    · exact ⟨other.1, first.1⟩
    · exact ih later

variable [DecidableEq ι]

/-- Keys that are one another's only counterparts have related values. -/
theorem Parallel.get? (unique : Relator.BiUnique keyed) {left : OrderedMap κ α}
    {right : OrderedMap ι β} (parallel : Parallel keyed related left right) {key : κ} {key' : ι}
    (same : keyed key key') : Option.Rel related (left.get? key) (right.get? key') := by
  obtain ⟨entries⟩ := left
  obtain ⟨others⟩ := right
  change List.Forall₂ _ entries others at parallel
  induction parallel with
  | nil => exact .none
  | @cons entry other _ _ first _ ih =>
    have own : entry.1 = key ↔ other.1 = key' := Relator.rel_eq unique first.1 same
    simp only [OrderedMap.get?, find] at ih ⊢
    by_cases here : entry.1 = key
    · rw [if_pos here, if_pos (own.mp here)]
      exact .some first.2
    · rw [if_neg here, if_neg (mt own.mpr here)]
      exact ih

theorem Parallel.set (unique : Relator.BiUnique keyed) {left : OrderedMap κ α}
    {right : OrderedMap ι β} (parallel : Parallel keyed related left right) {key : κ} {key' : ι}
    (same : keyed key key') {value : α} {value' : β} (holds : related value value') :
    Parallel keyed related (left.set key value) (right.set key' value') := by
  obtain ⟨entries⟩ := left
  obtain ⟨others⟩ := right
  change List.Forall₂ _ entries others at parallel
  change List.Forall₂ _ (put key value entries) (put key' value' others)
  induction parallel with
  | nil => exact .cons ⟨same, holds⟩ .nil
  | @cons entry other _ _ first rest ih =>
    have own : entry.1 = key ↔ other.1 = key' := Relator.rel_eq unique first.1 same
    rw [put, put]
    by_cases here : entry.1 = key
    · rw [if_pos here, if_pos (own.mp here)]
      exact .cons ⟨first.1, holds⟩ rest
    · rw [if_neg here, if_neg (mt own.mpr here)]
      exact .cons first ih

theorem parallel_ofList (unique : Relator.BiUnique keyed) {pairs : List (κ × α)}
    {others : List (ι × β)}
    (same : List.Forall₂ (fun entry other => keyed entry.1 other.1 ∧ related entry.2 other.2)
      pairs others) :
    Parallel keyed related (ofList pairs) (ofList others) :=
  List.rel_foldl (fun _ _ maps _ _ pair => maps.set unique pair.1 pair.2) parallel_empty same

end OrderedMap

end DocShapes

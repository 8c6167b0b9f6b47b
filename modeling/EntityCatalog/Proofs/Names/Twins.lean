import EntityCatalog.Proofs.Address.Effects

/-!
# Registries that differ in their caches alone

Two registries with faithful caches over the same rows, with the same source of ids, give the same
answer to whatever they are asked, and differ in nothing but their caches afterwards. What only finds
names leaves each of them a twin of what it was.
-/

namespace EntityCatalog

/-- Two results with one answer, whose states are related. -/
structure Alike {σ α : Type} (R : σ → σ → Prop) (result result' : α × σ) : Prop where
  answer : result.1 = result'.1
  after : R result.2 result'.2

/-- Two results with one answer, each of whose states is related to the one before it. -/
structure Glimpse {σ α : Type} (R : σ → σ → Prop) (state state' : σ) (result result' : α × σ) :
    Prop where
  answer : result.1 = result'.1
  kept : R state result.2
  kept' : R state' result'.2

section

variable {σ α β : Type} {R : σ → σ → Prop} {state state' mid mid' : σ} {result result' : α × σ}

/-- Two results that are alike, taken apart. -/
theorem Alike.exists_eq (h : Alike R result result') :
    ∃ answer after after', result = (answer, after) ∧ result' = (answer, after') ∧ R after after' :=
  ⟨result.1, result.2, result'.2, rfl, Prod.ext h.answer.symm rfl, h.after⟩

/-- What a glimpse answers, and the states after it. -/
theorem Glimpse.exists_eq (h : Glimpse R state state' result result') :
    ∃ answer after after', result = (answer, after) ∧ result' = (answer, after') ∧ R state after ∧
      R state' after' :=
  ⟨result.1, result.2, result'.2, rfl, Prod.ext h.answer.symm rfl, h.kept, h.kept'⟩

/-- Wrapping the answers up leaves results alike. -/
theorem Alike.map (f : α → β) (h : Alike R result result') :
    Alike R (result.map f id) (result'.map f id) :=
  ⟨congrArg f h.answer, h.after⟩

/-- Wrapping the answers up leaves a glimpse one. -/
theorem Glimpse.map (f : α → β) (h : Glimpse R state state' result result') :
    Glimpse R state state' (result.map f id) (result'.map f id) :=
  ⟨congrArg f h.answer, h.kept, h.kept'⟩

variable [IsTrans σ R]

/-- A glimpse after states that are related to those before it. -/
theorem Glimpse.of_kept (hmid : R state mid) (hmid' : R state' mid')
    (h : Glimpse R mid mid' result result') : Glimpse R state state' result result' :=
  ⟨h.answer, IsTrans.trans _ _ _ hmid h.kept, IsTrans.trans _ _ _ hmid' h.kept'⟩

/-- A glimpse at related states leaves related states. -/
theorem Glimpse.alike [Std.Symm R] (h : Glimpse R state state' result result')
    (hstates : R state state') : Alike R result result' :=
  ⟨h.answer, IsTrans.trans _ _ _ (Std.Symm.symm _ _ h.kept) (IsTrans.trans _ _ _ hstates h.kept')⟩

end

namespace Names

/-- Two registries that differ in nothing but their caches, both of which are faithful. -/
structure Twins (names names' : Names) : Prop where
  ledger : names.ledger = names'.ledger
  faithful : names.Faithful
  faithful' : names'.Faithful

namespace Twins

variable {names names' names'' : Names}

/-- A registry with a faithful cache is a twin of itself. -/
theorem refl (h : names.Faithful) : Twins names names := ⟨rfl, h, h⟩

/-- Twins are twins either way. -/
theorem symm (h : Twins names names') : Twins names' names := ⟨h.ledger.symm, h.faithful', h.faithful⟩

/-- A twin of a twin is a twin. -/
theorem trans (h : Twins names names') (h' : Twins names' names'') : Twins names names'' :=
  ⟨h.ledger.trans h'.ledger, h.faithful, h'.faithful'⟩

instance : Std.Symm Twins := ⟨fun _ _ => symm⟩

instance : IsTrans Names Twins := ⟨fun _ _ _ => trans⟩

/-- Twins have the same rows. -/
theorem rows (h : Twins names names') : names.rows = names'.rows := congrArg Ledger.rows h.ledger

/-- Twins have the same source of ids. -/
theorem ids (h : Twins names names') : names.ids = names'.ids := congrArg Ledger.ids h.ledger

/-- A registry that was read is a twin of what it was. -/
theorem of_read (h : names.Faithful) (hread : names.Read names') : Twins names names' := by
  refine ⟨?_, h, hread.faithful⟩
  rw [Names.ledger, Names.ledger, hread.rows, hread.ids]

/-- Twins over other rows are twins if the name rows stay as they are. -/
theorem withRows (h : Twins names names') {rows : Rows}
    (hrows : ∀ name, rows.get? (Layout.nameKey name) = names.rows.get? (Layout.nameKey name)) :
    Twins { names with rows } { names' with rows } where
  ledger := by rw [Names.ledger, Names.ledger, h.ids]
  faithful := h.faithful.mono (Cache.Within.refl _) fun name _ _ => hrows name
  faithful' := by
    refine h.faithful'.mono (Cache.Within.refl _) fun name _ _ => ?_
    rw [← h.rows]
    exact hrows name

end Twins

/-- Two results that are the same without a cache are alike. -/
theorem Transparent.alike {α : Type} {result result' : α × Names} {plain : α × Ledger}
    (h : Transparent result plain) (h' : Transparent result' plain) : Alike Twins result result' :=
  ⟨h.answer.trans h'.answer.symm, h.ledger.trans h'.ledger.symm, h.faithful, h'.faithful⟩

namespace Twins

variable {names names' : Names}

/-- Twins resolve a name alike. -/
theorem resolve (h : Twins names names') (name : String) :
    Alike Twins (names.resolve name) (names'.resolve name) := by
  have hsecond := resolve_transparent h.faithful' name
  rw [← h.ledger] at hsecond
  exact (resolve_transparent h.faithful name).alike hsecond

/-- Twins rename alike. -/
theorem renameWith (h : Twins names names') (old new : String) (replaced : Option UInt64)
    {along : List Change} (halong : SparesNames along) :
    Alike Twins (names.renameWith old new replaced along)
      (names'.renameWith old new replaced along) := by
  have hsecond := renameWith_transparent h.faithful' old new replaced halong
  rw [← h.ledger] at hsecond
  exact (renameWith_transparent h.faithful old new replaced halong).alike hsecond

/-- Twins serve any request alike. -/
theorem serve (h : Twins names names') {request : Request} (hspare : request.SparesNames) :
    Alike Twins (names.serve request) (names'.serve request) := by
  have hsecond := serve_transparent h.faithful' hspare
  rw [← h.ledger] at hsecond
  exact (serve_transparent h.faithful hspare).alike hsecond

/-- Twins find the same for a name, and only look. -/
theorem find? (h : Twins names names') (name : String) :
    Glimpse Twins names names' (names.find? name) (names'.find? name) where
  answer := by
    rw [(find?_transparent h.faithful name).answer, (find?_transparent h.faithful' name).answer, h.ledger]
  kept := of_read h.faithful (find?_read h.faithful name)
  kept' := of_read h.faithful' (find?_read h.faithful' name)

end Twins

/-- Whether a request reads. -/
def Request.isRead : Request → Bool
  | find _ => true
  | storedName _ => true
  | highestId => true
  | entries => true
  | _ => false

/-- A registry is a twin of what it was before it served a read. -/
theorem twins_of_isRead {names : Names} (h : names.Faithful) {request : Request}
    (hread : request.isRead = true) : Twins names (names.serve request).2 := by
  cases request with
  | find name => exact .of_read h (find?_read h name)
  | storedName id => exact .refl h
  | highestId => exact .refl h
  | entries => exact .refl h
  | _ => exact absurd hread Bool.false_ne_true

end Names

namespace Address

open Names (Twins)

variable {names names' : Names}

/-! ## Keys and scoped names -/

/-- Twins resolve steps alike. -/
theorem resolveSteps_alike (steps : List (Kind × String)) (above : List UInt64)
    (h : Twins names names') :
    Alike Twins (resolveSteps steps above names) (resolveSteps steps above names') := by
  induction steps generalizing above names names' with
  | nil => exact ⟨rfl, h⟩
  | cons step rest ih =>
    obtain ⟨kind, name⟩ := step
    obtain ⟨answer, after, after', heq, heq', hafter⟩ :=
      (h.resolve (scopedName above kind name)).exists_eq
    rw [resolveSteps, resolveSteps, heq, heq']
    cases answer with
    | error fault => exact ⟨rfl, hafter⟩
    | ok id => exact ih (above ++ [id]) hafter

/-- Twins find the same ids along steps, and only look. -/
theorem findSteps_glimpse (steps : List (Kind × String)) (above : List UInt64)
    (h : Twins names names') :
    Glimpse Twins names names' (findSteps steps above names) (findSteps steps above names') := by
  induction steps generalizing above names names' with
  | nil => exact ⟨rfl, .refl h.faithful, .refl h.faithful'⟩
  | cons step rest ih =>
    obtain ⟨kind, name⟩ := step
    have hfind := h.find? (scopedName above kind name)
    obtain ⟨answer, after, after', heq, heq', hkept, hkept'⟩ := hfind.exists_eq
    rw [findSteps, findSteps, heq, heq']
    rcases answer with fault | _ | id
    · exact ⟨rfl, hkept, hkept'⟩
    · exact ⟨rfl, hkept, hkept'⟩
    · exact .of_kept hkept hkept' (ih (above ++ [id]) (hkept.symm.trans (h.trans hkept')))

/-- Twins resolve a key alike. -/
theorem resolveKey_alike (address : Address) (h : Twins names names') :
    Alike Twins (address.resolveKey names) (address.resolveKey names') := by
  rw [resolveKey, resolveKey]
  cases address.levels with
  | error fault => exact ⟨rfl, h⟩
  | ok kinds =>
    obtain ⟨answer, after, after', heq, heq', hafter⟩ :=
      (resolveSteps_alike (address.steps kinds) [] h).exists_eq
    dsimp only
    rw [heq, heq']
    cases answer <;> exact ⟨rfl, hafter⟩

/-- Twins find the same key, and only look. -/
theorem findKey_glimpse (address : Address) (h : Twins names names') :
    Glimpse Twins names names' (address.findKey names) (address.findKey names') := by
  rw [findKey, findKey]
  cases address.levels with
  | error fault => exact ⟨rfl, .refl h.faithful, .refl h.faithful'⟩
  | ok kinds =>
    obtain ⟨answer, after, after', heq, heq', hkept, hkept'⟩ :=
      (findSteps_glimpse (address.steps kinds) [] h).exists_eq
    dsimp only
    rw [heq, heq']
    rcases answer with fault | _ | ids <;> exact ⟨rfl, hkept, hkept'⟩

/-- Twins find the same stored name, and only look. -/
theorem findName_glimpse (address : Address) (h : Twins names names') :
    Glimpse Twins names names' (address.findName names) (address.findName names') := by
  rw [findName, findName]
  cases address.levels with
  | error fault => exact ⟨rfl, .refl h.faithful, .refl h.faithful'⟩
  | ok kinds =>
    dsimp only
    split
    · exact ⟨rfl, .refl h.faithful, .refl h.faithful'⟩
    · obtain ⟨answer, after, after', heq, heq', hkept, hkept'⟩ :=
        (findSteps_glimpse (address.levelSteps kinds) [] h).exists_eq
      rw [heq, heq']
      rcases answer with fault | _ | ids <;> exact ⟨rfl, hkept, hkept'⟩

end Address

end EntityCatalog

import EntityCatalog.Proofs.Address.Trail
import EntityCatalog.Proofs.Path

/-!
# Who lies beneath whom

The line of an address is its names from the top down, each with its kind. An address whose path
passes the checks is told by its line. Another such address lies at or beneath it exactly when its
line starts with that of the upper one, so the order of lines is the hierarchy of entities.
-/

namespace EntityCatalog

/-- Entities of one kind lie beneath those of another when their levels go through it. -/
theorem Kind.isBeneath_iff {upper lower : Kind} {above levels : List Kind}
    (habove : upper.ancestors = some above) (hlevels : lower.ancestors = some levels) :
    upper.isBeneath lower = true ↔ above ++ [upper] <+: levels := by
  cases upper <;> cases habove <;> cases lower <;> cases hlevels <;> decide

/-- A path with the wildcard for its leaf is a wildcard path. -/
@[simp] theorem Path.isWildcard_wildcard (levels : List String) :
    (Path.wildcard levels).isWildcard = true := by
  simp [Path.wildcard, Path.isWildcard]

namespace Address

/-- The entity at the lower address lies beneath the one at the upper address, at any depth. -/
def Beneath (upper lower : Address) : Prop :=
  upper.kind.isBeneath lower.kind = true ∧ upper.path.segments <+: lower.path.levels

instance (upper lower : Address) : Decidable (Beneath upper lower) :=
  inferInstanceAs (Decidable (_ ∧ _))

/-- What the checks of a path ask for. -/
theorem levels_eq_ok_iff (address : Address) (kinds : List Kind) :
    address.levels = .ok kinds ↔
      address.kind.ancestors = some kinds ∧ address.path.levels.length = kinds.length ∧
        address.path.levels.all isConcrete = true ∧ address.path.leaf ≠ "" := by
  rw [levels]
  cases address.kind.ancestors with
  | none => simp
  | some kinds' =>
    dsimp only
    by_cases hlength : address.path.levels.length = kinds'.length
    · rw [if_neg (not_not_intro hlength)]
      by_cases hall : address.path.levels.all isConcrete = true
      · rw [if_neg (by simp [hall])]
        by_cases hleaf : address.path.leaf = ""
        · rw [if_pos hleaf]
          simp [hleaf]
        · rw [if_neg hleaf]
          simp only [Except.ok.injEq, Option.some.injEq]
          exact ⟨fun h => ⟨h, h ▸ hlength, hall, hleaf⟩, fun h => h.1⟩
      · rw [if_pos (by simp [hall])]
        simp [hall]
    · rw [if_pos hlength]
      simp only [reduceCtorEq, false_iff]
      rintro ⟨heq, hlevels, -⟩
      rw [Option.some.inj heq] at hlength
      exact hlength hlevels

/-- What the checks of a wildcard path ask for. -/
theorem levels_wildcard_eq_ok_iff (names : List String) (kind : Kind) (kinds : List Kind) :
    levels ⟨.wildcard names, kind⟩ = .ok kinds ↔
      kind.ancestors = some kinds ∧ names.length = kinds.length ∧
        ∀ name ∈ names, isConcrete name = true := by
  rw [levels_eq_ok_iff]
  simp [Path.wildcard, wildcardName]

/-- The kinds of the levels of an address. -/
def kinds (address : Address) : List Kind := address.kind.ancestors.getD []

/-- The names of an address from the top down, its own included, with their kinds. -/
def line (address : Address) : List (Kind × String) :=
  address.levelSteps address.kinds ++ [(address.kind, address.path.leaf)]

/-- An address that passes the checks has the kinds that they answer. -/
theorem kinds_of_levels {address : Address} {kinds : List Kind} (h : address.levels = .ok kinds) :
    address.kinds = kinds := by
  rw [Address.kinds, ((levels_eq_ok_iff address kinds).mp h).1, Option.getD_some]

/-- An address whose path passes the checks: that of one entity, or a wildcard. -/
def Fitting (address : Address) : Prop := address.levels = .ok address.kinds

/-- An address that passes the checks has one level for each kind above it. -/
theorem fitting_of_levels {address : Address} {kinds : List Kind} (h : address.levels = .ok kinds) :
    address.Fitting := by
  rw [Fitting, kinds_of_levels h, h]

/-- An address whose path passes the checks and stands for one entity. -/
structure Single (address : Address) : Prop where
  levels : address.levels = .ok address.kinds
  concrete : address.path.isWildcard = false

/-- A path that passes the checks stands for one entity unless it is a wildcard. -/
theorem single_of_levels {address : Address} {kinds : List Kind} (h : address.levels = .ok kinds)
    (hconcrete : address.path.isWildcard = false) : address.Single :=
  ⟨fitting_of_levels h, hconcrete⟩

namespace Fitting

variable {address : Address}

/-- The kinds of a fitting address are the ancestors of its own kind. -/
theorem ancestors (h : address.Fitting) : address.kind.ancestors = some address.kinds :=
  ((levels_eq_ok_iff address address.kinds).mp h).1

/-- A fitting address has as many levels as kinds above it. -/
theorem length_levels (h : address.Fitting) : address.path.levels.length = address.kinds.length :=
  ((levels_eq_ok_iff address address.kinds).mp h).2.1

/-- A fitting address lies as deep as there are kinds above it. -/
theorem depth (h : address.Fitting) : address.kind.depth = some address.kinds.length := by
  rw [Kind.depth, h.ancestors, Option.map_some]

/-- The steps over the levels of a fitting address go through its kinds. -/
theorem map_fst_levelSteps (h : address.Fitting) :
    (address.levelSteps address.kinds).map Prod.fst = address.kinds :=
  List.map_fst_zip (Nat.le_of_eq h.length_levels.symm)

/-- The steps over the levels of a fitting address go through the names of its levels. -/
theorem map_snd_levelSteps (h : address.Fitting) :
    (address.levelSteps address.kinds).map Prod.snd = address.path.levels :=
  List.map_snd_zip (Nat.le_of_eq h.length_levels)

/-- A fitting address has one step for each kind above it. -/
theorem length_levelSteps (h : address.Fitting) :
    (address.levelSteps address.kinds).length = address.kinds.length := by
  rw [← List.length_map (f := Prod.fst), h.map_fst_levelSteps]

end Fitting

/-- The names in the key of a wildcard are those of its levels. -/
theorem steps_of_wildcard (address : Address) (h : address.path.isWildcard = true)
    (kinds : List Kind) : address.steps kinds = address.levelSteps kinds := by
  rw [steps, h, if_pos rfl, List.append_nil]

namespace Single

variable {address upper lower : Address}

/-- An address of a single entity is fitting. -/
theorem fitting (h : address.Single) : address.Fitting := h.levels

/-- The kinds of an address of a single entity are the ancestors of its own kind. -/
theorem ancestors (h : address.Single) : address.kind.ancestors = some address.kinds :=
  h.fitting.ancestors

/-- An address of a single entity has as many levels as kinds above it. -/
theorem length_levels (h : address.Single) : address.path.levels.length = address.kinds.length :=
  h.fitting.length_levels

/-- An address of a single entity lies as deep as there are kinds above it. -/
theorem depth (h : address.Single) : address.kind.depth = some address.kinds.length :=
  h.fitting.depth

/-- The key of a single entity is found along its whole line, its leaf included. -/
theorem steps_eq_line (h : address.Single) : address.steps address.kinds = address.line := by
  rw [steps, line, h.concrete]
  simp

/-- The line of a single entity goes through the kinds above it and ends with its own. -/
theorem map_fst_line (h : address.Single) :
    address.line.map Prod.fst = address.kinds ++ [address.kind] := by
  rw [line, List.map_append, h.fitting.map_fst_levelSteps]
  rfl

/-- The line of a single entity goes through all the segments of its path. -/
theorem map_snd_line (h : address.Single) : address.line.map Prod.snd = address.path.segments := by
  rw [line, List.map_append, h.fitting.map_snd_levelSteps]
  rfl

/-- The line of a single entity is longer by one than the kinds above it. -/
theorem length_line (h : address.Single) : address.line.length = address.kinds.length + 1 := by
  rw [← List.length_map (f := Prod.fst), h.map_fst_line, List.length_append, List.length_singleton]

end Single

/-- Two lists of pairs are equal when their parts are. -/
theorem eq_of_map_eq {α β : Type} {list list' : List (α × β)}
    (hfst : list.map Prod.fst = list'.map Prod.fst) (hsnd : list.map Prod.snd = list'.map Prod.snd) :
    list = list' := by
  rw [← List.zip_unzip list, ← List.zip_unzip list', List.unzip_eq_map, List.unzip_eq_map, hfst, hsnd]

/-- Elements beyond the other list are not paired. -/
theorem zip_append_left {α β : Type} {list : List α} {list' : List β}
    (h : list.length = list'.length) (more : List α) : (list ++ more).zip list' = list.zip list' := by
  calc (list ++ more).zip list'
      = (list ++ more).zip (list' ++ []) := by rw [List.append_nil]
    _ = list.zip list' := by rw [List.zip_append h, List.zip_nil_right, List.append_nil]

/-- The names in a key with their kinds: those of the levels, and unless it is the wildcard the name of
the entity. -/
theorem Fitting.steps_eq_zip {address : Address} (h : address.Fitting) :
    address.steps address.kinds = (address.kinds ++ [address.kind]).zip
      (if address.path.isWildcard then address.path.levels else address.path.segments) := by
  have hlength := h.length_levels.symm
  cases hwildcard : address.path.isWildcard with
  | true => rw [steps_of_wildcard address hwildcard, if_pos rfl, zip_append_left hlength, levelSteps]
  | false =>
    rw [(single_of_levels h hwildcard).steps_eq_line, line, if_neg Bool.false_ne_true, Path.segments,
      List.zip_append hlength, levelSteps]
    rfl

/-- An address that passes the checks is told by its line. -/
theorem line_injective {address address' : Address} (h : address.Single) (h' : address'.Single)
    (hline : address.line = address'.line) : address = address' := by
  have hsegments : address.path.segments = address'.path.segments := by
    rw [← h.map_snd_line, ← h'.map_snd_line, hline]
  have hkinds : address.kinds ++ [address.kind] = address'.kinds ++ [address'.kind] := by
    rw [← h.map_fst_line, ← h'.map_fst_line, hline]
  obtain ⟨path, kind⟩ := address
  obtain ⟨path', kind'⟩ := address'
  have hpath : path = path' := by
    rw [← Path.ofSegments_segments path, ← Path.ofSegments_segments path', hsegments]
  have hkind : kind = kind' := List.singleton_inj.mp (List.append_inj_right' hkinds rfl)
  rw [hpath, hkind]

/-- The kind of the last name of a first part of a line is the one that is found on the way down. -/
theorem line_prefix_levelSteps_iff {upper lower : Address} (hupper : upper.Single)
    (hlower : lower.Fitting) :
    upper.line <+: lower.levelSteps lower.kinds ↔ upper.Beneath lower := by
  have hfst := hlower.map_fst_levelSteps
  have hsnd := hlower.map_snd_levelSteps
  rw [Beneath, Kind.isBeneath_iff hupper.ancestors hlower.ancestors]
  constructor
  · intro hstem
    have hkinds := hstem.map Prod.fst
    have hnames := hstem.map Prod.snd
    rw [hupper.map_fst_line, hfst] at hkinds
    rw [hupper.map_snd_line, hsnd] at hnames
    exact ⟨hkinds, hnames⟩
  · rintro ⟨⟨kinds, hkinds⟩, ⟨names, hnames⟩⟩
    have hlength : kinds.length = names.length := by
      have hlevels := hlower.length_levels
      rw [← hkinds, ← hnames, List.length_append, List.length_append, ← hupper.map_fst_line,
        ← hupper.map_snd_line, List.length_map, List.length_map] at hlevels
      omega
    refine ⟨kinds.zip names, eq_of_map_eq ?_ ?_⟩
    · rw [List.map_append, List.map_fst_zip (Nat.le_of_eq hlength), hupper.map_fst_line, hkinds, hfst]
    · rw [List.map_append, List.map_snd_zip (Nat.le_of_eq hlength.symm), hupper.map_snd_line, hnames,
        hsnd]

/-- A line starts with another when its address is the other one or lies beneath it. -/
theorem line_prefix_iff {upper lower : Address} (hupper : upper.Single) (hlower : lower.Single) :
    upper.line <+: lower.line ↔ lower = upper ∨ upper.Beneath lower := by
  have hline : lower.line = lower.levelSteps lower.kinds ++ [(lower.kind, lower.path.leaf)] := rfl
  rw [← line_prefix_levelSteps_iff hupper hlower.fitting]
  constructor
  · intro hstem
    rw [hline, List.prefix_concat_iff, ← hline] at hstem
    rcases hstem with heq | hstem
    · exact Or.inl (line_injective hupper hlower heq).symm
    · exact Or.inr hstem
  · rintro (rfl | hstem)
    · exact List.prefix_refl _
    · exact hstem.trans (List.prefix_append _ _)

/-- The names in a key start with the line of an entity when they are those of its address or of one
beneath it, be that a wildcard. -/
theorem line_prefix_steps_iff {upper lower : Address} (hupper : upper.Single)
    (hlower : lower.Fitting) :
    upper.line <+: lower.steps lower.kinds ↔ lower = upper ∨ upper.Beneath lower := by
  cases hwildcard : lower.path.isWildcard with
  | false =>
    have hsingle := single_of_levels hlower hwildcard
    rw [hsingle.steps_eq_line]
    exact line_prefix_iff hupper hsingle
  | true =>
    rw [steps_of_wildcard lower hwildcard, line_prefix_levelSteps_iff hupper hlower]
    refine (or_iff_right ?_).symm
    rintro rfl
    exact absurd (hwildcard.symm.trans hupper.concrete) (by simp)

/-! ## Renaming a level -/

/-- The address with another name at the given depth: its own name, or that of a level. -/
def withSegment (address : Address) (depth : Nat) (name : String) : Address :=
  ⟨.ofSegments (address.path.segments.set depth name), address.kind⟩

/-- Another name for a segment leaves the kinds as they are. -/
theorem kinds_withSegment (address : Address) (depth : Nat) (name : String) :
    (address.withSegment depth name).kinds = address.kinds := rfl

/-- With the same ids, the address with another name has the same key, if both are wildcards or
neither is. -/
theorem keyOf_withSegment {address : Address} {depth : Nat} {name : String}
    (h : (address.withSegment depth name).path.isWildcard = address.path.isWildcard) :
    (address.withSegment depth name).keyOf = address.keyOf := by
  funext ids
  rw [keyOf, keyOf, h]
  rfl

/-- Another name for a segment replaces that segment alone. -/
theorem segments_withSegment (address : Address) (depth : Nat) (name : String) :
    (address.withSegment depth name).path.segments = address.path.segments.set depth name := by
  apply Path.segments_ofSegments
  intro hnil
  have hlength := congrArg List.length hnil
  simp [Path.segments] at hlength

/-- Of two names for the same segment the later one stays. -/
theorem withSegment_withSegment (address : Address) (depth : Nat) (name name' : String) :
    (address.withSegment depth name).withSegment depth name' = address.withSegment depth name' := by
  rw [withSegment, segments_withSegment, List.set_set]
  rfl

/-- A segment that is given the name it has leaves the address as it is. -/
theorem withSegment_self {address : Address} {depth : Nat} {name : String}
    (h : address.path.segments[depth]? = some name) : address.withSegment depth name = address := by
  obtain ⟨hlt, heq⟩ := List.getElem?_eq_some_iff.mp h
  rw [withSegment, ← heq, List.set_getElem_self, Path.ofSegments_segments]

/-- The last name of a path is its own. -/
theorem withSegment_leaf (address : Address) (name : String) :
    address.withSegment address.path.levels.length name =
      ⟨address.path.withName name, address.kind⟩ := by
  have hset : address.path.segments.set address.path.levels.length name =
      (address.path.withName name).segments := by
    simp [Path.segments, Path.withName]
  rw [withSegment, hset, Path.ofSegments_segments]

/-- An address passes the checks when its kind has keys, its path has the right depth, and each of
its names can stand for a level. -/
theorem single_iff (address : Address) :
    address.Single ↔ address.kind.ancestors = some address.kinds ∧
      address.path.segments.length = address.kinds.length + 1 ∧
      ∀ name ∈ address.path.segments, isConcrete name = true := by
  have hlength : address.path.segments.length = address.path.levels.length + 1 := by
    simp [Path.segments]
  have hleaf : isConcrete address.path.leaf = true ↔
      address.path.leaf ≠ "" ∧ address.path.isWildcard = false := by
    simp [isConcrete, Path.isWildcard]
  have hnames : (∀ name ∈ address.path.segments, isConcrete name = true) ↔
      address.path.levels.all isConcrete = true ∧ isConcrete address.path.leaf = true := by
    simp [Path.segments, or_imp, forall_and]
  rw [hnames, hleaf, hlength, Nat.add_right_cancel_iff]
  constructor
  · intro h
    obtain ⟨hancestors, hlevels, hall, hne⟩ := (levels_eq_ok_iff address _).mp h.levels
    exact ⟨hancestors, hlevels, hall, hne, h.concrete⟩
  · rintro ⟨hancestors, hlevels, hall, hne, hconcrete⟩
    exact ⟨(levels_eq_ok_iff address _).mpr ⟨hancestors, hlevels, hall, hne⟩, hconcrete⟩

/-- The leaf of a single entity has a name of its own. -/
theorem Single.isConcrete_leaf {address : Address} (h : address.Single) :
    isConcrete address.path.leaf = true :=
  ((single_iff address).mp h).2.2 _ (List.mem_append_right _ List.mem_cons_self)

/-- Another name that can stand for a level keeps the checks passed. -/
theorem Single.withSegment {address : Address} (h : address.Single) (depth : Nat) {name : String}
    (hname : isConcrete name = true) : (address.withSegment depth name).Single := by
  rw [single_iff] at h ⊢
  obtain ⟨hancestors, hlength, hall⟩ := h
  rw [segments_withSegment, List.length_set]
  refine ⟨hancestors, hlength, fun other hother => ?_⟩
  rcases List.mem_or_eq_of_mem_set hother with hmem | rfl
  · exact hall other hmem
  · exact hname

/-- The line of the address with another name at a depth has the other name there. -/
theorem line_withSegment {address : Address} (h : address.Single)
    {first rest : List (Kind × String)} {kind : Kind} {old new : String}
    (hnew : isConcrete new = true) (hline : address.line = first ++ (kind, old) :: rest) :
    (address.withSegment first.length new).line = first ++ (kind, new) :: rest := by
  have hafter := h.withSegment first.length hnew
  apply eq_of_map_eq
  · have hkinds : (address.withSegment first.length new).line.map Prod.fst =
        address.line.map Prod.fst := by
      rw [hafter.map_fst_line, h.map_fst_line]
      rfl
    rw [hkinds, hline]
    simp
  · rw [hafter.map_snd_line, segments_withSegment, ← h.map_snd_line, hline]
    simp

/-- A wildcard with another name at the depth of a level. -/
theorem withSegment_of_lt (address : Address) {depth : Nat} (name : String)
    (h : depth < address.path.levels.length) :
    address.withSegment depth name =
      ⟨⟨address.path.levels.set depth name, address.path.leaf⟩, address.kind⟩ := by
  have hset : address.path.segments.set depth name =
      Path.segments ⟨address.path.levels.set depth name, address.path.leaf⟩ := by
    rw [Path.segments, Path.segments, List.set_append_left _ _ h]
  rw [withSegment, hset, Path.ofSegments_segments]

/-- An address with another concrete name at a depth has the other name there in its key, and still
passes the checks. -/
theorem Fitting.withSegment {address : Address} (h : address.Fitting)
    {first rest : List (Kind × String)} {kind : Kind} {old new : String}
    (hnew : isConcrete new = true)
    (hsteps : address.steps address.kinds = first ++ (kind, old) :: rest) :
    (address.withSegment first.length new).Fitting ∧
      (address.withSegment first.length new).steps address.kinds = first ++ (kind, new) :: rest ∧
      (address.withSegment first.length new).path.isWildcard = address.path.isWildcard := by
  cases hwildcard : address.path.isWildcard with
  | false =>
    have hsingle := single_of_levels h hwildcard
    have hafter := hsingle.withSegment first.length hnew
    rw [hsingle.steps_eq_line] at hsteps
    exact ⟨hafter.fitting, hafter.steps_eq_line.trans (line_withSegment hsingle hnew hsteps),
      hafter.concrete⟩
  | true =>
    rw [steps_of_wildcard address hwildcard] at hsteps
    have hdepth : first.length < address.path.levels.length := by
      have hlength := h.length_levelSteps
      rw [hsteps, List.length_append, List.length_cons, ← h.length_levels] at hlength
      omega
    have hset := withSegment_of_lt address new hdepth
    have hstill : (address.withSegment first.length new).path.isWildcard = true := by
      rw [hset]
      exact hwildcard
    have hafter : (address.withSegment first.length new).Fitting := by
      obtain ⟨hancestors, hlength, hall, hleaf⟩ := (levels_eq_ok_iff address _).mp h
      rw [hset]
      refine (levels_eq_ok_iff _ _).mpr
        ⟨hancestors, by rw [List.length_set]; exact hlength, ?_, hleaf⟩
      rw [List.all_eq_true] at hall ⊢
      intro name hname
      rcases List.mem_or_eq_of_mem_set hname with hmem | rfl
      · exact hall name hmem
      · exact hnew
    refine ⟨hafter, ?_, hstill⟩
    rw [steps_of_wildcard _ hstill]
    apply eq_of_map_eq
    · refine hafter.map_fst_levelSteps.trans (h.map_fst_levelSteps.symm.trans ?_)
      rw [hsteps]
      simp
    · refine hafter.map_snd_levelSteps.trans ?_
      rw [hset]
      dsimp only
      rw [← h.map_snd_levelSteps, hsteps]
      simp

end Address

end EntityCatalog

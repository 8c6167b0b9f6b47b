import EntityCatalog.Path.Parse
import EntityCatalog.Proofs.Text.Dotted

/-!
# Paths and their texts

A path and its text determine each other when no name of the path is empty or holds a dot, and those
are the paths that can be read. Going from a path to its parent again and again passes the proper
prefixes of its names, the longest first, and ends at the outermost level.
-/

namespace EntityCatalog.Path

open Text (Dotless)

/-- A path has at least one segment. -/
theorem segments_ne_nil (path : Path) : path.segments ≠ [] := by
  simp [segments]

/-- A path is known by its names. -/
@[simp] theorem ofSegments_segments (path : Path) : ofSegments path.segments = path := by
  simp [ofSegments, segments]

/-- The path of some names has them for its segments. -/
theorem segments_ofSegments {names : List String} (hne : names ≠ []) :
    (ofSegments names).segments = names := by
  rw [ofSegments, segments, List.getLast?_eq_some_getLast hne]
  exact List.dropLast_concat_getLast hne

/-! ## Reading and writing -/

/-- The text of a path is its names with a dot between them. -/
theorem text_eq_intercalate (path : Path) : path.text = ".".intercalate path.segments := by
  obtain ⟨levels, leaf⟩ := path
  induction levels with
  | nil => simp [text, segments]
  | cons level rest ih =>
    have hrest : rest ++ [leaf] ≠ [] := by simp
    change level ++ "." ++ Path.text ⟨rest, leaf⟩ = ".".intercalate (level :: (rest ++ [leaf]))
    rw [ih, String.intercalate_cons_of_ne_nil hrest, segments]

/-- A text is read by splitting it at the dots, and refused exactly if a piece is empty. -/
theorem parse_eq_ite (text : String) :
    parse text =
      if [] ∈ text.toList.splitOn '.' then .error (.invalidArgument (.emptySegment text))
      else .ok (ofSegments ((text.toList.splitOn '.').map String.ofList)) := by
  unfold parse
  simp only [Text.pieces_eq_splitOn, List.any_eq_true, List.isEmpty_iff, exists_eq_right]

/-- Exactly the texts with an empty piece are refused. -/
theorem parse_cases (text : String) :
    if [] ∈ text.toList.splitOn '.' then
      parse text = .error (.invalidArgument (.emptySegment text))
    else ∃ path, parse text = .ok path := by
  rw [parse_eq_ite]
  split
  · rfl
  · exact ⟨_, rfl⟩

/-- Every piece that is not empty can stand between dots. -/
theorem dotless_of_piece {text : String} (hfull : [] ∉ text.toList.splitOn '.') {chars : List Char}
    (h : chars ∈ text.toList.splitOn '.') : Dotless (String.ofList chars) := by
  constructor
  · intro hempty
    have hnil : chars = [] := by simpa using congrArg String.toList hempty
    exact hfull (hnil ▸ h)
  · rw [String.toList_ofList]
    exact Text.not_mem_of_mem_splitOn h

/-- A path is read from a text exactly when its names can stand between dots and it has that text. -/
theorem parse_eq_ok_iff (text : String) (path : Path) :
    parse text = .ok path ↔ (∀ name ∈ path.segments, Dotless name) ∧ path.text = text := by
  rw [parse_eq_ite, text_eq_intercalate]
  constructor
  · intro h
    split at h
    · contradiction
    rename_i hfull
    have hpath := Except.ok.inj h
    have hsegments : path.segments = (text.toList.splitOn '.').map String.ofList := by
      rw [← hpath, segments_ofSegments (by simp [List.splitOn_ne_nil])]
    rw [hsegments]
    constructor
    · intro name hname
      obtain ⟨chars, hchars, rfl⟩ := List.mem_map.mp hname
      exact dotless_of_piece hfull hchars
    · exact Text.dotted_splitOn text
  · rintro ⟨hnames, rfl⟩
    rw [Text.splitOn_dotted hnames path.segments_ne_nil, if_neg]
    · simp [Function.comp_def]
    · intro hempty
      obtain ⟨name, hname, hnil⟩ := List.mem_map.mp hempty
      exact (hnames name hname).1 (String.toList_injective hnil)

/-! ## Parents -/

/-- A path of one name has that name for its only segment. -/
@[simp] theorem segments_root (leaf : String) : (root leaf).segments = [leaf] := rfl

/-- A child has the segments of its parent and its own name after them. -/
@[simp] theorem segments_child (path : Path) (name : String) :
    (path.child name).segments = path.segments ++ [name] := rfl

/-- A path of one name has no parent. -/
@[simp] theorem parent?_root (leaf : String) : (root leaf).parent? = none := rfl

/-- A child has the path that it is a child of for its parent. -/
@[simp] theorem parent?_child (path : Path) (name : String) :
    (path.child name).parent? = some path := by
  simp [child, parent?, segments]

/-- Nothing lies above a path of one name. -/
@[simp] theorem parents_root (leaf : String) : (root leaf).parents = [] := rfl

/-- The parents of a child are the path above it and the parents of that. -/
@[simp] theorem parents_child (path : Path) (name : String) :
    (path.child name).parents = path :: path.parents := by
  have hlength : (path.child name).levels.length = path.levels.length + 1 := by
    simp [child, segments]
  rw [parents, hlength, ascend, parent?_child]
  rfl

/-- The text of a child is the text of the path above it, a dot and its name. -/
theorem text_child (path : Path) (name : String) :
    (path.child name).text = path.text ++ "." ++ name := by
  rw [text_eq_intercalate, text_eq_intercalate, segments_child,
    String.intercalate_append_of_ne_nil path.segments_ne_nil (by simp), String.intercalate_singleton]

/-- Every path comes from a path without levels by going to a child again and again. -/
@[elab_as_elim]
theorem child_induction {motive : Path → Prop} (root : ∀ leaf, motive (root leaf))
    (child : ∀ path name, motive path → motive (path.child name)) (path : Path) : motive path := by
  obtain ⟨levels, leaf⟩ := path
  induction hlength : levels.length generalizing levels leaf with
  | zero =>
    rw [List.length_eq_zero_iff] at hlength
    rw [hlength]
    exact root leaf
  | succ length ih =>
    have hne : levels ≠ [] := List.ne_nil_of_length_eq_add_one hlength
    have habove := child ⟨levels.dropLast, levels.getLast hne⟩ leaf (ih _ _ (by simp [hlength]))
    rwa [Path.child, segments, List.dropLast_concat_getLast] at habove

/-- Going from a path to its parent again and again passes these paths, and the last has no parent. -/
inductive Climbs : Path → List Path → Prop
  | top {path : Path} (h : path.parent? = none) : Climbs path []
  | up {path parent : Path} {rest : List Path} (h : path.parent? = some parent)
      (hrest : Climbs parent rest) : Climbs path (parent :: rest)

/-- The parents of a path are all that there are. -/
theorem climbs_parents (path : Path) : path.Climbs path.parents := by
  induction path using child_induction with
  | root leaf => exact .top (parent?_root leaf)
  | child path name ih =>
    rw [parents_child]
    exact .up (parent?_child path name) ih

/-- The proper beginnings of a list with one element more are those before it, and what it goes on from. -/
theorem proper_prefix_concat_iff {α : Type} {front names : List α} {last : α} (hfront : front ≠ []) :
    names <+: front ++ [last] ∧ names ≠ [] ∧ names ≠ front ++ [last] ↔
      names = front ∨ names <+: front ∧ names ≠ [] ∧ names ≠ front := by
  constructor
  · rintro ⟨hstarts, hne, hproper⟩
    have hshorter : names <+: front := (List.prefix_concat_iff.mp hstarts).resolve_left hproper
    by_cases hsame : names = front
    · exact .inl hsame
    · exact .inr ⟨hshorter, hne, hsame⟩
  · intro h
    have hstarts : names <+: front := h.elim (fun heq => heq ▸ List.prefix_refl _) And.left
    have hne : names ≠ [] := h.elim (fun heq => heq ▸ hfront) fun hproper => hproper.2.1
    refine ⟨hstarts.trans (List.prefix_append _ _), hne, fun heq => ?_⟩
    have hlength := hstarts.length_le
    rw [heq, List.length_append, List.length_singleton] at hlength
    omega

/-- The names of the parents are the beginnings of the names, but for the empty and the whole. -/
theorem mem_parents_iff (path : Path) (names : List String) :
    names ∈ path.parents.map segments ↔
      names <+: path.segments ∧ names ≠ [] ∧ names ≠ path.segments := by
  induction path using child_induction with
  | root leaf =>
    simp only [parents_root, segments_root, List.map_nil, List.not_mem_nil, false_iff]
    rintro ⟨hstarts, hne, hproper⟩
    have hnil : names <+: [] := (List.prefix_concat_iff.mp hstarts).resolve_left hproper
    exact hne (List.prefix_nil.mp hnil)
  | child path name ih =>
    rw [parents_child, segments_child, List.map_cons, List.mem_cons, ih,
      proper_prefix_concat_iff path.segments_ne_nil]

/-- A parent that is met earlier has more names. -/
theorem parents_nearest_first (path : Path) :
    path.parents.Pairwise fun nearer farther =>
      farther.segments.length < nearer.segments.length := by
  induction path using child_induction with
  | root leaf => exact .nil
  | child path name ih =>
    rw [parents_child]
    refine .cons (fun farther hfarther => ?_) ih
    obtain ⟨hstarts, -, hproper⟩ :=
      (mem_parents_iff path farther.segments).mp (List.mem_map_of_mem hfarther)
    exact Nat.lt_of_le_of_ne hstarts.length_le fun heq => hproper (hstarts.eq_of_length heq)

/-- Paths and their texts correspond one to one. Exactly the texts with an empty piece are refused: the
empty text, and those in which a dot stands first, last or beside another. What is read from any other text
is the one path of that text with names that can stand between dots, so that each such path is read back
from its text. A child is written after a dot and has the path for its parent, and the parents of a path are
its proper beginnings, nearest first, up to one that has no parent. -/
theorem text_one_to_one :
    (∀ text : String, if [] ∈ text.toList.splitOn '.' then
        parse text = .error (.invalidArgument (.emptySegment text))
      else ∃ path, parse text = .ok path) ∧
    (∀ text : String, [] ∈ text.toList.splitOn '.' ↔
      text.toList = [] ∨ ['.'] <+: text.toList ∨ ['.'] <:+ text.toList ∨
        ['.', '.'] <:+: text.toList) ∧
    (∀ text path, parse text = .ok path ↔
      (∀ name ∈ path.segments, name ≠ "" ∧ '.' ∉ name.toList) ∧ path.text = text) ∧
    (∀ (path : Path) (name : String), (path.child name).parent? = some path ∧
      (path.child name).text = path.text ++ "." ++ name) ∧
    ∀ path : Path, path.Climbs path.parents ∧
      (∀ names, names ∈ path.parents.map segments ↔
        names <+: path.segments ∧ names ≠ [] ∧ names ≠ path.segments) ∧
      path.parents.Pairwise fun nearer farther =>
        farther.segments.length < nearer.segments.length := by
  refine ⟨parse_cases, fun text => Text.nil_mem_splitOn_iff '.' text.toList, parse_eq_ok_iff,
    fun path name => ⟨parent?_child path name, text_child path name⟩, fun path => ?_⟩
  exact ⟨climbs_parents path, mem_parents_iff path, parents_nearest_first path⟩

end EntityCatalog.Path

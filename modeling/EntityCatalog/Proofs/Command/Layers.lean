import Mathlib
import EntityCatalog.Command.Disk
import EntityCatalog.Proofs.Toml.Distinct

/-!
# Where the settings of a run come from

A run takes its settings from a file, from the directory given on its own and from the settings given one by
one. Of several values for one key the last of those given one by one is taken, or else the directory for its
own key, or else the value in the file.
-/

namespace EntityCatalog.Command

/-- The settings of a file that was read, or none where there is no file. -/
def settingsOf (print : Toml.Value → String) (tree? : Option Toml.Value) : Settings :=
  (tree?.map (Toml.flatten print)).getD []

namespace Sources

/-- The value that a key is to have: the last one given for it, or else the directory for its own key, or
else the value in the file. -/
def value? (sources : Sources) (file : Settings) (key : String) : Option String :=
  (Settings.get? sources.settings.reverse key).or
    ((if key = Setting.directory.key then sources.directory else none).or (file.get? key))

/-- Looking a key up in the layered settings finds the value that it is to have. -/
theorem get?_layered (sources : Sources) (file : Settings) (key : String) :
    (sources.layered file).get? key = sources.value? file key := by
  rw [layered, Settings.get?_layer, value?]
  cases sources.directory with
  | none => rw [ite_self, Option.none_or]
  | some directory =>
    rw [Settings.get?_set]
    by_cases hkey : key = Setting.directory.key
    · rw [if_pos hkey, if_pos hkey.symm, Option.some_or]
    · rw [if_neg hkey, if_neg (Ne.symm hkey), Option.none_or]

/-- Layering settings keeps their keys distinct. -/
theorem distinct_layered {file : Settings} (h : file.Distinct) (sources : Sources) :
    (sources.layered file).Distinct := by
  unfold layered
  apply Settings.Distinct.layer
  cases sources.directory with
  | none => exact h
  | some directory => exact h.set Setting.directory.key directory

/-- What a run is configured from, where its file can be read. -/
theorem config_eq_ofSettings (sources : Sources) {format : Toml.Format} {file : Option String}
    {tree? : Option Toml.Value} (h : file.map format.read = tree?.map .ok) :
    sources.config format file =
      (Config.ofSettings (sources.layered (settingsOf format.print tree?))).mapError .ofError := by
  have hfile : fileSettings format sources.file file = .ok (settingsOf format.print tree?) := by
    cases file with
    | none =>
      obtain rfl : tree? = none := Option.map_eq_none_iff.mp h.symm
      rfl
    | some text =>
      obtain ⟨tree, rfl, hread⟩ := Option.map_eq_some_iff.mp h.symm
      simp only [fileSettings, ← hread]
      rfl
  rw [config, hfile]

end Sources

/-- Where no key of the file holds a dot, its settings have distinct keys. -/
theorem distinct_settingsOf (print : Toml.Value → String) {tree? : Option Toml.Value}
    (hnodup : ∀ tree ∈ tree?, tree.Keyed List.Nodup)
    (hkeys : ∀ tree ∈ tree?, tree.Keyed fun keys => ∀ key ∈ keys, Text.Dotless key) :
    (settingsOf print tree?).Distinct := by
  cases tree? with
  | none => exact List.nodup_nil
  | some tree => exact Toml.distinct_flatten (hnodup tree rfl) (hkeys tree rfl)

/-- A file that a lawful format reads has no key twice in a table. -/
theorem nodup_of_read {format : Toml.Format} (hformat : format.Lawful) {file : Option String}
    {tree? : Option Toml.Value} (h : file.map format.read = tree?.map .ok) :
    ∀ tree ∈ tree?, tree.Keyed List.Nodup := by
  rintro tree rfl
  obtain ⟨text, -, hread⟩ := Option.map_eq_some_iff.mp h
  exact hformat hread

/-- Every leaf of a file is one setting, under the keys on its path with dots between them, and no two
collide. A run is configured from what its sources bind by their order of precedence, and from nothing
else. A setting in a text of its own is cut at the first equals sign. -/
theorem settings_by_precedence (format : Toml.Format) (hformat : format.Lawful)
    (file : Option String) (tree? : Option Toml.Value)
    (hread : file.map format.read = tree?.map .ok)
    (hkeys : ∀ tree ∈ tree?, tree.Keyed fun keys => ∀ key ∈ keys, Text.Dotless key)
    (sources : Sources) :
    (∀ tree ∈ tree?,
      (Toml.flatten format.print tree).Distinct ∧
      (∀ key text, (key, text) ∈ Toml.flatten format.print tree ↔
        ∃ path leaf, tree.LeafAt path leaf ∧ key = ".".intercalate path ∧
          text = leaf.shown format.print) ∧
      ∀ path path' leaf leaf', tree.LeafAt path leaf → tree.LeafAt path' leaf' →
        ".".intercalate path = ".".intercalate path' → path = path' ∧ leaf = leaf') ∧
    (sources.layered (settingsOf format.print tree?)).Distinct ∧
    (∀ key value, (key, value) ∈ sources.layered (settingsOf format.print tree?) ↔
      sources.value? (settingsOf format.print tree?) key = some value) ∧
    sources.config format file =
      (Config.ofSettings (sources.layered (settingsOf format.print tree?))).mapError .ofError ∧
    (∀ text key value, Settings.parsePair? text = some (key, value) ↔
      ∃ before after, text = before ++ "=" ++ after ∧ '=' ∉ before.toList ∧
        key = Text.trim before ∧ key ≠ "" ∧ value = Text.trim after) ∧
    ∀ text, Settings.parsePair? text = none ↔
      '=' ∉ text.toList ∨ ∃ before after, text = before ++ "=" ++ after ∧ '=' ∉ before.toList ∧
        Text.trim before = "" := by
  have hnodup := nodup_of_read hformat hread
  have hdistinct := sources.distinct_layered (distinct_settingsOf format.print hnodup hkeys)
  refine ⟨?_, hdistinct, ?_, sources.config_eq_ofSettings hread, Settings.parsePair?_eq_some_iff,
    Settings.parsePair?_eq_none_iff⟩
  · intro tree htree
    refine ⟨Toml.distinct_flatten (hnodup tree htree) (hkeys tree htree),
      Toml.mem_flatten_iff (hnodup tree htree) (hkeys tree htree), ?_⟩
    intro path path' leaf leaf' hleaf hleaf'
    exact Toml.Value.LeafAt.eq_of_dotted (hnodup tree htree) (hkeys tree htree) hleaf hleaf'
  · intro key value
    rw [← sources.get?_layered]
    exact (hdistinct.get?_eq_some_iff key value).symm

/-- A file with a directory, and with an option in a table of its own. -/
def sampleText : String :=
  "[lakemeta.entity.store.kv]\npath = \"/data/kv\"\noptions.compact-on-open = true\n"

/-- The tree that this file describes. -/
def sampleTree : Toml.Value :=
  .table [("lakemeta", .table [("entity", .table [("store", .table [("kv", .table
    [("options", .table [("compact-on-open", .literal "true")]), ("path", .text "/data/kv")])])])])]

/-- Another directory, and one key given twice. -/
def sampleSources : Sources :=
  { directory := some "/tmp/kv", settings := [("a", "1"), ("b", "2"), ("a", "3")] }

set_option maxRecDepth 2000 in
/-- The option of the file is bound, the directory is the one given on its own, and of a key that was
given twice the last value counts. -/
theorem settings_by_precedence_sample :
    Toml.standard.Lawful ∧ Toml.standard.read sampleText = .ok sampleTree ∧
      (sampleTree.Keyed fun keys => ∀ key ∈ keys, Text.Dotless key) ∧
      ("lakemeta.entity.store.kv.options.compact-on-open", "true") ∈
        Toml.flatten Toml.standard.print sampleTree ∧
      ∀ value, let bound := sampleSources.layered (Toml.flatten Toml.standard.print sampleTree)
        (("lakemeta.entity.store.kv.options.compact-on-open", value) ∈ bound ↔ value = "true") ∧
        (("lakemeta.entity.store.kv.path", value) ∈ bound ↔ value = "/tmp/kv") ∧
        (("a", value) ∈ bound ↔ value = "3") := by
  have hread : Toml.standard.read sampleText = .ok sampleTree := by
    cbv
  have hkeys : sampleTree.Keyed fun keys => ∀ key ∈ keys, Text.Dotless key := by
    simpa [sampleTree, Text.Dotless] using ⟨.leaf rfl, .leaf rfl⟩
  obtain ⟨hflat, -, hbound, -⟩ := settings_by_precedence Toml.standard Toml.standard_lawful
    (some sampleText) (some sampleTree) (congrArg some hread)
    (fun _ htree => Option.some.inj htree ▸ hkeys) sampleSources
  have hvalue {key found : String}
      (h : sampleSources.value? (Toml.flatten Toml.standard.print sampleTree) key = some found)
      (value : String) :
      (key, value) ∈ sampleSources.layered (Toml.flatten Toml.standard.print sampleTree) ↔
        value = found := by
    apply (hbound key value).trans
    rw [settingsOf, Option.map_some, Option.getD_some, h, Option.some_inj, eq_comm]
  refine ⟨Toml.standard_lawful, hread, hkeys, ?_, ?_⟩
  · apply ((hflat sampleTree rfl).2.1 _ _).mpr
    refine ⟨["lakemeta", "entity", "store", "kv", "options", "compact-on-open"], .literal "true", ?_,
      rfl, rfl⟩
    exact .under (.head _) <| .under (.head _) <| .under (.head _) <| .under (.head _) <|
      .under (.head _) <| .under (.head _) (.here rfl)
  · intro value
    exact ⟨hvalue (by decide) value, hvalue (by decide) value, hvalue (by decide) value⟩

end EntityCatalog.Command

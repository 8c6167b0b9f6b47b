import Mathlib.Data.List.Nodup
import EntityCatalog.Toml.Flatten
import EntityCatalog.Proofs.Config.Settings
import EntityCatalog.Proofs.Text.Dotted

/-!
# The settings of a tree of tables

A leaf of a tree is a value that is no table, at the end of a path of keys. Each leaf becomes one setting,
under its path with dots between the keys. Where no table holds a key twice, and no key is empty or holds
a dot, two leaves are never set under one key, so that nothing is lost.
-/

namespace EntityCatalog.Toml

namespace Value

/-- Whether a value is a table. -/
def isTable : Value → Bool
  | .table _ => true
  | _ => false

/-- The text that a leaf is set to: text as it is, and any other value as it is written. -/
def shown (print : Value → String) : Value → String
  | .text content => content
  | leaf => print leaf

/-- Every table in a value, at any depth, has keys that keep a rule. -/
inductive Keyed (rule : List String → Prop) : Value → Prop
  | leaf {leaf : Value} (h : leaf.isTable = false) : Keyed rule leaf
  | table {entries : List (String × Value)} (hkeys : rule (entries.map Prod.fst))
      (hvalues : ∀ entry ∈ entries, Keyed rule entry.2) : Keyed rule (.table entries)

/-- A path of keys leads through tables to a value that is no table. -/
inductive LeafAt : Value → List String → Value → Prop
  | here {leaf : Value} (h : leaf.isTable = false) : LeafAt leaf [] leaf
  | under {entries : List (String × Value)} {entry : String × Value} {path : List String}
      {leaf : Value} (hentry : entry ∈ entries) (h : LeafAt entry.2 path leaf) :
      LeafAt (.table entries) (entry.1 :: path) leaf

/-- A value is a leaf, or a table of values that are smaller. -/
@[elab_as_elim]
theorem tree_induction {motive : Value → Prop} (leaf : ∀ leaf, leaf.isTable = false → motive leaf)
    (table : ∀ entries, (∀ entry ∈ entries, motive entry.2) → motive (.table entries)) :
    ∀ value, motive value
  | .text _ => leaf _ rfl
  | .literal _ => leaf _ rfl
  | .array _ => leaf _ rfl
  | .table entries => table entries fun entry _ => tree_induction leaf table entry.2
termination_by value => sizeOf value
decreasing_by
  have hentry := List.sizeOf_lt_of_mem ‹entry ∈ entries›
  cases entry
  simp only [Prod.mk.sizeOf_spec, Value.table.sizeOf_spec] at hentry ⊢
  omega

/-! ## Rules for keys -/

namespace Keyed

variable {rule : List String → Prop} {entries : List (String × Value)}

/-- A table follows a rule of keys if its own keys do and all its values do. -/
@[simp] theorem table_iff :
    Keyed rule (.table entries) ↔
      rule (entries.map Prod.fst) ∧ ∀ entry ∈ entries, Keyed rule entry.2 := by
  constructor
  · intro h
    cases h with
    | leaf h => contradiction
    | table hkeys hvalues => exact ⟨hkeys, hvalues⟩
  · intro h
    exact .table h.1 h.2

/-- The keys of a table follow the rule. -/
theorem keys (h : Keyed rule (.table entries)) : rule (entries.map Prod.fst) :=
  (table_iff.mp h).1

/-- The values of a table follow the rule. -/
theorem values (h : Keyed rule (.table entries)) : ∀ entry ∈ entries, Keyed rule entry.2 :=
  (table_iff.mp h).2

end Keyed

/-! ## Leaves -/

namespace LeafAt

variable {value leaf : Value} {path : List String}

/-- The keys on the way to a leaf are keys of tables. -/
theorem forall_path {fits : String → Prop} (h : LeafAt value path leaf)
    (hkeys : value.Keyed fun keys => ∀ key ∈ keys, fits key) : ∀ key ∈ path, fits key := by
  induction h with
  | here _ => exact List.forall_mem_nil fits
  | under hentry _ ih =>
    rw [List.forall_mem_cons]
    exact ⟨hkeys.keys _ (List.mem_map_of_mem hentry), ih (hkeys.values _ hentry)⟩

/-- A leaf has only itself below. -/
theorem of_leaf {found : Value} (h : leaf.isTable = false) :
    LeafAt leaf path found ↔ path = [] ∧ found = leaf := by
  constructor
  · intro hfound
    cases hfound with
    | here _ => exact ⟨rfl, rfl⟩
    | under _ _ => contradiction
  · rintro ⟨rfl, rfl⟩
    exact .here h

/-- A path through a table goes on in one of its values. -/
theorem of_table {entries : List (String × Value)} :
    LeafAt (.table entries) path leaf ↔
      ∃ entry ∈ entries, ∃ rest, path = entry.1 :: rest ∧ LeafAt entry.2 rest leaf := by
  constructor
  · intro h
    cases h with
    | here h => contradiction
    | under hentry h => exact ⟨_, hentry, _, rfl, h⟩
  · rintro ⟨entry, hentry, rest, rfl, h⟩
    exact .under hentry h

/-- Where no table holds a key twice, a path leads to one leaf. -/
theorem unique {leaf' : Value} (hkeys : value.Keyed List.Nodup) (h : LeafAt value path leaf)
    (h' : LeafAt value path leaf') : leaf = leaf' := by
  induction h with
  | here h => exact ((of_leaf h).mp h').2.symm
  | @under entries entry path leaf hentry _ ih =>
    obtain ⟨entry', hentry', rest, hpath, hrest⟩ := of_table.mp h'
    obtain ⟨hkey, rfl⟩ := List.cons.inj hpath
    have hsame := List.inj_on_of_nodup_map hkeys.keys hentry hentry' hkey
    exact ih (hkeys.values entry hentry) (hsame ▸ hrest)

end LeafAt

end Value

/-- Every tree that a format reads is a tree of tables from keys to values. -/
def Format.Lawful (format : Format) : Prop :=
  ∀ ⦃text tree⦄, format.read text = .ok tree → tree.Keyed List.Nodup

variable {print : Value → String}

/-! ## Settings -/

/-- A leaf is the only setting that comes from it. -/
theorem settings_of_leaf {leaf : Value} (h : leaf.isTable = false) (stem : String) :
    leaf.settings print stem = [(stem, leaf.shown print)] := by
  cases leaf with
  | table => contradiction
  | _ => simp [Value.settings, Value.shown]

/-- The settings of entries are those of the values of the entries. -/
theorem entrySettings_eq_flatMap (stem : String) (entries : List (String × Value)) :
    entrySettings print stem entries =
      entries.flatMap fun entry => entry.2.settings print (joinKey stem entry.1) := by
  induction entries with
  | nil => rfl
  | cons entry rest ih => rw [entrySettings, ih, List.flatMap_cons]

/-- The settings of a value are its leaves, each under the keys on its path. -/
theorem mem_settings_iff (value : Value) (stem key text : String) :
    (key, text) ∈ value.settings print stem ↔
      ∃ path leaf, value.LeafAt path leaf ∧ key = path.foldl joinKey stem ∧
        text = leaf.shown print := by
  induction value using Value.tree_induction generalizing stem with
  | leaf leaf h => simp [settings_of_leaf h, Value.LeafAt.of_leaf h]
  | table entries ih =>
    rw [Value.settings, entrySettings_eq_flatMap, List.mem_flatMap]
    constructor
    · rintro ⟨entry, hentry, hmem⟩
      obtain ⟨path, leaf, hleaf, hkey, htext⟩ := (ih entry hentry _).mp hmem
      exact ⟨entry.1 :: path, leaf, .under hentry hleaf, hkey, htext⟩
    · rintro ⟨path, leaf, hleaf, hkey, htext⟩
      obtain ⟨entry, hentry, rest, rfl, hrest⟩ := Value.LeafAt.of_table.mp hleaf
      exact ⟨entry, hentry, (ih entry hentry _).mpr ⟨rest, leaf, hrest, hkey, htext⟩⟩

/-! ## Dotted keys -/

/-- A key below names with dots between them is one more of these names. -/
theorem joinKey_dotted {above : List String} (habove : ∀ name ∈ above, Text.Dotless name)
    (key : String) : joinKey (".".intercalate above) key = ".".intercalate (above ++ [key]) := by
  by_cases hnil : above = []
  · simp [hnil, joinKey]
  · rw [joinKey, if_neg (Text.dotted_ne_empty habove hnil),
      String.intercalate_append_of_ne_nil hnil (by simp), String.intercalate_singleton]

/-- The keys on a path below names with dots between them are more of these names. -/
theorem foldl_joinKey_dotted {above path : List String} (habove : ∀ name ∈ above, Text.Dotless name)
    (hpath : ∀ name ∈ path, Text.Dotless name) :
    path.foldl joinKey (".".intercalate above) = ".".intercalate (above ++ path) := by
  induction path generalizing above with
  | nil => rw [List.foldl_nil, List.append_nil]
  | cons key rest ih =>
    obtain ⟨hkey, hrest⟩ := List.forall_mem_cons.mp hpath
    have hbelow : ∀ name ∈ above ++ [key], Text.Dotless name := by
      simpa [or_imp, forall_and] using ⟨habove, hkey⟩
    rw [List.foldl_cons, joinKey_dotted habove, ih hbelow hrest, List.append_assoc,
      List.singleton_append]

section Dotted

variable {value : Value} {above : List String}

/-- The settings below dotted names stand under these names and the keys of a path that leads to a leaf. -/
theorem mem_settings_dotted_iff (hkeys : value.Keyed fun keys => ∀ key ∈ keys, Text.Dotless key)
    (habove : ∀ name ∈ above, Text.Dotless name) (key text : String) :
    (key, text) ∈ value.settings print (".".intercalate above) ↔
      ∃ path leaf, value.LeafAt path leaf ∧ key = ".".intercalate (above ++ path) ∧
        text = leaf.shown print := by
  rw [mem_settings_iff]
  apply exists_congr
  intro path
  apply exists_congr
  intro leaf
  apply and_congr_right
  intro hleaf
  rw [foldl_joinKey_dotted habove (hleaf.forall_path hkeys)]

/-- A key below dotted names goes on from them. -/
theorem names_of_mem_settings (hkeys : value.Keyed fun keys => ∀ key ∈ keys, Text.Dotless key)
    (habove : ∀ name ∈ above, Text.Dotless name) {key : String}
    (hkey : key ∈ (value.settings print (".".intercalate above)).map Prod.fst) :
    ∃ path, (∀ name ∈ above ++ path, Text.Dotless name) ∧ key = ".".intercalate (above ++ path) := by
  obtain ⟨⟨_, text⟩, hmem, rfl⟩ := List.mem_map.mp hkey
  obtain ⟨path, leaf, hleaf, hdotted, -⟩ := (mem_settings_dotted_iff hkeys habove _ _).mp hmem
  exact ⟨path, List.forall_mem_append.mpr ⟨habove, hleaf.forall_path hkeys⟩, hdotted⟩

/-- What is set below different keys of one table is set under different keys. -/
theorem disjoint_settings {value' : Value} {first first' : String} (hne : first ≠ first')
    (hkeys : value.Keyed fun keys => ∀ key ∈ keys, Text.Dotless key)
    (hkeys' : value'.Keyed fun keys => ∀ key ∈ keys, Text.Dotless key)
    (habove : ∀ name ∈ above ++ [first], Text.Dotless name)
    (habove' : ∀ name ∈ above ++ [first'], Text.Dotless name) :
    List.Disjoint ((value.settings print (".".intercalate (above ++ [first]))).map Prod.fst)
      ((value'.settings print (".".intercalate (above ++ [first']))).map Prod.fst) := by
  apply List.disjoint_left.mpr
  intro key hkey hkey'
  obtain ⟨path, hnames, hdotted⟩ := names_of_mem_settings hkeys habove hkey
  obtain ⟨path', hnames', hdotted'⟩ := names_of_mem_settings hkeys' habove' hkey'
  -- Dots tell all names apart, so the two lists of names would agree where the keys stand.
  have hsame := Text.dotted_injective hnames hnames' (hdotted.symm.trans hdotted')
  rw [List.append_assoc, List.append_assoc] at hsame
  exact hne (List.cons.inj (List.append_cancel_left hsame)).1

/-- No two leaves below dotted names are set under one key. -/
theorem distinct_settings (hnodup : value.Keyed List.Nodup)
    (hkeys : value.Keyed fun keys => ∀ key ∈ keys, Text.Dotless key)
    (habove : ∀ name ∈ above, Text.Dotless name) :
    Settings.Distinct (value.settings print (".".intercalate above)) := by
  -- The names above are generalized, because those of an entry go on from them.
  induction value using Value.tree_induction generalizing above with
  | leaf leaf h => simp [settings_of_leaf h, Settings.Distinct]
  | table entries ih =>
    have hbelow {entry : String × Value} (hentry : entry ∈ entries) :
        ∀ name ∈ above ++ [entry.1], Text.Dotless name := by
      simpa [or_imp, forall_and] using ⟨habove, hkeys.keys _ (List.mem_map_of_mem hentry)⟩
    simp only [Value.settings, entrySettings_eq_flatMap, joinKey_dotted habove, Settings.Distinct,
      List.map_flatMap]
    apply List.nodup_flatMap.mpr
    constructor
    · intro entry hentry
      exact ih entry hentry (hnodup.values entry hentry) (hkeys.values entry hentry) (hbelow hentry)
    · apply (List.pairwise_map.mp hnodup.keys).imp_of_mem
      intro entry entry' hentry hentry' hne
      exact disjoint_settings hne (hkeys.values entry hentry) (hkeys.values entry' hentry')
        (hbelow hentry) (hbelow hentry')

end Dotted

/-! ## Whole files -/

section Flatten

variable {tree : Value} (hnodup : tree.Keyed List.Nodup)
  (hkeys : tree.Keyed fun keys => ∀ key ∈ keys, Text.Dotless key)

include hnodup hkeys

/-- Laying the settings of a file one over another loses none. -/
theorem flatten_eq_settings : flatten print tree = tree.settings print "" :=
  Settings.layer_eq_append (distinct_settings hnodup hkeys (List.forall_mem_nil Text.Dotless))

/-- No two settings of a file stand under one key. -/
theorem distinct_flatten : (flatten print tree).Distinct := by
  rw [flatten_eq_settings hnodup hkeys]
  exact distinct_settings hnodup hkeys (List.forall_mem_nil Text.Dotless)

/-- The settings of a file are its leaves, each under the keys on its path with dots between them. -/
theorem mem_flatten_iff (key text : String) :
    (key, text) ∈ flatten print tree ↔
      ∃ path leaf, tree.LeafAt path leaf ∧ key = ".".intercalate path ∧
        text = leaf.shown print := by
  rw [flatten_eq_settings hnodup hkeys]
  exact mem_settings_dotted_iff hkeys (List.forall_mem_nil Text.Dotless) key text

/-- Two leaves are never set under one key. -/
theorem Value.LeafAt.eq_of_dotted {path path' : List String} {leaf leaf' : Value}
    (h : tree.LeafAt path leaf) (h' : tree.LeafAt path' leaf')
    (hdotted : ".".intercalate path = ".".intercalate path') : path = path' ∧ leaf = leaf' := by
  have hpath := Text.dotted_injective (h.forall_path hkeys) (h'.forall_path hkeys) hdotted
  exact ⟨hpath, h.unique hnodup (hpath ▸ h')⟩

end Flatten

end EntityCatalog.Toml

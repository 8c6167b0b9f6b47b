import EntityCatalog.Toml.Standard
import EntityCatalog.Proofs.Toml.Flatten

/-!
# Keys of a file that was read

No table of a file holds a key twice, at any depth: while a table is built, an entry is set in place of the
one that its key had. So a tree that was read is a tree of tables from keys to values, and the standard
format is lawful.
-/

namespace EntityCatalog.Toml

/-- No table of a node holds a key twice, in what its value will show. The tables of a series become an
array, and what an array holds is written and not looked up. -/
inductive Node.Distinct : Node → Prop
  | leaf {value : Value} (h : value.Keyed List.Nodup) : Distinct (.leaf value)
  | table {origin : Origin} {entries : Entries} (hkeys : (entries.map Prod.fst).Nodup)
      (hnodes : ∀ entry ∈ entries, Distinct entry.2) : Distinct (.table origin entries)
  | series {tables : List Entries} : Distinct (.series tables)

/-! ## Values of nodes -/

/-- Placing an entry adds it to the others. -/
theorem placeEntry_perm {α : Type} (entry : String × α) (entries : List (String × α)) :
    (placeEntry entry entries).Perm (entry :: entries) := by
  induction entries with
  | nil => exact .refl _
  | cons head rest ih =>
    rw [placeEntry]
    split
    · exact .refl _
    · exact (ih.cons head).trans (.swap entry head rest)

/-- Sorting entries changes nothing but their order. -/
theorem sortEntries_perm {α : Type} (entries : List (String × α)) :
    (sortEntries entries).Perm entries := by
  induction entries with
  | nil => exact .refl _
  | cons entry rest ih => exact (placeEntry_perm entry _).trans (ih.cons entry)

/-- The values of entries are the value of the first and those of the others. -/
theorem entryValues?_cons {key : String} {node : Node} {rest : Entries}
    {values : List (String × Value)} (h : entryValues? ((key, node) :: rest) = some values) :
    ∃ value more, node.value? = some value ∧ entryValues? rest = some more ∧
      values = (key, value) :: more := by
  rw [entryValues?] at h
  split at h
  · rename_i value more hvalue hmore
    exact ⟨value, more, hvalue, hmore, (Option.some.inj h).symm⟩
  · contradiction

/-- The values of entries stand under the keys of the entries. -/
theorem keys_of_entryValues? {entries : Entries} {values : List (String × Value)}
    (h : entryValues? entries = some values) : values.map Prod.fst = entries.map Prod.fst := by
  induction entries generalizing values with
  | nil =>
    obtain rfl : [] = values := Option.some.inj h
    rfl
  | cons entry rest ih =>
    obtain ⟨value, more, -, hmore, rfl⟩ := entryValues?_cons h
    rw [List.map_cons, List.map_cons, ih hmore]

/-- Each of the values of entries is the value of an entry. -/
theorem value?_of_mem_entryValues? {entries : Entries} {values : List (String × Value)}
    (h : entryValues? entries = some values) {found : String × Value} (hfound : found ∈ values) :
    ∃ entry ∈ entries, entry.2.value? = some found.2 := by
  induction entries generalizing values with
  | nil =>
    obtain rfl : [] = values := Option.some.inj h
    exact absurd hfound List.not_mem_nil
  | cons entry rest ih =>
    obtain ⟨value, more, hvalue, hmore, rfl⟩ := entryValues?_cons h
    rcases List.mem_cons.mp hfound with rfl | hrest
    · exact ⟨entry, List.mem_cons_self, hvalue⟩
    · obtain ⟨other, hother, hsame⟩ := ih hmore hrest
      exact ⟨other, List.mem_cons_of_mem _ hother, hsame⟩

/-- A table becomes a date or a time, or a table of the values of its entries. -/
theorem tableValue?_cases {entries : Entries} {value : Value}
    (h : tableValue? entries = some value) :
    value.isTable = false ∨
      ∃ values, entryValues? entries = some values ∧ value = .table (sortEntries values) := by
  cases entries with
  | nil => exact Or.inr ⟨[], rfl, (Option.some.inj h).symm⟩
  | cons entry rest =>
    rw [tableValue?] at h
    split at h
    · obtain ⟨text, -, hmoment⟩ := Option.bind_eq_some_iff.mp h
      unfold momentIn? at hmoment
      split at hmoment
      · obtain ⟨spelling, -, rfl⟩ := Option.map_eq_some_iff.mp hmoment
        exact Or.inl rfl
      · contradiction
    · split at h
      · rename_i first more hfirst hmore
        refine Or.inr ⟨(entry.1, first) :: more, ?_, (Option.some.inj h).symm⟩
        rw [entryValues?, hfirst, hmore]
      · contradiction

/-- The value of a node whose keys are distinct is a tree whose keys are. -/
theorem Node.Distinct.value {node : Node} (h : node.Distinct) {value : Value}
    (hvalue : node.value? = some value) : value.Keyed List.Nodup := by
  induction h generalizing value with
  | leaf h => exact Option.some.inj hvalue ▸ h
  | @table origin entries hkeys _ ih =>
    rcases tableValue?_cases hvalue with hleaf | ⟨values, hvalues, rfl⟩
    · exact .leaf hleaf
    · have hperm := sortEntries_perm values
      apply Value.Keyed.table
      · rw [(hperm.map Prod.fst).nodup_iff, keys_of_entryValues? hvalues]
        exact hkeys
      · intro found hfound
        obtain ⟨entry, hentry, hsame⟩ :=
          value?_of_mem_entryValues? hvalues (hperm.mem_iff.mp hfound)
        exact ih entry hentry hsame
  | series =>
    obtain ⟨items, -, rfl⟩ := Option.map_eq_some_iff.mp hvalue
    exact .leaf rfl

/-! ## Building tables -/

namespace Entries

/-- Setting a key keeps the keys, and adds this one if it is new. -/
theorem keys_set (entries : Entries) (key : String) (node : Node) :
    (entries.set key node).map Prod.fst =
      if key ∈ entries.map Prod.fst then entries.map Prod.fst
      else entries.map Prod.fst ++ [key] := by
  induction entries with
  | nil => rfl
  | cons entry rest ih =>
    rw [set]
    by_cases hkey : entry.1 = key
    · simp [hkey]
    · rw [if_neg hkey, List.map_cons, ih, List.map_cons]
      by_cases hrest : key ∈ rest.map Prod.fst
      · rw [if_pos hrest, if_pos (List.mem_cons_of_mem _ hrest)]
      · rw [if_neg hrest, if_neg (by simp [Ne.symm hkey, hrest]), List.cons_append]

/-- What stands among entries after a key was set stood there before or is what was set. -/
theorem mem_of_mem_set {entries : Entries} {key : String} {node : Node} {entry : String × Node}
    (h : entry ∈ entries.set key node) : entry ∈ entries ∨ entry = (key, node) := by
  induction entries with
  | nil => exact Or.inr (List.mem_singleton.mp h)
  | cons first rest ih =>
    rw [set] at h
    split at h
    · exact (List.mem_cons.mp h).elim Or.inr fun hrest => Or.inl (List.mem_cons_of_mem _ hrest)
    · rcases List.mem_cons.mp h with rfl | hrest
      · exact Or.inl List.mem_cons_self
      · exact (ih hrest).imp_left (List.mem_cons_of_mem _)

/-- No table of the entries holds a key twice. -/
structure Distinct (entries : Entries) : Prop where
  keys : (entries.map Prod.fst).Nodup
  nodes : ∀ entry ∈ entries, entry.2.Distinct

namespace Distinct

variable {entries after : Entries}

/-- Without entries no key stands twice. -/
theorem nil : Distinct [] := ⟨List.nodup_nil, List.forall_mem_nil _⟩

/-- What is found among entries keeps its keys distinct. -/
theorem get? (h : entries.Distinct) {key : String} {node : Node}
    (hfound : entries.get? key = some node) : node.Distinct := by
  obtain ⟨entry, hentry, rfl⟩ := Option.map_eq_some_iff.mp hfound
  exact h.nodes entry (List.mem_of_find?_eq_some hentry)

/-- A table of distinct entries keeps its keys distinct. -/
theorem node (h : entries.Distinct) (origin : Origin) : (Node.table origin entries).Distinct :=
  .table h.keys h.nodes

/-- A table that keeps its keys distinct has distinct entries. -/
theorem of_node {origin : Origin} (h : (Node.table origin entries).Distinct) :
    entries.Distinct := by
  cases h with
  | table hkeys hnodes => exact ⟨hkeys, hnodes⟩

/-- An entry is set in place of the one that its key had. -/
theorem set (h : entries.Distinct) (key : String) {node : Node} (hnode : node.Distinct) :
    (entries.set key node).Distinct := by
  constructor
  · rw [keys_set]
    split
    · exact h.keys
    · rename_i hnew
      exact h.keys.append (List.nodup_singleton key) (List.disjoint_singleton.mpr hnew)
  · intro entry hentry
    rcases mem_of_mem_set hentry with hold | rfl
    · exact h.nodes entry hold
    · exact hnode

/-- Changing a table inside others keeps their keys distinct where the change keeps its own. -/
theorem alter {step : Origin} {edit : Origin → Entries → Option Entries}
    (hedit : ∀ {origin : Origin} {entries after : Entries}, entries.Distinct →
      edit origin entries = some after → after.Distinct)
    {path : List String} {origin : Origin} (h : entries.Distinct)
    (hafter : entries.alter step edit path origin = some after) : after.Distinct := by
  induction path generalizing origin entries after with
  | nil => exact hedit h hafter
  | cons key path ih =>
    unfold Entries.alter at hafter
    cases hfound : entries.get? key with
    | none =>
      rw [hfound] at hafter
      obtain ⟨inner, hinner, rfl⟩ := Option.map_eq_some_iff.mp hafter
      exact h.set key ((ih nil hinner).node step)
    | some node =>
      rw [hfound] at hafter
      cases node with
      | leaf value => contradiction
      | series tables =>
        -- Whatever becomes of its last table, a series stays one and is written as an array.
        obtain ⟨last, -, rfl⟩ := Option.map_eq_some_iff.mp hafter
        exact h.set key .series
      | table origin inner =>
        obtain ⟨-, hafter⟩ := Option.ite_none_left_eq_some.mp hafter
        obtain ⟨changed, hchanged, rfl⟩ := Option.map_eq_some_iff.mp hafter
        exact h.set key ((ih (of_node (h.get? hfound)) hchanged).node origin)

/-- Adding a value keeps the keys distinct. -/
theorem addLeaf {path : List String} {key : String} {value : Value} {origin : Origin}
    (hvalue : value.Keyed List.Nodup) (h : entries.Distinct)
    (hafter : entries.addLeaf path key value origin = some after) : after.Distinct := by
  obtain ⟨-, hset⟩ := Option.ite_none_left_eq_some.mp hafter
  exact Option.some.inj hset ▸ h.set key (.leaf hvalue)

/-- Adding pairs keeps the keys distinct. -/
theorem addPairs {pairs : List Pair} (hpairs : ∀ pair ∈ pairs, pair.value.Keyed List.Nodup)
    (h : entries.Distinct) (hafter : Entries.addPairs pairs entries = some after) :
    after.Distinct := by
  induction pairs generalizing entries with
  | nil => exact Option.some.inj hafter ▸ h
  | cons pair rest ih =>
    obtain ⟨hpair, hrest⟩ := List.forall_mem_cons.mp hpairs
    unfold Entries.addPairs at hafter
    cases hadded : entries.addPair pair.path pair.key pair.value with
    | none =>
      rw [hadded] at hafter
      contradiction
    | some added =>
      rw [hadded] at hafter
      exact ih hrest (h.alter (addLeaf hpair) hadded) hafter

end Distinct

end Entries

/-- A table made of pairs keeps its keys distinct. -/
theorem keyed_of_tableOf {pairs : List Pair} {table : Value}
    (hpairs : ∀ pair ∈ pairs, pair.value.Keyed List.Nodup) (h : tableOf pairs = some table) :
    table.Keyed List.Nodup := by
  obtain ⟨entries, hentries, hvalue⟩ := Option.bind_eq_some_iff.mp h
  exact ((Entries.Distinct.nil.addPairs hpairs hentries).node .stated).value hvalue

namespace Entries.Distinct

variable {entries after : Entries}

/-- The table of a section is put in place of one that only headers inside it have named, or is new. -/
theorem place {part : Section} (hpairs : ∀ pair ∈ part.pairs, pair.value.Keyed List.Nodup)
    {origin : Origin} (h : entries.Distinct) (hafter : part.place origin entries = some after) :
    after.Distinct := by
  simp only [Section.place] at hafter
  split at hafter
  · split at hafter
    · obtain ⟨body, -, rfl⟩ := Option.map_eq_some_iff.mp hafter
      exact h.set _ .series
    · obtain ⟨body, -, rfl⟩ := Option.map_eq_some_iff.mp hafter
      exact h.set _ .series
    · contradiction
  · split at hafter
    · obtain ⟨body, hbody, rfl⟩ := Option.map_eq_some_iff.mp hafter
      exact h.set _ ((nil.addPairs hpairs hbody).node .stated)
    · rename_i hfound
      obtain ⟨body, hbody, rfl⟩ := Option.map_eq_some_iff.mp hafter
      exact h.set _ (((of_node (h.get? hfound)).addPairs hpairs hbody).node .stated)
    · contradiction

/-- Adding sections keeps the keys distinct. -/
theorem addSections {sections : List Section}
    (hpairs : ∀ part ∈ sections, ∀ pair ∈ part.pairs, pair.value.Keyed List.Nodup)
    (h : entries.Distinct) (hafter : Toml.addSections sections entries = some after) :
    after.Distinct := by
  induction sections generalizing entries with
  | nil => exact Option.some.inj hafter ▸ h
  | cons part rest ih =>
    obtain ⟨hpart, hrest⟩ := List.forall_mem_cons.mp hpairs
    unfold Toml.addSections at hafter
    cases hplaced : entries.alter .implied part.place (splitLast part.keys).1 .stated with
    | none =>
      rw [hplaced] at hafter
      contradiction
    | some placed =>
      rw [hplaced] at hafter
      exact ih hrest (h.alter (place hpart) hplaced) hafter

end Entries.Distinct

/-- A document keeps its keys distinct. -/
theorem keyed_of_documentOf {pairs : List Pair} {sections : List Section} {tree : Value}
    (hpairs : ∀ pair ∈ pairs, pair.value.Keyed List.Nodup)
    (hsections : ∀ part ∈ sections, ∀ pair ∈ part.pairs, pair.value.Keyed List.Nodup)
    (h : documentOf pairs sections = some tree) : tree.Keyed List.Nodup := by
  obtain ⟨before, hbefore, h⟩ := Option.bind_eq_some_iff.mp h
  obtain ⟨entries, hentries, h⟩ := Option.bind_eq_some_iff.mp h
  have hdistinct := (Entries.Distinct.nil.addPairs hpairs hbefore).addSections hsections hentries
  exact (hdistinct.node .stated).value h

/-! ## Reading values -/

/-- All values that a reader can give keep their keys distinct. -/
def ReadsKeyed (item : Reader Value) : Prop :=
  ∀ ⦃chars rest : List Char⦄ ⦃value : Value⦄, item chars = some (value, rest) →
    value.Keyed List.Nodup

/-- A value without an inner value has no keys that could stand twice. -/
theorem plainValue_readsKeyed : ReadsKeyed plainValue := by
  intro chars rest value h
  unfold plainValue at h
  split at h
  · obtain ⟨rfl, -⟩ := Prod.mk.inj (Option.some.inj h)
    exact .leaf rfl
  · obtain ⟨text, -, htext⟩ := Option.map_eq_some_iff.mp h
    obtain ⟨rfl, -⟩ := Prod.mk.inj htext
    exact .leaf rfl

namespace ReadsKeyed

variable {item : Reader Value} {chars rest : List Char}

/-- A pair has a value that keeps its keys distinct. -/
theorem pair (hitem : ReadsKeyed item) {found : Pair}
    (h : Toml.pair item chars = some (found, rest)) : found.value.Keyed List.Nodup := by
  unfold Toml.pair at h
  split at h
  · obtain ⟨⟨value, _⟩, hvalue, hfound⟩ := Option.map_eq_some_iff.mp h
    obtain ⟨rfl, -⟩ := Prod.mk.inj hfound
    exact hitem hvalue
  · contradiction

/-- Pairs have values that keep their keys distinct. -/
theorem pairs (hitem : ReadsKeyed item) {fuel : Nat} {found : List Pair}
    (h : Toml.pairs item fuel chars = some (found, rest)) :
    ∀ pair ∈ found, pair.value.Keyed List.Nodup := by
  induction fuel generalizing chars rest found with
  | zero => contradiction
  | succ fuel ih =>
    unfold Toml.pairs at h
    split at h
    · contradiction
    · rename_i first _ hfirst
      have hvalue := hitem.pair hfirst
      split at h
      · obtain ⟨rfl, -⟩ := Prod.mk.inj (Option.some.inj h)
        exact List.forall_mem_singleton.mpr hvalue
      · obtain ⟨⟨more, _⟩, hmore, hfound⟩ := Option.map_eq_some_iff.mp h
        obtain ⟨rfl, -⟩ := Prod.mk.inj hfound
        exact List.forall_mem_cons.mpr ⟨hvalue, ih hmore⟩
      · contradiction

/-- Pairs between braces have values that keep their keys distinct. -/
theorem bracedPairs (hitem : ReadsKeyed item) {found : List Pair}
    (h : Toml.bracedPairs item chars = some (found, rest)) :
    ∀ pair ∈ found, pair.value.Keyed List.Nodup := by
  unfold Toml.bracedPairs at h
  split at h
  · obtain ⟨rfl, -⟩ := Prod.mk.inj (Option.some.inj h)
    exact List.forall_mem_nil _
  · exact hitem.pairs h

end ReadsKeyed

/-- Every value that is read keeps its keys distinct, however deep it may be. -/
theorem value_readsKeyed (room : Nat) : ReadsKeyed (value room) := by
  induction room with
  | zero => exact plainValue_readsKeyed
  | succ room ih =>
    intro chars rest found h
    unfold value at h
    split at h
    · obtain ⟨⟨items, _⟩, -, hfound⟩ := Option.map_eq_some_iff.mp h
      obtain ⟨rfl, -⟩ := Prod.mk.inj hfound
      exact .leaf rfl
    · obtain ⟨⟨pairs, _⟩, hpairs, hbuilt⟩ := Option.bind_eq_some_iff.mp h
      obtain ⟨table, htable, hfound⟩ := Option.map_eq_some_iff.mp hbuilt
      obtain ⟨rfl, -⟩ := Prod.mk.inj hfound
      exact keyed_of_tableOf (ih.bracedPairs hpairs) htable
    · exact plainValue_readsKeyed h

/-! ## Reading files -/

/-- The value of a statement, where it has one, keeps its keys distinct. -/
def Statement.Distinct : Statement → Prop
  | .header _ _ => True
  | .pair found => found.value.Keyed List.Nodup

/-- A statement that is read has values that keep their keys distinct. -/
theorem distinct_of_statement {chars rest : List Char} {found : Statement}
    (h : statement chars = some (found, rest)) : found.Distinct := by
  unfold statement at h
  split at h
  · unfold seriesHeader at h
    split at h
    · obtain ⟨rfl, -⟩ := Prod.mk.inj (Option.some.inj h)
      trivial
    · contradiction
  · unfold tableHeader at h
    split at h
    · obtain ⟨rfl, -⟩ := Prod.mk.inj (Option.some.inj h)
      trivial
    · contradiction
  · obtain ⟨⟨pair, _⟩, hpair, hfound⟩ := Option.map_eq_some_iff.mp h
    obtain ⟨rfl, -⟩ := Prod.mk.inj hfound
    exact (value_readsKeyed _).pair hpair

/-- Statements that are read have values that keep their keys distinct. -/
theorem distinct_of_statements {fuel : Nat} {chars : List Char} {found : List Statement}
    (h : statements fuel chars = some found) : ∀ statement ∈ found, statement.Distinct := by
  induction fuel generalizing chars found with
  | zero => contradiction
  | succ fuel ih =>
    unfold statements at h
    split at h
    · exact Option.some.inj h ▸ List.forall_mem_nil _
    · split at h
      · contradiction
      · rename_i first _ hfirst
        split at h
        · contradiction
        · obtain ⟨more, hmore, rfl⟩ := Option.map_eq_some_iff.mp h
          exact List.forall_mem_cons.mpr ⟨distinct_of_statement hfirst, ih hmore⟩

/-- Every pair of a file stands before the first header or in one section. -/
theorem distinct_of_sectionsOf {found : List Statement}
    (h : ∀ statement ∈ found, statement.Distinct) :
    (∀ pair ∈ (sectionsOf found).1, pair.value.Keyed List.Nodup) ∧
      ∀ part ∈ (sectionsOf found).2, ∀ pair ∈ part.pairs, pair.value.Keyed List.Nodup := by
  induction found with
  | nil => simp [sectionsOf]
  | cons first rest ih =>
    obtain ⟨hfirst, hrest⟩ := List.forall_mem_cons.mp h
    obtain ⟨hpairs, hsections⟩ := ih hrest
    cases first with
    | header keys inSeries =>
      exact ⟨List.forall_mem_nil _, List.forall_mem_cons.mpr ⟨hpairs, hsections⟩⟩
    | pair pair => exact ⟨List.forall_mem_cons.mpr ⟨hfirst, hpairs⟩, hsections⟩

/-- No table of a file that was read holds a key twice, at any depth. -/
theorem keyed_of_parse? {text : String} {tree : Value} (h : parse? text = some tree) :
    tree.Keyed List.Nodup := by
  obtain ⟨found, hfound, hdocument⟩ := Option.bind_eq_some_iff.mp h
  obtain ⟨hpairs, hsections⟩ := distinct_of_sectionsOf (distinct_of_statements hfound)
  exact keyed_of_documentOf hpairs hsections hdocument

/-- The standard format reads trees of tables from keys to values. -/
theorem standard_lawful : standard.Lawful := by
  intro text tree h
  simp only [standard] at h
  split at h
  · rename_i table hparse
    exact Except.ok.inj h ▸ keyed_of_parse? hparse
  · contradiction

end EntityCatalog.Toml

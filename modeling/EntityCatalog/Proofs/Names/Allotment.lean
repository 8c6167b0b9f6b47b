import EntityCatalog.Proofs.Address.Effects
import EntityCatalog.Proofs.Address.Events

/-!
# Ids are never recycled

Of everything that happens to a registry it is noted which ids it gave for which names and which
renames it made. An id that has an id row keeps one for ever, and a name is bound only to an id without
one, so no id is allotted twice. From then on the id has at most one name: the one to which the renames
made since have carried it. Unbinding the name or replacing its binding leaves the id without a name.
-/

namespace EntityCatalog

namespace Names

/-- What is noted of an event: an id was allotted to a name that was not bound, the id of a bound name
was shown, or a rename was made. -/
inductive Note where
  | allotted (name : String) (id : UInt64)
  | shown (name : String) (id : UInt64)
  | moved (old new : String)
  | quiet
deriving DecidableEq, Repr

namespace Note

/-- The id that a note says was allotted. -/
def allotted? : Note → Option UInt64
  | allotted _ id => some id
  | _ => none

/-- The name and the id that was given for it, allotted or shown. -/
def given? : Note → Option (String × UInt64)
  | allotted name id => some (name, id)
  | shown name id => some (name, id)
  | _ => none

/-- The name to which the id of a name is carried. -/
def carry : Note → String → String
  | moved old new, name => if name = old then new else name
  | _, name => name

end Note

/-- The name to which the id of a name is carried by the renames among the notes, one after another. -/
def carryAll (notes : List Note) (name : String) : String :=
  notes.foldl (fun name note => note.carry name) name

/-- What is noted of a resolved name. -/
def resolveNote (rows : Rows) (name : String) : Except Error UInt64 → Note
  | .ok id => if rows.contains (Layout.nameKey name) then .shown name id else .allotted name id
  | .error _ => .quiet

/-- What is noted of a name that was looked for. -/
def findNote (name : String) : Except Error (Option UInt64) → Note
  | .ok (some id) => .shown name id
  | _ => .quiet

/-- What is noted of a rename. -/
def renameNote (old new : String) : Except Error Bool → Note
  | .ok true => .moved old new
  | _ => .quiet

/-- What is noted of an event. -/
def noteOf : Event → Names → Note
  | .serve (.resolve name) _, names => resolveNote names.rows name (names.resolve name).1
  | .serve (.find name) _, names => findNote name (names.find? name).1
  | .serve (.rename old new) _, names => renameNote old new (names.rename old new).1
  | .serve (.renameWith old new replaced along) _, names =>
    renameNote old new (names.renameWith old new replaced along).1
  | _, _ => .quiet

/-- What is noted of events in turn. -/
def notes : List Event → Names → List Note
  | [], _ => []
  | event :: rest, names => noteOf event names :: notes rest (happen event names)

/-- Where a note comes from. -/
theorem notes_eq_append_cons {events : List Event} {names : Names} {earlier later : List Note}
    {note : Note} (h : notes events names = earlier ++ note :: later) :
    ∃ before event after, notes before names = earlier ∧
      note = noteOf event (happenAll before names) ∧
      later = notes after (happen event (happenAll before names)) := by
  induction earlier generalizing events names with
  | nil =>
    cases events with
    | nil => exact absurd h (by simp [notes])
    | cons event rest =>
      obtain ⟨hnote, hlater⟩ := List.cons.inj h
      exact ⟨[], event, rest, rfl, hnote.symm, hlater.symm⟩
  | cons first earlier ih =>
    cases events with
    | nil => exact absurd h (by simp [notes])
    | cons event rest =>
      obtain ⟨hfirst, hrest⟩ := List.cons.inj h
      obtain ⟨before, other, after, hearlier, hnote, hlater⟩ := ih hrest
      exact ⟨event :: before, other, after, by rw [notes, hfirst, hearlier], hnote, hlater⟩

/-- Only renames carry an id to another name. -/
theorem carry_resolveNote (rows : Rows) (asked : String) (outcome : Except Error UInt64)
    (name : String) : (resolveNote rows asked outcome).carry name = name := by
  cases outcome with
  | error fault => rfl
  | ok id =>
    rw [resolveNote]
    split <;> rfl

/-- A look-up carries no id to another name. -/
theorem carry_findNote (asked : String) (outcome : Except Error (Option UInt64)) (name : String) :
    (findNote asked outcome).carry name = name := by
  rcases outcome with fault | _ | id <;> rfl

/-- A rename that was not made is not noted. -/
theorem renameNote_of_ne {outcome : Except Error Bool} (h : outcome ≠ .ok true) (old new : String) :
    renameNote old new outcome = .quiet := by
  rcases outcome with fault | _ | _
  · rfl
  · rfl
  · exact absurd rfl h

/-- The id that is given for a name that is resolved or looked for. -/
theorem given?_resolveNote {rows : Rows} {asked name : String} {outcome : Except Error UInt64}
    {id : UInt64} (h : (resolveNote rows asked outcome).given? = some (name, id)) :
    name = asked ∧ outcome = .ok id := by
  cases outcome with
  | error fault => exact absurd h (by simp [resolveNote, Note.given?])
  | ok id' =>
    rw [resolveNote] at h
    split at h <;>
    · obtain ⟨rfl, rfl⟩ := Prod.mk.inj (Option.some.inj h)
      exact ⟨rfl, rfl⟩

/-- A look-up gives the id that it answers, for the name that was asked for. -/
theorem given?_findNote {asked name : String} {outcome : Except Error (Option UInt64)} {id : UInt64}
    (h : (findNote asked outcome).given? = some (name, id)) :
    name = asked ∧ outcome = .ok (some id) := by
  rcases outcome with fault | _ | id'
  · exact absurd h (by simp [findNote, Note.given?])
  · exact absurd h (by simp [findNote, Note.given?])
  · obtain ⟨rfl, rfl⟩ := Prod.mk.inj (Option.some.inj h)
    exact ⟨rfl, rfl⟩

/-- A rename gives no id. -/
theorem given?_renameNote (old new : String) (outcome : Except Error Bool) :
    (renameNote old new outcome).given? = none := by
  rcases outcome with fault | _ | _ <;> rfl

/-- The id that is allotted to a name that is resolved. -/
theorem allotted?_resolveNote {rows : Rows} {asked : String} {outcome : Except Error UInt64}
    {id : UInt64} (h : (resolveNote rows asked outcome).allotted? = some id) :
    rows.get? (Layout.nameKey asked) = none ∧ outcome = .ok id := by
  cases outcome with
  | error fault => exact absurd h (by simp [resolveNote, Note.allotted?])
  | ok id' =>
    rw [resolveNote] at h
    split at h
    · exact absurd h (by simp [Note.allotted?])
    · rename_i hfree
      exact ⟨(Rows.contains_eq_false_iff _ _).mp (Bool.eq_false_iff.mpr hfree),
        congrArg Except.ok (Option.some.inj h)⟩

/-- A look-up allots no id. -/
theorem allotted?_findNote (asked : String) (outcome : Except Error (Option UInt64)) :
    (findNote asked outcome).allotted? = none := by
  rcases outcome with fault | _ | id <;> rfl

/-- A rename allots no id. -/
theorem allotted?_renameNote (old new : String) (outcome : Except Error Bool) :
    (renameNote old new outcome).allotted? = none := by
  rcases outcome with fault | _ | _ <;> rfl

/-! ## Reserved ids -/

/-- Whether an id has an id row. -/
def Reserved (rows : Rows) (id : UInt64) : Prop := rows.get? (Layout.idKey id) ≠ none

/-- An id stays reserved as the rows grow. -/
theorem Grows.reserved {rows rows' : Rows} (h : Grows rows rows') {id : UInt64}
    (hid : Reserved rows id) : Reserved rows' id := by
  obtain ⟨bytes, hrow⟩ := Option.ne_none_iff_exists'.mp hid
  rw [Reserved, h.get?_eq_some hrow]
  simp

/-- A move takes no id row away. -/
theorem Moved.reserved {rows rows' : Rows} {old new : String} {moved id : UInt64}
    (h : Moved rows rows' old new moved) (hid : Reserved rows id) : Reserved rows' id := by
  rw [Reserved, h]
  split
  · simp
  · rwa [if_neg (Layout.nameKey_ne_idKey new id), if_neg (Layout.nameKey_ne_idKey old id)]

/-- The id of a bound name is reserved. -/
theorem Consistent.reserved {rows : Rows} (h : Consistent rows) {name : String} {id : UInt64}
    (hid : boundId? rows name = some id) : Reserved rows id := by
  rw [Reserved, h.paired name id hid]
  simp

/-- What a request posts to the books takes no id row away. -/
theorem Posted.reserved {rows rows' : Rows} (h : Posted rows rows') {id : UInt64}
    (hid : Reserved rows id) : Reserved rows' id := by
  cases h with
  | nothing hsame => rwa [Reserved, hsame _ (Layout.isBook_idKey id)]
  | binding name id' hname hfree => exact (Grows.refl.bind hname hfree).reserved hid
  | move old new id' hmid hold hmoved =>
    apply hmoved.reserved
    rwa [Reserved, hmid _ (Layout.isBook_idKey id)]
  | removal name => rwa [Reserved, Rows.get?_erase_of_ne _ (Layout.nameKey_ne_idKey name id)]

variable {names : Names}

/-- An id stays reserved whatever happens. -/
theorem Orderly.reserved (h : names.Orderly) (event : Event) {id : UInt64}
    (hid : Reserved names.rows id) : Reserved (Names.happen event names).rows id := by
  cases event with
  | serve request hspare => exact (serve_posted h.faithful h.consistent hspare).reserved hid
  | expire name => exact hid
  | resolveKey address =>
    exact (Address.resolveKey_grows h.faithful h.consistent address).1.reserved hid
  | findKey address =>
    rw [Names.happen, (Address.findKey_read h.faithful h.consistent address).rows]
    exact hid
  | findName address =>
    rw [Names.happen, (Address.findName_read h.faithful h.consistent address).rows]
    exact hid
  | reopen config ids => exact hid

/-- An id stays reserved through all events. -/
theorem Orderly.reserved_happenAll (h : names.Orderly) (events : List Event) {id : UInt64}
    (hid : Reserved names.rows id) : Reserved (Names.happenAll events names).rows id := by
  induction events generalizing names with
  | nil => exact hid
  | cons event rest ih => exact ih (h.happen event) (h.reserved event hid)

/-- A name that is not bound is resolved to an id that was not reserved, and that id is reserved from
then on, with the name in its row. -/
theorem resolve_allots (h : names.Faithful) {name : String} {id : UInt64}
    (hname : names.rows.get? (Layout.nameKey name) = none) (hid : (names.resolve name).1 = .ok id) :
    ¬ Reserved names.rows id ∧ (names.resolve name).2.rows = withBinding names.rows name id := by
  rcases resolve_of_free h hname with ⟨id', hid', hfree, hrows⟩ | ⟨hfault, -⟩
  · obtain rfl := Except.ok.inj (hid'.symm.trans hid)
    exact ⟨fun hreserved => hreserved hfree, hrows⟩
  · exact absurd (hfault.symm.trans hid) (by simp)

/-- An id that is given is afterwards bound to its name. It was so before, unless it is allotted. -/
theorem Orderly.boundId?_of_given (h : names.Orderly) {event : Event} {name : String} {id : UInt64}
    (hgiven : (noteOf event names).given? = some (name, id)) :
    boundId? (Names.happen event names).rows name = some id ∧
      (boundId? names.rows name = some id ∨ ¬ Reserved names.rows id) := by
  cases event with
  | serve request hspare =>
    cases request with
    | resolve asked =>
      obtain ⟨rfl, houtcome⟩ := given?_resolveNote hgiven
      refine ⟨(resolve_grows h.faithful h.consistent name).2 id houtcome, ?_⟩
      cases hbound : boundId? names.rows name with
      | none =>
        have hname := (h.consistent.boundId?_eq_none_iff name).mp hbound
        exact Or.inr (resolve_allots h.faithful hname houtcome).1
      | some bound =>
        rw [(resolve_of_bound h.faithful h.consistent hbound).1] at houtcome
        exact Or.inl (congrArg some (Except.ok.inj houtcome))
    | find asked =>
      obtain ⟨rfl, houtcome⟩ := given?_findNote hgiven
      rw [find?_eq h.faithful h.consistent name] at houtcome
      have hbound := Except.ok.inj houtcome
      have hrows : (Names.happen (.serve (.find name) hspare) names).rows = names.rows :=
        (find?_read h.faithful name).rows
      exact ⟨hrows ▸ hbound, Or.inl hbound⟩
    | rename old new =>
      rw [noteOf, given?_renameNote] at hgiven
      exact absurd hgiven (by simp)
    | renameWith old new replaced along =>
      rw [noteOf, given?_renameNote] at hgiven
      exact absurd hgiven (by simp)
    | _ => exact absurd hgiven (by simp [noteOf, Note.given?])
  | _ => exact absurd hgiven (by simp [noteOf, Note.given?])

/-- An id that is allotted was not reserved before, and it is from then on. -/
theorem Orderly.reserved_of_allotted (h : names.Orderly) {event : Event} {id : UInt64}
    (hallotted : (noteOf event names).allotted? = some id) :
    ¬ Reserved names.rows id ∧ Reserved (Names.happen event names).rows id := by
  cases event with
  | serve request hspare =>
    cases request with
    | resolve name =>
      obtain ⟨hname, houtcome⟩ := allotted?_resolveNote hallotted
      obtain ⟨hunreserved, hrows⟩ := resolve_allots h.faithful hname houtcome
      have hafter : (Names.happen (.serve (.resolve name) hspare) names).rows =
          withBinding names.rows name id := hrows
      refine ⟨hunreserved, ?_⟩
      rw [Reserved, hafter, get?_withBinding, if_pos rfl]
      simp
    | find name =>
      rw [noteOf, allotted?_findNote] at hallotted
      exact absurd hallotted (by simp)
    | rename old new =>
      rw [noteOf, allotted?_renameNote] at hallotted
      exact absurd hallotted (by simp)
    | renameWith old new replaced along =>
      rw [noteOf, allotted?_renameNote] at hallotted
      exact absurd hallotted (by simp)
    | _ => exact absurd hallotted (by simp [noteOf, Note.allotted?])
  | _ => exact absurd hallotted (by simp [noteOf, Note.allotted?])

/-! ## The name of an id -/

/-- A reserved id whose only name, if it has one, is the given one. -/
structure Carried (rows : Rows) (id : UInt64) (name : String) : Prop where
  reserved : Reserved rows id
  only : ∀ other, boundId? rows other = some id → other = name

namespace Carried

variable {rows rows' : Rows} {id : UInt64} {name : String}

/-- The id of a bound name is carried by that name. -/
theorem of_bound (hrows : Consistent rows) (hid : boundId? rows name = some id) :
    Carried rows id name :=
  ⟨hrows.reserved hid, fun _ hother => hrows.name_unique hother hid⟩

/-- An id stays with its name as long as it is reserved and bound to no name anew. -/
theorem mono (h : Carried rows id name) (hreserved : Reserved rows' id)
    (hbound : ∀ other, boundId? rows' other = some id → boundId? rows other = some id) :
    Carried rows' id name :=
  ⟨hreserved, fun other hother => h.only other (hbound other hother)⟩

/-- An id stays with its name as long as the books stay the same. -/
theorem sameBooks (h : Carried rows id name) (hsame : SameBooks rows rows') :
    Carried rows' id name :=
  h.mono ((Posted.nothing hsame).reserved h.reserved) fun other hother =>
    (boundId?_congr (hsame _ (Layout.isBook_nameKey other))).symm.trans hother

/-- Names are bound to ids that are not reserved. -/
theorem grows (h : Carried rows id name) (hgrows : Grows rows rows') : Carried rows' id name := by
  induction hgrows with
  | refl => exact h
  | @bind mid free id' hmid hname hid ih =>
    refine ih.mono ((Posted.binding free id' hname hid).reserved ih.reserved) fun other hother => ?_
    rw [boundId?_withBinding] at hother
    split at hother
    · rw [Option.some.inj hother] at hid
      exact absurd hid ih.reserved
    · exact hother

/-- An id stays with its name when some name is unbound. -/
theorem removal (h : Carried rows id name) (unbound : String) :
    Carried (rows.erase (Layout.nameKey unbound)) id name := by
  refine h.mono ((Posted.removal unbound).reserved h.reserved) fun other hother => ?_
  rw [boundId?_eq_some_iff, Rows.get?_erase] at hother
  split at hother
  · exact absurd hother (by simp)
  · exact (boundId?_eq_some_iff _ _ _).mpr hother

/-- A move carries the id of the old name to the new one, and takes the new name from any other. -/
theorem move (h : Carried rows id name) {mid : Rows} {old new : String} {id' : UInt64}
    (hmid : SameBooks rows mid) (hold : boundId? rows old = some id')
    (hmoved : Moved mid rows' old new id') :
    Carried rows' id (if name = old then new else name) := by
  refine ⟨(Posted.move old new id' hmid hold hmoved).reserved h.reserved, fun other hother => ?_⟩
  rw [hmoved.boundId?_eq] at hother
  split at hother
  · rename_i heq
    obtain rfl := Option.some.inj hother
    rw [if_pos (h.only old hold).symm, heq]
  · split at hother
    · exact absurd hother (by simp)
    · rename_i hne
      have hsame := h.only other
        ((boundId?_congr (hmid _ (Layout.isBook_nameKey other))).symm.trans hother)
      rw [if_neg fun heq => hne (hsame.trans heq).symm, hsame]

end Carried

/-- A rename carries an id along when it is made, and otherwise leaves it with its name. -/
theorem Carried.renameWith {id : UInt64} {name : String} (h : Carried names.rows id name)
    (hfaithful : names.Faithful) (hrows : Consistent names.rows) (old new : String)
    (replaced : Option UInt64) {along : List Change} (halong : SparesBooks along) :
    Carried (names.renameWith old new replaced along).2.rows id
      ((renameNote old new (names.renameWith old new replaced along).1).carry name) := by
  rcases names.renameWith_cases old new replaced along with ⟨hmade, -⟩ | ⟨hrefused, hsame⟩
  · rw [hmade]
    rcases renameWith_made hfaithful hrows halong hmade with
      ⟨rfl, hbooks⟩ | ⟨mid, id', hmid, hold, hmoved⟩
    · have hcarry : (renameNote old old (.ok true)).carry name = name := by
        rw [renameNote, Note.carry]
        split
        · exact Eq.symm ‹_›
        · rfl
      rw [hcarry]
      exact h.sameBooks hbooks
    · exact h.move hmid hold hmoved
  · rw [renameNote_of_ne hrefused, hsame]
    exact h

/-- An event carries an id to the name that is noted of it. -/
theorem Carried.happen {id : UInt64} {name : String} (h : Carried names.rows id name)
    (hnames : names.Orderly) (event : Event) :
    Carried (Names.happen event names).rows id ((noteOf event names).carry name) := by
  cases event with
  | serve request hspare =>
    cases request with
    | resolve asked =>
      rw [noteOf, carry_resolveNote]
      exact h.grows (resolve_grows hnames.faithful hnames.consistent asked).1
    | find asked =>
      have hrows : (Names.happen (.serve (.find asked) hspare) names).rows = names.rows :=
        (find?_read hnames.faithful asked).rows
      rw [noteOf, carry_findNote, hrows]
      exact h
    | rename old new =>
      exact h.renameWith hnames.faithful hnames.consistent old new none (by simp [SparesBooks])
    | renameWith old new replaced along =>
      exact h.renameWith hnames.faithful hnames.consistent old new replaced hspare
    | unbind unbound => exact h.removal unbound
    | write changes => exact h.sameBooks (.batch names.rows hspare)
    | _ => exact h
  | expire name => exact h
  | resolveKey address =>
    exact h.grows (Address.resolveKey_grows hnames.faithful hnames.consistent address).1
  | findKey address =>
    rw [Names.happen, (Address.findKey_read hnames.faithful hnames.consistent address).rows]
    exact h
  | findName address =>
    rw [Names.happen, (Address.findName_read hnames.faithful hnames.consistent address).rows]
    exact h
  | reopen config ids => exact h

/-- Events carry an id to the name that follows from what is noted of them. -/
theorem Carried.happenAll {id : UInt64} {name : String} (h : Carried names.rows id name)
    (hnames : names.Orderly) (events : List Event) :
    Carried (Names.happenAll events names).rows id (carryAll (notes events names) name) := by
  induction events generalizing names name with
  | nil => exact h
  | cons event rest ih => exact ih (h.happen hnames event) (hnames.happen event)

/-! ## The whole life of a registry -/

/-- The ids that are allotted while events happen differ from each other and from those that were
reserved before. -/
theorem Orderly.allotted_nodup (h : names.Orderly) (events : List Event) :
    ((notes events names).filterMap Note.allotted?).Nodup ∧
      ∀ id ∈ (notes events names).filterMap Note.allotted?, ¬ Reserved names.rows id := by
  induction events generalizing names with
  | nil => exact ⟨List.nodup_nil, by simp [notes]⟩
  | cons event rest ih =>
    obtain ⟨hnodup, hfresh⟩ := ih (h.happen event)
    have hrest : ∀ id ∈ (notes rest (Names.happen event names)).filterMap Note.allotted?,
        ¬ Reserved names.rows id :=
      fun id hid hreserved => hfresh id hid (h.reserved event hreserved)
    rw [notes, List.filterMap_cons]
    split
    · exact ⟨hnodup, hrest⟩
    · rename_i id hallotted
      obtain ⟨hnew, hreserved⟩ := h.reserved_of_allotted hallotted
      refine ⟨List.nodup_cons.mpr ⟨fun hmem => hfresh id hmem hreserved, hnodup⟩, ?_⟩
      exact List.forall_mem_cons.mpr ⟨hnew, hrest⟩

/-- An id that is given once is given later only for the name to which it was carried since. -/
theorem Orderly.given_carried (h : names.Orderly) {events : List Event}
    {earlier between later : List Note} {first second : Note} {name name' : String} {id : UInt64}
    (hnotes : notes events names = earlier ++ first :: (between ++ second :: later))
    (hfirst : first.given? = some (name, id)) (hsecond : second.given? = some (name', id)) :
    name' = carryAll between name := by
  obtain ⟨before, event, after, -, rfl, hafter⟩ := notes_eq_append_cons hnotes
  have hstart := h.happenAll before
  have hbound := (hstart.boundId?_of_given hfirst).1
  have hnext := hstart.happen event
  -- The id is followed from the event that gave it first to the one that gave it again.
  obtain ⟨mid, again, rest, rfl, rfl, -⟩ := notes_eq_append_cons hafter.symm
  have hcarried := (Carried.of_bound hnext.consistent hbound).happenAll hnext mid
  rcases ((hnext.happenAll mid).boundId?_of_given hsecond).2 with hstill | hfree
  · exact hcarried.only name' hstill
  · exact absurd hcarried.reserved hfree

/-- After any events since there were no rows, a reserved id stays reserved; a name that is not bound is
resolved to an id that was not reserved, if to any; no id was allotted twice; and an id that was given
for a name was given again only for the name to which the renames in between had carried it. -/
theorem ids_never_recycled (config : Config) (ids : IdSource) (events : List Event) :
    let start := Names.create config .empty ids
    let names := happenAll events start
    (∀ more id, Reserved names.rows id → Reserved (happenAll more names).rows id) ∧
    (∀ name id, names.rows.get? (Layout.nameKey name) = none → (names.resolve name).1 = .ok id →
      ¬ Reserved names.rows id ∧
        (names.resolve name).2.rows.get? (Layout.idKey id) = some (Text.utf8 name)) ∧
    ((notes events start).filterMap Note.allotted?).Nodup ∧
    ∀ earlier between later first second name name' id,
      notes events start = earlier ++ first :: (between ++ second :: later) →
      first.given? = some (name, id) → second.given? = some (name', id) →
      name' = carryAll between name := by
  intro start names
  have hstart : start.Orderly := .create config .empty ids
  have hnames : names.Orderly := hstart.happenAll events
  refine ⟨fun more id => hnames.reserved_happenAll more, fun name id hname hid => ?_,
    (hstart.allotted_nodup events).1, fun _ _ _ _ _ _ _ _ => hstart.given_carried⟩
  obtain ⟨hunreserved, hrows⟩ := resolve_allots hnames.faithful hname hid
  exact ⟨hunreserved, by rw [hrows, get?_withBinding, if_pos rfl]⟩

/-- Events in which a binding is replaced and the registry is opened anew with a source that gives the
ids in use once more. -/
def recyclingEvents : List Event :=
  [.serve (.resolve "a") trivial, .serve (.resolve "b") trivial,
    .serve (.renameWith "a" "b" (some 1) []) (by simp [Request.SparesBooks, SparesBooks]),
    .reopen {} (.countingFrom 0), .serve (.find "b") trivial]

/-- An id that was given up is not allotted again, although the source gives it once more. -/
theorem ids_never_recycled_replaced :
    notes recyclingEvents (.create {} .empty (.countingFrom 0)) =
        [.allotted "a" 0, .allotted "b" 1, .moved "a" "b", .quiet, .shown "b" 0] ∧
      carryAll [.allotted "b" 1, .moved "a" "b", .quiet] "a" = "b" ∧
      let names := happenAll recyclingEvents (.create {} .empty (.countingFrom 0))
      (names.resolve "c").1 = .ok 2 ∧ ¬ Reserved names.rows 2 := by
  have hnotes : notes recyclingEvents (.create {} .empty (.countingFrom 0)) =
      [.allotted "a" 0, .allotted "b" 1, .moved "a" "b", .quiet, .shown "b" 0] := by
    rfl
  obtain ⟨-, hresolve, -, hgiven⟩ := ids_never_recycled {} (.countingFrom 0) recyclingEvents
  exact ⟨hnotes, (hgiven [] [.allotted "b" 1, .moved "a" "b", .quiet] [] _ _ "a" "b" 0
    hnotes rfl rfl).symm, by rfl, (hresolve "c" 2 (by rfl) (by rfl)).1⟩

end Names

end EntityCatalog

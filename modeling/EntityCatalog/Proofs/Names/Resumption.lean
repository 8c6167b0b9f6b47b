import EntityCatalog.Proofs.Names.Draws

/-!
# Counting on after the highest id

The id rows of a registry are those of the ids that were allotted in it: unbinding a name or moving
its id takes none away and adds none. Their keys are in the numeric order of the ids, so the last of
them is that of the greatest id ever allotted. A source that counts up from the id after it never meets
an id row, whatever the sources before it gave, and each name that is bound from then on gets the next
number on the first draw.
-/

namespace EntityCatalog

namespace Names

/-- Whether an event is a request, the expiry of a binding, or opens the registry anew. The ids that are
allotted in such an event are noted. -/
def Event.IsNoted : Event → Prop
  | .serve _ _ => True
  | .expire _ => True
  | .reopen _ _ => True
  | _ => False

/-- Whether an event is a request or the expiry of a binding. -/
def Event.IsServed : Event → Prop
  | .serve _ _ => True
  | .expire _ => True
  | _ => False

/-- What is allotted in a request is noted. -/
theorem Event.IsServed.isNoted {event : Event} (h : event.IsServed) : event.IsNoted := by
  cases event with
  | serve request hspare => trivial
  | expire name => trivial
  | _ => exact h.elim

/-! ## The id rows -/

/-- The keys that extend the stem of the id rows are stored for the given ids and for no others. -/
def Allotted (rows : Rows) (ids : List UInt64) : Prop :=
  ∀ key, Layout.idStem <+: key → (rows.get? key ≠ none ↔ ∃ id ∈ ids, key = Layout.idKey id)

namespace Allotted

variable {rows rows' : Rows} {ids : List UInt64}

/-- Without rows no id is allotted. -/
theorem empty : Allotted Rows.empty [] := fun key _ => by simp

/-- An id is reserved exactly if it was allotted. -/
theorem reserved_iff (h : Allotted rows ids) (id : UInt64) : Reserved rows id ↔ id ∈ ids := by
  have hrow := h (Layout.idKey id) (List.prefix_append _ _)
  rw [Reserved, hrow]
  constructor
  · rintro ⟨id', hid', heq⟩
    rwa [Layout.idKey_injective heq]
  · exact fun hid => ⟨id, hid, rfl⟩

/-- Rows that keep the id rows. -/
theorem congr (h : Allotted rows ids)
    (hsame : ∀ key, Layout.idStem <+: key → rows'.get? key = rows.get? key) : Allotted rows' ids :=
  fun key hstem => by rw [hsame key hstem, h key hstem]

/-- The same books have the same ids allotted. -/
theorem sameBooks (h : Allotted rows ids) (hsame : SameBooks rows rows') : Allotted rows' ids :=
  h.congr fun key hstem => hsame key (Or.inr hstem)

/-- The keys of name rows do not extend the stem of the id rows. -/
theorem nameKey_ne_of_idStem {key : Bytes} (hstem : Layout.idStem <+: key) (name : String) :
    Layout.nameKey name ≠ key := by
  rintro rfl
  simp [Layout.idStem, Layout.nameKey, Layout.nameStem] at hstem

/-- Unbinding a name leaves its id allotted. -/
theorem removal (h : Allotted rows ids) (name : String) :
    Allotted (rows.erase (Layout.nameKey name)) ids :=
  h.congr fun _ hstem => Rows.get?_erase_of_ne rows (nameKey_ne_of_idStem hstem name)

/-- A binding adds the id row of its id. -/
theorem binding (h : Allotted rows ids) (name : String) (id : UInt64) :
    Allotted (withBinding rows name id) (ids ++ [id]) := by
  intro key hstem
  rw [get?_withBinding, if_neg (nameKey_ne_of_idStem hstem name)]
  by_cases hkey : Layout.idKey id = key
  · rw [if_pos hkey]
    exact iff_of_true (by simp) ⟨id, List.mem_append_right ids List.mem_cons_self, hkey.symm⟩
  · rw [if_neg hkey, h key hstem]
    constructor
    · rintro ⟨id', hid', heq⟩
      exact ⟨id', List.mem_append_left [id] hid', heq⟩
    · rintro ⟨id', hid', rfl⟩
      refine ⟨id', (List.mem_append.mp hid').resolve_right fun hlast => ?_, rfl⟩
      rw [List.mem_singleton.mp hlast] at hkey
      exact hkey rfl

/-- A move rewrites the id row of an id that has one. -/
theorem move (h : Allotted rows ids) {old new : String} {id : UInt64} (hid : id ∈ ids)
    (hmoved : Moved rows rows' old new id) : Allotted rows' ids := by
  intro key hstem
  rw [hmoved key, if_neg (nameKey_ne_of_idStem hstem new), if_neg (nameKey_ne_of_idStem hstem old)]
  by_cases hkey : Layout.idKey id = key
  · rw [if_pos hkey]
    exact iff_of_true (by simp) ⟨id, hid, hkey.symm⟩
  · rw [if_neg hkey, h key hstem]

end Allotted

variable {names : Names} {ids : List UInt64}

/-- A rename adds no id row and takes none away. -/
theorem Allotted.renameWith (h : Allotted names.rows ids) (hfaithful : names.Faithful)
    (hrows : Consistent names.rows) (old new : String) (replaced : Option UInt64)
    {along : List Change} (halong : SparesBooks along) :
    Allotted (names.renameWith old new replaced along).2.rows ids := by
  rcases names.renameWith_cases old new replaced along with ⟨hmade, -⟩ | ⟨-, hsame⟩
  · rcases renameWith_made hfaithful hrows halong hmade with
      ⟨-, hbooks⟩ | ⟨mid, id, hmid, hold, hmoved⟩
    · exact h.sameBooks hbooks
    · have hreserved : Reserved names.rows id := by
        rw [Reserved, hrows.paired old id hold]
        simp
      exact (h.sameBooks hmid).move ((h.reserved_iff id).mp hreserved) hmoved
  · rw [hsame]
    exact h

/-- What is noted of a name that is bound is no allotment. -/
theorem allotted?_resolveNote_of_bound {rows : Rows} {name : String} {bytes : Bytes}
    (hname : rows.get? (Layout.nameKey name) = some bytes) (outcome : Except Error UInt64) :
    (resolveNote rows name outcome).allotted? = none := by
  cases outcome with
  | error fault => rfl
  | ok id => simp [resolveNote, Rows.contains, hname, Note.allotted?]

/-- The id with which a free name is resolved is allotted. -/
theorem allotted?_resolveNote_of_free {rows : Rows} {name : String}
    (hname : rows.get? (Layout.nameKey name) = none) (id : UInt64) :
    (resolveNote rows name (.ok id)).allotted? = some id := by
  simp [resolveNote, Rows.contains, hname, Note.allotted?]

/-- Resolving a name adds the id row of the id that is noted as allotted, if one is. -/
theorem Allotted.resolve (h : Allotted names.rows ids) (hnames : names.Orderly) (name : String) :
    Allotted (names.resolve name).2.rows
      (ids ++ (resolveNote names.rows name (names.resolve name).1).allotted?.toList) := by
  cases hbound : boundId? names.rows name with
  | some id =>
    obtain ⟨-, hread⟩ := resolve_of_bound hnames.faithful hnames.consistent hbound
    rw [hread.rows, allotted?_resolveNote_of_bound ((boundId?_eq_some_iff _ _ _).mp hbound),
      Option.toList_none, List.append_nil]
    exact h
  | none =>
    have hname := (hnames.consistent.boundId?_eq_none_iff name).mp hbound
    rcases resolve_of_free hnames.faithful hname with ⟨id, hid, -, hrows⟩ | ⟨hfault, hrows⟩
    · rw [hrows, hid, allotted?_resolveNote_of_free hname, Option.toList_some]
      exact h.binding name id
    · have hquiet : (resolveNote names.rows name (names.resolve name).1).allotted? = none := by
        rw [hfault]
        rfl
      rw [hrows, hquiet, Option.toList_none, List.append_nil]
      exact h

/-- An event adds the id row of the id that is noted as allotted, if one is. -/
theorem Allotted.happen (h : Allotted names.rows ids) (hnames : names.Orderly) {event : Event}
    (hevent : event.IsNoted) :
    Allotted (Names.happen event names).rows (ids ++ (noteOf event names).allotted?.toList) := by
  have hquiet {rows : Rows} {note : Note} (hrows : Allotted rows ids)
      (hnote : note.allotted? = none) : Allotted rows (ids ++ note.allotted?.toList) := by
    rw [hnote, Option.toList_none, List.append_nil]
    exact hrows
  cases event with
  | serve request hspare =>
    cases request with
    | resolve name => exact h.resolve hnames name
    | find name =>
      have hrows : (Names.happen (.serve (.find name) hspare) names).rows = names.rows :=
        (find?_read hnames.faithful name).rows
      exact hquiet (hrows ▸ h) (allotted?_findNote name _)
    | rename old new =>
      exact hquiet (h.renameWith hnames.faithful hnames.consistent old new none
        (by simp [SparesBooks])) (allotted?_renameNote old new _)
    | renameWith old new replaced along =>
      exact hquiet (h.renameWith hnames.faithful hnames.consistent old new replaced hspare)
        (allotted?_renameNote old new _)
    | unbind name => exact hquiet (h.removal name) rfl
    | write changes => exact hquiet (h.sameBooks (.batch names.rows hspare)) rfl
    | _ => exact hquiet h rfl
  | expire name => exact hquiet h rfl
  | reopen config source => exact hquiet h rfl
  | _ => exact hevent.elim

/-- The id rows after events are those before and those of the ids allotted while they happened. -/
theorem Allotted.happenAll (h : Allotted names.rows ids) (hnames : names.Orderly)
    {events : List Event} (hevents : ∀ event ∈ events, event.IsNoted) :
    Allotted (Names.happenAll events names).rows
      (ids ++ (notes events names).filterMap Note.allotted?) := by
  induction events generalizing names ids with
  | nil => simpa [Names.happenAll, notes] using h
  | cons event rest ih =>
    obtain ⟨hevent, hrest⟩ := List.forall_mem_cons.mp hevents
    have hstep := ih (h.happen hnames hevent) (hnames.happen event) hrest
    rw [List.append_assoc] at hstep
    rw [Names.happenAll, notes, List.filterMap_cons]
    cases hallotted : (noteOf event names).allotted? <;> simpa [hallotted] using hstep

/-- The highest id that has an id row is the greatest of those allotted. -/
theorem Allotted.highestId?_eq {rows : Rows} (h : Allotted rows ids) :
    ∃ highest, highestId? rows = .ok highest ∧ (highest = none ↔ ids = []) ∧
      ∀ id, highest = some id → id ∈ ids ∧ ∀ other ∈ ids, other ≤ id := by
  have hrow {id : UInt64} (hid : id ∈ ids) : rows.get? (Layout.idKey id) ≠ none :=
    (h.reserved_iff id).mpr hid
  cases hlast : rows.last? Layout.idStem with
  | none =>
    refine ⟨none, by rw [highestId?, hlast], iff_of_true rfl ?_, by simp⟩
    rw [Rows.last?_eq_none_iff] at hlast
    exact List.eq_nil_iff_forall_not_mem.mpr fun id hid =>
      hrow hid (hlast _ (List.prefix_append _ _))
  | some row =>
    obtain ⟨⟨hstem, hstored⟩, hgreatest⟩ := Rows.last?_greatest hlast
    obtain ⟨id, hid, hkey⟩ := (h row.1 hstem).mp (by simp [hstored])
    have hread : highestId? rows = .ok (some id) := by
      simp [highestId?, hlast, hkey, Layout.idKey, readId, Except.map]
    refine ⟨some id, hread, iff_of_false (by simp) (List.ne_nil_of_mem hid), fun id' heq => ?_⟩
    obtain rfl := Option.some.inj heq
    refine ⟨hid, fun other hother => ?_⟩
    have hle := hgreatest (Layout.idKey other) (List.prefix_append _ _) (hrow hother)
    rw [hkey] at hle
    rcases hle with heq | hlt
    · exact UInt64.le_of_eq (Layout.idKey_injective heq)
    · exact UInt64.le_of_lt (wordBytes_lt_iff.mp ((append_lt_append_iff _).mp hlt))

/-! ## A source that counts on -/

/-- The number that comes after the highest id. -/
def numberAfter : Option UInt64 → Nat
  | none => 0
  | some id => id.toNat + 1

/-- A source that counts up after the highest id gives the numbers after it in turn. -/
theorem stream_resumeAfter (highest : Option UInt64) (n : Nat) :
    (IdSource.resumeAfter highest).stream n = UInt64.ofNat (numberAfter highest + n) := by
  cases highest with
  | none =>
    have hzero : (IdSource.resumeAfter none).stream n = 0 + UInt64.ofNat n := rfl
    rw [hzero, numberAfter, UInt64.zero_add, Nat.zero_add]
  | some id =>
    have hnext : (IdSource.resumeAfter (some id)).stream n = id + 1 + UInt64.ofNat n := rfl
    rw [hnext, numberAfter, UInt64.ofNat_add, UInt64.ofNat_add, UInt64.ofNat_toNat]
    rfl

/-- Whether an event resolves a name that is not bound. -/
def Event.bindsNew : Event → Names → Bool
  | .serve (.resolve name) _, names => !names.rows.contains (Layout.nameKey name)
  | _, _ => false

/-- The number of events that resolve a name that is not bound when they happen. -/
def newNames : List Event → Names → Nat
  | [], _ => 0
  | event :: rest, names => (event.bindsNew names).toNat + newNames rest (happen event names)

/-! ## Requests after the restart -/

/-- A name that is not bound gets the next id of the source on the first draw, if no row is in the
way. -/
theorem resolve_firstDraw (h : names.Faithful) {name : String}
    (hname : names.rows.get? (Layout.nameKey name) = none) (hid : ¬ Reserved names.rows names.ids.peek) :
    (names.resolve name).1 = .ok names.ids.peek ∧
      (names.resolve name).2.ids = names.ids.advance := by
  obtain ⟨hanswer, hids, -⟩ := resolve_of_firstFree h hname (n := 0) (by decide)
    (fun k hk => absurd hk (Nat.not_lt_zero k)) hid
  exact ⟨hanswer, hids⟩

/-- A rename draws no id. -/
theorem ids_renameWith (names : Names) (old new : String) (replaced : Option UInt64)
    (along : List Change) : (names.renameWith old new replaced along).2.ids = names.ids := by
  rw [renameWith]
  split
  · rfl
  · rfl
  · split
    · rfl
    · rw [commitRename]
      split <;> rfl

/-- Only a request to resolve a name resolves a new one. -/
theorem Event.eq_of_bindsNew {event : Event} (h : event.bindsNew names = true) :
    ∃ name, event = .serve (.resolve name) trivial ∧
      names.rows.get? (Layout.nameKey name) = none := by
  cases event with
  | serve request hspare =>
    cases request with
    | resolve name =>
      refine ⟨name, rfl, (Rows.contains_eq_false_iff _ _).mp ?_⟩
      simpa [Event.bindsNew] using h
    | _ => exact absurd h Bool.false_ne_true
  | _ => exact absurd h Bool.false_ne_true

/-- A request that does not resolve a new name allots no id and draws none. -/
theorem Orderly.quiet_of_not_bindsNew (h : names.Orderly) {event : Event} (hserved : event.IsServed)
    (hnew : event.bindsNew names = false) :
    (noteOf event names).allotted? = none ∧ (Names.happen event names).ids = names.ids := by
  cases event with
  | serve request hspare =>
    cases request with
    | resolve name =>
      have hcontains : names.rows.contains (Layout.nameKey name) = true := by
        simpa [Event.bindsNew] using hnew
      obtain ⟨bytes, hbytes⟩ := Option.isSome_iff_exists.mp hcontains
      obtain ⟨id, rfl⟩ := h.consistent.legible name bytes hbytes
      have hbound := (boundId?_eq_some_iff _ _ _).mpr hbytes
      exact ⟨allotted?_resolveNote_of_bound hbytes _,
        (resolve_of_bound h.faithful h.consistent hbound).2.ids⟩
    | find name => exact ⟨allotted?_findNote name _, (find?_read h.faithful name).ids⟩
    | rename old new => exact ⟨allotted?_renameNote old new _, ids_renameWith names old new none []⟩
    | renameWith old new replaced along =>
      exact ⟨allotted?_renameNote old new _, ids_renameWith names old new replaced along⟩
    | _ => exact ⟨rfl, rfl⟩
  | expire name => exact ⟨rfl, rfl⟩
  | _ => exact hserved.elim

/-- A registry that counts on after the highest id of an earlier life: its source has given `n` numbers,
and the ids that were allotted lie below the next one. -/
structure CountsOn (highest : Option UInt64) (n : Nat) (ids : List UInt64) (names : Names) : Prop where
  orderly : names.Orderly
  source : names.ids = { IdSource.resumeAfter highest with drawn := n }
  allotted : Allotted names.rows ids
  below : ∀ id ∈ ids, id.toNat < numberAfter highest + n

namespace CountsOn

variable {highest : Option UInt64} {n : Nat}

/-- The next number is free. -/
theorem next (h : CountsOn highest n ids names) (hroom : numberAfter highest + n < 2 ^ 64) :
    names.ids.peek = UInt64.ofNat (numberAfter highest + n) ∧
      ¬ Reserved names.rows names.ids.peek := by
  have hpeek : names.ids.peek = UInt64.ofNat (numberAfter highest + n) := by
    rw [h.source]
    exact stream_resumeAfter highest n
  refine ⟨hpeek, fun hreserved => ?_⟩
  have hlt := h.below _ ((h.allotted.reserved_iff _).mp hreserved)
  rw [hpeek, UInt64.toNat_ofNat_of_lt' hroom] at hlt
  exact Nat.lt_irrefl _ hlt

/-- A name that is not bound gets the next number on the first draw. -/
theorem resolve_eq (h : CountsOn highest n ids names) (hroom : numberAfter highest + n < 2 ^ 64)
    {name : String} (hname : names.rows.get? (Layout.nameKey name) = none) :
    (names.resolve name).1 = .ok (UInt64.ofNat (numberAfter highest + n)) ∧
      (names.resolve name).2.ids = names.ids.advance := by
  obtain ⟨hpeek, hfree⟩ := h.next hroom
  rw [← hpeek]
  exact resolve_firstDraw h.orderly.faithful hname hfree

/-- A request takes the next number if it resolves a new name, and none otherwise. -/
theorem happen (h : CountsOn highest n ids names) {event : Event} (hserved : event.IsServed)
    (hroom : numberAfter highest + (n + (event.bindsNew names).toNat) ≤ 2 ^ 64) :
    CountsOn highest (n + (event.bindsNew names).toNat)
      (ids ++ (noteOf event names).allotted?.toList) (Names.happen event names) := by
  have hallotted := h.allotted.happen h.orderly hserved.isNoted
  cases hnew : event.bindsNew names with
  | false =>
    obtain ⟨hquiet, hids⟩ := h.orderly.quiet_of_not_bindsNew hserved hnew
    refine ⟨h.orderly.happen event, hids.trans h.source, hallotted, ?_⟩
    rw [hquiet, Option.toList_none, List.append_nil]
    exact h.below
  | true =>
    rw [hnew] at hroom
    obtain ⟨name, rfl, hname⟩ := Event.eq_of_bindsNew hnew
    have hlt : numberAfter highest + n < 2 ^ 64 := hroom
    obtain ⟨hanswer, hdrawn⟩ := h.resolve_eq hlt hname
    refine ⟨h.orderly.happen _, ?_, hallotted, fun id hid => ?_⟩
    · refine hdrawn.trans ?_
      rw [h.source]
      rfl
    · rcases List.mem_append.mp hid with hold | hlast
      · exact Nat.lt_succ_of_lt (h.below id hold)
      · have hnext := allotted?_resolveNote (Option.mem_toList.mp hlast)
        obtain rfl := Except.ok.inj (hanswer.symm.trans hnext.2)
        rw [UInt64.toNat_ofNat_of_lt' hlt]
        exact Nat.lt_succ_self _

/-- Requests take as many numbers as they resolve new names. -/
theorem happenAll (h : CountsOn highest n ids names) {events : List Event}
    (hserved : ∀ event ∈ events, event.IsServed)
    (hroom : numberAfter highest + (n + newNames events names) ≤ 2 ^ 64) :
    ∃ ids', CountsOn highest (n + newNames events names) ids' (Names.happenAll events names) := by
  induction events generalizing names n ids with
  | nil => exact ⟨ids, h⟩
  | cons event rest ih =>
    obtain ⟨hevent, hrest⟩ := List.forall_mem_cons.mp hserved
    rw [newNames, ← Nat.add_assoc n] at hroom ⊢
    exact ih (h.happen hevent (by omega)) hrest hroom

end CountsOn

/-- After any requests and reopenings since there were no rows, whatever ids the sources gave, the
highest id that has a row is the greatest one ever allotted, and there is none exactly if none was
allotted. When the registry is then opened with a source that counts up after the highest id, each name
that is not bound gets the next number on the first draw, as long as the numbers stay below the greatest
word. -/
theorem resumption_continues (config : Config) (ids : IdSource) (events : List Event)
    (hevents : ∀ event ∈ events, event.IsNoted) :
    let start := Names.create config .empty ids
    let names := happenAll events start
    let allotted := (notes events start).filterMap Note.allotted?
    ∃ highest, highestId? names.rows = .ok highest ∧
      (highest = none ↔ allotted = []) ∧
      (∀ id, highest = some id → id ∈ allotted ∧ ∀ other ∈ allotted, other ≤ id) ∧
      ∀ config' later name, (∀ event ∈ later, event.IsServed) →
        let reopened := happen (.reopen config' (.resumeAfter highest)) names
        let resumed := happenAll later reopened
        let next := numberAfter highest + newNames later reopened
        resumed.rows.get? (Layout.nameKey name) = none → next < 2 ^ 64 - 1 →
        (resumed.resolve name).1 = .ok (UInt64.ofNat next) ∧
          (resumed.resolve name).2.ids = resumed.ids.advance := by
  intro start names allotted
  have hstart : start.Orderly := .create config .empty ids
  have hnames : names.Orderly := hstart.happenAll events
  have hallotted : Allotted names.rows allotted := Allotted.empty.happenAll hstart hevents
  obtain ⟨highest, hread, hnone, hgreatest⟩ := hallotted.highestId?_eq
  refine ⟨highest, hread, hnone, hgreatest, fun config' later name hlater => ?_⟩
  intro reopened resumed next hname hroom
  have hbelow : ∀ id ∈ allotted, id.toNat < numberAfter highest + 0 := by
    intro id hid
    cases highest with
    | none =>
      rw [hnone.mp rfl] at hid
      exact absurd hid List.not_mem_nil
    | some greatest => exact Nat.lt_succ_of_le (UInt64.le_iff_toNat_le.mp ((hgreatest _ rfl).2 id hid))
  have hsource : reopened.ids = { IdSource.resumeAfter highest with drawn := 0 } := by
    cases highest <;> rfl
  have hreopened : CountsOn highest 0 allotted reopened :=
    ⟨hnames.happen _, hsource, hallotted, hbelow⟩
  have hnext : numberAfter highest + (0 + newNames later reopened) < 2 ^ 64 - 1 := by
    rwa [Nat.zero_add]
  obtain ⟨ids', hresumed⟩ := hreopened.happenAll hlater (by omega)
  have hresolve := hresumed.resolve_eq (by omega) hname
  rwa [Nat.zero_add] at hresolve

/-- Events after which one id has a row and no name, and one id was drawn a second time. -/
def repeatingEvents : List Event :=
  [.serve (.resolve "a") trivial, .serve (.unbind "a") trivial, .reopen {} (.listed [0, 9]),
    .serve (.resolve "b") trivial]

/-- After repeated ids a reopened registry goes on above the highest one. -/
theorem resumption_continues_repeating :
    (∀ event ∈ repeatingEvents, event.IsNoted) ∧
      let later : List Event :=
        [.serve (.resolve "c") trivial, .serve (.rename "c" "d") trivial]
      let names := happenAll repeatingEvents (.create {} .empty (.countingFrom 0))
      let resumed := happenAll later (happen (.reopen {} (.resumeAfter (some 9))) names)
      (∀ event ∈ later, event.IsServed) ∧ highestId? names.rows = .ok (some 9) ∧
        (resumed.resolve "c").1 = .ok 11 := by
  have hevents : ∀ event ∈ repeatingEvents, event.IsNoted := by
    simp [repeatingEvents, Event.IsNoted]
  refine ⟨hevents, ?_⟩
  intro later names resumed
  have hlater : ∀ event ∈ later, event.IsServed := by simp [later, Event.IsServed]
  have hhighest : highestId? names.rows = .ok (some 9) := by rfl
  obtain ⟨highest, hread, -, -, hnext⟩ :=
    resumption_continues {} (.countingFrom 0) repeatingEvents hevents
  obtain rfl : highest = some 9 := Except.ok.inj (hread.symm.trans hhighest)
  exact ⟨hlater, hhighest, (hnext {} later "c" hlater (by rfl) (by decide)).1⟩

/-- Changes that come along with a rename are not kept from the books. An id row that they put there
counts as that of an allotted id, and so does the one that a later rename writes for a name row that they
put there, although in either case a single id was drawn. -/
theorem highestId?_of_foreign_row :
    let ofIdRow := run [.resolve "a", .renameWith "a" "b" none [.put (Layout.idKey 7) [0x78]]]
      (.create {} .empty (.countingFrom 0))
    let ofNameRow := run
      [.resolve "a", .renameWith "a" "b" none [.put (Layout.nameKey "x") (wordBytes 7)],
        .rename "x" "y"]
      (.create {} .empty (.countingFrom 0))
    ofIdRow.1 = [.id (.ok 0), .moved (.ok true)] ∧ ofIdRow.2.ids.drawn = 1 ∧
      highestId? ofIdRow.2.rows = .ok (some 7) ∧
      ofNameRow.1 = [.id (.ok 0), .moved (.ok true), .moved (.ok true)] ∧
      ofNameRow.2.ids.drawn = 1 ∧ highestId? ofNameRow.2.rows = .ok (some 7) :=
  ⟨rfl, rfl, rfl, rfl, rfl, rfl⟩

end Names

end EntityCatalog

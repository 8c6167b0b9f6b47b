import EntityCatalog.Proofs.Catalog.Effects
import EntityCatalog.Proofs.Session.Calls

/-!
# Versions order the writes

A session whose catalog has the only generator at work is called on in any way, with clocks in time, and
every mark that a generator owes when it is stopped is written. Then the versions that writes return
grow for the whole life of the rows, across restarts and whatever the clock shows. They are covered by
the last id of the generator while it runs, and by the durable mark while none does. The version in a row
is that of the write that was the last to make the row, so no two rows share a version.
-/

namespace EntityCatalog

/-- An operation that failed has left the generator as it was, or it has drawn an id. -/
theorem Catalog.drawn_cases {catalog after : Catalog} (hclock : catalog.clock.InTime)
    (hlast : catalog.versions.lastIssued ≠ TransactionIds.lastWord)
    (h : catalog.Undrawn after ∨ catalog.nextVersion.2.Undrawn after) :
    after.clock.script = catalog.clock.script ∧
      (after.versions = catalog.versions ∨
        ∃ id, catalog.versions.lastIssued < id ∧
          after.versions = { catalog.versions with lastIssued := id }) := by
  rcases h with hundrawn | hdrawn
  · exact ⟨by rw [hundrawn.clock], Or.inl hundrawn.versions⟩
  · refine ⟨?_, ?_⟩
    · rw [hdrawn.clock]
      exact catalog.versions.next_script catalog.clock
    · rw [hdrawn.versions]
      rcases catalog.versions.next_cases hclock hlast with ⟨id, -, -, hlt, hids⟩ | ⟨fault, -, hids⟩
      · exact Or.inr ⟨id, hlt, hids⟩
      · exact Or.inl hids

namespace Session

/-! ## Runs of calls -/

/-- The catalog of a session, given its generator of versions. -/
def catalogWith (session : Session) (versions : TransactionIds) : Catalog :=
  ⟨session.names, versions, session.clock, session.refusals⟩

/-- The version that a call has returned, if it was a put or an update that succeeded. -/
def returned? : Call → Session → Option UInt64
  | .act (.operate operation), session =>
    session.versions.bind fun versions =>
      operation.version? (operation.perform (session.catalogWith versions)).1
  | _, _ => none

/-- The versions that calls have returned in turn. -/
def returned : List Call → Session → List UInt64
  | [], _ => []
  | next :: rest, session => (returned? next session).toList ++ returned rest (call next session)

/-- Whether the mark that the generator of the catalog owes is written when it is stopped. -/
def SettlesMark (session : Session) : Prop :=
  ∀ versions, session.versions = some versions → (versions.stop session.marks).1 = .ok ()

/-- Whether a call is made with one generator at work and in time: the generator next to the catalog is
not started, the clocks that are set are in time, the mark is written when a catalog is closed or left,
and there is a word left for the next version. -/
def Call.Smooth (session : Session) : Call → Prop
  | .act (.startIds _) => False
  | .act (.setClock clock) => clock.InTime
  | .act (.openCatalog _) => session.SettlesMark
  | .act .leaveCatalog => session.SettlesMark
  | .act .closeCatalog => session.SettlesMark
  | .act (.reopen _) => session.SettlesMark
  | .act (.operate _) => ∀ versions, session.versions = some versions →
      versions.lastIssued ≠ TransactionIds.lastWord
  | _ => True

/-- Whether each call of a list is smooth when its turn comes. -/
def Smooth : List Call → Session → Prop
  | [], _ => True
  | next :: rest, session => next.Smooth session ∧ Smooth rest (call next session)

/-- One more call returns its version after those of the others. -/
theorem returned_concat (calls : List Call) (next : Call) (session : Session) :
    returned (calls ++ [next]) session =
      returned calls session ++ (returned? next (callAll calls session)).toList := by
  induction calls generalizing session with
  | nil => exact List.append_nil _
  | cons first rest ih =>
    rw [List.cons_append, returned, ih, returned, callAll, List.append_assoc]

/-- A catalog that is left has its generator stopped. -/
theorem leaveCatalog_of_some {session : Session} {versions : TransactionIds}
    (h : session.versions = some versions) :
    session.leaveCatalog =
      { session.withMarks (versions.stop session.marks).2.2 with versions := none } := by
  rw [leaveCatalog, h]
  rfl

/-- No catalog is open once it was left. -/
theorem versions_leaveCatalog (session : Session) : session.leaveCatalog.versions = none := by
  rw [leaveCatalog]
  split
  · assumption
  · rfl

/-- A catalog that cannot be started is not opened. -/
theorem openCatalog_eq (session : Session) (refusal : Option String) :
    (session.openCatalog refusal).2 =
      let opened := session.leaveCatalog.onVersions (.create session.config.timing) (·.start refusal)
      match opened.1 with
      | .ok () => opened.2
      | .error _ => { opened.2 with versions := none } := by
  rw [openCatalog]
  cases session.leaveCatalog.onVersions (.create session.config.timing) (·.start refusal) with
  | mk outcome opened => cases outcome <;> rfl

/-! ## The versions that were returned -/

/-- The versions returned so far grow. They are covered by the last id of the generator of the catalog
while it runs, whose flushed id is the durable mark, and by the durable mark while it does not run. The
other generator is idle. -/
structure Timed (session : Session) (past : List UInt64) : Prop where
  idle : session.generator.running = false
  inTime : session.clock.InTime
  increasing : past.Pairwise (· < ·)
  work : ∀ versions, session.versions = some versions → versions.running = true →
    versions.flushed = session.marks.durable ∧ ∀ version ∈ past, version ≤ versions.lastIssued
  rest : (∀ versions, session.versions = some versions → versions.running = false) →
    ∀ version ∈ past, version ≤ session.marks.durable

namespace Timed

variable {session after : Session} {past : List UInt64}

/-- Nothing changes as long as the generators stay, the clock is in time and the mark is kept. -/
theorem congr (h : session.Timed past) (hidle : after.generator.running = false)
    (hclock : after.clock.InTime) (hversions : after.versions = session.versions)
    (hmark : after.marks.durable = session.marks.durable) : after.Timed past := by
  refine ⟨hidle, hclock, h.increasing, ?_, ?_⟩
  · rw [hversions, hmark]
    exact h.work
  · rw [hversions, hmark]
    exact h.rest

/-- A session without a generator at work. -/
theorem of_rest (h : session.Timed past) (hidle : after.generator.running = false)
    (hclock : after.clock.InTime)
    (hrest : ∀ versions, after.versions = some versions → versions.running = false)
    (hcovered : ∀ version ∈ past, version ≤ after.marks.durable) : after.Timed past :=
  ⟨hidle, hclock, h.increasing,
    fun versions hversions hrunning => absurd ((hrest versions hversions).symm.trans hrunning) (by simp),
    fun _ => hcovered⟩

/-- A session whose catalog has a generator at work. -/
theorem of_work {versions : TransactionIds} (hidle : after.generator.running = false)
    (hclock : after.clock.InTime) (hincreasing : past.Pairwise (· < ·))
    (hversions : after.versions = some versions) (hrunning : versions.running = true)
    (hflushed : versions.flushed = after.marks.durable)
    (hcovered : ∀ version ∈ past, version ≤ versions.lastIssued) : after.Timed past := by
  refine ⟨hidle, hclock, hincreasing, fun other hother _ => ?_, fun hrest => ?_⟩
  · obtain rfl := Option.some.inj (hversions.symm.trans hother)
    exact ⟨hflushed, hcovered⟩
  · exact absurd ((hrest _ hversions).symm.trans hrunning) (by simp)

/-- A stop that is not refused makes the versions durable. -/
theorem stop (h : session.Timed past) {versions : TransactionIds}
    (hversions : session.versions = some versions)
    (hok : (versions.stop session.marks).1 = .ok ()) :
    ∀ version ∈ past, version ≤ (versions.stop session.marks).2.2.durable := by
  cases hrunning : versions.running with
  | true =>
    obtain ⟨hflushed, hcovered⟩ := h.work versions hversions hrunning
    rw [TransactionIds.stop_durable hrunning hflushed hok]
    exact hcovered
  | false =>
    rw [TransactionIds.stop_of_not_running session.marks hrunning]
    refine h.rest fun other hother => ?_
    obtain rfl := Option.some.inj (hversions.symm.trans hother)
    exact hrunning

/-- Leaving a catalog whose mark is settled keeps the past within the durable mark. -/
theorem leaveCatalog (h : session.Timed past) (hsettles : session.SettlesMark) :
    session.leaveCatalog.Timed past := by
  cases hversions : session.versions with
  | none =>
    rw [Session.leaveCatalog, hversions]
    exact h
  | some versions =>
    rw [leaveCatalog_of_some hversions]
    exact h.of_rest h.idle h.inTime (fun _ hnone => absurd hnone (by simp))
      (h.stop hversions (hsettles versions hversions))

/-- Closing a catalog whose mark is settled keeps the past within the durable mark. -/
theorem closeCatalog (h : session.Timed past) (hsettles : session.SettlesMark) :
    (session.onOpenCatalog Catalog.close).Timed past := by
  cases hversions : session.versions with
  | none =>
    rw [onOpenCatalog_of_none hversions]
    exact h
  | some versions =>
    rw [onOpenCatalog_of_some hversions]
    refine h.of_rest h.idle h.inTime (fun other hother => ?_)
      (h.stop hversions (hsettles versions hversions))
    obtain rfl := Option.some.inj hother
    exact versions.stop_running session.marks

/-- A catalog that is opened goes on from the durable mark. -/
theorem openCatalog (h : session.Timed past) (hsettles : session.SettlesMark)
    (refusal : Option String) : (session.openCatalog refusal).2.Timed past := by
  have hleft := h.leaveCatalog hsettles
  have hcovered := hleft.rest fun versions hversions =>
    absurd ((versions_leaveCatalog session).symm.trans hversions) (by simp)
  rw [openCatalog_eq]
  generalize session.leaveCatalog = left at hleft hcovered
  have hclock : ((TransactionIds.create session.config.timing).start left.rows left.clock
      refusal).2.2.InTime :=
    hleft.inTime.congr (TransactionIds.start_script _ left.rows left.clock refusal)
  have hidle : (TransactionIds.create session.config.timing).running = false := rfl
  dsimp only
  cases houtcome : (left.onVersions (.create session.config.timing) (·.start refusal)).1 with
  | error fault =>
    exact hleft.of_rest hleft.idle hclock (fun _ hnone => absurd hnone (by simp)) hcovered
  | ok =>
    -- Only a start that has its thread succeeds, and it has taken the durable mark over.
    rcases TransactionIds.start_cases left.marks left.clock refusal hidle with
      ⟨-, -, hids⟩ | ⟨⟨fault, hfault⟩, -⟩ | ⟨reason, -, hrefused, -⟩
    · exact .of_work hleft.idle hclock h.increasing (congrArg some hids) rfl rfl
        fun version hversion => UInt64.le_trans (hcovered version hversion)
          (TransactionIds.le_withMark_lastIssued _ _)
    · exact absurd (houtcome.symm.trans hfault) (by simp)
    · exact absurd (houtcome.symm.trans hrefused) (by simp)

/-- The generator of a catalog that runs may have drawn an id that no write returned. -/
theorem draw (h : session.Timed past) {versions : TransactionIds}
    (hversions : session.versions = some versions) (hidle : after.generator.running = false)
    (hclock : after.clock.InTime) (hmark : after.marks.durable = session.marks.durable)
    (hdrawn : after.versions = some versions ∨ ∃ id, versions.lastIssued < id ∧
      after.versions = some { versions with lastIssued := id }) : after.Timed past := by
  rcases hdrawn with hsame | ⟨id, hlt, hdrawn⟩
  · exact h.congr hidle hclock (hsame.trans hversions.symm) hmark
  · refine ⟨hidle, hclock, h.increasing, fun other hother hrunning => ?_, fun hrest => ?_⟩
    · obtain rfl := Option.some.inj (hdrawn.symm.trans hother)
      obtain ⟨hflushed, hcovered⟩ := h.work versions hversions hrunning
      rw [hmark]
      exact ⟨hflushed, fun version hversion =>
        UInt64.le_trans (hcovered version hversion) (UInt64.le_of_lt hlt)⟩
    · rw [hmark]
      refine h.rest fun other hother => ?_
      obtain rfl := Option.some.inj (hversions.symm.trans hother)
      have hidle := hrest _ hdrawn
      exact hidle

/-- A write returns the id that the generator drew for it. -/
theorem write (h : session.Timed past) {versions : TransactionIds} {version : UInt64}
    (hversions : session.versions = some versions) (hrunning : versions.running = true)
    (hlt : versions.lastIssued < version) (hidle : after.generator.running = false)
    (hclock : after.clock.InTime) (hmark : after.marks.durable = session.marks.durable)
    (hdrawn : after.versions = some { versions with lastIssued := version }) :
    after.Timed (past ++ [version]) := by
  obtain ⟨hflushed, hcovered⟩ := h.work versions hversions hrunning
  refine .of_work hidle hclock ?_ hdrawn hrunning (hmark ▸ hflushed) fun earlier hearlier => ?_
  · refine List.pairwise_append.mpr ⟨h.increasing, List.pairwise_singleton _ _, ?_⟩
    intro earlier hearlier new hnew
    rw [List.mem_singleton.mp hnew]
    exact UInt64.lt_of_le_of_lt (hcovered earlier hearlier) hlt
  · rcases List.mem_append.mp hearlier with hpast | hlast
    · exact UInt64.le_trans (hcovered earlier hpast) (UInt64.le_of_lt hlt)
    · rw [List.mem_singleton.mp hlast]
      exact UInt64.le_refl _

/-- An operation returns at most one version, which is greater than all before. -/
theorem operate (h : session.Timed past) {versions : TransactionIds}
    (hversions : session.versions = some versions)
    (hlast : versions.lastIssued ≠ TransactionIds.lastWord) (operation : Operation) :
    (session.onVersions versions operation.perform).2.Timed (past ++
      (operation.version? (operation.perform (session.catalogWith versions)).1).toList) := by
  have hclock : (session.catalogWith versions).clock.InTime := h.inTime
  have hperformed := operation.performed (session.catalogWith versions)
  generalize hversion : operation.version? (operation.perform (session.catalogWith versions)).1 =
    version at hperformed
  cases hperformed with
  | spared hgrows hdrawn =>
    obtain ⟨hscript, hdrawn⟩ := Catalog.drawn_cases hclock hlast hdrawn
    have hmark := hgrows.get?_of_not_isBook Layout.not_isBook_markKey
    rw [Option.toList_none, List.append_nil]
    refine h.draw hversions h.idle (h.inTime.congr hscript) (MarkStore.durable_of_get? hmark) ?_
    exact hdrawn.imp (congrArg some) fun ⟨id, hlt, hids⟩ => ⟨id, hlt, congrArg some hids⟩
  | removed hremoved =>
    rw [Option.toList_none, List.append_nil]
    exact h.congr h.idle (h.inTime.congr (congrArg Clock.script hremoved.clock))
      ((congrArg some hremoved.versions).trans hversions.symm)
      (MarkStore.durable_of_get? hremoved.mark)
  | wrote key record hwrote =>
    have hmark := (hwrote.rows Layout.markKey Layout.not_isBook_markKey).trans
      (Rows.get?_insert_of_ne _ _ (Layout.encode_ne_markKey key))
    rcases versions.next_cases hclock hlast with
      ⟨id, hid, hrunning, hlt, hids⟩ | ⟨fault, hfault, -⟩
    · obtain rfl := Except.ok.inj (hid.symm.trans hwrote.version)
      refine h.write hversions hrunning hlt h.idle (h.inTime.congr ?_)
        (MarkStore.durable_of_get? hmark) (congrArg some (hwrote.drawn.versions.trans hids))
      exact (congrArg Clock.script hwrote.drawn.clock).trans
        (versions.next_script session.clock)
    · exact absurd (hfault.symm.trans hwrote.version) (by simp)

/-- The flusher of a catalog makes the last id durable or leaves the mark. -/
theorem settleCatalog (h : session.Timed past) (duration : Nat) :
    (session.settleCatalog duration).Timed past := by
  rw [Session.settleCatalog]
  cases hversions : session.versions with
  | none => exact h
  | some versions =>
    dsimp only
    cases hrunning : versions.running with
    | false =>
      rw [TransactionIds.settle_of_not_running session.marks duration hrunning]
      exact h.congr h.idle h.inTime hversions.symm rfl
    | true =>
      obtain ⟨hflushed, hcovered⟩ := h.work versions hversions hrunning
      have hticks := TransactionIds.tick_cases (duration / versions.timing.flushInterval.toNat)
        versions session.marks
      rw [TransactionIds.settle, if_pos hrunning]
      rcases hticks with ⟨hids, hdurable⟩ | ⟨hids, hrows⟩
      · exact .of_work h.idle h.inTime h.increasing (congrArg some hids) hrunning
          (hdurable hflushed).symm hcovered
      · refine h.congr h.idle h.inTime ?_ (MarkStore.durable_congr hrows)
        exact (congrArg some hids).trans hversions.symm

/-- The rows that remain when everything is left hold a mark that covers the versions. -/
theorem leave (h : session.Timed past) (hsettles : session.SettlesMark) :
    ∀ version ∈ past, version ≤ session.leave.durable := by
  have hleft := h.leaveCatalog hsettles
  rw [Session.leave, TransactionIds.discard_of_not_running _ hleft.idle]
  exact hleft.rest fun versions hversions =>
    absurd ((versions_leaveCatalog session).symm.trans hversions) (by simp)

/-- A call that returns no version. -/
theorem quiet {next : Call} (h : after.Timed past) (hnone : returned? next session = none) :
    after.Timed (past ++ (returned? next session).toList) := by
  rw [hnone, Option.toList_none, List.append_nil]
  exact h

/-- A smooth call returns at most one version, which is greater than all before. -/
theorem call (h : session.Timed past) {next : Call} (hsmooth : next.Smooth session) :
    (Session.call next session).Timed (past ++ (returned? next session).toList) := by
  cases next with
  | act action =>
    cases action with
    | operate operation =>
      rw [Session.call, Session.act, returned?]
      cases hversions : session.versions with
      | none =>
        rw [onOpenCatalog_of_none hversions, Option.bind_none, Option.toList_none, List.append_nil]
        exact h
      | some versions =>
        rw [onOpenCatalog_of_some hversions, Option.bind_some]
        exact h.operate hversions (hsmooth versions hversions) operation
    | encode address =>
      have hgrows := address.grows_resolveKey session.names
      have hmark := hgrows.get?_of_not_isBook Layout.not_isBook_markKey
      exact quiet (h.congr h.idle h.inTime rfl (MarkStore.durable_of_get? hmark)) rfl
    | expire name => exact quiet (h.congr h.idle h.inTime rfl rfl) rfl
    | openCatalog refusal => exact quiet (h.openCatalog hsmooth refusal) rfl
    | leaveCatalog => exact quiet (h.leaveCatalog hsmooth) rfl
    | closeCatalog => exact quiet (h.closeCatalog hsmooth) rfl
    | settleCatalog duration => exact quiet (h.settleCatalog duration) rfl
    | startIds refusal => exact hsmooth.elim
    | nextId =>
      refine quiet (h.congr ?_ ?_ rfl rfl) rfl
      · rw [Session.call, Session.act, nextId, TransactionIds.next, if_neg (by simp [h.idle])]
        exact h.idle
      · exact h.inTime.congr (session.generator.next_script session.clock)
    | stopIds =>
      refine quiet (h.congr (session.generator.stop_running session.marks) h.inTime rfl ?_) rfl
      rw [Session.call, Session.act, stopIds,
        TransactionIds.stop_of_not_running session.marks h.idle]
      rfl
    | replaceIds =>
      refine quiet (h.congr rfl h.inTime rfl ?_) rfl
      rw [Session.call, Session.act, replaceIds,
        TransactionIds.discard_of_not_running session.marks h.idle]
      rfl
    | settle duration =>
      have hsettle := TransactionIds.settle_of_not_running session.marks duration h.idle
      have hsame : Session.call (.act (.settle duration)) session = session := by
        rw [Session.call, Session.act, settle, hsettle]
        rfl
      rw [hsame]
      exact quiet h rfl
    | setClock clock => exact quiet (h.congr h.idle hsmooth rfl rfl) rfl
    | refuse writes =>
      exact quiet (h.congr h.idle h.inTime rfl (MarkStore.durable_congr rfl)) rfl
    | reopen ids =>
      refine quiet ?_ rfl
      rw [Session.call, Session.act]
      split
      · rename_i reopened hreopen
        obtain ⟨source, rfl⟩ := eq_create_of_reopen hreopen
        exact h.of_rest rfl h.inTime (fun _ hnone => absurd hnone (by simp [Session.create]))
          (h.leave hsmooth)
      · exact h
  | findKey address =>
    exact quiet (h.congr h.idle h.inTime rfl
      (MarkStore.durable_congr (address.rows_findKey session.names))) rfl
  | findName address =>
    exact quiet (h.congr h.idle h.inTime rfl
      (MarkStore.durable_congr (address.rows_findName session.names))) rfl
  | list levels kind limit =>
    refine quiet ?_ rfl
    rw [Session.call]
    cases hversions : session.versions with
    | none =>
      rw [onOpenCatalog_of_none hversions]
      exact h
    | some versions =>
      rw [onOpenCatalog_of_some hversions]
      have hglanced := Catalog.list_glanced (session.catalogWith versions) levels kind limit
      exact h.congr h.idle (h.inTime.congr (congrArg Clock.script hglanced.clock))
        ((congrArg some hglanced.versions).trans hversions.symm)
        (MarkStore.durable_congr hglanced.rows)

end Timed

/-! ## The rows of entities -/

/-- What a call does to the rows of entities, with the version that it returns: some may be gone, or one
was written under that version. -/
inductive EntityStep (rows rows' : Rows) : Option UInt64 → Prop where
  | kept (h : ∀ key : Key, rows'.get? key.encode = rows.get? key.encode ∨
      rows'.get? key.encode = none) : EntityStep rows rows' none
  | wrote (key : Key) (record : Record) (h : ∀ other : Key, rows'.get? other.encode =
      (rows.insert key.encode record.encode).get? other.encode) :
      EntityStep rows rows' (some record.version)

namespace EntityStep

variable {rows rows' : Rows}

/-- The rows of entities are as they were. -/
theorem of_same (h : ∀ key : Key, rows'.get? key.encode = rows.get? key.encode) :
    EntityStep rows rows' none :=
  .kept fun key => Or.inl (h key)

/-- Binding names changes no row of an entity. -/
theorem of_grows (h : Names.Grows rows rows') : EntityStep rows rows' none :=
  of_same fun key => h.get?_of_not_isBook (Layout.not_isBook_encode key)

/-- Writing the mark changes no row of an entity. -/
theorem of_remarked (h : Remarked rows rows') : EntityStep rows rows' none :=
  of_same h.get?_encode

/-- A row of an entity was there before the call, or it is the one that the call wrote. -/
theorem rows_cases {version : Option UInt64} (h : EntityStep rows rows' version) :
    (∀ (key : Key) (value : Bytes), rows'.get? key.encode = some value →
      rows.get? key.encode = some value) ∨
    ∃ (written : Key) (new : Record), version = some new.version ∧
      ∀ (key : Key) (value : Bytes), rows'.get? key.encode = some value →
        (key = written ∧ value = new.encode) ∨ rows.get? key.encode = some value := by
  cases h with
  | kept hkept =>
    refine Or.inl fun key value hrow => ?_
    exact ((hkept key).resolve_right (by rw [hrow]; simp)).symm.trans hrow
  | wrote written new hwrote =>
    refine Or.inr ⟨written, new, rfl, fun key value hrow => ?_⟩
    rw [hwrote key, Rows.get?_insert] at hrow
    split at hrow
    · rename_i heq
      exact Or.inl ⟨(Key.encode_injective heq).symm, (Option.some.inj hrow).symm⟩
    · exact Or.inr hrow

end EntityStep

/-- Leaving the catalog writes the mark at most. -/
theorem remarked_leaveCatalog (session : Session) :
    Remarked session.rows session.leaveCatalog.rows := by
  rw [leaveCatalog]
  split
  · exact Or.inl rfl
  · rename_i versions _
    exact TransactionIds.stop_remarked versions session.marks

/-- What an operation of the catalog does to the rows of entities. -/
theorem entityStep_operate (session : Session) (operation : Operation) :
    EntityStep session.rows (session.onOpenCatalog operation.perform).rows
      (returned? (.act (.operate operation)) session) := by
  rw [returned?]
  cases hversions : session.versions with
  | none =>
    rw [onOpenCatalog_of_none hversions]
    exact .of_same fun _ => rfl
  | some versions =>
    rw [onOpenCatalog_of_some hversions, Option.bind_some]
    have hperformed := operation.performed (session.catalogWith versions)
    generalize operation.version? (operation.perform (session.catalogWith versions)).1 =
      version at hperformed
    cases hperformed with
    | spared hgrows => exact .of_grows hgrows
    | removed hremoved => exact .kept fun key => hremoved.rows key.encode
    | wrote key record hwrote =>
      exact .wrote key record fun other => hwrote.rows other.encode (Layout.not_isBook_encode other)

/-- What a call does to the rows of entities. -/
theorem entityStep_call (session : Session) (next : Call) :
    EntityStep session.rows (call next session).rows (returned? next session) := by
  cases next with
  | act action =>
    cases action with
    | operate operation => exact entityStep_operate session operation
    | encode address => exact .of_grows (address.grows_resolveKey session.names)
    | openCatalog refusal =>
      have hrows : (call (.act (.openCatalog refusal)) session).rows = session.leaveCatalog.rows :=
        congrArg Names.rows (names_openCatalog session refusal)
      rw [hrows]
      exact .of_remarked session.remarked_leaveCatalog
    | leaveCatalog => exact .of_remarked session.remarked_leaveCatalog
    | closeCatalog =>
      rw [call, act]
      cases hversions : session.versions with
      | none =>
        rw [onOpenCatalog_of_none hversions]
        exact .of_same fun _ => rfl
      | some versions =>
        rw [onOpenCatalog_of_some hversions]
        exact .of_remarked (TransactionIds.stop_remarked versions session.marks)
    | settleCatalog duration =>
      rw [call, act, settleCatalog]
      split
      · exact .of_same fun _ => rfl
      · rename_i versions _
        exact .of_remarked (TransactionIds.settle_remarked versions session.marks duration)
    | stopIds => exact .of_remarked (TransactionIds.stop_remarked session.generator session.marks)
    | replaceIds => exact .of_remarked (TransactionIds.stop_remarked session.generator session.marks)
    | settle duration =>
      exact .of_remarked (TransactionIds.settle_remarked session.generator session.marks duration)
    | reopen ids =>
      rw [call, act]
      split
      · rename_i reopened hreopen
        obtain ⟨source, rfl⟩ := eq_create_of_reopen hreopen
        refine .of_same fun key => ?_
        have hstopped := TransactionIds.stop_remarked session.leaveCatalog.generator
          session.leaveCatalog.marks
        exact (hstopped.get?_encode key).trans (session.remarked_leaveCatalog.get?_encode key)
      · exact .of_same fun _ => rfl
    | _ => exact .of_same fun _ => rfl
  | findKey address =>
    have hrows : (call (.findKey address) session).rows = session.rows :=
      address.rows_findKey session.names
    rw [hrows]
    exact .of_same fun _ => rfl
  | findName address =>
    have hrows : (call (.findName address) session).rows = session.rows :=
      address.rows_findName session.names
    rw [hrows]
    exact .of_same fun _ => rfl
  | list levels kind limit =>
    rw [call]
    cases hversions : session.versions with
    | none =>
      rw [onOpenCatalog_of_none hversions]
      exact .of_same fun _ => rfl
    | some versions =>
      rw [onOpenCatalog_of_some hversions]
      have hrows := (Catalog.list_glanced (session.catalogWith versions) levels kind limit).rows
      exact .of_same fun key => congrArg (fun rows => rows.get? key.encode) hrows

/-! ## Who wrote a row -/

/-- The value under a key was written by one of the calls, which returned the given version, and it has
been there ever since. -/
def LastWritten (calls : List Call) (start : Session) (key value : Bytes) (version : UInt64) : Prop :=
  ∃ before next after, calls = before ++ next :: after ∧
    returned? next (callAll before start) = some version ∧
    (callAll before start).rows.get? key ≠ some value ∧
    ∀ mid, mid <+: after → (callAll (before ++ next :: mid) start).rows.get? key = some value

/-- A version that a call returned is among those that all calls returned. -/
theorem mem_returned_append {before after : List Call} {next : Call} {start : Session}
    {version : UInt64} (h : returned? next (callAll before start) = some version) :
    version ∈ returned (before ++ next :: after) start := by
  induction before generalizing start with
  | nil => exact List.mem_append_left _ (Option.mem_toList.mpr h)
  | cons first rest ih => exact List.mem_append_right _ (ih h)

/-- A version under which a row was written has been returned. -/
theorem LastWritten.mem_returned {calls : List Call} {start : Session} {key value : Bytes}
    {version : UInt64} (h : LastWritten calls start key value version) :
    version ∈ returned calls start := by
  obtain ⟨before, next, after, rfl, hreturned, -, -⟩ := h
  exact mem_returned_append hreturned

/-- A row that a further call leaves was written by the same call as before. -/
theorem LastWritten.concat {calls : List Call} {start : Session} {key value : Bytes}
    {version : UInt64} (h : LastWritten calls start key value version) {next : Call}
    (hrow : (call next (callAll calls start)).rows.get? key = some value) :
    LastWritten (calls ++ [next]) start key value version := by
  obtain ⟨before, writer, after, rfl, hreturned, hbefore, hsince⟩ := h
  refine ⟨before, writer, after ++ [next], by simp, hreturned, hbefore, fun mid hmid => ?_⟩
  rcases List.prefix_concat_iff.mp hmid with rfl | hmid
  · have hcalls : before ++ writer :: (after ++ [next]) = (before ++ writer :: after) ++ [next] := by
      simp
    rw [hcalls, callAll_concat]
    exact hrow
  · exact hsince mid hmid

/-- A row that the last call wrote. -/
theorem LastWritten.of_call {calls : List Call} {start : Session} {key value : Bytes}
    {version : UInt64} {next : Call}
    (hreturned : returned? next (callAll calls start) = some version)
    (hbefore : (callAll calls start).rows.get? key ≠ some value)
    (hafter : (call next (callAll calls start)).rows.get? key = some value) :
    LastWritten (calls ++ [next]) start key value version := by
  refine ⟨calls, next, [], rfl, hreturned, hbefore, fun mid hmid => ?_⟩
  rw [List.prefix_nil.mp hmid, callAll_concat]
  exact hafter

/-- The versions that calls have returned are in time, each row of an entity was written by one of the
calls under the version that it holds, and no two such rows share a version. -/
structure Ordered (calls : List Call) (start : Session) : Prop where
  timed : (callAll calls start).Timed (returned calls start)
  written : ∀ (key : Key) (value : Bytes),
    (callAll calls start).rows.get? key.encode = some value →
    ∃ record : Record, value = record.encode ∧
      LastWritten calls start key.encode value record.version
  distinct : ∀ (key key' : Key) (record record' : Record),
    (callAll calls start).rows.get? key.encode = some record.encode →
    (callAll calls start).rows.get? key'.encode = some record'.encode →
    record.version = record'.version → key = key'

namespace Ordered

variable {calls : List Call} {start : Session}

/-- Every version in a row has been returned. -/
theorem mem_returned (h : Ordered calls start) {key : Key} {record : Record}
    (hrow : (callAll calls start).rows.get? key.encode = some record.encode) :
    record.version ∈ returned calls start := by
  obtain ⟨record', hsame, hwritten⟩ := h.written key record.encode hrow
  rw [Record.encode_injective hsame]
  exact hwritten.mem_returned

/-- A version that is returned next is greater than all before. -/
theorem lt_of_returned (h : Ordered calls start) {next : Call}
    (hsmooth : next.Smooth (callAll calls start)) {version : UInt64}
    (hreturned : returned? next (callAll calls start) = some version) :
    ∀ earlier ∈ returned calls start, earlier < version := by
  have hincreasing := (h.timed.call hsmooth).increasing
  rw [hreturned] at hincreasing
  intro earlier hearlier
  exact (List.pairwise_append.mp hincreasing).2.2 earlier hearlier version (by simp)

/-- Each row of an entity that a call leaves was written under the version that it holds. -/
theorem written_call (h : Ordered calls start) {next : Call}
    (hsmooth : next.Smooth (callAll calls start)) (key : Key) (value : Bytes)
    (hrow : (Session.call next (callAll calls start)).rows.get? key.encode = some value) :
    ∃ record : Record, value = record.encode ∧
      LastWritten (calls ++ [next]) start key.encode value record.version := by
  have hearlier (hold : (callAll calls start).rows.get? key.encode = some value) :
      ∃ record : Record, value = record.encode ∧
        LastWritten (calls ++ [next]) start key.encode value record.version := by
    obtain ⟨record, hvalue, hwritten⟩ := h.written key value hold
    exact ⟨record, hvalue, hwritten.concat hrow⟩
  rcases (entityStep_call (callAll calls start) next).rows_cases with
    hrows | ⟨written, new, hversion, hrows⟩
  · exact hearlier (hrows key value hrow)
  · rcases hrows key value hrow with ⟨-, rfl⟩ | hold
    · refine ⟨new, rfl, .of_call hversion (fun hold => ?_) hrow⟩
      -- The version is new, so the same bytes cannot have been there before.
      exact absurd (h.lt_of_returned hsmooth hversion _ (h.mem_returned hold))
        (UInt64.lt_irrefl _)
    · exact hearlier hold

/-- No two rows that a call leaves share a version. -/
theorem distinct_call (h : Ordered calls start) {next : Call}
    (hsmooth : next.Smooth (callAll calls start)) (key key' : Key) (record record' : Record)
    (hrow : (Session.call next (callAll calls start)).rows.get? key.encode = some record.encode)
    (hrow' : (Session.call next (callAll calls start)).rows.get? key'.encode = some record'.encode)
    (hsame : record.version = record'.version) : key = key' := by
  rcases (entityStep_call (callAll calls start) next).rows_cases with
    hrows | ⟨written, new, hversion, hrows⟩
  · exact h.distinct key key' record record' (hrows _ _ hrow) (hrows _ _ hrow') hsame
  · have hless {key : Key} {record : Record}
        (hold : (callAll calls start).rows.get? key.encode = some record.encode) :
        record.version < new.version :=
      h.lt_of_returned hsmooth hversion _ (h.mem_returned hold)
    rcases hrows _ _ hrow with ⟨rfl, hnew⟩ | hold <;>
      rcases hrows _ _ hrow' with ⟨rfl, hnew'⟩ | hold'
    · rfl
    · have hlt := hless hold'
      rw [← hsame, Record.encode_injective hnew] at hlt
      exact absurd hlt (UInt64.lt_irrefl _)
    · have hlt := hless hold
      rw [hsame, Record.encode_injective hnew'] at hlt
      exact absurd hlt (UInt64.lt_irrefl _)
    · exact h.distinct key key' record record' hold hold' hsame

/-- A smooth call keeps the writes ordered. -/
theorem call (h : Ordered calls start) {next : Call} (hsmooth : next.Smooth (callAll calls start)) :
    Ordered (calls ++ [next]) start := by
  refine ⟨?_, ?_, ?_⟩
  · rw [callAll_concat, returned_concat]
    exact h.timed.call hsmooth
  · rw [callAll_concat]
    exact h.written_call hsmooth
  · rw [callAll_concat]
    exact h.distinct_call hsmooth

/-- Smooth calls keep the writes ordered, after whatever calls came before. -/
theorem callAll {more : List Call} (h : Ordered calls start)
    (hsmooth : Smooth more (Session.callAll calls start)) : Ordered (calls ++ more) start := by
  induction more generalizing calls with
  | nil => rwa [List.append_nil]
  | cons next rest ih =>
    obtain ⟨hnext, hrest⟩ := hsmooth
    rw [← callAll_concat] at hrest
    have hall := ih (h.call hnext) hrest
    rwa [List.append_assoc, List.singleton_append] at hall

end Ordered

/-- A session that starts without rows has returned no version. -/
theorem ordered_nil (config : Config) (ids : IdSource) {clock : Clock} (refusals : Nat)
    (hclock : clock.InTime) : Ordered [] (create config .empty ids clock refusals) where
  timed := ⟨rfl, hclock, .nil, fun _ hnone => absurd hnone (by simp [callAll, create]),
    fun _ _ hpast => absurd hpast (by simp [returned])⟩
  written key value hrow := absurd hrow (by simp [callAll, create, rows, Names.create])
  distinct key key' record record' hrow := absurd hrow (by simp [callAll, create, rows, Names.create])

/-- The record that is stored under a key, if there is one. -/
def stored? (session : Session) (key : Key) : Option Record :=
  (session.rows.get? key.encode).bind Record.decode?

/-- The record that is stored under a key is the one whose bytes are in its row. -/
theorem Sound.stored?_eq_some_iff {session : Session} (h : session.Sound) (key : Key)
    (record : Record) :
    session.stored? key = some record ↔ session.rows.get? key.encode = some record.encode := by
  rw [stored?]
  cases hrow : session.rows.get? key.encode with
  | none => simp
  | some value =>
    obtain ⟨-, -, stored, -, hfits, rfl⟩ := h.kept.entity hrow
    rw [Option.bind_some, Record.decode?_encode stored hfits, Option.some.injEq, Option.some.injEq]
    exact ⟨congrArg Record.encode, Record.encode_injective⟩

/-- Versions order all writes of a session that starts without rows, as long as its calls are smooth.
Each row of an entity holds a record that was written by the call which returned its version and was
the last to write the row. No two rows share a version. No version in a row is greater than the last id
of the generator that runs. A version that is returned next is greater than every version in a row
and every version that was returned before. -/
theorem versions_order_writes (config : Config) (ids : IdSource) (clock : Clock) (refusals : Nat)
    (calls : List Call) (hclock : clock.InTime)
    (hsmooth : Smooth calls (create config .empty ids clock refusals)) :
    let start := create config .empty ids clock refusals
    let session := callAll calls start
    (∀ (key : Key) (value : Bytes), session.rows.get? key.encode = some value →
      ∃ record, session.stored? key = some record ∧
        LastWritten calls start key.encode value record.version) ∧
    (∀ (key key' : Key) (record record' : Record), session.stored? key = some record →
      session.stored? key' = some record' → record.version = record'.version → key = key') ∧
    (∀ versions, session.versions = some versions → versions.running = true →
      ∀ (key : Key) (record : Record), session.stored? key = some record →
        record.version ≤ versions.lastIssued) ∧
    ∀ next version, next.Smooth session → returned? next session = some version →
      (∀ (key : Key) (record : Record), session.stored? key = some record →
        record.version < version) ∧
      ∀ earlier ∈ returned calls start, earlier < version := by
  intro start session
  have hordered : Ordered calls start := (ordered_nil config ids refusals hclock).callAll hsmooth
  have hsound : session.Sound := (Sound.create config .empty ids clock refusals).callAll calls
  have hstored {key : Key} {record : Record} := hsound.stored?_eq_some_iff key record
  refine ⟨fun key value hrow => ?_, fun key key' record record' hkey hkey' hsame => ?_,
    fun versions hversions hrunning key record hkey => ?_, fun next version hnext hreturned => ?_⟩
  · obtain ⟨record, rfl, hwritten⟩ := hordered.written key value hrow
    exact ⟨record, hstored.mpr hrow, hwritten⟩
  · exact hordered.distinct key key' record record' (hstored.mp hkey) (hstored.mp hkey') hsame
  · exact (hordered.timed.work versions hversions hrunning).2 _
      (hordered.mem_returned (hstored.mp hkey))
  · have hlt := hordered.lt_of_returned hnext hreturned
    exact ⟨fun key record hkey => hlt _ (hordered.mem_returned (hstored.mp hkey)), hlt⟩

/-- Calls in which an entity is put, the clock goes back, and everything is opened anew. -/
def restartedCalls : List Call :=
  [.act (.openCatalog none), .act (.operate (.put Catalog.lake Catalog.oneByte false)),
    .act (.setClock (.constant 990)), .act (.reopen none), .act (.openCatalog none)]

/-- The put of another entity. -/
def putLakeCat : Call := .act (.operate (.put Catalog.lakeCat Catalog.oneByte false))

/-- The mark is settled if the stop of the open catalog is not refused. -/
theorem settlesMark_of_some {session : Session} (versions : TransactionIds)
    (h : session.versions = some versions) (hok : (versions.stop session.marks).1 = .ok ()) :
    session.SettlesMark := by
  intro other hother
  obtain rfl := Option.some.inj (h.symm.trans hother)
  exact hok

/-- The mark is settled where no catalog is open. -/
theorem settlesMark_of_none {session : Session} (h : session.versions = none) :
    session.SettlesMark :=
  fun _ hother => absurd (h.symm.trans hother) (by simp)

/-- An operation on an open catalog is smooth before the last version. -/
theorem smooth_operate {session : Session} (versions : TransactionIds) (operation : Operation)
    (h : session.versions = some versions) (hlast : versions.lastIssued ≠ TransactionIds.lastWord) :
    (Call.act (.operate operation)).Smooth session := by
  intro other hother
  obtain rfl := Option.some.inj (h.symm.trans hother)
  exact hlast

/-- All these calls are smooth. -/
theorem smooth_restartedCalls :
    Smooth restartedCalls (create {} .empty (.countingFrom 0) (.constant 1000) 0) := by
  refine ⟨settlesMark_of_none rfl, smooth_operate ⟨⟨2000, 1000, 5000⟩, 0, 0, true⟩ _ rfl
    (by decide), .constant (by decide), ?_, settlesMark_of_none rfl, trivial⟩
  exact settlesMark_of_some ⟨⟨2000, 1000, 5000⟩, 262144000, 0, true⟩ rfl rfl

/-- After a restart under an earlier clock an entity gets a greater version than one before it. -/
theorem versions_order_writes_restarted :
    let session := callAll restartedCalls (create {} .empty (.countingFrom 0) (.constant 1000) 0)
    session.stored? ⟨.metalake, [0], false⟩ = some ⟨262144000, [0x63]⟩ ∧
      returned? putLakeCat session = some 262144001 ∧ (262144000 : UInt64) < 262144001 := by
  obtain ⟨-, -, -, hnext⟩ := versions_order_writes {} (.countingFrom 0) (.constant 1000) 0
    restartedCalls (.constant (by decide)) smooth_restartedCalls
  have hstored : (callAll restartedCalls
      (create {} .empty (.countingFrom 0) (.constant 1000) 0)).stored? ⟨.metalake, [0], false⟩ =
        some ⟨262144000, [0x63]⟩ := by
    rfl
  have hreturned : returned? putLakeCat (callAll restartedCalls
      (create {} .empty (.countingFrom 0) (.constant 1000) 0)) = some 262144001 := by
    rfl
  have hsmooth : putLakeCat.Smooth (callAll restartedCalls
      (create {} .empty (.countingFrom 0) (.constant 1000) 0)) :=
    smooth_operate ⟨⟨2000, 1000, 5000⟩, 262144000, 262144000, true⟩ _ rfl (by decide)
  exact ⟨hstored, hreturned, (hnext putLakeCat _ hsmooth hreturned).1 _ _ hstored⟩

end Session

end EntityCatalog

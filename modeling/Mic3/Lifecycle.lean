import Mic3.Tables

/-! The life of one run, whoever writes it: which writes a run's row may receive, what every run that
receives only those looks like, and what no such write undoes. -/
namespace Mic3

/-- An outbox event as it was inserted; publication only fills the remaining column. -/
def OutboxEvent.inserted (event : OutboxEvent) : OutboxEvent := { event with publishedAt := none }

/-- A run with what is stored beside it. -/
structure RunRecord where
  row : Run
  artifacts : List RunArtifact
  events : List OutboxEvent

def definitionChanged : String := "execution_definition_changed"

/-- A write that one transaction may make to a run: the new row, and the rows added beside it. -/
inductive Write (row : Run) : Run → List RunArtifact → List OutboxEvent → Prop
  | accept (time : Time) (hs : row.status = .queued) (ha : row.acceptedAt = none) :
    Write row { row with acceptedAt := some time } [] []
  | refuse (time createdAt : Time) (eventId : UUID) (hs : row.status = .queued) :
    Write row { row with
      status := .failed, failureCode := some definitionChanged, finishedAt := some time }
      [] [⟨eventId, row.id, "run.failed", createdAt, none⟩]
  | start (time : Time) («namespace» : String) (hs : row.status = .queued)
      (ha : row.acceptedAt.isSome) :
    Write row { row with
      status := .running, dispatchStartedAt := some time, jobNamespace := some «namespace» } [] []
  | saveUid (uid : String) (hs : row.status = .running)
      (hu : row.jobUid = none ∨ row.jobUid = some uid) :
    Write row { row with jobUid := some uid } [] []
  | succeed (time createdAt : Time) (eventId : UUID) (artifacts : List RunArtifact)
      (hs : row.status = .running) (hu : row.jobUid.isSome) (ha : ∀ a ∈ artifacts, a.runId = row.id) :
    Write row { row with status := .succeeded, failureCode := none, finishedAt := some time }
      artifacts [⟨eventId, row.id, "run.succeeded", createdAt, none⟩]
  | fail (code : String) (time createdAt : Time) (eventId : UUID) (artifacts : List RunArtifact)
      (hs : row.status = .running) (hc : code ≠ "") (ha : ∀ a ∈ artifacts, a.runId = row.id) :
    Write row { row with status := .failed, failureCode := some code, finishedAt := some time }
      artifacts [⟨eventId, row.id, "run.failed", createdAt, none⟩]

/-- A run and its rows before and after a write. -/
inductive RunRecord.Step (r : RunRecord) : RunRecord → Prop
  | write {row : Run} {artifacts : List RunArtifact} {events : List OutboxEvent}
      (h : Write r.row row artifacts events) :
    Step r ⟨row, artifacts.reverse ++ r.artifacts, (events.map OutboxEvent.inserted).reverse ++ r.events⟩

/-- Nobody has dealt with the run yet. -/
structure Run.Fresh (row : Run) : Prop where
  status : row.status = .queued
  acceptedAt : row.acceptedAt = none
  dispatchStartedAt : row.dispatchStartedAt = none
  jobNamespace : row.jobNamespace = none
  jobUid : row.jobUid = none
  finishedAt : row.finishedAt = none
  failureCode : row.failureCode = none

structure Run.Undispatched (row : Run) : Prop where
  dispatchStartedAt : row.dispatchStartedAt = none
  jobNamespace : row.jobNamespace = none
  jobUid : row.jobUid = none

/-- What a run looks like in each status. -/
structure RunRecord.WellFormed (r : RunRecord) : Prop where
  queued : r.row.status = .queued → r.row.Undispatched ∧ r.row.finishedAt = none ∧
    r.row.failureCode = none ∧ r.artifacts = []
  running : r.row.status = .running → r.row.acceptedAt.isSome ∧ r.row.dispatchStartedAt.isSome ∧
    r.row.jobNamespace.isSome ∧ r.row.finishedAt = none ∧ r.row.failureCode = none ∧ r.artifacts = []
  succeeded : r.row.status = .succeeded → r.row.acceptedAt.isSome ∧ r.row.dispatchStartedAt.isSome ∧
    r.row.jobNamespace.isSome ∧ r.row.jobUid.isSome ∧ r.row.finishedAt.isSome ∧
    r.row.failureCode = none
  failed : r.row.status = .failed → r.row.finishedAt.isSome ∧
    (∃ code, r.row.failureCode = some code ∧ code ≠ "") ∧
    (r.row.acceptedAt = none → r.row.Undispatched ∧ r.artifacts = [] ∧
      r.row.failureCode = some definitionChanged)

theorem Run.Fresh.wellFormed {row : Run} (h : row.Fresh) (events : List OutboxEvent) :
    RunRecord.WellFormed ⟨row, [], events⟩ where
  queued := fun _ => ⟨⟨h.dispatchStartedAt, h.jobNamespace, h.jobUid⟩, h.finishedAt, h.failureCode, rfl⟩
  running := by simp [h.status]
  succeeded := by simp [h.status]
  failed := by simp [h.status]

/-- Every write leaves a well-formed run well formed. -/
theorem RunRecord.WellFormed.step {r r' : RunRecord} (h : r.WellFormed) (hs : r.Step r') :
    r'.WellFormed := by
  obtain ⟨hw⟩ := hs
  cases hw with
  | accept time hq ha =>
    have hqueued := h.queued hq
    exact ⟨fun _ => ⟨⟨hqueued.1.1, hqueued.1.2, hqueued.1.3⟩, hqueued.2⟩, by simp [hq], by simp [hq],
      by simp [hq]⟩
  | refuse time createdAt eventId hq =>
    have hqueued := h.queued hq
    refine ⟨by simp, by simp, by simp, fun _ => ⟨rfl, ⟨_, rfl, by decide⟩, fun _ => ?_⟩⟩
    exact ⟨⟨hqueued.1.1, hqueued.1.2, hqueued.1.3⟩, hqueued.2.2.2, rfl⟩
  | start time ns hq ha =>
    have hqueued := h.queued hq
    exact ⟨by simp, fun _ => ⟨ha, rfl, rfl, hqueued.2⟩, by simp, by simp⟩
  | saveUid uid hr hu =>
    have hrunning := h.running hr
    exact ⟨by simp [hr], fun _ => hrunning, by simp [hr], by simp [hr]⟩
  | succeed time createdAt eventId artifacts hr hu ha =>
    obtain ⟨haccepted, hdispatched, hnamespace, -⟩ := h.running hr
    exact ⟨by simp, by simp, fun _ => ⟨haccepted, hdispatched, hnamespace, hu, rfl, rfl⟩, by simp⟩
  | fail code time createdAt eventId artifacts hr hc ha =>
    have haccepted := (h.running hr).1
    refine ⟨by simp, by simp, by simp, fun _ => ⟨rfl, ⟨code, rfl, hc⟩, fun hnone => ?_⟩⟩
    rw [show r.row.acceptedAt = none from hnone] at haccepted
    contradiction

/-- The events of a run tell that it was requested and, once it has ended, how. -/
def RunRecord.Told (r : RunRecord) : Prop :=
  r.events.map OutboxEvent.eventType =
    (if r.row.status.terminal then ["run." ++ r.row.status.text] else []) ++ ["run.requested"]

/-- The write that ends a run adds its terminal event, and no other write adds one. -/
theorem RunRecord.Told.step {r r' : RunRecord} (h : r.Told) (hs : r.Step r') : r'.Told := by
  have hopen (hne : r.row.status.terminal = false) : r.events.map OutboxEvent.eventType = ["run.requested"] := by
    simpa only [Told, hne, Bool.false_eq_true, if_false, List.nil_append] using h
  obtain ⟨hw⟩ := hs
  cases hw with
  | accept time hq ha => exact h
  | refuse time createdAt eventId hq =>
    simp [Told, OutboxEvent.inserted, hopen (by simp [hq, RunStatus.terminal]), RunStatus.terminal, RunStatus.text]
  | start time ns hq ha =>
    simp [Told, hopen (by simp [hq, RunStatus.terminal]), RunStatus.terminal]
  | saveUid uid hr hu => exact h
  | succeed time createdAt eventId artifacts hr hu ha =>
    simp [Told, OutboxEvent.inserted, hopen (by simp [hr, RunStatus.terminal]), RunStatus.terminal, RunStatus.text]
  | fail code time createdAt eventId artifacts hr hc ha =>
    simp [Told, OutboxEvent.inserted, hopen (by simp [hr, RunStatus.terminal]), RunStatus.terminal, RunStatus.text]

/-- A column that is set once. -/
def Keeps {α : Type} (before after : Option α) : Prop := ∀ a, before = some a → after = some a

/-- The status changes there are. -/
inductive RunStatus.Moves : RunStatus → RunStatus → Prop
  | stay (s : RunStatus) : Moves s s
  | start : Moves .queued .running
  | refuse : Moves .queued .failed
  | succeed : Moves .running .succeeded
  | fail : Moves .running .failed

/-- What stays of a run over a write, or over any number of them. -/
structure Run.Continues (row row' : Run) : Prop where
  id : row'.id = row.id
  modelReleaseId : row'.modelReleaseId = row.modelReleaseId
  requestedBy : row'.requestedBy = row.requestedBy
  parameters : row'.parameters = row.parameters
  fingerprint : row'.fingerprint = row.fingerprint
  acceptedAt : Keeps row.acceptedAt row'.acceptedAt
  dispatchStartedAt : Keeps row.dispatchStartedAt row'.dispatchStartedAt
  jobNamespace : Keeps row.jobNamespace row'.jobNamespace
  jobUid : Keeps row.jobUid row'.jobUid
  finishedAt : Keeps row.finishedAt row'.finishedAt

theorem Run.Continues.refl (row : Run) : row.Continues row :=
  ⟨rfl, rfl, rfl, rfl, rfl, fun _ h => h, fun _ h => h, fun _ h => h, fun _ h => h, fun _ h => h⟩

theorem Run.Continues.trans {a b c : Run} (h : a.Continues b) (h' : b.Continues c) : a.Continues c where
  id := h'.id.trans h.id
  modelReleaseId := h'.modelReleaseId.trans h.modelReleaseId
  requestedBy := h'.requestedBy.trans h.requestedBy
  parameters := h'.parameters.trans h.parameters
  fingerprint := h'.fingerprint.trans h.fingerprint
  acceptedAt := fun t ht => h'.acceptedAt t (h.acceptedAt t ht)
  dispatchStartedAt := fun t ht => h'.dispatchStartedAt t (h.dispatchStartedAt t ht)
  jobNamespace := fun t ht => h'.jobNamespace t (h.jobNamespace t ht)
  jobUid := fun t ht => h'.jobUid t (h.jobUid t ht)
  finishedAt := fun t ht => h'.finishedAt t (h.finishedAt t ht)

theorem Keeps.of_none {α : Type} {before after : Option α} (h : before = none) : Keeps before after :=
  fun _ ha => (by cases (h.symm.trans ha))

/-- No write takes anything back. A set column is written again only with the value it has. -/
theorem Write.continues {r : RunRecord} {row : Run} {artifacts : List RunArtifact}
    {events : List OutboxEvent} (hr : r.WellFormed) (h : Write r.row row artifacts events) :
    r.row.Continues row ∧ r.row.status.Moves row.status := by
  have hrefl := Run.Continues.refl r.row
  cases h with
  | accept time hq ha => exact ⟨{ hrefl with acceptedAt := .of_none ha }, .stay _⟩
  | refuse time createdAt eventId hq =>
    exact ⟨{ hrefl with finishedAt := .of_none (hr.queued hq).2.1 }, hq ▸ .refuse⟩
  | start time ns hq ha =>
    have hund := (hr.queued hq).1
    exact ⟨{ hrefl with
      dispatchStartedAt := .of_none hund.dispatchStartedAt
      jobNamespace := .of_none hund.jobNamespace }, hq ▸ .start⟩
  | saveUid uid hrun hu =>
    refine ⟨{ hrefl with jobUid := fun a ha => ?_ }, .stay _⟩
    rcases hu with hnone | hsame
    · cases (hnone.symm.trans ha)
    · exact hsame ▸ ha
  | succeed time createdAt eventId artifacts hrun hu ha =>
    exact ⟨{ hrefl with finishedAt := .of_none (hr.running hrun).2.2.2.1 }, hrun ▸ .succeed⟩
  | fail code time createdAt eventId artifacts hrun hc ha =>
    exact ⟨{ hrefl with finishedAt := .of_none (hr.running hrun).2.2.2.1 }, hrun ▸ .fail⟩

/-- A terminal run receives no write. -/
theorem Write.not_terminal {row row' : Run} {artifacts : List RunArtifact} {events : List OutboxEvent}
    (h : Write row row' artifacts events) : row.status.terminal = false := by
  cases h <;> simp_all [RunStatus.terminal]

theorem RunRecord.Step.continues {r r' : RunRecord} (h : r.Step r') (hr : r.WellFormed) :
    r.row.Continues r'.row ∧ r.row.status.Moves r'.row.status ∧ r.row.status.terminal = false := by
  obtain ⟨hw⟩ := h
  obtain ⟨hcont, hmoves⟩ := hw.continues hr
  exact ⟨hcont, hmoves, hw.not_terminal⟩

namespace RunStatus.Moves
variable {s s' : RunStatus}

theorem ne_queued (h : s.Moves s') (hs : s ≠ .queued) : s' ≠ .queued := by
  cases h <;> simp_all

theorem was_running (h : s.Moves s') (hs : s ≠ .queued) (hs' : s' = .running) : s = .running := by
  cases h <;> simp_all

end RunStatus.Moves

end Mic3

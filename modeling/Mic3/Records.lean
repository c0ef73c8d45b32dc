import Mic3.Holding
import Mic3.Lifecycle

/-! Each run of the committed tables as one record, and what every program's commits do to it: the write
sets the code builds are writes of the run's life. -/
namespace Mic3
open Relational Interleaving

def Tables.artifactsOf (t : Tables) (id : UUID) : List RunArtifact :=
  t.artifacts.rows.filter fun a => a.runId = id

/-- A run's events in the order of insertion, latest first, without the publication column. -/
def Tables.eventsOf (t : Tables) (id : UUID) : List OutboxEvent :=
  (t.outbox.rows.map OutboxEvent.inserted).filter fun e => e.runId = id

def Tables.record (t : Tables) (id : UUID) (row : Run) : RunRecord :=
  ⟨row, t.artifactsOf id, t.eventsOf id⟩

/-- A transaction's write set is empty, or one write of the run's life. -/
def UnitOfWork.Allowed (u : UnitOfWork) : Prop :=
  (u.row = u.loaded ∧ u.artifacts = [] ∧ u.events = []) ∨ Write u.loaded u.row u.artifacts u.events

theorem UnitOfWork.clean_allowed (row : Run) : (UnitOfWork.clean row).Allowed := .inl ⟨rfl, rfl, rfl⟩

theorem Run.flush_self (row : Run) (current : Run) : Run.flush row row current = current := by
  simp [Run.flush, column]

theorem Write.flush {row row' : Run} {artifacts : List RunArtifact} {events : List OutboxEvent}
    (h : Write row row' artifacts events) : Run.flush row row' row = row' := by
  cases h <;> simp [Run.flush]

theorem Write.belongs {row row' : Run} {artifacts : List RunArtifact} {events : List OutboxEvent}
    (h : Write row row' artifacts events) :
    (∀ a ∈ artifacts, a.runId = row.id) ∧ ∀ e ∈ events, e.runId = row.id := by
  cases h <;> simp_all

/-- The write makes the run run. -/
def UnitOfWork.Starts (u : UnitOfWork) : Prop := u.loaded.status ≠ .running ∧ u.row.status = .running

section Code
variable {row : Run} {d : Defaults}

theorem UnitOfWork.clean_not_starts : ¬ (UnitOfWork.clean row).Starts := fun h => h.1 h.2

theorem finishRow_not_starts {failureCode : Option String} {artifacts : List Artifact} :
    ¬ (finishRow (.clean row) failureCode artifacts d).Starts := by
  unfold finishRow
  split
  · exact UnitOfWork.clean_not_starts
  · rintro ⟨-, h⟩
    cases hcode : truthy failureCode <;> simp [hcode] at h

theorem AcceptRun.saveOutcome_not_starts (hq : row.status = .queued) (compatible : Bool) (now : Time) :
    ¬ (saveOutcome (.clean row) (outcome row compatible now) d).Starts := by
  have hopen : ¬ (UnitOfWork.clean row).row.status.terminal = true := by
    simp [UnitOfWork.clean, hq, RunStatus.terminal]
  rintro ⟨-, h⟩
  cases compatible with
  | true => simp [saveOutcome, outcome, hq] at h
  | false => simp [saveOutcome, outcome, finishRow, hopen, truthy] at h

theorem Reconcile.savedUid_not_starts {uid : String} : ¬ (savedUid row uid).Starts := by
  unfold savedUid
  split
  · exact fun h => h.1 h.2
  · exact UnitOfWork.clean_not_starts

theorem finishRow_terminal {failureCode : Option String} {artifacts : List Artifact}
    (h : row.status.terminal = true) :
    finishRow (.clean row) failureCode artifacts d = .clean row := if_pos h

theorem refuse_allowed (hq : row.status = .queued) :
    (finishRow (.clean row) (some definitionChanged) [] d).Allowed := by
  have hopen : ¬ (UnitOfWork.clean row).row.status.terminal = true := by
    simp [UnitOfWork.clean, hq, RunStatus.terminal]
  rw [finishRow, if_neg hopen]
  exact .inr (.refuse d.now d.createdAt d.uuid hq)

/-- `finish` on a run that was dispatched. -/
theorem finish_allowed {failureCode : Option String} {artifacts : List Artifact}
    (hs : row.status ≠ .queued) (hsuccess : failureCode = none → row.status = .running → row.jobUid.isSome)
    (hcode : failureCode ≠ some "") : (finishRow (.clean row) failureCode artifacts d).Allowed := by
  by_cases ht : row.status.terminal = true
  · rw [finishRow_terminal ht]
    exact UnitOfWork.clean_allowed row
  have hrun : row.status = .running := by
    cases h : row.status <;> simp_all [RunStatus.terminal]
  have hopen : ¬ (UnitOfWork.clean row).row.status.terminal = true := ht
  rw [finishRow, if_neg hopen]
  have hbelongs : ∀ a ∈ artifacts.map fun a => (⟨row.id, a.objectKey, a.bucket, a.sizeBytes⟩ : RunArtifact),
      a.runId = row.id := by
    intro a ha
    obtain ⟨_, _, rfl⟩ := List.mem_map.mp ha
    rfl
  cases failureCode with
  | none => exact .inr (.succeed d.now d.createdAt d.uuid _ hrun (hsuccess rfl hrun) hbelongs)
  | some code =>
    have hne : code ≠ "" := fun he => hcode (congrArg _ he)
    have htrue : truthy (some code) = true := by simp [truthy, hne]
    simp only [htrue, if_true]
    exact .inr (.fail code d.now d.createdAt d.uuid _ hrun hne hbelongs)

theorem AcceptRun.saveOutcome_allowed (hq : row.status = .queued) (ha : row.acceptedAt = none)
    (compatible : Bool) (now : Time) :
    (saveOutcome (.clean row) (outcome row compatible now) d).Allowed := by
  have hopen : ¬ (UnitOfWork.clean row).row.status.terminal = true := by
    simp [UnitOfWork.clean, hq, RunStatus.terminal]
  cases compatible with
  | true =>
    have hne : ¬ (outcome row true now).status = .failed := by simp [outcome, hq]
    rw [saveOutcome, if_neg hne]
    exact .inr (.accept now hq ha)
  | false =>
    have hf : (outcome row false now).status = .failed := rfl
    rw [saveOutcome, if_pos hf, finishRow, if_neg hopen]
    exact .inr (.refuse d.now d.createdAt d.uuid hq)

theorem ClaimNext.start_allowed (hq : row.status = .queued) (ha : row.acceptedAt ≠ none)
    («namespace» : String) (now : Time) : (start row «namespace» now).Allowed :=
  .inr (.start now «namespace» hq (Option.isSome_iff_ne_none.mpr ha))

theorem Reconcile.savedUid_allowed {uid : String} (hu : row.jobUid = none ∨ row.jobUid = some uid) :
    (savedUid row uid).Allowed := by
  unfold savedUid
  split
  · exact .inr (.saveUid uid ‹_› hu)
  · exact UnitOfWork.clean_allowed row

end Code
/-- What a commit may write, given the rows it finds. -/
def Change.Allowed (t : Tables) : Change → Prop
  | .submit row event => row.Fresh ∧ event.runId = row.id ∧ event.eventType = "run.requested"
  | .outcome u => u.Allowed ∧ t.runs.find? u.loaded.id = some u.loaded
  | _ => True

/-- Every run is well formed and told by its events; artifacts and events belong to runs. -/
structure Tables.Consistent (t : Tables) : Prop where
  wellFormed : ∀ id row, t.runs.find? id = some row → (t.record id row).WellFormed
  told : ∀ id row, t.runs.find? id = some row → (t.record id row).Told
  artifacts : ∀ a ∈ t.artifacts.rows, (t.runs.find? a.runId).isSome
  events : ∀ e ∈ t.outbox.rows, (t.runs.find? e.runId).isSome

/-- Every run is still there, as it was or one write later. -/
def Tables.Advances (t t' : Tables) : Prop :=
  ∀ id row, t.runs.find? id = some row → ∃ row', t'.runs.find? id = some row' ∧
    (t'.record id row' = t.record id row ∨ (t.record id row).Step (t'.record id row'))

section Tables
variable {t t' : Tables}

theorem Tables.Advances.of_eq (hr : t'.runs = t.runs) (ha : t'.artifacts = t.artifacts)
    (he : t'.outbox.rows.map OutboxEvent.inserted = t.outbox.rows.map OutboxEvent.inserted) :
    t.Advances t' := by
  intro id row hrow
  refine ⟨row, hr ▸ hrow, .inl ?_⟩
  simp only [Tables.record, Tables.artifactsOf, Tables.eventsOf, ha, he]

theorem Tables.Consistent.of_eq (h : t.Consistent) (hr : t'.runs = t.runs)
    (ha : t'.artifacts = t.artifacts)
    (he : t'.outbox.rows.map OutboxEvent.inserted = t.outbox.rows.map OutboxEvent.inserted) :
    t'.Consistent where
  wellFormed := by
    intro id row hrow
    have hw := h.wellFormed id row (hr ▸ hrow)
    simpa only [Tables.record, Tables.artifactsOf, Tables.eventsOf, ha, he] using hw
  told := by
    intro id row hrow
    have ht := h.told id row (hr ▸ hrow)
    simpa only [Tables.record, Tables.artifactsOf, Tables.eventsOf, ha, he] using ht
  artifacts := by
    rw [ha, hr]
    exact h.artifacts
  events := by
    intro e hmem
    have hin : e.inserted ∈ t.outbox.rows.map OutboxEvent.inserted := he ▸ List.mem_map_of_mem hmem
    obtain ⟨e', hmem', heq⟩ := List.mem_map.mp hin
    rw [hr, show e.runId = e'.runId from (congrArg OutboxEvent.runId heq).symm]
    exact h.events e' hmem'

theorem markPublished_inserted (outbox : Table OutboxEvent) (marks : List (UUID × Time)) :
    (marks.foldl Change.markPublished outbox).rows.map OutboxEvent.inserted =
      outbox.rows.map OutboxEvent.inserted := by
  induction marks generalizing outbox with
  | nil => rfl
  | cons mark marks ih =>
    rw [List.foldl_cons, ih]
    exact Table.map_rows_modify (fun _ => rfl) fun _ => rfl

theorem submit_consistent {row : Run} {event : OutboxEvent} (ha : (Change.submit row event).Allowed t)
    (h : (Change.submit row event).apply t = some t') (hc : t.Consistent) :
    t'.Consistent ∧ t.Advances t' := by
  obtain ⟨hfresh, hevent, htype⟩ := ha
  obtain ⟨runs, outbox, hruns, houtbox, rfl⟩ := Change.submit_apply h
  have hsome (id : UUID) (hid : (t.runs.find? id).isSome) : (runs.find? id).isSome := by
    obtain ⟨r, hr⟩ := Option.isSome_iff_exists.mp hid
    simp [Table.find?_insert_of_some hruns hr]
  have hfind (id : UUID) : runs.find? id = if id = row.id then some row else t.runs.find? id :=
    Table.find?_insert hruns
  have habsent : t.runs.find? row.id = none := Table.insert_fresh hruns
  have hnew : (runs.find? row.id).isSome := by simp [hfind]
  have hother {id : UUID} (hne : id ≠ row.id) (r : Run) :
      Tables.record { t with runs, outbox } id r = t.record id r := by
    simp only [Tables.record, Tables.artifactsOf, Tables.eventsOf, Table.rows_insert houtbox,
      List.map_cons, List.filter_cons]
    rw [if_neg]
    simpa [OutboxEvent.inserted, hevent] using Ne.symm hne
  have hcases {id : UUID} {r : Run} (hr : runs.find? id = some r) :
      (id = row.id ∧ r = row) ∨ id ≠ row.id ∧ t.runs.find? id = some r := by
    rw [hfind id] at hr
    split at hr
    · exact .inl ⟨‹_›, (Option.some.inj hr).symm⟩
    · exact .inr ⟨‹_›, hr⟩
  have hartifacts : t.artifactsOf row.id = [] := by
    refine List.filter_eq_nil_iff.mpr fun a ha hrun => ?_
    have hexists := hc.artifacts a ha
    rw [of_decide_eq_true hrun, habsent] at hexists
    contradiction
  have hevents : t.eventsOf row.id = [] := by
    refine List.filter_eq_nil_iff.mpr fun e he hrun => ?_
    obtain ⟨e', he', rfl⟩ := List.mem_map.mp he
    have hexists := hc.events e' he'
    rw [show e'.runId = row.id from of_decide_eq_true hrun, habsent] at hexists
    contradiction
  have hown : Tables.eventsOf { t with runs, outbox } row.id = [event.inserted] := by
    simp only [Tables.eventsOf, Table.rows_insert houtbox, List.map_cons, List.filter_cons] at hevents ⊢
    rw [hevents, if_pos]
    simp [OutboxEvent.inserted, hevent]
  refine ⟨⟨fun id r hr => ?_, fun id r hr => ?_, fun a ha => hsome _ (hc.artifacts a ha),
    fun e he => ?_⟩, fun id r hr => ?_⟩
  · rcases hcases hr with ⟨rfl, rfl⟩ | ⟨hid, hr⟩
    · have hw := hfresh.wellFormed (Tables.eventsOf { t with runs, outbox } r.id)
      rwa [← hartifacts] at hw
    · rw [hother hid]
      exact hc.wellFormed id r hr
  · rcases hcases hr with ⟨rfl, rfl⟩ | ⟨hid, hr⟩
    · simp only [RunRecord.Told, Tables.record, hown, hfresh.status]
      simp [OutboxEvent.inserted, htype, RunStatus.terminal]
    · rw [hother hid]
      exact hc.told id r hr
  · rcases List.mem_cons.mp (Table.rows_insert houtbox ▸ he) with rfl | he
    · rw [hevent]
      exact hnew
    · exact hsome _ (hc.events e he)
  · have hid : id ≠ row.id := by
      rintro rfl
      rw [habsent] at hr
      contradiction
    exact ⟨r, Table.find?_insert_of_some hruns hr, .inl (hother hid r)⟩

theorem UnitOfWork.Allowed.flush {u : UnitOfWork} (h : u.Allowed) :
    Run.flush u.loaded u.row u.loaded = u.row := by
  rcases h with ⟨hrow, -⟩ | hw
  · rw [hrow, Run.flush_self]
  · exact hw.flush

/-- An outcome moves a count of runs by what the loaded row and the written one contribute. -/
theorem count_outcome {u : UnitOfWork} (ha : (Change.outcome u).Allowed t)
    (h : (Change.outcome u).apply t = some t') (pred : Run → Bool) :
    t'.runs.count pred + (if pred u.loaded then 1 else 0) =
      t.runs.count pred + if pred u.row then 1 else 0 := by
  obtain ⟨hallowed, hcurrent⟩ := ha
  obtain ⟨artifacts, outbox, -, -, rfl⟩ := Change.outcome_apply h
  have hcount := Table.count_modify (f := Run.flush u.loaded u.row) (fun _ => rfl) hcurrent pred
  rwa [hallowed.flush] at hcount

/-- The rows after an allowed write set. -/
theorem find?_outcome {u : UnitOfWork} (ha : (Change.outcome u).Allowed t)
    (h : (Change.outcome u).apply t = some t') (id : UUID) :
    t'.runs.find? id = if id = u.loaded.id then some u.row else t.runs.find? id := by
  obtain ⟨hallowed, hcurrent⟩ := ha
  obtain ⟨artifacts, outbox, -, -, rfl⟩ := Change.outcome_apply h
  have hfind := Table.find?_modify (t := t.runs) (k := u.loaded.id) (j := id)
    (f := Run.flush u.loaded u.row) fun _ => rfl
  simpa only [hcurrent, Option.map_some, hallowed.flush] using hfind

theorem UnitOfWork.Allowed.belongs {u : UnitOfWork} (h : u.Allowed) :
    (∀ a ∈ u.artifacts, a.runId = u.loaded.id) ∧ ∀ e ∈ u.events, e.runId = u.loaded.id := by
  rcases h with ⟨-, ha, he⟩ | hw
  · simp [ha, he]
  · exact hw.belongs

/-- An outcome leaves the other runs' records alone and adds its rows to its own. -/
theorem record_outcome {u : UnitOfWork} (ha : u.Allowed) (h : (Change.outcome u).apply t = some t') :
    (∀ id row, id ≠ u.loaded.id → t'.record id row = t.record id row) ∧
      t'.record u.loaded.id u.row = ⟨u.row, u.artifacts.reverse ++ t.artifactsOf u.loaded.id,
        (u.events.map OutboxEvent.inserted).reverse ++ t.eventsOf u.loaded.id⟩ := by
  obtain ⟨hartifacts, hevents⟩ := ha.belongs
  obtain ⟨artifacts, outbox, hinserted, houtbox, ht'⟩ := Change.outcome_apply h
  have hart : t'.artifacts.rows = u.artifacts.reverse ++ t.artifacts.rows := by
    rw [ht', ← Table.rows_insertAll hinserted]
  have hout : t'.outbox.rows = u.events.reverse ++ t.outbox.rows := by
    rw [ht', ← Table.rows_insertAll houtbox]
  simp only [Tables.record, Tables.artifactsOf, Tables.eventsOf, hart, hout, List.map_append,
    List.filter_append]
  refine ⟨fun id row hne => ?_, ?_⟩
  · have hartifacts' : (u.artifacts.reverse).filter (fun a => a.runId = id) = [] :=
      List.filter_eq_nil_iff.mpr fun a ha hrun =>
        hne ((of_decide_eq_true hrun).symm.trans (hartifacts a (List.mem_reverse.mp ha)))
    have hevents' : ((u.events.reverse).map OutboxEvent.inserted).filter (fun e => e.runId = id) = [] := by
      refine List.filter_eq_nil_iff.mpr fun e he hrun => ?_
      obtain ⟨e', he', rfl⟩ := List.mem_map.mp he
      exact hne ((of_decide_eq_true hrun).symm.trans (hevents e' (List.mem_reverse.mp he')))
    simp only [hartifacts', hevents', List.nil_append]
  · have hartifacts' : (u.artifacts.reverse).filter (fun a => a.runId = u.loaded.id) = u.artifacts.reverse :=
      List.filter_eq_self.mpr fun a ha => decide_eq_true (hartifacts a (List.mem_reverse.mp ha))
    have hevents' : ((u.events.reverse).map OutboxEvent.inserted).filter
        (fun e => e.runId = u.loaded.id) = (u.events.map OutboxEvent.inserted).reverse := by
      rw [List.map_reverse, List.filter_eq_self]
      intro e he
      obtain ⟨e', he', rfl⟩ := List.mem_map.mp (List.mem_reverse.mp he)
      exact decide_eq_true (hevents e' he')
    simp only [hartifacts', hevents']

theorem outcome_consistent {u : UnitOfWork} (ha : (Change.outcome u).Allowed t)
    (h : (Change.outcome u).apply t = some t') (hc : t.Consistent) :
    t'.Consistent ∧ t.Advances t' := by
  have hfind := find?_outcome ha h
  obtain ⟨hallowed, hcurrent⟩ := ha
  obtain ⟨hother, hown⟩ := record_outcome hallowed h
  have hbelongs := hallowed.belongs
  obtain ⟨artifacts, outbox, hartifacts, houtbox, ht'⟩ := Change.outcome_apply h
  have hsome (id : UUID) (hid : (t.runs.find? id).isSome) : (t'.runs.find? id).isSome := by
    rw [hfind]
    split
    · rfl
    · exact hid
  have hloaded : (t.runs.find? u.loaded.id).isSome := by simp [hcurrent]
  have hstep : t'.record u.loaded.id u.row = t.record u.loaded.id u.loaded ∨
      (t.record u.loaded.id u.loaded).Step (t'.record u.loaded.id u.row) := by
    rw [hown]
    rcases hallowed with ⟨hrow, ha, he⟩ | hw
    · left
      simp [hrow, ha, he, Tables.record]
    · exact .inr ⟨hw⟩
  have hadvance : t.Advances t' := by
    intro id r hr
    by_cases hid : id = u.loaded.id
    · subst hid
      obtain rfl : u.loaded = r := Option.some.inj (hcurrent.symm.trans hr)
      exact ⟨u.row, (hfind _).trans (if_pos rfl), hstep⟩
    · exact ⟨r, (hfind id).trans ((if_neg hid).trans hr), .inl (hother id r hid)⟩
  have hback {id : UUID} {r : Run} (hr : t'.runs.find? id = some r) : ∃ r₀,
      t.runs.find? id = some r₀ ∧
        (t'.record id r = t.record id r₀ ∨ (t.record id r₀).Step (t'.record id r)) := by
    obtain ⟨r₀, hr₀⟩ : ∃ r₀, t.runs.find? id = some r₀ := by
      by_cases hid : id = u.loaded.id
      · exact ⟨u.loaded, hid ▸ hcurrent⟩
      · exact ⟨r, ((hfind id).trans (if_neg hid)).symm.trans hr⟩
    obtain ⟨r', hr', hs⟩ := hadvance id r₀ hr₀
    obtain rfl : r' = r := Option.some.inj (hr'.symm.trans hr)
    exact ⟨r₀, hr₀, hs⟩
  refine ⟨⟨fun id r hr => ?_, fun id r hr => ?_, fun a ha => ?_, fun e he => ?_⟩, hadvance⟩
  · obtain ⟨r₀, hr₀, heq | hs⟩ := hback hr
    · exact heq ▸ hc.wellFormed id r₀ hr₀
    · exact (hc.wellFormed id r₀ hr₀).step hs
  · obtain ⟨r₀, hr₀, heq | hs⟩ := hback hr
    · exact heq ▸ hc.told id r₀ hr₀
    · exact (hc.told id r₀ hr₀).step hs
  · rw [ht', Table.rows_insertAll hartifacts] at ha
    rcases List.mem_append.mp ha with ha | ha
    · exact hbelongs.1 a (List.mem_reverse.mp ha) ▸ hsome _ hloaded
    · exact hsome _ (hc.artifacts a ha)
  · rw [ht', Table.rows_insertAll houtbox] at he
    rcases List.mem_append.mp he with he | he
    · exact hbelongs.2 e (List.mem_reverse.mp he) ▸ hsome _ hloaded
    · exact hsome _ (hc.events e he)

theorem Change.consistent {change : Change} (ha : change.Allowed t) (h : change.apply t = some t')
    (hc : t.Consistent) : t'.Consistent ∧ t.Advances t' := by
  cases change with
  | nothing =>
    obtain rfl := nothing_apply h
    exact ⟨hc, .of_eq rfl rfl rfl⟩
  | submit row event => exact submit_consistent ha h hc
  | outcome u => exact outcome_consistent ha h hc
  | register r =>
    obtain ⟨models, releases, -, -, rfl⟩ := register_apply h
    exact ⟨hc.of_eq rfl rfl rfl, .of_eq rfl rfl rfl⟩
  | publish marks =>
    obtain rfl := publish_apply h
    have he := markPublished_inserted t.outbox marks
    exact ⟨hc.of_eq rfl rfl he, .of_eq rfl rfl he⟩
  | reject message =>
    obtain ⟨rejected, -, rfl⟩ := reject_apply h
    exact ⟨hc.of_eq rfl rfl rfl, .of_eq rfl rfl rfl⟩

end Tables
end Mic3

import Mic3.Dispatch

/-! No step gives a run a second Job, as long as others delete a worker's Job only after its uid was saved. -/
namespace Mic3
open Relational Interleaving

/-- Others delete a Job that a worker created for a run only after its uid was saved in the run's row. -/
def KeepsJobs (w : World) : Label Pid Action External.Event → Prop
  | .env (.deleteJob key) => ∀ id job, key.2 = jobNameOf id → w.cluster.jobs key = some job →
    (key, job.uid) ∈ w.cluster.dispatched →
      ∃ row, w.tables.runs.find? id = some row ∧ row.jobUid = some job.uid
  | _ => True

section Worlds
variable {w w' : World}

/-- A Job that is gone was saved in its run. -/
def JobsKept (w w' : World) : Prop :=
  ∀ id key uid, w.SoleJob id key uid → (∃ job, w.cluster.jobs key = some job ∧ job.uid = uid) →
    (∃ job, w'.cluster.jobs key = some job ∧ job.uid = uid) ∨
      ∃ row, w.tables.runs.find? id = some row ∧ row.jobUid = some uid

/-- A uid that is saved is that of the run's own Job. -/
def SavesOwn (w w' : World) : Prop :=
  ∀ id row' uid, w'.tables.runs.find? id = some row' → row'.jobUid = some uid →
    (∃ row, w.tables.runs.find? id = some row ∧ row.jobUid = some uid) ∨
      (∃ ns, row'.jobNamespace = some ns ∧ ((ns, jobNameOf id), uid) ∈ w.cluster.created) ∧
        ∀ e ∈ w.jobsOf id, e.2 = uid

theorem World.SoleJob.advance {id : UUID} {key : JobKey} {uid : String} (h : w.SoleJob id key uid)
    (hjobs : w'.jobsOf id = w.jobsOf id) (hkept : JobsKept w w') (hsaves : SavesOwn w w')
    (hadv : w.tables.Advances w'.tables) (hc : w.tables.Consistent) : w'.SoleJob id key uid := by
  refine ⟨hjobs.trans h.only, ?_⟩
  obtain ⟨row, hrow, hq, hns, huid⟩ := h.row
  obtain ⟨row', hrow', hcont, hmoves, -⟩ := hadv.run hc hrow
  refine ⟨row', hrow', hmoves.ne_queued hq, hcont.jobNamespace _ hns, ?_⟩
  have hold {saved : String} (hu : ∃ row, w.tables.runs.find? id = some row ∧ row.jobUid = some saved) :
      row.jobUid = some saved := by
    obtain ⟨row₀, hrow₀, hu⟩ := hu
    obtain rfl : row = row₀ := Option.some.inj (hrow.symm.trans hrow₀)
    exact hu
  cases hu' : row'.jobUid with
  | none =>
    rcases huid with ⟨hnone, hpresent⟩ | hu
    · refine .inl ⟨rfl, (hkept id key uid h hpresent).resolve_right fun hu => ?_⟩
      cases (hnone.symm.trans (hold hu))
    · cases (hu'.symm.trans (hcont.jobUid _ hu))
  | some saved =>
    right
    rcases hsaves id row' saved hrow' hu' with hu | ⟨-, hall⟩
    · rcases huid with ⟨hnone, -⟩ | hu₀
      · cases (hnone.symm.trans (hold hu))
      · exact (hold hu).symm.trans hu₀
    · have hsame : uid = saved := hall (key, uid) (by simp [h.only])
      rw [hsame]

theorem World.SoleJobs.saved_advance (h : w.SoleJobs) (hsaves : SavesOwn w w')
    (hcreated : w.cluster.created ⊆ w'.cluster.created) (hadv : w.tables.Advances w'.tables)
    (hc : w.tables.Consistent) {id : UUID} {row' : Run} {uid : String}
    (hrow' : w'.tables.runs.find? id = some row') (hu' : row'.jobUid = some uid) :
    ∃ ns, row'.jobNamespace = some ns ∧ ((ns, jobNameOf id), uid) ∈ w'.cluster.created := by
  rcases hsaves id row' uid hrow' hu' with ⟨row, hrow, hu⟩ | ⟨⟨ns, hns, hmem⟩, -⟩
  · obtain ⟨ns, hns, hmem⟩ := h.saved id row uid hrow hu
    obtain ⟨row₁, hrow₁, hcont, -⟩ := hadv.run hc hrow
    obtain rfl : row' = row₁ := Option.some.inj (hrow'.symm.trans hrow₁)
    exact ⟨ns, hcont.jobNamespace _ hns, hcreated hmem⟩
  · exact ⟨ns, hns, hcreated hmem⟩

/-- A step that creates no worker's Job keeps every run at one. -/
theorem World.SoleJobs.advance (h : w.SoleJobs) (hjobs : ∀ id, w'.jobsOf id = w.jobsOf id)
    (hkept : JobsKept w w') (hsaves : SavesOwn w w') (hcreated : w.cluster.created ⊆ w'.cluster.created)
    (hadv : w.tables.Advances w'.tables) (hc : w.tables.Consistent) : w'.SoleJobs where
  saved := fun _ _ _ hrow' hu' => h.saved_advance hsaves hcreated hadv hc hrow' hu'
  sole := by
    intro id
    rcases h.sole id with hnil | ⟨key, uid, hsole⟩
    · exact .inl ((hjobs id).trans hnil)
    · exact .inr ⟨key, uid, hsole.advance (hjobs id) hkept hsaves hadv hc⟩

/-- A new object takes no other's place. -/
theorem jobsKept_create {byWorker : Bool} {key : JobKey} {job : JobObject}
    (h : w.create byWorker key job = some w') : JobsKept w w' := by
  obtain ⟨⟨hfree, -⟩, rfl⟩ := create_apply h
  rintro id key' uid - ⟨job', hjob', huid⟩
  refine .inl ⟨job', ?_, huid⟩
  have hne : key' ≠ key := by
    rintro rfl
    cases (hfree.symm.trans hjob')
  simpa only [Function.update_of_ne hne] using hjob'

theorem jobsKept_of_eq (h : w'.cluster = w.cluster) : JobsKept w w' :=
  fun _ _ _ _ hp => .inl (h ▸ hp)

theorem savesOwn_of_eq (h : w'.tables.runs = w.tables.runs) : SavesOwn w w' :=
  fun _ row' _ hrow' hu' => .inl ⟨row', h ▸ hrow', hu'⟩

end Worlds

section Steps
variable {x : External} {p : Pid} {w w' : World} {i : Input} {e : Effect} {l l' : Proc}

theorem UnitOfWork.Allowed.jobUid_of_queued {u : UnitOfWork} (h : u.Allowed)
    (hq : u.loaded.status = .queued) : u.row.jobUid = u.loaded.jobUid := by
  rcases h with ⟨hrow, -⟩ | hw
  · rw [hrow]
  · generalize u.row = row', u.artifacts = artifacts, u.events = events at hw
    cases hw with
    | saveUid uid hr => cases (hq.symm.trans hr)
    | _ => rfl

/-- The uids that a commit saves. -/
theorem Proc.saves (hs : l.next x p w i = (e, l')) (hk : l.Dispatches w) (hknows : l.Knows w.tables)
    (hconf : l.Configures w.tables) (hal : e.Allowed w.tables) (ha : w.apply p e = some w') :
    SavesOwn w w' := by
  intro id row' uid hrow' hu'
  rcases hal.runs ha with hsame | ⟨row, event, entries, -, hfresh, hins⟩ | ⟨u, entries, rfl, hu, hcurrent, hfind⟩
  · exact .inl ⟨row', hsame ▸ hrow', hu'⟩
  · rw [Table.find?_insert hins] at hrow'
    split at hrow'
    · obtain rfl := Option.some.inj hrow'
      cases (hfresh.jobUid.symm.trans hu')
    · exact .inl ⟨row', hrow', hu'⟩
  rw [hfind] at hrow'
  split at hrow'
  · rename_i hid
    subst hid
    obtain rfl := Option.some.inj hrow'
    have hsame (h : u.row.jobUid = u.loaded.jobUid) :
        ∃ row, w.tables.runs.find? u.loaded.id = some row ∧ row.jobUid = some uid :=
      ⟨u.loaded, hcurrent, h ▸ hu'⟩
    cases Proc.writes hs hknows hconf with
    | clean l u entries h => exact .inl (hsame (congrArg Run.jobUid h))
    | queued l u entries h => exact .inl (hsame (hu.jobUid_of_queued h))
    | finish worker seen u => exact .inl (hsame hk.2)
    | saveUid worker call observation row hsave =>
      rw [Reconcile.savedUid_loaded] at hcurrent
      have hfound : w.Found worker row.id observation.uid := hk
      obtain ⟨row₀, hrow₀, hrun, hns, -⟩ := hfound.running
      obtain rfl : row = row₀ := Option.some.inj (hcurrent.symm.trans hrow₀)
      have hrow : (Reconcile.savedUid row observation.uid).row = { row with jobUid := some observation.uid } := by
        rw [Reconcile.savedUid, if_pos hrun]
      rw [hrow] at hu' ⊢
      obtain rfl := Option.some.inj hu'
      rw [Reconcile.savedUid_loaded]
      exact .inr ⟨⟨worker.namespace, hns, hfound.created⟩, hfound.sole⟩
  · exact .inl ⟨row', hrow', hu'⟩

/-- The first Job of a run. -/
theorem soleJobs_create {worker : Worker} {runId : UUID} {call : Reconcile.Call} {job : JobObject}
    (h : w.SoleJobs) (hid : call.work.id = runId)
    (hk : Reconcile.Dispatches w worker runId (.create call)) (hc : w.tables.Consistent)
    (ha : w.apply p (.createJob (worker.namespace, call.work.jobName) job) = some w') : w'.SoleJobs := by
  have hjobs := jobsOf_create ha
  obtain ⟨⟨row, hrow, hrun, huid, hns⟩, hnone, hempty⟩ := hk
  have htables : w'.tables = w.tables := tables_apply rfl ha
  have hadv : w.tables.Advances w'.tables := htables ▸ .refl _
  have hsaves : SavesOwn w w' := savesOwn_of_eq (by rw [htables])
  refine ⟨fun id => ?_, fun _ _ _ hrow' hu' => h.saved_advance hsaves (create_subset ha) hadv hc hrow' hu'⟩
  by_cases hname : call.work.jobName = jobNameOf id
  · have hrunId : id = runId := (jobNameOf_injective hname).symm.trans hid
    subst hrunId
    refine .inr ⟨(worker.namespace, call.work.jobName), job.uid, ?_, row, htables ▸ hrow,
      hrun ▸ (fun he => by cases he), hns, .inl ⟨huid.trans hnone, job, ?_, rfl⟩⟩
    · rw [hjobs, if_pos hname, hempty]
    · obtain ⟨-, rfl⟩ := create_apply ha
      exact Function.update_self _ _ _
  · have hsame : w'.jobsOf id = w.jobsOf id := (hjobs id).trans (if_neg hname)
    rcases h.sole id with hnil | ⟨key, uid, hsole⟩
    · exact .inl (hsame.trans hnil)
    · exact .inr ⟨key, uid, hsole.advance hsame (jobsKept_create ha) hsaves hadv hc⟩

theorem Proc.soleJobs_step (hs : l.next x p w i = (e, l')) (h : w.SoleJobs) (hk : l.Dispatches w)
    (hsees : l.Sees x p w) (hknows : l.Knows w.tables) (hconf : l.Configures w.tables)
    (hal : e.Allowed w.tables) (hcreated : w.cluster.created ⊆ w'.cluster.created)
    (hadv : w.tables.Advances w'.tables) (hc : w.tables.Consistent) (ha : w.apply p e = some w') :
    w'.SoleJobs := by
  cases hcr : e.creates with
  | false =>
    have hsaves := Proc.saves hs hk hknows hconf hal ha
    exact h.advance (jobsOf_apply hcr ha) (jobsKept_of_eq (cluster_apply hcr ha)) hsaves hcreated hadv hc
  | true =>
    cases e with
    | createJob key job =>
      rcases Proc.emits hs with h' | ⟨change, entries, h', -⟩ | h'
      · contradiction
      · contradiction
      · cases h' with
        | createJob worker runId call job =>
          have hsees : Reconcile.Sees x p w worker runId (.create call) := hsees
          have hid := hsees.id_eq (.inr (.inl rfl))
          exact soleJobs_create h hid hk hc ha
    | _ => contradiction

theorem Proc.dispatches_step (hs : l.next x p w i = (e, l')) (h : w.SoleJobs) (hk : l.Dispatches w)
    (hsees : l.Sees x p w) (hknows : l.Knows w.tables) (hl : Holding p l w) (hrec : w.cluster.Recorded)
    (ha : w.apply p e = some w') : l'.Dispatches w' := by
  cases l with
  | idle | unwinding => obtain ⟨rfl, rfl⟩ := Prod.mk.inj hs; trivial
  | reconcile worker runId pc =>
    obtain ⟨rfl, rfl⟩ := Prod.mk.inj hs
    have hnext := Reconcile.dispatches_step rfl hk h hsees hl.valid hknows hrec ha
    exact hnext.proc (Q := fun l => l.Dispatches w') (fun _ h => h) trivial
  | submit | register | accept | claim | publish | consume =>
    obtain ⟨rfl, rfl⟩ := Prod.mk.inj hs
    exact (Progress.all_true _).proc (Q := fun l => l.Dispatches w') (fun _ _ => trivial) trivial

/-- The others leave the run of a reconcile call alone. -/
theorem Proc.Dispatches.stable {q : Pid} (hk : l.Dispatches w) (hl : Holding q l w) (hne : p ≠ q)
    (hg : Excludes p w w') (hcreated : w.cluster.created ⊆ w'.cluster.created) : l.Dispatches w' := by
  cases l with
  | reconcile worker runId pc =>
    by_cases hpc : pc = .acquire
    · subst hpc
      trivial
    have hother : w.pg.sessionLocks (runKey runId) ≠ some p := by
      rw [hl.owns hpc]
      exact fun h => hne (Option.some.inj h).symm
    exact Reconcile.Dispatches.keep hk (fun row hrow hrun => hg.running _ row hother hrow hrun)
      (hg.jobs _ hother) hcreated
  | _ => trivial

/-- What others do to the cluster, as long as they wait for the uid to be saved. -/
theorem jobsKept_event {ev : External.Event} (hok : KeepsJobs w (.env ev)) (he : w.event ev = some w') :
    JobsKept w w' := by
  cases ev with
  | createJob key job => exact jobsKept_create he
  | updateJob key job =>
    obtain ⟨old, hold, rfl⟩ := Option.map_eq_some_iff.mp he
    rintro id key' uid - ⟨job', hjob', rfl⟩
    by_cases hk : key' = key
    · subst hk
      obtain rfl : old = job' := Option.some.inj (hold.symm.trans hjob')
      exact .inl ⟨_, Function.update_self _ _ _, rfl⟩
    · exact .inl ⟨job', by simpa only [Function.update_of_ne hk] using hjob', rfl⟩
  | deleteJob key =>
    obtain rfl := Option.some.inj he
    rintro id key' uid hsole ⟨job', hjob', rfl⟩
    by_cases hk : key' = key
    · subst hk
      have hmem : (key', job'.uid) ∈ w.jobsOf id := by simp [hsole.only]
      exact .inr (hok id job' hsole.name hjob' (List.mem_filter.mp hmem).1)
    · exact .inl ⟨job', by simpa only [Function.update_of_ne hk] using hjob', rfl⟩
  | deliver sent partition =>
    obtain ⟨record, -, rfl⟩ := Option.map_eq_some_iff.mp he
    exact jobsKept_of_eq rfl
  | addUser | append | revoke =>
    obtain rfl := Option.some.inj he
    exact jobsKept_of_eq rfl

theorem jobsOf_event {ev : External.Event} (he : w.event ev = some w') (id : UUID) :
    w'.jobsOf id = w.jobsOf id := by
  cases ev with
  | createJob key job =>
    obtain ⟨-, rfl⟩ := create_apply he
    rfl
  | updateJob key job =>
    obtain ⟨old, -, rfl⟩ := Option.map_eq_some_iff.mp he
    rfl
  | deliver sent partition =>
    obtain ⟨record, -, rfl⟩ := Option.map_eq_some_iff.mp he
    rfl
  | deleteJob | addUser | append | revoke =>
    obtain rfl := Option.some.inj he
    rfl

end Steps

end Mic3

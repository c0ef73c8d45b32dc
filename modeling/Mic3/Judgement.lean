import Mic3.Sightings

/-! A run is ended as succeeded only on evidence, and likewise as failed by the check of its outputs. -/
namespace Mic3
open Relational Interleaving

def evidence (x : External) : Contract Pid World Proc where
  inv := Verified x
  assert := fun p l w => l.Sees x p w
  guarantee := fun _ _ _ => True

section Steps
variable {x : External} {p : Pid} {w w' : World} {i : Input} {e : Effect}

/-- A write to a run that was still queued ends none by the check of its outputs. -/
theorem UnitOfWork.Allowed.judged_of_queued {u : UnitOfWork} (h : u.Allowed)
    (hq : u.loaded.status = .queued) (hj : u.row.Judged) : u.loaded.Judged := by
  rcases h with ⟨hrow, -⟩ | hw
  · exact hrow ▸ hj
  · cases (hq.symm.trans (hw.ends hj))

theorem Proc.verifies {l l' : Proc} (hs : l.next x p w i = (e, l')) (hk : l.Sees x p w)
    (hknows : l.Knows w.tables) (hconf : l.Configures w.tables) (hal : e.Allowed w.tables) :
    e.Verifies x w := by
  cases e with
  | commit change entries =>
    cases change with
    | outcome u =>
      intro hj
      cases Proc.writes hs hknows hconf with
      | clean l u entries hrow => exact .inl (hrow ▸ hj)
      | queued l u entries hq => exact .inl (hal.1.judged_of_queued hq hj)
      | saveUid worker call observation row hu =>
        left
        rw [Reconcile.savedUid_loaded]
        unfold Reconcile.savedUid at hj
        split at hj
        · exact ⟨hj.terminal, hj.code⟩
        · exact hj
      | finish worker seen u =>
        obtain ⟨-, hsees⟩ := hk
        rcases hsees hj with hjudged | ⟨inspection, rfl, hsupports, hartifacts⟩
        · exact .inl hjudged
        by_cases ht : u.loaded.status.terminal = true
        · rcases hal.1 with ⟨hrow, -⟩ | hw
          · exact .inl (hrow ▸ hj)
          · cases (hw.not_terminal.symm.trans ht)
        · exact .inr ⟨inspection, by simp [ht], hsupports, hartifacts⟩
    | _ => trivial
  | _ => trivial

theorem Proc.sees_step {l l' : Proc} (hs : l.next x p w i = (e, l')) (hk : l.Sees x p w)
    (hknows : l.Knows w.tables) (hl : Holding p l w) (hcluster : w.cluster.Recorded)
    (hadv : w.tables.Advances w'.tables) (hc : w.tables.Consistent)
    (hcreated : w.cluster.created ⊆ w'.cluster.created) (ha : w.apply p e = some w') :
    l'.Sees x p w' := by
  cases l with
  | idle | unwinding => obtain ⟨rfl, rfl⟩ := Prod.mk.inj hs; trivial
  | reconcile worker runId pc =>
    obtain ⟨rfl, rfl⟩ := Prod.mk.inj hs
    have hnext := Reconcile.sees_step rfl hk hknows hl.valid hl.owns hcluster hadv hc hcreated ha
    exact hnext.proc (Q := fun l => l.Sees x p w') (fun _ h => h) trivial
  | submit | register | accept | claim | publish | consume =>
    obtain ⟨rfl, rfl⟩ := Prod.mk.inj hs
    exact (Progress.all_true _).proc (Q := fun l => l.Sees x p w') (fun _ _ => trivial) trivial

theorem Proc.Sees.advance {l : Proc} (h : l.Sees x p w) (hadv : w.tables.Advances w'.tables)
    (hc : w.tables.Consistent) (hcreated : w.cluster.created ⊆ w'.cluster.created) : l.Sees x p w' := by
  cases l with
  | reconcile worker runId pc => exact Reconcile.Sees.advance h hadv hc hcreated
  | _ => trivial

end Steps

/-- The layers that the evidence rests on. -/
abbrev foundation : Contract Pid World Proc :=
  clusterHistory.both (configuration.both (runHistory.both holding))

theorem foundation_established (x : External) :
    foundation.Established (platform x) (fun _ _ => True) initial :=
  (clusterHistory_established x).both (configuration_established x)

theorem evidence_layer (x : External) : Layer (evidence x) foundation x where
  start := fun _ task _ => by cases task <;> trivial
  failing := by
    intro _ l _
    cases l with
    | reconcile worker runId pc => cases pc <;> trivial
    | _ => trivial
  refl := fun _ _ => trivial
  step := by
    intro p w i l e l' w' hs ha ⟨hcluster, _, hc, _⟩ ⟨_, hconf, hknows, hl⟩ ⟨hcreated, _, hadv, _⟩ hv hk
    obtain ⟨hal, -⟩ := Proc.knows_step hs hknows hl ha
    exact ⟨(Proc.verifies hs hk hknows hconf hal).apply hal hc ha hv hcreated,
      Proc.sees_step hs hk hknows hl hcluster hadv hc hcreated ha, trivial⟩

theorem World.event_created {w w' : World} {ev : External.Event} (h : w.event ev = some w') :
    w.cluster.created ⊆ w'.cluster.created := by
  cases ev with
  | createJob key job => exact create_subset h
  | updateJob key job =>
    obtain ⟨old, -, rfl⟩ := Option.map_eq_some_iff.mp h
    exact List.Subset.refl _
  | deliver sent partition =>
    obtain ⟨record, -, rfl⟩ := Option.map_eq_some_iff.mp h
    exact List.Subset.refl _
  | addUser | deleteJob | append | revoke =>
    obtain rfl := Option.some.inj h
    exact List.Subset.refl _

theorem evidence_proof (x : External) :
    (evidence x).Proof foundation (platform x) fun _ _ => True where
  act := by
    intro p a w l w' l' _ ha hinv hl hg hv hk
    exact (evidence_layer x).act (fun _ _ _ => ⟨trivial, trivial, trivial, .of_nothing rfl rfl⟩)
      ha hinv hl hg hv hk
  stable := by
    intro p q l w w' _ ⟨_, _, hc, _⟩ _ ⟨hcreated, _, hadv, _⟩ _ _ hk
    exact Proc.Sees.advance hk hadv hc hcreated
  env := by
    intro ev w w' _ he ⟨_, _, hc, _⟩ hv
    obtain ⟨hruns, hartifacts, houtbox⟩ := World.event_tables he
    have hcreated := World.event_created he
    have hadv : w.tables.Advances w'.tables :=
      .of_eq hruns hartifacts (congrArg (fun t => t.rows.map OutboxEvent.inserted) houtbox)
    exact ⟨hv.of_eq hruns hartifacts hcreated (by rw [World.event_history he]; exact fun _ h => h),
      fun q l _ hk => Proc.Sees.advance hk hadv hc hcreated⟩

theorem evidence_established (x : External) :
    ((evidence x).both foundation).Established (platform x) (fun _ _ => True) initial :=
  (evidence_proof x).established (foundation_established x) ⟨fun _ _ h => (by cases h), fun _ => trivial⟩

/-- What the worker saw, in one reconcile call under the run's session lock, before it ended the run. -/
structure Inspection.Evidences (i : Inspection) (x : External) (w : World) (row : Run) : Prop where
  logged : Entry.finished row.id i.seen ∈ w.history
  work : i.work.Of row
  fingerprint : fingerprint i.work.release row.parameters = .ok row.fingerprint
  rendered : render x.helm i.worker.chart i.worker.namespace i.work = .ok i.expected
  job : i.call.Completed w.cluster.created i.worker i.job
  uid : row.jobUid = some i.job.uid
  outputPrefix : i.work.outputPrefix = .ok i.outputPrefix
  artifacts : (w.tables.artifactsOf row.id).Perm (i.listing.map (artifactRow row.id))

/-- The files that the invocation of the run's mode requires. -/
def Inspection.Requires (i : Inspection) (required : List String) : Prop :=
  ∃ invocation, i.work.release.executionDefinition.resolve i.work.parameters = .ok invocation ∧
    invocation.outputRequirements.requiredFiles = required

/-- An object is listed at the path under the output prefix, and is not empty. -/
def Inspection.HasFile (i : Inspection) (path : String) : Prop :=
  ∃ a ∈ i.listing, a.objectKey = i.outputPrefix ++ path ∧ 0 < a.sizeBytes

def Inspection.HasOutput (i : Inspection) : Prop := ∃ a ∈ i.listing, 0 < a.sizeBytes

theorem hasOutput_iff {artifacts : List Artifact} :
    hasOutput artifacts = true ↔ ∃ a ∈ artifacts, 0 < a.sizeBytes := by
  simp [hasOutput]

section Collecting
variable {i : Inspection}

theorem collect_found (h : collect i.work i.outputPrefix i.listing = verdict none i.listing) :
    ∃ required, i.Requires required ∧ (∀ path ∈ required, i.HasFile path) ∧ i.HasOutput := by
  rcases collect_cases i.work i.outputPrefix i.listing with
    ⟨err, he, -⟩ | ⟨invocation, hr, ⟨-, he⟩ | ⟨-, -, he⟩ | ⟨hmissing, houtput, -⟩⟩
  · cases (he.symm.trans h)
  · cases (he.symm.trans h)
  · cases (he.symm.trans h)
  · exact ⟨_, ⟨invocation, hr, rfl⟩, missesRequired_false hmissing, hasOutput_iff.mp houtput⟩

theorem collect_missing
    (h : collect i.work i.outputPrefix i.listing = verdict (some "required_outputs_missing") i.listing)
    (hn : (i.listing.map Artifact.objectKey).Nodup) :
    ∃ required, i.Requires required ∧ ∃ path ∈ required, ¬ i.HasFile path := by
  rcases collect_cases i.work i.outputPrefix i.listing with
    ⟨err, he, hne⟩ | ⟨invocation, hr, ⟨hmissing, -⟩ | ⟨-, -, he⟩ | ⟨-, -, he⟩⟩
  · exact absurd (Except.error.inj (he.symm.trans h)) (hne _ _)
  · obtain ⟨path, hpath, hsize⟩ := missesRequired_true hn hmissing
    refine ⟨_, ⟨invocation, hr, rfl⟩, path, hpath, fun ⟨a, ha, hkey, hpos⟩ => ?_⟩
    exact absurd hpos (not_lt.mpr (hsize a ha hkey))
  · injection Except.error.inj (he.symm.trans h) with h
    exact absurd h (by decide)
  · cases (he.symm.trans h)

theorem collect_empty
    (h : collect i.work i.outputPrefix i.listing = verdict (some "outputs_empty") i.listing) :
    ¬ i.HasOutput := by
  rcases collect_cases i.work i.outputPrefix i.listing with
    ⟨err, he, hne⟩ | ⟨invocation, hr, ⟨-, he⟩ | ⟨-, houtput, -⟩ | ⟨-, -, he⟩⟩
  · exact absurd (Except.error.inj (he.symm.trans h)) (hne _ _)
  · injection Except.error.inj (he.symm.trans h) with h
    exact absurd h (by decide)
  · rw [Inspection.HasOutput, ← hasOutput_iff, houtput]
    exact fun he => by cases he
  · cases (he.symm.trans h)

end Collecting

theorem Inspection.Supports.evidences {i : Inspection} {x : External} {w : World} {row : Run}
    (h : i.Supports x w.cluster.created row) (hlogged : Entry.finished row.id i.seen ∈ w.history)
    (hartifacts : w.tables.artifactsOf row.id = (i.listing.map (artifactRow row.id)).reverse) :
    i.Evidences x w row where
  logged := hlogged
  work := h.work
  fingerprint := by
    rw [← h.work.parameters, ← h.work.fingerprint]
    exact matchesFingerprint_true.mp h.prepared.compatible
  rendered := h.prepared.rendered
  job := h.completed
  uid := h.uid
  outputPrefix := h.outputPrefix
  artifacts := hartifacts ▸ List.reverse_perm _

/-- The stored listing has distinct keys. -/
theorem Inspection.Evidences.nodup {i : Inspection} {x : External} {w : World} {row : Run}
    (h : i.Evidences x w row) : (i.listing.map Artifact.objectKey).Nodup := by
  have hrows : (w.tables.artifactsOf row.id).map key |>.Nodup :=
    w.tables.artifacts.nodup.sublist (List.filter_sublist.map key)
  have hlisting := (h.artifacts.map key).nodup_iff.mp hrows
  rw [List.map_map] at hlisting
  have hkeys : (i.listing.map Artifact.objectKey).map (fun objectKey => (row.id, objectKey)) =
      i.listing.map (key ∘ artifactRow row.id) := by rw [List.map_map]; rfl
  exact List.Nodup.of_map _ (hkeys ▸ hlisting)

section Runs
variable {x : External} {c : Config Pid World Proc}

theorem Reached.verified (h : Reached x c) : Verified x c.shared :=
  ((evidence_established x).holds c h).1.1

/-- Success is never reported without evidence. A succeeded run was inspected in one reconcile call that
held its lock: the definition still had the run's fingerprint, the Job with the run's uid contained the
rendered contract and was complete, and the listing, which is what is stored, has every required file
and an output. A run that failed for its outputs was inspected likewise, and the stored listing is one
that breaks the condition. -/
theorem outcome_has_evidence (h : Reached x c) {row : Run} (hrow : row ∈ c.shared.tables.runs.rows) :
    (row.status = .succeeded → ∃ i : Inspection, i.Evidences x c.shared row ∧ ∃ required,
      i.Requires required ∧ (∀ path ∈ required, i.HasFile path) ∧ i.HasOutput) ∧
    (row.failureCode = some "required_outputs_missing" → ∃ i : Inspection, i.Evidences x c.shared row ∧
      ∃ required, i.Requires required ∧ ∃ path ∈ required, ¬ i.HasFile path) ∧
    (row.failureCode = some "outputs_empty" → ∃ i : Inspection, i.Evidences x c.shared row ∧
      ¬ i.HasOutput) := by
  have hfind := Table.find?_of_mem hrow
  have hwf := h.consistent.wellFormed row.id row hfind
  have hinspected (hj : row.Judged) : ∃ i : Inspection, i.Evidences x c.shared row ∧
      collect i.work i.outputPrefix i.listing = verdict row.failureCode i.listing := by
    obtain ⟨i, hlogged, hs, ha⟩ := h.verified row.id row hfind hj
    exact ⟨i, hs.evidences hlogged ha, hs.verdict⟩
  have hterminal {code : String} (hcode : row.failureCode = some code) : row.status.terminal = true := by
    cases hs : row.status with
    | queued => exact absurd (hcode.symm.trans (hwf.queued hs).2.2.1) nofun
    | running => exact absurd (hcode.symm.trans (hwf.running hs).2.2.2.2.1) nofun
    | succeeded | failed => rfl
  refine ⟨fun hstatus => ?_, fun hcode => ?_, fun hcode => ?_⟩
  · have hnone : row.failureCode = none := (hwf.succeeded hstatus).2.2.2.2.2
    obtain ⟨i, hi, hcollect⟩ := hinspected ⟨by rw [hstatus]; rfl, by rw [hnone]; decide⟩
    rw [hnone] at hcollect
    obtain ⟨required, hrequired, hpresent, houtput⟩ := collect_found hcollect
    exact ⟨i, hi, required, hrequired, hpresent, houtput⟩
  · obtain ⟨i, hi, hcollect⟩ := hinspected ⟨hterminal hcode, by rw [hcode]; decide⟩
    rw [hcode] at hcollect
    obtain ⟨required, hrequired, path, hpath, hmissing⟩ := collect_missing hcollect hi.nodup
    exact ⟨i, hi, required, hrequired, path, hpath, hmissing⟩
  · obtain ⟨i, hi, hcollect⟩ := hinspected ⟨hterminal hcode, by rw [hcode]; decide⟩
    rw [hcode] at hcollect
    exact ⟨i, hi, collect_empty hcollect⟩

theorem outcome_has_evidence_demo : ∃ c r, Demo.row c = some r ∧ r.status = .succeeded ∧
    ∃ i : Inspection, i.Evidences Demo.external c.shared r ∧ i.HasOutput := by
  obtain ⟨c, r, hc, hr, hs, -⟩ := Demo.finished
  obtain ⟨i, hi, required, -, -, houtput⟩ :=
    (outcome_has_evidence (Demo.reached hc) (Table.mem_of_find? hr)).1 hs
  exact ⟨c, r, hr, hs, i, hi, houtput⟩

end Runs
end Mic3

import Mic3.Compatibility

/-! What each program knows of the configuration of the run or the release it holds, and that its commits
keep accepted work configured. -/
namespace Mic3
open Relational Interleaving

/-- The run refers to this release. -/
def Tables.Refers (t : Tables) (runId releaseId : UUID) : Prop :=
  ∃ row, t.runs.find? runId = some row ∧ row.modelReleaseId = releaseId

/-- The run is running, with the computation of `row`. -/
def Tables.RunsAs (t : Tables) (runId : UUID) (row : Run) : Prop :=
  ∃ row', t.runs.find? runId = some row' ∧ row'.status = .running ∧ row'.SameWork row

def Catalog.ModelReady (t : Tables) (model : ModelRow) (inserted : Bool) : Prop :=
  inserted = false → (t.models.find? model.id).isSome

/-- The edit keeps the computation of every ongoing run of the release. -/
def Tables.KeptBy (t : Tables) (loaded : ModelReleaseRow) (document : Json) : Prop :=
  ∀ id row invocation, t.runs.find? id = some row → row.Ongoing → row.modelReleaseId = loaded.id →
    loaded.Runs row invocation → (loaded.edited document).Runs row invocation

def Catalog.Configures (modelId : String) (t : Tables) : Pc → Prop
  | .insertModel | .lockModel _ => True
  | .selectReleases model inserted | .lockReleases model inserted _ _ | .insertRelease model inserted
  | .activeModes model inserted _ => model.id = modelId ∧ ModelReady t model inserted
  | .commit r => match r.release with
    | .create row => row.modelId = r.model.id ∧ ModelReady t r.model r.inserted
    | .edit loaded document => t.KeptBy loaded document

def AcceptRun.Configures (t : Tables) (runId : UUID) : Pc → Prop
  | .readRelease => True
  | .lockRelease releaseId => t.Refers runId releaseId
  | .lockRun release => t.Refers runId release.id
  | .loadRelease release row => row.modelReleaseId = release.id
  | .commit release u _ entries => entries = [] ∧ u = .clean u.loaded ∨
      u.loaded.status = .queued ∧ (entries = [] ∧ u.row.acceptedAt = none ∨
        ∃ invocation, u.loaded.acceptedAt = none ∧ u.row.acceptedAt.isSome ∧
          u.loaded.modelReleaseId = release.id ∧ release.Runs u.loaded invocation ∧
          entries = [.accepted u.loaded.id invocation])

/-- A claim that found a run starts it: it never finds the definition changed. -/
def ClaimNext.Configures (t : Tables) : Pc → Prop
  | .lockRelease runId releaseId => t.Refers runId releaseId
  | .lockRun runId release => t.Refers runId release.id
  | .loadRelease release row => row.modelReleaseId = release.id
  | .commit (some u) _ => u.loaded.status = .queued ∧ u.loaded.acceptedAt.isSome ∧ u.row.status = .running
  | _ => True

/-- A reconcile call never finds the definition changed. -/
def Reconcile.Configures (t : Tables) (runId : UUID) : Pc → Prop
  | .loadRelease row => t.RunsAs runId row
  | .loadModel row release => ∃ invocation, release.Runs row invocation
  | .observe work _ => matchesFingerprint work.release work.parameters work.fingerprint = .ok true
  | .lockUid _ observation | .saveUid _ observation _ => observation.failureCode ≠ some definitionChanged
  | .lockFinish _ failureCode _ => failureCode ≠ some definitionChanged
  | .finish _ u => u.loaded.id = runId ∧ (u.row.Ongoing → u.loaded.Ongoing)
  | _ => True

def Consumer.Configures (t : Tables) : Pc → Prop
  | .accept _ runId pc => AcceptRun.Configures t runId pc
  | _ => True

def Proc.Configures (t : Tables) : Proc → Prop
  | .register definition pc => Catalog.Configures definition.1.modelId t pc
  | .accept runId pc => AcceptRun.Configures t runId pc
  | .claim _ pc => ClaimNext.Configures t pc
  | .reconcile _ runId pc => Reconcile.Configures t runId pc
  | .consume _ pc => Consumer.Configures t pc
  | _ => True

theorem claimCandidate_some {t : Tables} {row : Run} (h : t.claimCandidate = some row) :
    t.runs.find? row.id = some row := by
  have hmem : row ∈ t.runs.rows := by
    have h := List.mem_of_mem_head? h
    exact (List.mem_filter.mp ((List.mem_insertionSort _).mp h)).1
  exact Table.find?_of_mem hmem

section Programs
variable {p : Pid} {w w' : World} {i : Input} {e : Effect}

theorem silent_nil : Silent [] := fun _ _ => List.not_mem_nil

theorem Catalog.configures_step {definition : Registrable} {pc : Catalog.Pc}
    {r : Progress Catalog.Pc ModelRelease} (hs : step definition.1 w i pc = (e, r))
    (hk : Catalog.Configures definition.1.modelId w.tables pc)
    (hv : ∀ h ∈ holds definition.1.modelId pc, h.Valid p w)
    (ha : w.apply p e = some w') :
    e.Configures p w ∧ r.All (Catalog.Configures definition.1.modelId w'.tables) := by
  have hsame (hc : e.commits = false) : w'.tables = w.tables := tables_apply hc ha
  rcases step_cases hs with ⟨rfl, err, rfl⟩ | hc
  · exact ⟨trivial, trivial⟩
  cases pc with
  | insertModel => rcases hc with ⟨-, rfl, rfl⟩ | ⟨-, rfl, rfl⟩ <;> exact ⟨trivial, trivial⟩
  | lockModel inserted =>
    obtain ⟨model, hmodel, rfl, rfl⟩ := hc
    refine ⟨trivial, hsame rfl ▸ ?_⟩
    cases inserted with
    | true =>
      obtain rfl := Option.some.inj hmodel
      exact ⟨rfl, (fun he => by cases he)⟩
    | false =>
      have hfind : w.tables.models.find? definition.1.modelId = some model := hmodel
      have hid : model.id = definition.1.modelId := Table.key_of_find? hfind
      exact ⟨hid, fun _ => by simp [hid, hfind]⟩
  | selectReleases model inserted =>
    obtain ⟨rfl, rfl⟩ := hc
    exact ⟨trivial, hsame rfl ▸ hk⟩
  | lockReleases model inserted remaining found =>
    rcases hc with ⟨id, ids, rfl, rfl, rfl⟩ | ⟨-, rfl, rfl, rfl⟩ | ⟨-, release, others, rfl, rfl, rfl⟩ <;>
      exact ⟨trivial, hsame rfl ▸ hk⟩
  | insertRelease model inserted =>
    obtain ⟨-, row, rfl, rfl, rfl⟩ := hc
    exact ⟨trivial, hsame rfl ▸ ⟨hk.1.symm, hk.2⟩⟩
  | activeModes model inserted release =>
    obtain ⟨hedit, rfl, rfl⟩ := hc
    obtain ⟨config, hconfig⟩ := definition.2
    refine ⟨trivial, hsame rfl ▸ fun id row invocation hrow ho hid hruns => ?_⟩
    exact ensureEditable_keeps hedit (RegisterRelease.definition_read hconfig) (Table.mem_of_find? hrow)
      ho hid hruns
  | commit registration =>
    obtain ⟨rfl, release, rfl⟩ := hc
    refine ⟨⟨silent_nil, ?_⟩, trivial⟩
    cases hr : registration.release with
    | create row => simpa only [Configures, hr, ModelReady] using hk
    | edit loaded document =>
      have hheld : (Hold.release loaded).Valid p w := hv _ (by simp [holds, hr])
      exact ⟨hheld.2, by simpa only [Configures, hr, Tables.KeptBy] using hk⟩

theorem AcceptRun.configures_step {runId : UUID} {pc : AcceptRun.Pc} {r : Progress AcceptRun.Pc String}
    (hs : step runId w i pc = (e, r)) (hk : AcceptRun.Configures w.tables runId pc)
    (hknows : AcceptRun.Knows pc) (hv : ∀ h ∈ holds pc, h.Valid p w) (ha : w.apply p e = some w') :
    e.Configures p w ∧ r.All (AcceptRun.Configures w'.tables runId) := by
  have hsame (hc : e.commits = false) : w'.tables = w.tables := tables_apply hc ha
  rcases step_cases hs with ⟨rfl, err, rfl⟩ | hc
  · exact ⟨trivial, trivial⟩
  cases pc with
  | readRelease =>
    obtain ⟨row, hrow, rfl, rfl⟩ := hc
    exact ⟨trivial, hsame rfl ▸ ⟨row, hrow, rfl⟩⟩
  | lockRelease releaseId =>
    obtain ⟨release, hrelease, rfl, rfl⟩ := hc
    obtain rfl : release.id = releaseId := Table.key_of_find? hrelease
    exact ⟨trivial, hsame rfl ▸ hk⟩
  | lockRun release =>
    obtain ⟨row, hrow, rfl, ⟨-, rfl⟩ | ⟨-, -, rfl⟩⟩ := hc
    · exact ⟨trivial, .inl ⟨rfl, rfl⟩⟩
    · obtain ⟨row', hrow', hid⟩ := hk
      obtain rfl := Option.some.inj (hrow.symm.trans hrow')
      exact ⟨trivial, hid⟩
  | loadRelease release row =>
    obtain ⟨pc', hd, rfl, rfl⟩ := hc
    obtain ⟨hq, hnone⟩ := hknows
    obtain ⟨definition, hload, ⟨invocation, hmatches, hselected, rfl⟩ | ⟨-, rfl⟩⟩ := decide_ok hd
    · refine ⟨trivial, .inr ⟨by simpa using hq, .inr ⟨invocation, ?_⟩⟩⟩
      simp only [saveOutcome_loaded, UnitOfWork.clean_loaded]
      exact ⟨hnone, rfl, hk, .of_load hload hmatches hselected, trivial⟩
    · exact ⟨trivial, .inr ⟨by simpa using hq, .inl ⟨rfl, hnone⟩⟩⟩
  | commit release u outcome entries =>
    obtain ⟨rfl, rfl⟩ := hc
    have hheld : (Hold.release release).Valid p w := hv _ (by simp [holds])
    refine ⟨?_, trivial⟩
    rcases hk with ⟨rfl, hclean⟩ | ⟨hq, ⟨rfl, hnone⟩ | ⟨invocation, hnone, hsome, hid, hruns, rfl⟩⟩
    · have hrow : u.row = u.loaded := congrArg UnitOfWork.row hclean
      exact ⟨fun hrun => .inl (hrow ▸ hrun), .inl ⟨silent_nil, fun ho => hrow ▸ ho⟩⟩
    · refine ⟨fun hrun => (by cases (hq.symm.trans hrun)), .inl ⟨silent_nil, fun ho => ?_⟩⟩
      have hsome := ho.accepted
      simp [hnone] at hsome
    · refine ⟨fun hrun => (by cases (hq.symm.trans hrun)), .inr ⟨release, invocation, ?_⟩⟩
      exact ⟨hheld, hnone, hsome, hid, hruns, fun id other => by simp⟩

theorem ClaimNext.configures_step {worker : Worker} {pc : ClaimNext.Pc}
    {r : Progress ClaimNext.Pc (Option UUID)} (hs : step worker w i pc = (e, r))
    (hk : ClaimNext.Configures w.tables pc) (hknows : ClaimNext.Knows pc)
    (hv : ∀ h ∈ holds pc, h.Valid p w) (hinv : Configured w) (ha : w.apply p e = some w') :
    e.Configures p w ∧ r.All (ClaimNext.Configures w'.tables) := by
  have hsame (hc : e.commits = false) : w'.tables = w.tables := tables_apply hc ha
  rcases step_cases hs with ⟨rfl, err, rfl⟩ | hc
  · exact ⟨trivial, trivial⟩
  cases pc with
  | lockCapacity =>
    obtain ⟨rfl, rfl⟩ := hc
    exact ⟨trivial, trivial⟩
  | count =>
    obtain ⟨rfl, rfl | ⟨-, rfl⟩⟩ := hc <;> exact ⟨trivial, trivial⟩
  | candidate =>
    obtain ⟨rfl, rfl | ⟨run, hrun, rfl⟩⟩ := hc
    · exact ⟨trivial, trivial⟩
    · exact ⟨trivial, hsame rfl ▸ ⟨run, claimCandidate_some hrun, rfl⟩⟩
  | lockRelease runId releaseId =>
    obtain ⟨release, hrelease, rfl, rfl⟩ := hc
    obtain rfl : release.id = releaseId := Table.key_of_find? hrelease
    exact ⟨trivial, hsame rfl ▸ hk⟩
  | lockRun runId release =>
    obtain ⟨row, hrow, rfl, rfl | ⟨-, -, rfl⟩⟩ := hc
    · exact ⟨trivial, trivial⟩
    · obtain ⟨row', hrow', hid⟩ := hk
      obtain rfl := Option.some.inj (hrow.symm.trans hrow')
      exact ⟨trivial, hid⟩
  | loadRelease release row =>
    obtain ⟨pc', hd, rfl, rfl⟩ := hc
    obtain ⟨hq, hsome⟩ := hknows
    have hrelease : (Hold.release release).Valid p w := hv _ (by simp [holds])
    have hrow : (Hold.run row).Valid p w := hv _ (by simp [holds])
    have hongoing : row.Ongoing := ⟨Option.isSome_iff_ne_none.mpr hsome, by simp [hq, RunStatus.active]⟩
    obtain ⟨found, invocation, hfound, hruns, -⟩ := hinv.ongoing _ _ hrow.2 hongoing
    have hid : row.modelReleaseId = release.id := hk
    obtain rfl : release = found := Option.some.inj (hrelease.2.symm.trans (hid ▸ hfound))
    refine ⟨trivial, ?_⟩
    obtain ⟨definition, hload, ⟨-, rfl⟩ | ⟨hchanged, -⟩⟩ := decide_ok hd
    · exact ⟨hq, Option.isSome_iff_ne_none.mpr hsome, rfl⟩
    · cases (hchanged.symm.trans (hruns.matches hload))
  | commit u started =>
    obtain ⟨rfl, rfl⟩ := hc
    refine ⟨?_, trivial⟩
    cases u with
    | none => exact silent_nil
    | some u =>
      obtain ⟨hq, hsome, -⟩ := hk
      refine ⟨fun hrun => (by cases (hq.symm.trans hrun)), .inl ⟨silent_nil, fun _ => ⟨hsome, ?_⟩⟩⟩
      simp [hq, RunStatus.active]

theorem finishRow_ongoing {row : Run} {failureCode : Option String} {artifacts : List Artifact}
    {d : Defaults} (h : (finishRow (.clean row) failureCode artifacts d).row.Ongoing) : row.Ongoing := by
  unfold finishRow at h
  split at h
  · exact h
  · have hactive := h.active
    cases hcode : truthy failureCode <;> simp [hcode, RunStatus.active] at hactive

theorem Reconcile.configures_inspect {t : Tables} {runId : UUID} (call : Call) (holder : Option Pid)
    (job : JobObject) : Reconcile.Configures t runId (inspect call holder job) := by
  rcases inspect_cases call holder job with ⟨err, h⟩ | h | ⟨-, ⟨-, h⟩ | ⟨-, h⟩⟩ <;> rw [h]
  · trivial
  · exact fun he => absurd (Option.some.inj he) (by decide)
  · trivial
  · nofun

theorem Reconcile.configures_conclude {t : Tables} {runId : UUID} (call : Call)
    {observation : JobObservation} (h : observation.failureCode ≠ some definitionChanged) :
    Reconcile.Configures t runId (conclude call observation) := by
  unfold conclude
  split
  · split
    · exact h
    · exact fun he => absurd (Option.some.inj he) (by decide)
  · trivial
  · trivial

theorem Reconcile.configures_step {helm : Helm} {worker : Worker} {runId : UUID} {pc : Reconcile.Pc}
    {r : Progress Reconcile.Pc Unit} (hs : step helm worker runId p w i pc = (e, r))
    (hk : Reconcile.Configures w.tables runId pc)
    (hkey : pc ≠ .acquire → w.pg.sessionLocks (runKey runId) = some p) (hinv : Configured w)
    (hcons : w.tables.Consistent) (ha : w.apply p e = some w') :
    e.Configures p w ∧ r.All (Reconcile.Configures w'.tables runId) := by
  have hsame (hc : e.commits = false) : w'.tables = w.tables := tables_apply hc ha
  rcases step_cases hs with ⟨-, rfl | rfl, err, rfl⟩ | hc
  · exact ⟨trivial, trivial⟩
  · exact ⟨trivial, trivial⟩
  cases pc with
  | acquire => rcases hc with ⟨rfl, rfl⟩ | ⟨rfl, rfl⟩ <;> exact ⟨trivial, trivial⟩
  | loadRun =>
    obtain ⟨rfl, row, hrow, hrun, rfl⟩ := hc
    exact ⟨trivial, hsame rfl ▸ ⟨row, hrow, hrun, .refl _⟩⟩
  | loadRelease row =>
    obtain ⟨rfl, release, hrelease, rfl⟩ := hc
    obtain ⟨row', hrow', hrun, hwork⟩ := hk
    have haccepted := ((hcons.wellFormed _ _ hrow').running hrun).1
    obtain ⟨found, invocation, hfound, hruns, -⟩ :=
      hinv.ongoing _ _ hrow' ⟨haccepted, by simp [hrun, RunStatus.active]⟩
    rw [← hwork.modelReleaseId] at hfound
    obtain rfl := Option.some.inj (hrelease.symm.trans hfound)
    exact ⟨trivial, invocation, hruns.congr hwork.parameters hwork.fingerprint⟩
  | loadModel row release =>
    obtain ⟨rfl, definition, hload, rfl⟩ := hc
    obtain ⟨invocation, hruns⟩ := hk
    exact ⟨trivial, hruns.matches hload⟩
  | observe work seen =>
    obtain ⟨rfl, ⟨hchanged, -⟩ | ⟨expected, -, -, -, rfl⟩⟩ := hc
    · cases (hchanged.symm.trans hk)
    · exact ⟨trivial, trivial⟩
  | lookup call =>
    obtain ⟨rfl, ⟨job, -, rfl⟩ | ⟨-, ⟨-, rfl⟩ | ⟨-, rfl⟩⟩⟩ := hc
    · exact ⟨trivial, configures_inspect ..⟩
    · exact ⟨trivial, fun he => absurd (Option.some.inj he) (by decide)⟩
    · exact ⟨trivial, trivial⟩
  | create call =>
    obtain ⟨rfl | ⟨job, rfl⟩, rfl⟩ | ⟨job, rfl, rfl⟩ := hc
    · exact ⟨trivial, trivial⟩
    · exact ⟨trivial, trivial⟩
    · exact ⟨trivial, configures_inspect ..⟩
  | confirm call =>
    obtain ⟨rfl, job, -, rfl⟩ := hc
    exact ⟨trivial, configures_inspect ..⟩
  | readPods call job =>
    obtain ⟨rfl, rfl⟩ := hc
    exact ⟨trivial, fun he => absurd (failureReason_mem job.uid i.pods) (Option.some.inj he ▸ by decide)⟩
  | lockUid call observation =>
    obtain ⟨row, -, rfl, rfl⟩ := hc
    exact ⟨trivial, hk⟩
  | saveUid call observation row =>
    rcases hc with ⟨rfl, rfl⟩ | ⟨hu, rfl, rfl⟩
    · exact ⟨trivial, fun he => absurd (Option.some.inj he) (by decide)⟩
    · refine ⟨?_, configures_conclude call hk⟩
      have hstatus : (savedUid row observation.uid).row.status = row.status ∧
          (savedUid row observation.uid).row.acceptedAt = row.acceptedAt := by
        unfold savedUid
        split <;> exact ⟨rfl, rfl⟩
      simp only [Effect.Configures, savedUid_loaded]
      exact ⟨fun hrun => .inl (hstatus.1.trans hrun),
        .inl ⟨silent_nil, fun ho => ⟨hstatus.2 ▸ ho.accepted, hstatus.1 ▸ ho.active⟩⟩⟩
  | listOutputs call =>
    obtain ⟨rfl, outputPrefix, -, ⟨artifacts, -, rfl⟩ | ⟨code, artifacts, hcollect, rfl⟩⟩ := hc
    · exact ⟨trivial, (fun he => by cases he)⟩
    · refine ⟨trivial, fun he => ?_⟩
      obtain rfl := Option.some.inj he
      obtain ⟨-, h | h⟩ := collect_failure hcollect <;> simp [definitionChanged] at h
  | lockFinish seen failureCode artifacts =>
    obtain ⟨row, hrow, rfl, rfl⟩ := hc
    refine ⟨trivial, ?_, fun ho => ?_⟩
    · rw [finishRow_loaded]
      exact Table.key_of_find? hrow
    · rw [finishRow_loaded]
      exact finishRow_ongoing ho
  | finish seen u =>
    obtain ⟨rfl, rfl⟩ := hc
    obtain ⟨hid, hkeep⟩ := hk
    refine ⟨⟨fun _ => .inr (hid ▸ hkey (fun he => by cases he)), .inl ⟨fun id invocation => ?_, hkeep⟩⟩, trivial⟩
    split <;> simp
  | unwind err => exact hc.elim
  | exit error => obtain ⟨rfl, rfl | ⟨err, rfl⟩⟩ := hc <;> exact ⟨trivial, trivial⟩

theorem silent_handled {entries : List Entry} {location : RecordLocation} {outcome : String}
    (h : Silent entries) : Silent (.handled location outcome :: entries) := fun id invocation hm => by
  simpa using (h id invocation) (by simpa using hm)

theorem configures_noting {location : RecordLocation} {outcome : String} (h : e.Configures p w) :
    (Consumer.noting location outcome e).Configures p w := by
  cases e with
  | commit change entries =>
    cases change with
    | submit row event => exact ⟨h.1, silent_handled h.2⟩
    | outcome u =>
      refine ⟨h.1, ?_⟩
      rcases h.2 with ⟨hsilent, hkeep⟩ | ⟨release, invocation, hheld, hnone, hsome, hid, hruns, hentries⟩
      · exact .inl ⟨silent_handled hsilent, hkeep⟩
      · exact .inr ⟨release, invocation, hheld, hnone, hsome, hid, hruns, by simpa using hentries⟩
    | register r => exact ⟨silent_handled h.1, h.2⟩
    | nothing | publish | reject => exact silent_handled h
  | _ => exact h

theorem Consumer.configures_step {d : Decoders} {topic : String} {pc : Consumer.Pc}
    {r : Progress Consumer.Pc Unit} (hs : step d topic p w i pc = (e, r))
    (hk : Consumer.Configures w.tables pc) (hknows : Consumer.Knows pc)
    (hv : ∀ h ∈ holds pc, h.Valid p w) (ha : w.apply p e = some w') :
    e.Configures p w ∧ r.All (Consumer.Configures w'.tables) := by
  have hc := step_cases hs
  cases pc with
  | poll =>
    rcases hc with ⟨rfl, rfl | rfl⟩ | ⟨tp, ⟨-, rfl, rfl⟩ | ⟨record, -, -, rfl, rfl⟩⟩ <;>
      exact ⟨trivial, trivial⟩
  | decode location message =>
    obtain ⟨rfl, ⟨runId, -, rfl⟩ | ⟨rejection, -, rfl⟩⟩ := hc <;> exact ⟨trivial, trivial⟩
  | accept location runId pc =>
    obtain ⟨e₀, r₀, hs₀, hr⟩ := hc
    obtain ⟨w₀, ha₀, hpg⟩ : ∃ w₀, w.apply p e₀ = some w₀ ∧ w₀.pg = w'.pg := by
      rcases hr with ⟨_, _, rfl, _⟩ | ⟨_, _, rfl, _⟩ | ⟨_, _, rfl, _⟩ | ⟨_, _, rfl, _⟩
      · exact ⟨w', ha, rfl⟩
      · obtain ⟨w₀, ha₀, hpg, -⟩ := apply_noting ha
        exact ⟨w₀, ha₀, hpg⟩
      · exact ⟨w', ha, rfl⟩
      · exact ⟨w', ha, rfl⟩
    have htables : w₀.tables = w'.tables := congrArg Postgres.tables hpg
    obtain ⟨hconf, hnext⟩ := AcceptRun.configures_step hs₀ hk hknows hv ha₀
    rcases hr with ⟨pc', rfl, rfl, rfl⟩ | ⟨outcome, rfl, rfl, rfl⟩ | ⟨message, rfl, rfl, rfl⟩ |
      ⟨err, rfl, rfl, rfl⟩
    · exact ⟨hconf, htables ▸ hnext⟩
    · exact ⟨configures_noting hconf, trivial⟩
    · exact ⟨hconf, trivial⟩
    · exact ⟨hconf, trivial⟩
  | reject location rejection pc =>
    obtain ⟨e₀, r₀, hs₀, hr⟩ := hc
    have hc₀ := record_cases hs₀
    have hconf : e₀.Configures p w := by
      cases pc with
      | insert => rcases hc₀ with ⟨-, rfl, -⟩ | ⟨-, rfl, -⟩ <;> trivial
      | commit message =>
        obtain ⟨rfl, -⟩ := hc₀
        cases message <;> exact silent_nil
    rcases hr with ⟨pc', rfl, rfl, rfl⟩ | ⟨-, rfl, rfl⟩
    · exact ⟨hconf, trivial⟩
    · exact ⟨configures_noting hconf, trivial⟩
  | commit location outcome =>
    rcases hc with ⟨rfl, rfl⟩ | ⟨rfl, rfl⟩ <;> exact ⟨trivial, trivial⟩
  | close =>
    obtain ⟨rfl, rfl⟩ := hc
    exact ⟨trivial, trivial⟩

end Programs
end Mic3

import Mathlib.Data.List.Dedup
import Mic3.Documents
import Mic3.Registration

/-! The computation that a release describes for a run, and which edits of the release leave it alone. -/
namespace Mic3
open Relational

section Selection
variable {d d' : ReleaseDefinition} {parameters : Json} {invocation : Invocation}

/-- The mode of the parameters selects an invocation of the release. -/
theorem selectedInvocation_ok : selectedInvocation d parameters = .ok invocation ↔
    ∃ mode, parameters.get? "mode" = some (.str mode) ∧
      d.executionDefinition.mode? mode = some invocation := by
  unfold selectedInvocation
  cases hp : parameters.get? "mode" with
  | none => exact ⟨nofun, nofun⟩
  | some value =>
    have hget : (Json.obj [("mode", value)]).get? "mode" = some value := rfl
    have hkeys : ¬ [("mode", value)].map (·.1) ≠ ["mode"] := not_not.mpr rfl
    constructor
    · intro h
      obtain ⟨mode, hmode, h⟩ := bind_eq_ok.mp h
      simp only [ExecutionDefinition.prepareMode, if_neg hkeys, hget] at hmode
      split at hmode
      · rename_i text htext
        obtain rfl := Option.some.inj htext
        split at hmode
        · obtain rfl := Except.ok.inj hmode
          split at h
          · rename_i found hfound
            obtain rfl := Except.ok.inj h
            exact ⟨text, rfl, hfound⟩
          · contradiction
        · contradiction
      · contradiction
    · rintro ⟨mode, hmode, hfound⟩
      obtain rfl := Option.some.inj hmode
      refine bind_eq_ok.mpr ⟨mode, ?_, ?_⟩
      · simp only [ExecutionDefinition.prepareMode, if_neg hkeys, hget, hfound, Option.isSome_some,
          if_true]
        rfl
      · simp only [hfound]
        rfl

/-- The fingerprint sees the selected invocation, the model and the image, and nothing else. -/
theorem fingerprint_congr (h : selectedInvocation d parameters = .ok invocation)
    (h' : selectedInvocation d' parameters = .ok invocation) (hmodel : d.modelId = d'.modelId)
    (himage : d.imageDigest = d'.imageDigest) : fingerprint d parameters = fingerprint d' parameters := by
  simp only [fingerprint, fingerprintPayload, h, h', hmodel, himage]

theorem matchesFingerprint_true {text : String} :
    matchesFingerprint d parameters text = .ok true ↔ fingerprint d parameters = .ok text := by
  unfold matchesFingerprint
  split
  · rename_i found hfound
    simp [hfound]
  · rename_i hfound
    simp [hfound]
  · rename_i e _ hfound
    simp [hfound]

theorem selectedInvocation_of_matches {text : String}
    (h : matchesFingerprint d parameters text = .ok true) :
    ∃ invocation, selectedInvocation d parameters = .ok invocation := by
  obtain ⟨payload, hpayload, -⟩ := bind_eq_ok.mp (matchesFingerprint_true.mp h)
  obtain ⟨invocation, hinvocation, -⟩ := bind_eq_ok.mp hpayload
  exact ⟨invocation, hinvocation⟩

end Selection

/-- The release as a definition, whatever its model is called. -/
def ModelReleaseRow.definition (release : ModelReleaseRow) (displayName : String)
    (execution : ExecutionDefinition) : ReleaseDefinition :=
  ⟨release.modelId, displayName, release.imageDigest, execution⟩

/-- The release describes the computation of the run, by this invocation. -/
def ModelReleaseRow.Runs (release : ModelReleaseRow) (row : Run) (invocation : Invocation) : Prop :=
  ∃ execution, ExecutionDefinition.fromDict release.executionDefinition = .ok execution ∧
    ∀ displayName,
      matchesFingerprint (release.definition displayName execution) row.parameters row.fingerprint =
        .ok true ∧
      selectedInvocation (release.definition displayName execution) row.parameters = .ok invocation

section Releases
variable {t : Tables} {release : ModelReleaseRow} {row row' : Run} {invocation : Invocation}
  {d : ReleaseDefinition}

theorem loadReleaseDefinition_ok (h : loadReleaseDefinition t release = .ok d) :
    ∃ displayName execution, ExecutionDefinition.fromDict release.executionDefinition = .ok execution ∧
      d = release.definition displayName execution := by
  unfold loadReleaseDefinition at h
  split at h
  · contradiction
  · rename_i model hmodel
    obtain ⟨execution, hexecution, h⟩ := bind_eq_ok.mp h
    obtain rfl := Except.ok.inj h
    have hid : model.id = release.modelId := Table.key_of_find? hmodel
    exact ⟨model.displayName, execution, hexecution, by rw [ModelReleaseRow.definition, hid]⟩

/-- A definition that was loaded and found to match is the release's computation of the run. -/
theorem ModelReleaseRow.Runs.of_load (h : loadReleaseDefinition t release = .ok d)
    (hmatches : matchesFingerprint d row.parameters row.fingerprint = .ok true)
    (hselected : selectedInvocation d row.parameters = .ok invocation) :
    release.Runs row invocation := by
  obtain ⟨displayName, execution, hexecution, rfl⟩ := loadReleaseDefinition_ok h
  exact ⟨execution, hexecution, fun _ => ⟨hmatches, hselected⟩⟩

theorem ModelReleaseRow.Runs.load (h : release.Runs row invocation)
    (hmodel : (t.models.find? release.modelId).isSome) : ∃ d, loadReleaseDefinition t release = .ok d ∧
      matchesFingerprint d row.parameters row.fingerprint = .ok true ∧
      selectedInvocation d row.parameters = .ok invocation := by
  obtain ⟨execution, hexecution, hall⟩ := h
  obtain ⟨model, hmodel⟩ := Option.isSome_iff_exists.mp hmodel
  have hid : model.id = release.modelId := Table.key_of_find? hmodel
  refine ⟨release.definition model.displayName execution, ?_, hall _⟩
  simp only [loadReleaseDefinition, hmodel, hexecution, hid]
  rfl

/-- Whatever a load of the release yields matches the run. -/
theorem ModelReleaseRow.Runs.matches (h : release.Runs row invocation)
    (hd : loadReleaseDefinition t release = .ok d) :
    matchesFingerprint d row.parameters row.fingerprint = .ok true := by
  obtain ⟨execution, hexecution, hall⟩ := h
  obtain ⟨displayName, execution', hexecution', rfl⟩ := loadReleaseDefinition_ok hd
  obtain rfl := Except.ok.inj (hexecution'.symm.trans hexecution)
  exact (hall displayName).1

theorem ModelReleaseRow.Runs.congr (h : release.Runs row invocation)
    (hparameters : row'.parameters = row.parameters) (hfingerprint : row'.fingerprint = row.fingerprint) :
    release.Runs row' invocation := by
  obtain ⟨execution, hexecution, hall⟩ := h
  exact ⟨execution, hexecution, fun displayName => by
    rw [hparameters, hfingerprint]
    exact hall displayName⟩

theorem ModelReleaseRow.Runs.mode (h : release.Runs row invocation) :
    ∃ mode execution, row.parameters.get? "mode" = some (.str mode) ∧
      ExecutionDefinition.fromDict release.executionDefinition = .ok execution ∧
      execution.mode? mode = some invocation := by
  obtain ⟨execution, hexecution, hall⟩ := h
  obtain ⟨mode, hmode, hfound⟩ := selectedInvocation_ok.mp (hall "").2
  exact ⟨mode, execution, hmode, hexecution, hfound⟩

/-- An edit that keeps the run's mode keeps its computation. -/
theorem ModelReleaseRow.Runs.edited (h : release.Runs row invocation) {document : Json}
    {current proposed : ExecutionDefinition}
    (hcurrent : ExecutionDefinition.fromDict release.executionDefinition = .ok current)
    (hproposed : ExecutionDefinition.fromDict document = .ok proposed)
    (hkeeps : ∀ mode, row.parameters.get? "mode" = some (.str mode) →
      current.mode? mode = proposed.mode? mode) : (release.edited document).Runs row invocation := by
  obtain ⟨execution, hexecution, hall⟩ := h
  obtain rfl := Except.ok.inj (hexecution.symm.trans hcurrent)
  refine ⟨proposed, hproposed, fun displayName => ?_⟩
  obtain ⟨hmatches, hselected⟩ := hall displayName
  obtain ⟨mode, hmode, hfound⟩ := selectedInvocation_ok.mp hselected
  have hselected' :
      selectedInvocation ((release.edited document).definition displayName proposed) row.parameters =
        .ok invocation :=
    selectedInvocation_ok.mpr ⟨mode, hmode, (hkeeps mode hmode).symm.trans hfound⟩
  refine ⟨matchesFingerprint_true.mpr ?_, hselected'⟩
  rw [← matchesFingerprint_true.mp hmatches]
  exact fingerprint_congr hselected' hselected rfl rfl

end Releases

/-- A run that was accepted and has not ended. -/
structure Run.Ongoing (row : Run) : Prop where
  accepted : row.acceptedAt.isSome
  active : row.status.active = true

section Editing
variable {t : Tables} {release : ModelReleaseRow} {row : Run} {definition : ReleaseDefinition}

theorem mem_activeModes {releaseId : UUID} {mode : String} (hrow : row ∈ t.runs.rows)
    (hongoing : row.Ongoing) (hrelease : row.modelReleaseId = releaseId)
    (hmode : row.parameters.get? "mode" = some (.str mode)) : mode ∈ t.activeModes releaseId := by
  refine List.mem_dedup.mpr (List.mem_filterMap.mpr ⟨row, List.mem_filter.mpr ⟨hrow, ?_⟩, ?_⟩)
  · simp [hrelease, hongoing.accepted, hongoing.active]
  · simp only [Tables.modeText, hmode]

/-- An edit that the catalog lets through keeps the computation of every ongoing run of the release. -/
theorem ensureEditable_keeps (h : Catalog.ensureEditable t definition release = .ok ())
    (hread : ExecutionDefinition.fromDict definition.executionDefinition.toDict =
      .ok definition.executionDefinition)
    (hrow : row ∈ t.runs.rows) (hongoing : row.Ongoing) (hrelease : row.modelReleaseId = release.id)
    {invocation : Invocation} (hruns : release.Runs row invocation) :
    (release.edited definition.executionDefinition.toDict).Runs row invocation := by
  obtain ⟨current, hcurrent, hmodes⟩ := bind_eq_ok.mp h
  have hunchanged := ensureActiveModesUnchanged_ok.mp hmodes
  exact hruns.edited hcurrent hread fun mode hmode =>
    hunchanged mode (mem_activeModes hrow hongoing hrelease hmode)

end Editing
end Mic3

import Mic3.Submission

/-! `AcceptRun.execute_with_outcome` in its transaction: the release is locked before the run, and the
run is accepted when it still describes the computation of its release. -/
namespace Mic3
open Relational

/-- The application's copy of a run, which `save_outcome` writes back. -/
structure RunForAcceptance where
  status : RunStatus
  acceptedAt : Option Time
  failureCode : Option String

namespace AcceptRun

inductive Pc where
  | readRelease
  | lockRelease (releaseId : UUID)
  | lockRun (release : ModelReleaseRow)
  | loadRelease (release : ModelReleaseRow) (row : Run)
  | commit (release : ModelReleaseRow) (u : UnitOfWork) (outcome : String) (entries : List Entry)

def notFound : Raised := .runNotFound "Run does not exist."

/-- `save_outcome`: the status, then the two columns that the outcome carries. -/
def saveOutcome (u : UnitOfWork) (run : RunForAcceptance) (d : Defaults) : UnitOfWork :=
  let u := if run.status = .failed then finishRow u run.failureCode [] d
    else { u with row := { u.row with status := run.status } }
  { u with row := { u.row with acceptedAt := run.acceptedAt, failureCode := run.failureCode } }

@[simp] theorem saveOutcome_loaded (u : UnitOfWork) (run : RunForAcceptance) (d : Defaults) :
    (saveOutcome u run d).loaded = u.loaded := by
  unfold saveOutcome
  split <;> simp

/-- The outcome for a run nobody accepted yet. -/
def outcome (row : Run) (compatible : Bool) (now : Time) : RunForAcceptance :=
  let run : RunForAcceptance := { row with }
  if compatible then { run with acceptedAt := some now }
  else { run with status := .failed, failureCode := some "execution_definition_changed" }

def decide (t : Tables) (release : ModelReleaseRow) (row : Run) (i : Input) : Except Raised Pc := do
  let definition ← loadReleaseDefinition t release
  let compatible ← matchesFingerprint definition row.parameters row.fingerprint
  let u := saveOutcome (.clean row) (outcome row compatible i.now) i.defaults
  if compatible then
    let invocation ← selectedInvocation definition row.parameters
    return .commit release u "accepted" [.accepted row.id invocation]
  else return .commit release u "failed-run" []

def step (runId : UUID) (w : World) (i : Input) : Pc → Effect × Progress Pc String
  | .readRelease =>
    match w.tables.runs.find? runId with
    | none => (.rollback, .raised notFound)
    | some row => (.read, .running (.lockRelease row.modelReleaseId))
  | .lockRelease releaseId =>
    match w.tables.releases.find? releaseId with
    | none => (.rollback, .raised .attributeError)
    | some release => (.lock (.release releaseId), .running (.lockRun release))
  | .lockRun release =>
    match w.tables.runs.find? runId with
    | none => (.rollback, .raised notFound)
    | some row =>
      if row.acceptedAt.isSome ∨ row.status ≠ .queued then
        (.lock (.run runId), .running (.commit release (.clean row) "unchanged" []))
      else (.lock (.run runId), .running (.loadRelease release row))
  | .loadRelease release row =>
    attempt (decide w.tables release row i) fun pc => (.read, .running pc)
  | .commit _ u outcome entries => (.commit (.outcome u) entries, .returned outcome)

theorem decide_ok {t : Tables} {release : ModelReleaseRow} {row : Run} {i : Input} {pc : Pc}
    (h : decide t release row i = .ok pc) :
    ∃ definition, loadReleaseDefinition t release = .ok definition ∧
      ((∃ invocation, matchesFingerprint definition row.parameters row.fingerprint = .ok true ∧
          selectedInvocation definition row.parameters = .ok invocation ∧
          pc = .commit release (saveOutcome (.clean row) (outcome row true i.now) i.defaults) "accepted"
            [.accepted row.id invocation]) ∨
        matchesFingerprint definition row.parameters row.fingerprint = .ok false ∧
          pc = .commit release (saveOutcome (.clean row) (outcome row false i.now) i.defaults)
            "failed-run" []) := by
  obtain ⟨definition, hd, h⟩ := bind_eq_ok.mp h
  obtain ⟨compatible, hc, h⟩ := bind_eq_ok.mp h
  refine ⟨definition, hd, ?_⟩
  cases compatible with
  | true =>
    obtain ⟨invocation, hi, h⟩ := bind_eq_ok.mp h
    exact .inl ⟨invocation, hc, hi, (Except.ok.inj h).symm⟩
  | false => exact .inr ⟨hc, (Except.ok.inj h).symm⟩

/-- What a statement of an acceptance does, the constructor of its `Pc` given. -/
theorem step_cases {runId : UUID} {w : World} {i : Input} {pc : Pc} {e : Effect}
    {r : Progress Pc String} :
    step runId w i pc = (e, r) →
    (e = .rollback ∧ ∃ err, r = .raised err) ∨ match pc with
    | .readRelease => ∃ row, w.tables.runs.find? runId = some row ∧ e = .read ∧
        r = .running (.lockRelease row.modelReleaseId)
    | .lockRelease releaseId => ∃ release, w.tables.releases.find? releaseId = some release ∧
        e = .lock (.release releaseId) ∧ r = .running (.lockRun release)
    | .lockRun release => ∃ row, w.tables.runs.find? runId = some row ∧ e = .lock (.run runId) ∧
        ((row.acceptedAt.isSome ∨ row.status ≠ .queued) ∧
            r = .running (.commit release (.clean row) "unchanged" []) ∨
          row.acceptedAt = none ∧ row.status = .queued ∧ r = .running (.loadRelease release row))
    | .loadRelease release row => ∃ pc', decide w.tables release row i = .ok pc' ∧ e = .read ∧
        r = .running pc'
    | .commit _ u outcome entries => e = .commit (.outcome u) entries ∧ r = .returned outcome := by
  intro hs
  cases pc with
  | readRelease =>
    simp only [step] at hs
    split at hs <;> obtain ⟨rfl, rfl⟩ := Prod.mk.inj hs
    · exact .inl ⟨rfl, _, rfl⟩
    · exact .inr ⟨_, ‹_›, rfl, rfl⟩
  | lockRelease releaseId =>
    simp only [step] at hs
    split at hs <;> obtain ⟨rfl, rfl⟩ := Prod.mk.inj hs
    · exact .inl ⟨rfl, _, rfl⟩
    · exact .inr ⟨_, ‹_›, rfl, rfl⟩
  | lockRun release =>
    simp only [step] at hs
    split at hs
    · obtain ⟨rfl, rfl⟩ := Prod.mk.inj hs
      exact .inl ⟨rfl, _, rfl⟩
    · rename_i row hrow
      by_cases hclosed : row.acceptedAt.isSome ∨ row.status ≠ .queued
      · obtain ⟨rfl, rfl⟩ := Prod.mk.inj ((if_pos hclosed).symm.trans hs)
        exact .inr ⟨row, hrow, rfl, .inl ⟨hclosed, rfl⟩⟩
      · obtain ⟨rfl, rfl⟩ := Prod.mk.inj ((if_neg hclosed).symm.trans hs)
        simp only [not_or, Option.not_isSome_iff_eq_none, ne_eq, Decidable.not_not] at hclosed
        exact .inr ⟨row, hrow, rfl, .inr ⟨hclosed.1, hclosed.2, rfl⟩⟩
  | loadRelease release row =>
    rcases attempt_eq hs with ⟨rfl, err, -, rfl⟩ | ⟨pc', hd, hs⟩
    · exact .inl ⟨rfl, err, rfl⟩
    · obtain ⟨rfl, rfl⟩ := Prod.mk.inj hs
      exact .inr ⟨pc', hd, rfl, rfl⟩
  | commit release u outcome entries =>
    obtain ⟨rfl, rfl⟩ := Prod.mk.inj hs
    exact .inr ⟨rfl, rfl⟩

end AcceptRun
end Mic3

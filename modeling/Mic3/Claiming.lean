import Mic3.Submission

/-! `ReconcileExecutions.claim_next` in the transaction of `SqlAlchemyExecutions.claim`: the oldest
accepted queued run starts when capacity allows, or fails when its release changed. -/
namespace Mic3
open Relational

/-- What a worker is configured with: its chart, and the namespace and capacity it dispatches to. -/
structure Worker where
  «namespace» : String
  capacity : ℕ
  chart : ℕ

def capacityLock : ℤ := 7523190401

namespace ClaimNext

inductive Pc where
  | lockCapacity
  | count
  | candidate
  | lockRelease (runId releaseId : UUID)
  | lockRun (runId : UUID) (release : ModelReleaseRow)
  | loadRelease (release : ModelReleaseRow) (row : Run)
  | commit (u : Option UnitOfWork) (started : Option UUID)

def start (row : Run) («namespace» : String) (now : Time) : UnitOfWork :=
  { UnitOfWork.clean row with
    row := { row with status := .running, dispatchStartedAt := some now, jobNamespace := some «namespace» } }

def decide (worker : Worker) (t : Tables) (release : ModelReleaseRow) (row : Run) (i : Input) :
    Except Raised Pc := do
  let definition ← loadReleaseDefinition t release
  if ← matchesFingerprint definition row.parameters row.fingerprint then
    return .commit (some (start row worker.namespace i.now)) (some row.id)
  else
    let u := finishRow (.clean row) (some "execution_definition_changed") [] i.defaults
    return .commit (some u) none

/-- What the session flushes at the end: the claimed row, if there is one. -/
def change : Option UnitOfWork → Change
  | some u => .outcome u
  | none => .nothing

def step (worker : Worker) (w : World) (i : Input) : Pc → Effect × Progress Pc (Option UUID)
  | .lockCapacity => (.lock (.advisory capacityLock), .running .count)
  | .count =>
    if worker.capacity ≤ w.tables.runningCount then (.read, .running (.commit none none))
    else (.read, .running .candidate)
  | .candidate =>
    match w.tables.claimCandidate with
    | none => (.read, .running (.commit none none))
    | some run => (.read, .running (.lockRelease run.id run.modelReleaseId))
  | .lockRelease runId releaseId =>
    match w.tables.releases.find? releaseId with
    | none => (.rollback, .raised .attributeError)
    | some release => (.lock (.release releaseId), .running (.lockRun runId release))
  | .lockRun runId release =>
    match w.tables.runs.find? runId with
    | none => (.rollback, .raised .attributeError)
    | some row =>
      if row.status ≠ .queued ∨ row.acceptedAt = none then
        (.lock (.run runId), .running (.commit none none))
      else (.lock (.run runId), .running (.loadRelease release row))
  | .loadRelease release row =>
    attempt (decide worker w.tables release row i) fun pc => (.read, .running pc)
  | .commit u started => (.commit (change u) [], .returned started)

theorem decide_ok {worker : Worker} {t : Tables} {release : ModelReleaseRow} {row : Run} {i : Input}
    {pc : Pc} (h : decide worker t release row i = .ok pc) :
    ∃ definition, loadReleaseDefinition t release = .ok definition ∧
      (matchesFingerprint definition row.parameters row.fingerprint = .ok true ∧
          pc = .commit (some (start row worker.namespace i.now)) (some row.id) ∨
        matchesFingerprint definition row.parameters row.fingerprint = .ok false ∧
          pc = .commit
            (some (finishRow (.clean row) (some "execution_definition_changed") [] i.defaults)) none) := by
  obtain ⟨definition, hd, h⟩ := bind_eq_ok.mp h
  obtain ⟨compatible, hc, h⟩ := bind_eq_ok.mp h
  refine ⟨definition, hd, ?_⟩
  cases compatible with
  | true => exact .inl ⟨hc, (Except.ok.inj h).symm⟩
  | false => exact .inr ⟨hc, (Except.ok.inj h).symm⟩

/-- What a statement of a claim does, the constructor of its `Pc` given. -/
theorem step_cases {worker : Worker} {w : World} {i : Input} {pc : Pc} {e : Effect}
    {r : Progress Pc (Option UUID)} :
    step worker w i pc = (e, r) →
    (e = .rollback ∧ ∃ err, r = .raised err) ∨ match pc with
    | .lockCapacity => e = .lock (.advisory capacityLock) ∧ r = .running .count
    | .count => e = .read ∧ (r = .running (.commit none none) ∨
        w.tables.runningCount < worker.capacity ∧ r = .running .candidate)
    | .candidate => e = .read ∧ (r = .running (.commit none none) ∨
        ∃ run, w.tables.claimCandidate = some run ∧
          r = .running (.lockRelease run.id run.modelReleaseId))
    | .lockRelease runId releaseId => ∃ release, w.tables.releases.find? releaseId = some release ∧
        e = .lock (.release releaseId) ∧ r = .running (.lockRun runId release)
    | .lockRun runId release => ∃ row, w.tables.runs.find? runId = some row ∧ e = .lock (.run runId) ∧
        (r = .running (.commit none none) ∨
          row.status = .queued ∧ row.acceptedAt ≠ none ∧ r = .running (.loadRelease release row))
    | .loadRelease release row => ∃ pc', decide worker w.tables release row i = .ok pc' ∧ e = .read ∧
        r = .running pc'
    | .commit u started => e = .commit (change u) [] ∧ r = .returned started := by
  intro hs
  cases pc with
  | lockCapacity =>
    obtain ⟨rfl, rfl⟩ := Prod.mk.inj hs
    exact .inr ⟨rfl, rfl⟩
  | count =>
    simp only [step] at hs
    split at hs <;> obtain ⟨rfl, rfl⟩ := Prod.mk.inj hs
    · exact .inr ⟨rfl, .inl rfl⟩
    · exact .inr ⟨rfl, .inr ⟨Nat.lt_of_not_le ‹_›, rfl⟩⟩
  | candidate =>
    simp only [step] at hs
    split at hs <;> obtain ⟨rfl, rfl⟩ := Prod.mk.inj hs
    · exact .inr ⟨rfl, .inl rfl⟩
    · exact .inr ⟨rfl, .inr ⟨_, ‹_›, rfl⟩⟩
  | lockRelease runId releaseId =>
    simp only [step] at hs
    split at hs <;> obtain ⟨rfl, rfl⟩ := Prod.mk.inj hs
    · exact .inl ⟨rfl, _, rfl⟩
    · exact .inr ⟨_, ‹_›, rfl, rfl⟩
  | lockRun runId release =>
    simp only [step] at hs
    split at hs
    · obtain ⟨rfl, rfl⟩ := Prod.mk.inj hs
      exact .inl ⟨rfl, _, rfl⟩
    · rename_i row hrow
      by_cases hclosed : row.status ≠ .queued ∨ row.acceptedAt = none
      · obtain ⟨rfl, rfl⟩ := Prod.mk.inj ((if_pos hclosed).symm.trans hs)
        exact .inr ⟨row, hrow, rfl, .inl rfl⟩
      · obtain ⟨rfl, rfl⟩ := Prod.mk.inj ((if_neg hclosed).symm.trans hs)
        simp only [not_or, ne_eq, Decidable.not_not] at hclosed
        exact .inr ⟨row, hrow, rfl, .inr ⟨hclosed.1, hclosed.2, rfl⟩⟩
  | loadRelease release row =>
    rcases attempt_eq hs with ⟨rfl, err, -, rfl⟩ | ⟨pc', hd, hs⟩
    · exact .inl ⟨rfl, err, rfl⟩
    · obtain ⟨rfl, rfl⟩ := Prod.mk.inj hs
      exact .inr ⟨pc', hd, rfl, rfl⟩
  | commit u started =>
    obtain ⟨rfl, rfl⟩ := Prod.mk.inj hs
    exact .inr ⟨rfl, rfl⟩

end ClaimNext
end Mic3

import Mic3.Computation
import Mic3.Interruptions

/-! What a reconcile call makes of one Job and one set of outputs, apart from the statements that get it
there, and that it is the same for every load of an accepted run. -/
namespace Mic3
open Relational Interleaving

/-- What a call does to its run: it leaves it running, ends it, or is stopped by an exception. -/
inductive Conclusion where
  | active
  | ended (failureCode : Option String) (artifacts : List Artifact)
  | raised (e : Raised)

/-- Code inside the `try`, as one value. -/
def settle {α : Type} (result : Except Raised α) (next : α → Conclusion) : Conclusion :=
  match result with
  | .ok a => next a
  | .error (.executionFailure code artifacts) => .ended (some code) artifacts
  | .error e => .raised e

def JobObject.observation (job : JobObject) (pods : List Pod) : JobObservation :=
  if job.holds "Failed" then ⟨job.uid, .failed, some (failureReason job.uid pods)⟩
  else ⟨job.uid, if job.holds "Complete" then .succeeded else .active, none⟩

namespace Reconcile

def collected (work : ExecutionWork) (listing : List Artifact) : Conclusion :=
  settle work.outputPrefix fun outputPrefix =>
    settle (collect work outputPrefix listing) fun artifacts => .ended none artifacts

/-- From the observation of a Job that keeps the contract: a known uid must be its own. -/
def judged (work : ExecutionWork) (job : JobObject) (pods : List Pod) (listing : List Artifact) : Conclusion :=
  if work.jobUid ≠ none ∧ work.jobUid ≠ some job.uid then .ended (some "job_identity_conflict") []
  else match (job.observation pods).state with
    | .failed => .ended (some (failureReason job.uid pods)) []
    | .succeeded => collected work listing
    | .active => .active

def inspected (work : ExecutionWork) (expected : Json) (job : JobObject) (pods : List Pod)
    (listing : List Artifact) : Conclusion :=
  settle (verifyContract work job expected) fun _ => judged work job pods listing

/-- `reconcile` against one Job with its pods and one listing of the outputs. -/
def conclusion (helm : Helm) (worker : Worker) (work : ExecutionWork) (job : JobObject) (pods : List Pod)
    (listing : List Artifact) : Conclusion :=
  settle (expectation helm worker work) fun expected => inspected work expected job pods listing

end Reconcile

/-- Two loads of one run that describe one computation. -/
structure ExecutionWork.Alike (a b : ExecutionWork) : Prop where
  id : b.id = a.id
  parameters : b.parameters = a.parameters
  fingerprint : b.fingerprint = a.fingerprint
  «namespace» : b.namespace = a.namespace
  modelId : b.release.modelId = a.release.modelId
  imageDigest : b.release.imageDigest = a.release.imageDigest
  selected : ∃ invocation, selectedInvocation a.release a.parameters = .ok invocation ∧
    selectedInvocation b.release a.parameters = .ok invocation

/-- The second load has the uid that the first has, or that of the Job where the first had none. -/
def ExecutionWork.Knows (a b : ExecutionWork) (uid : String) : Prop :=
  b.jobUid = a.jobUid ∨ a.jobUid = none ∧ b.jobUid = some uid

namespace ExecutionWork
variable {a b : ExecutionWork} {helm : Helm} {worker : Worker} {job : JobObject} {expected : Json}

/-- Both definitions prepare the parameters alike. -/
theorem prepareMode_congr {d d' : ExecutionDefinition} {parameters : Json} {mode : String}
    {invocation : Invocation} (hmode : parameters.get? "mode" = some (.str mode))
    (h : d.mode? mode = some invocation) (h' : d'.mode? mode = some invocation) :
    d'.prepareMode parameters = d.prepareMode parameters := by
  unfold ExecutionDefinition.prepareMode
  split
  · split
    · rfl
    · simp only [hmode, h, h', Option.isSome_some, if_true]
  · rfl

theorem Alike.prepareMode (h : a.Alike b) :
    b.release.executionDefinition.prepareMode a.parameters =
      a.release.executionDefinition.prepareMode a.parameters := by
  obtain ⟨invocation, ha, hb⟩ := h.selected
  obtain ⟨mode, hmode, hfound⟩ := selectedInvocation_ok.mp ha
  obtain ⟨mode', hmode', hfound'⟩ := selectedInvocation_ok.mp hb
  obtain rfl : mode = mode' := Json.str.inj (Option.some.inj (hmode.symm.trans hmode'))
  exact prepareMode_congr hmode hfound hfound'

/-- Where the parameters prepare, both definitions have one invocation for their mode. -/
theorem Alike.mode (h : a.Alike b) {mode : String}
    (hmode : a.release.executionDefinition.prepareMode a.parameters = .ok mode) :
    b.release.executionDefinition.mode? mode = a.release.executionDefinition.mode? mode := by
  obtain ⟨invocation, ha, hb⟩ := h.selected
  obtain ⟨mode', hmode', hfound⟩ := selectedInvocation_ok.mp ha
  obtain ⟨mode'', hmode'', hfound'⟩ := selectedInvocation_ok.mp hb
  have hparameters := prepareMode_parameters hmode
  have hget : a.parameters.get? "mode" = some (.str mode) := by
    rw [hparameters]
    rfl
  obtain rfl : mode = mode' := Json.str.inj (Option.some.inj (hget.symm.trans hmode'))
  obtain rfl : mode = mode'' := Json.str.inj (Option.some.inj (hget.symm.trans hmode''))
  exact hfound'.trans hfound.symm

theorem Alike.resolve (h : a.Alike b) : b.release.executionDefinition.resolve a.parameters =
    a.release.executionDefinition.resolve a.parameters := by
  unfold ExecutionDefinition.resolve
  rw [h.prepareMode]
  cases hmode : a.release.executionDefinition.prepareMode a.parameters with
  | error e => rfl
  | ok mode => simp only [bind, Except.bind, h.mode hmode]

theorem Alike.fingerprint_eq (h : a.Alike b) :
    Mic3.fingerprint b.release a.parameters = Mic3.fingerprint a.release a.parameters := by
  obtain ⟨invocation, ha, hb⟩ := h.selected
  exact fingerprint_congr hb ha h.modelId h.imageDigest

theorem Alike.values (h : a.Alike b) :
    modelJobValues b.release b.parameters b.id = modelJobValues a.release a.parameters a.id := by
  rw [h.parameters, h.id, modelJobValues, modelJobValues, h.prepareMode]
  cases hmode : a.release.executionDefinition.prepareMode a.parameters with
  | error e => rfl
  | ok mode =>
    -- The effective parameters are the parameters themselves.
    have hparameters := prepareMode_parameters hmode
    simp only [bind, Except.bind, ← hparameters, h.resolve, h.fingerprint_eq, h.modelId, h.imageDigest]

theorem Alike.jobName (h : a.Alike b) : b.jobName = a.jobName := by rw [ExecutionWork.jobName, h.id]; rfl

theorem Alike.outputPrefix (h : a.Alike b) : b.outputPrefix = a.outputPrefix := by
  simp only [ExecutionWork.outputPrefix, h.imageDigest, h.modelId, h.id]

theorem Alike.expectation (h : a.Alike b) :
    Reconcile.expectation helm worker b = Reconcile.expectation helm worker a := by
  simp only [Reconcile.expectation, matchesFingerprint, h.parameters, h.fingerprint_eq, h.fingerprint,
    h.namespace, render, h.jobName]
  rw [← h.values, h.parameters]

theorem Alike.collected (h : a.Alike b) (listing : List Artifact) :
    Reconcile.collected b listing = Reconcile.collected a listing := by
  simp only [Reconcile.collected, h.outputPrefix, collect, h.parameters, h.resolve]

/-- A uid that is the Job's own tells nothing more than no uid. -/
theorem Knows.verifyContract (h : a.Knows b job.uid) :
    verifyContract b job expected = verifyContract a job expected := by
  rcases h with hsame | ⟨hnone, huid⟩
  · simp only [Mic3.verifyContract, hsame]
  · have ha : ¬ (truthy a.jobUid = true ∧ some job.uid ≠ a.jobUid) := fun h => by
      rw [hnone] at h
      exact absurd h.1 Bool.false_ne_true
    have hb : ¬ (truthy b.jobUid = true ∧ some job.uid ≠ b.jobUid) := fun h => h.2 huid.symm
    simp only [Mic3.verifyContract, if_neg ha, if_neg hb]

theorem Knows.judged (h : a.Knows b job.uid) (halike : a.Alike b) (pods : List Pod) (listing : List Artifact) :
    Reconcile.judged b job pods listing = Reconcile.judged a job pods listing := by
  rcases h with hsame | ⟨hnone, huid⟩
  · simp only [Reconcile.judged, hsame, halike.collected]
  · have ha : ¬ (a.jobUid ≠ none ∧ a.jobUid ≠ some job.uid) := fun h => h.1 hnone
    have hb : ¬ (b.jobUid ≠ none ∧ b.jobUid ≠ some job.uid) := fun h => h.2 huid
    simp only [Reconcile.judged, if_neg ha, if_neg hb, halike.collected]

/-- Another load of the run, with the uid or without it, leads to the same conclusion. -/
theorem Alike.conclusion (h : a.Alike b) (hknows : a.Knows b job.uid) (pods : List Pod)
    (listing : List Artifact) : Reconcile.conclusion helm worker b job pods listing =
      Reconcile.conclusion helm worker a job pods listing := by
  have hinspected (expected : Json) : Reconcile.inspected b expected job pods listing =
      Reconcile.inspected a expected job pods listing := by
    rw [Reconcile.inspected, Reconcile.inspected, hknows.verifyContract, hknows.judged h]
  simp only [Reconcile.conclusion, h.expectation, hinspected]

end ExecutionWork
end Mic3

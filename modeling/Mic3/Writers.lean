import Mic3.AcceptedWork
import Mic3.Emissions

/-! Who writes a run: an acceptance or a claim while it is queued, and its reconcile call after. -/
namespace Mic3
open Relational Interleaving

/-- What a commit writes to a run: nothing, or the run is still queued, or its writer reconciles it. -/
inductive Proc.Writes : Proc → UnitOfWork → List Entry → Prop
  | clean (l : Proc) (u : UnitOfWork) (entries : List Entry) (h : u.row = u.loaded) : Writes l u entries
  | queued (l : Proc) (u : UnitOfWork) (entries : List Entry) (h : u.loaded.status = .queued) :
    Writes l u entries
  | saveUid (worker : Worker) (call : Reconcile.Call) (observation : JobObservation) (row : Run)
      (hu : row.jobUid = none ∨ row.jobUid = some observation.uid) :
    Writes (.reconcile worker row.id (.saveUid call observation row))
      (Reconcile.savedUid row observation.uid) []
  | finish (worker : Worker) (seen : Seen) (u : UnitOfWork) :
    Writes (.reconcile worker u.loaded.id (.finish seen u)) u
      (if u.loaded.status.terminal then [] else [.finished u.loaded.id seen])

section Programs
variable {x : External} {p : Pid} {w : World} {i : Input} {l l' : Proc}

theorem AcceptRun.writes (t : Tables) (runId : UUID) {release : ModelReleaseRow} {u : UnitOfWork}
    (outcome : String) {entries : List Entry}
    (h : AcceptRun.Configures t runId (.commit release u outcome entries)) (entries' : List Entry) :
    l.Writes u entries' := by
  rcases h with ⟨-, hclean⟩ | ⟨hq, -⟩
  · exact .clean l u entries' (congrArg UnitOfWork.row hclean)
  · exact .queued l u entries' hq

theorem Proc.writes {u : UnitOfWork} {entries : List Entry}
    (hs : l.next x p w i = (.commit (.outcome u) entries, l')) (hknows : l.Knows w.tables)
    (hconf : l.Configures w.tables) : l.Writes u entries := by
  generalize hchange : Change.outcome u = change at hs
  cases Proc.commits hs rfl with
  | submit | register | publish => contradiction
  | reject topic location rejection message => cases message <;> contradiction
  | accept runId release u outcome entries =>
    obtain rfl := Change.outcome.inj hchange
    exact AcceptRun.writes w.tables runId outcome hconf _
  | handle topic location runId release u outcome entries =>
    obtain rfl := Change.outcome.inj hchange
    exact AcceptRun.writes w.tables runId outcome hconf _
  | claim worker u started =>
    cases u with
    | none => contradiction
    | some u =>
      obtain rfl := Change.outcome.inj hchange
      exact .queued _ _ _ hconf.1
  | saveUid worker runId call observation row hu =>
    obtain rfl := Change.outcome.inj hchange
    obtain ⟨-, -, rfl⟩ := hknows
    exact .saveUid worker call observation row hu
  | finish worker runId seen u =>
    obtain rfl := Change.outcome.inj hchange
    obtain ⟨rfl, -⟩ := hconf
    exact .finish worker seen _

end Programs
end Mic3

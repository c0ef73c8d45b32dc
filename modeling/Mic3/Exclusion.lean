import Mic3.Judgement

/-! What one process does to a run that another is reconciling: nothing. A running run is written, and a
Job is created for a run, only under the run's session lock. -/
namespace Mic3
open Relational Interleaving

/-- The name of a run's Job. -/
def jobNameOf (id : UUID) : String := "mic3-run-" ++ id.str

theorem jobNameOf_injective : Function.Injective jobNameOf := by
  intro a b h
  exact UUID.str_injective (by simpa [jobNameOf] using h)

/-- The Job objects that workers ever created for a run. -/
def World.jobsOf (w : World) (id : UUID) : List (JobKey × String) :=
  w.cluster.dispatched.filter fun e => e.1.2 = jobNameOf id

structure Excludes (p : Pid) (w w' : World) : Prop where
  running : ∀ id row, w.pg.sessionLocks (runKey id) ≠ some p → w.tables.runs.find? id = some row →
    row.status = .running → w'.tables.runs.find? id = some row
  jobs : ∀ id, w.pg.sessionLocks (runKey id) ≠ some p → w'.jobsOf id = w.jobsOf id

section Effects
variable {x : External} {p : Pid} {w w' : World} {i : Input} {e : Effect} {l l' : Proc}

theorem excludes_refl (p : Pid) (w : World) : Excludes p w w := ⟨fun _ _ _ h _ => h, fun _ _ => rfl⟩

/-- Only the commit of its owner writes a running run. -/
theorem Proc.keeps_running (hs : l.next x p w i = (e, l')) (hal : e.Allowed w.tables)
    (hknows : l.Knows w.tables) (hconf : l.Configures w.tables) (hl : Holding p l w)
    (ha : w.apply p e = some w') {id : UUID} {row : Run}
    (hother : w.pg.sessionLocks (runKey id) ≠ some p) (hrow : w.tables.runs.find? id = some row)
    (hrun : row.status = .running) : w'.tables.runs.find? id = some row := by
  rcases hal.runs ha with hsame | ⟨row', event, entries, -, -, hins⟩ | ⟨u, entries, rfl, -, hcurrent, hfind⟩
  · rw [hsame, hrow]
  · exact Table.find?_insert_of_some hins hrow
  rw [hfind]
  split
  · rename_i hid
    subst hid
    obtain rfl : u.loaded = row := Option.some.inj (hcurrent.symm.trans hrow)
    cases Proc.writes hs hknows hconf with
    | clean l u entries h => rw [h]
    | queued l u entries h => cases (h.symm.trans hrun)
    | saveUid worker call observation row hu =>
      rw [Reconcile.savedUid_loaded] at hother
      exact absurd (hl.owns (fun he => by cases he)) hother
    | finish worker seen u => exact absurd (hl.owns (fun he => by cases he)) hother
  · exact hrow

theorem jobsOf_apply (hc : e.creates = false) (ha : w.apply p e = some w') (id : UUID) :
    w'.jobsOf id = w.jobsOf id := by
  simp only [World.jobsOf, cluster_apply hc ha]

theorem jobsOf_create {key : JobKey} {job : JobObject} (ha : w.apply p (.createJob key job) = some w')
    (id : UUID) : w'.jobsOf id = if key.2 = jobNameOf id then (key, job.uid) :: w.jobsOf id else w.jobsOf id := by
  obtain ⟨-, rfl⟩ := create_apply ha
  by_cases h : key.2 = jobNameOf id <;> simp [World.jobsOf, h]

/-- Only the request of its owner creates a Job for a run. -/
theorem Proc.keeps_jobs (hs : l.next x p w i = (e, l')) (hsees : l.Sees x p w) (hl : Holding p l w)
    (ha : w.apply p e = some w') {id : UUID} (hother : w.pg.sessionLocks (runKey id) ≠ some p) :
    w'.jobsOf id = w.jobsOf id := by
  cases hc : e.creates with
  | false => exact jobsOf_apply hc ha id
  | true =>
    cases e with
    | createJob key job =>
      rcases Proc.emits hs with h | ⟨change, entries, h, -⟩ | h
      · contradiction
      · contradiction
      · cases h with
        | createJob worker runId call job =>
          obtain ⟨⟨row, hrow, hof⟩, -⟩ := hsees
          have hid : call.work.id = runId := hof.id.trans (Table.key_of_find? hrow)
          rw [jobsOf_create ha, if_neg]
          intro hname
          have hrun : runId = id := hid.symm.trans (jobNameOf_injective hname)
          exact hother (hrun ▸ hl.owns (fun he => by cases he))
    | _ => contradiction

theorem Proc.excludes (hs : l.next x p w i = (e, l')) (hal : e.Allowed w.tables)
    (hknows : l.Knows w.tables) (hconf : l.Configures w.tables) (hsees : l.Sees x p w)
    (hl : Holding p l w) (ha : w.apply p e = some w') : Excludes p w w' where
  running := fun _ _ hother hrow hrun => Proc.keeps_running hs hal hknows hconf hl ha hother hrow hrun
  jobs := fun _ hother => Proc.keeps_jobs hs hsees hl ha hother

end Effects
end Mic3

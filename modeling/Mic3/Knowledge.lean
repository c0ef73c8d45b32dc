import Mic3.Records

/-! What each program knows about its run at each of its statements, and that it writes only what the
run's life allows. -/
namespace Mic3
open Relational Interleaving

/-- The run has left the queue. -/
def Tables.Dispatched (t : Tables) (id : UUID) : Prop :=
  ∃ row, t.runs.find? id = some row ∧ row.status ≠ .queued

/-- The run has left the queue, and has a Job uid if it still runs. -/
def Tables.Identified (t : Tables) (id : UUID) : Prop :=
  ∃ row, t.runs.find? id = some row ∧ row.status ≠ .queued ∧
    (row.status = .running → row.jobUid.isSome)

/-! What each program knows about its run at each of its statements. -/

def SubmitRun.Knows : Pc → Prop
  | .checkRelease _ row | .checkUser _ row | .insertEvent _ row => row.Fresh
  | .commit _ row event => row.Fresh ∧ event.runId = row.id ∧ event.eventType = "run.requested"
  | _ => True

def AcceptRun.Knows : Pc → Prop
  | .loadRelease _ row => row.status = .queued ∧ row.acceptedAt = none
  | .commit _ u _ _ => u.Allowed ∧ ¬ u.Starts
  | _ => True

def ClaimNext.Knows : Pc → Prop
  | .loadRelease _ row => row.status = .queued ∧ row.acceptedAt ≠ none
  | .commit (some u) _ => u.Allowed
  | _ => True

def Reconcile.Knows (t : Tables) (runId : UUID) : Pc → Prop
  | .acquire | .loadRun | .unwind _ | .exit _ => True
  | .loadRelease _ | .loadModel .. | .observe .. | .lookup _ | .create _ | .confirm _ | .readPods ..
  | .lockUid .. => t.Dispatched runId
  | .saveUid _ _ row => t.Dispatched runId ∧ row.status ≠ .queued ∧ row.id = runId
  | .listOutputs _ => t.Identified runId
  | .lockFinish _ none _ => t.Identified runId
  | .lockFinish _ (some code) _ => t.Dispatched runId ∧ code ≠ ""
  | .finish _ u => u.Allowed ∧ ¬ u.Starts

def Consumer.Knows : Pc → Prop
  | .accept _ _ pc => AcceptRun.Knows pc
  | _ => True

def Proc.Knows (t : Tables) : Proc → Prop
  | .submit _ pc => SubmitRun.Knows pc
  | .accept _ pc => AcceptRun.Knows pc
  | .claim _ pc => ClaimNext.Knows pc
  | .reconcile _ runId pc => Reconcile.Knows t runId pc
  | .consume _ pc => Consumer.Knows pc
  | _ => True

section Advance
variable {t t' : Tables} {id : UUID} {row : Run}

theorem Tables.Advances.refl (t : Tables) : t.Advances t := fun _ row hr => ⟨row, hr, .inl rfl⟩

/-- What a step leaves of one run. -/
theorem Tables.Advances.run (h : t.Advances t') (hc : t.Consistent) (hr : t.runs.find? id = some row) :
    ∃ row', t'.runs.find? id = some row' ∧ row.Continues row' ∧ row.status.Moves row'.status ∧
      (row.status.terminal = true → t'.record id row' = t.record id row) := by
  obtain ⟨row', hr', hs⟩ := h id row hr
  refine ⟨row', hr', ?_⟩
  rcases hs with heq | hs
  · obtain rfl : row' = row := congrArg RunRecord.row heq
    exact ⟨.refl _, .stay _, fun _ => heq⟩
  · obtain ⟨hcont, hmoves, hopen⟩ := hs.continues (hc.wellFormed id row hr)
    exact ⟨hcont, hmoves, fun ht => (by cases (hopen.symm.trans ht))⟩

theorem Tables.Dispatched.advance (hd : t.Dispatched id) (h : t.Advances t') (hc : t.Consistent) :
    t'.Dispatched id := by
  obtain ⟨row, hr, hs⟩ := hd
  obtain ⟨row', hr', -, hm, -⟩ := h.run hc hr
  exact ⟨row', hr', hm.ne_queued hs⟩

theorem Tables.Identified.advance (hd : t.Identified id) (h : t.Advances t') (hc : t.Consistent) :
    t'.Identified id := by
  obtain ⟨row, hr, hs, hu⟩ := hd
  obtain ⟨row', hr', hcont, hm, -⟩ := h.run hc hr
  refine ⟨row', hr', hm.ne_queued hs, fun hrun => ?_⟩
  obtain ⟨uid, huid⟩ := Option.isSome_iff_exists.mp (hu (hm.was_running hs hrun))
  simp [hcont.jobUid uid huid]

end Advance

/-- The write that an effect sends is one the run may receive. -/
def Effect.Allowed (t : Tables) : Effect → Prop
  | .commit change _ => change.Allowed t
  | _ => True

def Effect.commits : Effect → Bool
  | .commit .. => true
  | _ => false

theorem Effect.commits_iff (e : Effect) : e.commits = true ↔ ∃ change entries, e = .commit change entries := by
  cases e <;> simp [commits]

section Programs
variable {p : Pid} {w w' : World} {i : Input} {e : Effect}

theorem tables_apply (hc : e.commits = false) (ha : w.apply p e = some w') : w'.tables = w.tables := by
  by_cases hcont : e.continues = true
  · exact (continues_apply hcont ha).1
  · cases e with
    | commit change entries => contradiction
    | rollback | sessionUnlock | disconnect => exact Option.some.inj ha ▸ rfl
    | _ => simp [Effect.continues] at hcont

/-- An effect that is no commit adds nothing to the history but an acknowledgement. -/
theorem history_apply (hc : e.commits = false) (ha : w.apply p e = some w') :
    w'.history = w.history ∨ ∃ event, w'.history = .acknowledged event :: w.history := by
  cases e with
  | commit change entries => contradiction
  | lock k =>
    obtain ⟨locks, -, rfl⟩ := lock_apply ha
    exact .inl rfl
  | share k =>
    obtain ⟨locks, -, rfl⟩ := share_apply ha
    exact .inl rfl
  | sessionLock key =>
    obtain ⟨-, rfl⟩ := sessionLock_apply ha
    exact .inl rfl
  | createJob key job =>
    obtain ⟨-, rfl⟩ := create_apply ha
    exact .inl rfl
  | acknowledge event =>
    obtain ⟨-, h⟩ := Option.ite_none_right_eq_some.mp ha
    obtain rfl := Option.some.inj h
    exact .inr ⟨event, rfl⟩
  | assign | poll | commitOffset =>
    obtain ⟨-, h⟩ := Option.ite_none_right_eq_some.mp ha
    obtain rfl := Option.some.inj h
    exact .inl rfl
  | read | rollback | sessionUnlock | produce | closeConsumer | disconnect =>
    obtain rfl := Option.some.inj ha
    exact .inl rfl

/-- The history only grows. -/
theorem history_subset (ha : w.apply p e = some w') : w.history ⊆ w'.history := by
  cases hcommit : e.commits with
  | false =>
    rcases history_apply hcommit ha with h | ⟨event, h⟩
    · exact h ▸ List.Subset.refl _
    · exact h ▸ List.subset_cons_self _ _
  | true =>
    obtain ⟨change, entries, rfl⟩ := e.commits_iff.mp hcommit
    obtain ⟨tables, -, rfl⟩ := commit_apply ha
    exact List.subset_append_right _ _

/-- What an allowed effect does to the runs: nothing, or it adds a fresh one, or it writes the one it
loaded. -/
theorem Effect.Allowed.runs (hal : e.Allowed w.tables) (ha : w.apply p e = some w') :
    w'.tables.runs = w.tables.runs ∨
    (∃ row event entries, e = .commit (.submit row event) entries ∧ row.Fresh ∧
      w.tables.runs.insert row = some w'.tables.runs) ∨
    ∃ u entries, e = .commit (.outcome u) entries ∧ u.Allowed ∧
      w.tables.runs.find? u.loaded.id = some u.loaded ∧
      ∀ id, w'.tables.runs.find? id =
        if id = u.loaded.id then some u.row else w.tables.runs.find? id := by
  cases hcommit : e.commits with
  | false => exact .inl (congrArg Tables.runs (tables_apply hcommit ha))
  | true =>
    obtain ⟨change, entries, rfl⟩ := e.commits_iff.mp hcommit
    obtain ⟨tables, ht, rfl⟩ := commit_apply ha
    cases change with
    | nothing => exact .inl (congrArg Tables.runs (Change.nothing_apply ht))
    | register r =>
      obtain ⟨models, releases, -, -, rfl⟩ := Change.register_apply ht
      exact .inl rfl
    | publish marks =>
      obtain rfl := Change.publish_apply ht
      exact .inl rfl
    | reject message =>
      obtain ⟨rejected, -, rfl⟩ := Change.reject_apply ht
      exact .inl rfl
    | submit row event =>
      obtain ⟨runs, outbox, hruns, -, rfl⟩ := Change.submit_apply ht
      exact .inr (.inl ⟨row, event, entries, rfl, hal.1, hruns⟩)
    | outcome u => exact .inr (.inr ⟨u, entries, rfl, hal.1, hal.2, find?_outcome hal ht⟩)

/-- No run is removed. -/
theorem Effect.Allowed.runs_isSome (hal : e.Allowed w.tables) (ha : w.apply p e = some w') {id : UUID}
    (hid : (w.tables.runs.find? id).isSome) : (w'.tables.runs.find? id).isSome := by
  obtain ⟨row, hrow⟩ := Option.isSome_iff_exists.mp hid
  rcases hal.runs ha with heq | ⟨row', event, entries, -, -, hins⟩ | ⟨u, entries, -, -, -, hfind⟩
  · rwa [heq]
  · rw [Table.find?_insert_of_some hins hrow]
    rfl
  · rw [hfind]
    split
    · rfl
    · exact hid

/-- What an allowed effect does to a count of runs: nothing, or it counts a fresh row in, or it moves one
row's contribution. -/
theorem Effect.Allowed.count (hal : e.Allowed w.tables) (ha : w.apply p e = some w') (pred : Run → Bool) :
    w'.tables.runs.count pred = w.tables.runs.count pred ∨
    (∃ row event entries, e = .commit (.submit row event) entries ∧ row.Fresh ∧
      w'.tables.runs.count pred = w.tables.runs.count pred + if pred row then 1 else 0) ∨
    ∃ u entries, e = .commit (.outcome u) entries ∧ u.Allowed ∧
      w'.tables.runs.count pred + (if pred u.loaded then 1 else 0) =
        w.tables.runs.count pred + if pred u.row then 1 else 0 := by
  rcases hal.runs ha with h | ⟨row, event, entries, rfl, hfresh, hruns⟩ | ⟨u, entries, rfl, hu, -, -⟩
  · exact .inl (by rw [h])
  · exact .inr (.inl ⟨row, event, entries, rfl, hfresh, Table.count_insert hruns pred⟩)
  · obtain ⟨tables, ht, rfl⟩ := commit_apply ha
    exact .inr (.inr ⟨u, entries, rfl, hu, count_outcome hal ht pred⟩)

/-- An allowed effect keeps the tables consistent and advances the runs. -/
theorem Effect.Allowed.apply (hal : e.Allowed w.tables) (ha : w.apply p e = some w')
    (hc : w.tables.Consistent) : w'.tables.Consistent ∧ w.tables.Advances w'.tables := by
  cases hcommit : e.commits with
  | false =>
    rw [tables_apply hcommit ha]
    exact ⟨hc, .refl _⟩
  | true =>
    obtain ⟨change, entries, rfl⟩ := e.commits_iff.mp hcommit
    obtain ⟨tables, ht, rfl⟩ := commit_apply ha
    exact Change.consistent hal ht hc

theorem SubmitRun.knows_step {call : SubmitRun} {pc : SubmitRun.Pc} {r : Progress SubmitRun.Pc UUID}
    (hs : call.step w i pc = (e, r)) (hk : Knows pc) :
    e.Allowed w.tables ∧ r.All Knows := by
  rcases step_cases hs with ⟨rfl, err, rfl⟩ | hc
  · exact ⟨trivial, trivial⟩
  cases pc with
  | getRelease =>
    obtain ⟨s, -, rfl, ⟨limits, -, rfl⟩ | ⟨-, rfl⟩⟩ := hc <;>
      exact ⟨trivial, trivial⟩
  | lockAdmission s limits =>
    obtain ⟨rfl, rfl⟩ := hc
    exact ⟨trivial, trivial⟩
  | countTotal s limits =>
    obtain ⟨rfl, rfl⟩ := hc
    exact ⟨trivial, trivial⟩
  | countOwned s limits total =>
    obtain ⟨-, rfl, rfl⟩ := hc
    exact ⟨trivial, trivial⟩
  | findUser s =>
    obtain ⟨rfl, rfl⟩ := hc
    exact ⟨trivial, trivial⟩
  | insertRun s =>
    obtain ⟨-, rfl, rfl⟩ := hc
    exact ⟨trivial, ⟨rfl, rfl, rfl, rfl, rfl, rfl, rfl⟩⟩
  | checkRelease s row =>
    obtain ⟨-, rfl, rfl⟩ := hc
    exact ⟨trivial, hk⟩
  | checkUser s row =>
    obtain ⟨⟨user, rfl⟩ | rfl, rfl⟩ := hc <;>
      exact ⟨trivial, hk⟩
  | insertEvent s row =>
    obtain ⟨rfl, rfl⟩ := hc
    exact ⟨trivial, ⟨hk, rfl, rfl⟩⟩
  | commit s row event =>
    obtain ⟨rfl, rfl⟩ := hc
    exact ⟨hk, trivial⟩

theorem AcceptRun.knows_step {runId : UUID} {pc : AcceptRun.Pc} {r : Progress AcceptRun.Pc String}
    (hs : step runId w i pc = (e, r)) (hk : Knows pc) (hv : ∀ h ∈ holds pc, h.Valid p w) :
    e.Allowed w.tables ∧ r.All Knows := by
  rcases step_cases hs with ⟨rfl, err, rfl⟩ | hc
  · exact ⟨trivial, trivial⟩
  cases pc with
  | readRelease =>
    obtain ⟨row, -, rfl, rfl⟩ := hc
    exact ⟨trivial, trivial⟩
  | lockRelease releaseId =>
    obtain ⟨release, -, rfl, rfl⟩ := hc
    exact ⟨trivial, trivial⟩
  | lockRun release =>
    obtain ⟨row, -, rfl, ⟨-, rfl⟩ | ⟨ha, hq, rfl⟩⟩ := hc
    · exact ⟨trivial, UnitOfWork.clean_allowed row, UnitOfWork.clean_not_starts⟩
    · exact ⟨trivial, ⟨hq, ha⟩⟩
  | loadRelease release row =>
    obtain ⟨pc', hd, rfl, rfl⟩ := hc
    refine ⟨trivial, ?_⟩
    obtain ⟨definition, -, ⟨invocation, -, -, rfl⟩ | ⟨-, rfl⟩⟩ := decide_ok hd
    · exact ⟨saveOutcome_allowed hk.1 hk.2 _ _, saveOutcome_not_starts hk.1 _ _⟩
    · exact ⟨saveOutcome_allowed hk.1 hk.2 _ _, saveOutcome_not_starts hk.1 _ _⟩
  | commit release u outcome entries =>
    obtain ⟨rfl, rfl⟩ := hc
    have hrow : (Hold.run u.loaded).Valid p w := hv _ (by simp [holds])
    exact ⟨⟨hk.1, hrow.2⟩, trivial⟩

theorem ClaimNext.knows_step {worker : Worker} {pc : ClaimNext.Pc}
    {r : Progress ClaimNext.Pc (Option UUID)} (hs : step worker w i pc = (e, r)) (hk : Knows pc)
    (hv : ∀ h ∈ holds pc, h.Valid p w) :
    e.Allowed w.tables ∧ r.All Knows := by
  rcases step_cases hs with ⟨rfl, err, rfl⟩ | hc
  · exact ⟨trivial, trivial⟩
  cases pc with
  | lockCapacity =>
    obtain ⟨rfl, rfl⟩ := hc
    exact ⟨trivial, trivial⟩
  | count =>
    obtain ⟨rfl, rfl | ⟨-, rfl⟩⟩ := hc <;>
      exact ⟨trivial, trivial⟩
  | candidate =>
    obtain ⟨rfl, rfl | ⟨run, -, rfl⟩⟩ := hc <;>
      exact ⟨trivial, trivial⟩
  | lockRelease runId releaseId =>
    obtain ⟨release, -, rfl, rfl⟩ := hc
    exact ⟨trivial, trivial⟩
  | lockRun runId release =>
    obtain ⟨row, -, rfl, rfl | ⟨hq, ha, rfl⟩⟩ := hc
    · exact ⟨trivial, trivial⟩
    · exact ⟨trivial, ⟨hq, ha⟩⟩
  | loadRelease release row =>
    obtain ⟨pc', hd, rfl, rfl⟩ := hc
    refine ⟨trivial, ?_⟩
    obtain ⟨definition, -, ⟨-, rfl⟩ | ⟨-, rfl⟩⟩ := decide_ok hd
    · exact start_allowed hk.1 hk.2 _ _
    · exact refuse_allowed hk.1
  | commit u started =>
    obtain ⟨rfl, rfl⟩ := hc
    refine ⟨?_, trivial⟩
    cases u with
    | none => trivial
    | some u =>
      have hrow : (Hold.run u.loaded).Valid p w := hv _ (by simp [holds])
      exact ⟨hk, hrow.2⟩

theorem Reconcile.knows_inspect {t : Tables} {runId : UUID} (hd : t.Dispatched runId) (call : Call)
    (holder : Option Pid) (job : JobObject) : Knows t runId (inspect call holder job) := by
  rcases inspect_cases call holder job with ⟨err, h⟩ | h | ⟨-, ⟨-, h⟩ | ⟨-, h⟩⟩
  · rw [h]; trivial
  · rw [h]; exact ⟨hd, by decide⟩
  · rw [h]; exact hd
  · rw [h]; exact hd

theorem Reconcile.knows_conclude {t : Tables} {runId : UUID} (hi : t.Identified runId) (call : Call)
    (observation : JobObservation) : Knows t runId (conclude call observation) := by
  obtain ⟨row, hr, hs, hu⟩ := hi
  have hd : t.Dispatched runId := ⟨row, hr, hs⟩
  unfold conclude
  split
  · split
    · rename_i htrue
      cases hcode : observation.failureCode with
      | none => simp [truthy, hcode] at htrue
      | some code => exact ⟨hd, by simpa [truthy, hcode] using htrue⟩
    · exact ⟨hd, by decide⟩
  · exact ⟨row, hr, hs, hu⟩
  · trivial

theorem Reconcile.knows_step {helm : Helm} {worker : Worker} {runId : UUID} {pc : Reconcile.Pc}
    {r : Progress Reconcile.Pc Unit} (hs : step helm worker runId p w i pc = (e, r))
    (hk : Knows w.tables runId pc) (hv : ∀ h ∈ holds pc, h.Valid p w) (ha : w.apply p e = some w') :
    e.Allowed w.tables ∧ r.All (Knows w'.tables runId) := by
  have hsame (hc : e.commits = false) : w'.tables = w.tables := tables_apply hc ha
  rcases step_cases hs with ⟨-, rfl | rfl, err, rfl⟩ | hc
  · exact ⟨trivial, trivial⟩
  · exact ⟨trivial, trivial⟩
  cases pc with
  | acquire => rcases hc with ⟨rfl, rfl⟩ | ⟨rfl, rfl⟩ <;> exact ⟨trivial, trivial⟩
  | loadRun =>
    obtain ⟨rfl, row, hf, hrun, rfl⟩ := hc
    exact ⟨trivial, hsame rfl ▸ ⟨row, hf, by simp [hrun]⟩⟩
  | loadRelease row =>
    obtain ⟨rfl, release, -, rfl⟩ := hc
    exact ⟨trivial, hsame rfl ▸ hk⟩
  | loadModel row release =>
    obtain ⟨rfl, definition, -, rfl⟩ := hc
    exact ⟨trivial, hsame rfl ▸ hk⟩
  | observe work seen =>
    obtain ⟨rfl, ⟨-, rfl⟩ | ⟨expected, -, -, -, rfl⟩⟩ := hc
    · exact ⟨trivial, hsame rfl ▸ ⟨hk, by decide⟩⟩
    · exact ⟨trivial, hsame rfl ▸ hk⟩
  | lookup call =>
    obtain ⟨rfl, ⟨job, -, rfl⟩ | ⟨-, ⟨-, rfl⟩ | ⟨-, rfl⟩⟩⟩ := hc
    · exact ⟨trivial, hsame rfl ▸ knows_inspect hk ..⟩
    · exact ⟨trivial, hsame rfl ▸ ⟨hk, by decide⟩⟩
    · exact ⟨trivial, hsame rfl ▸ hk⟩
  | create call =>
    obtain ⟨rfl | ⟨job, rfl⟩, rfl⟩ | ⟨job, rfl, rfl⟩ := hc
    · exact ⟨trivial, hsame rfl ▸ hk⟩
    · exact ⟨trivial, hsame rfl ▸ hk⟩
    · exact ⟨trivial, hsame rfl ▸ knows_inspect hk ..⟩
  | confirm call =>
    obtain ⟨rfl, job, -, rfl⟩ := hc
    exact ⟨trivial, hsame rfl ▸ knows_inspect hk ..⟩
  | readPods call job =>
    obtain ⟨rfl, rfl⟩ := hc
    exact ⟨trivial, hsame rfl ▸ hk⟩
  | lockUid call observation =>
    obtain ⟨row, hf, rfl, rfl⟩ := hc
    obtain ⟨row', hf', hq⟩ := hk
    obtain rfl : row' = row := Option.some.inj (hf'.symm.trans hf)
    exact ⟨trivial, hsame rfl ▸ ⟨⟨row', hf', hq⟩, hq, Table.key_of_find? hf⟩⟩
  | saveUid call observation row =>
    have hrow : (Hold.run row).Valid p w := hv _ (by simp [holds])
    rcases hc with ⟨rfl, rfl⟩ | ⟨hu, rfl, rfl⟩
    · exact ⟨trivial, hsame rfl ▸ ⟨hk.1, by decide⟩⟩
    · have hal : (Change.outcome (savedUid row observation.uid)).Allowed w.tables :=
        ⟨savedUid_allowed hu, by rw [savedUid_loaded]; exact hrow.2⟩
      obtain ⟨-, hq, rfl⟩ := hk
      obtain ⟨tables, ht, rfl⟩ := commit_apply ha
      refine ⟨hal, knows_conclude ⟨(savedUid row observation.uid).row, ?_, ?_⟩ call observation⟩
      · have hf := find?_outcome hal ht row.id
        simpa only [savedUid_loaded, if_true] using hf
      · unfold savedUid
        split
        · exact ⟨hq, fun _ => rfl⟩
        · rename_i hrun
          exact ⟨hq, fun h => absurd h hrun⟩
  | listOutputs call =>
    obtain ⟨row, hf, hq, hu⟩ := hk
    obtain ⟨rfl, outputPrefix, -, ⟨artifacts, -, rfl⟩ | ⟨code, artifacts, hcollect, rfl⟩⟩ := hc
    · exact ⟨trivial, hsame rfl ▸ ⟨row, hf, hq, hu⟩⟩
    · refine ⟨trivial, hsame rfl ▸ ⟨⟨row, hf, hq⟩, ?_⟩⟩
      obtain ⟨-, rfl | rfl⟩ := collect_failure hcollect <;> decide
  | lockFinish seen failureCode artifacts =>
    obtain ⟨row, hf, rfl, rfl⟩ := hc
    refine ⟨trivial, ?_⟩
    cases failureCode with
    | none =>
      obtain ⟨row', hf', hq, hu⟩ := hk
      obtain rfl : row' = row := Option.some.inj (hf'.symm.trans hf)
      exact ⟨finish_allowed hq (fun _ => hu) (fun he => by cases he), finishRow_not_starts⟩
    | some code =>
      obtain ⟨⟨row', hf', hq⟩, hne⟩ := hk
      obtain rfl : row' = row := Option.some.inj (hf'.symm.trans hf)
      exact ⟨finish_allowed hq (fun he => by cases he) (fun he => hne (Option.some.inj he)), finishRow_not_starts⟩
  | finish seen u =>
    obtain ⟨rfl, rfl⟩ := hc
    have hrow : (Hold.run u.loaded).Valid p w := hv _ (by simp [holds])
    exact ⟨⟨hk.1, hrow.2⟩, trivial⟩
  | unwind err => exact hc.elim
  | exit error =>
    obtain ⟨rfl, rfl | ⟨err, rfl⟩⟩ := hc <;> exact ⟨trivial, trivial⟩

theorem allowed_noting {t : Tables} {location : RecordLocation} {outcome : String} :
    (Consumer.noting location outcome e).Allowed t ↔ e.Allowed t := by
  cases e <;> rfl

theorem Consumer.knows_step {d : Decoders} {topic : String} {pc : Consumer.Pc}
    {r : Progress Consumer.Pc Unit} (hs : step d topic p w i pc = (e, r)) (hk : Knows pc)
    (hv : ∀ h ∈ holds pc, h.Valid p w) : e.Allowed w.tables ∧ r.All Knows := by
  have hc := step_cases hs
  cases pc with
  | poll =>
    rcases hc with ⟨rfl, rfl | rfl⟩ | ⟨tp, ⟨-, rfl, rfl⟩ | ⟨record, -, -, rfl, rfl⟩⟩ <;>
      exact ⟨trivial, trivial⟩
  | decode location message =>
    obtain ⟨rfl, ⟨runId, -, rfl⟩ | ⟨rejection, -, rfl⟩⟩ := hc <;> exact ⟨trivial, trivial⟩
  | accept location runId pc =>
    obtain ⟨e₀, r₀, hs₀, hr⟩ := hc
    obtain ⟨hal, hnext⟩ := AcceptRun.knows_step hs₀ hk hv
    rcases hr with ⟨pc', rfl, rfl, rfl⟩ | ⟨outcome, rfl, rfl, rfl⟩ | ⟨message, rfl, rfl, rfl⟩ |
      ⟨err, rfl, rfl, rfl⟩
    · exact ⟨hal, hnext⟩
    · exact ⟨allowed_noting.mpr hal, trivial⟩
    · exact ⟨hal, trivial⟩
    · exact ⟨hal, trivial⟩
  | reject location rejection pc =>
    obtain ⟨e₀, r₀, hs₀, hr⟩ := hc
    have hc₀ := record_cases hs₀
    have hal : e₀.Allowed w.tables := by
      cases pc with
      | insert => rcases hc₀ with ⟨-, rfl, -⟩ | ⟨-, rfl, -⟩ <;> trivial
      | commit message =>
        obtain ⟨rfl, -⟩ := hc₀
        cases message <;> trivial
    rcases hr with ⟨pc', rfl, rfl, rfl⟩ | ⟨-, rfl, rfl⟩
    · exact ⟨hal, trivial⟩
    · exact ⟨allowed_noting.mpr hal, trivial⟩
  | commit location outcome =>
    rcases hc with ⟨rfl, rfl⟩ | ⟨rfl, rfl⟩ <;> exact ⟨trivial, trivial⟩
  | close =>
    obtain ⟨rfl, rfl⟩ := hc
    exact ⟨trivial, trivial⟩

/-- A registration and a publication write no run. -/
theorem Catalog.allowed {definition : ReleaseDefinition} {pc : Catalog.Pc}
    {r : Progress Catalog.Pc ModelRelease} (hs : step definition w i pc = (e, r)) (t : Tables) :
    e.Allowed t := by
  rcases step_cases hs with ⟨rfl, -⟩ | hc
  · trivial
  cases pc with
  | insertModel => rcases hc with ⟨-, rfl, -⟩ | ⟨-, rfl, -⟩ <;> trivial
  | lockModel inserted => obtain ⟨model, -, rfl, -⟩ := hc; trivial
  | selectReleases model inserted => obtain ⟨rfl, -⟩ := hc; trivial
  | lockReleases model inserted remaining found =>
    rcases hc with ⟨id, ids, -, rfl, -⟩ | ⟨-, -, rfl, -⟩ | ⟨-, release, others, -, rfl, -⟩ <;> trivial
  | insertRelease model inserted => obtain ⟨-, row, rfl, -⟩ := hc; trivial
  | activeModes model inserted release => obtain ⟨-, rfl, -⟩ := hc; trivial
  | commit registration => obtain ⟨rfl, -⟩ := hc; trivial

theorem PublishOutbox.allowed {isoformat : Datetime → String} {publisher : Publisher}
    {pc : PublishOutbox.Pc} {r : Progress PublishOutbox.Pc ℕ}
    (hs : step isoformat publisher p w i pc = (e, r)) (t : Tables) : e.Allowed t := by
  rcases step_cases hs with ⟨rfl | rfl, -⟩ | hc
  · trivial
  · trivial
  cases pc with
  | select => obtain ⟨rfl, -⟩ := hc; trivial
  | lockRows remaining claimed =>
    rcases hc with ⟨rfl, -⟩ | ⟨id, ids, -, ⟨rfl, -⟩ | ⟨rfl, -⟩⟩ <;> trivial
  | publish marked todo => rcases hc with ⟨event, rest, -, -, rfl, -⟩ | ⟨-, rfl, -⟩ <;> trivial
  | confirm marked event todo => obtain ⟨rfl, -⟩ := hc; trivial

end Programs

end Mic3

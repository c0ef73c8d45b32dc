import Mic3.Locking

/-! What each program holds at each of its statements: the locks it has taken, and the rows it read under
them. A statement needs no lock that is not held, and leaves held what the next one needs. -/
namespace Mic3
open Relational Interleaving

def SubmitRun.admission (call : SubmitRun) : List Hold :=
  if call.limits.isSome then [.lock (.advisory admissionLock)] else []

def SubmitRun.holds (call : SubmitRun) : Pc → List Hold
  | .getRelease | .lockAdmission .. => []
  | .countTotal .. | .countOwned .. => [.lock (.advisory admissionLock)]
  | .findUser _ | .insertRun _ => call.admission
  | .checkRelease _ row | .checkUser _ row | .insertEvent _ row | .commit _ row _ =>
    .lock (.run row.id) :: call.admission

def Catalog.holds (modelId : String) : Pc → List Hold
  | .insertModel => []
  | .lockModel inserted => if inserted then [.lock (.model modelId)] else []
  | .selectReleases .. | .insertRelease .. => [.lock (.model modelId)]
  | .lockReleases _ _ _ found => .lock (.model modelId) :: found.map .release
  | .activeModes _ _ release => [.lock (.model modelId), .release release]
  | .commit r => .lock (.model modelId) :: match r.release with
    | .create _ => []
    | .edit loaded _ => [.release loaded]

def AcceptRun.holds : Pc → List Hold
  | .readRelease | .lockRelease _ => []
  | .lockRun release => [.release release]
  | .loadRelease release row => [.release release, .run row]
  | .commit release u _ _ => [.release release, .run u.loaded]

def ClaimNext.holds : Pc → List Hold
  | .lockCapacity => []
  | .count | .candidate | .lockRelease .. => [.lock (.advisory capacityLock)]
  | .lockRun _ release => [.lock (.advisory capacityLock), .release release]
  | .loadRelease release row => [.lock (.advisory capacityLock), .release release, .run row]
  | .commit u _ => .lock (.advisory capacityLock) :: (u.map fun u => Hold.run u.loaded).toList

def Reconcile.holds : Pc → List Hold
  | .saveUid _ _ row => [.run row]
  | .finish _ u => [.run u.loaded]
  | _ => []

def PublishOutbox.holds : Pc → List Hold
  | .select => []
  | .lockRows _ claimed => claimed.map .event
  | .publish marked todo => (marked.map Prod.fst ++ todo).map .event
  | .confirm marked event todo => (marked.map Prod.fst ++ event :: todo).map .event

def Consumer.holds : Pc → List Hold
  | .accept _ _ pc => AcceptRun.holds pc
  | .reject _ _ (.commit (some message)) => [.lock (.rejection message.location)]
  | _ => []

def Proc.holds : Proc → List Hold
  | .submit call pc => call.holds pc
  | .register definition pc => Catalog.holds definition.1.modelId pc
  | .accept _ pc => AcceptRun.holds pc
  | .claim _ pc => ClaimNext.holds pc
  | .reconcile _ _ pc => Reconcile.holds pc
  | .publish _ pc => PublishOutbox.holds pc
  | .consume _ pc => Consumer.holds pc
  | .idle | .unwinding => []

/-- The session lock of a reconcile call that acquired it. -/
def Proc.sessionKey : Proc → Option ℤ
  | .reconcile _ _ .acquire => none
  | .reconcile _ runId _ => some (runKey runId)
  | _ => none

def Progress.holds {π ρ : Type} (f : π → List Hold) : Progress π ρ → List Hold
  | .running pc => f pc
  | .returned _ | .raised _ => []

section Programs
variable {p : Pid} {w w' : World} {i : Input} {e : Effect}

theorem SubmitRun.holds_step {call : SubmitRun} {pc : SubmitRun.Pc} {r : Progress SubmitRun.Pc UUID}
    (hs : call.step w i pc = (e, r)) (hv : ∀ h ∈ call.holds pc, h.Valid p w)
    (ha : w.apply p e = some w') : e.Permitted p w ∧ ∀ h ∈ r.holds call.holds, h.Valid p w' := by
  have hkeep (hc : e.continues = true) (h : Hold) (hh : h ∈ call.holds pc) : h.Valid p w' :=
    (hv h hh).continues hc ha
  have hsub : ∀ h ∈ call.admission, h = .lock (.advisory admissionLock) := by
    intro h hh
    unfold admission at hh
    split at hh
    · exact List.mem_singleton.mp hh
    · contradiction
  rcases step_cases hs with ⟨rfl, err, rfl⟩ | hc
  · exact ⟨trivial, List.forall_mem_nil _⟩
  cases pc with
  | getRelease =>
    obtain ⟨s, -, rfl, ⟨limits, -, rfl⟩ | ⟨hnone, rfl⟩⟩ := hc
    · exact ⟨trivial, List.forall_mem_nil _⟩
    · simp [Effect.Permitted, Progress.holds, holds, admission, hnone]
  | lockAdmission s limits =>
    obtain ⟨rfl, rfl⟩ := hc
    exact ⟨trivial, fun h hh => List.mem_singleton.mp hh ▸ owner_of_lock ha⟩
  | countTotal s limits =>
    obtain ⟨rfl, rfl⟩ := hc
    exact ⟨trivial, hkeep rfl⟩
  | countOwned s limits total =>
    obtain ⟨-, rfl, rfl⟩ := hc
    exact ⟨trivial, fun h hh => hkeep rfl h (List.mem_singleton.mpr (hsub h hh))⟩
  | findUser s =>
    obtain ⟨rfl, rfl⟩ := hc
    exact ⟨trivial, hkeep rfl⟩
  | insertRun s =>
    obtain ⟨-, rfl, rfl⟩ := hc
    refine ⟨trivial, fun h hh => ?_⟩
    rcases List.mem_cons.mp hh with rfl | hh
    · exact owner_of_lock ha
    · exact hkeep rfl h hh
  | checkRelease s row =>
    obtain ⟨-, rfl, rfl⟩ := hc
    exact ⟨trivial, hkeep rfl⟩
  | checkUser s row =>
    obtain ⟨⟨user, rfl⟩ | rfl, rfl⟩ := hc
    · exact ⟨trivial, hkeep rfl⟩
    · exact ⟨trivial, hkeep rfl⟩
  | insertEvent s row =>
    obtain ⟨rfl, rfl⟩ := hc
    exact ⟨trivial, hkeep rfl⟩
  | commit s row event =>
    obtain ⟨rfl, rfl⟩ := hc
    exact ⟨trivial, List.forall_mem_nil _⟩

theorem Catalog.holds_step {definition : ReleaseDefinition} {pc : Catalog.Pc}
    {r : Progress Catalog.Pc ModelRelease} (hs : step definition w i pc = (e, r))
    (hv : ∀ h ∈ holds definition.modelId pc, h.Valid p w) (ha : w.apply p e = some w') :
    e.Permitted p w ∧ ∀ h ∈ r.holds (holds definition.modelId), h.Valid p w' := by
  have hkeep (hc : e.continues = true) (h : Hold) (hh : h ∈ holds definition.modelId pc) :
      h.Valid p w' := (hv h hh).continues hc ha
  rcases step_cases hs with ⟨rfl, err, rfl⟩ | hc
  · exact ⟨trivial, List.forall_mem_nil _⟩
  cases pc with
  | insertModel =>
    rcases hc with ⟨-, rfl, rfl⟩ | ⟨-, rfl, rfl⟩
    · exact ⟨trivial, List.forall_mem_nil _⟩
    · exact ⟨trivial, fun h hh => List.mem_singleton.mp hh ▸ owner_of_lock ha⟩
  | lockModel inserted =>
    obtain ⟨model, -, rfl, rfl⟩ := hc
    exact ⟨trivial, fun h hh => List.mem_singleton.mp hh ▸ owner_of_lock ha⟩
  | selectReleases model inserted =>
    obtain ⟨rfl, rfl⟩ := hc
    exact ⟨trivial, hkeep rfl⟩
  | lockReleases model inserted remaining found =>
    rcases hc with ⟨id, ids, rfl, rfl, rfl⟩ | ⟨-, rfl, rfl, rfl⟩ | ⟨-, release, others, rfl, rfl, rfl⟩
    · refine ⟨trivial, fun h hh => ?_⟩
      simp only [Progress.holds, holds, List.map_append, List.mem_cons, List.mem_append,
        List.mem_map, Option.mem_toList, Option.filter_eq_some_iff] at hh
      rcases hh with rfl | ⟨row, hrow, rfl⟩ | ⟨row, ⟨hrow, -⟩, rfl⟩
      · exact hkeep rfl _ List.mem_cons_self
      · exact hkeep rfl _ (List.mem_cons_of_mem _ (List.mem_map_of_mem hrow))
      · exact Hold.valid_release ha hrow
    · exact ⟨trivial, hkeep rfl⟩
    · refine ⟨trivial, fun h hh => hkeep rfl h ?_⟩
      simp only [Progress.holds, holds, List.mem_cons, List.not_mem_nil, or_false] at hh
      rcases hh with rfl | rfl <;> simp [holds]
  | insertRelease model inserted =>
    obtain ⟨-, row, rfl, -, rfl⟩ := hc
    exact ⟨trivial, hkeep rfl⟩
  | activeModes model inserted release =>
    obtain ⟨-, rfl, rfl⟩ := hc
    exact ⟨trivial, hkeep rfl⟩
  | commit registration =>
    obtain ⟨rfl, release, rfl⟩ := hc
    refine ⟨?_, List.forall_mem_nil _⟩
    cases hw : registration.release with
    | create row => simp [Effect.Permitted, hw]
    | edit loaded executionDefinition =>
      have hloaded : (Hold.release loaded).Valid p w := hv _ (by simp [holds, hw])
      simpa [Effect.Permitted, hw] using hloaded.1

theorem AcceptRun.holds_step {runId : UUID} {pc : AcceptRun.Pc} {r : Progress AcceptRun.Pc String}
    (hs : step runId w i pc = (e, r)) (hv : ∀ h ∈ holds pc, h.Valid p w)
    (ha : w.apply p e = some w') : e.Permitted p w ∧ ∀ h ∈ r.holds holds, h.Valid p w' := by
  have hkeep (hc : e.continues = true) (h : Hold) (hh : h ∈ holds pc) : h.Valid p w' :=
    (hv h hh).continues hc ha
  rcases step_cases hs with ⟨rfl, err, rfl⟩ | hc
  · exact ⟨trivial, List.forall_mem_nil _⟩
  cases pc with
  | readRelease =>
    obtain ⟨row, -, rfl, rfl⟩ := hc
    exact ⟨trivial, List.forall_mem_nil _⟩
  | lockRelease releaseId =>
    obtain ⟨release, hf, rfl, rfl⟩ := hc
    exact ⟨trivial, fun h hh => List.mem_singleton.mp hh ▸ Hold.valid_release ha hf⟩
  | lockRun release =>
    obtain ⟨row, hf, rfl, hr⟩ := hc
    have hboth : ∀ h ∈ [Hold.release release, .run row], h.Valid p w' := by
      intro h hh
      rcases List.mem_cons.mp hh with rfl | hh
      · exact hkeep rfl _ List.mem_cons_self
      · exact List.mem_singleton.mp hh ▸ Hold.valid_run ha hf
    rcases hr with ⟨-, rfl⟩ | ⟨-, -, rfl⟩
    · exact ⟨trivial, hboth⟩
    · exact ⟨trivial, hboth⟩
  | loadRelease release row =>
    obtain ⟨pc', hd, rfl, rfl⟩ := hc
    refine ⟨trivial, ?_⟩
    obtain ⟨definition, -, ⟨invocation, -, -, rfl⟩ | ⟨-, rfl⟩⟩ := decide_ok hd
    · simpa only [Progress.holds, holds, saveOutcome_loaded, UnitOfWork.clean_loaded] using hkeep rfl
    · simpa only [Progress.holds, holds, saveOutcome_loaded, UnitOfWork.clean_loaded] using hkeep rfl
  | commit release u outcome entries =>
    obtain ⟨rfl, rfl⟩ := hc
    have hrow : (Hold.run u.loaded).Valid p w := hv _ (by simp [holds])
    exact ⟨hrow.1, List.forall_mem_nil _⟩

theorem ClaimNext.holds_step {worker : Worker} {pc : ClaimNext.Pc}
    {r : Progress ClaimNext.Pc (Option UUID)} (hs : step worker w i pc = (e, r))
    (hv : ∀ h ∈ holds pc, h.Valid p w) (ha : w.apply p e = some w') :
    e.Permitted p w ∧ ∀ h ∈ r.holds holds, h.Valid p w' := by
  have hkeep (hc : e.continues = true) (h : Hold) (hh : h ∈ holds pc) : h.Valid p w' :=
    (hv h hh).continues hc ha
  rcases step_cases hs with ⟨rfl, err, rfl⟩ | hc
  · exact ⟨trivial, List.forall_mem_nil _⟩
  cases pc with
  | lockCapacity =>
    obtain ⟨rfl, rfl⟩ := hc
    exact ⟨trivial, fun h hh => List.mem_singleton.mp hh ▸ owner_of_lock ha⟩
  | count =>
    obtain ⟨rfl, rfl | ⟨-, rfl⟩⟩ := hc
    · exact ⟨trivial, hkeep rfl⟩
    · exact ⟨trivial, hkeep rfl⟩
  | candidate =>
    obtain ⟨rfl, rfl | ⟨run, -, rfl⟩⟩ := hc
    · exact ⟨trivial, hkeep rfl⟩
    · exact ⟨trivial, hkeep rfl⟩
  | lockRelease runId releaseId =>
    obtain ⟨release, hf, rfl, rfl⟩ := hc
    refine ⟨trivial, fun h hh => ?_⟩
    rcases List.mem_cons.mp hh with rfl | hh
    · exact hkeep rfl _ List.mem_cons_self
    · exact List.mem_singleton.mp hh ▸ Hold.valid_release ha hf
  | lockRun runId release =>
    obtain ⟨row, hf, rfl, hr⟩ := hc
    have hall : ∀ h ∈ holds (.loadRelease release row), h.Valid p w' := by
      intro h hh
      simp only [holds, List.mem_cons, List.not_mem_nil, or_false] at hh
      rcases hh with rfl | rfl | rfl
      · exact hkeep rfl _ (by simp [holds])
      · exact hkeep rfl _ (by simp [holds])
      · exact Hold.valid_run ha hf
    rcases hr with rfl | ⟨-, -, rfl⟩
    · exact ⟨trivial, fun h hh => hall h (List.mem_singleton.mp hh ▸ List.mem_cons_self)⟩
    · exact ⟨trivial, hall⟩
  | loadRelease release row =>
    obtain ⟨pc', hd, rfl, rfl⟩ := hc
    have hall : ∀ h ∈ [Hold.lock (.advisory capacityLock), .run row], h.Valid p w' := by
      intro h hh
      simp only [List.mem_cons, List.not_mem_nil, or_false] at hh
      rcases hh with rfl | rfl
      · exact hkeep rfl _ (by simp [holds])
      · exact hkeep rfl _ (by simp [holds])
    obtain ⟨definition, -, ⟨-, rfl⟩ | ⟨-, rfl⟩⟩ := decide_ok hd
    · exact ⟨trivial, hall⟩
    · refine ⟨trivial, ?_⟩
      simpa only [Progress.holds, holds, Option.map_some, finishRow_loaded, UnitOfWork.clean_loaded,
        Option.toList_some] using hall
  | commit u started =>
    obtain ⟨rfl, rfl⟩ := hc
    refine ⟨?_, List.forall_mem_nil _⟩
    cases u with
    | some u =>
      have hrow : (Hold.run u.loaded).Valid p w := hv _ (by simp [holds])
      exact hrow.1
    | none => trivial

theorem Reconcile.holds_inspect (call : Call) (holder : Option Pid) (job : JobObject) :
    holds (inspect call holder job) = [] := by
  rcases inspect_cases call holder job with ⟨err, h⟩ | h | ⟨-, ⟨-, h⟩ | ⟨-, h⟩⟩ <;> rw [h] <;> rfl

theorem Reconcile.holds_conclude (call : Call) (observation : JobObservation) :
    holds (conclude call observation) = [] := by
  unfold conclude
  split <;> rfl

theorem Reconcile.savedUid_loaded (row : Run) (uid : String) : (savedUid row uid).loaded = row := by
  unfold savedUid
  split <;> rfl

theorem Reconcile.holds_step {helm : Helm} {worker : Worker} {runId : UUID} {pc : Reconcile.Pc}
    {r : Progress Reconcile.Pc Unit} (hs : step helm worker runId p w i pc = (e, r))
    (hv : ∀ h ∈ holds pc, h.Valid p w)
    (hkey : pc ≠ .acquire → w.pg.sessionLocks (runKey runId) = some p)
    (ha : w.apply p e = some w') :
    e.Permitted p w ∧ ∀ h ∈ r.holds holds, h.Valid p w' := by
  have hnil : ∀ h ∈ ([] : List Hold), h.Valid p w' := List.forall_mem_nil _
  rcases step_cases hs with ⟨hpc, rfl | rfl, err, rfl⟩ | hc
  · exact ⟨trivial, hnil⟩
  · exact ⟨trivial, hnil⟩
  cases pc with
  | acquire =>
    rcases hc with ⟨rfl, rfl⟩ | ⟨rfl, rfl⟩
    · exact ⟨trivial, hnil⟩
    · exact ⟨trivial, hnil⟩
  | loadRun =>
    obtain ⟨rfl, row, -, -, rfl⟩ := hc
    exact ⟨trivial, hnil⟩
  | loadRelease row =>
    obtain ⟨rfl, release, -, rfl⟩ := hc
    exact ⟨trivial, hnil⟩
  | loadModel row release =>
    obtain ⟨rfl, definition, -, rfl⟩ := hc
    exact ⟨trivial, hnil⟩
  | observe work seen =>
    obtain ⟨rfl, ⟨-, rfl⟩ | ⟨expected, -, -, -, rfl⟩⟩ := hc
    · exact ⟨trivial, hnil⟩
    · exact ⟨trivial, hnil⟩
  | lookup call =>
    obtain ⟨rfl, ⟨job, -, rfl⟩ | ⟨-, ⟨-, rfl⟩ | ⟨-, rfl⟩⟩⟩ := hc
    · exact ⟨trivial, by simpa only [Progress.holds, holds_inspect] using hnil⟩
    · exact ⟨trivial, hnil⟩
    · exact ⟨trivial, hnil⟩
  | create call =>
    obtain ⟨rfl | ⟨job, rfl⟩, rfl⟩ | ⟨job, rfl, rfl⟩ := hc
    · exact ⟨trivial, hnil⟩
    · exact ⟨trivial, hnil⟩
    · exact ⟨trivial, by simpa only [Progress.holds, holds_inspect] using hnil⟩
  | confirm call =>
    obtain ⟨rfl, job, -, rfl⟩ := hc
    exact ⟨trivial, by simpa only [Progress.holds, holds_inspect] using hnil⟩
  | readPods call job =>
    obtain ⟨rfl, rfl⟩ := hc
    exact ⟨trivial, hnil⟩
  | lockUid call observation =>
    obtain ⟨row, hf, rfl, rfl⟩ := hc
    exact ⟨trivial, fun h hh => List.mem_singleton.mp hh ▸ Hold.valid_run ha hf⟩
  | saveUid call observation row =>
    have hrow : (Hold.run row).Valid p w := hv _ (by simp [holds])
    rcases hc with ⟨rfl, rfl⟩ | ⟨-, rfl, rfl⟩
    · exact ⟨trivial, hnil⟩
    · refine ⟨?_, by simpa only [Progress.holds, holds_conclude] using hnil⟩
      simpa only [Effect.Permitted, savedUid_loaded] using hrow.1
  | listOutputs call =>
    obtain ⟨rfl, outputPrefix, -, ⟨artifacts, -, rfl⟩ | ⟨code, artifacts, -, rfl⟩⟩ := hc
    · exact ⟨trivial, hnil⟩
    · exact ⟨trivial, hnil⟩
  | lockFinish seen failureCode artifacts =>
    obtain ⟨row, hf, rfl, rfl⟩ := hc
    refine ⟨trivial, ?_⟩
    simp only [Progress.holds, finishing, holds, finishRow_loaded, UnitOfWork.clean_loaded]
    exact fun h hh => List.mem_singleton.mp hh ▸ Hold.valid_run ha hf
  | finish seen u =>
    obtain ⟨rfl, rfl⟩ := hc
    have hrow : (Hold.run u.loaded).Valid p w := hv _ (by simp [holds])
    exact ⟨hrow.1, hnil⟩
  | unwind err => exact hc.elim
  | exit error =>
    obtain ⟨rfl, rfl | ⟨err, rfl⟩⟩ := hc
    · exact ⟨hkey (fun he => by cases he), hnil⟩
    · exact ⟨hkey (fun he => by cases he), hnil⟩

/-- Only the statement that leaves `locked()` unlocks. -/
theorem Reconcile.unlocks_at_exit {helm : Helm} {worker : Worker} {runId : UUID} {pc : Reconcile.Pc}
    {r : Progress Reconcile.Pc Unit} (hs : step helm worker runId p w i pc = (e, r))
    (hpc : ∀ error, pc ≠ .exit error) : (∀ j, e ≠ .sessionUnlock j) ∧ e ≠ .disconnect := by
  rcases step_cases hs with ⟨-, rfl | rfl, -⟩ | hc
  · exact ⟨nofun, nofun⟩
  · exact ⟨nofun, nofun⟩
  cases pc with
  | exit error => exact absurd rfl (hpc error)
  | unwind err => exact hc.elim
  | _ => grind

theorem Reconcile.session_step {helm : Helm} {worker : Worker} {runId : UUID} {pc : Reconcile.Pc}
    {r : Progress Reconcile.Pc Unit} (hs : step helm worker runId p w i pc = (e, r))
    (hkey : pc ≠ .acquire → w.pg.sessionLocks (runKey runId) = some p)
    (ha : w.apply p e = some w') {pc' : Pc} (hr : r = .running pc') :
    w'.pg.sessionLocks (runKey runId) = some p := by
  by_cases hpc : ∃ error, pc = .exit error
  · obtain ⟨error, rfl⟩ := hpc
    rcases step_cases hs with ⟨-, rfl | rfl, -⟩ | ⟨-, rfl | ⟨err, rfl⟩⟩
    · exact session_apply ha nofun nofun (hkey nofun)
    · exact session_apply ha nofun nofun (hkey nofun)
    · exact nomatch hr
    · exact nomatch hr
  · obtain ⟨hu, hd⟩ := unlocks_at_exit hs (not_exists.mp hpc)
    by_cases hacq : pc = .acquire
    · subst hacq
      rcases step_cases hs with ⟨hne, -⟩ | ⟨rfl, rfl⟩ | ⟨rfl, rfl⟩
      · exact absurd rfl hne
      · exact nomatch hr
      · obtain ⟨-, rfl⟩ := sessionLock_apply ha
        exact Function.update_self ..
    · exact session_apply ha hu hd (hkey hacq)

theorem PublishOutbox.holds_step {isoformat : Datetime → String} {publisher : Publisher}
    {pc : PublishOutbox.Pc} {r : Progress PublishOutbox.Pc ℕ}
    (hs : step isoformat publisher p w i pc = (e, r)) (hv : ∀ h ∈ holds pc, h.Valid p w)
    (ha : w.apply p e = some w') : e.Permitted p w ∧ ∀ h ∈ r.holds holds, h.Valid p w' := by
  have hkeep (hc : e.continues = true) (h : Hold) (hh : h ∈ holds pc) : h.Valid p w' :=
    (hv h hh).continues hc ha
  rcases step_cases hs with ⟨rfl | rfl, err, rfl⟩ | hc
  · exact ⟨trivial, List.forall_mem_nil _⟩
  · exact ⟨trivial, List.forall_mem_nil _⟩
  cases pc with
  | select =>
    obtain ⟨rfl, rfl⟩ := hc
    exact ⟨trivial, hkeep rfl⟩
  | lockRows remaining claimed =>
    rcases hc with ⟨rfl, rfl⟩ | ⟨id, ids, rfl, ⟨rfl, rfl⟩ | ⟨rfl, rfl⟩⟩
    · exact ⟨trivial, hkeep rfl⟩
    · exact ⟨trivial, hkeep rfl⟩
    · refine ⟨trivial, fun h hh => ?_⟩
      simp only [Progress.holds, holds, List.map_append, List.mem_append, List.mem_map,
        Option.mem_toList, Option.filter_eq_some_iff] at hh
      rcases hh with ⟨row, hrow, rfl⟩ | ⟨row, ⟨hrow, -⟩, rfl⟩
      · exact hkeep rfl _ (List.mem_map_of_mem hrow)
      · exact Hold.valid_event ha hrow
  | publish marked todo =>
    rcases hc with ⟨event, rest, rfl, -, rfl, rfl⟩ | ⟨rfl, rfl, rfl⟩
    · exact ⟨trivial, hkeep rfl⟩
    · refine ⟨fun mark hm => ?_, List.forall_mem_nil _⟩
      obtain ⟨⟨event, time⟩, hmem, rfl⟩ := List.mem_map.mp hm
      have hevent : (Hold.event event).Valid p w :=
        hv _ (List.mem_map_of_mem (List.mem_append_left _ (List.mem_map_of_mem hmem)))
      exact hevent.1
  | confirm marked event todo =>
    obtain ⟨rfl, rfl⟩ := hc
    refine ⟨trivial, ?_⟩
    simpa only [Progress.holds, holds, List.map_append, List.map_cons, List.map_nil, List.append_assoc,
      List.singleton_append] using hkeep rfl

theorem permitted_noting {location : RecordLocation} {outcome : String} :
    (Consumer.noting location outcome e).Permitted p w ↔ e.Permitted p w := by
  cases e with
  | commit change entries => cases change <;> rfl
  | _ => rfl

/-- Noting an outcome changes the history only. -/
theorem apply_noting {location : RecordLocation} {outcome : String}
    (ha : w.apply p (Consumer.noting location outcome e) = some w') :
    ∃ w₀, w.apply p e = some w₀ ∧ w₀.pg = w'.pg ∧ w₀.cluster = w'.cluster ∧ w₀.broker = w'.broker := by
  cases e with
  | commit change entries =>
    obtain ⟨tables, ht, rfl⟩ := commit_apply ha
    refine ⟨{ w with
      pg := { w.pg with tables, locks := w.pg.locks.release p }
      history := entries ++ w.history }, ?_, rfl, rfl, rfl⟩
    simp only [World.apply, ht, Option.map_some]
  | _ => exact ⟨w', ha, rfl, rfl, rfl⟩

theorem Hold.Valid.of_pg {h : Hold} {w₀ : World} (hv : h.Valid p w₀) (hpg : w₀.pg = w'.pg) :
    h.Valid p w' := by
  cases h <;> simpa only [Hold.Valid, World.tables, hpg] using hv

theorem Consumer.holds_step {d : Decoders} {topic : String} {pc : Consumer.Pc}
    {r : Progress Consumer.Pc Unit} (hs : step d topic p w i pc = (e, r))
    (hv : ∀ h ∈ holds pc, h.Valid p w) (ha : w.apply p e = some w') :
    e.Permitted p w ∧ ∀ h ∈ r.holds holds, h.Valid p w' := by
  have hkeep (hc : e.continues = true) (h : Hold) (hh : h ∈ holds pc) : h.Valid p w' :=
    (hv h hh).continues hc ha
  have hnil : ∀ h ∈ ([] : List Hold), h.Valid p w' := List.forall_mem_nil _
  have hc := step_cases hs
  cases pc with
  | poll =>
    rcases hc with ⟨rfl, rfl | rfl⟩ | ⟨tp, ⟨-, rfl, rfl⟩ | ⟨record, -, -, rfl, rfl⟩⟩ <;>
      exact ⟨trivial, hnil⟩
  | decode location message =>
    obtain ⟨rfl, ⟨runId, -, rfl⟩ | ⟨rejection, -, rfl⟩⟩ := hc
    · exact ⟨trivial, hnil⟩
    · exact ⟨trivial, hnil⟩
  | accept location runId pc =>
    obtain ⟨e₀, r₀, hs₀, hr⟩ := hc
    obtain ⟨w₀, ha₀, hpg⟩ : ∃ w₀, w.apply p e₀ = some w₀ ∧ w₀.pg = w'.pg := by
      rcases hr with ⟨_, _, rfl, _⟩ | ⟨_, _, rfl, _⟩ | ⟨_, _, rfl, _⟩ | ⟨_, _, rfl, _⟩
      · exact ⟨w', ha, rfl⟩
      · obtain ⟨w₀, ha₀, hpg, -⟩ := apply_noting ha
        exact ⟨w₀, ha₀, hpg⟩
      · exact ⟨w', ha, rfl⟩
      · exact ⟨w', ha, rfl⟩
    obtain ⟨hp, hheld⟩ := AcceptRun.holds_step hs₀ hv ha₀
    rcases hr with ⟨pc', rfl, rfl, rfl⟩ | ⟨outcome, rfl, rfl, rfl⟩ | ⟨message, rfl, rfl, rfl⟩ |
      ⟨err, rfl, rfl, rfl⟩
    · exact ⟨hp, fun h hh => (hheld h hh).of_pg hpg⟩
    · exact ⟨permitted_noting.mpr hp, hnil⟩
    · exact ⟨hp, hnil⟩
    · exact ⟨hp, hnil⟩
  | reject location rejection pc =>
    obtain ⟨e₀, r₀, hs₀, hr⟩ := hc
    have hc₀ := record_cases hs₀
    cases pc with
    | insert =>
      rcases hc₀ with ⟨-, rfl, rfl⟩ | ⟨-, rfl, rfl⟩
      · rcases hr with ⟨pc', hpc, rfl, rfl⟩ | ⟨h, -⟩
        · obtain rfl := Progress.running.inj hpc
          exact ⟨trivial, hnil⟩
        · exact nomatch h
      · rcases hr with ⟨pc', hpc, rfl, rfl⟩ | ⟨h, -⟩
        · obtain rfl := Progress.running.inj hpc
          exact ⟨trivial, fun h hh => List.mem_singleton.mp hh ▸ owner_of_lock ha⟩
        · exact nomatch h
    | commit message =>
      obtain ⟨rfl, rfl⟩ := hc₀
      rcases hr with ⟨pc', h, -⟩ | ⟨-, rfl, rfl⟩
      · exact nomatch h
      · cases message <;> exact ⟨trivial, hnil⟩
  | commit location outcome =>
    rcases hc with ⟨rfl, rfl⟩ | ⟨rfl, rfl⟩
    · exact ⟨trivial, hnil⟩
    · exact ⟨trivial, hnil⟩
  | close =>
    obtain ⟨rfl, rfl⟩ := hc
    exact ⟨trivial, hnil⟩

end Programs

end Mic3

import Mic3.Reconciliation

/-! `KubernetesJobs.observe_or_create` as the calls it makes to the API server, each answered in any way: an
object, an HTTP error, or no answer at all. -/
namespace Mic3

/-- Why a call has no result: an `ApiException` with its status, or an error of the transport. -/
inductive Fault where
  | status (code : ℕ)
  | transport
  deriving DecidableEq

/-- A call to the API server with its answer. -/
inductive ApiCall where
  | readJob («namespace» name : String) (answer : Except Fault JobObject)
  | createJob («namespace» : String) (body : Json) (answer : Except Fault JobObject)
  | listPods («namespace» selector : String) (answer : Except Fault (List Pod))

/-- What the server answers to the n-th call, if it is of this kind. -/
structure ApiServer where
  readJob : ℕ → Except Fault JobObject
  createJob : ℕ → Except Fault JobObject
  listPods : ℕ → Except Fault (List Pod)

namespace ApiCall

def isCreate : ApiCall → Bool
  | .createJob .. => true
  | _ => false

/-- The Job that the server returned. -/
def returned : ApiCall → Option JobObject
  | .readJob _ _ (.ok job) | .createJob _ _ (.ok job) => some job
  | _ => none

def fault : ApiCall → Option Fault
  | .readJob _ _ (.error f) | .createJob _ _ (.error f) | .listPods _ _ (.error f) => some f
  | _ => none

end ApiCall

/-- The uid of the run's Job, once it is known; Python takes an empty text for none. -/
def ExecutionWork.recordedUid (work : ExecutionWork) : Option String := work.jobUid.filter (· ≠ "")

/-- The first condition that decides. -/
def JobObject.state (job : JobObject) : JobState :=
  if job.holds "Failed" then .failed else if job.holds "Complete" then .succeeded else .active

/-- What leaves a block: an error of a call, or any other exception. -/
inductive Trouble where
  | fault (f : Fault)
  | raised (e : Raised)

/-- A computation that calls the server: its result, and the calls so far. -/
def Exchange (α : Type) : Type := List ApiCall → Except Trouble α × List ApiCall

namespace Exchange
variable {α β : Type}

instance : Monad Exchange where
  pure a calls := (.ok a, calls)
  bind x f calls :=
    match x calls with
    | (.ok a, calls) => f a calls
    | (.error e, calls) => (.error e, calls)

theorem bind_ok {x : Exchange α} {f : α → Exchange β} {calls calls' : List ApiCall} {a : α}
    (h : x calls = (.ok a, calls')) : (x >>= f) calls = f a calls' := by
  simp only [bind, h]

theorem bind_error {x : Exchange α} {f : α → Exchange β} {calls calls' : List ApiCall} {e : Trouble}
    (h : x calls = (.error e, calls')) : (x >>= f) calls = (.error e, calls') := by
  simp only [bind, h]

theorem bind_congr {x y : Exchange α} {f : α → Exchange β} {calls calls' : List ApiCall} (h : x calls = y calls') :
    (x >>= f) calls = (y >>= f) calls' := by
  simp only [bind, h]

def throw (e : Trouble) : Exchange α := fun calls => (.error e, calls)

/-- `try: x except TRANSPORT_ERRORS: handler`. -/
def handle (x : Exchange α) (handler : Fault → Exchange α) : Exchange α := fun calls =>
  match x calls with
  | (.error (.fault f), calls) => handler f calls
  | result => result

/-- One call, with the answer to it. -/
def call (answer : ℕ → Except Fault α) (record : Except Fault α → ApiCall) : Exchange α := fun calls =>
  ((answer calls.length).mapError .fault, calls ++ [record (answer calls.length)])

def raising (result : Except Raised α) : Exchange α := fun calls => (result.mapError .raised, calls)

end Exchange

namespace KubernetesJobs

section Calls
variable (server : ApiServer) (work : ExecutionWork) («namespace» : String)

def readNamespacedJob : Exchange JobObject := .call server.readJob (.readJob «namespace» work.jobName)

def createNamespacedJob (body : Json) : Exchange JobObject := .call server.createJob (.createJob «namespace» body)

def listNamespacedPod : Exchange (List Pod) :=
  .call server.listPods (.listPods «namespace» ("job-name=" ++ work.jobName))

/-- `_get`: a missing Job is no error. -/
def getJob : Exchange (Option JobObject) :=
  .handle (do return some (← readNamespacedJob server work «namespace»)) fun f =>
    if f = .status 404 then return none else .throw (.fault f)

/-- The handler of a failed create. -/
def confirmJob : Exchange JobObject := do
  match ← getJob server work «namespace» with
  | some actual => return actual
  | none => .throw (.raised (.infrastructureUnavailable
      "Job creation unconfirmed; retry deterministic lookup."))

/-- `_find_or_create`. -/
def findOrCreate (expected : Json) : Exchange JobObject := do
  match ← getJob server work «namespace» with
  | some actual => return actual
  | none =>
    if truthy work.jobUid then .throw (.raised (.executionFailure "job_lost" []))
    else .handle (createNamespacedJob server «namespace» expected) fun _ => confirmJob server work «namespace»

/-- What is concluded from the object. -/
def report (actual : JobObject) : Exchange JobObservation :=
  if actual.holds "Failed" then do
    let pods ← listNamespacedPod server work «namespace»
    return ⟨actual.uid, .failed, some (failureReason actual.uid pods)⟩
  else return ⟨actual.uid, if actual.holds "Complete" then .succeeded else .active, none⟩

def judge (expected : Json) (actual : JobObject) : Exchange JobObservation := do
  Exchange.raising (verifyContract work actual expected)
  report server work «namespace» actual

/-- The block under `try`. -/
def observe (expected : Json) : Exchange JobObservation := do
  let actual ← findOrCreate server work «namespace» expected
  judge server work «namespace» expected actual

end Calls

/-- The handler of `TRANSPORT_ERRORS`. -/
def translate : Except Trouble JobObservation → Except Raised JobObservation
  | .ok observation => .ok observation
  | .error (.fault _) => .error Reconcile.unavailable
  | .error (.raised e) => .error e

/-- The result of `observe_or_create`, and the calls it made. -/
def observeOrCreate (server : ApiServer) (helm : Helm) (worker : Worker) (work : ExecutionWork) :
    Except Raised JobObservation × List ApiCall :=
  if work.namespace ≠ some worker.namespace then
    (.error (.infrastructureUnavailable "Execution namespace changed; restore its configuration."), [])
  else match render helm worker.chart worker.namespace work with
    | .error e => (.error e, [])
    | .ok expected =>
      let (result, calls) := observe server work worker.namespace expected []
      (translate result, calls)

/-- A read of the run's Job. -/
def readOf (work : ExecutionWork) («namespace» : String) (answer : Except Fault JobObject) : ApiCall :=
  .readJob «namespace» work.jobName answer

/-- The ways of the search: its result and its calls. -/
inductive Search (work : ExecutionWork) («namespace» : String) (expected : Json) :
    Except Trouble JobObject → List ApiCall → Prop where
  | adopted (job) : Search work «namespace» expected (.ok job) [readOf work «namespace» (.ok job)]
  | unreadable (f) (hf : f ≠ .status 404) : Search work «namespace» expected (.error (.fault f))
      [readOf work «namespace» (.error f)]
  | lost (h : truthy work.jobUid = true) : Search work «namespace» expected
      (.error (.raised (.executionFailure "job_lost" []))) [readOf work «namespace» (.error (.status 404))]
  | created (job) (h : truthy work.jobUid = false) : Search work «namespace» expected (.ok job)
      [readOf work «namespace» (.error (.status 404)), .createJob «namespace» expected (.ok job)]
  | recovered (f job) (h : truthy work.jobUid = false) : Search work «namespace» expected (.ok job)
      [readOf work «namespace» (.error (.status 404)), .createJob «namespace» expected (.error f),
        readOf work «namespace» (.ok job)]
  | unconfirmed (f) (h : truthy work.jobUid = false) : Search work «namespace» expected
      (.error (.raised (.infrastructureUnavailable "Job creation unconfirmed; retry deterministic lookup.")))
      [readOf work «namespace» (.error (.status 404)), .createJob «namespace» expected (.error f),
        readOf work «namespace» (.error (.status 404))]
  | interrupted (f f') (h : truthy work.jobUid = false) (hf : f' ≠ .status 404) :
      Search work «namespace» expected (.error (.fault f'))
      [readOf work «namespace» (.error (.status 404)), .createJob «namespace» expected (.error f),
        readOf work «namespace» (.error f')]

/-- The ways of the judgement of an object: its result and its calls. -/
inductive Judgement (work : ExecutionWork) («namespace» : String) (expected : Json) (job : JobObject) :
    Except Trouble JobObservation → List ApiCall → Prop where
  | refused (e) (h : verifyContract work job expected = .error e) :
      Judgement work «namespace» expected job (.error (.raised e)) []
  | failed (pods) (h : verifyContract work job expected = .ok ()) (hf : job.holds "Failed" = true) :
      Judgement work «namespace» expected job (.ok ⟨job.uid, .failed, some (failureReason job.uid pods)⟩)
        [.listPods «namespace» ("job-name=" ++ work.jobName) (.ok pods)]
  | unreadable (f) (h : verifyContract work job expected = .ok ()) (hf : job.holds "Failed" = true) :
      Judgement work «namespace» expected job (.error (.fault f))
        [.listPods «namespace» ("job-name=" ++ work.jobName) (.error f)]
  | unfailed (h : verifyContract work job expected = .ok ()) (hf : job.holds "Failed" = false) :
      Judgement work «namespace» expected job
        (.ok ⟨job.uid, if job.holds "Complete" then .succeeded else .active, none⟩) []

section Cases
variable {server : ApiServer} (work : ExecutionWork) («namespace» : String) (expected : Json)
  (calls : List ApiCall) {job : JobObject} {f : Fault}

theorem getJob_found (h : server.readJob calls.length = .ok job) :
    getJob server work «namespace» calls = (.ok (some job), calls ++ [readOf work «namespace» (.ok job)]) := by
  simp only [getJob, Exchange.handle, readNamespacedJob, bind, Exchange.call, h]
  rfl

theorem getJob_missing (h : server.readJob calls.length = .error (.status 404)) :
    getJob server work «namespace» calls =
      (.ok none, calls ++ [readOf work «namespace» (.error (.status 404))]) := by
  simp only [getJob, Exchange.handle, readNamespacedJob, bind, Exchange.call, h]
  rfl

theorem getJob_error (h : server.readJob calls.length = .error f) (hf : f ≠ .status 404) :
    getJob server work «namespace» calls =
      (.error (.fault f), calls ++ [readOf work «namespace» (.error f)]) := by
  simp only [getJob, Exchange.handle, readNamespacedJob, bind, Exchange.call, h, Except.mapError, if_neg hf]
  rfl

theorem confirm_found (h : server.readJob calls.length = .ok job) :
    confirmJob server work «namespace» calls = (.ok job, calls ++ [readOf work «namespace» (.ok job)]) :=
  Exchange.bind_ok (getJob_found work «namespace» calls h)

theorem confirm_missing (h : server.readJob calls.length = .error (.status 404)) :
    confirmJob server work «namespace» calls = (.error (.raised (.infrastructureUnavailable
      "Job creation unconfirmed; retry deterministic lookup.")),
      calls ++ [readOf work «namespace» (.error (.status 404))]) :=
  Exchange.bind_ok (getJob_missing work «namespace» calls h)

theorem confirm_error (h : server.readJob calls.length = .error f) (hf : f ≠ .status 404) :
    confirmJob server work «namespace» calls = (.error (.fault f), calls ++ [readOf work «namespace» (.error f)]) :=
  Exchange.bind_error (getJob_error work «namespace» calls h hf)

theorem create_created (h : server.createJob calls.length = .ok job) :
    createNamespacedJob server «namespace» expected calls =
      (.ok job, calls ++ [.createJob «namespace» expected (.ok job)]) := by
  simp only [createNamespacedJob, Exchange.call, h]
  rfl

theorem create_error (h : server.createJob calls.length = .error f) :
    createNamespacedJob server «namespace» expected calls =
      (.error (.fault f), calls ++ [.createJob «namespace» expected (.error f)]) := by
  simp only [createNamespacedJob, Exchange.call, h]
  rfl

theorem findOrCreate_search (server : ApiServer) (work : ExecutionWork) («namespace» : String) (expected : Json) :
    Search work «namespace» expected (findOrCreate server work «namespace» expected []).1
      (findOrCreate server work «namespace» expected []).2 := by
  -- The first read decides whether there is a create, and its answer whether there is a second read.
  cases hread : server.readJob 0 with
  | ok job =>
    simp only [findOrCreate, bind, getJob_found work «namespace» [] hread]
    exact .adopted job
  | error f =>
    by_cases hf : f = .status 404
    · subst hf
      cases htruthy : truthy work.jobUid with
      | true =>
        simp only [findOrCreate, bind, getJob_missing work «namespace» [] hread, htruthy, if_true]
        exact .lost htruthy
      | false =>
        simp only [findOrCreate, bind, getJob_missing work «namespace» [] hread, htruthy, Bool.false_eq_true, if_false,
          List.nil_append, Exchange.handle]
        cases hcreate : server.createJob 1 with
        | ok job =>
          rw [create_created «namespace» expected [_] hcreate]
          exact .created job htruthy
        | error f =>
          rw [create_error «namespace» expected [_] hcreate]
          cases hreread : server.readJob 2 with
          | ok job =>
            simp only [List.cons_append, List.nil_append, confirm_found work «namespace» [_, _] hreread]
            exact .recovered f job htruthy
          | error f' =>
            by_cases hf' : f' = .status 404
            · subst hf'
              simp only [List.cons_append, List.nil_append, confirm_missing work «namespace» [_, _] hreread]
              exact .unconfirmed f htruthy
            · simp only [List.cons_append, List.nil_append, confirm_error work «namespace» [_, _] hreread hf']
              exact .interrupted f f' htruthy hf'
    · simp only [findOrCreate, bind, getJob_error work «namespace» [] hread hf]
      exact .unreadable f hf

theorem judge_judgement (server : ApiServer) (work : ExecutionWork) («namespace» : String) (expected : Json)
    (job : JobObject) (calls : List ApiCall) : ∃ result more,
    judge server work «namespace» expected job calls = (result, calls ++ more) ∧
      Judgement work «namespace» expected job result more := by
  cases hverify : verifyContract work job expected with
  | error e =>
    have hraise : Exchange.raising (verifyContract work job expected) calls = (.error (.raised e), calls) := by
      rw [hverify]
      rfl
    refine ⟨.error (.raised e), [], ?_, .refused e hverify⟩
    rw [judge, Exchange.bind_error hraise, List.append_nil]
  | ok =>
    have hraise : Exchange.raising (verifyContract work job expected) calls = (.ok (), calls) := by
      rw [hverify]
      rfl
    rw [judge, Exchange.bind_ok hraise, report]
    cases hf : job.holds "Failed" with
    | false => exact ⟨_, [], by rw [List.append_nil]; rfl, .unfailed hverify hf⟩
    | true =>
      rw [if_pos rfl]
      cases hpods : server.listPods calls.length with
      | ok pods =>
        have hlist : listNamespacedPod server work «namespace» calls =
            (.ok pods, calls ++ [.listPods «namespace» ("job-name=" ++ work.jobName) (.ok pods)]) := by
          rw [listNamespacedPod, Exchange.call, hpods]
          rfl
        exact ⟨_, _, Exchange.bind_ok hlist, .failed pods hverify hf⟩
      | error f =>
        have hlist : listNamespacedPod server work «namespace» calls =
            (.error (.fault f), calls ++ [.listPods «namespace» ("job-name=" ++ work.jobName) (.error f)]) := by
          rw [listNamespacedPod, Exchange.call, hpods]
          rfl
        exact ⟨_, _, Exchange.bind_error hlist, .unreadable f hverify hf⟩

/-- A run of `observe` is a search, and a judgement of the object it found. -/
theorem observe_cases (server : ApiServer) (work : ExecutionWork) («namespace» : String) (expected : Json) :
    (∃ e calls, observe server work «namespace» expected [] = (.error e, calls) ∧
      Search work «namespace» expected (.error e) calls) ∨
    ∃ job calls result more, observe server work «namespace» expected [] = (result, calls ++ more) ∧
      Search work «namespace» expected (.ok job) calls ∧ Judgement work «namespace» expected job result more := by
  have hsearch := findOrCreate_search server work «namespace» expected
  cases hfound : findOrCreate server work «namespace» expected [] with
  | mk result calls =>
    rw [hfound] at hsearch
    cases result with
    | error e =>
      refine .inl ⟨e, calls, ?_, hsearch⟩
      simp only [observe, bind, hfound]
    | ok job =>
      obtain ⟨result, more, hjudge, hjudgement⟩ := judge_judgement server work «namespace» expected job calls
      refine .inr ⟨job, calls, result, more, ?_, hsearch, hjudgement⟩
      simp only [observe, bind, hfound, hjudge]

end Cases

section Adoption
variable {work : ExecutionWork} {«namespace» : String} {expected : Json} {job : JobObject}

theorem truthy_iff_recorded : truthy work.jobUid = work.recordedUid.isSome := by
  cases huid : work.jobUid with
  | none => simp [truthy, ExecutionWork.recordedUid, huid]
  | some uid => by_cases hu : uid = "" <;> simp [truthy, ExecutionWork.recordedUid, huid, hu]

theorem recorded_none (h : truthy work.jobUid = false) : work.recordedUid = none := by
  rw [truthy_iff_recorded] at h
  exact Option.isSome_eq_false_iff.mp h |> Option.isNone_iff_eq_none.mp

/-- Why the contract check fails a run. -/
theorem verifyContract_failure {code : String} {artifacts : List Artifact}
    (h : verifyContract work job expected = .error (.executionFailure code artifacts)) :
    code = "job_identity_conflict" ∧ ((∃ uid, work.recordedUid = some uid ∧ job.uid ≠ uid) ∨
      containsContract job expected = .ok false) := by
  unfold verifyContract at h
  split at h
  · rename_i hid
    obtain ⟨htruthy, huid⟩ := hid
    refine ⟨(Raised.executionFailure.inj (Except.error.inj h)).1.symm, .inl ?_⟩
    rw [truthy_iff_recorded] at htruthy
    obtain ⟨uid, hrecorded⟩ := Option.isSome_iff_exists.mp htruthy
    have hjobUid : work.jobUid = some uid := (Option.filter_eq_some_iff.mp hrecorded).1
    exact ⟨uid, hrecorded, fun he => huid (by rw [hjobUid, he])⟩
  · cases hc : containsContract job expected with
    | error e =>
      rw [hc] at h
      have h : (.error e : Except Raised Unit) = .error (.executionFailure code artifacts) := h
      exact absurd (hc.trans (congrArg _ (Except.error.inj h))) (containsContract_noFailure job expected code artifacts)
    | ok contained =>
      rw [hc] at h
      cases contained with
      | true => contradiction
      | false => exact ⟨(Raised.executionFailure.inj (Except.error.inj h)).1.symm, .inr rfl⟩

/-- The object passed the check. -/
theorem verifyContract_uid (h : verifyContract work job expected = .ok ()) :
    ∀ uid, work.recordedUid = some uid → job.uid = uid := by
  intro uid hrecorded
  have htruthy : truthy work.jobUid = true := by rw [truthy_iff_recorded, hrecorded]; rfl
  have hjobUid : work.jobUid = some uid := (Option.filter_eq_some_iff.mp hrecorded).1
  exact Option.some.inj (((verifyContract_ok h).1 htruthy).trans hjobUid)

/-- What a call of `observe_or_create` may do and conclude. -/
structure AdoptsOnlyOwn (helm : Helm) (worker : Worker) (work : ExecutionWork)
    (result : Except Raised JobObservation) (calls : List ApiCall) : Prop where
  /-- There is one create at most, -/
  createOnce : calls.countP ApiCall.isCreate ≤ 1
  /-- and only without a recorded uid, after a first read that found nothing. -/
  createFresh : ∀ call ∈ calls, call.isCreate = true →
    work.recordedUid = none ∧ calls.head? = some (readOf work worker.namespace (.error (.status 404)))
  adopted : ∀ observation, result = .ok observation → ∃ job ∈ calls.filterMap ApiCall.returned, ∃ expected,
    render helm worker.chart worker.namespace work = .ok expected ∧ observation.uid = job.uid ∧
    (∀ uid, work.recordedUid = some uid → job.uid = uid) ∧ containsContract job expected = .ok true ∧
    observation.state = job.state
  failure : ∀ code artifacts, result = .error (.executionFailure code artifacts) →
    code = "job_lost" ∧ work.recordedUid.isSome = true ∧
      calls = [readOf work worker.namespace (.error (.status 404))] ∨
    code = "job_identity_conflict" ∧ ∃ job ∈ calls.filterMap ApiCall.returned,
      (∃ uid, work.recordedUid = some uid ∧ job.uid ≠ uid) ∨
      ∃ expected, render helm worker.chart worker.namespace work = .ok expected ∧
        containsContract job expected = .ok false
  /-- Every other error means unavailable: all but a first read that found nothing, and a create whose Job
  the second read found. -/
  unavailable : ∀ call ∈ calls, ∀ f, call.fault = some f →
    (∃ message, result = .error (.infrastructureUnavailable message)) ∨
    f = .status 404 ∧ calls.head? = some call ∨
    call.isCreate = true ∧ ∃ job, readOf work worker.namespace (.ok job) ∈ calls

section Calls
variable {calls more : List ApiCall} {found : Except Trouble JobObject} {result : Except Trouble JobObservation}

theorem Search.createOnce (h : Search work «namespace» expected found calls) :
    calls.countP ApiCall.isCreate ≤ 1 := by
  cases h <;> exact Nat.le_of_ble_eq_true rfl

theorem Search.createFresh (h : Search work «namespace» expected found calls) :
    ∀ call ∈ calls, call.isCreate = true →
      work.recordedUid = none ∧ calls.head? = some (readOf work «namespace» (.error (.status 404))) := by
  intro call hcall hcreate
  cases h with
  | created job h => exact ⟨recorded_none h, rfl⟩
  | recovered f job h => exact ⟨recorded_none h, rfl⟩
  | unconfirmed f h => exact ⟨recorded_none h, rfl⟩
  | interrupted f f' h hf => exact ⟨recorded_none h, rfl⟩
  | adopted job | unreadable f hf | lost h =>
    obtain rfl := List.mem_singleton.mp hcall
    contradiction

theorem Search.returned (h : Search work «namespace» expected (.ok job) calls) :
    job ∈ calls.filterMap ApiCall.returned := by
  cases h with
  | adopted | created | recovered => simp [readOf, ApiCall.returned]

/-- Errors of a search that found the Job. -/
theorem Search.recovers (h : Search work «namespace» expected (.ok job) calls) :
    ∀ call ∈ calls, ∀ f, call.fault = some f → f = .status 404 ∧ calls.head? = some call ∨
      call.isCreate = true ∧ ∃ job, readOf work «namespace» (.ok job) ∈ calls := by
  intro call hcall f hfault
  cases h with
  | adopted =>
    obtain rfl := List.mem_singleton.mp hcall
    contradiction
  | created job h =>
    rcases List.mem_cons.mp hcall with rfl | hcall
    · exact .inl ⟨(Option.some.inj hfault).symm, rfl⟩
    · obtain rfl := List.mem_singleton.mp hcall
      contradiction
  | recovered f' job h =>
    rcases List.mem_cons.mp hcall with rfl | hcall
    · exact .inl ⟨(Option.some.inj hfault).symm, rfl⟩
    · rcases List.mem_cons.mp hcall with rfl | hcall
      · exact .inr ⟨rfl, job, by simp⟩
      · obtain rfl := List.mem_singleton.mp hcall
        contradiction

/-- A search without a Job: it was unavailable, or the recorded Job is lost. -/
theorem Search.failed {e : Trouble} (h : Search work «namespace» expected (.error e) calls) :
    (∃ message, translate (.error e) = .error (.infrastructureUnavailable message)) ∨
    e = .raised (.executionFailure "job_lost" []) ∧ work.recordedUid.isSome = true ∧
      calls = [readOf work «namespace» (.error (.status 404))] := by
  cases h with
  | lost h => exact .inr ⟨rfl, truthy_iff_recorded ▸ h, rfl⟩
  | unreadable | unconfirmed | interrupted => exact .inl ⟨_, rfl⟩

/-- A judgement lists pods at most. -/
theorem Judgement.lists_pods (h : Judgement work «namespace» expected job result more) :
    more.countP ApiCall.isCreate = 0 ∧ more.filterMap ApiCall.returned = [] ∧
      ∀ call ∈ more, ∀ f, call.fault = some f → result = .error (.fault f) := by
  cases h with
  | refused | unfailed => exact ⟨rfl, rfl, fun _ h => absurd h List.not_mem_nil⟩
  | failed =>
    refine ⟨rfl, rfl, fun call hcall f hf => ?_⟩
    obtain rfl := List.mem_singleton.mp hcall
    contradiction
  | unreadable =>
    refine ⟨rfl, rfl, fun call hcall f hf => ?_⟩
    obtain rfl := List.mem_singleton.mp hcall
    rw [Option.some.inj hf]

end Calls

/-- What a successful judgement says. -/
theorem Judgement.observed {result : Except Trouble JobObservation} {more : List ApiCall}
    {observation : JobObservation} (h : Judgement work «namespace» expected job result more)
    (ho : translate result = .ok observation) :
    verifyContract work job expected = .ok () ∧ observation.uid = job.uid ∧ observation.state = job.state := by
  cases h with
  | refused | unreadable => contradiction
  | failed pods hverify hf =>
    obtain rfl := Except.ok.inj ho
    exact ⟨hverify, rfl, by rw [JobObject.state, if_pos hf]⟩
  | unfailed hverify hf =>
    obtain rfl := Except.ok.inj ho
    exact ⟨hverify, rfl, by rw [JobObject.state, if_neg (Bool.eq_false_iff.mp hf)]⟩

theorem Judgement.failure {result : Except Trouble JobObservation} {more : List ApiCall} {code : String}
    {artifacts : List Artifact} (h : Judgement work «namespace» expected job result more)
    (hr : translate result = .error (.executionFailure code artifacts)) :
    verifyContract work job expected = .error (.executionFailure code artifacts) := by
  cases h with
  | failed | unfailed => contradiction
  | unreadable => cases (Except.error.inj hr)
  | refused e hverify => exact hverify.trans (congrArg _ (Except.error.inj hr))

/-- `observe_or_create` adopts only its own Job: whatever the server answers. -/
theorem observeOrCreate_adopts (server : ApiServer) (helm : Helm) (worker : Worker) (work : ExecutionWork) :
    AdoptsOnlyOwn helm worker work (observeOrCreate server helm worker work).1
      (observeOrCreate server helm worker work).2 := by
  have hquiet {e : Raised} (he : ∀ code artifacts, e ≠ .executionFailure code artifacts) :
      AdoptsOnlyOwn helm worker work (.error e) [] :=
    { createOnce := Nat.zero_le 1
      createFresh := List.forall_mem_nil _
      adopted := fun _ h => absurd h nofun
      failure := fun code artifacts h => absurd (Except.error.inj h) (he code artifacts)
      unavailable := List.forall_mem_nil _ }
  unfold observeOrCreate
  split
  · exact hquiet nofun
  · cases hrender : render helm worker.chart worker.namespace work with
    | error e =>
      exact hquiet fun code artifacts he => render_noFailure _ _ _ _ code artifacts (he ▸ hrender)
    | ok expected =>
      rcases observe_cases server work worker.namespace expected with
        ⟨e, calls, hobserve, hsearch⟩ | ⟨job, calls, result, more, hobserve, hsearch, hjudgement⟩
      · simp only [hobserve]
        rcases hsearch.failed with ⟨message, he⟩ | ⟨rfl, hrecorded, rfl⟩
        · exact
            { createOnce := hsearch.createOnce
              createFresh := hsearch.createFresh
              adopted := fun _ h => absurd (he.symm.trans h) nofun
              failure := fun _ _ h => absurd (Except.error.inj (he.symm.trans h)) nofun
              unavailable := fun _ _ _ _ => .inl ⟨message, he⟩ }
        · refine
            { createOnce := hsearch.createOnce
              createFresh := hsearch.createFresh
              adopted := fun _ h => absurd h nofun
              failure := fun code artifacts h => .inl ⟨?_, hrecorded, rfl⟩
              unavailable := fun call hcall f hf => .inr (.inl ?_) }
          · exact (Raised.executionFailure.inj (Except.error.inj h)).1.symm
          · obtain rfl := List.mem_singleton.mp hcall
            exact ⟨(Option.some.inj hf).symm, rfl⟩
      · simp only [hobserve]
        obtain ⟨hcreates, hreturned, hfaults⟩ := hjudgement.lists_pods
        have hjob : job ∈ (calls ++ more).filterMap ApiCall.returned := by
          rw [List.filterMap_append, hreturned, List.append_nil]
          exact hsearch.returned
        have hhead : (calls ++ more).head? = calls.head? := by
          cases hsearch <;> rfl
        refine
          { createOnce := ?_
            createFresh := fun call hcall hcreate => ?_
            adopted := fun observation ho => ?_
            failure := fun code artifacts hr => .inr ?_
            unavailable := fun call hcall f hf => ?_ }
        · rw [List.countP_append, hcreates]
          exact hsearch.createOnce
        · rw [hhead]
          rcases List.mem_append.mp hcall with hcall | hcall
          · exact hsearch.createFresh call hcall hcreate
          · exact absurd hcreate (List.countP_eq_zero.mp hcreates call hcall)
        · obtain ⟨hverify, huid, hstate⟩ := hjudgement.observed ho
          exact ⟨job, hjob, expected, hrender, huid, verifyContract_uid hverify, (verifyContract_ok hverify).2, hstate⟩
        · obtain ⟨hcode, hcause⟩ := verifyContract_failure (hjudgement.failure hr)
          exact ⟨hcode, job, hjob, hcause.imp_right fun h => ⟨expected, hrender, h⟩⟩
        · rcases List.mem_append.mp hcall with hcall | hcall
          · rw [hhead]
            rcases hsearch.recovers call hcall f hf with hfirst | ⟨hcreate, found, hfound⟩
            · exact .inr (.inl hfirst)
            · exact .inr (.inr ⟨hcreate, found, List.mem_append_left more hfound⟩)
          · -- Pods that cannot be listed leave the outcome open.
            rw [hfaults call hcall f hf]
            exact .inl ⟨_, rfl⟩

end Adoption

section Reconciling
open Relational
variable (env : ℕ → World × Input) (helm : Helm) (worker : Worker) (runId : UUID) (p : Pid)

/-- The server as the steps of a reconciliation meet it, one call a step. -/
def serverOf (key : JobKey) : ApiServer where
  readJob n :=
    if (env n).2.fault then .error .transport
    else match (env n).1.cluster.jobs key with
      | some job => .ok job
      | none => .error (.status 404)
  createJob n := if (env n).2.fault then .error .transport else .ok (env n).2.job
  listPods n := if (env n).2.fault then .error .transport else .ok (env n).2.pods

/-- The steps of a reconciliation from the n-th call on, as long as it calls the server. -/
def drive : ℕ → ℕ → Reconcile.Pc → Reconcile.Pc
  | 0, _, pc => pc
  | k + 1, n, pc =>
    match pc with
    | .lookup _ | .create _ | .confirm _ | .readPods _ _ =>
      match (Reconcile.step helm worker runId p (env n).1 (env n).2 pc).2 with
      | .running pc' => drive k (n + 1) pc'
      | _ => pc
    | pc => pc

/-- Where a reconciliation continues with the result. -/
def continuation (call : Reconcile.Call) (seen : Seen) : Except Trouble JobObservation → Reconcile.Pc
  | .ok observation => .lockUid { call with seen := seen } observation
  | .error (.raised (.executionFailure code artifacts)) => .lockFinish seen (some code) artifacts
  | .error (.raised e) => .exit (some e)
  | .error (.fault _) => .exit (some Reconcile.unavailable)

variable {worker} {call : Reconcile.Call} {holder : Option Pid} {key : JobKey}

/-- The judgement of an object is the same in a reconciliation. -/
theorem drive_inspect (k : ℕ) (job : JobObject) (calls : List ApiCall) :
    drive env helm worker runId p (k + 1) calls.length (Reconcile.inspect call holder job) =
      continuation call (call.seen ++ [(.observed job, holder)])
        (judge (serverOf env key) call.work worker.namespace call.expected job calls).1 := by
  cases hverify : verifyContract call.work job call.expected with
  | error e =>
    have hinspect : Reconcile.inspect call holder job =
        Reconcile.guarded (call.seen ++ [(.observed job, holder)]) (.error e) fun _ : Unit => .exit none := by
      simp only [Reconcile.inspect, hverify]
      cases e <;> rfl
    have hjudge : judge (serverOf env key) call.work worker.namespace call.expected job calls =
        (.error (.raised e), calls) :=
      Exchange.bind_error (by rw [Exchange.raising, hverify]; rfl)
    rw [hinspect, hjudge]
    cases e <;> rfl
  | ok =>
    have hjudge : judge (serverOf env key) call.work worker.namespace call.expected job calls =
        report (serverOf env key) call.work worker.namespace job calls :=
      Exchange.bind_ok (by rw [Exchange.raising, hverify]; rfl)
    rw [hjudge]
    cases hf : job.holds "Failed" with
    | false =>
      simp only [Reconcile.inspect, hverify, Reconcile.guarded, report, hf, Bool.false_eq_true, if_false]
      rfl
    | true =>
      have hinspect : Reconcile.inspect call holder job =
          .readPods { call with seen := call.seen ++ [(.observed job, holder)] } job := by
        simp only [Reconcile.inspect, hverify, Reconcile.guarded, hf, if_true]
      rw [hinspect, report, if_pos hf]
      cases hfault : (env calls.length).2.fault with
      | true =>
        have hlist : listNamespacedPod (serverOf env key) call.work worker.namespace calls =
            (.error (.fault .transport),
              calls ++ [.listPods worker.namespace ("job-name=" ++ call.work.jobName) (.error .transport)]) := by
          simp only [listNamespacedPod, Exchange.call, serverOf, hfault, if_true]
          rfl
        rw [Exchange.bind_error hlist]
        simp only [drive, Reconcile.step, hfault, if_true]
        cases k <;> rfl
      | false =>
        have hlist : listNamespacedPod (serverOf env key) call.work worker.namespace calls =
            (.ok (env calls.length).2.pods, calls ++
              [.listPods worker.namespace ("job-name=" ++ call.work.jobName) (.ok (env calls.length).2.pods)]) := by
          simp only [listNamespacedPod, Exchange.call, serverOf, hfault, Bool.false_eq_true, if_false]
          rfl
        rw [Exchange.bind_ok hlist]
        simp only [drive, Reconcile.step, hfault, Bool.false_eq_true, if_false]
        cases k <;> rfl

variable {env} in
theorem serverOf_fault (key : JobKey) {n : ℕ} (h : (env n).2.fault = true) :
    (serverOf env key).readJob n = .error .transport := if_pos h

variable {env} in
theorem serverOf_found {n : ℕ} {job : JobObject} (h : (env n).2.fault = false)
    (hjob : (env n).1.cluster.jobs key = some job) : (serverOf env key).readJob n = .ok job := by
  simp only [serverOf, h, hjob, Bool.false_eq_true, if_false]

variable {env} in
theorem serverOf_missing {n : ℕ} (h : (env n).2.fault = false) (hjob : (env n).1.cluster.jobs key = none) :
    (serverOf env key).readJob n = .error (.status 404) := by
  simp only [serverOf, h, hjob, Bool.false_eq_true, if_false]

theorem drive_confirm (hkey : key = (worker.namespace, call.work.jobName)) (calls : List ApiCall) : ∃ seen,
    drive env helm worker runId p 2 calls.length (.confirm call) = continuation call seen
      ((confirmJob (serverOf env key) call.work worker.namespace >>=
        judge (serverOf env key) call.work worker.namespace call.expected) calls).1 := by
  cases hfault : (env calls.length).2.fault with
  | true =>
    have hconfirm := confirm_error call.work worker.namespace calls (serverOf_fault key hfault) (fun he => by cases he)
    refine ⟨[], ?_⟩
    rw [Exchange.bind_error hconfirm]
    simp only [drive, Reconcile.step, hfault, if_true]
    rfl
  | false =>
    cases hjob : (env calls.length).1.cluster.jobs key with
    | none =>
      have hconfirm := confirm_missing call.work worker.namespace calls (serverOf_missing hfault hjob)
      refine ⟨[], ?_⟩
      rw [Exchange.bind_error hconfirm]
      simp only [drive, Reconcile.step, hfault, ← hkey, hjob, Bool.false_eq_true, if_false]
      rfl
    | some job =>
      have hconfirm := confirm_found call.work worker.namespace calls (serverOf_found hfault hjob)
      refine ⟨call.seen ++ [(.observed job, (env calls.length).1.pg.sessionLocks (runKey runId))], ?_⟩
      rw [Exchange.bind_ok hconfirm]
      simp only [drive, Reconcile.step, hfault, ← hkey, hjob, Bool.false_eq_true, if_false]
      have hlength : (calls ++ [readOf call.work worker.namespace (.ok job)]).length = calls.length + 1 :=
        List.length_append
      exact hlength ▸ drive_inspect env helm runId p 0 job (calls ++ [readOf call.work worker.namespace (.ok job)])

theorem drive_create (hkey : key = (worker.namespace, call.work.jobName)) (calls : List ApiCall) : ∃ seen,
    drive env helm worker runId p 3 calls.length (.create call) = continuation call seen
      ((Exchange.handle (createNamespacedJob (serverOf env key) worker.namespace call.expected)
          (fun _ => confirmJob (serverOf env key) call.work worker.namespace) >>=
        judge (serverOf env key) call.work worker.namespace call.expected) calls).1 := by
  cases hfault : (env calls.length).2.fault with
  | true =>
    have hanswer : (serverOf env key).createJob calls.length = .error .transport := if_pos hfault
    have hcreate := create_error worker.namespace call.expected calls hanswer
    have hhandle : Exchange.handle (createNamespacedJob (serverOf env key) worker.namespace call.expected)
        (fun _ => confirmJob (serverOf env key) call.work worker.namespace) calls =
        confirmJob (serverOf env key) call.work worker.namespace
          (calls ++ [.createJob worker.namespace call.expected (.error .transport)]) := by
      simp only [Exchange.handle, hcreate]
    obtain ⟨seen, hconfirm⟩ := drive_confirm env helm runId p hkey
      (calls ++ [.createJob worker.namespace call.expected (.error .transport)])
    refine ⟨seen, ?_⟩
    rw [Exchange.bind_congr hhandle, ← hconfirm, List.length_append]
    simp only [drive, Reconcile.step, hfault, if_true]
    rfl
  | false =>
    have hanswer : (serverOf env key).createJob calls.length = .ok (env calls.length).2.job :=
      if_neg (Bool.eq_false_iff.mp hfault)
    have hcreate := create_created worker.namespace call.expected calls hanswer
    have hhandle : Exchange.handle (createNamespacedJob (serverOf env key) worker.namespace call.expected)
        (fun _ => confirmJob (serverOf env key) call.work worker.namespace) calls =
        (.ok (env calls.length).2.job,
          calls ++ [.createJob worker.namespace call.expected (.ok (env calls.length).2.job)]) := by
      simp only [Exchange.handle, hcreate]
    refine ⟨call.seen ++ [(.observed (env calls.length).2.job,
      (env calls.length).1.pg.sessionLocks (runKey runId))], ?_⟩
    rw [Exchange.bind_ok hhandle, ← drive_inspect env helm runId p 1,
      List.length_append]
    simp only [drive, Reconcile.step, hfault, Bool.false_eq_true, if_false]
    rfl

/-- A reconciliation that has rendered its Job continues as `observe_or_create` returns, against a server that
answers each call as the cluster is at that step. -/
theorem drive_observe (hkey : key = (worker.namespace, call.work.jobName)) : ∃ seen,
    drive env helm worker runId p 4 0 (.lookup call) =
      continuation call seen (observe (serverOf env key) call.work worker.namespace call.expected []).1 := by
  cases hfault : (env 0).2.fault with
  | true =>
    have hget := getJob_error call.work worker.namespace [] (serverOf_fault key hfault) (fun he => by cases he)
    refine ⟨[], ?_⟩
    rw [observe, findOrCreate, Exchange.bind_error (Exchange.bind_error hget)]
    simp only [drive, Reconcile.step, hfault, if_true]
    rfl
  | false =>
    cases hjob : (env 0).1.cluster.jobs key with
    | some job =>
      have hget := getJob_found call.work worker.namespace [] (serverOf_found hfault hjob)
      refine ⟨call.seen ++ [(.observed job, (env 0).1.pg.sessionLocks (runKey runId))], ?_⟩
      have hfound : findOrCreate (serverOf env key) call.work worker.namespace call.expected [] =
          (.ok job, [readOf call.work worker.namespace (.ok job)]) := Exchange.bind_ok hget
      rw [observe, Exchange.bind_ok hfound,
        ← drive_inspect env helm runId p 2]
      simp only [drive, Reconcile.step, hfault, ← hkey, hjob, Bool.false_eq_true, if_false]
      rfl
    | none =>
      have hget := getJob_missing call.work worker.namespace [] (serverOf_missing hfault hjob)
      cases htruthy : truthy call.work.jobUid with
      | true =>
        refine ⟨call.seen, ?_⟩
        have hfound : findOrCreate (serverOf env key) call.work worker.namespace call.expected [] =
            (.error (.raised (.executionFailure "job_lost" [])),
              [readOf call.work worker.namespace (.error (.status 404))]) := by
          rw [findOrCreate, Exchange.bind_ok hget]
          simp only [htruthy, if_true]
          rfl
        rw [observe, Exchange.bind_error hfound]
        simp only [drive, Reconcile.step, hfault, ← hkey, hjob, htruthy, Bool.false_eq_true, if_false, if_true]
        rfl
      | false =>
        obtain ⟨seen, hcreate⟩ := drive_create env helm runId p hkey
          [readOf call.work worker.namespace (.error (.status 404))]
        refine ⟨seen, ?_⟩
        have hfound : findOrCreate (serverOf env key) call.work worker.namespace call.expected [] =
            Exchange.handle (createNamespacedJob (serverOf env key) worker.namespace call.expected)
              (fun _ => confirmJob (serverOf env key) call.work worker.namespace)
              [readOf call.work worker.namespace (.error (.status 404))] := by
          rw [findOrCreate, Exchange.bind_ok hget]
          simp only [htruthy, Bool.false_eq_true, if_false]
          rfl
        rw [observe, Exchange.bind_congr hfound, ← hcreate]
        simp only [drive, Reconcile.step, hfault, ← hkey, hjob, htruthy, Bool.false_eq_true, if_false]
        rfl

end Reconciling

end KubernetesJobs
end Mic3

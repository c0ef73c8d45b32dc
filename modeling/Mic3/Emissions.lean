import Mic3.Platform

/-! Every effect of the platform that is more than a read or a lock, with the one statement it comes from. -/
namespace Mic3
open Interleaving

/-- Reads, locks and rollbacks: they leave the tables, the cluster, the broker and the history alone. -/
def Effect.quiet : Effect → Bool
  | .read | .lock _ | .share _ | .rollback | .sessionLock _ | .sessionUnlock _ => true
  | _ => false

/-- The commits there are. -/
inductive Proc.Commits : Proc → Change → List Entry → Prop
  | submit (call : SubmitRun) (s : Submission) (row : Run) (event : OutboxEvent) :
    Commits (.submit call (.commit s row event)) (.submit row event)
      [.submitted row.id s.read call.limits]
  | register (definition : Registrable) (r : Registration) :
    Commits (.register definition (.commit r)) (.register r) []
  | accept (runId : UUID) (release : ModelReleaseRow) (u : UnitOfWork) (outcome : String)
      (entries : List Entry) :
    Commits (.accept runId (.commit release u outcome entries)) (.outcome u) entries
  | claim (worker : Worker) (u : Option UnitOfWork) (started : Option UUID) :
    Commits (.claim worker (.commit u started)) (ClaimNext.change u) []
  | saveUid (worker : Worker) (runId : UUID) (call : Reconcile.Call) (observation : JobObservation)
      (row : Run) (hu : row.jobUid = none ∨ row.jobUid = some observation.uid) :
    Commits (.reconcile worker runId (.saveUid call observation row))
      (.outcome (Reconcile.savedUid row observation.uid)) []
  | finish (worker : Worker) (runId : UUID) (seen : Seen) (u : UnitOfWork) :
    Commits (.reconcile worker runId (.finish seen u)) (.outcome u)
      (if u.loaded.status.terminal then [] else [.finished runId seen])
  | publish (publisher : Publisher) (marked : List (OutboxEvent × Time)) :
    Commits (.publish publisher (.publish marked [])) (.publish (PublishOutbox.marks marked))
      [.published (marked.map (·.1.id))]
  | handle (topic : String) (location : RecordLocation) (runId : UUID) (release : ModelReleaseRow)
      (u : UnitOfWork) (outcome : String) (entries : List Entry) :
    Commits (.consume topic (.accept location runId (.commit release u outcome entries))) (.outcome u)
      (.handled location outcome :: entries)
  | reject (topic : String) (location : RecordLocation) (rejection : Rejection)
      (message : Option RejectedMessage) :
    Commits (.consume topic (.reject location rejection (.commit message)))
      (message.elim .nothing .reject) [.handled location "rejected"]

/-- The requests to the other servers. -/
inductive Proc.Requests (x : External) (p : Pid) (w : World) : Proc → Effect → Prop
  | createJob (worker : Worker) (runId : UUID) (call : Reconcile.Call) (job : JobObject) :
    Requests x p w (.reconcile worker runId (.create call))
      (.createJob (worker.namespace, call.work.jobName) job)
  | produce (publisher : Publisher) (marked : List (OutboxEvent × Time)) (event : OutboxEvent)
      (todo : List OutboxEvent) (offset : ℤ) (ht : event.eventType ∈ publishedTypes) :
    Requests x p w (.publish publisher (.publish marked (event :: todo)))
      (.produce ⟨event.id, publisher.topic event.eventType, encodeEvent x.isoformat event offset⟩)
  | acknowledge (publisher : Publisher) (marked : List (OutboxEvent × Time)) (event : OutboxEvent)
      (todo : List OutboxEvent) :
    Requests x p w (.publish publisher (.confirm marked event todo)) (.acknowledge event.id)
  | assign (topic : String) (tp : TopicPartition) (ho : w.broker.owner tp = none) :
    Requests x p w (.consume topic .poll) (.assign tp)
  | poll (topic : String) (tp : TopicPartition) (record : Record) (ho : w.broker.owner tp = some p)
      (hr : (w.broker.log tp)[w.broker.position tp]? = some record) :
    Requests x p w (.consume topic .poll) (.poll tp)
  | commitOffset (topic : String) (location : RecordLocation) (outcome : String) :
    Requests x p w (.consume topic (.commit location outcome))
      (.commitOffset (location.topic, location.partition) (location.offset + 1))
  | close (topic : String) : Requests x p w (.consume topic .close) .closeConsumer
  | disconnect : Requests x p w .unwinding .disconnect

/-- What a process sends beside reads and locks. -/
def Proc.Emits (x : External) (p : Pid) (w : World) (l : Proc) (e : Effect) : Prop :=
  e.quiet = true ∨ (∃ change entries, e = .commit change entries ∧ l.Commits change entries) ∨
    l.Requests x p w e

section Programs
variable {x : External} {p : Pid} {w : World} {i : Input} {e : Effect} {l l' : Proc}

theorem Proc.Emits.of_quiet (h : e.quiet = true) : l.Emits x p w e := .inl h

theorem Proc.Emits.of_commit {change : Change} {entries : List Entry} (h : l.Commits change entries) :
    l.Emits x p w (.commit change entries) := .inr (.inl ⟨change, entries, rfl, h⟩)

theorem Proc.Emits.of_request (h : l.Requests x p w e) : l.Emits x p w e := .inr (.inr h)

theorem SubmitRun.emits {call : SubmitRun} {pc : SubmitRun.Pc} {r : Progress SubmitRun.Pc UUID}
    (hs : call.step w i pc = (e, r)) : (Proc.submit call pc).Emits x p w e := by
  rcases step_cases hs with ⟨rfl, -⟩ | hc
  · exact .of_quiet rfl
  cases pc with
  | getRelease => obtain ⟨s, -, rfl, -⟩ := hc; exact .of_quiet rfl
  | lockAdmission | countTotal | findUser | insertEvent => obtain ⟨rfl, -⟩ := hc; exact .of_quiet rfl
  | countOwned | insertRun | checkRelease => obtain ⟨-, rfl, -⟩ := hc; exact .of_quiet rfl
  | checkUser => obtain ⟨⟨user, rfl⟩ | rfl, -⟩ := hc <;> exact .of_quiet rfl
  | commit s row event => obtain ⟨rfl, -⟩ := hc; exact .of_commit (.submit call s row event)

theorem Catalog.emits {definition : Registrable} {pc : Catalog.Pc} {r : Progress Catalog.Pc ModelRelease}
    (hs : step definition.1 w i pc = (e, r)) : (Proc.register definition pc).Emits x p w e := by
  rcases step_cases hs with ⟨rfl, -⟩ | hc
  · exact .of_quiet rfl
  cases pc with
  | insertModel => rcases hc with ⟨-, rfl, -⟩ | ⟨-, rfl, -⟩ <;> exact .of_quiet rfl
  | lockModel => obtain ⟨model, -, rfl, -⟩ := hc; exact .of_quiet rfl
  | selectReleases => obtain ⟨rfl, -⟩ := hc; exact .of_quiet rfl
  | lockReleases =>
    rcases hc with ⟨id, ids, -, rfl, -⟩ | ⟨-, -, rfl, -⟩ | ⟨-, release, others, -, rfl, -⟩ <;>
      exact .of_quiet rfl
  | insertRelease => obtain ⟨-, row, rfl, -⟩ := hc; exact .of_quiet rfl
  | activeModes => obtain ⟨-, rfl, -⟩ := hc; exact .of_quiet rfl
  | commit registration => obtain ⟨rfl, -⟩ := hc; exact .of_commit (.register definition registration)

/-- An acceptance sends one commit, its last statement. -/
theorem AcceptRun.emits {runId : UUID} {pc : AcceptRun.Pc} {r : Progress AcceptRun.Pc String}
    (hs : step runId w i pc = (e, r)) : e.quiet = true ∧ (∀ outcome, r ≠ .returned outcome) ∨
      ∃ release u outcome entries, pc = .commit release u outcome entries ∧
        e = .commit (.outcome u) entries ∧ r = .returned outcome := by
  rcases step_cases hs with ⟨rfl, err, rfl⟩ | hc
  · exact .inl ⟨rfl, (fun _ he => by cases he)⟩
  cases pc with
  | readRelease => obtain ⟨row, -, rfl, rfl⟩ := hc; exact .inl ⟨rfl, (fun _ he => by cases he)⟩
  | lockRelease => obtain ⟨release, -, rfl, rfl⟩ := hc; exact .inl ⟨rfl, (fun _ he => by cases he)⟩
  | lockRun =>
    obtain ⟨row, -, rfl, ⟨-, rfl⟩ | ⟨-, -, rfl⟩⟩ := hc <;> exact .inl ⟨rfl, (fun _ he => by cases he)⟩
  | loadRelease => obtain ⟨pc', -, rfl, rfl⟩ := hc; exact .inl ⟨rfl, (fun _ he => by cases he)⟩
  | commit release u outcome entries =>
    obtain ⟨rfl, rfl⟩ := hc
    exact .inr ⟨release, u, outcome, entries, rfl, rfl, rfl⟩

theorem ClaimNext.emits {worker : Worker} {pc : ClaimNext.Pc} {r : Progress ClaimNext.Pc (Option UUID)}
    (hs : step worker w i pc = (e, r)) : (Proc.claim worker pc).Emits x p w e := by
  rcases step_cases hs with ⟨rfl, -⟩ | hc
  · exact .of_quiet rfl
  cases pc with
  | lockCapacity | count | candidate => obtain ⟨rfl, -⟩ := hc; exact .of_quiet rfl
  | lockRelease => obtain ⟨release, -, rfl, -⟩ := hc; exact .of_quiet rfl
  | lockRun => obtain ⟨row, -, rfl, -⟩ := hc; exact .of_quiet rfl
  | loadRelease => obtain ⟨pc', -, rfl, -⟩ := hc; exact .of_quiet rfl
  | commit u started => obtain ⟨rfl, -⟩ := hc; exact .of_commit (.claim worker u started)

theorem Reconcile.emits {helm : Helm} {worker : Worker} {runId : UUID} {pc : Reconcile.Pc}
    {r : Progress Reconcile.Pc Unit} (hs : step helm worker runId p w i pc = (e, r)) :
    (Proc.reconcile worker runId pc).Emits x p w e := by
  rcases step_cases hs with ⟨-, rfl | rfl, -⟩ | hc
  · exact .of_quiet rfl
  · exact .of_quiet rfl
  cases pc with
  | acquire => rcases hc with ⟨rfl, -⟩ | ⟨rfl, -⟩ <;> exact .of_quiet rfl
  | loadRun | loadRelease | loadModel | observe | lookup | confirm | readPods | listOutputs | exit =>
    obtain ⟨rfl, -⟩ := hc
    exact .of_quiet rfl
  | create call =>
    obtain ⟨rfl | ⟨job, rfl⟩, -⟩ | ⟨job, rfl, -⟩ := hc
    · exact .of_quiet rfl
    · exact .of_request (.createJob worker runId call job)
    · exact .of_request (.createJob worker runId call job)
  | lockUid => obtain ⟨row, -, rfl, -⟩ := hc; exact .of_quiet rfl
  | saveUid call observation row =>
    rcases hc with ⟨rfl, -⟩ | ⟨hu, rfl, -⟩
    · exact .of_quiet rfl
    · exact .of_commit (.saveUid worker runId call observation row hu)
  | lockFinish => obtain ⟨row, -, rfl, -⟩ := hc; exact .of_quiet rfl
  | finish seen u => obtain ⟨-, rfl⟩ := hc; exact .of_commit (.finish worker runId seen u)
  | unwind => exact hc.elim

theorem PublishOutbox.emits {publisher : Publisher} {pc : PublishOutbox.Pc}
    {r : Progress PublishOutbox.Pc ℕ} (hs : step x.isoformat publisher p w i pc = (e, r)) :
    (Proc.publish publisher pc).Emits x p w e := by
  rcases step_cases hs with ⟨rfl | rfl, -⟩ | hc
  · exact .of_quiet rfl
  · exact .of_quiet rfl
  cases pc with
  | select => obtain ⟨rfl, -⟩ := hc; exact .of_quiet rfl
  | lockRows => rcases hc with ⟨rfl, -⟩ | ⟨id, ids, -, ⟨rfl, -⟩ | ⟨rfl, -⟩⟩ <;> exact .of_quiet rfl
  | publish marked todo =>
    rcases hc with ⟨event, rest, rfl, ht, rfl, -⟩ | ⟨rfl, rfl, -⟩
    · exact .of_request (.produce publisher marked event rest i.offset ht)
    · exact .of_commit (.publish publisher marked)
  | confirm marked event todo =>
    obtain ⟨rfl, -⟩ := hc
    exact .of_request (.acknowledge publisher marked event todo)

theorem Consumer.emits {topic : String} {pc : Consumer.Pc} {r : Progress Consumer.Pc Unit}
    (hs : step x.decoders topic p w i pc = (e, r)) : (Proc.consume topic pc).Emits x p w e := by
  have hc := step_cases hs
  cases pc with
  | poll =>
    rcases hc with ⟨rfl, -⟩ | ⟨tp, ⟨ho, rfl, -⟩ | ⟨record, ho, hr, rfl, -⟩⟩
    · exact .of_quiet rfl
    · exact .of_request (.assign topic tp ho)
    · exact .of_request (.poll topic tp record ho hr)
  | decode => obtain ⟨rfl, -⟩ := hc; exact .of_quiet rfl
  | accept location runId pc =>
    obtain ⟨e₀, r₀, hs₀, hr⟩ := hc
    rcases AcceptRun.emits hs₀ with ⟨hquiet, hne⟩ | ⟨release, u, outcome, entries, rfl, rfl, rfl⟩
    · rcases hr with ⟨pc', -, rfl, -⟩ | ⟨outcome, h, -⟩ | ⟨message, -, rfl, -⟩ | ⟨err, -, rfl, -⟩
      · exact .of_quiet hquiet
      · exact absurd h (hne outcome)
      · exact .of_quiet hquiet
      · exact .of_quiet hquiet
    · rcases hr with ⟨pc', h, -⟩ | ⟨outcome', h, rfl, -⟩ | ⟨message, h, -⟩ | ⟨err, h, -⟩
      · contradiction
      · obtain rfl := Progress.returned.inj h
        exact .of_commit (.handle topic location runId release u outcome entries)
      · contradiction
      · contradiction
  | reject location rejection pc =>
    obtain ⟨e₀, r₀, hs₀, hr⟩ := hc
    have hc₀ := record_cases hs₀
    cases pc with
    | insert =>
      have hquiet : e₀.quiet = true ∧ r₀ ≠ .returned () := by
        rcases hc₀ with ⟨-, rfl, rfl⟩ | ⟨-, rfl, rfl⟩ <;> exact ⟨rfl, (fun he => by cases he)⟩
      rcases hr with ⟨pc', -, rfl, -⟩ | ⟨h, -⟩
      · exact .of_quiet hquiet.1
      · exact absurd h hquiet.2
    | commit message =>
      obtain ⟨rfl, rfl⟩ := hc₀
      rcases hr with ⟨pc', h, -⟩ | ⟨-, rfl, -⟩
      · contradiction
      · exact .of_commit (.reject topic location rejection message)
  | commit location outcome =>
    rcases hc with ⟨rfl, -⟩ | ⟨rfl, -⟩
    · exact .of_quiet rfl
    · exact .of_request (.commitOffset topic location outcome)
  | close => obtain ⟨rfl, -⟩ := hc; exact .of_request (.close topic)

/-- What a process sends is one of these. -/
theorem Proc.emits (hs : l.next x p w i = (e, l')) : l.Emits x p w e := by
  cases l with
  | idle => obtain ⟨rfl, -⟩ := Prod.mk.inj hs; exact .of_quiet rfl
  | unwinding => obtain ⟨rfl, -⟩ := Prod.mk.inj hs; exact .of_request .disconnect
  | submit => obtain ⟨rfl, -⟩ := Prod.mk.inj hs; exact SubmitRun.emits rfl
  | register => obtain ⟨rfl, -⟩ := Prod.mk.inj hs; exact Catalog.emits rfl
  | claim => obtain ⟨rfl, -⟩ := Prod.mk.inj hs; exact ClaimNext.emits rfl
  | reconcile => obtain ⟨rfl, -⟩ := Prod.mk.inj hs; exact Reconcile.emits rfl
  | publish => obtain ⟨rfl, -⟩ := Prod.mk.inj hs; exact PublishOutbox.emits rfl
  | consume => obtain ⟨rfl, -⟩ := Prod.mk.inj hs; exact Consumer.emits rfl
  | accept runId pc =>
    obtain ⟨rfl, -⟩ := Prod.mk.inj hs
    have hs : AcceptRun.step runId w i pc = _ := rfl
    rcases AcceptRun.emits hs with
      ⟨hquiet, -⟩ | ⟨release, u, outcome, entries, rfl, he, -⟩
    · exact .of_quiet hquiet
    · exact .inr (.inl ⟨_, _, he, .accept runId release u outcome entries⟩)

/-- The statement a commit comes from. -/
theorem Proc.commits (hs : l.next x p w i = (e, l')) {change : Change} {entries : List Entry}
    (he : e = .commit change entries) : l.Commits change entries := by
  subst he
  rcases Proc.emits hs with h | ⟨change', entries', h, hc⟩ | h
  · contradiction
  · obtain ⟨rfl, rfl⟩ := Effect.commit.inj h
    exact hc
  · cases h

end Programs
end Mic3

import Mic3.AcceptedWork
import Mic3.Emissions
import Mic3.Writers

/-! Claims serve runs in the order of their creation, and none is idle while there is room and work. Between the
query for a candidate and the commit nothing takes a waiting run off the queue but an owner of the capacity
lock, so the locked row is still as the query found it. -/
namespace Mic3
open Relational Interleaving

/-- A run that a claim may start. -/
structure Run.Waiting (row : Run) : Prop where
  status : row.status = .queued
  acceptedAt : row.acceptedAt.isSome

def Tables.Waits (t : Tables) (id : UUID) : Prop := ∃ row, t.runs.find? id = some row ∧ row.Waiting

/-- The first waiting run by creation time and id. -/
structure Tables.Oldest (t : Tables) (row : Run) : Prop where
  stored : t.runs.find? row.id = some row
  waiting : row.Waiting
  first : ∀ other ∈ t.runs.rows, other.Waiting →
    row.createdAt < other.createdAt ∨ row.createdAt = other.createdAt ∧ row.id ≤ other.id

section Candidates
variable {t : Tables} {row : Run}

theorem Run.waiting_iff : row.Waiting ↔ row.status = .queued ∧ row.acceptedAt.isSome = true :=
  ⟨fun h => ⟨h.status, h.acceptedAt⟩, fun h => ⟨h.1, h.2⟩⟩

theorem Tables.Oldest.of_candidate (h : t.claimCandidate = some row) : t.Oldest row := by
  have hmem : row ∈ t.runs.rows.filter fun r => r.status = .queued ∧ r.acceptedAt.isSome :=
    (List.mem_insertionSort _).mp (List.mem_of_mem_head? h)
  refine ⟨claimCandidate_some h, Run.waiting_iff.mpr (of_decide_eq_true (List.mem_filter.mp hmem).2), ?_⟩
  intro other hother hwaiting
  obtain ⟨rest, hrows⟩ : ∃ rest, orderedBy Run.createdAt Run.id
      (t.runs.rows.filter fun r => r.status = .queued ∧ r.acceptedAt.isSome) = row :: rest :=
    List.head?_eq_some_iff.mp h
  have hin : other ∈ row :: rest := by
    rw [← hrows, (orderedBy_perm _ _ _).mem_iff, List.mem_filter]
    exact ⟨hother, decide_eq_true (Run.waiting_iff.mp hwaiting)⟩
  rcases List.mem_cons.mp hin with rfl | hin
  · exact .inr ⟨rfl, BitVec.le_refl _⟩
  · have hsorted := pairwise_orderedBy Run.createdAt Run.id
      (t.runs.rows.filter fun r => r.status = .queued ∧ r.acceptedAt.isSome)
    rw [hrows] at hsorted
    exact List.rel_of_pairwise_cons hsorted hin

theorem none_waiting_of_candidate (h : t.claimCandidate = none) : ∀ row ∈ t.runs.rows, ¬ row.Waiting := by
  intro row hrow hwaiting
  have hempty := List.head?_eq_none_iff.mp h
  have hin : row ∈ orderedBy Run.createdAt Run.id
      (t.runs.rows.filter fun r => r.status = .queued ∧ r.acceptedAt.isSome) := by
    rw [(orderedBy_perm _ _ _).mem_iff, List.mem_filter]
    exact ⟨hrow, decide_eq_true (Run.waiting_iff.mp hwaiting)⟩
  rw [hempty] at hin
  exact List.not_mem_nil hin

end Candidates

/-- What a claim that found a run relies on, and that a reconcile call ends no queued run. -/
def Proc.Queues (t : Tables) : Proc → Prop
  | .claim _ (.lockRelease runId _) | .claim _ (.lockRun runId _) => t.Waits runId
  | .reconcile _ _ (.finish _ u) => u.loaded.status ≠ .queued
  | _ => True

/-- Without the capacity lock no step takes a run off the queue. -/
def queue : Contract Pid World Proc where
  inv := fun _ => True
  assert := fun _ l w => l.Queues w.tables
  guarantee := fun p w w' => (∀ id, w.tables.Waits id → w'.tables.Waits id) ∨
    w.pg.locks.owner (.advisory capacityLock) = some p

section Layer
variable {x : External} {p q : Pid} {w w' : World} {i : Input} {e : Effect} {l l' : Proc}

/-- No write takes an acceptance back. -/
theorem Write.keeps_accepted {row row' : Run} {artifacts : List RunArtifact} {events : List OutboxEvent}
    (h : Write row row' artifacts events) (ha : row.acceptedAt.isSome) : row'.acceptedAt.isSome := by
  cases h with
  | accept => rfl
  | refuse | start | saveUid | succeed | fail => exact ha

/-- An acceptance leaves a run that was accepted before as it is. -/
theorem AcceptRun.keeps_waiting (t : Tables) (runId : UUID) {release : ModelReleaseRow} {u : UnitOfWork}
    (outcome : String) {entries : List Entry} (hu : u.Allowed)
    (h : AcceptRun.Configures t runId (.commit release u outcome entries)) (hwaiting : u.loaded.Waiting) :
    u.row = u.loaded := by
  rcases h with ⟨-, hclean⟩ | ⟨-, ⟨-, hnone⟩ | ⟨invocation, hnone, -⟩⟩
  · exact congrArg UnitOfWork.row hclean
  · rcases hu with ⟨hrow, -⟩ | hwrite
    · exact hrow
    · have hsome := hwrite.keeps_accepted hwaiting.acceptedAt
      simp [hnone] at hsome
  · have hsome := hwaiting.acceptedAt
    simp [hnone] at hsome

/-- Every other writer than a claim leaves a waiting run as it is. -/
theorem Proc.keeps_waiting {u : UnitOfWork} {entries : List Entry} (hu : u.Allowed)
    (hs : l.next x p w i = (.commit (.outcome u) entries, l')) (hknows : l.Knows w.tables)
    (hconf : l.Configures w.tables) (hk : l.Queues w.tables) (hclaim : ∀ worker pc, l ≠ .claim worker pc)
    (hwaiting : u.loaded.Waiting) : u.row = u.loaded := by
  generalize hchange : Change.outcome u = change at hs
  cases Proc.commits hs rfl with
  | submit | register | publish => contradiction
  | reject topic location rejection message => cases message <;> contradiction
  | claim worker u started => exact absurd rfl (hclaim _ _)
  | accept runId release u outcome entries =>
    obtain rfl := Change.outcome.inj hchange
    exact AcceptRun.keeps_waiting w.tables runId outcome hu hconf hwaiting
  | handle topic location runId release u outcome entries =>
    obtain rfl := Change.outcome.inj hchange
    exact AcceptRun.keeps_waiting w.tables runId outcome hu hconf hwaiting
  | saveUid worker runId call observation row =>
    obtain rfl := Change.outcome.inj hchange
    rw [Reconcile.savedUid_loaded] at hwaiting
    exact absurd hwaiting.status hknows.2.1
  | finish worker runId seen u =>
    obtain rfl := Change.outcome.inj hchange
    exact absurd hwaiting.status hk

theorem Proc.queues_guarantee (hs : l.next x p w i = (e, l')) (hal : e.Allowed w.tables)
    (hknows : l.Knows w.tables) (hconf : l.Configures w.tables) (hl : Holding p l w) (hk : l.Queues w.tables)
    (ha : w.apply p e = some w') : (∀ id, w.tables.Waits id → w'.tables.Waits id) ∨
      w.pg.locks.owner (.advisory capacityLock) = some p := by
  rcases hal.runs ha with hsame | ⟨row, event, entries, -, -, hins⟩ | ⟨u, entries, rfl, hu, hcurrent, hfind⟩
  · exact .inl fun id hid => by rwa [Tables.Waits, hsame]
  · exact .inl fun id ⟨row, hrow, hwaiting⟩ => ⟨row, Table.find?_insert_of_some hins hrow, hwaiting⟩
  by_cases hclaim : ∃ worker pc, l = .claim worker pc
  · obtain ⟨worker, pc, rfl⟩ := hclaim
    generalize hchange : Change.outcome u = change at hs
    cases Proc.commits hs rfl with
    | claim worker u started =>
      have howner : (Hold.lock (.advisory capacityLock)).Valid p w :=
        hl.valid _ (by cases u <;> simp [Proc.holds, ClaimNext.holds])
      exact .inr howner
  · refine .inl fun id ⟨row, hrow, hwaiting⟩ => ?_
    rw [Tables.Waits, hfind]
    split
    · rename_i hid
      obtain rfl : u.loaded = row := Option.some.inj (hcurrent.symm.trans (hid ▸ hrow))
      have hrow' : u.row = u.loaded := Proc.keeps_waiting hu hs hknows hconf hk
        (fun worker pc h => hclaim ⟨worker, pc, h⟩) hwaiting
      exact ⟨u.row, rfl, hrow' ▸ hwaiting⟩
    · exact ⟨row, hrow, hwaiting⟩

theorem ClaimNext.queues_step {worker : Worker} {pc : ClaimNext.Pc} {r : Progress ClaimNext.Pc (Option UUID)}
    (hs : step worker w i pc = (e, r)) (hk : (Proc.claim worker pc).Queues w.tables) (ha : w.apply p e = some w') :
    r.All fun pc => (Proc.claim worker pc).Queues w'.tables := by
  have hsame (hc : e.commits = false) : w'.tables = w.tables := tables_apply hc ha
  rcases step_cases hs with ⟨rfl, err, rfl⟩ | hc
  · trivial
  cases pc with
  | lockCapacity => obtain ⟨rfl, rfl⟩ := hc; trivial
  | count => obtain ⟨rfl, rfl | ⟨-, rfl⟩⟩ := hc <;> trivial
  | candidate =>
    obtain ⟨rfl, rfl | ⟨run, hrun, rfl⟩⟩ := hc
    · trivial
    · have holdest := Tables.Oldest.of_candidate hrun
      exact hsame rfl ▸ ⟨run, holdest.stored, holdest.waiting⟩
  | lockRelease runId releaseId =>
    obtain ⟨release, -, rfl, rfl⟩ := hc
    exact hsame rfl ▸ hk
  | lockRun runId release => obtain ⟨row, -, rfl, rfl | ⟨-, -, rfl⟩⟩ := hc <;> trivial
  | loadRelease release row =>
    obtain ⟨pc', hd, rfl, rfl⟩ := hc
    obtain ⟨definition, -, ⟨-, rfl⟩ | ⟨-, rfl⟩⟩ := decide_ok hd <;> trivial
  | commit u started => obtain ⟨rfl, rfl⟩ := hc; trivial

theorem Reconcile.inspect_queues {worker : Worker} {runId : UUID} (t : Tables) (call : Call) (holder : Option Pid)
    (job : JobObject) : (Proc.reconcile worker runId (inspect call holder job)).Queues t := by
  rcases inspect_cases call holder job with ⟨err, h⟩ | h | ⟨-, ⟨-, h⟩ | ⟨-, h⟩⟩ <;> rw [h] <;> trivial

theorem Reconcile.conclude_queues {worker : Worker} {runId : UUID} (t : Tables) (call : Call)
    (observation : JobObservation) : (Proc.reconcile worker runId (conclude call observation)).Queues t := by
  unfold conclude
  split
  · split <;> trivial
  · trivial
  · trivial

/-- A reconcile call finishes the run that it found dispatched. -/
theorem Reconcile.queues_step {helm : Helm} {worker : Worker} {runId : UUID} {pc : Reconcile.Pc}
    {r : Progress Reconcile.Pc Unit} (hs : step helm worker runId p w i pc = (e, r))
    (hknows : Knows w.tables runId pc) : r.All fun pc => (Proc.reconcile worker runId pc).Queues w'.tables := by
  rcases step_cases hs with ⟨-, -, err, rfl⟩ | hc
  · trivial
  cases pc with
  | acquire => rcases hc with ⟨-, rfl⟩ | ⟨-, rfl⟩ <;> trivial
  | loadRun => obtain ⟨-, row, -, -, rfl⟩ := hc; trivial
  | loadRelease row => obtain ⟨-, release, -, rfl⟩ := hc; trivial
  | loadModel row release => obtain ⟨-, definition, -, rfl⟩ := hc; trivial
  | observe work seen => obtain ⟨-, ⟨-, rfl⟩ | ⟨expected, -, -, -, rfl⟩⟩ := hc <;> trivial
  | lookup call =>
    obtain ⟨-, ⟨job, -, rfl⟩ | ⟨-, ⟨-, rfl⟩ | ⟨-, rfl⟩⟩⟩ := hc
    · exact inspect_queues w'.tables call _ job
    · trivial
    · trivial
  | create call =>
    obtain ⟨-, rfl⟩ | ⟨job, -, rfl⟩ := hc
    · trivial
    · exact inspect_queues w'.tables call _ job
  | confirm call =>
    obtain ⟨-, job, -, rfl⟩ := hc
    exact inspect_queues w'.tables call _ job
  | readPods call job => obtain ⟨-, rfl⟩ := hc; trivial
  | lockUid call observation => obtain ⟨row, -, -, rfl⟩ := hc; trivial
  | saveUid call observation row =>
    rcases hc with ⟨-, rfl⟩ | ⟨-, -, rfl⟩
    · trivial
    · exact conclude_queues w'.tables call observation
  | listOutputs call =>
    obtain ⟨-, outputPrefix, -, ⟨artifacts, -, rfl⟩ | ⟨code, artifacts, -, rfl⟩⟩ := hc <;> trivial
  | lockFinish seen failureCode artifacts =>
    obtain ⟨row, hf, -, rfl⟩ := hc
    have hdispatched : w.tables.Dispatched runId := by
      cases failureCode with
      | none =>
        obtain ⟨row', hf', hq, -⟩ := hknows
        exact ⟨row', hf', hq⟩
      | some code => exact hknows.1
    obtain ⟨row', hf', hq⟩ := hdispatched
    obtain rfl : row' = row := Option.some.inj (hf'.symm.trans hf)
    change (finishRow _ _ _ _).loaded.status ≠ .queued
    rwa [finishRow_loaded]
  | finish seen u => obtain ⟨rfl, -⟩ := hc; trivial
  | unwind err => exact hc.elim
  | exit error => obtain ⟨-, rfl | ⟨err, rfl⟩⟩ := hc <;> trivial

theorem Proc.queues_step (hs : l.next x p w i = (e, l')) (hknows : l.Knows w.tables) (hk : l.Queues w.tables)
    (ha : w.apply p e = some w') : l'.Queues w'.tables := by
  cases l with
  | idle | unwinding => obtain ⟨rfl, rfl⟩ := Prod.mk.inj hs; trivial
  | claim worker pc =>
    obtain ⟨rfl, rfl⟩ := Prod.mk.inj hs
    exact (ClaimNext.queues_step rfl hk ha).proc (Q := fun l => l.Queues w'.tables) (fun _ h => h) trivial
  | reconcile worker runId pc =>
    obtain ⟨rfl, rfl⟩ := Prod.mk.inj hs
    exact (Reconcile.queues_step rfl hknows).proc (Q := fun l => l.Queues w'.tables) (fun _ h => h) trivial
  | submit | register | accept | publish | consume =>
    obtain ⟨rfl, rfl⟩ := Prod.mk.inj hs
    exact (Progress.all_true _).proc (Q := fun l => l.Queues w'.tables) (fun _ _ => trivial) trivial

/-- What another process does leaves the run of a claim waiting. -/
theorem Proc.Queues.stable (hk : l.Queues w.tables) (hl : Holding q l w) (hne : p ≠ q)
    (hg : queue.guarantee p w w') : l.Queues w'.tables := by
  have hwaits {runId : UUID} (hheld : Hold.lock (.advisory capacityLock) ∈ l.holds) (h : w.tables.Waits runId) :
      w'.tables.Waits runId := by
    rcases hg with hkeeps | howner
    · exact hkeeps runId h
    · have hq : w.pg.locks.owner (.advisory capacityLock) = some q := hl.valid _ hheld
      exact absurd (Option.some.inj (howner.symm.trans hq)) hne
  cases l with
  | claim worker pc =>
    cases pc with
    | lockRelease runId releaseId => exact hwaits (by simp [Proc.holds, ClaimNext.holds]) hk
    | lockRun runId release => exact hwaits (by simp [Proc.holds, ClaimNext.holds]) hk
    | _ => trivial
  | reconcile worker runId pc => cases pc <;> trivial
  | _ => trivial

end Layer

theorem queue_layer (x : External) : Layer queue (configuration.both (runHistory.both holding)) x where
  start := fun _ task _ => by cases task <;> trivial
  failing := by
    intro _ l _
    cases l with
    | reconcile worker runId pc => cases pc <;> trivial
    | _ => trivial
  refl := fun _ _ => .inl fun _ h => h
  step := by
    intro p w i l e l' w' hs ha _ hl _ _ hk
    obtain ⟨hal, -⟩ := Proc.knows_step hs hl.2.1 hl.2.2 ha
    exact ⟨trivial, Proc.queues_step hs hl.2.1 hk ha, Proc.queues_guarantee hs hal hl.2.1 hl.1 hl.2.2 hk ha⟩

theorem queue_proof (x : External) :
    queue.Proof (configuration.both (runHistory.both holding)) (platform x) fun _ _ => True where
  act := by
    intro p a w l w' l' _ ha hinv hl hg hc hk
    exact (queue_layer x).act (fun _ _ _ => ⟨trivial, trivial, .of_nothing rfl rfl⟩) ha hinv hl hg hc hk
  stable := by
    intro p q l w w' hne _ hl _ hg _ hk
    exact hk.stable hl.2.2 hne hg
  env := by
    intro ev w w' _ he _ _
    obtain ⟨hruns, -⟩ := World.event_tables he
    have hwaits : ∀ id, w.tables.Waits id → w'.tables.Waits id := fun id hid => by rwa [Tables.Waits, hruns]
    exact ⟨trivial, fun q l hl hk => hk.stable (p := q + 1) hl.2.2 (Nat.succ_ne_self q) (.inl hwaits)⟩

theorem queue_established (x : External) :
    (queue.both (configuration.both (runHistory.both holding))).Established (platform x) (fun _ _ => True) initial :=
  (queue_proof x).established (configuration_established x) ⟨trivial, fun _ => trivial⟩

/-- Where a process took its turns, and what it did. -/
abbrev TurnLog := List (Config Pid World Proc × Action)

namespace ClaimNext

/-- The run was the first waiting one when the candidate query ran. -/
def Selected (worker : Worker) (p : Pid) (turns : TurnLog) (id : UUID) : Prop :=
  ∃ t ∈ turns, t.1.procs p = .claim worker .candidate ∧
    ∃ row, t.1.shared.tables.Oldest row ∧ row.id = id

/-- There was no room when the claim counted, or no run waited when it searched. -/
def Refused (worker : Worker) (p : Pid) (turns : TurnLog) : Prop :=
  (∃ t ∈ turns, t.1.procs p = .claim worker .count ∧ worker.capacity ≤ t.1.shared.tables.runningCount) ∨
  ∃ t ∈ turns, t.1.procs p = .claim worker .candidate ∧ ∀ row ∈ t.1.shared.tables.runs.rows, ¬ row.Waiting

/-- What a claim has found after its turns. -/
def Found (worker : Worker) (p : Pid) (turns : TurnLog) : Pc → Prop
  | .lockCapacity | .count | .candidate => True
  | .lockRelease runId _ | .lockRun runId _ => Selected worker p turns runId
  | .loadRelease _ row => Selected worker p turns row.id
  | .commit (some u) started => started = some u.loaded.id ∧ Selected worker p turns u.loaded.id ∧
      ∃ now, u = start u.loaded worker.namespace now
  | .commit none started => started = none ∧ Refused worker p turns

end ClaimNext

section Turns
variable {x : External} {c c' : Config Pid World Proc} {p : Pid} {worker : Worker} {turns : TurnLog}

theorem Selected.cons {id : UUID} (t : Config Pid World Proc × Action)
    (h : ClaimNext.Selected worker p turns id) : ClaimNext.Selected worker p (t :: turns) id := by
  obtain ⟨t', ht', h⟩ := h
  exact ⟨t', List.mem_cons_of_mem t ht', h⟩

/-- A claim goes on only by its own statements. -/
theorem platformAct_claim {a : Action} {w w' : World} {l : Proc} {pc' : ClaimNext.Pc}
    (ha : platformAct x p a w l = some (w', .claim worker pc')) (hstart : ∀ task, a ≠ .start task) :
    ∃ pc i, l = .claim worker pc ∧ w.apply p (ClaimNext.step worker w i pc).1 = some w' ∧
      (ClaimNext.step worker w i pc).2 = .running pc' := by
  cases a with
  | start task => exact absurd rfl (hstart task)
  | run i =>
    obtain ⟨w₁, hw, h⟩ := Option.map_eq_some_iff.mp ha
    obtain ⟨rfl, hnext⟩ := Prod.mk.inj h
    rcases l.next_task (x := x) (p := p) w i with htask | htask
    · rw [hnext] at htask
      contradiction
    · rw [hnext] at htask
      cases l with
      | claim worker' pc =>
        obtain rfl : worker = worker' := Task.claim.inj (Option.some.inj htask)
        refine ⟨pc, i, rfl, hw, ?_⟩
        have hproc : (ClaimNext.step worker w i pc).2.proc (.claim worker) = .claim worker pc' := hnext
        cases hr : (ClaimNext.step worker w i pc).2 with
        | running pc'' =>
          rw [hr] at hproc
          rw [(Proc.claim.inj hproc).2]
        | returned _ | raised _ =>
          rw [hr] at hproc
          contradiction
      | idle | unwinding => contradiction
      | _ => cases (Option.some.inj htask)
  | lost i =>
    obtain ⟨w₁, -, h⟩ := Option.map_eq_some_iff.mp ha
    have hfailing := (Prod.mk.inj h).2
    cases l with
    | reconcile worker' runId pc => cases pc <;> contradiction
    | _ => contradiction
  | fail =>
    have hfailing := (Prod.mk.inj (Option.some.inj ha)).2
    cases l with
    | reconcile worker' runId pc => cases pc <;> contradiction
    | _ => contradiction
  | crash => cases (Prod.mk.inj (Option.some.inj ha)).2

theorem Reached.waits (h : Reached x c) {runId : UUID} {release : ModelReleaseRow}
    (hp : c.procs p = .claim worker (.lockRun runId release)) : c.shared.tables.Waits runId := by
  have hk := (((queue_established x).holds c h).2 p).1
  rw [hp] at hk
  exact hk

/-- The locked row is as the candidate query found it. -/
theorem lockRun_of_waits (worker : Worker) {w : World} (i : Input) {runId : UUID} (release : ModelReleaseRow)
    (h : w.tables.Waits runId) : ∃ row, w.tables.runs.find? runId = some row ∧
      ClaimNext.step worker w i (.lockRun runId release) =
        (.lock (.run runId), .running (.loadRelease release row)) := by
  obtain ⟨row, hrow, hwaiting⟩ := h
  have hopen : ¬ (row.status ≠ .queued ∨ row.acceptedAt = none) := by
    rintro (hstatus | hnone)
    · exact hstatus hwaiting.status
    · have hsome := hwaiting.acceptedAt
      simp [hnone] at hsome
  refine ⟨row, hrow, ?_⟩
  simp only [ClaimNext.step, hrow, if_neg hopen]

/-- The release of a waiting run describes it. -/
theorem Reached.started_running (h : Reached x c) {u : UnitOfWork} {started : Option UUID}
    (hp : c.procs p = .claim worker (.commit (some u) started)) : u.row.status = .running := by
  have hk := h.configures p
  rw [hp] at hk
  exact hk.2.2

/-- A turn of a claim that goes on is one of its statements. -/
theorem claim_turn {a : Action} {pc' : ClaimNext.Pc} (hstart : ∀ task, a ≠ .start task)
    (hs : (platform x).step c (.act p a) = some c') (hc : c'.procs p = .claim worker pc') :
    ∃ pc i, c.procs p = .claim worker pc ∧ (ClaimNext.step worker c.shared i pc).2 = .running pc' := by
  obtain ⟨⟨w', l'⟩, ha, rfl⟩ := Option.map_eq_some_iff.mp hs
  obtain rfl : l' = .claim worker pc' := by simpa only [Function.update_self] using hc
  obtain ⟨pc, i, hp, -, hr⟩ := platformAct_claim ha hstart
  exact ⟨pc, i, hp, hr⟩

/-- The re-check of the locked row passes. -/
theorem Reached.lockRun_running (h : Reached x c) {runId : UUID} {release : ModelReleaseRow} {i : Input}
    {pc' : ClaimNext.Pc} (hp : c.procs p = .claim worker (.lockRun runId release))
    (hr : (ClaimNext.step worker c.shared i (.lockRun runId release)).2 = .running pc') :
    ∃ row, c.shared.tables.runs.find? runId = some row ∧ pc' = .loadRelease release row := by
  obtain ⟨row, hrow, hstep⟩ := lockRun_of_waits worker i release (h.waits hp)
  rw [hstep] at hr
  exact ⟨row, hrow, (Progress.running.inj hr).symm⟩

/-- The definition of the release has not changed, so the run is started. -/
theorem Reached.loadRelease_running (h : Reached x c) (h' : Reached x c') {release : ModelReleaseRow} {row : Run}
    {i : Input} {pc' : ClaimNext.Pc} (hp : c.procs p = .claim worker (.loadRelease release row))
    (hr : (ClaimNext.step worker c.shared i (.loadRelease release row)).2 = .running pc')
    (hc : c'.procs p = .claim worker pc') :
    ∃ now, pc' = .commit (some (ClaimNext.start row worker.namespace now)) (some row.id) := by
  have hstep : ClaimNext.step worker c.shared i (.loadRelease release row) =
    attempt (ClaimNext.decide worker c.shared.tables release row i) fun pc => (.read, .running pc) := rfl
  rcases attempt_eq hstep.symm with ⟨-, err, -, hraised⟩ | ⟨pc'', hd, hread⟩
  · cases (hr.symm.trans hraised)
  obtain rfl : pc'' = pc' := Progress.running.inj ((congrArg Prod.snd hread).trans hr)
  obtain ⟨definition, -, ⟨-, rfl⟩ | ⟨-, rfl⟩⟩ := ClaimNext.decide_ok hd
  · exact ⟨i.now, rfl⟩
  · have hrunning := h'.started_running hc
    have hknows := (((runHistory_established x).holds c h).2 p).1
    rw [hp] at hknows
    have hqueued : (finishRow (.clean row) (some "execution_definition_changed") [] i.defaults).loaded.status ≠
        .running := by
      rw [finishRow_loaded, UnitOfWork.clean_loaded, hknows.1]
      intro he
      cases he
    exact absurd ⟨hqueued, hrunning⟩ finishRow_not_starts

theorem found_step {a : Action} {pc' : ClaimNext.Pc} (h : Reached x c) (hstart : ∀ task, a ≠ .start task)
    (hfound : ∀ pc, c.procs p = .claim worker pc → ClaimNext.Found worker p turns pc)
    (hs : (platform x).step c (.act p a) = some c') (hc : c'.procs p = .claim worker pc') :
    ClaimNext.Found worker p ((c, a) :: turns) pc' := by
  obtain ⟨pc, i, hp, hr⟩ := claim_turn hstart hs hc
  have hpc := hfound pc hp
  have hmem : ((c, a) : Config Pid World Proc × Action) ∈ (c, a) :: turns := List.mem_cons_self
  cases pc with
  | lockCapacity =>
    obtain rfl := Progress.running.inj hr
    trivial
  | count =>
    simp only [ClaimNext.step] at hr
    split at hr <;> obtain rfl := Progress.running.inj hr
    · exact ⟨rfl, .inl ⟨(c, a), hmem, hp, ‹_›⟩⟩
    · trivial
  | candidate =>
    simp only [ClaimNext.step] at hr
    split at hr <;> obtain rfl := Progress.running.inj hr
    · exact ⟨rfl, .inr ⟨(c, a), hmem, hp, none_waiting_of_candidate ‹_›⟩⟩
    · exact ⟨(c, a), hmem, hp, _, .of_candidate ‹_›, rfl⟩
  | lockRelease runId releaseId =>
    simp only [ClaimNext.step] at hr
    split at hr
    · contradiction
    · obtain rfl := Progress.running.inj hr
      exact Selected.cons (c, a) hpc
  | lockRun runId release =>
    obtain ⟨row, hrow, rfl⟩ := h.lockRun_running hp hr
    obtain rfl : row.id = runId := Table.key_of_find? hrow
    exact Selected.cons (c, a) hpc
  | loadRelease release row =>
    obtain ⟨now, rfl⟩ := h.loadRelease_running (.step h trivial hs) hp hr hc
    exact ⟨rfl, Selected.cons (c, a) hpc, now, rfl⟩
  | commit u started => contradiction

theorem found (h : Reached x c) (hp : c.procs p = .claim worker .lockCapacity)
    (hturns : Turns (platform x) (fun _ _ => True) p c turns c') (hcall : ∀ t ∈ turns, ∀ task, t.2 ≠ .start task)
    {pc : ClaimNext.Pc} (hc : c'.procs p = .claim worker pc) : ClaimNext.Found worker p turns pc := by
  refine hturns.invariant (fun turns l => (∀ t ∈ turns, ∀ task, t.2 ≠ .start task) →
    ∀ pc, l = .claim worker pc → ClaimNext.Found worker p turns pc) (fun _ pc hpc => ?_) ?_ hcall pc hc
  · obtain rfl : ClaimNext.Pc.lockCapacity = pc := (Proc.claim.inj (hp.symm.trans hpc)).2
    trivial
  · intro turns c₁ c₂ a hr ih _ hs hcall pc hpc
    exact found_step (h.trans hr) (hcall _ List.mem_cons_self)
      (ih fun t ht => hcall t (List.mem_cons_of_mem _ ht)) hs hpc

/-- What the commit of a claim writes. -/
theorem Reached.claim_commit (h : Reached x c) {u : Option UnitOfWork} {started : Option UUID} {i : Input}
    (hp : c.procs p = .claim worker (.commit u started)) (hs : (platform x).step c (.act p (.run i)) = some c') :
    (ClaimNext.change u).Allowed c.shared.tables ∧
      (ClaimNext.change u).apply c.shared.tables = some c'.shared.tables := by
  obtain ⟨⟨w', l'⟩, ha, rfl⟩ := Option.map_eq_some_iff.mp hs
  obtain ⟨w₁, hw, h₁⟩ := Option.map_eq_some_iff.mp ha
  obtain ⟨rfl, -⟩ := Prod.mk.inj h₁
  obtain ⟨hknows, hheld⟩ := ((runHistory_established x).holds c h).2 p
  obtain ⟨hal, -⟩ := Proc.knows_step rfl hknows hheld hw
  rw [hp] at hal hw
  obtain ⟨tables, htables, rfl⟩ := commit_apply hw
  exact ⟨hal, htables⟩

/-- Claims are first come, first served, and leave no room unused. -/
theorem claim_next_in_order (x : External) :
    (∀ c₀ c c' p worker turns u started i, Reached x c₀ → c₀.procs p = .claim worker .lockCapacity →
      Turns (platform x) (fun _ _ => True) p c₀ turns c → (∀ t ∈ turns, ∀ task, t.2 ≠ .start task) →
      c.procs p = .claim worker (.commit u started) → (platform x).step c (.act p (.run i)) = some c' →
      (∀ id, started = some id → ClaimNext.Selected worker p turns id ∧
        ∃ row now, c.shared.tables.runs.find? id = some row ∧
          c'.shared.tables = { c.shared.tables with runs := c'.shared.tables.runs } ∧
          ∀ other, c'.shared.tables.runs.find? other = if other = id then some { row with
            status := .running, dispatchStartedAt := some now, jobNamespace := some worker.namespace }
            else c.shared.tables.runs.find? other) ∧
      (started = none → c'.shared.tables = c.shared.tables ∧ ClaimNext.Refused worker p turns)) ∧
    (∀ c c' p worker runId release i u, Reached x c → c.procs p = .claim worker (.lockRun runId release) →
      (platform x).step c (.act p (.run i)) = some c' → c'.procs p ≠ .claim worker (.commit u none)) ∧
    ∀ c c' p worker release row i u, Reached x c → c.procs p = .claim worker (.loadRelease release row) →
      (platform x).step c (.act p (.run i)) = some c' → c'.procs p ≠ .claim worker (.commit u none) := by
  refine ⟨?_, ?_, ?_⟩
  · intro c₀ c c' p worker turns u started i h hp hturns hcall hc hs
    have hfound := found h hp hturns hcall hc
    have hreached : Reached x c := h.trans hturns.reachable
    obtain ⟨hal, hchange⟩ := hreached.claim_commit hc hs
    cases u with
    | none =>
      obtain ⟨rfl, hrefused⟩ := hfound
      exact ⟨nofun, fun _ => ⟨Change.nothing_apply hchange, hrefused⟩⟩
    | some u =>
      obtain ⟨rfl, hselected, now, hu⟩ := hfound
      refine ⟨fun id hid => ?_, nofun⟩
      obtain rfl := Option.some.inj hid
      have hfind := find?_outcome hal hchange
      have hrow : u.row = { u.loaded with
          status := .running, dispatchStartedAt := some now, jobNamespace := some worker.namespace } :=
        congrArg UnitOfWork.row hu
      have hartifacts : u.artifacts = [] := congrArg UnitOfWork.artifacts hu
      have hevents : u.events = [] := congrArg UnitOfWork.events hu
      refine ⟨hselected, u.loaded, now, hal.2, ?_, fun other => hrow ▸ hfind other⟩
      obtain ⟨artifacts, outbox, hins, hout, htables⟩ := Change.outcome_apply hchange
      rw [hartifacts] at hins
      rw [hevents] at hout
      obtain rfl := Option.some.inj hins
      obtain rfl := Option.some.inj hout
      rw [htables]
  · intro c c' p worker runId release i u h hp hs hcommit
    obtain ⟨pc, i', hp', hr⟩ := claim_turn (fun _ h => by cases h) hs hcommit
    obtain rfl : ClaimNext.Pc.lockRun runId release = pc := (Proc.claim.inj (hp.symm.trans hp')).2
    obtain ⟨row, -, hpc⟩ := h.lockRun_running hp hr
    contradiction
  · intro c c' p worker release row i u h hp hs hcommit
    obtain ⟨pc, i', hp', hr⟩ := claim_turn (fun _ h => by cases h) hs hcommit
    obtain rfl : ClaimNext.Pc.loadRelease release row = pc := (Proc.claim.inj (hp.symm.trans hp')).2
    obtain ⟨now, hpc⟩ := h.loadRelease_running (.step h trivial hs) hp hr hcommit
    exact absurd (ClaimNext.Pc.commit.inj hpc).2 nofun

end Turns

/-- Of the three runs that wait the oldest is claimed. -/
theorem claim_next_in_order_demo : ∃ (c₀ c c' : Config Pid World Proc) (turns : TurnLog) (row : Run),
    Reached Demo.external c₀ ∧ Turns (platform Demo.external) (fun _ _ => True) 0 c₀ turns c ∧
    ClaimNext.Selected (Demo.workerOf 2) 0 turns 3 ∧
    c'.shared.tables.runs.find? 3 = some row ∧ row.status = .running := by
  obtain ⟨c₀, hc₀, hbefore, hrest⟩ := System.passes_cons Demo.claims_pass
  obtain ⟨c, hrun, hstarts, hrest⟩ := System.passes_cons hrest
  obtain ⟨c', hlast, -⟩ := System.passes_cons hrest
  obtain ⟨u, hc⟩ := Demo.startsRun_iff hstarts
  obtain ⟨turns, hturns, hactions⟩ : ∃ turns, Turns (platform Demo.external) (fun _ _ => True) 0 c₀ turns c ∧
      turns.map Prod.snd = Demo.claimTurns.reverse := turns_of_run (fun _ _ => trivial) hrun
  have hcall : ∀ t ∈ turns, ∀ task, t.2 ≠ .start task := by
    intro t ht task hstart
    have hmem : t.2 ∈ Demo.claimTurns.reverse := hactions ▸ List.mem_map_of_mem ht
    rw [List.mem_reverse, hstart] at hmem
    exact absurd (List.eq_of_mem_replicate hmem) nofun
  have hlast : (platform Demo.external).step c (.act 0 (.run (Demo.input 0))) = some c' := by
    obtain ⟨d, hs, hd⟩ := Option.bind_eq_some_iff.mp hlast
    obtain rfl : d = c' := Option.some.inj hd
    exact hs
  obtain ⟨hselected, row, now, -, -, hfind⟩ := ((claim_next_in_order Demo.external).1 c₀ c c' 0 (Demo.workerOf 2) turns _ _ _
    (Demo.reached hc₀) (Demo.beforeClaim_iff hbefore) hturns hcall hc hlast).1 3 rfl
  exact ⟨c₀, c, c', turns, _, Demo.reached hc₀, hturns, hselected, (hfind 3).trans (if_pos rfl), rfl⟩

end Mic3

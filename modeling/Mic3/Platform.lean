import Mic3.Consumption
import Mic3.Reconciliation
import Mic3.Registration

/-! The whole platform: any number of processes, each running one of the programs or nothing, over the
shared servers. A statement succeeds, fails, or takes effect while its caller sees a failure; a
process dies at any point. Third parties touch the cluster and the broker. -/
namespace Mic3
open Interleaving

/-- The code outside the repository: the chart renderer and the standard library's codecs. -/
structure External where
  helm : Helm
  isoformat : Datetime → String
  decoders : Decoders

/-- A definition that `RegisterRelease.execute` lets through. -/
abbrev Registrable := {d : ReleaseDefinition // ∃ config, RegisterRelease.definition config = .ok d}

/-- What a process is doing. -/
inductive Proc where
  | idle
  | submit (call : SubmitRun) (pc : SubmitRun.Pc)
  | register (definition : Registrable) (pc : Catalog.Pc)
  | accept (runId : UUID) (pc : AcceptRun.Pc)
  | claim (worker : Worker) (pc : ClaimNext.Pc)
  | reconcile (worker : Worker) (runId : UUID) (pc : Reconcile.Pc)
  | publish (publisher : Publisher) (pc : PublishOutbox.Pc)
  | consume (topic : String) (pc : Consumer.Pc)
  /-- An exception ends the program: what its connections hold goes. -/
  | unwinding

inductive Task where
  | submit (call : SubmitRun)
  | register (definition : Registrable)
  | accept (runId : UUID)
  | claim (worker : Worker)
  | reconcile (worker : Worker) (runId : UUID)
  | publish (publisher : Publisher)
  | consume (topic : String)

def Task.proc : Task → Proc
  | .submit call => .submit call .getRelease
  | .register definition => .register definition .insertModel
  | .accept runId => .accept runId .readRelease
  | .claim worker => .claim worker .lockCapacity
  | .reconcile worker runId => .reconcile worker runId .acquire
  | .publish publisher => .publish publisher .select
  | .consume topic => .consume topic .poll

inductive Action where
  | start (task : Task)
  /-- The next statement, and the code up to the one after it. -/
  | run (i : Input)
  /-- The statement takes effect, and its caller sees an exception. -/
  | lost (i : Input)
  /-- The statement fails. -/
  | fail
  | crash

/-- What others do: users are added, Jobs change, go or come, records arrive or are delivered, and the
group takes a partition back. -/
inductive External.Event where
  | addUser (id : UUID)
  | updateJob (key : JobKey) (job : JobObject)
  | deleteJob (key : JobKey)
  | createJob (key : JobKey) (job : JobObject)
  | append (tp : TopicPartition) (message : Message)
  | deliver (sent : ℕ) (partition : ℕ)
  | revoke (tp : TopicPartition)

def Progress.proc {π ρ : Type} (f : π → Proc) : Progress π ρ → Proc
  | .running pc => f pc
  | .returned _ | .raised _ => .idle

/-- What holds of the code that runs next holds of the process, when it holds of an idle one. -/
theorem Progress.All.proc {π ρ : Type} {f : π → Proc} {P : π → Prop} {Q : Proc → Prop} {r : Progress π ρ}
    (h : r.All P) (hf : ∀ pc, P pc → Q (f pc)) (hidle : Q .idle) : Q (r.proc f) := by
  cases r with
  | running pc => exact hf pc h
  | returned _ | raised _ => exact hidle

theorem Progress.all_true {π ρ : Type} (r : Progress π ρ) : r.All fun _ => True := by
  cases r <;> trivial

/-- The effect of a process's next statement, and where it stands after. -/
def Proc.next (x : External) (p : Pid) (w : World) (i : Input) : Proc → Effect × Proc
  | .idle => (.read, .idle)
  | .unwinding => (.disconnect, .idle)
  | .submit call pc => (call.step w i pc).map id (·.proc (.submit call))
  | .register definition pc => (Catalog.step definition w i pc).map id (·.proc (.register definition))
  | .accept runId pc => (AcceptRun.step runId w i pc).map id (·.proc (.accept runId))
  | .claim worker pc => (ClaimNext.step worker w i pc).map id (·.proc (.claim worker))
  | .reconcile worker runId pc =>
    (Reconcile.step x.helm worker runId p w i pc).map id (·.proc (.reconcile worker runId))
  | .publish publisher pc =>
    (PublishOutbox.step x.isoformat publisher p w i pc).map id (·.proc (.publish publisher))
  | .consume topic pc => (Consumer.step x.decoders topic p w i pc).map id (·.proc (.consume topic))

/-- Where an exception from a server leaves a process. A reconcile call that holds the run's lock still
unlocks it. -/
def Proc.failing : Proc → Proc
  | .idle => .idle
  | .reconcile _ _ .acquire | .reconcile _ _ (.exit _) => .unwinding
  | .reconcile worker runId _ => .reconcile worker runId (.unwind .databaseError)
  | _ => .unwinding

def platformAct (x : External) (p : Pid) (a : Action) (w : World) (l : Proc) : Option (World × Proc) :=
  match a with
  | .start task => if l matches .idle then some (w, task.proc) else none
  | .run i => (w.apply p (l.next x p w i).1).map fun w' => (w', (l.next x p w i).2)
  | .lost i => (w.apply p (l.next x p w i).1).map fun w' => (w', l.failing)
  | .fail => some (w, l.failing)
  | .crash => some (w.disconnect p, .idle)

/-- What an action does to the servers: nothing, the next statement, or what they do for a dead process. -/
theorem platformAct_effect {x : External} {p : Pid} {a : Action} {w w' : World} {l l' : Proc}
    (ha : platformAct x p a w l = some (w', l')) :
    w' = w ∨ w' = w.disconnect p ∨ ∃ i, w.apply p (l.next x p w i).1 = some w' := by
  cases a with
  | start task =>
    obtain ⟨-, h⟩ := Option.ite_none_right_eq_some.mp ha
    exact .inl (Prod.mk.inj (Option.some.inj h)).1.symm
  | run i | lost i =>
    obtain ⟨w₁, hw, h⟩ := Option.map_eq_some_iff.mp ha
    obtain ⟨rfl, -⟩ := Prod.mk.inj h
    exact .inr (.inr ⟨i, hw⟩)
  | fail => exact .inl (Prod.mk.inj (Option.some.inj ha)).1.symm
  | crash => exact .inr (.inl (Prod.mk.inj (Option.some.inj ha)).1.symm)

def World.event (w : World) : External.Event → Option World
  | .addUser id => some { w with pg := { w.pg with tables := { w.tables with
      users := id :: w.tables.users } } }
  | .updateJob key job => (w.cluster.jobs key).map fun old => { w with cluster := { w.cluster with
      jobs := Function.update w.cluster.jobs key (some { job with uid := old.uid }) } }
  | .deleteJob key => some { w with cluster := { w.cluster with
      jobs := Function.update w.cluster.jobs key none } }
  | .createJob key job => w.create false key job
  | .append tp message => some { w with broker := { w.broker with
      log := Function.update w.broker.log tp (w.broker.log tp ++ [⟨message, none⟩]) } }
  | .deliver sent partition => w.broker.inFlight[sent]?.map fun record =>
    let tp := (record.topic, partition)
    { w with broker := { w.broker with
      log := Function.update w.broker.log tp (w.broker.log tp ++ [⟨record.message, some record.event⟩])
      stored := record.event :: w.broker.stored } }
  | .revoke tp => some { w with broker := { w.broker with
      owner := Function.update w.broker.owner tp none } }

def platform (x : External) : System Pid World Proc Action External.Event where
  act := platformAct x
  env := fun e w => w.event e

/-- Empty tables, an empty cluster and empty logs. -/
def World.initial : World where
  pg := ⟨.empty, .free, fun _ => none⟩
  cluster := ⟨fun _ => none, [], []⟩
  broker := ⟨fun _ => [], fun _ => 0, fun _ => none, fun _ => 0, [], []⟩
  history := []

def initial : Config Pid World Proc := ⟨World.initial, fun _ => .idle⟩

/-- The configurations of all runs from the empty platform. -/
abbrev Reached (x : External) (c : Config Pid World Proc) : Prop :=
  Reachable (platform x) (fun _ _ => True) initial c

/-! A run from the empty platform to a stored output, with a chart that renders what the worker compares,
one release and one run of it. -/
namespace Demo

def image : String :=
  "registry.local/demo@sha256:aaaaaaaaaaaaaaaaaaaaaaaaaaaaaaaaaaaaaaaaaaaaaaaaaaaaaaaaaaaaaaaa"

def config : Json := .obj [("model_id", .str "demo"), ("display_name", .str "Demo"),
  ("image_digest", .str image), ("execution_definition", .obj [("modes", .obj [("fast", .obj [
    ("arguments", .arr [.str "solve"]), ("working_directory", .str "/work"),
    ("output_directory", .str "/out"), ("required_outputs", .arr [.str "result.txt"])])])])]

def release : ReleaseDefinition :=
  ⟨"demo", "Demo", image, ⟨[("fast", ⟨["solve"], "/work", "/out", ⟨["result.txt"]⟩⟩)]⟩⟩

def registrable : Registrable := ⟨release, config, rfl⟩

def template (model : Json) : Json := .obj [("spec", .obj [("restartPolicy", .str "Never"),
  ("initContainers", .arr [.obj [("name", .str "model"), ("image", (model.get? "image").getD .null),
    ("workingDir", (model.get? "workingDir").getD .null),
    ("command", (model.get? "command").getD .null)]])])]

def helm : Helm := fun _ name _ values =>
  let value (key : String) := (values.get? key).getD .null
  let model := value "model"
  some [.obj [("kind", .str "Job"), ("metadata", .obj [("name", .str name),
      ("annotations", .obj [("mic3.io/fingerprint", value "runFingerprint")]),
      ("labels", .obj [("app.kubernetes.io/name", (model.get? "id").getD .null),
        ("app.kubernetes.io/instance", .str name), ("mic3.io/run-id", value "runId")])]),
    ("spec", .obj [("backoffLimit", .int 0), ("template", template model)])]]

def isoformat : Datetime → String := fun _ => "1970-01-01T00:00:00+00:00"

/-- The text up to the next quotation mark, and what follows it. -/
def unquoted (text : List Char) : String × List Char :=
  let (before, after) := text.span (· ≠ '"')
  (String.ofList before, after.drop 1)

/-- Reads the envelopes: every second piece between quotation marks is a name or a value. -/
def jsonLoads (bytes : Bytes) : Option Json :=
  let field (n : ℕ) : Json :=
    .str (unquoted (Nat.iterate (fun rest => (unquoted rest).2) n (bytes.map Char.ofNat))).1
  some (.obj [("schema_version", .int 1), ("event_id", field 5), ("run_id", field 9),
    ("event_type", field 13), ("created_at", field 17)])

def external : External := ⟨helm, isoformat, ⟨jsonLoads, UUID.parse, fun _ => some ⟨0, some 0⟩⟩⟩

def worker : Worker := ⟨"science", 1, 0⟩
def publisher : Publisher := ⟨10, "requests", "events"⟩
def runId : UUID := 2#128
def jobKey : JobKey := ("science", "mic3-run-" ++ runId.str)

def fingerprint : String :=
  "0a2a723ee97aaff615f64d02b79f167aca24a3e31fb20834f7a7f70b456705af"

def job (conditions : List (String × String)) : JobObject where
  uid := "job-1"
  labels := .obj [("app.kubernetes.io/name", .str "demo"), ("app.kubernetes.io/instance", .str jobKey.2),
    ("mic3.io/run-id", .str runId.str)]
  annotations := .obj [("mic3.io/fingerprint", .str fingerprint)]
  spec := .obj [("backoffLimit", .int 0), ("template", template (.obj [("image", .str image),
    ("workingDir", .str "/work"), ("command", .arr [.str "solve"])]))]
  conditions

def outputs : List Artifact := [⟨"outputs",
  "demo/sha256-aaaaaaaaaaaaaaaaaaaaaaaaaaaaaaaaaaaaaaaaaaaaaaaaaaaaaaaaaaaaaaaa/" ++ runId.str ++
    "/outputs/result.txt", 5⟩]

def input (uuid : UUID) : Input :=
  ⟨0, uuid, 0, 0, false, true, job [], [], outputs, ("requests", 0)⟩

abbrev Step := Label Pid Action External.Event

/-- A process starts a task and runs its first statements. -/
def runs (p : Pid) (task : Task) (uuids : List UUID) : List Step :=
  .act p (.start task) :: uuids.map fun uuid => .act p (.run (input uuid))

/-- The run is registered, submitted, published and accepted. -/
def accepting : List Step :=
  runs 0 (.register registrable) (List.replicate 6 1) ++
  runs 0 (.submit ⟨1, .obj [("mode", .str "fast")], none, none⟩) [2, 2, 2, 2, 2, 3, 3] ++
  runs 0 (.publish publisher) (List.replicate 4 0) ++ [.env (.deliver 0 0)] ++
  List.replicate 2 (.act 0 (.run (input 0))) ++ runs 1 (.consume "requests") (List.replicate 9 0)

/-- It is claimed, and a worker is about to create its Job. -/
def creating : List Step :=
  runs 0 (.claim worker) (List.replicate 7 0) ++ runs 0 (.reconcile worker runId) (List.replicate 6 0)

/-- The Job is created and completes, and its outputs are stored. -/
def finishing : List Step :=
  List.replicate 4 (.act 0 (.run (input 0))) ++
  [.env (.updateJob jobKey (job [("Complete", "True")]))] ++
  runs 0 (.reconcile worker runId) (List.replicate 12 4)

/-- The run's row, where it stands. -/
def row (c : Config Pid World Proc) : Option Run := c.shared.tables.runs.find? runId

def isAccepted (c : Config Pid World Proc) : Bool :=
  (row c).any fun r => r.status = .queued ∧ r.acceptedAt.isSome ∧ c.shared.broker.committed ("requests", 0) = 1

def isCreating (c : Config Pid World Proc) : Bool :=
  (row c).any (fun r => r.status = .running) && c.procs 0 matches .reconcile _ _ (.create _)

def isFinished (c : Config Pid World Proc) : Bool :=
  (row c).any fun r => r.status = .succeeded ∧ r.jobUid = some "job-1" ∧
    c.shared.tables.artifacts.rows.length = 1

/-- The three stages, each ending where its check holds. -/
theorem passes : (platform external).passes initial
    [(accepting, isAccepted), (creating, isCreating), (finishing, isFinished)] = true := by
  decide +kernel

-- From here on the run is known by its checks alone.
attribute [irreducible] accepting creating finishing

theorem accepted : ∃ c r, (platform external).run initial accepting = some c ∧ row c = some r ∧
    r.status = .queued ∧ r.acceptedAt.isSome ∧ c.shared.broker.committed ("requests", 0) = 1 := by
  obtain ⟨c, hc, hcheck, -⟩ := System.passes_cons passes
  obtain ⟨r, hr, hcheck⟩ := (Option.any_eq_true _ _).mp hcheck
  exact ⟨c, r, hc, hr, of_decide_eq_true hcheck⟩

theorem created : ∃ c r call, (platform external).run initial (accepting ++ creating) = some c ∧
    row c = some r ∧ r.status = .running ∧ ∃ w id, c.procs 0 = .reconcile w id (.create call) := by
  obtain ⟨c, hc, hcheck, -⟩ := System.passes_cons (System.passes_join passes)
  obtain ⟨hrow, hproc⟩ := Bool.and_eq_true_iff.mp hcheck
  obtain ⟨r, hr, hrunning⟩ := (Option.any_eq_true _ _).mp hrow
  split at hproc
  · exact ⟨c, r, _, hc, hr, of_decide_eq_true hrunning, _, _, ‹_›⟩
  · exact absurd hproc Bool.false_ne_true

theorem finished : ∃ c r, (platform external).run initial (accepting ++ creating ++ finishing) = some c ∧
    row c = some r ∧ r.status = .succeeded ∧ r.jobUid = some "job-1" ∧
    c.shared.tables.artifacts.rows.length = 1 := by
  obtain ⟨c, hc, hcheck, -⟩ := System.passes_cons (System.passes_join (System.passes_join passes))
  obtain ⟨r, hr, hcheck⟩ := (Option.any_eq_true _ _).mp hcheck
  exact ⟨c, r, hc, hr, of_decide_eq_true hcheck⟩

/-! Three runs that wait, for two workers of different capacities. -/

def submits (createdAt : Time) (id event : UUID) : List Step :=
  .act 0 (.start (.submit ⟨1, .obj [("mode", .str "fast")], none, none⟩)) ::
    [id, id, id, id, id, event, event].map fun uuid => .act 0 (.run { input uuid with createdAt })

/-- The runs 2, 3 and 4 are accepted; the oldest is 3, and then comes 4. -/
def queueing : List Step :=
  runs 0 (.register registrable) (List.replicate 6 1) ++
  submits 5 2 12 ++ submits 1 3 13 ++ submits 3 4 14 ++
  runs 1 (.accept 2) (List.replicate 5 0) ++ runs 1 (.accept 3) (List.replicate 5 0) ++
  runs 1 (.accept 4) (List.replicate 5 0)

/-- A worker that runs this many at a time. -/
def workerOf (capacity : ℕ) : Worker := ⟨"science", capacity, 0⟩

def isWorker (capacity : ℕ) (w : Worker) : Bool :=
  w.namespace = "science" ∧ w.capacity = capacity ∧ w.chart = 0

def beforeClaim (capacity : ℕ) (c : Config Pid World Proc) : Bool :=
  match c.procs 0 with
  | .claim w .lockCapacity => isWorker capacity w
  | _ => false

/-- The claim is about to decide that this run starts. -/
def choosesRun (capacity : ℕ) (id : UUID) (c : Config Pid World Proc) : Bool :=
  match c.procs 0 with
  | .claim w (.loadRelease release row) => isWorker capacity w &&
    match ClaimNext.decide w c.shared.tables release row (input 0) with
    | .ok (.commit (some _) (some started)) => started = id
    | _ => false
  | _ => false

def startsRun (capacity : ℕ) (id : UUID) (c : Config Pid World Proc) : Bool :=
  match c.procs 0 with
  | .claim w (.commit (some _) (some started)) => isWorker capacity w && started = id
  | _ => false

def runningAre (ids : List UUID) (c : Config Pid World Proc) : Bool :=
  c.shared.tables.runningIds = ids ∧ c.shared.tables.runningCount = ids.length

/-- The statements of a claim before the last one. -/
def claimTurns : List Action := List.replicate 6 (.run (input 0))

/-- A worker of capacity 2 claims two runs, and one of capacity 3 the third. -/
theorem claims_pass : (platform external).passes initial
    [(queueing ++ [.act 0 (.start (.claim (workerOf 2)))], beforeClaim 2), (claimTurns.map (.act 0), startsRun 2 3),
      ([.act 0 (.run (input 0))], runningAre [3]), (runs 0 (.claim (workerOf 2)) (List.replicate 7 0), runningAre [3, 4]),
      (runs 0 (.claim (workerOf 3)) (List.replicate 5 0), choosesRun 3 2),
      ([.act 0 (.run (input 0))], startsRun 3 2), ([.act 0 (.run (input 0))], runningAre [3, 4, 2])] = true := by
  decide +kernel

attribute [irreducible] queueing

theorem isWorker_iff {capacity : ℕ} {w : Worker} (h : isWorker capacity w = true) : w = workerOf capacity := by
  obtain ⟨hnamespace, hcapacity, hchart⟩ := of_decide_eq_true h
  obtain ⟨ns, c, chart⟩ := w
  obtain rfl : ns = "science" := hnamespace
  obtain rfl : c = capacity := hcapacity
  obtain rfl : chart = 0 := hchart
  rfl

theorem runningAre_iff {ids : List UUID} {c : Config Pid World Proc} (h : runningAre ids c = true) :
    c.shared.tables.runningIds = ids ∧ c.shared.tables.runningCount = ids.length :=
  of_decide_eq_true h

theorem beforeClaim_iff {capacity : ℕ} {c : Config Pid World Proc} (h : beforeClaim capacity c = true) :
    c.procs 0 = .claim (workerOf capacity) .lockCapacity := by
  unfold beforeClaim at h
  split at h
  · obtain rfl := isWorker_iff h
    assumption
  · exact absurd h Bool.false_ne_true

theorem choosesRun_iff {capacity : ℕ} {id : UUID} {c : Config Pid World Proc} (h : choosesRun capacity id c = true) :
    ∃ release row u, c.procs 0 = .claim (workerOf capacity) (.loadRelease release row) ∧
      ClaimNext.decide (workerOf capacity) c.shared.tables release row (input 0) = .ok (.commit (some u) (some id)) := by
  unfold choosesRun at h
  split at h
  · obtain ⟨hworker, hchosen⟩ := Bool.and_eq_true_iff.mp h
    obtain rfl := isWorker_iff hworker
    split at hchosen
    · obtain rfl := of_decide_eq_true hchosen
      exact ⟨_, _, _, ‹_›, ‹_›⟩
    · exact absurd hchosen Bool.false_ne_true
  · exact absurd h Bool.false_ne_true

theorem startsRun_iff {capacity : ℕ} {id : UUID} {c : Config Pid World Proc} (h : startsRun capacity id c = true) :
    ∃ u, c.procs 0 = .claim (workerOf capacity) (.commit (some u) (some id)) := by
  unfold startsRun at h
  split at h
  · obtain ⟨hworker, hstarted⟩ := Bool.and_eq_true_iff.mp h
    obtain rfl := isWorker_iff hworker
    obtain rfl := of_decide_eq_true hstarted
    exact ⟨_, ‹_›⟩
  · exact absurd h Bool.false_ne_true

/-- What the steps reach is reached. -/
theorem reached {steps : List Step} {c : Config Pid World Proc}
    (h : (platform external).run initial steps = some c) : Reached external c :=
  reachable_of_run (fun _ _ _ => trivial) h

end Demo

end Mic3

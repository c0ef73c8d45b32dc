import Mic3.Knowledge
import Mic3.Layers

/-! The life of every run in every run of the platform: all runs are well formed, and none is ever taken
back. -/
namespace Mic3
open Relational Interleaving

/-- Every process knows its run, the tables are consistent, and every step advances the runs. -/
def runHistory : Contract Pid World Proc where
  inv := fun w => w.tables.Consistent
  assert := fun _ l w => l.Knows w.tables
  guarantee := fun _ w w' => w.tables.Advances w'.tables

section Layer
variable {x : External} {p : Pid} {w w' : World} {i : Input} {e : Effect} {l l' : Proc}

theorem Proc.knows_step (hs : l.next x p w i = (e, l')) (hk : l.Knows w.tables) (hl : Holding p l w)
    (ha : w.apply p e = some w') : e.Allowed w.tables ∧ l'.Knows w'.tables := by
  cases l with
  | idle | unwinding =>
    obtain ⟨rfl, rfl⟩ := Prod.mk.inj hs
    exact ⟨trivial, trivial⟩
  | submit call pc =>
    obtain ⟨rfl, rfl⟩ := Prod.mk.inj hs
    obtain ⟨hal, hnext⟩ := SubmitRun.knows_step rfl hk
    exact ⟨hal, hnext.proc (Q := fun l => l.Knows w'.tables) (fun _ h => h) trivial⟩
  | register definition pc =>
    obtain ⟨rfl, rfl⟩ := Prod.mk.inj hs
    exact ⟨Catalog.allowed rfl _, (Progress.all_true _).proc (Q := fun l => l.Knows w'.tables) (fun _ h => h) trivial⟩
  | accept runId pc =>
    obtain ⟨rfl, rfl⟩ := Prod.mk.inj hs
    obtain ⟨hal, hnext⟩ := AcceptRun.knows_step rfl hk hl.valid
    exact ⟨hal, hnext.proc (Q := fun l => l.Knows w'.tables) (fun _ h => h) trivial⟩
  | claim worker pc =>
    obtain ⟨rfl, rfl⟩ := Prod.mk.inj hs
    obtain ⟨hal, hnext⟩ := ClaimNext.knows_step rfl hk hl.valid
    exact ⟨hal, hnext.proc (Q := fun l => l.Knows w'.tables) (fun _ h => h) trivial⟩
  | reconcile worker runId pc =>
    obtain ⟨rfl, rfl⟩ := Prod.mk.inj hs
    obtain ⟨hal, hnext⟩ := Reconcile.knows_step rfl hk hl.valid ha
    exact ⟨hal, hnext.proc (Q := fun l => l.Knows w'.tables) (fun _ h => h) trivial⟩
  | publish publisher pc =>
    obtain ⟨rfl, rfl⟩ := Prod.mk.inj hs
    exact ⟨PublishOutbox.allowed rfl _, (Progress.all_true _).proc (Q := fun l => l.Knows w'.tables) (fun _ h => h) trivial⟩
  | consume topic pc =>
    obtain ⟨rfl, rfl⟩ := Prod.mk.inj hs
    obtain ⟨hal, hnext⟩ := Consumer.knows_step rfl hk hl.valid
    exact ⟨hal, hnext.proc (Q := fun l => l.Knows w'.tables) (fun _ h => h) trivial⟩

theorem Proc.knows_failing (l : Proc) (t : Tables) : l.failing.Knows t := by
  cases l with
  | reconcile worker runId pc => cases pc <;> trivial
  | _ => trivial

theorem Proc.Knows.advance {t t' : Tables} (hk : l.Knows t) (h : t.Advances t') (hc : t.Consistent) :
    l.Knows t' := by
  cases l with
  | reconcile worker runId pc =>
    cases pc with
    | acquire | loadRun | unwind | exit => trivial
    | loadRelease | loadModel | observe | lookup | create | confirm | readPods | lockUid =>
      exact Tables.Dispatched.advance hk h hc
    | saveUid call observation row => exact ⟨hk.1.advance h hc, hk.2⟩
    | listOutputs => exact Tables.Identified.advance hk h hc
    | lockFinish seen failureCode artifacts =>
      cases failureCode with
      | none => exact Tables.Identified.advance hk h hc
      | some code => exact ⟨hk.1.advance h hc, hk.2⟩
    | finish => exact hk
  | _ => exact hk

end Layer

theorem World.event_tables {w w' : World} {ev : External.Event} (h : w.event ev = some w') :
    w'.tables.runs = w.tables.runs ∧ w'.tables.artifacts = w.tables.artifacts ∧
      w'.tables.outbox = w.tables.outbox := by
  obtain ⟨users, hpg⟩ := World.event_pg h
  simp only [World.tables, hpg, and_self]

theorem runHistory_layer (x : External) : Layer runHistory holding x where
  start := fun _ task _ => by cases task <;> trivial
  failing := fun _ l w => Proc.knows_failing l w.tables
  refl := fun _ w => .refl w.tables
  step := by
    intro p w i l e l' w' hs ha _ hl _ hc hk
    obtain ⟨hal, hk'⟩ := Proc.knows_step hs hk hl ha
    obtain ⟨hc', hadv⟩ := hal.apply ha hc
    exact ⟨hc', hk', hadv⟩

theorem runHistory_proof (x : External) :
    runHistory.Proof holding (platform x) fun _ _ => True where
  act := by
    intro p a w l w' l' _ ha hinv hl hg hc hk
    exact (runHistory_layer x).act (fun _ _ _ => .of_nothing rfl rfl) ha hinv hl hg hc hk
  stable := by
    intro p q l w w' _ _ _ _ hadv hc hk
    exact hk.advance hadv hc
  env := by
    intro ev w w' _ he _ hc
    obtain ⟨hruns, hartifacts, houtbox⟩ := World.event_tables he
    have heq := congrArg (fun t => t.rows.map OutboxEvent.inserted) houtbox
    exact ⟨hc.of_eq hruns hartifacts heq, fun q l _ hk => hk.advance (.of_eq hruns hartifacts heq) hc⟩

theorem Tables.empty_consistent : Tables.empty.Consistent where
  wellFormed := fun _ _ h => (by cases h)
  told := fun _ _ h => (by cases h)
  artifacts := List.forall_mem_nil _
  events := List.forall_mem_nil _

theorem runHistory_established (x : External) :
    (runHistory.both holding).Established (platform x) (fun _ _ => True) initial :=
  (runHistory_proof x).established (holding_established x)
    ⟨Tables.empty_consistent, fun _ => trivial⟩

section Runs
variable {x : External} {c c' : Config Pid World Proc}

theorem Reached.consistent (h : Reached x c) : c.shared.tables.Consistent :=
  ((runHistory_established x).holds c h).1.1

/-- A step of the platform advances the runs. -/
theorem Reached.advances (h : Reached x c) {l : Label Pid Action External.Event}
    (hs : (platform x).step c l = some c') : c.shared.tables.Advances c'.shared.tables := by
  cases l with
  | act p a =>
    obtain ⟨⟨w, l⟩, ha, rfl⟩ := Option.map_eq_some_iff.mp hs
    exact ((runHistory_established x).guaranteed c p a w l h trivial ha).1
  | env ev =>
    obtain ⟨w, he, rfl⟩ := Option.map_eq_some_iff.mp hs
    obtain ⟨hruns, hartifacts, houtbox⟩ := World.event_tables he
    exact .of_eq hruns hartifacts (congrArg (fun t => t.rows.map OutboxEvent.inserted) houtbox)

/-- Every run looks as its status says. -/
theorem runs_wellFormed (h : Reached x c) {row : Run} (hrow : row ∈ c.shared.tables.runs.rows) :
    (c.shared.tables.record row.id row).WellFormed :=
  h.consistent.wellFormed row.id row (Table.find?_of_mem hrow)

theorem runs_wellFormed_demo : ∃ c r, Demo.row c = some r ∧
    (c.shared.tables.record r.id r).WellFormed := by
  obtain ⟨c, r, hc, hr, -⟩ := Demo.finished
  exact ⟨c, r, hr, runs_wellFormed (Demo.reached hc) (Table.mem_of_find? hr)⟩

/-- What any number of steps leave of a run. -/
theorem Reached.run_continues (h : Reached x c) (h' : Reachable (platform x) (fun _ _ => True) c c')
    {id : UUID} {row : Run} (hrow : c.shared.tables.runs.find? id = some row) :
    ∃ row', c'.shared.tables.runs.find? id = some row' ∧ row.Continues row' ∧
      (row.status.terminal = true →
        c'.shared.tables.record id row' = c.shared.tables.record id row) := by
  induction h' with
  | refl => exact ⟨row, hrow, .refl row, fun _ => rfl⟩
  | step hd _ hs ih =>
    obtain ⟨row₁, hrow₁, hcont, hfrozen⟩ := ih
    have hr : Reached x _ := h.trans hd
    obtain ⟨row₂, hrow₂, hcont₂, -, hfrozen₂⟩ := (hr.advances hs).run hr.consistent hrow₁
    refine ⟨row₂, hrow₂, hcont.trans hcont₂, fun ht => ?_⟩
    have heq := hfrozen ht
    have hstatus : row₁.status = row.status := congrArg (fun r => r.row.status) heq
    exact (hfrozen₂ (hstatus ▸ ht)).trans heq

/-- The number of terminal events of a run. -/
def RunRecord.terminalEvents (r : RunRecord) : ℕ :=
  r.events.countP fun e => e.eventType = "run.succeeded" ∨ e.eventType = "run.failed"

theorem RunRecord.Told.terminalEvents {r : RunRecord} (h : r.Told) :
    r.terminalEvents = if r.row.status.terminal then 1 else 0 := by
  have hcount : r.terminalEvents =
      (r.events.map OutboxEvent.eventType).countP fun t => t = "run.succeeded" ∨ t = "run.failed" := by
    rw [List.countP_map]
    rfl
  rw [hcount, h]
  cases r.row.status <;> decide

/-- Run history is monotone. One step moves a run's status along the lifecycle and takes nothing back;
over any number of steps what was set stays, and a terminal run keeps its row, its artifacts and its
events, one of them terminal. -/
theorem run_history (h : Reached x c) {id : UUID} {row : Run}
    (hrow : c.shared.tables.runs.find? id = some row) :
    (∀ l c', (platform x).step c l = some c' → ∃ row', c'.shared.tables.runs.find? id = some row' ∧
      row.status.Moves row'.status ∧ row.Continues row') ∧
    ∀ c', Reachable (platform x) (fun _ _ => True) c c' →
      ∃ row', c'.shared.tables.runs.find? id = some row' ∧ row.Continues row' ∧
        (c'.shared.tables.record id row').terminalEvents = (if row'.status.terminal then 1 else 0) ∧
        (row.status.terminal = true →
          c'.shared.tables.record id row' = c.shared.tables.record id row) := by
  refine ⟨fun l c' hs => ?_, fun c' h' => ?_⟩
  · obtain ⟨row', hrow', hcont, hmoves, -⟩ := (h.advances hs).run h.consistent hrow
    exact ⟨row', hrow', hmoves, hcont⟩
  · obtain ⟨row', hrow', hcont, hfrozen⟩ := h.run_continues h' hrow
    have hr : Reached x c' := h.trans h'
    have htold := hr.consistent.told id row' hrow'
    exact ⟨row', hrow', hcont, htold.terminalEvents, hfrozen⟩

theorem run_history_demo : ∃ c r, Demo.row c = some r ∧ r.status = .succeeded ∧
    ∀ c', Reachable (platform Demo.external) (fun _ _ => True) c c' →
      ∃ r', c'.shared.tables.runs.find? Demo.runId = some r' ∧
        (c'.shared.tables.record Demo.runId r').terminalEvents = 1 := by
  obtain ⟨c, r, hc, hr, hs, -⟩ := Demo.finished
  refine ⟨c, r, hr, hs, fun c' h' => ?_⟩
  obtain ⟨r', hr', hcont, hcount, hfrozen⟩ := (run_history (Demo.reached hc) hr).2 c' h'
  have hsame := hfrozen (by rw [hs]; rfl)
  have hstatus : r'.status = r.status := congrArg (fun x => x.row.status) hsame
  exact ⟨r', hr', by rw [hcount, hstatus, hs]; rfl⟩

end Runs
end Mic3

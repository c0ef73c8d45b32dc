import Mic3.Lib.Query
import Mic3.Notifications

/-! The statements behind the reads of runs: one outer join of runs and artifacts, regrouped by run for a
snapshot. A snapshot is what single reads return for the runs that it shows. -/
namespace Mic3
open Relational OrderDual

/-- `ORDER BY created_at DESC, id DESC`. -/
def Run.newestFirst (r : Run) : ℕᵒᵈ ×ₗ ℕᵒᵈ := toLex (toDual r.createdAt, toDual r.id.toNat)

/-- `select(Run, RunArtifact).outerjoin(RunArtifact, RunArtifact.run_id == Run.id)`. -/
def RunTables.withArtifacts (t : RunTables) : List (Run × Option RunArtifact) :=
  outerJoin (fun run a => a.runId = run.id) t.runs.rows t.artifacts.rows

/-- `SqlAlchemyRunQueries.find`. -/
def SqlAlchemyRunQueries.find (t : RunTables) (runId : UUID) : Option RunDetail :=
  match orderBy (fun row => partnerKey RunArtifact.objectKey row.2)
      (t.withArtifacts.filter fun row => row.1.id = runId) with
  | [] => none
  | row :: rows => some (runDetail row.1 ((row :: rows).filterMap Prod.snd))

namespace SqlAlchemyRunFeed

/-- `SNAPSHOT_TERMINAL_RUNS`. -/
def snapshotTerminalRuns : ℕ := 50

def terminal (t : RunTables) (userId : UUID) : List UUID :=
  ((orderBy Run.newestFirst (t.runs.rows.filter fun r => r.requestedBy = some userId ∧ r.status.terminal)).take
    snapshotTerminalRuns).map Run.id

/-- The body of `for run, artifact in rows`. -/
def regroup (d : Dict UUID Run × Dict UUID (List RunArtifact)) (row : Run × Option RunArtifact) :
    Dict UUID Run × Dict UUID (List RunArtifact) :=
  let runs := d.1.set row.1.id row.1
  let artifacts := d.2.setdefault row.1.id []
  match row.2 with
  | none => (runs, artifacts)
  | some artifact => (runs, artifacts.adjust row.1.id (· ++ [artifact]))

/-- `snapshot`; without a list of artifacts for a run it would be a `KeyError`. -/
def snapshot (t : RunTables) (userId : UUID) : Option (List RunDetail) :=
  let rows := orderBy (joinedKey Run.newestFirst RunArtifact.objectKey) (t.withArtifacts.filter fun row =>
    row.1.requestedBy = some userId ∧ (row.1.status.active ∨ row.1.id ∈ terminal t userId))
  let (runs, artifacts) := rows.foldl regroup (.empty, .empty)
  runs.entries.mapM fun e => (artifacts.get? e.1).map (runDetail e.2)

end SqlAlchemyRunFeed

/-- `a` comes before `b` in the answers. -/
def Run.Newer (a b : Run) : Prop := b.createdAt < a.createdAt ∨ b.createdAt = a.createdAt ∧ b.id < a.id

instance (a b : Run) : Decidable (a.Newer b) := inferInstanceAs (Decidable (_ ∨ _))

/-- The runs of a snapshot: those under way, and of those that finished the ones with fewer than 50 newer. -/
structure RunTables.Shown (t : RunTables) (userId : UUID) (run : Run) : Prop where
  stored : run ∈ t.runs.rows
  requestedBy : run.requestedBy = some userId
  status : run.status.active = true ∨ run.status.terminal = true ∧
    t.runs.count (fun r => r.requestedBy = some userId ∧ r.status.terminal ∧ r.Newer run) < 50

section Reads
variable {t : RunTables} {userId runId : UUID} {run run' : Run}

theorem Run.newestFirst_lt : run.newestFirst < run'.newestFirst ↔ run.Newer run' := by
  rw [newestFirst, newestFirst, Prod.Lex.toLex_lt_toLex]
  simp only [toDual_lt_toDual, toDual_inj, eq_comm, BitVec.lt_def, Newer]

theorem Run.id_of_newestFirst (h : run.newestFirst = run'.newestFirst) : run.id = run'.id :=
  BitVec.eq_of_toNat_eq (toDual_inj.mp (Prod.mk.inj (toLex_inj.mp h)).2)

/-- Two runs never stand in the same place. -/
theorem RunTables.nodup_newestFirst (t : RunTables) (p : Run → Bool) :
    ((t.runs.rows.filter p).map Run.newestFirst).Nodup := by
  have hids := t.runs.nodup.sublist ((List.filter_sublist (p := p)).map _)
  exact List.pairwise_map.mpr ((List.pairwise_map.mp hids).imp fun hne heq => hne (Run.id_of_newestFirst heq))

theorem RunTables.nodup_keys (t : RunTables) (runId : UUID) :
    ((t.artifacts.rows.filter fun a => a.runId = runId).map RunArtifact.objectKey).Nodup := by
  have hkeys := t.artifacts.nodup.sublist ((List.filter_sublist (p := fun a : RunArtifact => a.runId = runId)).map _)
  refine List.pairwise_map.mpr ((List.pairwise_map.mp hkeys).imp_of_mem fun ha hb hne heq => hne ?_)
  have hsame := (of_decide_eq_true (List.mem_filter.mp ha).2).trans (of_decide_eq_true (List.mem_filter.mp hb).2).symm
  exact Prod.ext hsame heq

theorem RunTables.mem_artifactsOf {a : RunArtifact} :
    a ∈ t.artifactsOf runId ↔ a ∈ t.artifacts.rows ∧ a.runId = runId := by
  rw [artifactsOf, List.mem_insertionSort, List.mem_filter, decide_eq_true_iff]

theorem RunTables.artifactsOf_eq (t : RunTables) (runId : UUID) :
    t.artifactsOf runId = orderBy RunArtifact.objectKey (t.artifacts.rows.filter fun a => a.runId = runId) := rfl

/-- One row for each artifact of the run, or one without. -/
theorem SqlAlchemyRunQueries.find_eq (t : RunTables) (runId : UUID) : find t runId = t.find runId := by
  have hrows : (t.withArtifacts.filter fun row => row.1.id = runId) = (t.runs.find? runId).toList.flatMap fun run =>
      joined run (t.artifacts.rows.filter fun a => a.runId = run.id) := by
    rw [RunTables.withArtifacts, filter_outerJoin fun run : Run => decide (run.id = runId), ← Table.filter_key]
    rfl
  unfold find
  rw [hrows, RunTables.find]
  cases hrun : t.runs.find? runId with
  | none => rfl
  | some run =>
    have hid : run.id = runId := Table.key_of_find? hrun
    rw [Option.toList_some, List.flatMap_singleton, orderBy_joined (t.nodup_keys run.id), ← RunTables.artifactsOf_eq, hid]
    split
    · exact absurd ‹_› (joined_ne_nil run _)
    · rename_i row rows hjoined
      have hrow : row ∈ joined run (t.artifactsOf runId) := hjoined ▸ List.mem_cons_self
      rw [← hjoined, filterMap_joined, fst_of_mem_joined hrow, Option.map_some]

namespace SqlAlchemyRunFeed

theorem id_mem_terminal (h : run ∈ t.runs.rows) : run.id ∈ terminal t userId ↔
    run ∈ (orderBy Run.newestFirst (t.runs.rows.filter fun r =>
      r.requestedBy = some userId ∧ r.status.terminal)).take snapshotTerminalRuns := by
  refine ⟨fun hid => ?_, List.mem_map_of_mem⟩
  obtain ⟨r, hr, heq⟩ := List.mem_map.mp hid
  have hrow : r ∈ t.runs.rows := (List.mem_filter.mp (mem_orderBy.mp (List.mem_of_mem_take hr))).1
  exact List.inj_on_of_nodup_map t.runs.nodup hrow h heq ▸ hr

theorem mem_terminal (h : run ∈ t.runs.rows) : run.id ∈ terminal t userId ↔
    run.requestedBy = some userId ∧ run.status.terminal = true ∧
      t.runs.count (fun r => r.requestedBy = some userId ∧ r.status.terminal ∧ r.Newer run) < 50 := by
  rw [id_mem_terminal h, mem_take_orderBy (t.nodup_newestFirst _), List.mem_filter, decide_eq_true_iff,
    List.countP_filter]
  have hcount : (t.runs.rows.countP fun r => decide (r.newestFirst < run.newestFirst) &&
        decide (r.requestedBy = some userId ∧ r.status.terminal = true)) =
      t.runs.count fun r => r.requestedBy = some userId ∧ r.status.terminal ∧ r.Newer run := by
    refine List.countP_congr fun r _ => ?_
    simp only [Run.newestFirst_lt, Bool.and_eq_true, decide_eq_true_eq]
    tauto
  rw [hcount]
  exact ⟨fun ⟨⟨_, hby, hdone⟩, hlt⟩ => ⟨hby, hdone, hlt⟩, fun ⟨hby, hdone, hlt⟩ => ⟨⟨h, hby, hdone⟩, hlt⟩⟩

/-- The runs of the answer, in order. -/
def shown (t : RunTables) (userId : UUID) : List Run :=
  orderBy Run.newestFirst (t.runs.rows.filter fun r =>
    r.requestedBy = some userId ∧ (r.status.active ∨ r.id ∈ terminal t userId))

theorem mem_shown : run ∈ shown t userId ↔ t.Shown userId run := by
  rw [shown, mem_orderBy, List.mem_filter, decide_eq_true_iff]
  constructor
  · rintro ⟨hrow, hby, hactive | hid⟩
    · exact ⟨hrow, hby, .inl hactive⟩
    · exact ⟨hrow, hby, .inr ((mem_terminal hrow).mp hid).2⟩
  · rintro ⟨hrow, hby, hactive | hdone⟩
    · exact ⟨hrow, hby, .inl hactive⟩
    · exact ⟨hrow, hby, .inr ((mem_terminal hrow).mpr ⟨hby, hdone⟩)⟩

theorem pairwise_shown (t : RunTables) (userId : UUID) : (shown t userId).Pairwise Run.Newer :=
  (pairwise_lt_orderBy (t.nodup_newestFirst _)).imp Run.newestFirst_lt.mp

variable {d : Dict UUID Run × Dict UUID (List RunArtifact)} {artifacts : List RunArtifact}

/-- The rows after the first of a run add their artifacts. -/
theorem foldl_regroup (hnew : run.id ∉ d.2.keys) (done : List RunArtifact) :
    (artifacts.map fun a => (run, some a)).foldl regroup (d.1.set run.id run, d.2.set run.id done) =
      (d.1.set run.id run, d.2.set run.id (done ++ artifacts)) := by
  induction artifacts generalizing done with
  | nil => rw [List.append_nil]; rfl
  | cons a artifacts ih =>
    have hstep : regroup (d.1.set run.id run, d.2.set run.id done) (run, some a) =
        (d.1.set run.id run, d.2.set run.id (done ++ [a])) := by
      simp only [regroup, Dict.set_set, Dict.setdefault_set, Dict.adjust_set hnew]
    rw [List.map_cons, List.foldl_cons, hstep, ih, List.append_assoc, List.singleton_append]

/-- The rows of a run make one entry in each dictionary. -/
theorem foldl_regroup_joined (hnew : run.id ∉ d.2.keys) :
    (joined run artifacts).foldl regroup d = (d.1.set run.id run, d.2.set run.id artifacts) := by
  cases artifacts with
  | nil => simp only [joined, List.foldl_cons, List.foldl_nil, regroup, Dict.setdefault_of_notMem hnew]
  | cons a artifacts =>
    have hfirst : regroup d (run, some a) = (d.1.set run.id run, d.2.set run.id [a]) := by
      simp only [regroup, Dict.setdefault_of_notMem hnew, Dict.adjust_set hnew, List.nil_append]
    rw [joined, List.map_cons, List.foldl_cons, hfirst, foldl_regroup hnew, List.singleton_append]

theorem foldl_regroup_runs {runs : List Run} (files : Run → List RunArtifact) (hn : (runs.map Run.id).Nodup)
    (hnew : ∀ run ∈ runs, run.id ∉ d.2.keys) :
    (runs.flatMap fun run => joined run (files run)).foldl regroup d =
      (runs.foldl (fun d run => d.set run.id run) d.1, runs.foldl (fun d run => d.set run.id (files run)) d.2) := by
  induction runs generalizing d with
  | nil => rfl
  | cons run runs ih =>
    rw [List.map_cons, List.nodup_cons] at hn
    have hrun : run.id ∉ d.2.keys := hnew run List.mem_cons_self
    rw [List.flatMap_cons, List.foldl_append, foldl_regroup_joined hrun, ih hn.2]
    · rfl
    · intro other hother hmem
      rw [Dict.keys_set_of_notMem hrun, List.mem_append, List.mem_singleton] at hmem
      rcases hmem with hmem | heq
      · exact hnew other (List.mem_cons_of_mem run hother) hmem
      · exact hn.1 (heq ▸ List.mem_map_of_mem hother)

theorem mapM_eq_some {α β : Type} {f : α → Option β} {g : α → β} {l : List α} (h : ∀ x ∈ l, f x = some (g x)) :
    l.mapM f = some (l.map g) := by
  induction l with
  | nil => rfl
  | cons x l ih =>
    rw [List.mapM_cons, h x List.mem_cons_self, ih fun y hy => h y (List.mem_cons_of_mem x hy)]
    rfl

theorem snapshot_eq (t : RunTables) (userId : UUID) :
    snapshot t userId = some ((shown t userId).map fun run => runDetail run (t.artifactsOf run.id)) := by
  have hrows : orderBy (joinedKey Run.newestFirst RunArtifact.objectKey) (t.withArtifacts.filter fun row =>
        row.1.requestedBy = some userId ∧ (row.1.status.active ∨ row.1.id ∈ terminal t userId)) =
      (shown t userId).flatMap fun run => joined run (t.artifactsOf run.id) := by
    rw [RunTables.withArtifacts, filter_outerJoin fun run : Run =>
      decide (run.requestedBy = some userId ∧ (run.status.active = true ∨ run.id ∈ terminal t userId))]
    exact orderBy_outerJoin (t.nodup_newestFirst _) fun run _ => t.nodup_keys run.id
  have hids : ((shown t userId).map Run.id).Nodup :=
    ((orderBy_perm _ _).map Run.id).nodup_iff.mpr (t.runs.nodup.sublist (List.filter_sublist.map _))
  have hruns : ((shown t userId).foldl (fun d run => d.set run.id run) Dict.empty).entries =
      (shown t userId).map fun run => (run.id, run) := Dict.entries_foldl_set hids fun _ _ => List.not_mem_nil
  have hfiles : ((shown t userId).foldl (fun d run => d.set run.id (t.artifactsOf run.id)) Dict.empty).entries =
      (shown t userId).map fun run => (run.id, t.artifactsOf run.id) :=
    Dict.entries_foldl_set hids fun _ _ => List.not_mem_nil
  have hfold := foldl_regroup_runs (fun run => t.artifactsOf run.id) (d := (.empty, .empty)) hids
    fun _ _ => List.not_mem_nil
  simp only [snapshot, hrows, hfold, hruns, List.mapM_map]
  refine mapM_eq_some fun run hrun => ?_
  rw [Function.comp_apply, Dict.get?_of_mem (hfiles ▸ List.mem_map_of_mem hrun), Option.map_some]

end SqlAlchemyRunFeed

theorem RunTables.owned_eq (t : RunTables) (userId : UUID) :
    t.owned userId = orderBy Run.newestFirst (t.runs.rows.filter fun r => r.requestedBy = some userId) := by
  have hrows := orderedBy_perm Run.createdAt Run.id (t.runs.rows.filter fun r => r.requestedBy = some userId)
  have hids := ((hrows.map Run.id).nodup_iff.mpr (t.runs.nodup.sublist (List.filter_sublist.map _)))
  refine (orderBy_eq (hrows.symm.trans (List.reverse_perm _).symm) (List.pairwise_reverse.mpr ?_)).symm
  refine (pairwise_orderedBy _ _ _).imp₂ (fun a b hle hne => Run.newestFirst_lt.mpr ?_) (List.pairwise_map.mp hids)
  rcases hle with hlt | ⟨heq, hle⟩
  · exact .inl hlt
  · exact .inr ⟨heq, BitVec.lt_of_le_ne hle hne⟩

/-- What the feed is given by its store. -/
theorem SqlAlchemyRunFeed.snapshot_refines (t : RunTables) (userId : UUID) :
    snapshot t userId = some (t.snapshot userId) := by
  have hterminal : ((t.owned userId).filter fun r => r.status.terminal).take 50 = (orderBy Run.newestFirst
      (t.runs.rows.filter fun r => r.requestedBy = some userId ∧ r.status.terminal)).take snapshotTerminalRuns := by
    rw [RunTables.owned_eq, filter_orderBy (t.nodup_newestFirst _), List.filter_filter]
    simp only [Bool.decide_and, Bool.decide_eq_true, Bool.and_comm, snapshotTerminalRuns]
  have hshown : ((t.owned userId).filter fun r => r.status.active ∨
      r ∈ ((t.owned userId).filter fun r => r.status.terminal).take 50) = shown t userId := by
    rw [hterminal, RunTables.owned_eq, filter_orderBy (t.nodup_newestFirst _), List.filter_filter, shown]
    refine congrArg _ (List.filter_congr fun r hr => ?_)
    rw [← Bool.decide_and]
    refine decide_eq_decide.mpr ?_
    rw [id_mem_terminal hr]
    exact and_comm
  rw [snapshot_eq, RunTables.snapshot, hshown]

/-- A snapshot lists what single reads return for the runs that it shows, newest first. -/
theorem snapshot_of_single_reads (t : RunTables) (userId : UUID) : ∃ runs : List Run,
    (∀ run, run ∈ runs ↔ t.Shown userId run) ∧ runs.Pairwise Run.Newer ∧
    SqlAlchemyRunFeed.snapshot t userId = runs.mapM (fun run => SqlAlchemyRunQueries.find t run.id) ∧
    ∀ run ∈ runs, ∃ artifacts : List RunArtifact,
      SqlAlchemyRunQueries.find t run.id = some (runDetail run artifacts) ∧
      (∀ a, a ∈ artifacts ↔ a ∈ t.artifacts.rows ∧ a.runId = run.id) ∧
      artifacts.Pairwise fun a b => a.objectKey < b.objectKey := by
  have hread (run : Run) (h : run ∈ SqlAlchemyRunFeed.shown t userId) :
      SqlAlchemyRunQueries.find t run.id = some (runDetail run (t.artifactsOf run.id)) := by
    have hfind : t.runs.find? run.id = some run := Table.find?_of_mem (SqlAlchemyRunFeed.mem_shown.mp h).stored
    rw [SqlAlchemyRunQueries.find_eq, RunTables.find, hfind, Option.map_some]
  refine ⟨SqlAlchemyRunFeed.shown t userId, fun _ => SqlAlchemyRunFeed.mem_shown,
    SqlAlchemyRunFeed.pairwise_shown t userId, ?_, fun run hrun => ?_⟩
  · rw [SqlAlchemyRunFeed.snapshot_eq, SqlAlchemyRunFeed.mapM_eq_some hread]
  · exact ⟨t.artifactsOf run.id, hread run hrun, fun _ => RunTables.mem_artifactsOf,
      pairwise_lt_orderBy (t.nodup_keys run.id)⟩

end Reads
end Mic3

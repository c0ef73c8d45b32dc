import Mic3.RunHistory

/-! The execution loop: a tick reconciles every running run before it claims another, and the loop takes
the next tick after a failure that it may retry. -/
namespace Mic3
open Relational Interleaving

/-- How the calls that a tick makes end: `reconcile` of each run, and `claim_next`. -/
structure TickCalls where
  reconcile : UUID → Except Raised Unit
  claimNext : Except Raised (Option UUID)

namespace TickCalls

/-- The first loop of `tick`: the runs it attempts, and how it ends. Nothing is caught. -/
def recover (calls : TickCalls) : List UUID → List UUID × Except Raised Unit
  | [] => ([], .ok ())
  | runId :: runIds =>
    match calls.reconcile runId with
    | .error e => ([runId], .error e)
    | .ok () => (runId :: (calls.recover runIds).1, (calls.recover runIds).2)

/-- `tick`, after `running_ids` returned. -/
def tick (calls : TickCalls) (runningIds : List UUID) : List UUID × Except Raised Unit :=
  match calls.recover runningIds with
  | (attempted, .error e) => (attempted, .error e)
  | (attempted, .ok ()) =>
    match calls.claimNext with
    | .error e => (attempted, .error e)
    | .ok none => (attempted, .ok ())
    | .ok (some runId) => (attempted ++ [runId], calls.reconcile runId)

end TickCalls

/-- What `run_execution` goes on after; `isRetryable` is what the database driver says of its errors. -/
def supervised (isRetryable : Raised → Bool) : Raised → Bool
  | .infrastructureUnavailable _ => true
  | e => isRetryable e

/-- The runs that `run_execution` attempts in a series of ticks, up to one that ends it. -/
def runExecution (isRetryable : Raised → Bool) : List (List UUID × TickCalls) → List UUID
  | [] => []
  | (runningIds, calls) :: ticks =>
    let (attempted, result) := calls.tick runningIds
    match result with
    | .ok () => attempted ++ runExecution isRetryable ticks
    | .error e => if supervised isRetryable e then attempted ++ runExecution isRetryable ticks else attempted

section Ticks
variable {calls : TickCalls} {ids : List UUID} {id : UUID}

/-- When nothing raises, the loop attempts every run. -/
theorem recover_ok (h : ∀ id ∈ ids, calls.reconcile id = .ok ()) : calls.recover ids = (ids, .ok ()) := by
  induction ids with
  | nil => rfl
  | cons id ids ih =>
    obtain ⟨hid, hrest⟩ := List.forall_mem_cons.mp h
    simp only [TickCalls.recover, hid, ih hrest]

/-- The first failure ends the loop, and the runs after it are not attempted. -/
theorem recover_error {before after : List UUID} {e : Raised} (h : ∀ id ∈ before, calls.reconcile id = .ok ())
    (hid : calls.reconcile id = .error e) :
    calls.recover (before ++ id :: after) = (before ++ [id], .error e) := by
  induction before with
  | nil => simp only [List.nil_append, TickCalls.recover, hid]
  | cons first before ih =>
    obtain ⟨hfirst, hrest⟩ := List.forall_mem_cons.mp h
    simp only [List.cons_append, TickCalls.recover, hfirst, ih hrest]

/-- Either nothing raises, or there is a first failure. -/
theorem recover_split (calls : TickCalls) (ids : List UUID) : (∀ id ∈ ids, calls.reconcile id = .ok ()) ∨
    ∃ before id after e, ids = before ++ id :: after ∧ (∀ id ∈ before, calls.reconcile id = .ok ()) ∧
      calls.reconcile id = .error e := by
  induction ids with
  | nil => exact .inl (List.forall_mem_nil _)
  | cons id ids ih =>
    cases hid : calls.reconcile id with
    | error e => exact .inr ⟨[], id, ids, e, rfl, List.forall_mem_nil _, hid⟩
    | ok u =>
      rcases ih with hall | ⟨before, id', after, e, rfl, hbefore, herror⟩
      · exact .inl (List.forall_mem_cons.mpr ⟨hid, hall⟩)
      · exact .inr ⟨id :: before, id', after, e, rfl, List.forall_mem_cons.mpr ⟨hid, hbefore⟩, herror⟩

/-- A tick attempts each run of its list once exactly when none but the last raises. -/
theorem tick_attempts (hnodup : ids.Nodup) (hclaim : ∀ id, calls.claimNext = .ok (some id) → id ∉ ids) :
    (∀ id ∈ ids, (calls.tick ids).1.count id = 1) ↔ ∀ id ∈ ids.dropLast, calls.reconcile id = .ok () := by
  rcases recover_split calls ids with hall | ⟨before, id, after, e, rfl, hbefore, herror⟩
  · -- All are attempted, and what is claimed next is none of them.
    refine iff_of_true (fun id hid => ?_) fun id hid => hall id (List.dropLast_subset _ hid)
    simp only [TickCalls.tick, recover_ok hall]
    cases hclaimed : calls.claimNext with
    | error e => exact List.count_eq_one_of_mem hnodup hid
    | ok claimed =>
      cases claimed with
      | none => exact List.count_eq_one_of_mem hnodup hid
      | some other =>
        have hne : other ≠ id := fun h => hclaim other hclaimed (h ▸ hid)
        simp only [List.count_append, List.count_eq_one_of_mem hnodup hid, List.count_singleton,
          beq_iff_eq, hne, if_false]
  · have htick : (calls.tick (before ++ id :: after)).1 = before ++ [id] := by
      simp only [TickCalls.tick, recover_error hbefore herror]
    rw [htick]
    cases after with
    | nil =>
      refine iff_of_true (fun other hother => List.count_eq_one_of_mem hnodup hother) ?_
      rwa [List.dropLast_concat]
    | cons next after =>
      -- The run that raised is not the last, and the next one is not attempted.
      refine iff_of_false (fun h => ?_) fun h => ?_
      · have hone : (before ++ [id]).count next = 1 := h next (by simp)
        have hmem : next ∈ before ++ [id] := List.count_pos_iff.mp (hone ▸ Nat.one_pos)
        have hsplit : before ++ id :: next :: after = (before ++ [id]) ++ next :: after := by
          rw [List.append_assoc, List.singleton_append]
        exact List.disjoint_of_nodup_append (hsplit ▸ hnodup) hmem List.mem_cons_self
      · have hok := h id (by simp)
        rw [herror] at hok
        contradiction

/-- While the oldest running run keeps failing, the loop attempts no other run. -/
theorem stuck_run_starves {isRetryable : Raised → Bool} {message : String} (ticks : List (List UUID × TickCalls))
    (h : ∀ tick ∈ ticks, ∃ rest, tick.1 = id :: rest ∧
      tick.2.reconcile id = .error (.infrastructureUnavailable message)) :
    runExecution isRetryable ticks = List.replicate ticks.length id := by
  induction ticks with
  | nil => rfl
  | cons tick ticks ih =>
    obtain ⟨⟨rest, hids, herror⟩, hticks⟩ := List.forall_mem_cons.mp h
    have htick : tick.2.tick tick.1 = ([id], .error (.infrastructureUnavailable message)) := by
      have hrecover : tick.2.recover ([] ++ id :: rest) = ([] ++ [id], .error (.infrastructureUnavailable message)) :=
        recover_error (List.forall_mem_nil _) herror
      rw [hids]
      simp only [TickCalls.tick, List.nil_append] at hrecover ⊢
      rw [hrecover]
    simp only [runExecution, htick, supervised, if_true, ih hticks, List.length_cons, List.replicate_succ,
      List.singleton_append]

end Ticks

section Runs
variable {x : External} {c : Config Pid World Proc}

/-- A claim that is made from `c` on decides to start this run. -/
def Claims (x : External) (c : Config Pid World Proc) (id : UUID) : Prop :=
  ∃ c' q worker release row i u, Reachable (platform x) (fun _ _ => True) c c' ∧
    c'.procs q = .claim worker (.loadRelease release row) ∧
    ClaimNext.decide worker c'.shared.tables release row i = .ok (.commit u (some id))

/-- A run that has left the queue never returns to it. -/
theorem Reached.stays_started {c' : Config Pid World Proc} {id : UUID} {row : Run} (h : Reached x c)
    (h' : Reachable (platform x) (fun _ _ => True) c c') (hrow : c.shared.tables.runs.find? id = some row)
    (hs : row.status ≠ .queued) : ∃ row', c'.shared.tables.runs.find? id = some row' ∧ row'.status ≠ .queued := by
  induction h' with
  | refl => exact ⟨row, hrow, hs⟩
  | step hd _ hstep ih =>
    obtain ⟨row₁, hrow₁, hs₁⟩ := ih
    have hr : Reached x _ := h.trans hd
    obtain ⟨row₂, hrow₂, -, hmoves, -⟩ := (hr.advances hstep).run hr.consistent hrow₁
    exact ⟨row₂, hrow₂, hmoves.ne_queued hs₁⟩

theorem runningIds_nodup (t : Tables) : t.runningIds.Nodup := by
  have hrunning : (t.runs.rows.filter fun r => r.status = .running).map Run.id |>.Nodup :=
    t.runs.nodup.sublist (List.filter_sublist.map Run.id)
  exact ((List.perm_insertionSort _ _).map Run.id).nodup_iff.mpr hrunning

theorem mem_runningIds {t : Tables} {id : UUID} :
    id ∈ t.runningIds ↔ ∃ row, t.runs.find? id = some row ∧ row.status = .running := by
  simp only [Tables.runningIds, orderedBy, List.mem_map, List.mem_insertionSort, List.mem_filter,
    decide_eq_true_eq]
  constructor
  · rintro ⟨row, ⟨hrow, hrunning⟩, rfl⟩
    exact ⟨row, Table.find?_of_mem hrow, hrunning⟩
  · rintro ⟨row, hrow, hrunning⟩
    exact ⟨row, ⟨Table.mem_of_find? hrow, hrunning⟩, Table.key_of_find? hrow⟩

/-- Only queued runs are claimed, and no running run is queued again. -/
theorem Claims.not_running {id : UUID} (h : Reached x c) (hclaims : Claims x c id) :
    id ∉ c.shared.tables.runningIds := by
  obtain ⟨c', q, worker, release, row, i, u, h', hq, hdecide⟩ := hclaims
  intro hmem
  obtain ⟨old, hold, hrunning⟩ := mem_runningIds.mp hmem
  have hr : Reached x c' := h.trans h'
  obtain ⟨hknows, hl⟩ := ((runHistory_established x).holds c' hr).2 q
  rw [hq] at hknows hl
  -- The claim holds the row, and it is still queued.
  have hqueued : row.status = .queued := hknows.1
  have hheld : (Hold.run row).Valid q c'.shared := hl.valid _ (by simp [Proc.holds, ClaimNext.holds])
  obtain ⟨d, -, ⟨-, hpc⟩ | ⟨-, hpc⟩⟩ := ClaimNext.decide_ok hdecide
  · obtain rfl : id = row.id := Option.some.inj (ClaimNext.Pc.commit.inj hpc).2
    obtain ⟨row', hrow', hmoves⟩ := h.stays_started h' hold (by rw [hrunning]; intro he; cases he)
    obtain rfl : row' = row := Option.some.inj (hrow'.symm.trans hheld.2)
    exact hmoves hqueued
  · cases (ClaimNext.Pc.commit.inj hpc).2

/-- One tick recovers every running run, each once, exactly when no reconciliation but that of the last run
raises: a failure that leaves `reconcile` ends the tick, and the runs after it wait. -/
theorem tick_recovers_all (h : Reached x c) {calls : TickCalls}
    (hclaim : ∀ id, calls.claimNext = .ok (some id) → Claims x c id) :
    (∀ id ∈ c.shared.tables.runningIds, (calls.tick c.shared.tables.runningIds).1.count id = 1) ↔
      ∀ id ∈ c.shared.tables.runningIds.dropLast, calls.reconcile id = .ok () :=
  tick_attempts (runningIds_nodup _) fun id hid => (hclaim id hid).not_running h

/-- The calls of a tick that claims the run 2, and in which the reconciliations of these runs raise. -/
def claimingCalls (raises : List UUID) : TickCalls :=
  ⟨fun id => if id ∈ raises then .error (.infrastructureUnavailable "Job rendering failed.") else .ok (), .ok (some 2)⟩

/-- The runs 3 and 4 are running and 2 waits: all running runs are recovered when nothing raises, or the last one alone. -/
theorem tick_recovers_all_demo : ∃ c, Reached Demo.external c ∧ c.shared.tables.runningIds = [3, 4] ∧
    (∀ raises ∈ [[], [4]], ∀ id ∈ c.shared.tables.runningIds,
      ((claimingCalls raises).tick c.shared.tables.runningIds).1.count id = 1) ∧
    ¬ ∀ id ∈ c.shared.tables.runningIds, ((claimingCalls [3]).tick c.shared.tables.runningIds).1.count id = 1 := by
  obtain ⟨c, hc, hrunning, hrest⟩ :=
    System.passes_cons (System.passes_join (System.passes_join (System.passes_join Demo.claims_pass)))
  obtain ⟨c', hc', hchooses, -⟩ := System.passes_cons hrest
  obtain ⟨release, row, u, hclaim, hdecide⟩ := Demo.choosesRun_iff hchooses
  have hids := (Demo.runningAre_iff hrunning).1
  have hclaims (raises : List UUID) (id : UUID) (hid : (claimingCalls raises).claimNext = .ok (some id)) :
      Claims Demo.external c id := by
    obtain rfl : 2 = id := Option.some.inj (Except.ok.inj hid)
    exact ⟨c', 0, _, release, row, _, u, reachable_of_run (fun _ _ _ => trivial) hc', hclaim, hdecide⟩
  have hexact (raises : List UUID) := tick_recovers_all (Demo.reached hc) (hclaims raises)
  refine ⟨c, Demo.reached hc, hids, fun raises hraises => (hexact raises).mpr ?_, fun hall => ?_⟩
  · rw [hids]
    intro id hid
    obtain rfl := List.mem_singleton.mp hid
    have hothers : (3 : UUID) ∉ raises := by
      simp only [List.mem_cons, List.not_mem_nil, or_false] at hraises
      rcases hraises with rfl | rfl <;> decide
    exact if_neg hothers
  · have hok := (hexact [3]).mp hall 3 (by rw [hids]; decide)
    contradiction

/-- A run that a worker dispatched. -/
def dispatchedRun (id : UUID) (created : Time) : Run :=
  ⟨id, 1, none, ExecutionDefinition.modeParameters "fast", "", .running, some 1, none, some 1, none, some "science",
    none, created⟩

/-- Two runs; the chart cannot be rendered for the older one. -/
def twoRuns : Tables := { Tables.empty with runs := ⟨[dispatchedRun 1 1, dispatchedRun 2 2], by decide⟩ }

def unrendered : TickCalls :=
  ⟨fun id => if id = 1 then .error (.infrastructureUnavailable "Job rendering failed.") else .ok (), .ok none⟩

theorem stuck_run_blocks : ¬ ∀ (t : Tables) (calls : TickCalls),
    (∀ id, calls.claimNext = .ok (some id) → id ∉ t.runningIds) →
    ∀ id ∈ t.runningIds, (calls.tick t.runningIds).1.count id = 1 := by
  intro h
  have hids : twoRuns.runningIds = [1, 2] := by decide
  have hone := h twoRuns unrendered (fun _ hnone => absurd hnone nofun) 2 (by rw [hids]; decide)
  rw [hids] at hone
  exact absurd hone (by decide)

end Runs
end Mic3

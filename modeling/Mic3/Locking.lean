import Mic3.Platform

/-! Row locks and what they keep: a row read under its lock stays the committed row until the transaction
that holds the lock ends. -/
namespace Mic3
open Relational Interleaving

/-- What a transaction relies on: a lock it owns, or a row it read under the row's lock. -/
inductive Hold where
  | lock (k : LockKey)
  | run (row : Run)
  | release (row : ModelReleaseRow)
  | event (row : OutboxEvent)

def Hold.Valid (p : Pid) (w : World) : Hold → Prop
  | .lock k => w.pg.locks.owner k = some p
  | .run row => w.pg.locks.owner (.run row.id) = some p ∧ w.tables.runs.find? row.id = some row
  | .release row =>
    w.pg.locks.owner (.release row.id) = some p ∧ w.tables.releases.find? row.id = some row
  | .event row => w.pg.locks.owner (.event row.id) = some p ∧ w.tables.outbox.find? row.id = some row

/-- What one process leaves alone in a step: the others' locks, and the rows it has not locked. -/
structure Respects (p : Pid) (w w' : World) : Prop where
  locks : ∀ q k, q ≠ p → w.pg.locks.owner k = some q → w'.pg.locks.owner k = some q
  sessions : ∀ q key, q ≠ p → w.pg.sessionLocks key = some q → w'.pg.sessionLocks key = some q
  runs : ∀ id row, w.pg.locks.owner (.run id) ≠ some p → w.tables.runs.find? id = some row →
    w'.tables.runs.find? id = some row
  releases : ∀ id row, w.pg.locks.owner (.release id) ≠ some p →
    w.tables.releases.find? id = some row → w'.tables.releases.find? id = some row
  events : ∀ id row, w.pg.locks.owner (.event id) ≠ some p → w.tables.outbox.find? id = some row →
    w'.tables.outbox.find? id = some row

theorem Hold.Valid.stable {p q : Pid} {w w' : World} {h : Hold} (hv : h.Valid q w)
    (hr : Respects p w w') (hne : q ≠ p) : h.Valid q w' := by
  have hother (k : LockKey) (ho : w.pg.locks.owner k = some q) : w.pg.locks.owner k ≠ some p :=
    fun he => hne (Option.some.inj (ho.symm.trans he))
  cases h with
  | lock k => exact hr.locks q k hne hv
  | run row => exact ⟨hr.locks q _ hne hv.1, hr.runs _ _ (hother _ hv.1) hv.2⟩
  | release row => exact ⟨hr.locks q _ hne hv.1, hr.releases _ _ (hother _ hv.1) hv.2⟩
  | event row => exact ⟨hr.locks q _ hne hv.1, hr.events _ _ (hother _ hv.1) hv.2⟩

/-- The effects that leave the transaction open. -/
def Effect.continues : Effect → Bool
  | .commit .. | .rollback | .sessionUnlock _ | .disconnect => false
  | _ => true

/-- The locks that an effect's writes and unlocks need. -/
def Effect.Permitted (p : Pid) (w : World) : Effect → Prop
  | .commit (.outcome u) _ => w.pg.locks.owner (.run u.loaded.id) = some p
  | .commit (.register r) _ => match r.release with
    | .edit loaded _ => w.pg.locks.owner (.release loaded.id) = some p
    | .create _ => True
  | .commit (.publish marks) _ => ∀ mark ∈ marks, w.pg.locks.owner (.event mark.1) = some p
  | .sessionUnlock key => w.pg.sessionLocks key = some p
  | _ => True

section Effects
variable {p q : Pid} {w w' : World} {e : Effect}

theorem commit_apply {change : Change} {entries : List Entry}
    (h : w.apply p (.commit change entries) = some w') :
    ∃ tables, change.apply w.tables = some tables ∧
      w' = { w with
        pg := { w.pg with tables, locks := w.pg.locks.release p }
        history := entries ++ w.history } := by
  obtain ⟨tables, ht, rfl⟩ := Option.map_eq_some_iff.mp h
  exact ⟨tables, ht, rfl⟩

theorem lock_apply {k : LockKey} (h : w.apply p (.lock k) = some w') :
    ∃ locks, w.pg.locks.acquire p k = some locks ∧ w' = { w with pg := { w.pg with locks } } := by
  obtain ⟨_, h⟩ := Option.ite_none_right_eq_some.mp h
  obtain ⟨locks, hl, rfl⟩ := Option.map_eq_some_iff.mp h
  exact ⟨locks, hl, rfl⟩

theorem share_apply {k : LockKey} (h : w.apply p (.share k) = some w') :
    ∃ locks, w.pg.locks.share p k = some locks ∧ w' = { w with pg := { w.pg with locks } } := by
  obtain ⟨locks, hl, rfl⟩ := Option.map_eq_some_iff.mp h
  exact ⟨locks, hl, rfl⟩

theorem sessionLock_apply {key : ℤ} (h : w.apply p (.sessionLock key) = some w') :
    w.sessionFree p key = true ∧ w' = { w with pg := { w.pg with
      sessionLocks := Function.update w.pg.sessionLocks key (some p) } } := by
  obtain ⟨hfree, h⟩ := Option.ite_none_right_eq_some.mp h
  exact ⟨hfree, (Option.some.inj h).symm⟩

theorem create_apply {byWorker : Bool} {key : JobKey} {job : JobObject}
    (h : w.create byWorker key job = some w') :
    (w.cluster.jobs key = none ∧ job.uid ≠ "" ∧ job.uid ∉ w.cluster.created.map (·.2)) ∧
      w' = { w with cluster := {
        jobs := Function.update w.cluster.jobs key (some job)
        created := (key, job.uid) :: w.cluster.created
        dispatched := if byWorker then (key, job.uid) :: w.cluster.dispatched
          else w.cluster.dispatched } } := by
  obtain ⟨hfree, h⟩ := Option.ite_none_right_eq_some.mp h
  exact ⟨hfree, (Option.some.inj h).symm⟩

/-- What an effect that ends no transaction does to the database: it only adds locks. -/
theorem continues_apply (hc : e.continues = true) (h : w.apply p e = some w') :
    w'.tables = w.tables ∧
    (∀ k q, w.pg.locks.owner k = some q → w'.pg.locks.owner k = some q) ∧
    ∀ key q, w.pg.sessionLocks key = some q → w'.pg.sessionLocks key = some q := by
  cases e with
  | lock j =>
    obtain ⟨locks, hl, rfl⟩ := lock_apply h
    exact ⟨rfl, fun k q hk => LockTable.owner_acquire_of_owner hl hk, fun _ _ hk => hk⟩
  | share j =>
    obtain ⟨locks, hl, rfl⟩ := share_apply h
    exact ⟨rfl, fun k q hk => (congrFun (LockTable.owner_share hl) k).trans hk, fun _ _ hk => hk⟩
  | sessionLock j =>
    obtain ⟨hfree, rfl⟩ := sessionLock_apply h
    refine ⟨rfl, fun _ _ hk => hk, fun key q hk => ?_⟩
    by_cases hj : key = j
    · subst hj
      simp only [World.sessionFree, hk, Bool.and_eq_true, Bool.or_eq_true, decide_eq_true_eq,
        reduceCtorEq, false_or] at hfree
      simpa only [Function.update_self] using hfree.1.symm
    · simpa only [Function.update_of_ne hj] using hk
  | createJob key job =>
    obtain ⟨_, rfl⟩ := create_apply h
    exact ⟨rfl, fun _ _ hk => hk, fun _ _ hk => hk⟩
  | read | produce | closeConsumer =>
    obtain rfl := Option.some.inj h
    exact ⟨rfl, fun _ _ hk => hk, fun _ _ hk => hk⟩
  | acknowledge | assign | poll | commitOffset =>
    obtain ⟨_, h⟩ := Option.ite_none_right_eq_some.mp h
    obtain rfl := Option.some.inj h
    exact ⟨rfl, fun _ _ hk => hk, fun _ _ hk => hk⟩
  | commit | rollback | sessionUnlock | disconnect => contradiction

/-- A session lock outlives transactions. -/
theorem session_apply {key : ℤ} (h : w.apply p e = some w') (he : ∀ j, e ≠ .sessionUnlock j)
    (hd : e ≠ .disconnect) (hk : w.pg.sessionLocks key = some q) : w'.pg.sessionLocks key = some q := by
  by_cases hc : e.continues = true
  · exact (continues_apply hc h).2.2 key q hk
  · cases e with
    | commit change entries =>
      obtain ⟨tables, -, rfl⟩ := commit_apply h
      exact hk
    | rollback => exact Option.some.inj h ▸ hk
    | sessionUnlock j => exact absurd rfl (he j)
    | disconnect => exact absurd rfl hd
    | _ => simp [Effect.continues] at hc

theorem Hold.Valid.continues {h : Hold} (hc : e.continues = true) (ha : w.apply p e = some w')
    (hv : h.Valid q w) : h.Valid q w' := by
  obtain ⟨ht, hk, _⟩ := continues_apply hc ha
  cases h with
  | lock k => exact hk _ _ hv
  | run row => exact ⟨hk _ _ hv.1, ht ▸ hv.2⟩
  | release row => exact ⟨hk _ _ hv.1, ht ▸ hv.2⟩
  | event row => exact ⟨hk _ _ hv.1, ht ▸ hv.2⟩

theorem owner_of_lock {k : LockKey} (h : w.apply p (.lock k) = some w') :
    w'.pg.locks.owner k = some p := by
  obtain ⟨locks, hl, rfl⟩ := lock_apply h
  exact LockTable.owner_acquire hl

/-- A row that is read as its lock is granted. -/
theorem Hold.valid_run {id : UUID} {row : Run} (h : w.apply p (.lock (.run id)) = some w')
    (hf : w.tables.runs.find? id = some row) : (Hold.run row).Valid p w' := by
  obtain rfl : row.id = id := Table.key_of_find? hf
  exact ⟨owner_of_lock h, (continues_apply rfl h).1 ▸ hf⟩

theorem Hold.valid_release {id : UUID} {row : ModelReleaseRow}
    (h : w.apply p (.lock (.release id)) = some w') (hf : w.tables.releases.find? id = some row) :
    (Hold.release row).Valid p w' := by
  obtain rfl : row.id = id := Table.key_of_find? hf
  exact ⟨owner_of_lock h, (continues_apply rfl h).1 ▸ hf⟩

theorem Hold.valid_event {id : UUID} {row : OutboxEvent} (h : w.apply p (.lock (.event id)) = some w')
    (hf : w.tables.outbox.find? id = some row) : (Hold.event row).Valid p w' := by
  obtain rfl : row.id = id := Table.key_of_find? hf
  exact ⟨owner_of_lock h, (continues_apply rfl h).1 ▸ hf⟩

theorem find?_markPublished_of_notMem {marks : List (UUID × Time)} {outbox : Table OutboxEvent} {id : UUID}
    (h : ∀ mark ∈ marks, mark.1 ≠ id) :
    (marks.foldl Change.markPublished outbox).find? id = outbox.find? id := by
  induction marks generalizing outbox with
  | nil => rfl
  | cons mark marks ih =>
    rw [List.foldl_cons, ih fun m hm => h m (List.mem_cons_of_mem _ hm), Change.markPublished,
      Table.find?_modify (f := OutboxEvent.published mark.2) fun _ => rfl,
      if_neg (Ne.symm (h mark List.mem_cons_self))]

/-- A commit changes only rows its transaction has locked. -/
theorem respects_tables {change : Change} {entries : List Entry}
    (hp : (Effect.commit change entries).Permitted p w) {tables : Tables}
    (h : change.apply w.tables = some tables) :
    (∀ id row, w.pg.locks.owner (.run id) ≠ some p → w.tables.runs.find? id = some row →
      tables.runs.find? id = some row) ∧
    (∀ id row, w.pg.locks.owner (.release id) ≠ some p → w.tables.releases.find? id = some row →
      tables.releases.find? id = some row) ∧
    ∀ id row, w.pg.locks.owner (.event id) ≠ some p → w.tables.outbox.find? id = some row →
      tables.outbox.find? id = some row := by
  cases change with
  | nothing =>
    obtain rfl := Change.nothing_apply h
    exact ⟨fun _ _ _ hf => hf, fun _ _ _ hf => hf, fun _ _ _ hf => hf⟩
  | submit row event =>
    obtain ⟨runs, outbox, hruns, houtbox, rfl⟩ := Change.submit_apply h
    exact ⟨fun _ _ _ hf => Table.find?_insert_of_some hruns hf, fun _ _ _ hf => hf,
      fun _ _ _ hf => Table.find?_insert_of_some houtbox hf⟩
  | outcome u =>
    obtain ⟨artifacts, outbox, -, houtbox, rfl⟩ := Change.outcome_apply h
    refine ⟨fun id row ho hf => ?_, fun _ _ _ hf => hf, fun id row _ hf => ?_⟩
    · have hne : id ≠ u.loaded.id := fun he => ho (he ▸ hp)
      simpa only [Table.find?_modify (f := Run.flush u.loaded u.row) fun _ => rfl, if_neg hne] using hf
    · simp only [Table.find?_insertAll houtbox, hf, Option.some_or]
  | register r =>
    obtain ⟨models, releases, -, hreleases, rfl⟩ := Change.register_apply h
    refine ⟨fun _ _ _ hf => hf, fun id row ho hf => ?_, fun _ _ _ hf => hf⟩
    cases hw : r.release with
    | create new =>
      rw [hw] at hreleases
      exact Table.find?_insert_of_some hreleases hf
    | edit loaded definition =>
      simp only [Effect.Permitted, hw] at hp
      simp only [hw, Change.writeRelease, Option.some.injEq] at hreleases
      have hne : id ≠ loaded.id := fun he => ho (he ▸ hp)
      simpa only [← hreleases, Table.find?_modify
        (f := ModelReleaseRow.edited definition)
        fun _ => rfl, if_neg hne] using hf
  | publish marks =>
    obtain rfl := Change.publish_apply h
    refine ⟨fun _ _ _ hf => hf, fun _ _ _ hf => hf, fun id row ho hf => ?_⟩
    have hne : ∀ mark ∈ marks, mark.1 ≠ id := fun mark hm he => ho (he ▸ hp mark hm)
    simpa only [find?_markPublished_of_notMem hne] using hf
  | reject message =>
    obtain ⟨rejected, -, rfl⟩ := Change.reject_apply h
    exact ⟨fun _ _ _ hf => hf, fun _ _ _ hf => hf, fun _ _ _ hf => hf⟩

/-- A permitted effect respects the others. -/
theorem respects_apply (hp : e.Permitted p w) (h : w.apply p e = some w') : Respects p w w' := by
  by_cases hc : e.continues = true
  · obtain ⟨ht, hk, hs⟩ := continues_apply hc h
    exact ⟨fun _ _ _ ho => hk _ _ ho, fun _ _ _ ho => hs _ _ ho, fun _ _ _ hf => ht ▸ hf,
      fun _ _ _ hf => ht ▸ hf, fun _ _ _ hf => ht ▸ hf⟩
  · cases e with
    | commit change entries =>
      obtain ⟨tables, ht, rfl⟩ := commit_apply h
      obtain ⟨hruns, hreleases, hevents⟩ := respects_tables hp ht
      exact ⟨fun _ _ hq ho => LockTable.owner_release_of_ne hq ho, fun _ _ _ ho => ho, hruns,
        hreleases, hevents⟩
    | rollback =>
      obtain rfl := Option.some.inj h
      exact ⟨fun _ _ hq ho => LockTable.owner_release_of_ne hq ho, fun _ _ _ ho => ho,
        fun _ _ _ hf => hf, fun _ _ _ hf => hf, fun _ _ _ hf => hf⟩
    | sessionUnlock j =>
      obtain rfl := Option.some.inj h
      refine ⟨fun _ _ hq ho => LockTable.owner_release_of_ne hq ho, fun q key hq ho => ?_,
        fun _ _ _ hf => hf, fun _ _ _ hf => hf, fun _ _ _ hf => hf⟩
      have hne : key ≠ j := fun he => hq (Option.some.inj ((he ▸ ho).symm.trans hp))
      exact (Function.update_of_ne hne _ _).trans ho
    | disconnect =>
      obtain rfl := Option.some.inj h
      refine ⟨fun _ _ hq ho => LockTable.owner_release_of_ne hq ho, fun q key hq ho => ?_,
        fun _ _ _ hf => hf, fun _ _ _ hf => hf, fun _ _ _ hf => hf⟩
      have hne : w.pg.sessionLocks key ≠ some p := fun he => hq (Option.some.inj (ho.symm.trans he))
      exact (if_neg hne).trans ho
    | _ => simp [Effect.continues] at hc

end Effects
end Mic3

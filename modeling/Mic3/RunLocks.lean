import Mic3.Origins

/-! The keys of run locks. All advisory locks share one space of 64-bit keys, and only the version bits of a
run's id, inside the bytes a key is read from, keep run locks apart from the platform's. -/
namespace Mic3
open Relational Interleaving

/-- `uuid.bytes`. -/
def UUID.bytes (id : UUID) : List ℕ := (List.range 16).map fun i => id.toNat / 256 ^ (15 - i) % 256

/-- The high digit of byte 6, which `uuid4` sets to 4. -/
def UUID.version (id : UUID) : ℕ := id.bytes.getD 6 0 / 16

/-- `int.from_bytes(bytes, "big", signed=True)`. -/
def fromBytes (bytes : List ℕ) : ℤ :=
  let n : ℕ := bytes.foldl (fun n byte => 256 * n + byte) 0
  if 2 * n < 256 ^ bytes.length then n else n - 256 ^ bytes.length

/-- The keys of the two transaction locks. -/
def platformLocks : List ℤ := [capacityLock, admissionLock]

section Keys
variable {id id' : UUID}

/-- The first eight bytes as one number. -/
theorem runKey_eq (id : UUID) : runKey id =
    if 2 * (id.toNat / 2 ^ 64) < 2 ^ 64 then ((id.toNat / 2 ^ 64 : ℕ) : ℤ)
    else ((id.toNat / 2 ^ 64 : ℕ) : ℤ) - 2 ^ 64 := by
  have hword : (id.extractLsb' 64 64).toNat = id.toNat / 2 ^ 64 := by
    rw [BitVec.extractLsb'_toNat, Nat.shiftRight_eq_div_pow]
    have hlt := id.isLt
    omega
  rw [runKey, BitVec.toInt_eq_toNat_cond, hword]
  rfl

theorem take_bytes (id : UUID) :
    id.bytes.take 8 = [56, 48, 40, 32, 24, 16, 8, 0].map fun k => id.toNat / 2 ^ 64 / 2 ^ k % 256 := by
  have hbytes : id.bytes.take 8 = [0, 1, 2, 3, 4, 5, 6, 7].map fun i => id.toNat / 256 ^ (15 - i) % 256 := rfl
  rw [hbytes]
  simp [Nat.div_div_eq_div_mul]

theorem firstBytes (id : UUID) : (id.bytes.take 8).foldl (fun n byte => 256 * n + byte) 0 = id.toNat / 2 ^ 64 := by
  have hlt : id.toNat / 2 ^ 64 < 2 ^ 64 := by
    have hid := id.isLt
    omega
  rw [take_bytes]
  generalize id.toNat / 2 ^ 64 = word at hlt
  simp only [List.map_cons, List.map_nil, List.foldl_cons, List.foldl_nil]
  omega

/-- The key is read from the bytes as the source reads it. -/
theorem runKey_fromBytes (id : UUID) : runKey id = fromBytes (id.bytes.take 8) := by
  have hlength : (id.bytes.take 8).length = 8 := rfl
  rw [runKey_eq, fromBytes, firstBytes, hlength]
  norm_num

theorem runKey_range (id : UUID) : -2 ^ 63 ≤ runKey id ∧ runKey id < 2 ^ 63 := by
  have hlt := id.isLt
  rw [runKey_eq]
  split <;> omega

theorem runKey_inj : runKey id = runKey id' ↔ id.bytes.take 8 = id'.bytes.take 8 := by
  constructor
  · intro h
    have hlt := id.isLt
    have hlt' := id'.isLt
    have hword : id.toNat / 2 ^ 64 = id'.toNat / 2 ^ 64 := by
      rw [runKey_eq, runKey_eq] at h
      split at h <;> split at h <;> omega
    rw [take_bytes, take_bytes, hword]
  · intro h
    rw [runKey_fromBytes, runKey_fromBytes, h]

/-- The version digit stays in the key: bits 12 to 15 of the two's complement. -/
theorem runKey_version (h : id.version = 4) : runKey id % 2 ^ 16 / 2 ^ 12 = 4 := by
  have hversion : id.toNat / 2 ^ 72 % 256 / 16 = 4 := h
  have hlt := id.isLt
  rw [runKey_eq]
  split <;> omega

theorem runKey_notMem (h : id.version = 4) : runKey id ∉ platformLocks := by
  have hversion := runKey_version h
  intro hmem
  simp only [platformLocks, List.mem_cons, List.not_mem_nil, or_false] at hmem
  rcases hmem with hk | hk
  · rw [hk] at hversion
    exact absurd hversion (by decide)
  · rw [hk] at hversion
    exact absurd hversion (by decide)

end Keys

/-- Every `uuid4()` is of version 4, and what a worker reconciles is a run that it read. -/
def Draws (w : World) : Label Pid Action External.Event → Prop
  | .act _ (.run i) | .act _ (.lost i) => i.uuid.version = 4
  | .act _ (.start (.reconcile _ runId)) => (w.tables.runs.find? runId).isSome
  | _ => True

/-- The id of the run that a submission is about to insert. -/
def SubmitRun.Pc.runId : SubmitRun.Pc → Option UUID
  | .getRelease => none
  | .lockAdmission s _ | .countTotal s _ | .countOwned s _ _ | .findUser s | .insertRun s => some s.run.id
  | .checkRelease _ row | .checkUser _ row | .insertEvent _ row | .commit _ row _ => some row.id

def Proc.runId : Proc → Option UUID
  | .submit _ pc => pc.runId
  | .reconcile _ runId _ => some runId
  | _ => none

/-- Every run's id is of version 4, session locks are on such runs, and transactions lock the two keys of the
platform only. -/
structure Versioned (w : World) (procs : Pid → Proc) : Prop where
  rows : ∀ id ∈ w.tables.runs.rows.map Run.id, id.version = 4
  procs : ∀ p, ∀ id ∈ (procs p).runId, id.version = 4
  sessions : ∀ key p, w.pg.sessionLocks key = some p → ∃ id : UUID, id.version = 4 ∧ key = runKey id
  locks : ∀ key p, w.pg.locks.owner (.advisory key) = some p → key ∈ platformLocks

section Runs
variable {x : External} {p q : Pid} {w w' : World} {i : Input} {e : Effect} {l l' : Proc} {id : UUID}
  {c : Config Pid World Proc}

theorem SubmitRun.runId_step {call : SubmitRun} {pc pc' : SubmitRun.Pc}
    (hs : call.step w i pc = (e, .running pc')) (hid : id ∈ pc'.runId) : id ∈ pc.runId ∨ id = i.uuid := by
  rcases step_cases hs with ⟨-, err, h⟩ | hc
  · contradiction
  cases pc with
  | getRelease =>
    obtain ⟨s, hprepare, -, hr⟩ := hc
    have hnew : s.run.id = i.uuid := by
      obtain ⟨release, -, hprepare⟩ := bind_eq_ok.mp hprepare
      obtain ⟨effective, -, hprepare⟩ := bind_eq_ok.mp hprepare
      obtain ⟨text, -, hprepare⟩ := bind_eq_ok.mp hprepare
      obtain rfl := Except.ok.inj hprepare
      rfl
    rcases hr with ⟨limits, -, hr⟩ | ⟨-, hr⟩
    · obtain rfl := Progress.running.inj hr
      exact .inr ((Option.some.inj hid).symm.trans hnew)
    · obtain rfl := Progress.running.inj hr
      exact .inr ((Option.some.inj hid).symm.trans hnew)
  | lockAdmission | countTotal | findUser | checkUser | insertEvent =>
    obtain ⟨-, hr⟩ := hc
    obtain rfl := Progress.running.inj hr
    exact .inl hid
  | countOwned | insertRun | checkRelease =>
    obtain ⟨-, -, hr⟩ := hc
    obtain rfl := Progress.running.inj hr
    exact .inl hid
  | commit =>
    obtain ⟨-, hr⟩ := hc
    contradiction

theorem Progress.proc_runId {π ρ : Type} {f : π → Proc} {r : Progress π ρ} (hid : id ∈ (r.proc f).runId) :
    ∃ pc, r = .running pc ∧ id ∈ (f pc).runId := by
  cases r with
  | running pc => exact ⟨pc, rfl, hid⟩
  | returned _ | raised _ => exact absurd hid (Option.not_mem_none id)

theorem Proc.runId_step (hs : l.next x p w i = (e, l')) (hid : id ∈ l'.runId) : id ∈ l.runId ∨ id = i.uuid := by
  cases l with
  | idle | unwinding =>
    obtain ⟨rfl, rfl⟩ := Prod.mk.inj hs
    exact absurd hid (Option.not_mem_none id)
  | submit call pc =>
    obtain ⟨rfl, rfl⟩ := Prod.mk.inj hs
    obtain ⟨pc', hr, hid⟩ := Progress.proc_runId hid
    exact SubmitRun.runId_step (Prod.ext rfl hr) hid
  | reconcile worker runId pc =>
    obtain ⟨rfl, rfl⟩ := Prod.mk.inj hs
    obtain ⟨pc', -, hid⟩ := Progress.proc_runId hid
    exact .inl hid
  | register | accept | claim | publish | consume =>
    obtain ⟨rfl, rfl⟩ := Prod.mk.inj hs
    obtain ⟨pc', -, hid⟩ := Progress.proc_runId hid
    exact absurd hid (Option.not_mem_none id)

/-- A new row is the one a submission carries. -/
theorem runIds_apply (hs : l.next x p w i = (e, l')) (ha : w.apply p e = some w')
    (hid : id ∈ w'.tables.runs.rows.map Run.id) : id ∈ w.tables.runs.rows.map Run.id ∨ id ∈ l.runId := by
  cases hcommit : e.commits with
  | false => exact .inl (tables_apply hcommit ha ▸ hid)
  | true =>
    obtain ⟨change, entries, rfl⟩ := e.commits_iff.mp hcommit
    have hcommits := Proc.commits hs rfl
    obtain ⟨tables, ht, rfl⟩ := commit_apply ha
    cases change with
    | nothing =>
      obtain rfl := Change.nothing_apply ht
      exact .inl hid
    | submit row event =>
      obtain ⟨runs, outbox, hruns, -, rfl⟩ := Change.submit_apply ht
      have hrows : runs.rows.map Run.id = row.id :: w.tables.runs.rows.map Run.id := by
        rw [Table.rows_insert hruns, List.map_cons]
      rcases List.mem_cons.mp (hrows ▸ hid : id ∈ row.id :: w.tables.runs.rows.map Run.id) with rfl | hid
      · obtain ⟨call, s, rfl, -⟩ := hcommits.of_submit
        exact .inr rfl
      · exact .inl hid
    | outcome u =>
      obtain ⟨artifacts, outbox, -, -, rfl⟩ := Change.outcome_apply ht
      have hrows := Table.map_rows_modify (t := w.tables.runs) (k := u.loaded.id) (g := Run.id)
        (f := Run.flush u.loaded u.row) (fun _ => rfl) fun _ => rfl
      exact .inl (hrows ▸ hid)
    | register r =>
      obtain ⟨models, releases, -, -, rfl⟩ := Change.register_apply ht
      exact .inl hid
    | publish marks =>
      obtain rfl := Change.publish_apply ht
      exact .inl hid
    | reject message =>
      obtain ⟨rejected, -, rfl⟩ := Change.reject_apply ht
      exact .inl hid

/-- A session lock that is new was asked for. -/
theorem sessions_apply {key : ℤ} (ha : w.apply p e = some w') (h : w'.pg.sessionLocks key = some q) :
    w.pg.sessionLocks key = some q ∨ e = .sessionLock key := by
  cases e with
  | sessionLock j =>
    obtain ⟨-, rfl⟩ := sessionLock_apply ha
    by_cases hj : key = j
    · exact .inr (hj ▸ rfl)
    · exact .inl ((Function.update_of_ne hj _ _).symm.trans h)
  | sessionUnlock j =>
    obtain rfl := Option.some.inj ha
    by_cases hj : key = j
    · subst hj
      have hnone : Function.update (w.endTransaction p).pg.sessionLocks key none key = some q := h
      rw [Function.update_self] at hnone
      contradiction
    · exact .inl ((Function.update_of_ne hj _ _).symm.trans h)
  | disconnect =>
    obtain rfl := Option.some.inj ha
    have hother : (if w.pg.sessionLocks key = some p then none else w.pg.sessionLocks key) = some q := h
    split at hother
    · contradiction
    · exact .inl hother
  | lock k =>
    obtain ⟨locks, -, rfl⟩ := lock_apply ha
    exact .inl h
  | share k =>
    obtain ⟨locks, -, rfl⟩ := share_apply ha
    exact .inl h
  | commit change entries =>
    obtain ⟨tables, -, rfl⟩ := commit_apply ha
    exact .inl h
  | createJob key job =>
    obtain ⟨-, rfl⟩ := create_apply ha
    exact .inl h
  | read | rollback | produce | closeConsumer =>
    obtain rfl := Option.some.inj ha
    exact .inl h
  | acknowledge | assign | poll | commitOffset =>
    obtain ⟨-, h'⟩ := Option.ite_none_right_eq_some.mp ha
    obtain rfl := Option.some.inj h'
    exact .inl h

/-- The advisory lock that a statement asks for. -/
def Effect.advisory : Effect → Option ℤ
  | .lock (.advisory key) | .sessionLock key => some key
  | _ => none

theorem advisory_noting (location : RecordLocation) (outcome : String) :
    (Consumer.noting location outcome e).advisory = e.advisory := by
  cases e <;> rfl

theorem AcceptRun.advisory_none {runId : UUID} {pc : AcceptRun.Pc} {r : Progress AcceptRun.Pc String}
    (hs : step runId w i pc = (e, r)) : e.advisory = none := by
  have hc := step_cases hs
  cases pc <;> grind [Effect.advisory]

theorem Consumer.advisory_none {d : Decoders} {topic : String} {pc : Consumer.Pc} {r : Progress Consumer.Pc Unit}
    (hs : step d topic p w i pc = (e, r)) : e.advisory = none := by
  have hc := step_cases hs
  cases pc with
  | accept location runId pc =>
    obtain ⟨e₀, r₀, hs₀, hr⟩ := hc
    have hnone := AcceptRun.advisory_none hs₀
    grind [Effect.advisory, advisory_noting]
  | reject location rejection pc =>
    obtain ⟨e₀, r₀, hs₀, hr⟩ := hc
    have hc₀ := record_cases hs₀
    have hnone : e₀.advisory = none := by cases pc <;> grind [Effect.advisory]
    grind [Effect.advisory, advisory_noting]
  | poll | decode | commit | close => grind [Effect.advisory]

theorem Proc.reconcile_next {worker : Worker} {runId : UUID} {pc : Reconcile.Pc}
    (hs : (Proc.reconcile worker runId pc).next x p w i = (e, l')) :
    ∃ r, Reconcile.step x.helm worker runId p w i pc = (e, r) ∧ l' = r.proc (.reconcile worker runId) := by
  obtain ⟨rfl, rfl⟩ := Prod.mk.inj hs
  exact ⟨_, rfl, rfl⟩

/-- A session lock is asked for by a reconcile call that begins, for its run. -/
theorem Proc.sessionLock_next {key : ℤ} (hs : l.next x p w i = (.sessionLock key, l')) :
    ∃ worker runId, l = .reconcile worker runId .acquire ∧ key = runKey runId ∧
      l' = .reconcile worker runId .loadRun := by
  have he : (l.next x p w i).1 = .sessionLock key := congrArg Prod.fst hs
  cases l with
  | idle | unwinding => cases he
  | submit call pc =>
    have hc := SubmitRun.step_cases (Prod.ext he rfl : call.step w i pc = (.sessionLock key, _))
    cases pc <;> grind
  | register definition pc =>
    have hc := Catalog.step_cases (Prod.ext he rfl : Catalog.step definition w i pc = (.sessionLock key, _))
    cases pc <;> grind
  | accept runId pc =>
    cases AcceptRun.advisory_none (Prod.ext he rfl : AcceptRun.step runId w i pc = (.sessionLock key, _))
  | claim worker pc =>
    have hc := ClaimNext.step_cases (Prod.ext he rfl : ClaimNext.step worker w i pc = (.sessionLock key, _))
    cases pc <;> grind
  | publish publisher pc =>
    have hc := PublishOutbox.step_cases
      (Prod.ext he rfl : PublishOutbox.step x.isoformat publisher p w i pc = (.sessionLock key, _))
    cases pc <;> grind
  | consume topic pc =>
    cases Consumer.advisory_none (Prod.ext he rfl : Consumer.step x.decoders topic p w i pc = (.sessionLock key, _))
  | reconcile worker runId pc =>
    obtain ⟨r, hstep, rfl⟩ := reconcile_next hs
    have hc := Reconcile.step_cases hstep
    cases pc with
    | acquire =>
      rcases hc with ⟨hne, -⟩ | ⟨h, -⟩ | ⟨h, rfl⟩
      · exact absurd rfl hne
      · cases h
      · cases h
        exact ⟨worker, runId, rfl, rfl, rfl⟩
    | _ => grind

/-- A transaction lock that is new was asked for. -/
theorem locks_apply {k : LockKey} (ha : w.apply p e = some w') (h : w'.pg.locks.owner k = some q) :
    w.pg.locks.owner k = some q ∨ e = .lock k := by
  have hrelease (h : (w.pg.locks.release p).owner k = some q) : w.pg.locks.owner k = some q ∨ e = .lock k :=
    .inl (LockTable.owner_of_release h)
  cases e with
  | lock j =>
    obtain ⟨locks, hl, rfl⟩ := lock_apply ha
    by_cases hj : k = j
    · exact .inr (hj ▸ rfl)
    · exact .inl ((LockTable.owner_acquire_of_ne hl hj).symm.trans h)
  | share j =>
    obtain ⟨locks, hl, rfl⟩ := share_apply ha
    exact .inl ((congrFun (LockTable.owner_share hl) k).symm.trans h)
  | commit change entries =>
    obtain ⟨tables, -, rfl⟩ := commit_apply ha
    exact hrelease h
  | sessionLock key =>
    obtain ⟨-, rfl⟩ := sessionLock_apply ha
    exact .inl h
  | rollback | sessionUnlock | disconnect =>
    obtain rfl := Option.some.inj ha
    exact hrelease h
  | createJob key job =>
    obtain ⟨-, rfl⟩ := create_apply ha
    exact .inl h
  | read | produce | closeConsumer =>
    obtain rfl := Option.some.inj ha
    exact .inl h
  | acknowledge | assign | poll | commitOffset =>
    obtain ⟨-, h'⟩ := Option.ite_none_right_eq_some.mp ha
    obtain rfl := Option.some.inj h'
    exact .inl h

/-- Transactions take no other advisory lock than the two of the platform. -/
theorem advisory_platform {key : ℤ} (hs : l.next x p w i = (.lock (.advisory key), l')) : key ∈ platformLocks := by
  have he : (l.next x p w i).1 = .lock (.advisory key) := congrArg Prod.fst hs
  have hcapacity : capacityLock ∈ platformLocks := List.mem_cons_self ..
  have hadmission : admissionLock ∈ platformLocks := List.mem_cons_of_mem _ (List.mem_singleton_self _)
  cases l with
  | idle | unwinding => cases he
  | submit call pc =>
    have hc := SubmitRun.step_cases (Prod.ext he rfl : call.step w i pc = (.lock (.advisory key), _))
    cases pc <;> grind
  | register definition pc =>
    have hc := Catalog.step_cases (Prod.ext he rfl : Catalog.step definition w i pc = (.lock (.advisory key), _))
    cases pc <;> grind
  | accept runId pc =>
    cases AcceptRun.advisory_none (Prod.ext he rfl : AcceptRun.step runId w i pc = (.lock (.advisory key), _))
  | claim worker pc =>
    have hc := ClaimNext.step_cases (Prod.ext he rfl : ClaimNext.step worker w i pc = (.lock (.advisory key), _))
    cases pc <;> grind
  | publish publisher pc =>
    have hc := PublishOutbox.step_cases
      (Prod.ext he rfl : PublishOutbox.step x.isoformat publisher p w i pc = (.lock (.advisory key), _))
    cases pc <;> grind
  | consume topic pc =>
    cases Consumer.advisory_none (Prod.ext he rfl : Consumer.step x.decoders topic p w i pc = (.lock (.advisory key), _))
  | reconcile worker runId pc =>
    have hc := Reconcile.step_cases
      (Prod.ext he rfl : Reconcile.step x.helm worker runId p w i pc = (.lock (.advisory key), _))
    cases pc <;> grind

theorem Proc.failing_runId (hid : id ∈ l.failing.runId) : id ∈ l.runId := by
  cases l with
  | reconcile worker runId pc => cases pc <;> first | exact hid | exact absurd hid (Option.not_mem_none id)
  | _ => exact absurd hid (Option.not_mem_none id)

theorem Versioned.update {procs : Pid → Proc} (h : Versioned w procs)
    (hrows : ∀ id ∈ w'.tables.runs.rows.map Run.id, id.version = 4) (hown : ∀ id ∈ l'.runId, id.version = 4)
    (hsessions : ∀ key q, w'.pg.sessionLocks key = some q → ∃ id : UUID, id.version = 4 ∧ key = runKey id)
    (hlocks : ∀ key q, w'.pg.locks.owner (.advisory key) = some q → key ∈ platformLocks) :
    Versioned w' (Function.update procs p l') := by
  refine ⟨hrows, fun q id hid => ?_, hsessions, hlocks⟩
  by_cases hq : q = p
  · subst hq
    rw [Function.update_self] at hid
    exact hown id hid
  · rw [Function.update_of_ne hq] at hid
    exact h.procs q id hid

/-- A statement of `p`, wherever it leaves its code. -/
theorem Versioned.statement {procs : Pid → Proc} {l₀ : Proc} (h : Versioned w procs)
    (hs : (procs p).next x p w i = (e, l₀)) (ha : w.apply p e = some w') (hown : ∀ id ∈ l'.runId, id.version = 4) :
    Versioned w' (Function.update procs p l') := by
  apply h.update
  · intro id hid
    rcases runIds_apply hs ha hid with hid | hid
    · exact h.rows id hid
    · exact h.procs p id hid
  · exact hown
  · intro key q hq
    rcases sessions_apply ha hq with hq | rfl
    · exact h.sessions key q hq
    · obtain ⟨worker, runId, hp, rfl, -⟩ := Proc.sessionLock_next hs
      exact ⟨runId, h.procs p runId (by rw [hp]; exact rfl), rfl⟩
  · intro key q hq
    rcases locks_apply ha hq with hq | rfl
    · exact h.locks key q hq
    · exact advisory_platform hs

/-- In every run that draws ids of version 4, session locks and transaction locks have keys of their own. -/
theorem versioned (h : Reachable (platform x) Draws initial c) : Versioned c.shared c.procs := by
  have hinitial : Versioned initial.shared initial.procs :=
    { rows := List.forall_mem_nil _
      procs := fun _ id hid => absurd hid (Option.not_mem_none id)
      sessions := fun _ _ h => by cases h
      locks := fun _ _ h => by cases h }
  refine h.invariant (fun c => Versioned c.shared c.procs) hinitial ?_
  intro c c' l _ hv hdraws hs
  cases l with
  | env ev =>
    obtain ⟨w', he, rfl⟩ := Option.map_eq_some_iff.mp hs
    obtain ⟨users, hpg⟩ := World.event_pg he
    refine ⟨?_, hv.procs, ?_, ?_⟩
    · rw [World.tables, hpg]
      exact hv.rows
    · rw [hpg]
      exact hv.sessions
    · rw [hpg]
      exact hv.locks
  | act p a =>
    obtain ⟨⟨w', l'⟩, ha, rfl⟩ := Option.map_eq_some_iff.mp hs
    cases a with
    | start task =>
      obtain ⟨-, ha⟩ := Option.ite_none_right_eq_some.mp ha
      obtain ⟨rfl, rfl⟩ := Prod.mk.inj (Option.some.inj ha)
      refine hv.update hv.rows (fun id hid => ?_) hv.sessions hv.locks
      cases task with
      | reconcile worker runId =>
        obtain rfl := Option.some.inj hid
        obtain ⟨row, hrow⟩ := Option.isSome_iff_exists.mp hdraws
        exact hv.rows runId (List.mem_map.mpr ⟨row, Table.mem_of_find? hrow, Table.key_of_find? hrow⟩)
      | _ => exact absurd hid (Option.not_mem_none id)
    | run i =>
      obtain ⟨w₁, hw, ha⟩ := Option.map_eq_some_iff.mp ha
      obtain ⟨rfl, rfl⟩ := Prod.mk.inj ha
      refine hv.statement rfl hw fun id hid => ?_
      rcases Proc.runId_step rfl hid with hid | rfl
      · exact hv.procs p id hid
      · exact hdraws
    | lost i =>
      obtain ⟨w₁, hw, ha⟩ := Option.map_eq_some_iff.mp ha
      obtain ⟨rfl, rfl⟩ := Prod.mk.inj ha
      exact hv.statement rfl hw fun id hid => hv.procs p id (Proc.failing_runId hid)
    | fail =>
      obtain ⟨rfl, rfl⟩ := Prod.mk.inj (Option.some.inj ha)
      exact hv.update hv.rows (fun id hid => hv.procs p id (Proc.failing_runId hid)) hv.sessions hv.locks
    | crash =>
      obtain ⟨rfl, rfl⟩ := Prod.mk.inj (Option.some.inj ha)
      have hgone : c.shared.apply p .disconnect = some (c.shared.disconnect p) := rfl
      refine hv.update hv.rows (fun id hid => absurd hid (Option.not_mem_none id)) (fun key q hq => ?_)
        fun key q hq => ?_
      · exact hv.sessions key q ((sessions_apply hgone hq).resolve_right (fun he => by cases he))
      · exact hv.locks key q ((locks_apply hgone hq).resolve_right (fun he => by cases he))

theorem lock_isSome {k : LockKey} :
    (w.apply p (.lock k)).isSome = (w.lockable p k && (w.pg.locks.acquire p k).isSome) := by
  simp only [World.apply]
  split
  · next h => rw [h, Option.isSome_map, Bool.true_and]
  · next h => rw [Bool.eq_false_iff.mpr h, Bool.false_and, Option.isSome_none]

/-- A process that takes a run's lock does not change what a request for another key is answered. -/
theorem lock_of_sessionLock {k : ℤ} (hk : k ≠ runKey id) (ha : w.apply p (.sessionLock (runKey id)) = some w') :
    (w'.apply q (.lock (.advisory k))).isSome = (w.apply q (.lock (.advisory k))).isSome := by
  obtain ⟨-, rfl⟩ := sessionLock_apply ha
  have hsame : Function.update w.pg.sessionLocks (runKey id) (some p) k = w.pg.sessionLocks k :=
    Function.update_of_ne hk _ _
  rw [lock_isSome, lock_isSome]
  simp only [World.lockable, hsame]

/-- Nor the other way round. -/
theorem sessionFree_of_lock {k : ℤ} (hk : k ≠ runKey id) (ha : w.apply p (.lock (.advisory k)) = some w') :
    w'.sessionFree q (runKey id) = w.sessionFree q (runKey id) := by
  obtain ⟨locks, hl, rfl⟩ := lock_apply ha
  have hne : LockKey.advisory (runKey id) ≠ .advisory k := fun h => hk (LockKey.advisory.inj h).symm
  simp only [World.sessionFree, LockTable.owner_acquire_of_ne hl hne]

theorem Versioned.lockable {procs : Pid → Proc} (h : Versioned w procs) {k : ℤ} (hk : k ∈ platformLocks) :
    w.lockable p (.advisory k) = true := by
  have hnone : w.pg.sessionLocks k = none := by
    by_contra hsome
    obtain ⟨q, hq⟩ := Option.ne_none_iff_exists'.mp hsome
    obtain ⟨id, hversion, rfl⟩ := h.sessions k q hq
    exact runKey_notMem hversion hk
  simp only [World.lockable, hnone, decide_true, Bool.true_or]

theorem Versioned.sessionFree_iff {procs : Pid → Proc} (h : Versioned w procs) (hid : id.version = 4) :
    w.sessionFree p (runKey id) = true ↔
      w.pg.sessionLocks (runKey id) = none ∨ w.pg.sessionLocks (runKey id) = some p := by
  have hnone : w.pg.locks.owner (.advisory (runKey id)) = none := by
    by_contra hsome
    obtain ⟨q, hq⟩ := Option.ne_none_iff_exists'.mp hsome
    exact runKey_notMem hid (h.locks _ q hq)
  simp only [World.sessionFree, hnone, decide_true, Bool.true_or, Bool.and_true, Bool.or_eq_true, decide_eq_true_eq]

end Runs

/-- Run locks have keys of their own. The key of a generated id fits PostgreSQL's bigint, is the first eight bytes
read as a signed big-endian number, determines them, and is neither of the platform's two keys. So a run's lock and
a platform lock never wait for each other, at any state of the server; and in every run of the platform the
transactions never meet a session lock, and a run's lock is refused only to whoever comes after its holder. -/
theorem run_locks_disjoint (x : External) :
    (∀ id id' : UUID, runKey id = runKey id' ↔ id.bytes.take 8 = id'.bytes.take 8) ∧
    (∀ id : UUID, id.version = 4 →
      (runKey id = fromBytes (id.bytes.take 8) ∧ -2 ^ 63 ≤ runKey id ∧ runKey id < 2 ^ 63) ∧
      runKey id ≠ capacityLock ∧ runKey id ≠ admissionLock ∧
      ∀ (w w' : World) (p q : Pid), ∀ k ∈ platformLocks,
        (w.apply p (.sessionLock (runKey id)) = some w' →
          (w'.apply q (.lock (.advisory k))).isSome = (w.apply q (.lock (.advisory k))).isSome) ∧
        (w.apply p (.lock (.advisory k)) = some w' →
          w'.sessionFree q (runKey id) = w.sessionFree q (runKey id))) ∧
    ∀ c, Reachable (platform x) Draws initial c → ∀ p : Pid,
      (∀ k ∈ platformLocks, c.shared.lockable p (.advisory k) = true) ∧
      ∀ id : UUID, id.version = 4 → (c.shared.sessionFree p (runKey id) = true ↔
        c.shared.pg.sessionLocks (runKey id) = none ∨ c.shared.pg.sessionLocks (runKey id) = some p) := by
  refine ⟨fun _ _ => runKey_inj, fun id hid => ?_, fun c hc p => ?_⟩
  · have hkey := runKey_notMem hid
    have hcapacity : capacityLock ∈ platformLocks := List.mem_cons_self ..
    have hadmission : admissionLock ∈ platformLocks := List.mem_cons_of_mem _ (List.mem_singleton_self _)
    refine ⟨⟨runKey_fromBytes id, runKey_range id⟩, fun h => hkey (h ▸ hcapacity), fun h => hkey (h ▸ hadmission),
      fun w w' p q k hk => ?_⟩
    have hne : k ≠ runKey id := fun h => hkey (h ▸ hk)
    exact ⟨lock_of_sessionLock hne, sessionFree_of_lock hne⟩
  · have hv := versioned hc
    exact ⟨fun k hk => hv.lockable hk, fun id hid => hv.sessionFree_iff hid⟩

-- The version digit is what matters: an id without it can have the key of a platform lock.
example : runKey (7523190401#128 <<< 64) = capacityLock := by decide

namespace Demo

/-- An id as `uuid4` makes them. -/
def uuid4 (n : ℕ) : UUID := 4#128 <<< 76 ||| BitVec.ofNat 128 n

/-- A run is submitted. -/
def submitting : List Step :=
  runs 0 (.register registrable) (List.replicate 6 (uuid4 1)) ++
  runs 0 (.submit ⟨uuid4 1, .obj [("mode", .str "fast")], none, none⟩) (List.replicate 5 (uuid4 2) ++ [uuid4 3, uuid4 3])

def hasRun (c : Config Pid World Proc) : Bool := (c.shared.tables.runs.find? (uuid4 2)).isSome

/-- Its reconciliation has locked it. -/
def isLocked (c : Config Pid World Proc) : Bool := c.shared.pg.sessionLocks (runKey (uuid4 2)) = some 1

theorem locks : (platform external).passes initial
    [(submitting, hasRun), (runs 1 (.reconcile worker (uuid4 2)) [uuid4 4], isLocked)] = true := by
  decide +kernel

def draws : Step → Bool
  | .act _ (.run i) => i.uuid.version = 4
  | .act _ (.start (.reconcile ..)) | .act _ (.lost _) => false
  | _ => true

theorem draws_of {w : World} {l : Step} (h : draws l = true) : Draws w l := by
  cases l with
  | env => trivial
  | act p a =>
    cases a with
    | run i => exact (of_decide_eq_true h : i.uuid.version = 4)
    | lost => contradiction
    | fail | crash => trivial
    | start task =>
      cases task with
      | reconcile => contradiction
      | _ => trivial

theorem locked : ∃ c, Reachable (platform external) Draws initial c ∧
    c.shared.pg.sessionLocks (runKey (uuid4 2)) = some 1 := by
  obtain ⟨c₀, hc₀, hrow, hrest⟩ := System.passes_cons locks
  obtain ⟨c, hc, hlocked, -⟩ := System.passes_cons hrest
  have hall : submitting.all draws = true := by decide +kernel
  have hfirst : Reachable (platform external) Draws initial c₀ :=
    reachable_of_run (fun w l hl => draws_of (List.all_eq_true.mp hall l hl)) hc₀
  obtain ⟨c₁, hstart, hc⟩ := Option.bind_eq_some_iff.mp hc
  have hstored : Draws c₀.shared (.act 1 (.start (.reconcile worker (uuid4 2)))) := hrow
  have hsecond : Reachable (platform external) Draws initial c₁ := hfirst.step hstored hstart
  have hlast : Reachable (platform external) Draws c₁ c := by
    refine reachable_of_run (fun w l hl => ?_) hc
    obtain rfl := List.mem_singleton.mp hl
    exact (by decide : (uuid4 4).version = 4)
  exact ⟨c, hsecond.trans hlast, of_decide_eq_true hlocked⟩

end Demo

theorem run_locks_disjoint_demo : ∃ c : Config Pid World Proc,
    c.shared.pg.sessionLocks (runKey (Demo.uuid4 2)) = some 1 ∧
    c.shared.lockable 2 (.advisory capacityLock) = true ∧
    c.shared.sessionFree 2 (runKey (Demo.uuid4 2)) = false ∧ runKey (Demo.uuid4 2) ≠ capacityLock := by
  obtain ⟨c, hc, hlocked⟩ := Demo.locked
  have hversion : (Demo.uuid4 2).version = 4 := by decide
  obtain ⟨-, hkeys, hruns⟩ := run_locks_disjoint Demo.external
  obtain ⟨hplatform, hsession⟩ := hruns c hc 2
  refine ⟨c, hlocked, hplatform _ (List.mem_cons_self ..), ?_, (hkeys _ hversion).2.1⟩
  rw [Bool.eq_false_iff, ne_eq, hsession _ hversion, hlocked]
  decide

end Mic3

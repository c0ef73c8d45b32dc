import Mathlib.Logic.Relation
import Mic3.Registrations
import Mic3.RunLocks

/-! One order in which every program takes its locks: advisory keys, what it inserts first, models, releases, and then
the runs that others can see. -/
namespace Mic3
open Relational Interleaving

/-- Where a key stands in the order. A row that is not committed is locked by whoever inserts it. -/
def World.rank (w : World) : LockKey → ℕ
  | .advisory _ => 0
  | .model _ => 1
  | .run id => if (w.tables.runs.find? id).isSome then 4 else 1
  | .release id => if (w.tables.releases.find? id).isSome then 2 else 3
  | .user _ => 3
  | .event _ | .rejection _ => 5

/-- In the transaction or in the session, alone or shared. -/
def World.Holds (w : World) (p : Pid) (k : LockKey) : Prop :=
  w.pg.locks.Holds p k ∨ ∃ key, k = .advisory key ∧ w.pg.sessionLocks key = some p

/-! The rank that everything held at a statement is below. -/

def SubmitRun.level : Pc → ℕ
  | .getRelease | .lockAdmission .. => 0
  | .countTotal .. | .countOwned .. | .findUser _ | .insertRun _ => 1
  | .checkRelease .. => 2
  | .checkUser .. => 3
  | .insertEvent .. | .commit .. => 4

def Catalog.level : Pc → ℕ
  | .insertModel => 0
  -- The row it has just inserted is locked again.
  | .lockModel inserted => if inserted then 2 else 0
  | .selectReleases .. | .lockReleases _ _ (_ :: _) _ => 2
  | .lockReleases _ _ [] _ | .insertRelease .. | .activeModes .. => 3
  | .commit _ => 4

def AcceptRun.level : Pc → ℕ
  | .readRelease | .lockRelease _ => 0
  | .lockRun _ => 3
  | .loadRelease .. | .commit .. => 5

def ClaimNext.level : Pc → ℕ
  | .lockCapacity => 0
  | .count | .candidate | .lockRelease .. => 1
  | .lockRun .. => 3
  | .loadRelease .. | .commit .. => 5

def Reconcile.level : Pc → ℕ
  | .acquire => 0
  | .saveUid .. | .finish .. => 5
  | .unwind _ | .exit _ => 6
  | _ => 1

def PublishOutbox.level : Pc → ℕ
  | .select => 0
  | _ => 6

def Consumer.level : Pc → ℕ
  | .accept _ _ pc => AcceptRun.level pc
  | .reject _ _ (.commit _) => 6
  | _ => 0

def Proc.level : Proc → ℕ
  | .idle => 0
  | .submit _ pc => SubmitRun.level pc
  | .register _ pc => Catalog.level pc
  | .accept _ pc => AcceptRun.level pc
  | .claim _ pc => ClaimNext.level pc
  | .reconcile _ _ pc => Reconcile.level pc
  | .publish _ pc => PublishOutbox.level pc
  | .consume _ pc => Consumer.level pc
  | .unwinding => 6

def Progress.level {π ρ : Type} (f : π → ℕ) : Progress π ρ → ℕ
  | .running pc => f pc
  | .returned _ | .raised _ => 0

/-- A registration finds at most one release to lock, and it is committed. -/
def Proc.Single (w : World) : Proc → Prop
  | .register _ (.lockReleases _ _ remaining _) =>
    remaining.length ≤ 1 ∧ ∀ id ∈ remaining, (w.tables.releases.find? id).isSome
  | _ => True

/-- A process holds nothing above its level, and a session lock only for a run that it reconciles. -/
structure InOrder (p : Pid) (l : Proc) (w : World) : Prop where
  held : ∀ k, w.Holds p k → w.rank k < l.level
  session : ∀ key, w.pg.sessionLocks key = some p → l = .unwinding ∨ l.sessionKey = some key
  single : l.Single w

/-- What the others hold stays theirs or goes, and keeps its rank. -/
structure Undisturbed (p : Pid) (w w' : World) : Prop where
  held : ∀ q k, q ≠ p → w'.Holds q k → w.Holds q k ∧ w'.rank k = w.rank k
  sessions : ∀ q key, q ≠ p → w'.pg.sessionLocks key = some q → w.pg.sessionLocks key = some q
  releases : ∀ id, (w.tables.releases.find? id).isSome → (w'.tables.releases.find? id).isSome

def lockOrder : Contract Pid World Proc := ⟨fun w => w.pg.locks.Exclusive, InOrder, Undisturbed⟩

section Effects
variable {p q : Pid} {w w' : World} {e : Effect} {k : LockKey}

theorem rank_lt_six (w : World) (k : LockKey) : w.rank k < 6 := by
  unfold World.rank
  split
  all_goals try split
  all_goals decide

theorem exclusive_apply (h : w.pg.locks.Exclusive) (ha : w.apply p e = some w') : w'.pg.locks.Exclusive := by
  cases e with
  | lock k =>
    obtain ⟨locks, hl, rfl⟩ := lock_apply ha
    exact h.acquire hl
  | share k =>
    obtain ⟨locks, hl, rfl⟩ := share_apply ha
    exact h.share hl
  | commit change entries =>
    obtain ⟨tables, -, rfl⟩ := commit_apply ha
    exact h.release p
  | rollback | sessionUnlock _ | disconnect => exact Option.some.inj ha ▸ h.release p
  | sessionLock key =>
    obtain ⟨-, rfl⟩ := sessionLock_apply ha
    exact h
  | createJob key job =>
    obtain ⟨-, rfl⟩ := create_apply ha
    exact h
  | read | produce | closeConsumer => exact Option.some.inj ha ▸ h
  | acknowledge | assign | poll | commitOffset =>
    obtain ⟨-, ha⟩ := Option.ite_none_right_eq_some.mp ha
    exact Option.some.inj ha ▸ h

/-- The key that an effect waits for. -/
def Effect.Asks (e : Effect) (k : LockKey) : Prop := e = .lock k ∨ e = .share k

/-- Who holds a key in a transaction did before, or asked for it. -/
theorem holders_apply (ha : w.apply p e = some w') (h : w'.pg.locks.Holds q k) :
    w.pg.locks.Holds q k ∧ (q = p → e.continues = true) ∨ q = p ∧ e.Asks k := by
  have hcontinues (hc : e.continues = true) (hq : w.pg.locks.Holds q k) :
      w.pg.locks.Holds q k ∧ (q = p → e.continues = true) ∨ q = p ∧ e.Asks k := .inl ⟨hq, fun _ => hc⟩
  have hreleases (hq : (w.pg.locks.release p).Holds q k) :
      w.pg.locks.Holds q k ∧ (q = p → e.continues = true) ∨ q = p ∧ e.Asks k := by
    obtain ⟨hheld, hne⟩ := LockTable.holds_release hq
    exact .inl ⟨hheld, fun he => absurd he hne⟩
  cases e with
  | lock j =>
    obtain ⟨locks, hl, rfl⟩ := lock_apply ha
    rcases LockTable.holds_acquire hl h with hq | ⟨rfl, rfl⟩
    · exact hcontinues rfl hq
    · exact .inr ⟨rfl, .inl rfl⟩
  | share j =>
    obtain ⟨locks, hl, rfl⟩ := share_apply ha
    rcases LockTable.holds_share hl h with hq | ⟨rfl, rfl⟩
    · exact hcontinues rfl hq
    · exact .inr ⟨rfl, .inr rfl⟩
  | commit change entries =>
    obtain ⟨tables, -, rfl⟩ := commit_apply ha
    exact hreleases h
  | rollback | sessionUnlock _ | disconnect =>
    obtain rfl := Option.some.inj ha
    exact hreleases h
  | sessionLock key =>
    obtain ⟨-, rfl⟩ := sessionLock_apply ha
    exact hcontinues rfl h
  | createJob key job =>
    obtain ⟨-, rfl⟩ := create_apply ha
    exact hcontinues rfl h
  | read | produce | closeConsumer =>
    obtain rfl := Option.some.inj ha
    exact hcontinues rfl h
  | acknowledge | assign | poll | commitOffset =>
    obtain ⟨-, ha⟩ := Option.ite_none_right_eq_some.mp ha
    obtain rfl := Option.some.inj ha
    exact hcontinues rfl h

/-- Who holds a session lock did before, or has just taken it. -/
theorem sessionHolders_apply (ha : w.apply p e = some w') {key : ℤ} (h : w'.pg.sessionLocks key = some q) :
    w.pg.sessionLocks key = some q ∨ q = p ∧ e = .sessionLock key := by
  rcases sessions_apply ha h with hheld | rfl
  · exact .inl hheld
  · obtain ⟨-, rfl⟩ := sessionLock_apply ha
    simp only [Function.update_self, Option.some.injEq] at h
    exact .inr ⟨h.symm, rfl⟩

theorem holds_apply_of_ne (ha : w.apply p e = some w') (hq : q ≠ p) (h : w'.Holds q k) : w.Holds q k := by
  rcases h with hlocks | ⟨key, rfl, hsession⟩
  · rcases holders_apply ha hlocks with ⟨hheld, -⟩ | ⟨he, -⟩
    · exact .inl hheld
    · exact absurd he hq
  · rcases sessionHolders_apply ha hsession with hheld | ⟨he, -⟩
    · exact .inr ⟨key, rfl, hheld⟩
    · exact absurd he hq

theorem rank_of_tables (h : w'.tables = w.tables) : w'.rank k = w.rank k := by
  unfold World.rank
  rw [h]

end Effects

section Programs
variable {x : External} {p q : Pid} {w w' : World} {i : Input} {e : Effect}

/-- What a statement asks for is not below its own level, or it is there already; and it is below the next one's. -/
structure Orderly (p : Pid) (w : World) (level level' : ℕ) (e : Effect) : Prop where
  rises : e.continues = true → level ≤ level'
  asks : ∀ k, e.Asks k → level ≤ w.rank k ∨
    (∀ key, k ≠ .advisory key) ∧ (w.pg.locks.owner k = some p ∨ (w.pg.locks.acquire p k).isSome)
  fits : ∀ k, e.Asks k → w.rank k < level'

theorem Orderly.of_ends {level level' : ℕ} (hc : e.continues = false) : Orderly p w level level' e where
  rises := fun h => absurd (hc.symm.trans h) (by decide)
  asks := by
    rintro k (rfl | rfl)
    all_goals contradiction
  fits := by
    rintro k (rfl | rfl)
    all_goals contradiction

theorem Orderly.of_asks_nothing {level level' : ℕ} (h : level ≤ level') (hasks : ∀ k, ¬ e.Asks k) :
    Orderly p w level level' e :=
  ⟨fun _ => h, fun k hk => absurd hk (hasks k), fun k hk => absurd hk (hasks k)⟩

theorem asks_read (k : LockKey) : ¬ Effect.read.Asks k := by
  rintro (h | h)
  all_goals contradiction

theorem Orderly.of_read {level level' : ℕ} (h : level ≤ level') : Orderly p w level level' .read :=
  .of_asks_nothing h asks_read

theorem Orderly.of_lock {level level' : ℕ} {k : LockKey}
    (h : level ≤ w.rank k ∨ (∀ key, k ≠ .advisory key) ∧ w.pg.locks.owner k = some p)
    (hle : level ≤ level') (hlt : w.rank k < level') : Orderly p w level level' (.lock k) := by
  refine ⟨fun _ => hle, fun j hj => ?_, fun j hj => ?_⟩
  · rcases hj with hj | hj
    · cases hj
      exact h.imp_right fun hown => ⟨hown.1, .inl hown.2⟩
    · contradiction
  · rcases hj with hj | hj
    · cases hj
      exact hlt
    · contradiction

theorem Orderly.of_share {level level' : ℕ} {k : LockKey} (h : level ≤ w.rank k) (hle : level ≤ level')
    (hlt : w.rank k < level') : Orderly p w level level' (.share k) := by
  refine ⟨fun _ => hle, fun j hj => ?_, fun j hj => ?_⟩
  · rcases hj with hj | hj
    · contradiction
    · cases hj
      exact .inl h
  · rcases hj with hj | hj
    · contradiction
    · cases hj
      exact hlt

theorem rank_run {id : UUID} {row : Run} (h : w.tables.runs.find? id = some row) : w.rank (.run id) = 4 := by
  simp [World.rank, h]

theorem rank_newRun {id : UUID} (h : w.tables.runs.find? id = none) : w.rank (.run id) = 1 := by
  simp [World.rank, h]

theorem rank_release {id : UUID} (h : (w.tables.releases.find? id).isSome) : w.rank (.release id) = 2 := by
  simp [World.rank, h]

theorem rank_newRelease {id : UUID} (h : w.tables.releases.find? id = none) : w.rank (.release id) = 3 := by
  simp [World.rank, h]

theorem SubmitRun.orderly {call : SubmitRun} {pc : Pc} {r : Progress Pc UUID} (hs : call.step w i pc = (e, r)) :
    Orderly p w (level pc) (r.level level) e := by
  rcases step_cases hs with ⟨rfl, -⟩ | h
  · exact .of_ends rfl
  cases pc with
  | getRelease =>
    obtain ⟨s, -, rfl, ⟨limits, -, rfl⟩ | ⟨-, rfl⟩⟩ := h
    · exact .of_read le_rfl
    · exact .of_read (Nat.zero_le 1)
  | lockAdmission s limits =>
    obtain ⟨rfl, rfl⟩ := h
    exact .of_lock (.inl le_rfl) (Nat.zero_le 1) Nat.one_pos
  | countTotal s limits =>
    obtain ⟨rfl, rfl⟩ := h
    exact .of_read le_rfl
  | countOwned s limits total =>
    obtain ⟨-, rfl, rfl⟩ := h
    exact .of_read le_rfl
  | findUser s =>
    obtain ⟨rfl, rfl⟩ := h
    exact .of_read le_rfl
  | insertRun s =>
    obtain ⟨hnew, rfl, rfl⟩ := h
    have hrank := rank_newRun hnew
    exact .of_lock (.inl hrank.ge) (Nat.le_succ 1) (hrank.trans_lt Nat.one_lt_two)
  | checkRelease s row =>
    obtain ⟨hrow, rfl, rfl⟩ := h
    have hrank := rank_release hrow
    exact .of_share hrank.ge (Nat.le_succ 2) (hrank.trans_lt (Nat.lt_succ_self 2))
  | checkUser s row =>
    obtain ⟨⟨user, rfl⟩ | rfl, rfl⟩ := h
    · exact .of_share le_rfl (Nat.le_succ 3) (Nat.lt_succ_self 3)
    · exact .of_read (Nat.le_succ 3)
  | insertEvent s row =>
    obtain ⟨rfl, rfl⟩ := h
    exact .of_read le_rfl
  | commit s row event =>
    obtain ⟨rfl, rfl⟩ := h
    exact .of_ends rfl

theorem Catalog.orderly {definition : Registrable} {pc : Pc} {r : Progress Pc ModelRelease}
    (hheld : ∀ h ∈ holds definition.1.modelId pc, h.Valid p w) (hsingle : (Proc.register definition pc).Single w)
    (hs : step definition.1 w i pc = (e, r)) : Orderly p w (level pc) (r.level level) e := by
  rcases step_cases hs with ⟨rfl, -⟩ | h
  · exact .of_ends rfl
  cases pc with
  | insertModel =>
    obtain ⟨-, rfl, rfl⟩ | ⟨-, rfl, rfl⟩ := h
    · exact .of_read le_rfl
    · exact .of_lock (.inl (Nat.zero_le 1)) (Nat.zero_le 2) Nat.one_lt_two
  | lockModel inserted =>
    obtain ⟨model, -, rfl, rfl⟩ := h
    cases inserted with
    | true => exact .of_lock (.inr ⟨fun key he => (by cases he), hheld _ List.mem_cons_self⟩) le_rfl Nat.one_lt_two
    | false => exact .of_lock (.inl (Nat.zero_le 1)) (Nat.zero_le 2) Nat.one_lt_two
  | selectReleases model inserted =>
    obtain ⟨rfl, rfl⟩ := h
    refine .of_read ?_
    cases w.tables.matchingReleases definition.1.modelId definition.1.imageDigest with
    | nil => exact Nat.le_succ 2
    | cons id ids => exact le_rfl
  | lockReleases model inserted remaining found =>
    obtain ⟨id, ids, rfl, rfl, rfl⟩ | ⟨rfl, rfl, rfl, rfl⟩ | ⟨rfl, release, others, rfl, rfl, rfl⟩ := h
    · obtain ⟨hlength, hcommitted⟩ := hsingle
      obtain rfl : ids = [] := List.length_eq_zero_iff.mp (Nat.le_zero.mp (Nat.le_of_succ_le_succ hlength))
      have hrank := rank_release (hcommitted id List.mem_cons_self)
      exact .of_lock (.inl hrank.ge) (Nat.le_succ 2) (hrank.trans_lt (Nat.lt_succ_self 2))
    · exact .of_read le_rfl
    · exact .of_read le_rfl
  | insertRelease model inserted =>
    obtain ⟨hnew, row, rfl, rfl, rfl⟩ := h
    have hrank := rank_newRelease hnew
    exact .of_lock (.inl hrank.ge) (Nat.le_succ 3) (hrank.trans_lt (Nat.lt_succ_self 3))
  | activeModes model inserted release =>
    obtain ⟨-, rfl, rfl⟩ := h
    exact .of_read (Nat.le_succ 3)
  | commit registration =>
    obtain ⟨rfl, release, rfl⟩ := h
    exact .of_ends rfl

theorem AcceptRun.orderly {runId : UUID} {pc : Pc} {r : Progress Pc String} (hs : step runId w i pc = (e, r)) :
    Orderly p w (level pc) (r.level level) e := by
  rcases step_cases hs with ⟨rfl, -⟩ | h
  · exact .of_ends rfl
  cases pc with
  | readRelease =>
    obtain ⟨row, -, rfl, rfl⟩ := h
    exact .of_read le_rfl
  | lockRelease releaseId =>
    obtain ⟨release, hrelease, rfl, rfl⟩ := h
    have hrank := rank_release (Option.isSome_of_mem hrelease)
    exact .of_lock (.inl (Nat.zero_le _)) (Nat.zero_le 3) (hrank.trans_lt (Nat.lt_succ_self 2))
  | lockRun release =>
    obtain ⟨row, hrow, rfl, hr⟩ := h
    have hrank := rank_run hrow
    have hle : 3 ≤ w.rank (.run runId) := hrank ▸ Nat.le_succ 3
    rcases hr with ⟨-, rfl⟩ | ⟨-, -, rfl⟩
    · exact .of_lock (.inl hle) (by decide : 3 ≤ 5) (hrank.trans_lt (Nat.lt_succ_self 4))
    · exact .of_lock (.inl hle) (by decide : 3 ≤ 5) (hrank.trans_lt (Nat.lt_succ_self 4))
  | loadRelease release row =>
    obtain ⟨pc', hd, rfl, rfl⟩ := h
    obtain ⟨definition, -, ⟨invocation, -, -, rfl⟩ | ⟨-, rfl⟩⟩ := decide_ok hd
    · exact .of_read le_rfl
    · exact .of_read le_rfl
  | commit release u outcome entries =>
    obtain ⟨rfl, rfl⟩ := h
    exact .of_ends rfl

theorem ClaimNext.orderly {worker : Worker} {pc : Pc} {r : Progress Pc (Option UUID)}
    (hs : step worker w i pc = (e, r)) : Orderly p w (level pc) (r.level level) e := by
  rcases step_cases hs with ⟨rfl, -⟩ | h
  · exact .of_ends rfl
  cases pc with
  | lockCapacity =>
    obtain ⟨rfl, rfl⟩ := h
    exact .of_lock (.inl le_rfl) (Nat.zero_le 1) Nat.one_pos
  | count =>
    obtain ⟨rfl, rfl | ⟨-, rfl⟩⟩ := h
    · exact .of_read (by decide : 1 ≤ 5)
    · exact .of_read le_rfl
  | candidate =>
    obtain ⟨rfl, rfl | ⟨run, -, rfl⟩⟩ := h
    · exact .of_read (by decide : 1 ≤ 5)
    · exact .of_read le_rfl
  | lockRelease runId releaseId =>
    obtain ⟨release, hrelease, rfl, rfl⟩ := h
    have hrank := rank_release (Option.isSome_of_mem hrelease)
    exact .of_lock (.inl (hrank ▸ Nat.le_succ 1)) (by decide : 1 ≤ 3) (hrank.trans_lt (Nat.lt_succ_self 2))
  | lockRun runId release =>
    obtain ⟨row, hrow, rfl, hr⟩ := h
    have hrank := rank_run hrow
    have hle : 3 ≤ w.rank (.run runId) := hrank ▸ Nat.le_succ 3
    rcases hr with rfl | ⟨-, -, rfl⟩
    · exact .of_lock (.inl hle) (by decide : 3 ≤ 5) (hrank.trans_lt (Nat.lt_succ_self 4))
    · exact .of_lock (.inl hle) (by decide : 3 ≤ 5) (hrank.trans_lt (Nat.lt_succ_self 4))
  | loadRelease release row =>
    obtain ⟨pc', hd, rfl, rfl⟩ := h
    obtain ⟨definition, -, ⟨-, rfl⟩ | ⟨-, rfl⟩⟩ := decide_ok hd
    · exact .of_read le_rfl
    · exact .of_read le_rfl
  | commit u started =>
    obtain ⟨rfl, rfl⟩ := h
    exact .of_ends rfl

namespace Reconcile

theorem level_le_six (pc : Pc) : level pc ≤ 6 := by
  cases pc
  all_goals simp [level]

theorem level_inspect (call : Call) (holder : Option Pid) (job : JobObject) : 1 ≤ level (inspect call holder job) := by
  rcases inspect_cases call holder job with ⟨err, h⟩ | h | ⟨-, ⟨-, h⟩ | ⟨-, h⟩⟩
  all_goals simp [h, level]

theorem level_conclude (call : Call) (observation : JobObservation) : 1 ≤ level (conclude call observation) := by
  unfold conclude
  split
  all_goals simp [level]

/-- Past the start every statement counts with the session lock. -/
theorem level_running {helm : Helm} {worker : Worker} {runId : UUID} {pc pc' : Pc}
    (hs : step helm worker runId p w i pc = (e, .running pc')) : 1 ≤ level pc' := by
  have hcases := step_cases hs
  generalize hr : Progress.running pc' = r at hcases
  have hlevel {pc'' : Pc} (he : r = .running pc'') (h : 1 ≤ level pc'') : 1 ≤ level pc' := by
    cases hr.trans he
    exact h
  rcases hcases with ⟨-, -, err, he⟩ | h
  · exact hlevel he (by decide : 1 ≤ 6)
  cases pc with
  | acquire =>
    rcases h with ⟨-, he⟩ | ⟨-, he⟩
    · cases hr.trans he
    · exact hlevel he le_rfl
  | loadRun =>
    obtain ⟨-, row, -, -, he⟩ := h
    exact hlevel he le_rfl
  | loadRelease row =>
    obtain ⟨-, release, -, he⟩ := h
    exact hlevel he le_rfl
  | loadModel row release =>
    obtain ⟨-, definition, -, he⟩ := h
    exact hlevel he le_rfl
  | observe work seen =>
    obtain ⟨-, ⟨-, he⟩ | ⟨expected, -, -, -, he⟩⟩ := h
    · exact hlevel he le_rfl
    · exact hlevel he le_rfl
  | lookup call =>
    obtain ⟨-, ⟨job, -, he⟩ | ⟨-, ⟨-, he⟩ | ⟨-, he⟩⟩⟩ := h
    · exact hlevel he (level_inspect ..)
    · exact hlevel he le_rfl
    · exact hlevel he le_rfl
  | create call =>
    obtain ⟨-, he⟩ | ⟨job, -, he⟩ := h
    · exact hlevel he le_rfl
    · exact hlevel he (level_inspect ..)
  | confirm call =>
    obtain ⟨-, job, -, he⟩ := h
    exact hlevel he (level_inspect ..)
  | readPods call job =>
    obtain ⟨-, he⟩ := h
    exact hlevel he le_rfl
  | lockUid call observation =>
    obtain ⟨row, -, -, he⟩ := h
    exact hlevel he (by decide : 1 ≤ 5)
  | saveUid call observation row =>
    obtain ⟨-, he⟩ | ⟨-, -, he⟩ := h
    · exact hlevel he le_rfl
    · exact hlevel he (level_conclude ..)
  | listOutputs call =>
    obtain ⟨-, outputPrefix, -, ⟨artifacts, -, he⟩ | ⟨code, artifacts, -, he⟩⟩ := h
    · exact hlevel he le_rfl
    · exact hlevel he le_rfl
  | lockFinish seen failureCode artifacts =>
    obtain ⟨row, -, -, he⟩ := h
    exact hlevel he (by decide : 1 ≤ 5)
  | finish seen u => exact hlevel h.1 (by decide : 1 ≤ 6)
  | unwind error => exact h.elim
  | exit error =>
    obtain ⟨-, he | ⟨err, he⟩⟩ := h
    · cases hr.trans he
    · cases hr.trans he

theorem orderly {helm : Helm} {worker : Worker} {runId : UUID} {pc : Pc} {r : Progress Pc Unit}
    (hs : step helm worker runId p w i pc = (e, r)) : Orderly p w (level pc) (r.level level) e := by
  have hread {level' : ℕ} (h : level pc ≤ level') (he : e = .read) : Orderly p w (level pc) level' e := he ▸ .of_read h
  have hlock {level' : ℕ} {row : Run} (hpc : level pc = 1) (hrow : w.tables.runs.find? runId = some row)
      (he : e = .lock (.run runId)) (h : level' = 5) : Orderly p w (level pc) level' e := by
    have hrank := rank_run hrow
    subst he h
    rw [hpc]
    exact .of_lock (.inl (hrank ▸ by decide)) (by decide) (hrank.trans_lt (Nat.lt_succ_self 4))
  have hrunning {pc' : Pc} (hr : r = .running pc') : 1 ≤ r.level level := by
    subst hr
    exact level_running hs
  rcases step_cases hs with ⟨-, he | rfl, err, rfl⟩ | h
  · exact hread (level_le_six pc) he
  · exact .of_ends rfl
  cases pc with
  | acquire =>
    obtain ⟨rfl, -⟩ | ⟨rfl, rfl⟩ := h
    · exact .of_read (Nat.zero_le _)
    · refine .of_asks_nothing (Nat.zero_le 1) ?_
      rintro k (he | he)
      all_goals contradiction
  | loadRun =>
    obtain ⟨he, row, -, -, hr⟩ := h
    exact hread (hrunning hr) he
  | loadRelease row =>
    obtain ⟨he, release, -, hr⟩ := h
    exact hread (hrunning hr) he
  | loadModel row release =>
    obtain ⟨rfl, -⟩ := h
    exact .of_ends rfl
  | observe work seen =>
    obtain ⟨he, ⟨-, hr⟩ | ⟨expected, -, -, -, hr⟩⟩ := h
    · exact hread (hrunning hr) he
    · exact hread (hrunning hr) he
  | lookup call =>
    obtain ⟨he, ⟨job, -, hr⟩ | ⟨-, ⟨-, hr⟩ | ⟨-, hr⟩⟩⟩ := h
    · exact hread (hrunning hr) he
    · exact hread (hrunning hr) he
    · exact hread (hrunning hr) he
  | create call =>
    have hcreate {job : JobObject} (he : e = .createJob (worker.namespace, call.work.jobName) job)
        (hle : 1 ≤ r.level level) : Orderly p w 1 (r.level level) e := by
      subst he
      refine .of_asks_nothing hle ?_
      rintro k (he | he)
      all_goals contradiction
    obtain ⟨he | ⟨job, he⟩, hr⟩ | ⟨job, he, hr⟩ := h
    · exact hread (hrunning hr) he
    · exact hcreate he (hrunning hr)
    · exact hcreate he (hrunning hr)
  | confirm call =>
    obtain ⟨he, job, -, hr⟩ := h
    exact hread (hrunning hr) he
  | readPods call job =>
    obtain ⟨he, hr⟩ := h
    exact hread (hrunning hr) he
  | lockUid call observation =>
    obtain ⟨row, hrow, he, rfl⟩ := h
    exact hlock rfl hrow he rfl
  | saveUid call observation row =>
    obtain ⟨rfl, -⟩ | ⟨-, rfl, -⟩ := h
    · exact .of_ends rfl
    · exact .of_ends rfl
  | listOutputs call =>
    obtain ⟨he, outputPrefix, -, ⟨artifacts, -, hr⟩ | ⟨code, artifacts, -, hr⟩⟩ := h
    · exact hread (hrunning hr) he
    · exact hread (hrunning hr) he
  | lockFinish seen failureCode artifacts =>
    obtain ⟨row, hrow, he, rfl⟩ := h
    exact hlock rfl hrow he rfl
  | finish seen u =>
    obtain ⟨-, rfl⟩ := h
    exact .of_ends rfl
  | unwind error => exact h.elim
  | exit error =>
    obtain ⟨rfl, -⟩ := h
    exact .of_ends rfl

end Reconcile

/-- A publication takes only what is free. -/
theorem PublishOutbox.orderly {isoformat : Datetime → String} {publisher : Publisher} {pc : Pc} {r : Progress Pc ℕ}
    (hs : step isoformat publisher p w i pc = (e, r)) : Orderly p w (level pc) (r.level level) e := by
  cases pc with
  | select =>
    simp only [step] at hs
    split at hs
    · cases hs
      exact .of_read le_rfl
    · cases hs
      exact .of_read (Nat.zero_le 6)
  | lockRows remaining claimed =>
    cases remaining with
    | nil =>
      cases hs
      exact .of_read le_rfl
    | cons id ids =>
      simp only [step] at hs
      split at hs
      · cases hs
        exact .of_read le_rfl
      · split at hs
        · cases hs
          exact .of_read le_rfl
        · rename_i hfree
          cases hs
          have hfree := Option.isSome_iff_ne_none.mpr fun he => hfree (Option.isNone_iff_eq_none.mpr he)
          refine ⟨fun _ => le_rfl, fun k hk => ?_, fun k _ => rank_lt_six w k⟩
          rcases hk with hk | hk
          · cases hk
            exact .inr ⟨fun key he => (by cases he), .inr hfree⟩
          · contradiction
  | publish marked todo =>
    rcases step_cases hs with ⟨he | rfl, err, rfl⟩ | ⟨event, rest, -, -, rfl, rfl⟩ | ⟨-, rfl, rfl⟩
    · cases todo with
      | nil =>
        cases hs
      | cons event rest =>
        simp only [step] at hs
        split at hs
        · cases hs
          contradiction
        · cases hs
    · exact .of_ends rfl
    · refine .of_asks_nothing le_rfl ?_
      rintro k (he | he)
      all_goals contradiction
    · exact .of_ends rfl
  | confirm marked event todo =>
    simp only [step] at hs
    split at hs
    · cases hs
      exact .of_ends rfl
    · cases hs
      refine .of_asks_nothing le_rfl ?_
      rintro k (he | he)
      all_goals contradiction

/-- An acceptance is over when its transaction is. -/
theorem AcceptRun.ends {runId : UUID} {pc : Pc} {r : Progress Pc String} (hs : step runId w i pc = (e, r))
    (hr : ∀ pc', r ≠ .running pc') : e.continues = false := by
  rcases step_cases hs with ⟨rfl, -⟩ | h
  · rfl
  cases pc with
  | readRelease =>
    obtain ⟨row, -, -, rfl⟩ := h
    exact absurd rfl (hr _)
  | lockRelease releaseId =>
    obtain ⟨release, -, -, rfl⟩ := h
    exact absurd rfl (hr _)
  | lockRun release =>
    obtain ⟨row, -, -, ⟨-, rfl⟩ | ⟨-, -, rfl⟩⟩ := h
    · exact absurd rfl (hr _)
    · exact absurd rfl (hr _)
  | loadRelease release row =>
    obtain ⟨pc', -, -, rfl⟩ := h
    exact absurd rfl (hr _)
  | commit release u outcome entries =>
    obtain ⟨rfl, -⟩ := h
    rfl

theorem noting_continues {location : RecordLocation} {outcome : String} (h : e.continues = false) :
    (Consumer.noting location outcome e).continues = false := by
  cases e
  all_goals exact h

theorem Consumer.orderly {d : Decoders} {topic : String} {pc : Pc} {r : Progress Pc Unit}
    (hs : step d topic p w i pc = (e, r)) : Orderly p w (level pc) (r.level level) e := by
  have hcases := step_cases hs
  have hplain {level' : ℕ} (he : ∀ k, ¬ e.Asks k) : Orderly p w 0 level' e := .of_asks_nothing (Nat.zero_le _) he
  have hread {level' : ℕ} (he : e = .read) : Orderly p w 0 level' e := he ▸ .of_read (Nat.zero_le _)
  cases pc with
  | poll =>
    obtain ⟨he, -⟩ | ⟨tp, ⟨-, rfl, -⟩ | ⟨record, -, -, rfl, -⟩⟩ := hcases
    · exact hread he
    all_goals
      refine hplain ?_
      rintro k (he | he)
      all_goals contradiction
  | decode location message => exact hread hcases.1
  | accept location runId pc =>
    obtain ⟨e₀, r₀, hstep, h⟩ := hcases
    have horderly := AcceptRun.orderly (p := p) hstep
    rcases h with ⟨pc', rfl, rfl, rfl⟩ | ⟨outcome, rfl, rfl, -⟩ | ⟨message, rfl, rfl, -⟩ | ⟨err, rfl, rfl, -⟩
    · exact horderly
    · refine .of_ends (noting_continues ?_)
      exact AcceptRun.ends hstep fun pc' he => by cases he
    · exact .of_ends (AcceptRun.ends hstep fun pc' he => by cases he)
    · exact .of_ends (AcceptRun.ends hstep fun pc' he => by cases he)
  | reject location rejection pc =>
    obtain ⟨e₀, r₀, hrecord, h⟩ := hcases
    have hrecord := record_cases hrecord
    cases pc with
    | insert =>
      rcases h with ⟨pc', rfl, rfl, rfl⟩ | ⟨rfl, -, -⟩
      · obtain ⟨-, rfl, hr⟩ | ⟨-, rfl, hr⟩ := hrecord
        · exact .of_read (Nat.zero_le _)
        · cases hr
          exact .of_lock (.inl (Nat.zero_le _)) (Nat.zero_le 6) (Nat.lt_succ_self 5)
      · obtain ⟨-, -, hr⟩ | ⟨-, -, hr⟩ := hrecord
        · cases hr
        · cases hr
    | commit message =>
      obtain ⟨rfl, hr⟩ := hrecord
      rcases h with ⟨pc', rfl, -, -⟩ | ⟨-, rfl, -⟩
      · cases hr
      · exact .of_ends rfl
  | commit location outcome =>
    obtain ⟨he, -⟩ | ⟨rfl, -⟩ := hcases
    · exact hread he
    · refine hplain ?_
      rintro k (he | he)
      all_goals contradiction
  | close =>
    obtain ⟨rfl, -⟩ := hcases
    refine hplain ?_
    rintro k (he | he)
    all_goals contradiction

end Programs

section Processes
variable {x : External} {p q : Pid} {w w' : World} {i : Input} {e : Effect} {l l' : Proc}

theorem Progress.proc_level {π ρ : Type} {f : π → Proc} {g : π → ℕ} (hfg : ∀ pc, (f pc).level = g pc)
    (r : Progress π ρ) : (r.proc f).level = r.level g := by
  cases r with
  | running pc => exact hfg pc
  | returned _ | raised _ => rfl

theorem Proc.orderly (hs : l.next x p w i = (e, l')) (hl : Holding p l w) (hsingle : l.Single w) :
    Orderly p w l.level l'.level e := by
  cases l with
  | idle =>
    cases hs
    exact .of_read le_rfl
  | unwinding =>
    cases hs
    exact .of_ends rfl
  | submit call pc =>
    cases hs
    exact Progress.proc_level (fun _ => rfl) _ ▸ SubmitRun.orderly rfl
  | register definition pc =>
    cases hs
    exact Progress.proc_level (fun _ => rfl) _ ▸ Catalog.orderly hl.valid hsingle rfl
  | accept runId pc =>
    cases hs
    exact Progress.proc_level (fun _ => rfl) _ ▸ AcceptRun.orderly rfl
  | claim worker pc =>
    cases hs
    exact Progress.proc_level (fun _ => rfl) _ ▸ ClaimNext.orderly rfl
  | reconcile worker runId pc =>
    cases hs
    exact Progress.proc_level (fun _ => rfl) _ ▸ Reconcile.orderly rfl
  | publish publisher pc =>
    cases hs
    exact Progress.proc_level (fun _ => rfl) _ ▸ PublishOutbox.orderly rfl
  | consume topic pc =>
    cases hs
    exact Progress.proc_level (fun _ => rfl) _ ▸ Consumer.orderly rfl

/-- A session lock that is still held is that of the reconcile call which goes on. -/
theorem Proc.sessionKey_next (hs : l.next x p w i = (e, l')) (ha : w.apply p e = some w') {key : ℤ}
    (hkey : l.sessionKey = some key) (hheld : w'.pg.sessionLocks key = some p) : l'.sessionKey = some key := by
  cases l with
  | reconcile worker runId pc =>
    obtain ⟨r, hstep, rfl⟩ := reconcile_next hs
    have hrun : key = runKey runId := by
      cases pc with
      | acquire => cases hkey
      | _ => exact (Option.some.inj hkey).symm
    subst hrun
    cases r with
    | running pc' =>
      have hlevel := Reconcile.level_running hstep
      cases pc' with
      | acquire => exact absurd hlevel (by decide)
      | _ => rfl
    | returned _ | raised _ =>
      -- Only the last statement ends the call, and it unlocks.
      have hexit : ∃ error, pc = .exit error := by
        have hc := Reconcile.step_cases hstep
        cases pc with
        | acquire => cases hkey
        | exit error => exact ⟨error, rfl⟩
        | _ => grind
      obtain ⟨error, rfl⟩ := hexit
      obtain ⟨rfl, -⟩ := Prod.mk.inj hstep
      obtain rfl := Option.some.inj ha
      simp only [Function.update_self] at hheld
      contradiction
  | _ => cases hkey

theorem Proc.level_of_sessionKey {key : ℤ} (h : l.sessionKey = some key) : 0 < l.level := by
  cases l with
  | reconcile worker runId pc =>
    cases pc with
    | acquire => cases h
    | _ => simp [Proc.level, Reconcile.level]
  | _ => cases h

/-- A run that is added is one whose key was locked for it. -/
theorem run_added (hs : l.next x p w i = (e, l')) (hl : Holding p l w) (ha : w.apply p e = some w') {id : UUID}
    (hnone : w.tables.runs.find? id = none) (hsome : (w'.tables.runs.find? id).isSome) :
    w.pg.locks.owner (.run id) = some p := by
  have hcontra (h : w'.tables.runs.find? id = none) : w.pg.locks.owner (.run id) = some p := by
    rw [h] at hsome
    contradiction
  cases hcommit : e.commits with
  | false => exact hcontra (tables_apply hcommit ha ▸ hnone)
  | true =>
    obtain ⟨change, entries, rfl⟩ := e.commits_iff.mp hcommit
    have hcommits := Proc.commits hs rfl
    obtain ⟨tables, ht, rfl⟩ := commit_apply ha
    cases change with
    | nothing =>
      obtain rfl := Change.nothing_apply ht
      exact hcontra hnone
    | submit row event =>
      obtain ⟨runs, outbox, hruns, -, rfl⟩ := Change.submit_apply ht
      obtain ⟨call, s, rfl, -⟩ := hcommits.of_submit
      by_cases hid : id = row.id
      · subst hid
        exact hl.valid _ List.mem_cons_self
      · refine hcontra ?_
        dsimp only [World.tables]
        rw [Table.find?_insert hruns]
        exact (if_neg hid).trans hnone
    | outcome u =>
      obtain ⟨artifacts, outbox, -, -, rfl⟩ := Change.outcome_apply ht
      refine hcontra ?_
      dsimp only [World.tables]
      rw [Table.find?_modify (f := Run.flush u.loaded u.row) fun _ => rfl]
      split
      · rename_i hid
        rw [← hid]
        exact congrArg (Option.map _) hnone
      · exact hnone
    | register r =>
      obtain ⟨models, releases, -, -, rfl⟩ := Change.register_apply ht
      exact hcontra hnone
    | publish marks =>
      obtain rfl := Change.publish_apply ht
      exact hcontra hnone
    | reject message =>
      obtain ⟨rejected, -, rfl⟩ := Change.reject_apply ht
      exact hcontra hnone

end Processes
end Mic3

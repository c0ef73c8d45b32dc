import Mathlib.Data.List.Basic
import Mathlib.Logic.Function.Basic
import Mathlib.Order.Nat

/-! A database server's sessions: the transaction that each has open, the session locks that it holds, which outlive
its transactions, and the log of what was committed. A session that is lost is rolled back and its locks are free. -/
namespace Relational

/-- A transaction of a session; one in which a statement has failed can only be rolled back. -/
inductive Tx (α : Type*) where
  | none
  | opened (writes : List α)
  | aborted

structure Session (κ α : Type*) where
  alive : Bool
  transaction : Tx α
  /-- How often each lock was taken; a session may take its own again. -/
  locks : κ → ℕ

/-- Which session committed what, and the locks that it held then. -/
structure Committed (κ α : Type*) where
  session : ℕ
  writes : List α
  locks : κ → ℕ

/-- The sessions there ever were, and the log, the latest first. -/
structure Server (κ α : Type*) where
  created : ℕ
  session : ℕ → Session κ α
  log : List (Committed κ α)

variable {κ α : Type*}

def Tx.writes : Tx α → List α
  | .opened writes => writes
  | _ => []

/-- A statement opens a transaction if there is none. -/
def Tx.write (writes : List α) : Tx α → Tx α
  | .none => .opened writes
  | .opened earlier => .opened (earlier ++ writes)
  | .aborted => .aborted

def Session.lost : Session κ α := ⟨false, .none, fun _ => 0⟩

/-- Nothing is open and nothing is held. -/
structure Session.Clean (x : Session κ α) : Prop where
  transaction : x.transaction = .none
  locks : ∀ k, x.locks k = 0

theorem Session.lost_clean : (lost : Session κ α).Clean := ⟨rfl, fun _ => rfl⟩

namespace Server

def start : Server κ α := ⟨0, fun _ => .lost, []⟩

def update (v : Server κ α) (s : ℕ) (x : Session κ α) : Server κ α :=
  { v with session := Function.update v.session s x }

def connect (v : Server κ α) : Server κ α :=
  { v.update v.created ⟨true, .none, fun _ => 0⟩ with created := v.created + 1 }

def write (writes : List α) (v : Server κ α) (s : ℕ) : Server κ α :=
  v.update s { v.session s with transaction := (v.session s).transaction.write writes }

/-- A statement fails. -/
def abort (v : Server κ α) (s : ℕ) : Server κ α := v.update s { v.session s with transaction := .aborted }

def rollback (v : Server κ α) (s : ℕ) : Server κ α := v.update s { v.session s with transaction := .none }

/-- What was aborted is rolled back. -/
def commit (v : Server κ α) (s : ℕ) : Server κ α :=
  { v.rollback s with
    log := match (v.session s).transaction with
      | .opened writes => ⟨s, writes, (v.session s).locks⟩ :: v.log
      | _ => v.log }

def drop (v : Server κ α) (s : ℕ) : Server κ α := v.update s .lost

/-- No other session holds the lock. -/
def free (v : Server κ α) (s : ℕ) (k : κ) : Bool :=
  (List.range v.created).all fun j => j = s || (v.session j).locks k = 0

section Locks
variable [DecidableEq κ]

/-- `pg_try_advisory_lock`. -/
def tryLock (k : κ) (v : Server κ α) (s : ℕ) : Server κ α :=
  if v.free s k then
    v.update s { v.session s with locks := Function.update (v.session s).locks k ((v.session s).locks k + 1) }
  else v

/-- `pg_advisory_unlock`. -/
def unlock (k : κ) (v : Server κ α) (s : ℕ) : Server κ α :=
  v.update s { v.session s with locks := Function.update (v.session s).locks k ((v.session s).locks k - 1) }

end Locks

/-- A lost session holds nothing, and no lock is held by two. -/
structure WellFormed (v : Server κ α) : Prop where
  lost : ∀ s, (v.session s).alive = false → (v.session s).Clean
  future : ∀ s, v.created ≤ s → (v.session s).alive = false
  exclusive : ∀ s j k, 0 < (v.session s).locks k → 0 < (v.session j).locks k → s = j

variable {v v' : Server κ α} {s j : ℕ} {x : Session κ α} {k : κ}

theorem start_wellFormed : (start : Server κ α).WellFormed :=
  ⟨fun _ _ => Session.lost_clean, fun _ _ => rfl, fun _ _ _ h => absurd h (lt_irrefl 0)⟩

theorem WellFormed.alive_of_locked (h : v.WellFormed) (hk : 0 < (v.session s).locks k) : (v.session s).alive = true := by
  by_contra hdead
  have hclean := h.lost s (Bool.eq_false_iff.mpr hdead)
  rw [hclean.locks k] at hk
  exact lt_irrefl 0 hk

theorem WellFormed.locks_free (h : v.WellFormed) (hfree : v.free s k = true) (hj : j ≠ s) :
    (v.session j).locks k = 0 := by
  by_cases hcreated : j < v.created
  · have hall := List.all_eq_true.mp hfree j (List.mem_range.mpr hcreated)
    simpa [hj] using hall
  · exact (h.lost j (h.future j (not_lt.mp hcreated))).locks k

/-- Only one session has changed, and it took no lock that another holds. -/
theorem WellFormed.update (h : v.WellFormed) (hs : s < v.created) (hsession : v'.session = Function.update v.session s x)
    (hcreated : v'.created = v.created) (hlost : x.alive = false → x.Clean)
    (hlocks : ∀ k, 0 < x.locks k → 0 < (v.session s).locks k ∨ ∀ j ≠ s, (v.session j).locks k = 0) :
    v'.WellFormed := by
  have hself : v'.session s = x := by rw [hsession, Function.update_self]
  have hother (j : ℕ) (hj : j ≠ s) : v'.session j = v.session j := by rw [hsession, Function.update_of_ne hj]
  have halone (j : ℕ) (k : κ) (hj : j ≠ s) (hx : 0 < x.locks k) : ¬ 0 < (v.session j).locks k := by
    intro hjk
    rcases hlocks k hx with hheld | hfree
    · exact hj (h.exclusive j s k hjk hheld)
    · rw [hfree j hj] at hjk
      exact lt_irrefl 0 hjk
  refine ⟨fun j hdead => ?_, fun j hj => ?_, fun i j k hi hj => ?_⟩
  · by_cases hjs : j = s
    · subst hjs
      rw [hself] at hdead ⊢
      exact hlost hdead
    · rw [hother j hjs] at hdead ⊢
      exact h.lost j hdead
  · have hjs : j ≠ s := by
      rintro rfl
      rw [hcreated] at hj
      exact absurd hs (not_lt.mpr hj)
    rw [hother j hjs]
    exact h.future j (hcreated ▸ hj)
  · by_cases his : i = s
    · subst his
      by_cases hjs : j = i
      · exact hjs.symm
      · rw [hself] at hi
        rw [hother j hjs] at hj
        exact absurd hj (halone j k hjs hi)
    · rw [hother i his] at hi
      by_cases hjs : j = s
      · subst hjs
        rw [hself] at hj
        exact absurd hi (halone i k his hj)
      · rw [hother j hjs] at hj
        exact h.exclusive i j k hi hj

/-- A new session is alive and clean. -/
theorem WellFormed.connect (h : v.WellFormed) : v.connect.WellFormed := by
  have hself : v.connect.session v.created = ⟨true, .none, fun _ => 0⟩ := Function.update_self ..
  have hother (j : ℕ) (hj : j ≠ v.created) : v.connect.session j = v.session j := Function.update_of_ne hj ..
  have hlocks (j : ℕ) (k : κ) (hk : 0 < (v.connect.session j).locks k) :
      0 < (v.session j).locks k := by
    by_cases hj : j = v.created
    · rw [hj, hself] at hk
      exact absurd hk (lt_irrefl 0)
    · rwa [hother j hj] at hk
  refine ⟨fun j hdead => ?_, fun j hj => ?_, fun i j k hi hj => h.exclusive i j k (hlocks i k hi) (hlocks j k hj)⟩
  · have hj : j ≠ v.created := by
      rintro rfl
      rw [hself] at hdead
      contradiction
    rw [hother j hj] at hdead ⊢
    exact h.lost j hdead
  · have hlt : v.created < j := hj
    rw [hother j (ne_of_gt hlt)]
    exact h.future j hlt.le

end Server
end Relational

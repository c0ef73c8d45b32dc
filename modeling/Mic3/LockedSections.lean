import Mic3.LockedConnections

/-! Whatever ends the body of `locked`, what it left uncommitted is gone and its lock is free; and what is committed
is committed while the lock is held. -/
namespace Mic3
open Relational Interleaving

section Statements
variable {server server' : LockServer} {c c' : Connection} {answer : Answer} {o : Outcome} {s : ℕ}

/-- The server after a step that changes one session and commits nothing. -/
structure Becomes (server server' : LockServer) (s : ℕ) (x : Session ℤ RunWrite) : Prop where
  session : server'.session = Function.update server.session s x
  created : server'.created = server.created
  log : server'.log = server.log

theorem update_becomes (server : LockServer) (s : ℕ) (x : Session ℤ RunWrite) : Becomes server (server.update s x) s x :=
  ⟨rfl, rfl, rfl⟩

theorem becomes_self (server : LockServer) (s : ℕ) : Becomes server server s (server.session s) :=
  ⟨(Function.update_eq_self s server.session).symm, rfl, rfl⟩

/-- A session that is lost is as if it had never been. -/
theorem lost_of_dead (h : server.WellFormed) (hdead : ¬ (server.session s).alive = true) :
    server.session s = .lost := by
  have hfalse := Bool.eq_false_iff.mpr hdead
  obtain ⟨htransaction, hlocks⟩ := h.lost s hfalse
  revert hfalse htransaction hlocks
  generalize server.session s = x
  intro hfalse htransaction hlocks
  obtain ⟨alive, transaction, locks⟩ := x
  obtain rfl : alive = false := hfalse
  obtain rfl : transaction = .none := htransaction
  obtain rfl : locks = fun _ => 0 := funext hlocks
  rfl

theorem becomes_dead (h : server.WellFormed) (hdead : ¬ (server.session s).alive = true) :
    Becomes server server s .lost := by
  have hsame := becomes_self server s
  rwa [lost_of_dead h hdead] at hsame

theorem Becomes.drop {x : Session ℤ RunWrite} (h : Becomes server server' s x) :
    Becomes server (server'.drop s) s .lost := by
  refine ⟨?_, h.created, h.log⟩
  change Function.update server'.session s _ = _
  rw [h.session, Function.update_idem]

/-- A statement that fails after its effect. -/
theorem Becomes.abort {x : Session ℤ RunWrite} (h : Becomes server server' s x) :
    Becomes server (server'.abort s) s { x with transaction := .aborted } := by
  have hself : server'.session s = x := by rw [h.session, Function.update_self]
  refine ⟨?_, h.created, h.log⟩
  change Function.update server'.session s { server'.session s with transaction := .aborted } = _
  rw [hself, h.session, Function.update_idem]

/-- A statement on a connection that is valid: it is done, it fails at the server or before it is sent, or the connection
is lost. -/
theorem Connection.execute_cases (h : server.WellFormed) (hvalid : c.invalidated = false)
    (hactive : c.transaction ≠ .inactive) {effect : LockServer → ℕ → LockServer} {y : Session ℤ RunWrite}
    (hy : Becomes server (effect server c.session) c.session y)
    (hs : c.execute effect answer server = (server', c', o)) :
    (o = .done ∧ (server.session c.session).alive = true ∧ Becomes server server' c.session y ∧
      c' = { c with transaction := .active }) ∨
    (o = .failed ∧ (server.session c.session).alive = true ∧ c' = { c with transaction := .active } ∧
      ((∃ done, answer = .error done ∧ Becomes server server' c.session
        { (if done then y else server.session c.session) with transaction := .aborted }) ∨
      answer = .unsent ∧ server' = server)) ∨
    o = .disconnected ∧ Becomes server server' c.session .lost ∧
      c' = { c with transaction := .active, invalidated := true } := by
  obtain ⟨session, invalidated, transaction⟩ := c
  obtain rfl : invalidated = false := hvalid
  simp only [execute, hactive, Bool.false_eq_true, false_and, or_self, if_false] at hs
  split at hs
  · rename_i halive
    cases answer with
    | ok =>
      cases hs
      exact .inl ⟨rfl, halive, hy, rfl⟩
    | lost =>
      cases hs
      exact .inr (.inr ⟨rfl, hy.drop, rfl⟩)
    | error done =>
      cases hs
      refine .inr (.inl ⟨rfl, halive, rfl, .inl ⟨done, rfl, ?_⟩⟩)
      cases done with
      | false => exact update_becomes server _ _
      | true => exact hy.abort
    | unsent =>
      cases hs
      exact .inr (.inl ⟨rfl, halive, rfl, .inr ⟨rfl, rfl⟩⟩)
  · rename_i hdead
    cases hs
    exact .inr (.inr ⟨rfl, becomes_dead h hdead, rfl⟩)

theorem Connection.commit_cases (h : server.WellFormed) (hactive : c.transaction = .active)
    (hs : c.commit answer server = (server', c', o)) :
    (o = .done ∧ (server.session c.session).alive = true ∧ server' = server.commit c.session ∧
      c' = { c with transaction := .none }) ∨
    (o = .failed ∧ answer.fails = true ∧ (server' = server.rollback c.session ∨ server' = server) ∧
      c' = { c with transaction := .inactive }) ∨
    o = .disconnected ∧ c' = { c with transaction := .inactive, invalidated := true } ∧
      (Becomes server server' c.session .lost ∨
        (server.session c.session).alive = true ∧ server' = (server.commit c.session).drop c.session) := by
  simp only [commit, hactive] at hs
  split at hs
  · rename_i halive
    cases answer with
    | ok =>
      cases hs
      exact .inl ⟨rfl, halive, rfl, rfl⟩
    | error done =>
      cases hs
      exact .inr (.inl ⟨rfl, rfl, .inl rfl, rfl⟩)
    | lost =>
      cases hs
      exact .inr (.inr ⟨rfl, rfl, .inr ⟨halive, rfl⟩⟩)
    | unsent =>
      cases hs
      exact .inr (.inl ⟨rfl, rfl, .inr rfl, rfl⟩)
  · rename_i hdead
    cases hs
    exact .inr (.inr ⟨rfl, rfl, .inl (becomes_dead h hdead)⟩)

/-- What a rollback leaves of the session's transaction: nothing, or what was open where it fails. -/
theorem Connection.rollback_cases (h : server.WellFormed) (hs : c.rollback answer server = (server', c', o)) :
    (o = .done ∧ c' = { c with transaction := .none } ∧ (server' = server ∨ server' = server.rollback c.session)) ∨
    (o = .failed ∧ c' = { c with transaction := .none } ∧ c.transaction = .active ∧ answer.fails = true ∧
      (server' = server ∨ server' = server.abort c.session ∧ (server.session c.session).alive = true)) ∨
    o = .disconnected ∧ c' = { c with transaction := .none, invalidated := true } ∧
      Becomes server server' c.session .lost := by
  unfold rollback at hs
  split at hs
  · rename_i hsent
    split at hs
    · rename_i halive
      cases answer with
      | ok =>
        cases hs
        exact .inl ⟨rfl, rfl, .inr rfl⟩
      | error done =>
        cases hs
        exact .inr (.inl ⟨rfl, rfl, hsent.1, rfl, .inr ⟨rfl, halive⟩⟩)
      | lost =>
        cases hs
        exact .inr (.inr ⟨rfl, rfl, update_becomes server _ _⟩)
      | unsent =>
        cases hs
        exact .inr (.inl ⟨rfl, rfl, hsent.1, rfl, .inl rfl⟩)
    · rename_i hdead
      cases hs
      exact .inr (.inr ⟨rfl, rfl, becomes_dead h hdead⟩)
  · cases hs
    exact .inl ⟨rfl, rfl, .inl rfl⟩

theorem Connection.driverRollback_cases (h : server.WellFormed) (hs : c.driverRollback answer server = (server', o)) :
    (o = .done ∧ server' = server.rollback c.session) ∨
    (o = .failed ∧ answer.fails = true ∧
      (server' = server ∨ server' = server.abort c.session ∧ (server.session c.session).alive = true)) ∨
    o = .disconnected ∧ Becomes server server' c.session .lost := by
  unfold driverRollback at hs
  split at hs
  · rename_i halive
    cases answer with
    | ok =>
      cases hs
      exact .inl ⟨rfl, rfl⟩
    | error done =>
      cases hs
      exact .inr (.inl ⟨rfl, rfl, .inr ⟨rfl, halive⟩⟩)
    | lost =>
      cases hs
      exact .inr (.inr ⟨rfl, update_becomes server _ _⟩)
    | unsent =>
      cases hs
      exact .inr (.inl ⟨rfl, rfl, .inl rfl⟩)
  · rename_i hdead
    cases hs
    exact .inr (.inr ⟨rfl, becomes_dead h hdead⟩)

end Statements

namespace Locked
variable {tidy : Prop} {p : ℕ} {l : Locked} {x : Session ℤ RunWrite} {server server' : LockServer} {c' : Connection} {pc' : Pc}

/-- Whether this answer to the next statement of `locked` leaves the lock of the run with a connection that is given up. -/
def strands (l : Locked) (answer : Answer) : Bool :=
  match l.pc with
  | .acquire => answer = .error true
  | .acquired ok => ok && answer.fails
  | .cleanup => answer.fails
  | .driverRolledBack => l.connection.transaction = .active && answer.fails
  -- Unlocking is not undone by what fails after it.
  | .unlock => answer.fails && answer ≠ .error true
  | .body _ | .rollback _ _ | .unlocked | .close => false

/-- What the session has not committed are writes of this visit. -/
def Mine (p : ℕ) (l : Locked) (x : Session ℤ RunWrite) : Prop :=
  ∀ write ∈ x.transaction.writes, write = ⟨p, l.visit, l.runId⟩

/-- The session holds the lock of the run; where no lock was stranded, it holds it once, and no other. -/
def Owns (tidy : Prop) (l : Locked) (x : Session ℤ RunWrite) : Prop :=
  x.alive = true → 0 < x.locks l.key ∧ (tidy → ∀ k, x.locks k = if k = l.key then 1 else 0)

/-- Where no lock was stranded, the session holds none. -/
def Free (tidy : Prop) (x : Session ℤ RunWrite) : Prop := tidy → ∀ k, x.locks k = 0

/-- How a visit stands with its session. -/
def Knows (tidy : Prop) (p : ℕ) (l : Locked) (x : Session ℤ RunWrite) : Prop :=
  (l.connection.invalidated = true → x.alive = false) ∧
  match l.pc with
  | .acquire => l.connection.invalidated = false ∧ l.connection.transaction = .none ∧ x.transaction.writes = [] ∧
      Free tidy x
  | .acquired ok => l.connection.invalidated = false ∧ l.connection.transaction = .active ∧ x.transaction.writes = [] ∧
      if ok then l.Owns tidy x else Free tidy x
  | .body _ => l.connection.invalidated = false ∧ l.connection.transaction ≠ .inactive ∧ l.Mine p x ∧ l.Owns tidy x
  | .rollback _ failure =>
      (failure = true → l.connection.invalidated = false ∧ l.connection.transaction ≠ .inactive) ∧
        l.Mine p x ∧ l.Owns tidy x
  | .cleanup => l.connection.transaction ≠ .inactive ∧ l.Mine p x ∧ l.Owns tidy x
  | .driverRolledBack => l.connection.invalidated = false ∧ l.connection.transaction ≠ .inactive ∧
      x.transaction.writes = [] ∧ l.Owns tidy x
  | .unlock => l.connection.invalidated = false ∧ l.connection.transaction = .none ∧ x.transaction.writes = [] ∧
      l.Owns tidy x
  | .unlocked => l.connection.invalidated = false ∧ l.connection.transaction = .active ∧ x.transaction.writes = [] ∧
      Free tidy x
  -- What is still open is rolled back with the connection, unless its transaction is inactive.
  | .close => (l.connection.transaction = .inactive → x.transaction.writes = []) ∧ l.Mine p x ∧ Free tidy x

/-- A commit that leaves the log as it was, adds nothing to it, or adds writes of this visit while it owns the lock. -/
def Logs (p : ℕ) (l : Locked) (server server' : LockServer) : Prop :=
  server'.log = server.log ∨ ∃ entry, server'.log = entry :: server.log ∧ (entry.writes = [] ∨
    (∃ stage, l.pc = .body stage) ∧ entry.session = l.connection.session ∧
      (server.session entry.session).alive = true ∧ 0 < entry.locks l.key ∧
      ∀ write ∈ entry.writes, write = ⟨p, l.visit, l.runId⟩)

/-- What a step of a visit does to the server: it changes its own session, and takes no lock that another holds. -/
structure Moves (tidy : Prop) (p : ℕ) (l : Locked) (server server' : LockServer) (c' : Connection) (pc' : Pc) : Prop where
  connection : c'.session = l.connection.session
  session : ∃ x, server'.session = Function.update server.session l.connection.session x ∧
    (x.alive = false → x.Clean) ∧
    (∀ k, 0 < x.locks k → 0 < (server.session l.connection.session).locks k ∨
      ∀ j ≠ l.connection.session, (server.session j).locks k = 0) ∧
    ({ l with connection := c', pc := pc' } : Locked).Knows tidy p x
  created : server'.created = server.created
  logs : l.Logs p server server'

theorem mine_of_writes (h : x.transaction.writes = []) : l.Mine p x := by
  intro write hwrite
  rw [h] at hwrite
  contradiction

theorem mine_none (x : Session ℤ RunWrite) : l.Mine p { x with transaction := .none } := by
  intro write hwrite
  contradiction

theorem none_ne_inactive : Transaction.none ≠ .inactive := by decide

theorem active_ne_inactive : Transaction.active ≠ .inactive := by decide

theorem owns_lost : l.Owns tidy .lost := fun halive => absurd halive Bool.false_ne_true

/-- After the session is lost there is nothing left to say. -/
theorem knows_lost (hpc : (∃ stage, pc' = .rollback stage false) ∨ (pc' = .cleanup ∧ c'.transaction ≠ .inactive) ∨ pc' = .close) :
    ({ l with connection := c', pc := pc' } : Locked).Knows tidy p .lost := by
  have hmine : l.Mine p .lost := mine_of_writes (x := Session.lost) rfl
  refine ⟨fun _ => rfl, ?_⟩
  rcases hpc with ⟨stage, rfl⟩ | ⟨rfl, hinactive⟩ | rfl
  · exact ⟨fun he => absurd he Bool.false_ne_true, hmine, owns_lost⟩
  · exact ⟨hinactive, hmine, owns_lost⟩
  · exact ⟨fun _ => rfl, hmine, fun _ _ => rfl⟩

theorem Moves.of_becomes (h : Becomes server server' l.connection.session x)
    (hc : c'.session = l.connection.session) (hlost : x.alive = false → x.Clean)
    (hlocks : ∀ k, 0 < x.locks k → 0 < (server.session l.connection.session).locks k ∨
      ∀ j ≠ l.connection.session, (server.session j).locks k = 0)
    (hknows : ({ l with connection := c', pc := pc' } : Locked).Knows tidy p x) : l.Moves tidy p server server' c' pc' :=
  ⟨hc, ⟨x, h.session, hlost, hlocks, hknows⟩, h.created, .inl h.log⟩

theorem Moves.of_lost (h : Becomes server server' l.connection.session .lost)
    (hc : c'.session = l.connection.session)
    (hpc : (∃ stage, pc' = .rollback stage false) ∨ (pc' = .cleanup ∧ c'.transaction ≠ .inactive) ∨ pc' = .close) :
    l.Moves tidy p server server' c' pc' :=
  .of_becomes h hc (fun _ => Session.lost_clean) (fun _ hk => absurd hk (lt_irrefl 0)) (knows_lost hpc)

/-- A step that changes the transaction of the session and nothing else of it. -/
theorem Moves.of_transaction (hwf : server.WellFormed) {transaction : Tx RunWrite}
    (h : Becomes server server' l.connection.session { server.session l.connection.session with transaction })
    (hc : c'.session = l.connection.session)
    (hlost : (server.session l.connection.session).alive = false → transaction = .none)
    (hknows : ({ l with connection := c', pc := pc' } : Locked).Knows tidy p
      { server.session l.connection.session with transaction }) : l.Moves tidy p server server' c' pc' :=
  .of_becomes h hc (fun hdead => ⟨hlost hdead, (hwf.lost _ hdead).locks⟩) (fun _ => .inl) hknows

theorem writes_write (writes : List RunWrite) (t : Tx RunWrite) :
    ∀ write ∈ (t.write writes).writes, write ∈ t.writes ∨ write ∈ writes := by
  intro write hwrite
  cases t with
  | none => exact .inr hwrite
  | opened earlier => exact List.mem_append.mp hwrite
  | aborted => contradiction

theorem writes_write_nil {t : Tx RunWrite} (h : t.writes = []) : (t.write []).writes = [] := by
  cases t with
  | none | aborted => rfl
  | opened earlier =>
    have hnone : earlier = [] := h
    rw [hnone]
    rfl

/-- The commit of a session. -/
theorem commit_log (server : LockServer) (s : ℕ) : (server.commit s).log = server.log ∨
    (server.commit s).log = ⟨s, (server.session s).transaction.writes, (server.session s).locks⟩ :: server.log := by
  unfold Server.commit
  dsimp only
  split
  · rename_i ht
    rw [ht]
    exact .inr rfl
  · exact .inl rfl

/-- What a commit of the session adds to the log. -/
theorem logs_commit (hs : (server.session l.connection.session).alive = true)
    (hlog : server'.log = (server.commit l.connection.session).log)
    (h : (server.session l.connection.session).transaction.writes = [] ∨ (∃ stage, l.pc = .body stage) ∧
      l.Owns tidy (server.session l.connection.session) ∧ l.Mine p (server.session l.connection.session)) :
    l.Logs p server server' := by
  rcases commit_log server l.connection.session with he | he
  · exact .inl (hlog.trans he)
  · refine .inr ⟨_, hlog.trans he, ?_⟩
    rcases h with hnone | ⟨hbody, howns, hmine⟩
    · exact .inl hnone
    · exact .inr ⟨hbody, rfl, hs, (howns hs).1, hmine⟩

/-- A commit that is done, by a session that holds what it held. -/
theorem Moves.of_commit (halive : (server.session l.connection.session).alive = true)
    (hserver : server' = server.commit l.connection.session) (hc : c'.session = l.connection.session)
    (h : (server.session l.connection.session).transaction.writes = [] ∨ (∃ stage, l.pc = .body stage) ∧
      l.Owns tidy (server.session l.connection.session) ∧ l.Mine p (server.session l.connection.session))
    (hknows : ({ l with connection := c', pc := pc' } : Locked).Knows tidy p
      { server.session l.connection.session with transaction := .none }) : l.Moves tidy p server server' c' pc' := by
  subst hserver
  refine ⟨hc, ⟨_, rfl, fun hdead => ?_, fun _ => .inl, hknows⟩, rfl, logs_commit halive rfl h⟩
  exact absurd (halive.symm.trans hdead) (by decide)

/-- A commit of a connection that is lost with it. -/
theorem Moves.of_commit_lost (halive : (server.session l.connection.session).alive = true)
    (hserver : server' = (server.commit l.connection.session).drop l.connection.session)
    (hc : c'.session = l.connection.session)
    (h : (server.session l.connection.session).transaction.writes = [] ∨ (∃ stage, l.pc = .body stage) ∧
      l.Owns tidy (server.session l.connection.session) ∧ l.Mine p (server.session l.connection.session))
    (hpc : (∃ stage, pc' = .rollback stage false) ∨ (pc' = .cleanup ∧ c'.transaction ≠ .inactive) ∨ pc' = .close) :
    l.Moves tidy p server server' c' pc' := by
  subst hserver
  refine ⟨hc, ⟨.lost, ?_, fun _ => Session.lost_clean, fun _ hk => absurd hk (lt_irrefl 0), knows_lost hpc⟩, rfl,
    logs_commit halive rfl h⟩
  change Function.update (Function.update server.session _ _) _ _ = _
  rw [Function.update_idem]

/-- The session after `pg_try_advisory_lock`. -/
theorem tryLock_becomes (server : LockServer) (s : ℕ) (k : ℤ) : Becomes server ((server.tryLock k s).write [] s) s
    ⟨(server.session s).alive, (server.session s).transaction.write [],
      if server.free s k then Function.update (server.session s).locks k ((server.session s).locks k + 1)
      else (server.session s).locks⟩ := by
  unfold Server.tryLock
  split
  · refine ⟨?_, rfl, rfl⟩
    change Function.update (Function.update server.session _ _) _ _ = _
    rw [Function.update_idem]
    simp only [Server.update, Function.update_self]
  · exact ⟨rfl, rfl, rfl⟩

theorem unlock_becomes (server : LockServer) (s : ℕ) (k : ℤ) : Becomes server ((server.unlock k s).write [] s) s
    ⟨(server.session s).alive, (server.session s).transaction.write [],
      Function.update (server.session s).locks k ((server.session s).locks k - 1)⟩ := by
  refine ⟨?_, rfl, rfl⟩
  change Function.update (Function.update server.session _ _) _ _ = _
  rw [Function.update_idem]
  simp only [Server.unlock, Server.update, Function.update_self]

section Steps
variable {answer : Answer}

theorem acquire_moves (hwf : server.WellFormed) (hpc : l.pc = .acquire) (htidy : tidy → l.strands answer = false)
    (hk : l.Knows tidy p (server.session l.connection.session)) (hs : l.step p server (.run answer) = some (server', c', pc')) :
    l.Moves tidy p server server' c' pc' := by
  simp only [Knows, hpc] at hk
  obtain ⟨hinvalid, hvalid, hnone, hnothing, hfree⟩ := hk
  have hinactive : l.connection.transaction ≠ .inactive := by rw [hnone]; decide
  -- The lock is taken only where no other session holds it.
  have htaken (k : ℤ) (hlocked : 0 < (if server.free l.connection.session l.key then
      Function.update (server.session l.connection.session).locks l.key
        ((server.session l.connection.session).locks l.key + 1)
      else (server.session l.connection.session).locks) k) :
      0 < (server.session l.connection.session).locks k ∨ ∀ j ≠ l.connection.session, (server.session j).locks k = 0 := by
    split at hlocked
    · rename_i hfree
      by_cases hkey : k = l.key
      · rw [hkey]
        exact .inr fun j hj => hwf.locks_free hfree hj
      · rw [Function.update_of_ne hkey] at hlocked
        exact .inl hlocked
    · exact .inl hlocked
  simp only [step, hpc] at hs
  generalize he : l.connection.execute _ _ server = r at hs
  obtain ⟨server₁, c₁, o⟩ := r
  rcases Connection.execute_cases hwf hvalid hinactive (tryLock_becomes server _ l.key) he with
    ⟨rfl, halive, hbecomes, rfl⟩ | ⟨rfl, halive, rfl, ⟨done, rfl, hbecomes⟩ | ⟨rfl, rfl⟩⟩ | ⟨rfl, hbecomes, rfl⟩
  · cases hs
    have hdead (hdead : (server.session l.connection.session).alive = false) : False :=
      absurd (halive.symm.trans hdead) (by decide)
    refine .of_becomes hbecomes rfl (fun h => (hdead h).elim) htaken ⟨?_, hvalid, rfl, writes_write_nil hnothing, ?_⟩
    · exact fun hdropped => absurd (hvalid.symm.trans hdropped) Bool.false_ne_true
    · split
      · refine fun _ => ⟨?_, fun ht k => ?_⟩
        · have htook : 0 < Function.update (server.session l.connection.session).locks l.key
              ((server.session l.connection.session).locks l.key + 1) l.key := by
            rw [Function.update_self]
            exact Nat.succ_pos _
          exact htook
        · change Function.update _ _ _ k = if k = l.key then 1 else 0
          by_cases hkey : k = l.key
          · rw [hkey, Function.update_self, hfree ht, if_pos rfl]
          · rw [Function.update_of_ne hkey, hfree ht, if_neg hkey]
      · exact hfree
  · cases hs
    cases done with
    | false =>
      refine .of_transaction hwf hbecomes rfl (fun hdead => ?_) ⟨hinvalid, fun _ => rfl, mine_of_writes rfl, hfree⟩
      exact absurd (halive.symm.trans hdead) (by decide)
    | true =>
      refine .of_becomes hbecomes rfl (fun hdead => ?_) htaken
        ⟨hinvalid, fun _ => rfl, mine_of_writes rfl, fun ht => ?_⟩
      · exact absurd (halive.symm.trans hdead) (by decide)
      · have hstranded := htidy ht
        simp only [strands, hpc] at hstranded
        contradiction
  · cases hs
    exact .of_transaction hwf (becomes_self _ _) rfl (fun hdead => (hwf.lost _ hdead).transaction)
      ⟨hinvalid, fun _ => hnothing, mine_of_writes hnothing, hfree⟩
  · cases hs
    exact .of_lost hbecomes rfl (.inr (.inr rfl))

theorem acquired_moves (hwf : server.WellFormed) {ok : Bool} (hpc : l.pc = .acquired ok)
    (htidy : tidy → l.strands answer = false) (hk : l.Knows tidy p (server.session l.connection.session))
    (hs : l.step p server (.run answer) = some (server', c', pc')) : l.Moves tidy p server server' c' pc' := by
  simp only [Knows, hpc] at hk
  obtain ⟨hinvalid, hvalid, hactive, hnothing, hlocks⟩ := hk
  simp only [step, hpc] at hs
  generalize he : l.connection.commit _ server = r at hs
  obtain ⟨server₁, c₁, o⟩ := r
  rcases Connection.commit_cases hwf hactive he with
    ⟨rfl, halive, hserver, rfl⟩ | ⟨rfl, hfails, hserver, rfl⟩ | ⟨rfl, rfl, hbecomes | ⟨halive, hserver⟩⟩
  · cases hs
    refine .of_commit halive hserver rfl (.inl hnothing) ⟨hinvalid, ?_⟩
    cases ok with
    | true => exact ⟨hvalid, none_ne_inactive, mine_none _, hlocks⟩
    | false => exact ⟨fun _ => rfl, mine_none _, hlocks⟩
  · cases hs
    have hfree : Free tidy (server.session l.connection.session) := by
      intro ht
      have hkept := htidy ht
      simp only [strands, hpc, hfails, Bool.and_true] at hkept
      rw [hkept] at hlocks
      exact hlocks ht
    rcases hserver with rfl | rfl
    · exact .of_transaction hwf (update_becomes server _ _) rfl (fun _ => rfl)
        ⟨hinvalid, fun _ => rfl, mine_none _, hfree⟩
    · exact .of_transaction hwf (becomes_self _ _) rfl (fun hdead => (hwf.lost _ hdead).transaction)
        ⟨hinvalid, fun _ => hnothing, mine_of_writes hnothing, hfree⟩
  · cases hs
    exact .of_lost hbecomes rfl (.inr (.inr rfl))
  · cases hs
    exact .of_commit_lost halive hserver rfl (.inl hnothing) (.inr (.inr rfl))

/-- Where an exception goes, the handler included. -/
theorem knows_raised {stage : Stage} {failure : Bool} {c : Connection} (hinvalid : c.invalidated = true → x.alive = false)
    (hfailure : failure = true → c.invalidated = false) (hinactive : c.transaction ≠ .inactive) (hmine : l.Mine p x)
    (howns : l.Owns tidy x) : ({ l with connection := c, pc := raised stage failure } : Locked).Knows tidy p x := by
  unfold raised
  split
  · rename_i hboth
    exact ⟨hinvalid, hfailure hboth.1, hinactive, hmine, howns⟩
  · exact ⟨hinvalid, hinactive, hmine, howns⟩

theorem raised_false (stage : Stage) : raised stage false = .cleanup := if_neg fun h => Bool.false_ne_true h.1

/-- A step after which the session is as it was, or its transaction is aborted. -/
theorem Moves.of_failed (hwf : server.WellFormed)
    (hserver : server' = server ∨ server' = server.abort l.connection.session ∧
      (server.session l.connection.session).alive = true) (hc : c'.session = l.connection.session)
    (hknows : ∀ transaction : Tx RunWrite, (∀ write ∈ transaction.writes,
      write ∈ (server.session l.connection.session).transaction.writes) →
        ({ l with connection := c', pc := pc' } : Locked).Knows tidy p
          { server.session l.connection.session with transaction }) : l.Moves tidy p server server' c' pc' := by
  rcases hserver with rfl | ⟨rfl, halive⟩
  · exact .of_transaction hwf (becomes_self _ _) hc (fun hdead => (hwf.lost _ hdead).transaction)
      (hknows _ fun _ hwrite => hwrite)
  · refine .of_transaction hwf (update_becomes server _ _) hc (fun hdead => ?_)
      (hknows .aborted fun _ hwrite => absurd hwrite List.not_mem_nil)
    exact absurd (halive.symm.trans hdead) (by decide)

theorem rollback_moves (hwf : server.WellFormed) {stage : Stage} {failure : Bool} (hpc : l.pc = .rollback stage failure)
    (hk : l.Knows tidy p (server.session l.connection.session)) (hs : l.step p server (.run answer) = some (server', c', pc')) :
    l.Moves tidy p server server' c' pc' := by
  simp only [Knows, hpc] at hk
  obtain ⟨hinvalid, hfailure, hmine, howns⟩ := hk
  simp only [step, hpc] at hs
  generalize he : l.connection.rollback _ server = r at hs
  obtain ⟨server₁, c₁, o⟩ := r
  have hvalid (h : failure = true) : l.connection.invalidated = false := (hfailure h).1
  rcases Connection.rollback_cases hwf he with
    ⟨rfl, rfl, rfl | rfl⟩ | ⟨rfl, rfl, -, -, hserver⟩ | ⟨rfl, rfl, hbecomes⟩
  · cases hs
    exact .of_transaction hwf (becomes_self _ _) rfl (fun hdead => (hwf.lost _ hdead).transaction)
      (knows_raised hinvalid hvalid none_ne_inactive hmine howns)
  · cases hs
    exact .of_transaction hwf (update_becomes server _ _) rfl (fun _ => rfl)
      (knows_raised hinvalid hvalid none_ne_inactive (mine_none _) howns)
  · cases hs
    refine .of_failed hwf hserver rfl fun transaction hwrites => ?_
    exact knows_raised hinvalid (fun h => absurd h Bool.false_ne_true) none_ne_inactive
      (fun write hwrite => hmine write (hwrites write hwrite)) howns
  · cases hs
    exact .of_lost hbecomes rfl (.inr (.inl ⟨raised_false stage, none_ne_inactive⟩))

theorem cleanup_moves (hwf : server.WellFormed) (hpc : l.pc = .cleanup) (htidy : tidy → l.strands answer = false)
    (hk : l.Knows tidy p (server.session l.connection.session)) (hs : l.step p server (.run answer) = some (server', c', pc')) :
    l.Moves tidy p server server' c' pc' := by
  simp only [Knows, hpc] at hk
  obtain ⟨hinvalid, hinactive, hmine, howns⟩ := hk
  simp only [step, hpc] at hs
  split at hs
  · rename_i hdropped
    cases hs
    have hdead := hinvalid hdropped
    have hclean := hwf.lost _ hdead
    exact .of_transaction hwf (becomes_self server _) rfl (fun _ => hclean.transaction)
      ⟨fun _ => hdead, fun h => absurd h hinactive, hmine, fun _ => hclean.locks⟩
  · rename_i hvalid
    generalize he : l.connection.driverRollback _ server = r at hs
    obtain ⟨server₁, o⟩ := r
    rcases Connection.driverRollback_cases hwf he with ⟨rfl, rfl⟩ | ⟨rfl, hfails, hserver⟩ | ⟨rfl, hbecomes⟩
    · cases hs
      exact .of_transaction hwf (update_becomes server _ _) rfl (fun _ => rfl)
        ⟨hinvalid, Bool.eq_false_iff.mpr hvalid, hinactive, rfl, howns⟩
    · cases hs
      refine .of_failed hwf hserver rfl fun transaction hwrites =>
        ⟨hinvalid, fun h => absurd h hinactive, fun write hwrite => hmine write (hwrites write hwrite), fun ht => ?_⟩
      have hkept := htidy ht
      simp only [strands, hpc] at hkept
      exact absurd (hfails.symm.trans hkept) (by decide)
    · cases hs
      exact .of_lost hbecomes rfl (.inr (.inr rfl))

theorem driverRolledBack_moves (hwf : server.WellFormed) (hpc : l.pc = .driverRolledBack)
    (htidy : tidy → l.strands answer = false) (hk : l.Knows tidy p (server.session l.connection.session))
    (hs : l.step p server (.run answer) = some (server', c', pc')) : l.Moves tidy p server server' c' pc' := by
  simp only [Knows, hpc] at hk
  obtain ⟨hinvalid, hvalid, hinactive, hnothing, howns⟩ := hk
  simp only [step, hpc] at hs
  generalize he : l.connection.rollback _ server = r at hs
  obtain ⟨server₁, c₁, o⟩ := r
  rcases Connection.rollback_cases hwf he with
    ⟨rfl, rfl, rfl | rfl⟩ | ⟨rfl, rfl, hactive, hfails, hserver⟩ | ⟨rfl, rfl, hbecomes⟩
  · cases hs
    exact .of_transaction hwf (becomes_self _ _) rfl (fun hdead => (hwf.lost _ hdead).transaction)
      ⟨hinvalid, hvalid, rfl, hnothing, howns⟩
  · cases hs
    exact .of_transaction hwf (update_becomes server _ _) rfl (fun _ => rfl) ⟨hinvalid, hvalid, rfl, rfl, howns⟩
  · cases hs
    refine .of_failed hwf hserver rfl fun transaction hwrites =>
      ⟨hinvalid, fun h => absurd h none_ne_inactive, fun write hwrite => ?_, fun ht => ?_⟩
    · have hnone := hwrites write hwrite
      rw [hnothing] at hnone
      contradiction
    · have hkept := htidy ht
      simp only [strands, hpc, hactive, hfails, decide_true, Bool.and_self] at hkept
      contradiction
  · cases hs
    exact .of_lost hbecomes rfl (.inr (.inr rfl))

theorem unlock_moves (hwf : server.WellFormed) (hpc : l.pc = .unlock) (htidy : tidy → l.strands answer = false)
    (hk : l.Knows tidy p (server.session l.connection.session)) (hs : l.step p server (.run answer) = some (server', c', pc')) :
    l.Moves tidy p server server' c' pc' := by
  simp only [Knows, hpc] at hk
  obtain ⟨hinvalid, hvalid, hnone, hnothing, howns⟩ := hk
  have hinactive : l.connection.transaction ≠ .inactive := by rw [hnone]; decide
  have hheld (k : ℤ) (hlocked : 0 < Function.update (server.session l.connection.session).locks l.key
      ((server.session l.connection.session).locks l.key - 1) k) :
      0 < (server.session l.connection.session).locks k := by
    by_cases hkey : k = l.key
    · rw [hkey, Function.update_self] at hlocked
      rw [hkey]
      exact lt_of_lt_of_le hlocked (Nat.sub_le _ _)
    · rwa [Function.update_of_ne hkey] at hlocked
  have hfree (halive : (server.session l.connection.session).alive = true) (ht : tidy) (k : ℤ) :
      Function.update (server.session l.connection.session).locks l.key
        ((server.session l.connection.session).locks l.key - 1) k = 0 := by
    have hone := (howns halive).2 ht
    by_cases hkey : k = l.key
    · rw [hkey, Function.update_self, hone, if_pos rfl]
    · rw [Function.update_of_ne hkey, hone, if_neg hkey]
  simp only [step, hpc] at hs
  generalize he : l.connection.execute _ _ server = r at hs
  obtain ⟨server₁, c₁, o⟩ := r
  rcases Connection.execute_cases hwf hvalid hinactive (unlock_becomes server _ l.key) he with
    ⟨rfl, halive, hbecomes, rfl⟩ | ⟨rfl, halive, rfl, ⟨done, rfl, hbecomes⟩ | ⟨rfl, rfl⟩⟩ | ⟨rfl, hbecomes, rfl⟩
  · cases hs
    refine .of_becomes hbecomes rfl (fun hdead => ?_) (fun k hlocked => .inl (hheld k hlocked))
      ⟨?_, hvalid, rfl, writes_write_nil hnothing, hfree halive⟩
    · exact absurd (halive.symm.trans hdead) (by decide)
    · exact fun hdropped => absurd (hvalid.symm.trans hdropped) Bool.false_ne_true
  · cases hs
    cases done with
    | false =>
      refine .of_transaction hwf hbecomes rfl (fun hdead => ?_) ⟨hinvalid, fun _ => rfl, mine_of_writes rfl, fun ht => ?_⟩
      · exact absurd (halive.symm.trans hdead) (by decide)
      · have hkept := htidy ht
        simp only [strands, hpc] at hkept
        contradiction
    | true =>
      refine .of_becomes hbecomes rfl (fun hdead => ?_) (fun k hlocked => .inl (hheld k hlocked))
        ⟨hinvalid, fun _ => rfl, mine_of_writes rfl, hfree halive⟩
      exact absurd (halive.symm.trans hdead) (by decide)
  · cases hs
    refine .of_transaction hwf (becomes_self _ _) rfl (fun hdead => (hwf.lost _ hdead).transaction)
      ⟨hinvalid, fun _ => hnothing, mine_of_writes hnothing, fun ht => ?_⟩
    have hkept := htidy ht
    simp only [strands, hpc] at hkept
    contradiction
  · cases hs
    exact .of_lost hbecomes rfl (.inr (.inr rfl))

theorem unlocked_moves (hwf : server.WellFormed) (hpc : l.pc = .unlocked)
    (hk : l.Knows tidy p (server.session l.connection.session)) (hs : l.step p server (.run answer) = some (server', c', pc')) :
    l.Moves tidy p server server' c' pc' := by
  simp only [Knows, hpc] at hk
  obtain ⟨hinvalid, hvalid, hactive, hnothing, hfree⟩ := hk
  simp only [step, hpc] at hs
  generalize he : l.connection.commit _ server = r at hs
  obtain ⟨server₁, c₁, o⟩ := r
  cases hs
  rcases Connection.commit_cases hwf hactive he with
    ⟨rfl, halive, hserver, rfl⟩ | ⟨rfl, -, rfl | rfl, rfl⟩ | ⟨rfl, rfl, hbecomes | ⟨halive, hserver⟩⟩
  · exact .of_commit halive hserver rfl (.inl hnothing) ⟨hinvalid, fun _ => rfl, mine_none _, hfree⟩
  · exact .of_transaction hwf (update_becomes server _ _) rfl (fun _ => rfl)
      ⟨hinvalid, fun _ => rfl, mine_none _, hfree⟩
  · exact .of_transaction hwf (becomes_self _ _) rfl (fun hdead => (hwf.lost _ hdead).transaction)
      ⟨hinvalid, fun _ => hnothing, mine_of_writes hnothing, hfree⟩
  · exact .of_lost hbecomes rfl (.inr (.inr rfl))
  · exact .of_commit_lost halive hserver rfl (.inl hnothing) (.inr (.inr rfl))

end Steps

section Body
variable {stage : Stage} {answer : Answer}

/-- A statement of a block, and what it writes. -/
theorem execute_moves (hwf : server.WellFormed) {writes : Bool} (hpc : l.pc = .body stage)
    (hk : l.Knows tidy p (server.session l.connection.session))
    (hs : l.step p server (.execute writes answer) = some (server', c', pc')) : l.Moves tidy p server server' c' pc' := by
  simp only [Knows, hpc] at hk
  obtain ⟨hinvalid, hvalid, hinactive, hmine, howns⟩ := hk
  simp only [step, hpc] at hs
  split at hs
  · generalize hrows : (if writes = true then [(⟨p, l.visit, l.runId⟩ : RunWrite)] else []) = rows at hs
    have hrow : ∀ write ∈ rows, write = ⟨p, l.visit, l.runId⟩ := by
      subst hrows
      intro write hwrite
      split at hwrite
      · exact List.mem_singleton.mp hwrite
      · contradiction
    generalize he : l.connection.execute _ _ server = r at hs
    obtain ⟨server₁, c₁, o⟩ := r
    rcases Connection.execute_cases hwf hvalid hinactive (update_becomes server _ _) he with
      ⟨rfl, halive, hbecomes, rfl⟩ | ⟨rfl, halive, rfl, ⟨done, rfl, hbecomes⟩ | ⟨rfl, rfl⟩⟩ | ⟨rfl, hbecomes, rfl⟩
    · cases hs
      refine .of_transaction hwf hbecomes rfl (fun hdead => ?_) ⟨hinvalid, hvalid, active_ne_inactive, ?_, howns⟩
      · exact absurd (halive.symm.trans hdead) (by decide)
      · intro write hwrite
        rcases writes_write rows _ write hwrite with hearlier | hnew
        · exact hmine write hearlier
        · exact hrow write hnew
    · cases hs
      have hknows : ({ l with connection := { l.connection with transaction := .active }, pc := .rollback stage false } :
          Locked).Knows tidy p { server.session l.connection.session with transaction := .aborted } :=
        ⟨hinvalid, fun he => absurd he Bool.false_ne_true, mine_of_writes rfl, howns⟩
      have hdead (hdead : (server.session l.connection.session).alive = false) : Tx.aborted = (Tx.none : Tx RunWrite) :=
        absurd (halive.symm.trans hdead) (by decide)
      -- What a block's statement does, it does inside the transaction.
      cases done with
      | false => exact .of_transaction hwf hbecomes rfl hdead hknows
      | true => exact .of_transaction hwf hbecomes rfl hdead hknows
    · cases hs
      exact .of_transaction hwf (becomes_self _ _) rfl (fun hdead => (hwf.lost _ hdead).transaction)
        ⟨hinvalid, fun he => absurd he Bool.false_ne_true, hmine, howns⟩
    · cases hs
      exact .of_lost hbecomes rfl (.inl ⟨stage, rfl⟩)
  · contradiction

/-- The body goes on, or it ends. -/
theorem knows_follow {next : Option Stage} {c : Connection} (hinvalid : c.invalidated = true → x.alive = false)
    (hvalid : c.invalidated = false) (hinactive : c.transaction ≠ .inactive) (hmine : l.Mine p x) (howns : l.Owns tidy x) :
    ({ l with connection := c, pc := follow next } : Locked).Knows tidy p x := by
  cases next with
  | some stage => exact ⟨hinvalid, hvalid, hinactive, hmine, howns⟩
  | none => exact ⟨hinvalid, hinactive, hmine, howns⟩

/-- The end of a block. -/
theorem commit_moves (hwf : server.WellFormed) {next : Option Stage} (hpc : l.pc = .body stage)
    (hk : l.Knows tidy p (server.session l.connection.session))
    (hs : l.step p server (.commit answer next) = some (server', c', pc')) : l.Moves tidy p server server' c' pc' := by
  simp only [Knows, hpc] at hk
  obtain ⟨hinvalid, hvalid, hinactive, hmine, howns⟩ := hk
  simp only [step, hpc] at hs
  split at hs
  · generalize he : l.connection.commit _ server = r at hs
    obtain ⟨server₁, c₁, o⟩ := r
    by_cases hnone : l.connection.transaction = .none
    · -- Nothing was sent.
      simp only [Connection.commit, hnone] at he
      cases he
      cases hs
      exact .of_transaction hwf (becomes_self server _) rfl (fun hdead => (hwf.lost _ hdead).transaction)
        (knows_follow hinvalid hvalid hinactive hmine howns)
    have hactive : l.connection.transaction = .active := by
      cases ht : l.connection.transaction with
      | none => exact absurd ht hnone
      | inactive => exact absurd ht hinactive
      | active => rfl
    have hown : (server.session l.connection.session).transaction.writes = [] ∨ (∃ stage, l.pc = .body stage) ∧
        l.Owns tidy (server.session l.connection.session) ∧ l.Mine p (server.session l.connection.session) :=
      .inr ⟨⟨stage, hpc⟩, howns, hmine⟩
    rcases Connection.commit_cases hwf hactive he with
      ⟨rfl, halive, hserver, rfl⟩ | ⟨rfl, -, hserver, rfl⟩ | ⟨rfl, rfl, hbecomes | ⟨halive, hserver⟩⟩
    · cases hs
      exact .of_commit halive hserver rfl hown
        (knows_follow hinvalid hvalid none_ne_inactive (mine_none _) howns)
    · cases hs
      rcases hserver with rfl | rfl
      · exact .of_transaction hwf (update_becomes server _ _) rfl (fun _ => rfl)
          ⟨hinvalid, fun he => absurd he Bool.false_ne_true, mine_none _, howns⟩
      · exact .of_transaction hwf (becomes_self _ _) rfl (fun hdead => (hwf.lost _ hdead).transaction)
          ⟨hinvalid, fun he => absurd he Bool.false_ne_true, hmine, howns⟩
    · cases hs
      exact .of_lost hbecomes rfl (.inl ⟨stage, rfl⟩)
    · cases hs
      exact .of_commit_lost halive hserver rfl hown (.inl ⟨stage, rfl⟩)
  · contradiction

theorem proceed_moves (hwf : server.WellFormed) {next : Option Stage} (hpc : l.pc = .body stage)
    (hk : l.Knows tidy p (server.session l.connection.session))
    (hs : l.step p server (.proceed next) = some (server', c', pc')) : l.Moves tidy p server server' c' pc' := by
  simp only [Knows, hpc] at hk
  obtain ⟨hinvalid, hvalid, hinactive, hmine, howns⟩ := hk
  simp only [step, hpc] at hs
  split at hs
  · cases hs
    exact .of_transaction hwf (becomes_self _ _) rfl (fun hdead => (hwf.lost _ hdead).transaction)
      (knows_follow hinvalid hvalid hinactive hmine howns)
  · contradiction

/-- An exception that is no failure of a statement. -/
theorem raise_moves (hwf : server.WellFormed) {failure : Bool} (hpc : l.pc = .body stage)
    (hk : l.Knows tidy p (server.session l.connection.session))
    (hs : l.step p server (.raise failure) = some (server', c', pc')) : l.Moves tidy p server server' c' pc' := by
  simp only [Knows, hpc] at hk
  obtain ⟨hinvalid, hvalid, hinactive, hmine, howns⟩ := hk
  simp only [step, hpc] at hs
  cases hs
  refine .of_transaction hwf (becomes_self server _) rfl (fun hdead => (hwf.lost _ hdead).transaction) ?_
  split
  · exact ⟨hinvalid, fun _ => ⟨hvalid, hinactive⟩, hmine, howns⟩
  · exact knows_raised hinvalid (fun _ => hvalid) hinactive hmine howns

end Body

/-- Wherever a visit stands, its next step is a move. -/
theorem step_moves (hwf : server.WellFormed) {a : LockAction}
    (htidy : tidy → ∀ answer, a = .run answer → l.strands answer = false)
    (hk : l.Knows tidy p (server.session l.connection.session)) (hs : l.step p server a = some (server', c', pc')) :
    l.Moves tidy p server server' c' pc' := by
  cases a with
  | enter runId session => contradiction
  | run answer =>
    cases hpc : l.pc with
    | acquire => exact acquire_moves hwf hpc (fun ht => htidy ht answer rfl) hk hs
    | acquired ok => exact acquired_moves hwf hpc (fun ht => htidy ht answer rfl) hk hs
    | rollback stage failure => exact rollback_moves hwf hpc hk hs
    | cleanup => exact cleanup_moves hwf hpc (fun ht => htidy ht answer rfl) hk hs
    | driverRolledBack => exact driverRolledBack_moves hwf hpc (fun ht => htidy ht answer rfl) hk hs
    | unlock => exact unlock_moves hwf hpc (fun ht => htidy ht answer rfl) hk hs
    | unlocked => exact unlocked_moves hwf hpc hk hs
    | body stage | close =>
      simp only [step, hpc] at hs
      contradiction
  | execute writes answer =>
    cases hpc : l.pc with
    | body stage => exact execute_moves hwf hpc hk hs
    | acquire | acquired _ | rollback _ _ | cleanup | driverRolledBack | unlock | unlocked | close =>
      simp only [step, hpc] at hs
      contradiction
  | commit answer next =>
    cases hpc : l.pc with
    | body stage => exact commit_moves hwf hpc hk hs
    | acquire | acquired _ | rollback _ _ | cleanup | driverRolledBack | unlock | unlocked | close =>
      simp only [step, hpc] at hs
      contradiction
  | proceed next =>
    cases hpc : l.pc with
    | body stage => exact proceed_moves hwf hpc hk hs
    | acquire | acquired _ | rollback _ _ | cleanup | driverRolledBack | unlock | unlocked | close =>
      simp only [step, hpc] at hs
      contradiction
  | raise failure =>
    cases hpc : l.pc with
    | body stage => exact raise_moves hwf hpc hk hs
    | acquire | acquired _ | rollback _ _ | cleanup | driverRolledBack | unlock | unlocked | close =>
      simp only [step, hpc] at hs
      contradiction

end Locked
end Mic3

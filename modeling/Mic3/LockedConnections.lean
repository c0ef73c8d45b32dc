import Mathlib.Data.Finset.Basic
import Mic3.Lib.Server
import Mic3.Lib.System
import Mic3.Reconciliation

/-! `locked`: a run's session lock around the transactions of `reconcile`, in the three layers that have to agree on
what is open: the session's blocks, SQLAlchemy's connection, and the driver with the server behind it. -/
namespace Mic3
open Relational Interleaving

/-- SQLAlchemy's transaction of a connection; a commit that fails leaves it inactive. -/
inductive Transaction where
  | none
  | active
  | inactive
  deriving DecidableEq

/-- A connection, and the server session it talks to. -/
structure Connection where
  session : ℕ
  invalidated : Bool
  transaction : Transaction

/-- What comes of a statement: it fails at the server, after what it did outside the transaction or before, it is done
but the connection is lost, or it fails before it is sent. -/
inductive Answer where
  | ok
  | error (done : Bool)
  | lost
  | unsent
  deriving DecidableEq

/-- The statement fails, and the connection stays. -/
def Answer.fails : Answer → Bool
  | .error _ | .unsent => true
  | .ok | .lost => false

inductive Outcome where
  | done
  | failed
  | disconnected
  deriving DecidableEq

/-- A write of a worker, with the visit of `locked` that it is part of. -/
structure RunWrite where
  worker : ℕ
  visit : ℕ
  runId : UUID
  deriving DecidableEq

abbrev LockServer := Server ℤ RunWrite

namespace Connection

/-- `execute`, whose effect on the server is given. -/
def execute (effect : LockServer → ℕ → LockServer) (answer : Answer) (server : LockServer) (c : Connection) :
    LockServer × Connection × Outcome :=
  -- A transaction that is invalid has to be rolled back before anything else.
  if c.transaction = .inactive ∨ c.invalidated ∧ c.transaction ≠ .none then (server, c, .failed)
  else
    -- Without one, a connection that was invalidated is connected again.
    let (server, c) : LockServer × Connection :=
      if c.invalidated then (server.connect, ⟨server.created, false, .active⟩) else (server, { c with transaction := .active })
    if (server.session c.session).alive then
      match answer with
      | .ok => (effect server c.session, c, .done)
      | .lost => ((effect server c.session).drop c.session, { c with invalidated := true }, .disconnected)
      | .error done => ((if done then effect server c.session else server).abort c.session, c, .failed)
      | .unsent => (server, c, .failed)
    else (server, { c with invalidated := true }, .disconnected)

def commit (answer : Answer) (server : LockServer) (c : Connection) : LockServer × Connection × Outcome :=
  match c.transaction with
  | .none => (server, c, .done)
  | .inactive => (server, c, .failed)
  | .active =>
    let deactivated := { c with transaction := .inactive }
    if (server.session c.session).alive then
      match answer with
      | .ok => (server.commit c.session, { c with transaction := .none }, .done)
      | .error _ => (server.rollback c.session, deactivated, .failed)
      | .lost => ((server.commit c.session).drop c.session, { deactivated with invalidated := true }, .disconnected)
      -- The driver's transaction stays open.
      | .unsent => (server, deactivated, .failed)
    else (server, { deactivated with invalidated := true }, .disconnected)

/-- `rollback`, which asks the driver only while the transaction is active. -/
def rollback (answer : Answer) (server : LockServer) (c : Connection) : LockServer × Connection × Outcome :=
  let ended := { c with transaction := .none }
  if c.transaction = .active ∧ ¬ c.invalidated then
    if (server.session c.session).alive then
      match answer with
      | .ok => (server.rollback c.session, ended, .done)
      | .error _ => (server.abort c.session, ended, .failed)
      | .lost => (server.drop c.session, { ended with invalidated := true }, .disconnected)
      | .unsent => (server, ended, .failed)
    else (server, { ended with invalidated := true }, .disconnected)
  else (server, ended, .done)

/-- `connection.connection.rollback()`, of which SQLAlchemy knows nothing. -/
def driverRollback (answer : Answer) (server : LockServer) (c : Connection) : LockServer × Outcome :=
  if (server.session c.session).alive then
    match answer with
    | .ok => (server.rollback c.session, .done)
    | .error _ => (server.abort c.session, .failed)
    | .lost => (server.drop c.session, .disconnected)
    | .unsent => (server, .failed)
  else (server, .disconnected)

end Connection

/-- The parts of `reconcile` that are inside the `with`: transactions of the record, and calls of the adapters. -/
inductive Stage where
  | load
  | observe
  | save
  | collect
  | finish
  /-- `finish` in the handler of `ExecutionFailure`. -/
  | handle
  deriving DecidableEq

/-- What may follow when a part has returned; `none` is the end of the body. -/
def Stage.next : Stage → List (Option Stage)
  | .load => [some .observe, none]
  | .observe => [some .save]
  | .save => [some .finish, some .collect, none]
  | .collect => [some .finish]
  | .finish | .handle => [none]

/-- A block of `session.begin()`. -/
def Stage.isBlock : Stage → Bool
  | .load | .save | .finish | .handle => true
  | .observe | .collect => false

def Stage.writes : Stage → Bool
  | .save | .finish | .handle => true
  | .load | .observe | .collect => false

/-- Inside the `try` that handles `ExecutionFailure`. -/
def Stage.guarded : Stage → Bool
  | .observe | .save | .collect | .finish => true
  | .load | .handle => false

namespace Locked

/-- Where `locked` is. -/
inductive Pc where
  | acquire
  | acquired (ok : Bool)
  | body (stage : Stage)
  /-- A block is left by an exception, which is an `ExecutionFailure` or not. -/
  | rollback (stage : Stage) (failure : Bool)
  | cleanup
  | driverRolledBack
  | unlock
  | unlocked
  | close

end Locked

/-- A visit of `locked` by a worker. -/
structure Locked where
  runId : UUID
  visit : ℕ
  connection : Connection
  pc : Locked.Pc

def Locked.key (l : Locked) : ℤ := runKey l.runId

/-- The record was handed to the body, which has not ended. -/
def Locked.holdsRecord (l : Locked) : Bool :=
  match l.pc with
  | .body _ | .rollback _ _ => true
  | _ => false

structure LockWorker where
  visits : ℕ
  current : Option Locked

/-- The server, and the sessions of the connections that wait in the pool. -/
structure LockWorld where
  server : LockServer
  pool : Finset ℕ

inductive LockAction where
  /-- `engine.connect()`: a connection of the pool, or a new one. -/
  | enter (runId : UUID) (session : Option ℕ)
  /-- The next statement that `locked` itself sends, or the rollback of a block, or of a connection that is closed. -/
  | run (answer : Answer)
  | execute (writes : Bool) (answer : Answer)
  | commit (answer : Answer) (next : Option Stage)
  | proceed (next : Option Stage)
  | raise (failure : Bool)

/-- Where an exception that leaves a part goes. -/
def Locked.raised (stage : Stage) (failure : Bool) : Pc := if failure ∧ stage.guarded then .body .handle else .cleanup

def Locked.follow : Option Stage → Pc
  | some stage => .body stage
  | none => .cleanup

/-- One step of a visit: the server and the connection after it, and where the visit is then. -/
def Locked.step (p : ℕ) (server : LockServer) (l : Locked) : LockAction → Option (LockServer × Connection × Locked.Pc)
  | .enter _ _ => none
  | .run answer =>
    match l.pc with
    | .acquire =>
      let ok := server.free l.connection.session l.key
      match l.connection.execute (fun v s => (v.tryLock l.key s).write [] s) answer server with
      | (server, c, .done) => some (server, c, .acquired ok)
      | (server, c, _) => some (server, c, .close)
    | .acquired ok =>
      match l.connection.commit answer server with
      -- Without the lock `locked` yields `None` and returns.
      | (server, c, .done) => some (server, c, if ok then .body .load else .close)
      | (server, c, _) => some (server, c, .close)
    | .rollback stage failure =>
      match l.connection.rollback answer server with
      | (server, c, .done) => some (server, c, raised stage failure)
      | (server, c, _) => some (server, c, raised stage false)
    | .cleanup =>
      if l.connection.invalidated then some (server, l.connection, .close)
      else
        match l.connection.driverRollback answer server with
        | (server, .done) => some (server, l.connection, .driverRolledBack)
        | (server, _) => some (server, l.connection, .close)
    | .driverRolledBack =>
      match l.connection.rollback answer server with
      | (server, c, .done) => some (server, c, .unlock)
      | (server, c, _) => some (server, c, .close)
    | .unlock =>
      match l.connection.execute (fun v s => (v.unlock l.key s).write [] s) answer server with
      | (server, c, .done) => some (server, c, .unlocked)
      | (server, c, _) => some (server, c, .close)
    | .unlocked =>
      let (server, c, _) := l.connection.commit answer server
      some (server, c, .close)
    | .body _ | .close => none
  | .execute writes answer =>
    match l.pc with
    | .body stage =>
      if stage.isBlock ∧ (writes → stage.writes) then
        let rows : List RunWrite := if writes then [⟨p, l.visit, l.runId⟩] else []
        match l.connection.execute (Server.write rows) answer server with
        | (server, c, .done) => some (server, c, .body stage)
        | (server, c, _) => some (server, c, .rollback stage false)
      else none
    | _ => none
  | .commit answer next =>
    match l.pc with
    | .body stage =>
      if stage.isBlock ∧ next ∈ stage.next then
        match l.connection.commit answer server with
        | (server, c, .done) => some (server, c, follow next)
        | (server, c, _) => some (server, c, .rollback stage false)
      else none
    | _ => none
  | .proceed next =>
    match l.pc with
    | .body stage =>
      if ¬ stage.isBlock ∧ next ∈ stage.next then some (server, l.connection, follow next) else none
    | _ => none
  | .raise failure =>
    match l.pc with
    | .body stage =>
      some (server, l.connection, if stage.isBlock then .rollback stage failure else raised stage failure)
    | _ => none

/-- Any number of workers calling `locked`, over a server that may lose any session at any time. -/
def lockedRuns : System ℕ LockWorld LockWorker LockAction ℕ where
  act := fun p a w l =>
    match l.current with
    | none =>
      match a with
      | .enter runId none =>
        some ({ w with server := w.server.connect },
          ⟨l.visits + 1, some ⟨runId, l.visits, ⟨w.server.created, false, .none⟩, .acquire⟩⟩)
      | .enter runId (some s) =>
        -- The pool pings a connection before it hands it out.
        if s ∈ w.pool ∧ (w.server.session s).alive then
          some ({ w with pool := w.pool.erase s }, ⟨l.visits + 1, some ⟨runId, l.visits, ⟨s, false, .none⟩, .acquire⟩⟩)
        else none
      | _ => none
    | some v =>
      match v.pc, a with
      | .close, .run answer =>
        let s := v.connection.session
        if v.connection.invalidated ∨ ¬ (w.server.session s).alive then some (w, ⟨l.visits, none⟩)
        -- A transaction that is inactive passes for one that was reset: nothing is sent.
        else if v.connection.transaction = .inactive then some ({ w with pool := insert s w.pool }, ⟨l.visits, none⟩)
        else match answer with
          | .ok => some (⟨w.server.rollback s, insert s w.pool⟩, ⟨l.visits, none⟩)
          -- A connection whose reset fails is closed.
          | _ => some ({ w with server := w.server.drop s }, ⟨l.visits, none⟩)
      | _, _ =>
        (v.step p w.server a).map fun r => ({ w with server := r.1 }, ⟨l.visits, some { v with connection := r.2.1, pc := r.2.2 }⟩)
  env := fun s w => if s < w.server.created then some { w with server := w.server.drop s } else none

/-- No connections yet. -/
def LockWorld.start : LockWorld := ⟨Server.start, ∅⟩

end Mic3

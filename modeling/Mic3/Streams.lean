import Mic3.Accounts
import Mic3.FeedBounds

/-! `/runs/events`: a request subscribes, reads a snapshot and then streams what the feed delivers to it,
checking the access of its user before each batch, while everything else goes on. -/
namespace Mic3
open Relational Interleaving

/-- A state of a run, with the version of the database that it was read from. -/
structure Stamped (R : Type) where
  state : R
  version : ℕ

instance {R : Type} [FeedItem R] : FeedItem (Stamped R) :=
  ⟨fun run => FeedItem.id run.state, fun run => FeedItem.requestedBy run.state⟩

/-- What the database has held after each of its commits. -/
structure Versions (W : Type) where
  count : ℕ
  db : ℕ → W

def Versions.current {W : Type} (v : Versions W) : W := v.db v.count

def Versions.commit {W : Type} (v : Versions W) (db : W) : Versions W :=
  ⟨v.count + 1, Function.update v.db (v.count + 1) db⟩

/-- The same reads, noting the version. -/
def FeedStore.stamped {W R : Type} (store : FeedStore W R) : FeedStore (Versions W) (Stamped R) where
  find := fun v runId => (store.find v.current runId).map (⟨·, v.count⟩)
  snapshot := fun v userId => (store.snapshot v.current userId).map (⟨·, v.count⟩)

def heartbeatSeconds : ℚ := 15
def retryMinMs : ℕ := 2000
def retryMaxMs : ℕ := 8000

/-- What the generator yields. -/
inductive Frame (R : Type) where
  | retry (milliseconds : ℕ)
  | snapshot (items : List R)
  | updated (run : R)
  | heartbeat
  | error (code : String)

/-- What happens in a stream, as far as it matters to what may be sent. -/
inductive StreamEvent (R : Type) where
  /-- These states of runs were read for the snapshot, or drained. -/
  | read (runs : List R)
  | checkStarted
  | checked (error : Option String)
  /-- A reading of `time.time()`. -/
  | clock (now : ℚ)
  | sent (frame : Frame R)

namespace RunStream

/-- What the access is checked for: the snapshot, or a batch of updates. -/
inductive Batch (R : Type) where
  | snapshot
  | updates (heartbeatAt : ℚ) (heartbeatDue : Bool) (updates : List R)

/-- Where `stream` is. -/
inductive Pc (R : Type) where
  | retry
  | accessError (batch : Batch R)
  | isActive (batch : Batch R)
  | answered (batch : Batch R) (active : Bool)
  | snapshot
  | schedule
  | drain (heartbeatAt : ℚ)
  | due (heartbeatAt : ℚ) (error : Option String) (updates : List R)
  | expiry (heartbeatAt : ℚ) (heartbeatDue : Bool) (updates : List R)
  | updates (heartbeatAt : ℚ) (heartbeatDue : Bool) (updates : List R)
  | heartbeat
  | wait (heartbeatAt : ℚ)
  | waiting (heartbeatAt : ℚ) (deadline : ℚ)
  | error (code : String)
  | done

/-- Where it goes on with what `access_error` returned. -/
def Pc.checked {R : Type} (batch : Batch R) : Option String → Pc R
  | some code => .error code
  | none =>
    match batch with
    | .snapshot => .snapshot
    | .updates heartbeatAt heartbeatDue runs => .expiry heartbeatAt heartbeatDue runs

end RunStream

/-- The request of a stream: whose it is, when its token expires, its subscription and its snapshot. -/
structure RunStream (R : Type) where
  userId : UUID
  expiresAt : ℚ
  sub : ℕ
  snapshot : List R

/-- The clocks of the process, and what its loop takes for a timer that is due. -/
structure Clocks where
  time : ℚ
  monotonic : ℚ
  resolution : ℚ

/-- Two readings of `time.time()` around `is_active`; this is the second. -/
def RunStream.answer {R : Type} (stream : RunStream R) (now : ℚ) (active : Bool) : Option String :=
  if stream.expiresAt ≤ now then some "token_expired" else if active then none else some "access_denied"

section Streams
variable {W R : Type} [FeedItem R] (store : FeedStore W R) (isActive : W → UUID → Bool)

/-- One step of `stream`: the world after it, what happened, the latest first, and where it is then. `fails` is
for the read of the account, `milliseconds` for `random.randint`. -/
def RunStream.step (stream : RunStream (Stamped R)) (fails : Bool) (milliseconds : ℕ) (clocks : Clocks)
    (w : FeedWorld (Versions W) (Stamped R)) : Pc (Stamped R) →
    Option (FeedWorld (Versions W) (Stamped R) × List (StreamEvent (Stamped R)) × Pc (Stamped R))
  | .retry =>
    if retryMinMs ≤ milliseconds ∧ milliseconds ≤ retryMaxMs then
      some (w, [.sent (.retry milliseconds)], .accessError .snapshot)
    else none
  | .accessError batch =>
    if stream.expiresAt ≤ clocks.time then
      some (w, [.checked (some "token_expired"), .clock clocks.time, .checkStarted], .error "token_expired")
    else some (w, [.clock clocks.time, .checkStarted], .isActive batch)
  | .isActive batch =>
    if fails then some (w, [.checked (some "unavailable")], .error "unavailable")
    else some (w, [], .answered batch (isActive w.db.current stream.userId))
  | .answered batch active =>
    let error := stream.answer clocks.time active
    some (w, [.checked error, .clock clocks.time], .checked batch error)
  | .snapshot => some (w, [.sent (.snapshot stream.snapshot)], .schedule)
  | .schedule => some (w, [], .drain (clocks.monotonic + heartbeatSeconds))
  | .drain heartbeatAt =>
    let (feed, error, updates) := w.feed.drain stream.sub
    some ({ w with feed }, [.read updates], .due heartbeatAt (error.map FeedError.text) updates)
  | .due heartbeatAt error updates =>
    let heartbeatDue : Bool := heartbeatAt ≤ clocks.monotonic
    match error with
    | some code => some (w, [], .error code)
    | none =>
      -- One access check per batch, not per update.
      if ¬ updates.isEmpty ∨ heartbeatDue then some (w, [], .accessError (.updates heartbeatAt heartbeatDue updates))
      else some (w, [], .expiry heartbeatAt heartbeatDue updates)
  | .expiry heartbeatAt heartbeatDue updates =>
    if stream.expiresAt ≤ clocks.time then some (w, [.clock clocks.time], .error "token_expired")
    else some (w, [.clock clocks.time], .updates heartbeatAt heartbeatDue updates)
  | .updates heartbeatAt heartbeatDue (run :: updates) =>
    some (w, [.sent (.updated run)], .updates heartbeatAt heartbeatDue updates)
  | .updates heartbeatAt heartbeatDue [] =>
    if heartbeatDue then some (w, [.sent .heartbeat], .heartbeat) else some (w, [], .wait heartbeatAt)
  | .heartbeat => some (w, [], .wait (clocks.monotonic + heartbeatSeconds))
  | .wait heartbeatAt =>
    let timeout := min (stream.expiresAt - clocks.time) (heartbeatAt - clocks.monotonic)
    some (w, [.clock clocks.time], .waiting heartbeatAt (clocks.monotonic + max 0 timeout))
  | .waiting heartbeatAt deadline =>
    if (w.feed.object stream.sub).changed ∨ deadline < clocks.monotonic + clocks.resolution then
      some (w, [], .drain heartbeatAt)
    else none
  | .error code => some (w, [.sent (.error code)], .done)
  | .done => none

/-- Where a request is. -/
inductive RunEvents (R : Type) where
  | subscribe (userId : UUID) (expiresAt : ℚ)
  /-- `feed.snapshot` runs in the executor. -/
  | snapshot (userId : UUID) (expiresAt : ℚ) (sub : ℕ) (call : FeedThread R)
  | failed (sub : ℕ)
  | stream (stream : RunStream R) (pc : RunStream.Pc R)
  | refused (status : ℕ) (detail : String)
  /-- The response is over; what the executor has started goes on. -/
  | closed (stream : Option (RunStream R)) (call : FeedThread R)

inductive StreamThread (R : Type) where
  | feed (thread : FeedThread R)
  | request (request : RunEvents R)

/-- The feed and its database, the clocks, and what has happened in every stream, the latest first. -/
structure StreamWorld (W R : Type) where
  feed : FeedWorld (Versions W) (Stamped R)
  clocks : Clocks
  trace : ℕ → List (StreamEvent (Stamped R))

inductive StreamAction where
  | feed (action : FeedAction)
  /-- A request of a user whose token expires then; a time that is not finite is none. -/
  | arrive (userId : UUID) (expiresAt : Option ℚ)
  | run (fails : Bool) (milliseconds : ℕ)
  /-- The client is gone, the request is cancelled, or a frame cannot be rendered. -/
  | close

/-- One step of `run_events`: of the endpoint, of the executor or of the generator. -/
def runEvents (p : ℕ) (fails : Bool) (milliseconds : ℕ) (clocks : Clocks)
    (w : FeedWorld (Versions W) (Stamped R)) : RunEvents (Stamped R) →
    Option (FeedWorld (Versions W) (Stamped R) × List (StreamEvent (Stamped R)) × RunEvents (Stamped R))
  | .subscribe userId expiresAt =>
    match w.feed.subscribe userId with
    | .ok (feed, sub) => some ({ w with feed }, [], .snapshot userId expiresAt sub (.snapshotting sub))
    | .error .feedLimitExceeded => some (w, [], .refused 429 "The stream connection limit has been reached.")
    | .error _ => some (w, [], .refused 503 "Run notifications are unavailable.")
  | .snapshot userId expiresAt sub call =>
    match call with
    | .snapshot _ (.ok snapshot) =>
      some (w, [.read snapshot], .stream ⟨userId, expiresAt, sub, snapshot⟩ .retry)
    | .snapshot _ (.error _) => some (w, [], .failed sub)
    | call => (feedRun store.stamped p fails w call).map fun r => (r.1, [], .snapshot userId expiresAt sub r.2)
  | .failed sub =>
    some ({ w with feed := w.feed.unsubscribe sub }, [], .refused 503 "Run notifications are unavailable.")
  | .stream stream pc =>
    (RunStream.step isActive stream fails milliseconds clocks w pc).map fun r => (r.1, r.2.1, .stream stream r.2.2)
  | .closed stream call => (feedRun store.stamped p fails w call).map fun r => (r.1, [], .closed stream r.2)
  | .refused _ _ => none

/-- What is left to do for a response that ends early. -/
def closeResponse (w : FeedWorld (Versions W) (Stamped R)) : RunEvents (Stamped R) →
    Option (FeedWorld (Versions W) (Stamped R) × RunEvents (Stamped R))
  | .snapshot _ _ sub call => some ({ w with feed := w.feed.unsubscribe sub }, .closed none call)
  | .stream stream _ => some ({ w with feed := w.feed.unsubscribe stream.sub }, .closed (some stream) .idle)
  | _ => none

/-- The threads of the feed and the requests for streams, over a database that commits anything and clocks that do
not go back. -/
def streams : System ℕ (StreamWorld W R) (StreamThread (Stamped R)) StreamAction (W ⊕ ℚ × ℚ) where
  act := fun p a w l => match a, l with
    | .feed action, .feed thread =>
      ((feedCalls store.stamped).act p action w.feed thread).map fun r => ({ w with feed := r.1 }, .feed r.2)
    | .arrive userId expiresAt, .feed .idle =>
      match expiresAt with
      | none => some (w, .request (.refused 401 "An unexpired bearer token is required."))
      | some expiresAt =>
        if expiresAt ≤ w.clocks.time then
          some (w, .request (.refused 401 "An unexpired bearer token is required."))
        else some (w, .request (.subscribe userId expiresAt))
    | .run fails milliseconds, .request request =>
      (runEvents store isActive p fails milliseconds w.clocks w.feed request).map fun r =>
        ({ w with feed := r.1, trace := Function.update w.trace p (r.2.1 ++ w.trace p) }, .request r.2.2)
    | .close, .request request =>
      (closeResponse w.feed request).map fun r => ({ w with feed := r.1 }, .request r.2)
    | _, _ => none
  env := fun e w => match e with
    | .inl db => some { w with feed := { w.feed with db := w.feed.db.commit db } }
    | .inr (time, monotonic) =>
      if w.clocks.time ≤ time ∧ w.clocks.monotonic ≤ monotonic then
        some { w with clocks := { w.clocks with time, monotonic } }
      else none

end Streams
end Mic3

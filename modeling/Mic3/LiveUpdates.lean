import Mic3.FeedBounds

/-! The listener of an API process, which turns the notifications of commits into calls of `publish`, and what the
clients of the feed have been handed meanwhile. -/
namespace Mic3
open Relational Interleaving

/-- What a client has been handed from its snapshot on. -/
structure View where
  snapshot : List RunDetail
  /-- How often each run had changed when the snapshot was read. -/
  since : UUID → ℕ
  /-- What has been drained, the latest first. -/
  updates : List RunDetail

namespace View

/-- The snapshot overlaid by drained and then pending updates. -/
def latest (view : View) (pending : Dict UUID RunDetail) (id : UUID) : Option RunDetail :=
  (pending.get? id).or ((view.updates.find? (·.id = id)).or (view.snapshot.find? (·.id = id)))

def drained (view : View) (updates : List RunDetail) : View :=
  { view with updates := updates.reverse ++ view.updates }

/-- A run of the snapshot, or one that has changed after it. -/
def Shows (view : View) (changes : UUID → ℕ) (id : UUID) : Prop :=
  (∃ run ∈ view.snapshot, run.id = id) ∨ view.since id < changes id

end View

/-- Where `RunNotifications._run` is. -/
inductive Listener where
  | start
  | connect
  /-- `LISTEN` is done, and `available()` is next. -/
  | listening
  | batch
  | collect (changes : Dict UUID (Option UUID))
  /-- `publish` of a batch, as a thread of the feed. -/
  | publish (thread : FeedThread RunDetail)
  /-- An exception was caught, and `unavailable()` is next. -/
  | failed
  /-- `stop_event` has ended the loop, and `unavailable()` is next. -/
  | ending
  | stopped

/-- The feed, the listener and its connection. Without a `queue` the connection does not listen, or has died. -/
structure LiveWorld extends FeedWorld RunTables RunDetail where
  queue : Option (List String)
  stopping : Bool
  listener : Listener
  /-- How many commits have changed the state of each run, and how many had when a snapshot was last read. -/
  changes : UUID → ℕ
  reading : UUID → ℕ
  /-- What the client of each subscription has been handed. -/
  views : ℕ → Option View

inductive ListenerAction where
  /-- The next statement, or the next section of `publish`, in which the read of the store may fail. -/
  | run (fails : Bool)
  /-- The connection hands over the next notification. -/
  | notified
  /-- The connection raises. -/
  | raised

inductive LiveEvent where
  | listener (action : ListenerAction)
  /-- A transaction of any program commits these writes. -/
  | commit (writes : List RowWrite)
  /-- The connection dies, and what it has queued is lost. -/
  | die
  | stop

/-- `changes[run_id] = owner or changes.get(run_id)`, unless the payload is malformed. -/
def collected (changes : Dict UUID (Option UUID)) (payload : String) : Dict UUID (Option UUID) :=
  match parsePayload payload with
  | some (runId, owner) => changes.set runId (owner.or (changes.get? runId).join)
  | none => changes

/-- The listener after a section of `publish`. -/
def Listener.published : FeedThread RunDetail → Listener
  | .idle => .batch
  | thread => .publish thread

/-- `_run`. The feed has the listener as its thread 0. -/
def LiveWorld.listen (w : LiveWorld) : ListenerAction → Listener → Option LiveWorld
  | .run _, .start => some { w with listener := if w.stopping then .ending else .connect }
  | .run _, .connect => some { w with queue := some [], listener := .listening }
  | .run _, .listening => some { w with toFeedWorld := (feedCall w.toFeedWorld .available).1, listener := .batch }
  | .run _, .batch =>
    -- The end of both loops closes the connection.
    if w.stopping then some { w with queue := none, listener := .ending }
    else some { w with listener := .collect .empty }
  | .run _, .collect changes =>
    if changes.size = 0 then some { w with listener := .batch }
    else some { w with listener := .publish (feedCall w.toFeedWorld (.publish changes.entries)).2 }
  | .run fails, .publish thread =>
    (feedRun sqlRunFeed 0 fails w.toFeedWorld thread).map fun r =>
      { w with toFeedWorld := r.1, listener := .published r.2 }
  | .run _, .failed => some { w with toFeedWorld := (feedCall w.toFeedWorld .unavailable).1, listener := .start }
  | .run _, .ending => some { w with toFeedWorld := (feedCall w.toFeedWorld .unavailable).1, listener := .stopped }
  | .notified, .collect changes => match w.queue with
    | some (payload :: queue) => some { w with queue := some queue, listener := .collect (collected changes payload) }
    | _ => none
  | .raised, .connect | .raised, .batch | .raised, .collect _ => some { w with queue := none, listener := .failed }
  | _, _ => none

/-- What a client has been handed when a request has taken an action and stands here. -/
def LiveWorld.handed (w : LiveWorld) : FeedAction → FeedThread RunDetail → LiveWorld
  | .callback _, _ => w
  | _, .read _ _ => { w with reading := w.changes }
  | _, .snapshot s (.ok runs) => { w with views := Function.update w.views s (some ⟨runs, w.reading, []⟩) }
  | _, .drained s _ updates => { w with views := Function.update w.views s ((w.views s).map (·.drained updates)) }
  | _, _ => w

/-- The database after a commit, whose notifications a connection that listens is sent. -/
def LiveWorld.committed (w : LiveWorld) (db : RunTables) (payloads : List String) : LiveWorld :=
  { w with
    db
    queue := w.queue.map (· ++ payloads)
    changes := fun id => if db.find id = w.db.find id then w.changes id else w.changes id + 1 }

/-- What requests do; the other calls are the listener's. -/
def FeedAction.ofRequest : FeedAction → Bool
  | .call (.publish _) | .call .available | .call .unavailable => false
  | _ => true

/-- Requests, threads from 1 on of the feed, beside the listener, over a database in which anything may be committed. -/
def liveFeed : System ℕ LiveWorld (FeedThread RunDetail) FeedAction LiveEvent where
  act := fun p a w l =>
    if a.ofRequest then
      ((feedCalls sqlRunFeed).act (p + 1) a w.toFeedWorld l).map fun r =>
        (({ w with toFeedWorld := r.1 } : LiveWorld).handed a r.2, r.2)
    else none
  env := fun e w => match e with
    | .listener action => w.listen action w.listener
    | .commit writes => (applyWrites w.db writes).map fun r => w.committed r.1 (notifications r.2)
    | .die => some { w with queue := none }
    | .stop => some { w with stopping := true }

/-- A process that starts. -/
def LiveWorld.start (perUser total pendingLimit : ℕ) (db : RunTables) : LiveWorld where
  feed := RunFeed.init perUser total pendingLimit
  reads := none
  db := db
  queue := none
  stopping := false
  listener := .start
  changes := fun _ => 0
  reading := fun _ => 0
  views := fun _ => none

abbrev LiveConfig := Config ℕ LiveWorld (FeedThread RunDetail)

/-- The thread of the feed that the listener is. -/
def Listener.thread : Listener → FeedThread RunDetail
  | .publish thread => thread
  | _ => .idle

/-- The threads of the feed. -/
def feedThreads (listener : FeedThread RunDetail) (requests : ℕ → FeedThread RunDetail) : ℕ → FeedThread RunDetail
  | 0 => listener
  | p + 1 => requests p

def feedConfig (c : LiveConfig) : Config ℕ (FeedWorld RunTables RunDetail) (FeedThread RunDetail) :=
  ⟨c.shared.toFeedWorld, feedThreads c.shared.listener.thread c.procs⟩

section Calls
variable {w w' : LiveWorld} {c c' : LiveConfig} {l l' : FeedThread RunDetail} {requests : ℕ → FeedThread RunDetail} {p : ℕ}

theorem Listener.thread_published : (Listener.published l).thread = l := by
  cases l <;> rfl

theorem update_feedThreads_zero : Function.update (feedThreads l requests) 0 l' = feedThreads l' requests := by
  funext q
  cases q <;> rfl

theorem update_feedThreads_succ :
    Function.update (feedThreads l requests) (p + 1) l' = feedThreads l (Function.update requests p l') := by
  funext q
  cases q with
  | zero => rfl
  | succ q => simp [Function.update, feedThreads]

@[simp] theorem LiveWorld.handed_toFeedWorld {a : FeedAction} : (w.handed a l).toFeedWorld = w.toFeedWorld := by
  unfold handed
  split <;> rfl

@[simp] theorem LiveWorld.handed_listener {a : FeedAction} : (w.handed a l).listener = w.listener := by
  unfold handed
  split <;> rfl

/-- A step of a request is a step of the feed, after which what it hands over is noted. -/
theorem liveFeed_act {a : FeedAction} (ha : liveFeed.act p a w l = some (w', l')) :
    a.ofRequest = true ∧ ∃ calls, (feedCalls sqlRunFeed).act (p + 1) a w.toFeedWorld l = some (calls, l') ∧
      w' = ({ w with toFeedWorld := calls } : LiveWorld).handed a l' := by
  obtain ⟨hrequest, ha⟩ := Option.ite_none_right_eq_some.mp ha
  obtain ⟨⟨calls, l''⟩, hcalls, he⟩ := Option.map_eq_some_iff.mp ha
  obtain ⟨rfl, rfl⟩ := Prod.mk.inj he
  exact ⟨hrequest, calls, hcalls, rfl⟩

/-- What one step of the listener can be. -/
inductive LiveWorld.Listens (w : LiveWorld) : LiveWorld → Prop where
  | start (h : w.listener = .start) : Listens w { w with listener := if w.stopping then .ending else .connect }
  | connect (h : w.listener = .connect) : Listens w { w with queue := some [], listener := .listening }
  | available (h : w.listener = .listening) :
    Listens w { w with toFeedWorld := (feedCall w.toFeedWorld .available).1, listener := .batch }
  | unavailable (listener : Listener)
    (h : w.listener = .failed ∧ listener = .start ∨ w.listener = .ending ∧ listener = .stopped) :
    Listens w { w with toFeedWorld := (feedCall w.toFeedWorld .unavailable).1, listener }
  | lost (listener : Listener) (h : w.listener.thread = .idle) (hnext : listener = .failed ∨ listener = .ending) :
    Listens w { w with queue := none, listener }
  | batch (h : w.listener = .batch) : Listens w { w with listener := .collect .empty }
  | notified (changes : Dict UUID (Option UUID)) (payload : String) (queue : List String)
    (h : w.listener = .collect changes) (hqueue : w.queue = some (payload :: queue)) :
    Listens w { w with queue := some queue, listener := .collect (collected changes payload) }
  | nothing (changes : Dict UUID (Option UUID)) (h : w.listener = .collect changes) (hempty : changes.size = 0) :
    Listens w { w with listener := .batch }
  | publish (changes : Dict UUID (Option UUID)) (h : w.listener = .collect changes) :
    Listens w { w with listener := .publish (.publishing changes.entries) }
  | run (fails : Bool) (thread thread' : FeedThread RunDetail) (calls : FeedWorld RunTables RunDetail)
    (h : w.listener = .publish thread) (hrun : feedRun sqlRunFeed 0 fails w.toFeedWorld thread = some (calls, thread')) :
    Listens w { w with toFeedWorld := calls, listener := .published thread' }

theorem LiveWorld.listens {action : ListenerAction} (hs : w.listen action w.listener = some w') : w.Listens w' := by
  cases hl : w.listener with
  | start =>
    rw [hl] at hs
    cases action with
    | run fails =>
      obtain rfl := Option.some.inj hs
      exact .start hl
    | notified | raised => contradiction
  | connect =>
    rw [hl] at hs
    cases action with
    | run fails =>
      obtain rfl := Option.some.inj hs
      exact .connect hl
    | raised =>
      obtain rfl := Option.some.inj hs
      exact .lost _ (by rw [hl]; rfl) (.inl rfl)
    | notified => contradiction
  | listening =>
    rw [hl] at hs
    cases action with
    | run fails =>
      obtain rfl := Option.some.inj hs
      exact .available hl
    | notified | raised => contradiction
  | batch =>
    rw [hl] at hs
    cases action with
    | run fails =>
      simp only [listen] at hs
      split at hs <;> obtain rfl := Option.some.inj hs
      · exact .lost _ (by rw [hl]; rfl) (.inr rfl)
      · exact .batch hl
    | raised =>
      obtain rfl := Option.some.inj hs
      exact .lost _ (by rw [hl]; rfl) (.inl rfl)
    | notified => contradiction
  | collect changes =>
    rw [hl] at hs
    cases action with
    | run fails =>
      simp only [listen] at hs
      split at hs <;> obtain rfl := Option.some.inj hs
      · exact .nothing changes hl ‹_›
      · exact .publish changes hl
    | notified =>
      simp only [listen] at hs
      split at hs
      · obtain rfl := Option.some.inj hs
        exact .notified changes _ _ hl ‹_›
      · contradiction
    | raised =>
      obtain rfl := Option.some.inj hs
      exact .lost _ (by rw [hl]; rfl) (.inl rfl)
  | publish thread =>
    rw [hl] at hs
    cases action with
    | run fails =>
      obtain ⟨⟨calls, thread'⟩, hrun, rfl⟩ := Option.map_eq_some_iff.mp hs
      exact .run fails thread thread' calls hl hrun
    | notified | raised => contradiction
  | failed =>
    rw [hl] at hs
    cases action with
    | run fails =>
      obtain rfl := Option.some.inj hs
      exact .unavailable _ (.inl ⟨hl, rfl⟩)
    | notified | raised => contradiction
  | ending =>
    rw [hl] at hs
    cases action with
    | run fails =>
      obtain rfl := Option.some.inj hs
      exact .unavailable _ (.inr ⟨hl, rfl⟩)
    | notified | raised => contradiction
  | stopped =>
    rw [hl] at hs
    cases action <;> contradiction

/-- What the listener does is nothing to the feed, or one step of it as a thread of its own. -/
theorem LiveWorld.Listens.calls (h : w.Listens w') :
    w'.toFeedWorld = w.toFeedWorld ∧ w'.listener.thread = w.listener.thread ∨
    ∃ a, (feedCalls sqlRunFeed).act 0 a w.toFeedWorld w.listener.thread = some (w'.toFeedWorld, w'.listener.thread) := by
  cases h with
  | start hl =>
    refine .inl ⟨rfl, ?_⟩
    rw [hl]
    dsimp only
    split <;> rfl
  | connect hl | batch hl | notified changes payload queue hl hqueue | nothing changes hl hempty =>
    rw [hl]
    exact .inl ⟨rfl, rfl⟩
  | available hl =>
    rw [hl]
    exact .inr ⟨.call .available, rfl⟩
  | unavailable listener hl =>
    right
    rcases hl with ⟨hl, rfl⟩ | ⟨hl, rfl⟩ <;> rw [hl] <;> exact ⟨.call .unavailable, rfl⟩
  | lost listener hl hnext =>
    left
    rw [hl]
    rcases hnext with rfl | rfl <;> exact ⟨rfl, rfl⟩
  | publish changes hl =>
    rw [hl]
    exact .inr ⟨.call (.publish changes.entries), rfl⟩
  | run fails thread thread' calls hl hrun =>
    rw [hl]
    exact .inr ⟨.run fails, hrun.trans (by rw [Listener.thread_published])⟩

/-- Whatever listener and requests do together, the feed sees calls of its methods. -/
theorem liveFeed_step {label : Label ℕ FeedAction LiveEvent} (hs : liveFeed.step c label = some c') :
    feedConfig c' = feedConfig c ∨ ∃ label', (feedCalls sqlRunFeed).step (feedConfig c) label' = some (feedConfig c') := by
  cases label with
  | act p a =>
    obtain ⟨⟨w', l'⟩, ha, rfl⟩ := Option.map_eq_some_iff.mp hs
    obtain ⟨-, calls, hcalls, rfl⟩ := liveFeed_act ha
    refine .inr ⟨.act (p + 1) a, Option.map_eq_some_iff.mpr ⟨(calls, l'), hcalls, ?_⟩⟩
    simp only [feedConfig, update_feedThreads_succ, LiveWorld.handed_toFeedWorld, LiveWorld.handed_listener]
  | env event =>
    obtain ⟨w', he, rfl⟩ := Option.map_eq_some_iff.mp hs
    cases event with
    | listener action =>
      rcases (LiveWorld.listens he).calls with ⟨hcalls, hthread⟩ | ⟨a, ha⟩
      · exact .inl (by simp only [feedConfig, hcalls, hthread])
      · refine .inr ⟨.act 0 a, Option.map_eq_some_iff.mpr ⟨_, ha, ?_⟩⟩
        simp only [feedConfig, update_feedThreads_zero]
    | commit writes =>
      obtain ⟨⟨db, changes⟩, -, rfl⟩ := Option.map_eq_some_iff.mp he
      exact .inr ⟨.env db, rfl⟩
    | die | stop =>
      obtain rfl := Option.some.inj he
      exact .inl rfl

theorem feedConfig_reachable {c₀ : LiveConfig} (h : Reachable liveFeed (fun _ _ => True) c₀ c) :
    Reachable (feedCalls sqlRunFeed) (fun _ _ => True) (feedConfig c₀) (feedConfig c) := by
  induction h with
  | refl => exact .refl
  | step _ _ hs ih =>
    rcases liveFeed_step hs with hsame | ⟨label', hs'⟩
    · rwa [hsame]
    · exact .step ih trivial hs'

/-- So the feed keeps its bounds, and what a request has been given is its user's. -/
def liveBounds : Contract ℕ LiveWorld (FeedThread RunDetail) where
  inv := fun w => w.feed.Sound
  assert := fun _ l w => l.Given w.feed
  guarantee := fun _ w w' => w.feed.Grows w'.feed

theorem liveBounds_established (perUser total pendingLimit : ℕ) (db : RunTables) :
    liveBounds.Established liveFeed (fun _ _ => True) ⟨.start perUser total pendingLimit db, fun _ => .idle⟩ := by
  have hinit : feedConfig ⟨.start perUser total pendingLimit db, fun _ => .idle⟩ =
      ⟨⟨RunFeed.init perUser total pendingLimit, none, db⟩, fun _ => .idle⟩ := by
    have hidle : feedThreads .idle (fun _ => .idle) = fun _ => .idle := by
      funext p
      cases p <;> rfl
    exact congrArg _ hidle
  have hfeed := feedBounds_established sqlRunFeed_owned (RunFeed.init_sound perUser total pendingLimit) db
  refine ⟨fun c hr => ?_, fun c p a w' l' hr _ ha => ?_⟩
  · obtain ⟨⟨hsound, -⟩, hgiven⟩ := hfeed.holds (feedConfig c) (hinit ▸ feedConfig_reachable hr)
    exact ⟨hsound, fun p => hgiven (p + 1)⟩
  · obtain ⟨-, calls, hcalls, rfl⟩ := liveFeed_act ha
    have hgrows : c.shared.feed.Grows calls.feed :=
      hfeed.guaranteed (feedConfig c) (p + 1) a calls l' (hinit ▸ feedConfig_reachable hr) trivial hcalls
    change c.shared.feed.Grows (LiveWorld.handed _ a l').toFeedWorld.feed
    rwa [LiveWorld.handed_toFeedWorld]

end Calls
end Mic3

import Mic3.FeedSections
import Mic3.Lib.System
import Mic3.Notifications

/-! Any threads calling the feed in any order: the limits hold, a failed stream stays failed and empty, and
nobody is given another user's runs. -/
namespace Mic3
open Relational Interleaving

/-- The reads of the store, over what it holds. -/
structure FeedStore (W R : Type) where
  find : W → UUID → Option R
  snapshot : W → UUID → List R

inductive FeedCall where
  | subscribe (userId : UUID)
  | unsubscribe (s : ℕ)
  | snapshot (s : ℕ)
  | publish (changes : List RunChange)
  | drain (s : ℕ)
  /-- `changed.wait()`, which the feed has no part in. -/
  | wait (s : ℕ)
  | available
  | unavailable

/-- A thread: inside a call, or with what its last call returned. -/
inductive FeedThread (R : Type) where
  | idle
  | publishing (changes : List RunChange)
  | publish (pc : Publish.Pc R)
  | snapshotting (s : ℕ)
  | reading (s : ℕ)
  | read (s : ℕ) (result : List R)
  | subscribed (s : Except FeedRefusal ℕ)
  | snapshot (s : ℕ) (result : Except FeedRefusal (List R))
  | drained (s : ℕ) (error : Option FeedError) (updates : List R)
  | waiting (s : ℕ)

def FeedThread.returned {R : Type} : FeedThread R → Bool
  | .idle | .subscribed _ | .snapshot _ _ | .drained _ _ _ => true
  | _ => false

/-- The feed, the thread that holds `_reads`, and what the store holds. -/
structure FeedWorld (W R : Type) where
  feed : RunFeed R
  reads : Option ℕ
  db : W

inductive FeedAction where
  | call (call : FeedCall)
  /-- The next section of the call; a read of the store may fail, and a wait may time out. -/
  | run (fails : Bool)
  /-- The loop runs a scheduled `changed.set`. -/
  | callback (s : ℕ)

section Calls
variable {W R : Type} [FeedItem R] (store : FeedStore W R)

/-- A call of one section is over at once; one that needs `_reads` waits for it. -/
def feedCall (w : FeedWorld W R) : FeedCall → FeedWorld W R × FeedThread R
  | .subscribe userId =>
    match w.feed.subscribe userId with
    | .ok (feed, s) => ({ w with feed }, .subscribed (.ok s))
    | .error e => (w, .subscribed (.error e))
  | .unsubscribe s => ({ w with feed := w.feed.unsubscribe s }, .idle)
  | .snapshot s => (w, .snapshotting s)
  | .publish changes => (w, .publishing changes)
  | .drain s =>
    let (feed, error, updates) := w.feed.drain s
    ({ w with feed }, .drained s error updates)
  | .wait s => (w, .waiting s)
  | .available => ({ w with feed := w.feed.available }, .idle)
  | .unavailable => ({ w with feed := w.feed.unavailable }, .idle)

/-- A section of a call that holds `_reads`, which it releases when it returns. -/
def feedRun (p : ℕ) (fails : Bool) (w : FeedWorld W R) : FeedThread R → Option (FeedWorld W R × FeedThread R)
  | .publishing changes =>
    if w.reads = none then some ({ w with reads := some p }, .publish (.next changes false)) else none
  | .publish pc =>
    let found := match pc with
      | .find runId _ _ => if fails then .error .storeFailure else .ok (store.find w.db runId)
      | _ => .ok none
    match Publish.step w.feed found pc with
    | (feed, some pc) => some ({ w with feed }, .publish pc)
    | (feed, none) => some ({ w with feed, reads := none }, .idle)
  | .snapshotting s => if w.reads = none then some ({ w with reads := some p }, .reading s) else none
  | .reading s =>
    if fails then some ({ w with reads := none }, .snapshot s (.error .storeFailure))
    else some (w, .read s (store.snapshot w.db (w.feed.object s).userId))
  | .read s result =>
    match w.feed.finishSnapshot s with
    | .ok feed => some ({ w with feed, reads := none }, .snapshot s (.ok result))
    | .error e => some ({ w with reads := none }, .snapshot s (.error e))
  | .waiting s => if (w.feed.object s).changed ∨ fails then some (w, .idle) else none
  | _ => none

/-- The object that a call is made with. -/
def FeedCall.object? : FeedCall → Option ℕ
  | .unsubscribe s | .snapshot s | .drain s | .wait s => some s
  | _ => none

/-- Threads calling the feed, over a store in which anything may change. -/
def feedCalls : System ℕ (FeedWorld W R) (FeedThread R) FeedAction W where
  act := fun p a w l => match a with
    | .call c =>
      if l.returned ∧ ∀ s ∈ c.object?, s < w.feed.created then some (feedCall w c) else none
    | .run fails => feedRun store p fails w l
    | .callback s => if 0 < (w.feed.object s).scheduled then some ({ w with feed := w.feed.callback s }, l) else none
  env := fun db w => some { w with db }

/-- Runs of the user of an object. -/
def RunFeed.Owns (feed : RunFeed R) (s : ℕ) (runs : List R) : Prop :=
  s < feed.created ∧ ∀ run ∈ runs, FeedItem.requestedBy run = some (feed.object s).userId

/-- What a thread has been given. -/
def FeedThread.Given (feed : RunFeed R) : FeedThread R → Prop
  | .snapshotting s | .reading s => s < feed.created
  | .read s result | .snapshot s (.ok result) => feed.Owns s result
  | .drained s error updates => feed.Owns s updates ∧ (error ≠ none → updates = [])
  | _ => True

/-- The limits of the feed `feed₀` and the ownership of what is delivered. -/
def feedBounds (feed₀ : RunFeed R) : Contract ℕ (FeedWorld W R) (FeedThread R) where
  inv := fun w => w.feed.Sound ∧ feed₀.SameLimits w.feed
  assert := fun _ l w => l.Given w.feed
  guarantee := fun _ w w' => w.feed.Grows w'.feed

end Calls

section Bounds
variable {W R : Type} [FeedItem R] {store : FeedStore W R} {w w' : FeedWorld W R} {feed feed' : RunFeed R}
  {l l' : FeedThread R} {c c' : Config ℕ (FeedWorld W R) (FeedThread R)} {p s : ℕ}

theorem RunFeed.Owns.grows {runs : List R} (h : feed.Owns s runs) (hg : feed.Grows feed') : feed'.Owns s runs :=
  ⟨h.1.trans_le hg.created, fun run hrun => (hg.userId s h.1).symm ▸ h.2 run hrun⟩

theorem FeedThread.Given.grows (h : l.Given feed) (hg : feed.Grows feed') : l.Given feed' := by
  cases l with
  | snapshotting s | reading s => exact h.trans_le hg.created
  | read s result => exact RunFeed.Owns.grows h hg
  | snapshot s r =>
    cases r with
    | ok result => exact RunFeed.Owns.grows h hg
    | error e => trivial
  | drained s error updates => exact ⟨RunFeed.Owns.grows h.1 hg, h.2⟩
  | idle | publishing | publish | subscribed | waiting => trivial

/-- Nothing pending but runs of the user. -/
theorem RunFeed.Sound.pending_owned (h : feed.Sound) (hs : s < feed.created) :
    feed.Owns s (feed.object s).pending.values := by
  refine ⟨hs, fun run hrun => ?_⟩
  obtain ⟨k, hk⟩ := Dict.mem_values.mp hrun
  exact ((h.sound s).owned k run hk).2

theorem feedCall_sound (h : w.feed.Sound) {call : FeedCall} (hobject : ∀ s ∈ call.object?, s < w.feed.created)
    (hs : feedCall w call = (w', l')) : w'.feed.Sound ∧ w.feed.Grows w'.feed ∧ l'.Given w'.feed := by
  cases call with
  | subscribe userId =>
    simp only [feedCall] at hs
    split at hs
    · rename_i feed s hok
      obtain ⟨rfl, rfl⟩ := Prod.mk.inj hs
      obtain ⟨hsound, hgrows⟩ := h.subscribe hok
      exact ⟨hsound, hgrows, trivial⟩
    · obtain ⟨rfl, rfl⟩ := Prod.mk.inj hs
      exact ⟨h, .refl _, trivial⟩
  | unsubscribe s =>
    obtain ⟨rfl, rfl⟩ := Prod.mk.inj hs
    exact ⟨(h.unsubscribe s).1, (h.unsubscribe s).2, trivial⟩
  | snapshot s =>
    obtain ⟨rfl, rfl⟩ := Prod.mk.inj hs
    exact ⟨h, .refl _, hobject s rfl⟩
  | publish changes =>
    obtain ⟨rfl, rfl⟩ := Prod.mk.inj hs
    exact ⟨h, .refl _, trivial⟩
  | drain s =>
    obtain ⟨rfl, rfl⟩ := Prod.mk.inj hs
    obtain ⟨hsound, hgrows⟩ := h.drain s
    refine ⟨hsound, hgrows, (h.pending_owned (hobject s rfl)).grows hgrows, fun herror => ?_⟩
    rw [(h.sound s).failed herror]
    rfl
  | wait s =>
    obtain ⟨rfl, rfl⟩ := Prod.mk.inj hs
    exact ⟨h, .refl _, trivial⟩
  | available =>
    obtain ⟨rfl, rfl⟩ := Prod.mk.inj hs
    exact ⟨h.available.1, h.available.2, trivial⟩
  | unavailable =>
    obtain ⟨rfl, rfl⟩ := Prod.mk.inj hs
    exact ⟨h.unavailable.1, h.unavailable.2, trivial⟩

theorem feedRun_sound (hstore : ∀ db userId, ∀ run ∈ store.snapshot db userId, FeedItem.requestedBy run = some userId)
    (h : w.feed.Sound) (hl : l.Given w.feed) {fails : Bool} (hs : feedRun store p fails w l = some (w', l')) :
    w'.feed.Sound ∧ w.feed.Grows w'.feed ∧ l'.Given w'.feed := by
  cases l with
  | publishing changes =>
    obtain ⟨-, hs⟩ := Option.ite_none_right_eq_some.mp hs
    obtain ⟨rfl, rfl⟩ := Prod.mk.inj (Option.some.inj hs)
    exact ⟨h, .refl _, trivial⟩
  | publish pc =>
    simp only [feedRun] at hs
    split at hs
    all_goals
      rename_i hstep
      obtain ⟨rfl, rfl⟩ := Prod.mk.inj (Option.some.inj hs)
      obtain ⟨hsound, hgrows⟩ := Publish.step_sound h hstep
      exact ⟨hsound, hgrows, trivial⟩
  | snapshotting s =>
    obtain ⟨-, hs⟩ := Option.ite_none_right_eq_some.mp hs
    obtain ⟨rfl, rfl⟩ := Prod.mk.inj (Option.some.inj hs)
    exact ⟨h, .refl _, hl⟩
  | reading s =>
    simp only [feedRun] at hs
    split at hs <;> obtain ⟨rfl, rfl⟩ := Prod.mk.inj (Option.some.inj hs)
    · exact ⟨h, .refl _, trivial⟩
    · exact ⟨h, .refl _, hl, hstore _ _⟩
  | read s result =>
    simp only [feedRun] at hs
    split at hs <;> obtain ⟨rfl, rfl⟩ := Prod.mk.inj (Option.some.inj hs)
    · rename_i hok
      obtain ⟨hsound, hgrows⟩ := h.finishSnapshot hok
      exact ⟨hsound, hgrows, RunFeed.Owns.grows hl hgrows⟩
    · exact ⟨h, .refl _, trivial⟩
  | waiting s =>
    obtain ⟨-, hs⟩ := Option.ite_none_right_eq_some.mp hs
    obtain ⟨rfl, rfl⟩ := Prod.mk.inj (Option.some.inj hs)
    exact ⟨h, .refl _, trivial⟩
  | idle | subscribed | snapshot | drained => contradiction

theorem feedBounds_established
    (hstore : ∀ db userId, ∀ run ∈ store.snapshot db userId, FeedItem.requestedBy run = some userId)
    {feed : RunFeed R} (h : feed.Sound) (db : W) :
    (feedBounds feed).Established (feedCalls store) (fun _ _ => True) ⟨⟨feed, none, db⟩, fun _ => .idle⟩ := by
  have hproof : (feedBounds feed).Proof .trivial (feedCalls store) fun _ _ => True := {
    act := by
      intro p a w l w' l' _ ha _ _ _ h hl
      cases a with
      | call call =>
        obtain ⟨⟨-, hobject⟩, ha⟩ := Option.ite_none_right_eq_some.mp ha
        obtain ⟨hsound, hgrows, hgiven⟩ := feedCall_sound h.1 hobject (Option.some.inj ha)
        exact ⟨⟨hsound, h.2.trans hgrows.limits⟩, hgiven, hgrows⟩
      | run fails =>
        obtain ⟨hsound, hgrows, hgiven⟩ := feedRun_sound hstore h.1 hl ha
        exact ⟨⟨hsound, h.2.trans hgrows.limits⟩, hgiven, hgrows⟩
      | callback s =>
        obtain ⟨-, ha⟩ := Option.ite_none_right_eq_some.mp ha
        obtain ⟨rfl, rfl⟩ := Prod.mk.inj (Option.some.inj ha)
        obtain ⟨hsound, hgrows⟩ := h.1.callback s
        exact ⟨⟨hsound, h.2.trans hgrows.limits⟩, hl.grows hgrows, hgrows⟩
    stable := fun _ _ _ _ _ _ _ _ _ hg _ hl => hl.grows hg
    env := by
      intro db w w' _ he _ h
      obtain rfl := Option.some.inj he
      exact ⟨h, fun _ _ _ hl => hl⟩ }
  have hinit : (feedBounds feed).Holds (⟨⟨feed, none, db⟩, fun _ => .idle⟩ : Config ℕ (FeedWorld W R) (FeedThread R)) :=
    ⟨⟨h, rfl, rfl, rfl⟩, fun _ => trivial⟩
  exact (hproof.established Contract.trivial_established hinit).left

theorem RunFeed.init_sound (perUser total pendingLimit : ℕ) :
    (RunFeed.init perUser total pendingLimit : RunFeed R).Sound where
  total := Nat.zero_le _
  perUser := fun _ => Nat.zero_le _
  created := fun s hs => absurd hs (Finset.notMem_empty s)
  sound := fun _ => Subscription.sound_of_empty rfl
  down := fun _ s hs => absurd hs (Finset.notMem_empty s)

/-- One step of a thread or of the store leaves a failed stream with its first error and nothing else. -/
theorem failed_stays {l : Label ℕ FeedAction W}
    (hstore : ∀ db userId, ∀ run ∈ store.snapshot db userId, FeedItem.requestedBy run = some userId)
    {feed : RunFeed R} (hfeed : feed.Sound) {db : W}
    (h : Reachable (feedCalls store) (fun _ _ => True) ⟨⟨feed, none, db⟩, fun _ => .idle⟩ c)
    (hs : (feedCalls store).step c l = some c') (hexists : s < c.shared.feed.created) {code : FeedError}
    (he : (c.shared.feed.object s).error = some code) :
    (c'.shared.feed.object s).error = some code ∧ (c'.shared.feed.object s).pending = .empty := by
  have hestablished := feedBounds_established hstore hfeed db
  have hsound' : c'.shared.feed.Sound := (hestablished.holds c' (.step h trivial hs)).1.1
  have herror : (c'.shared.feed.object s).error = some code := by
    cases l with
    | act p a =>
      obtain ⟨⟨w', l'⟩, ha, rfl⟩ := Option.map_eq_some_iff.mp hs
      exact (hestablished.guaranteed c p a w' l' h trivial ha).error s hexists code he
    | env db =>
      obtain rfl := Option.some.inj hs
      exact he
  exact ⟨herror, (hsound'.sound s).failed (herror ▸ Option.some_ne_none code)⟩

/-- The feed stays within its limits, and what a stream is given is its user's. -/
theorem feed_isolated {perUser total pendingLimit : ℕ} {db : W}
    (hstore : ∀ db userId, ∀ run ∈ store.snapshot db userId, FeedItem.requestedBy run = some userId)
    (h : Reachable (feedCalls store) (fun _ _ => True)
      ⟨⟨RunFeed.init perUser total pendingLimit, none, db⟩, fun _ => .idle⟩ c) :
    c.shared.feed.subscriptions.card ≤ total ∧
    (∀ userId, (c.shared.feed.subscriptions.filter fun s =>
      (c.shared.feed.object s).userId = userId).card ≤ perUser) ∧
    (∀ s, (c.shared.feed.object s).pending.size ≤ pendingLimit) ∧
    (∀ s, (c.shared.feed.object s).error ≠ none → (c.shared.feed.object s).pending = .empty) ∧
    (∀ l c', (feedCalls store).step c l = some c' → ∀ s < c.shared.feed.created, ∀ code,
      (c.shared.feed.object s).error = some code →
        (c'.shared.feed.object s).error = some code ∧ (c'.shared.feed.object s).pending = .empty) ∧
    (c.shared.feed.isAvailable = false →
      (∀ s ∈ c.shared.feed.subscriptions, (c.shared.feed.object s).error ≠ none) ∧
      (∀ userId, c.shared.feed.subscribe userId = .error .feedUnavailable) ∧
      ∀ s, c.shared.feed.finishSnapshot s = .error .feedUnavailable) ∧
    (∀ s, ∀ run ∈ (c.shared.feed.object s).pending.values,
      FeedItem.requestedBy run = some (c.shared.feed.object s).userId) ∧
    (∀ p s error updates, c.procs p = .drained s error updates → (error ≠ none → updates = []) ∧
      ∀ run ∈ updates, FeedItem.requestedBy run = some (c.shared.feed.object s).userId) ∧
    ∀ p s runs, c.procs p = .snapshot s (.ok runs) →
      ∀ run ∈ runs, FeedItem.requestedBy run = some (c.shared.feed.object s).userId := by
  have hinit := RunFeed.init_sound (R := R) perUser total pendingLimit
  obtain ⟨⟨hsound, hlimits⟩, hgiven⟩ := (feedBounds_established hstore hinit db).holds c h
  have htotal : c.shared.feed.total = total := hlimits.1
  have hper : c.shared.feed.perUser = perUser := hlimits.2.1
  have hpending : c.shared.feed.pendingLimit = pendingLimit := hlimits.2.2
  refine ⟨htotal ▸ hsound.total, fun userId => hper ▸ hsound.perUser userId,
    fun s => hpending ▸ (hsound.sound s).bounded,
    fun s => (hsound.sound s).failed, fun l c' hs s hexists code he => failed_stays hstore hinit h hs hexists he,
    fun hdown => ⟨hsound.down hdown, fun userId => ?_, fun s => ?_⟩, fun s run hrun => ?_,
    fun p s error updates hp => ?_, fun p s runs hp => ?_⟩
  · exact if_pos (by simp [hdown])
  · exact if_pos (.inr (by simp [hdown]))
  · obtain ⟨k, hk⟩ := Dict.mem_values.mp hrun
    exact ((hsound.sound s).owned k run hk).2
  · have hl : (c.procs p).Given c.shared.feed := hgiven p
    rw [hp] at hl
    exact ⟨hl.2, hl.1.2⟩
  · have hl : (c.procs p).Given c.shared.feed := hgiven p
    rw [hp] at hl
    exact hl.2

/-- `SqlAlchemyRunFeed`. -/
def sqlRunFeed : FeedStore RunTables RunDetail := ⟨RunTables.find, RunTables.snapshot⟩

theorem sqlRunFeed_owned (db : RunTables) (userId : UUID) :
    ∀ run ∈ sqlRunFeed.snapshot db userId, FeedItem.requestedBy run = some userId :=
  fun _ hrun => (RunTables.mem_snapshot hrun).2

/-- A queued run of user 7. -/
def feedTables : RunTables :=
  ⟨⟨[⟨1, 1, some 7, .obj [], "", .queued, none, none, none, none, none, none, 1⟩], by decide⟩, .empty⟩

/-- A stream of user 7 is told of the run, with the wrong owner and with none. -/
def feedSession : List (Label ℕ FeedAction RunTables) :=
  [.act 0 (.call .available), .act 1 (.call (.subscribe 7)), .act 0 (.call (.publish [(1, some 8), (1, none)]))] ++
  (List.replicate 5 (.act 0 (.run false))) ++ [.act 1 (.call (.drain 0))]

/-- The run was delivered. -/
def FeedThread.delivered (l : FeedThread RunDetail) : Bool :=
  match l with
  | .drained 0 none [run] => run.id = 1
  | _ => false

theorem feed_isolated_session : ∃ c run, run.id = 1 ∧ Reachable (feedCalls sqlRunFeed) (fun _ _ => True)
      ⟨⟨RunFeed.init 2 3 1, none, feedTables⟩, fun _ => .idle⟩ c ∧ c.procs 1 = .drained 0 none [run] ∧
    FeedItem.requestedBy run = some (c.shared.feed.object 0).userId := by
  have hpasses : (feedCalls sqlRunFeed).passes ⟨⟨RunFeed.init 2 3 1, none, feedTables⟩, fun _ => .idle⟩
      [(feedSession, fun c => (c.procs 1).delivered)] = true := by decide +kernel
  obtain ⟨c, hrun, hcheck, -⟩ := System.passes_cons hpasses
  have hr : Reachable (feedCalls sqlRunFeed) (fun _ _ => True) _ c := reachable_of_run (fun _ _ _ => trivial) hrun
  have hdelivered : ∃ run, c.procs 1 = .drained 0 none [run] ∧ run.id = 1 := by
    revert hcheck
    generalize c.procs 1 = l
    intro hcheck
    unfold FeedThread.delivered at hcheck
    split at hcheck
    · exact ⟨_, rfl, of_decide_eq_true hcheck⟩
    · exact absurd hcheck Bool.false_ne_true
  obtain ⟨run, hdrained, hid⟩ := hdelivered
  have hgiven := (feed_isolated sqlRunFeed_owned hr).2.2.2.2.2.2.2.1 1 0 none [run] hdrained
  exact ⟨c, run, hid, hr, hdrained, hgiven.2 run (List.mem_singleton_self _)⟩

end Bounds
end Mic3

import Mic3.LiveUpdates

/-! What a client has been handed is the current state of its runs, or a notification is still to do its work: how
commits and the steps of the listener keep this. -/
namespace Mic3
open Relational Interleaving

section Views
variable {view : View} {pending : Dict UUID RunDetail} {id : UUID} {run : RunDetail}

/-- What is drained has been pending. -/
theorem View.latest_drained (hpending : ∀ k r, pending.get? k = some r → r.id = k) :
    (view.drained pending.values).latest .empty id = view.latest pending id := by
  have hlast : pending.values.reverse.find? (·.id = id) = pending.get? id := by
    -- Every pending state is kept under its own id, so there is at most one of this run.
    cases hget : pending.get? id with
    | none =>
      refine List.find?_eq_none.mpr fun r hr hid => ?_
      obtain ⟨k, hk⟩ := Dict.mem_values.mp (List.mem_reverse.mp hr)
      obtain rfl : k = id := (hpending k r hk).symm.trans (of_decide_eq_true hid)
      rw [hget] at hk
      contradiction
    | some run =>
      have hmem : run ∈ pending.values.reverse := List.mem_reverse.mpr (Dict.mem_values.mpr ⟨id, hget⟩)
      cases hfound : pending.values.reverse.find? (·.id = id) with
      | none =>
        have hother := List.find?_eq_none.mp hfound run hmem
        exact absurd (decide_eq_true (hpending id run hget)) hother
      | some r =>
        obtain ⟨k, hk⟩ := Dict.mem_values.mp (List.mem_reverse.mp (List.mem_of_find?_eq_some hfound))
        have hchosen := List.find?_some hfound
        have hid : r.id = id := of_decide_eq_true hchosen
        obtain rfl : k = id := (hpending k r hk).symm.trans hid
        exact hk.symm.trans hget
  simp only [latest, drained, List.find?_append, hlast, Dict.get?_empty, Option.none_or, Option.or_assoc]

end Views

/-- The owner that a change comes with is the run's. -/
def HonestChange (db : RunTables) (change : RunChange) : Prop :=
  ∀ user, change.2 = some user → ∃ run, db.find change.1 = some run ∧ run.requestedBy = some user

section Changes
variable {t t' : RunTables} {payloads : List String} {change : RunChange} {id : UUID} {run : RunDetail}

theorem Announced.find_kept (h : Announced t t' payloads) (hfind : t.find id = some run) :
    ∃ run', t'.find id = some run' ∧ run'.requestedBy = run.requestedBy := by
  obtain ⟨row, hrow, rfl⟩ := Option.map_eq_some_iff.mp hfind
  obtain ⟨row', hrow', howner⟩ := h.kept id row hrow
  exact ⟨_, Option.map_eq_some_iff.mpr ⟨row', hrow', rfl⟩, howner⟩

theorem HonestChange.committed (h : HonestChange t change) (ha : Announced t t' payloads) : HonestChange t' change := by
  intro user howner
  obtain ⟨run, hfind, hby⟩ := h user howner
  obtain ⟨run', hfind', howner'⟩ := ha.find_kept hfind
  exact ⟨run', hfind', howner'.trans hby⟩

theorem Announced.honest_payload (h : Announced t t' payloads) {payload : String} (hp : payload ∈ payloads)
    (hparse : parsePayload payload = some change) : HonestChange t' change := by
  obtain ⟨id, owner, hparse', htrue⟩ := h.honest payload hp
  obtain rfl := Option.some.inj (hparse'.symm.trans hparse)
  intro user howner
  obtain ⟨row, hrow, hby⟩ := htrue user howner
  exact ⟨_, Option.map_eq_some_iff.mpr ⟨row, hrow, rfl⟩, hby⟩

/-- A notification with an owner is of that owner's run. -/
theorem HonestChange.owner (h : HonestChange t change) {user : UUID} (howner : change.2 = some user)
    (hfind : t.find change.1 = some run) : run.requestedBy = some user := by
  obtain ⟨run', hfind', hby⟩ := h user howner
  obtain rfl := Option.some.inj (hfind'.symm.trans hfind)
  exact hby

theorem mem_collected {changes : Dict UUID (Option UUID)} {payload : String} {owner : Option UUID}
    (hparse : parsePayload payload = some (id, owner)) : ∃ owner, (id, owner) ∈ (collected changes payload).entries := by
  simp only [collected, hparse]
  exact ⟨_, Dict.mem_entries_set.mpr (.inl rfl)⟩

theorem mem_collected_of_mem {changes : Dict UUID (Option UUID)} {payload : String} {owner : Option UUID}
    (h : (id, owner) ∈ changes.entries) : ∃ owner, (id, owner) ∈ (collected changes payload).entries := by
  unfold collected
  split
  · rename_i runId owner' _
    by_cases hid : id = runId
    · subst hid
      exact ⟨_, Dict.mem_entries_set.mpr (.inl rfl)⟩
    · exact ⟨owner, Dict.mem_entries_set.mpr (.inr ⟨hid, h⟩)⟩
  · exact ⟨owner, h⟩

/-- An owner that is kept for a run was told with it earlier. -/
theorem honest_collected {changes : Dict UUID (Option UUID)} {payload : String}
    (h : ∀ change ∈ changes.entries, HonestChange t change)
    (hp : ∀ change, parsePayload payload = some change → HonestChange t change) :
    ∀ change ∈ (collected changes payload).entries, HonestChange t change := by
  intro change hchange
  unfold collected at hchange
  split at hchange
  · rename_i runId owner hparse
    rcases Dict.mem_entries_set.mp hchange with rfl | ⟨-, hold⟩
    · intro user howner
      -- `owner or changes.get(run_id)`: both come from notifications of this run.
      rcases Option.or_eq_some_iff.mp howner with hnew | ⟨-, hkept⟩
      · exact hp _ hparse user hnew
      · have hentry : changes.get? runId = some (some user) := Option.join_eq_some_iff.mp hkept
        exact h _ (Dict.get?_iff_mem.mp hentry) user rfl
    · exact h change hold
  · exact h change hchange

end Changes

/-- The changes of a batch that `publish` has yet to begin with. -/
def Publish.Pc.changes : Publish.Pc RunDetail → List RunChange
  | .next changes _ | .resync _ changes | .deliver _ changes => changes
  | .find runId owner changes => (runId, owner) :: changes

def FeedThread.changes : FeedThread RunDetail → List RunChange
  | .publishing changes => changes
  | .publish pc => pc.changes
  | _ => []

namespace Listener

/-- The changes that the listener has taken and not begun with. -/
def inHand : Listener → List RunChange
  | .collect changes => changes.entries
  | .publish thread => thread.changes
  | _ => []

/-- The listener is about to fail the streams of the user, or to deliver the state of the run. -/
def Settles (db : RunTables) (userId id : UUID) : Listener → Prop
  | .publish (.publish (.resync owner _)) => owner = none ∨ owner = some userId
  | .publish (.publish (.deliver run _)) => run.id = id ∧ db.find id = some run
  | _ => False

/-- From `available()` to `unavailable()`. -/
def serving : Listener → Bool
  | .start | .connect | .listening | .stopped => false
  | _ => true

/-- Without a batch. -/
def resting : Listener → Bool
  | .collect _ | .publish _ => false
  | _ => true

/-- `publish` holds `_reads` once it has begun. -/
def Fits (reads : Option ℕ) : Listener → Prop
  | .publish (.publishing _) => True
  | .publish (.publish _) => reads = some 0
  | .publish _ => False
  | _ => True

end Listener

namespace LiveWorld

/-- If the connection lives, it has a notification of the run for the listener. -/
def Queued (w : LiveWorld) (id : UUID) : Prop :=
  ∀ queue, w.queue = some queue → ∃ payload ∈ queue, ∃ owner, parsePayload payload = some (id, owner)

/-- A notification of the run is still to do its work, or was lost with the connection. -/
def Due (w : LiveWorld) (userId id : UUID) : Prop :=
  w.Queued id ∨ (∃ owner, (id, owner) ∈ w.listener.inHand) ∨ w.listener.Settles w.db userId id

/-- A notification of the run is queued, or the listener has it in hand. -/
def InFlight (w : LiveWorld) (userId id : UUID) : Prop :=
  (∃ queue, w.queue = some queue ∧ ∃ payload ∈ queue, ∃ owner, parsePayload payload = some (id, owner)) ∨
    (∃ owner, (id, owner) ∈ w.listener.inHand) ∨ w.listener.Settles w.db userId id

/-- The connection has died, and the listener has yet to call `unavailable()`. -/
def Lost (w : LiveWorld) : Prop := w.queue = none ∧ w.listener.serving = true

/-- What a client with this view needs to know is there, or to come. -/
def Covers (w : LiveWorld) (userId : UUID) (view : View) (pending : Dict UUID RunDetail) : Prop :=
  ∀ id run, w.db.find id = some run → run.requestedBy = some userId → view.Shows w.changes id →
    view.latest pending id = some run ∨ w.Due userId id

/-- What holds of the feed, its listener and what the clients have been handed. -/
structure Live (w : LiveWorld) : Prop where
  created : ∀ s view, w.views s = some view → s < w.feed.created
  serving : w.feed.isAvailable = true → w.listener.serving = true
  fits : w.listener.Fits w.reads
  queued : ∀ queue, w.queue = some queue → ∀ payload ∈ queue, ∀ change, parsePayload payload = some change →
    HonestChange w.db change
  inHand : ∀ change ∈ w.listener.inHand, HonestChange w.db change
  fresh : ∀ run changes, w.listener = .publish (.publish (.deliver run changes)) →
    w.db.find run.id = some run ∨ w.Queued run.id
  covers : ∀ s ∈ w.feed.subscriptions, (w.feed.object s).error = none → ∀ view, w.views s = some view →
    w.Covers (w.feed.object s).userId view (w.feed.object s).pending

end LiveWorld

/-- What holds where a request stands; a snapshot that has been read is one that could be handed over. -/
def FeedThread.Sees (p : ℕ) (w : LiveWorld) : FeedThread RunDetail → Prop
  | .publishing _ | .publish _ => False
  | .reading _ => w.reads = some (p + 1)
  | .read s runs => w.reads = some (p + 1) ∧ (s ∈ w.feed.subscriptions → (w.feed.object s).error = none →
      w.Covers (w.feed.object s).userId ⟨runs, w.reading, []⟩ .empty)
  | _ => True

section Coverage
variable {w w' : LiveWorld} {userId id : UUID} {view : View} {pending : Dict UUID RunDetail} {payloads : List String}
  {db : RunTables} {l : FeedThread RunDetail} {p : ℕ}

theorem Listener.Settles.congr {listener : Listener} (h : listener.Settles w.db userId id)
    (hsame : db.find id = w.db.find id) : listener.Settles db userId id := by
  unfold Settles at h
  split at h
  · exact h
  · exact ⟨h.1, hsame.trans h.2⟩
  · contradiction

theorem LiveWorld.Covers.of_due (h : w.Covers userId view pending) (hdb : w'.db = w.db) (hchanges : w'.changes = w.changes)
    (hdue : ∀ id, w.Due userId id → w'.Due userId id) : w'.Covers userId view pending := by
  intro id run hfind howner hshows
  rw [hdb] at hfind
  rw [hchanges] at hshows
  exact (h id run hfind howner hshows).imp_right (hdue id)

/-- A commit queues a notification of each run that it changes. -/
theorem LiveWorld.queued_committed (hp : ∃ payload ∈ payloads, ∃ owner, parsePayload payload = some (id, owner)) :
    (w.committed db payloads).Queued id := by
  intro queue hqueue
  obtain ⟨old, -, rfl⟩ := Option.map_eq_some_iff.mp hqueue
  obtain ⟨payload, hp, howner⟩ := hp
  exact ⟨payload, List.mem_append_right old hp, howner⟩

theorem LiveWorld.Queued.committed (h : w.Queued id) : (w.committed db payloads).Queued id := by
  intro queue hqueue
  obtain ⟨old, hold, rfl⟩ := Option.map_eq_some_iff.mp hqueue
  obtain ⟨payload, hp, howner⟩ := h old hold
  exact ⟨payload, List.mem_append_left payloads hp, howner⟩

theorem LiveWorld.Covers.committed (h : w.Covers userId view pending) (ha : Announced w.db db payloads) :
    (w.committed db payloads).Covers userId view pending := by
  intro id run hfind howner hshows
  -- A run of which another state is found now has been announced.
  by_cases hsame : db.find id = w.db.find id
  · -- Nothing of the run has changed.
    have hcount : (w.committed db payloads).changes id = w.changes id := if_pos hsame
    have hshows' : view.Shows w.changes id := by
      unfold View.Shows at hshows ⊢
      rwa [hcount] at hshows
    rcases h id run (hsame ▸ hfind) howner hshows' with hlatest | hqueued | hinHand | hsettles
    · exact .inl hlatest
    · exact .inr (.inl hqueued.committed)
    · exact .inr (.inr (.inl hinHand))
    · exact .inr (.inr (.inr (hsettles.congr hsame)))
  · exact .inr (.inl (LiveWorld.queued_committed (ha.announced id hsame)))

theorem LiveWorld.Live.committed (h : w.Live) (ha : Announced w.db db payloads) : (w.committed db payloads).Live where
  created := h.created
  serving := h.serving
  fits := h.fits
  queued := fun queue hqueue payload hp change hparse => by
    obtain ⟨old, hold, rfl⟩ := Option.map_eq_some_iff.mp hqueue
    rcases List.mem_append.mp hp with hp | hp
    · exact (h.queued old hold payload hp change hparse).committed ha
    · exact ha.honest_payload hp hparse
  inHand := fun change hchange => (h.inHand change hchange).committed ha
  fresh := fun run changes hl => by
    by_cases hsame : db.find run.id = w.db.find run.id
    · rcases h.fresh run changes hl with hfind | hqueued
      · exact .inl (hsame.trans hfind)
      · exact .inr hqueued.committed
    · exact .inr (LiveWorld.queued_committed (ha.announced run.id hsame))
  covers := fun s hs herror view hview => (h.covers s hs herror view hview).committed ha

end Coverage

section Publishing
variable {feed feed' : RunFeed RunDetail} {sub : Subscription RunDetail} {pc pc' : Publish.Pc RunDetail}
  {found : Except FeedRefusal (Option RunDetail)} {r : Option (Publish.Pc RunDetail)} {db : RunTables} {limit s : ℕ}
  {id : UUID} {run : RunDetail}

theorem RunFeed.Grows.error_none (h : feed.Grows feed') (hs : s < feed.created)
    (he : (feed'.object s).error = none) : (feed.object s).error = none := by
  by_contra hfailed
  obtain ⟨code, hcode⟩ := Option.ne_none_iff_exists'.mp hfailed
  rw [h.error s hs code hcode] at he
  contradiction

theorem RunTables.find_id (hfind : db.find id = some run) : run.id = id := by
  obtain ⟨row, hrow, rfl⟩ := Option.map_eq_some_iff.mp hfind
  exact Table.key_of_find? hrow

theorem RunFeed.mem_watched (hs : s ∈ feed.subscriptions) (he : (feed.object s).error = none) :
    (feed.object s).userId ∈ feed.watched :=
  Finset.mem_image_of_mem _ (Finset.mem_filter.mpr ⟨hs, he⟩)

/-- A subscription that has not failed has been given what is delivered to its user. -/
theorem Subscription.deliver_of_none (he : (sub.deliver limit run).error = none) : sub.error = none ∧
    (run.requestedBy = some sub.userId → (sub.deliver limit run).pending = sub.pending.set run.id run) ∧
    (run.requestedBy ≠ some sub.userId → sub.deliver limit run = sub) := by
  unfold deliver at he ⊢
  split
  · rename_i hother
    rw [if_pos hother] at he
    rcases hother with herror | hother
    · exact absurd he herror
    · exact ⟨he, fun howner => absurd howner hother, fun _ => rfl⟩
  · rename_i hfor
    obtain ⟨herror, howner⟩ := not_or.mp hfor
    rw [if_neg hfor] at he
    refine ⟨not_not.mp herror, fun _ => ?_, fun hother => absurd (not_not.mp howner) hother⟩
    split
    · rw [if_pos ‹_›] at he
      exact absurd he (fail_error _)
    · split <;> rfl

theorem RunFeed.resync_of_none {owner : Option UUID} (hs : s ∈ feed.subscriptions)
    (he : ((feed.resync owner).object s).error = none) :
    (feed.resync owner).object s = feed.object s ∧ owner ≠ none ∧ owner ≠ some (feed.object s).userId := by
  have hobject : (feed.resync owner).object s = if owner = none ∨ owner = some (feed.object s).userId then
      (feed.object s).fail .resyncRequired else feed.object s := if_pos hs
  rw [hobject] at he ⊢
  split at he
  · exact absurd he (Subscription.fail_error _)
  · rename_i hother
    exact ⟨if_neg hother, not_or.mp hother⟩

namespace Publish

/-- What is pending for a subscription that has not failed is as it was, or has just been delivered. -/
theorem step_pending (hs : step feed found pc = (feed', r)) (hsub : s ∈ feed.subscriptions)
    (he : (feed'.object s).error = none) (id : UUID) :
    (feed'.object s).pending.get? id = (feed.object s).pending.get? id ∨
    ∃ run changes, pc = .deliver run changes ∧ run.id = id ∧ run.requestedBy = some (feed.object s).userId ∧
      (feed'.object s).pending.get? id = some run := by
  have hsame {r' : Option (Pc RunDetail)} (h : (feed, r') = (feed', r)) :
      (feed'.object s).pending.get? id = (feed.object s).pending.get? id := by
    obtain ⟨rfl, -⟩ := Prod.mk.inj h
    rfl
  cases pc with
  | next changes storeFailed =>
    cases changes with
    | nil => exact .inl (hsame hs)
    | cons change changes =>
      simp only [step] at hs
      split_ifs at hs <;> exact .inl (hsame hs)
  | resync owner changes =>
    obtain ⟨rfl, -⟩ := Prod.mk.inj hs
    rw [(RunFeed.resync_of_none hsub he).1]
    exact .inl rfl
  | find runId owner changes =>
    simp only [step] at hs
    split at hs
    · exact .inl (hsame hs)
    · exact .inl (hsame hs)
    · split_ifs at hs <;> exact .inl (hsame hs)
  | deliver run changes =>
    obtain ⟨rfl, -⟩ := Prod.mk.inj hs
    have hobject : (feed.deliver run).object s = (feed.object s).deliver feed.pendingLimit run := if_pos hsub
    rw [hobject] at he ⊢
    obtain ⟨-, hgiven, hother⟩ := Subscription.deliver_of_none he
    by_cases howner : run.requestedBy = some (feed.object s).userId
    · rw [hgiven howner, Dict.get?_set]
      split
      · rename_i hid
        exact .inr ⟨run, changes, rfl, hid.symm, howner, rfl⟩
      · exact .inl rfl
    · rw [hother howner]
      exact .inl rfl

/-- A change that `publish` discards is of another user's run, or the streams of its user have failed. -/
theorem step_settles (hs : step feed found pc = (feed', r)) (hsub : s ∈ feed.subscriptions)
    (hnone : (feed.object s).error = none) (he : (feed'.object s).error = none) (hfind : db.find id = some run)
    (howner : run.requestedBy = some (feed.object s).userId) (hhonest : ∀ change ∈ pc.changes, HonestChange db change)
    (hfound : ∀ runId owner changes, pc = .find runId owner changes →
      found = .error .storeFailure ∨ found = .ok (db.find runId))
    (h : (∃ owner, (id, owner) ∈ pc.changes) ∨ Listener.Settles db (feed.object s).userId id (.publish (.publish pc))) :
    (feed'.object s).pending.get? id = some run ∨ ∃ pc', r = some pc' ∧
      ((∃ owner, (id, owner) ∈ pc'.changes) ∨
        Listener.Settles db (feed.object s).userId id (.publish (.publish pc'))) := by
  have hmine {owner : Option UUID} (hchange : (id, owner) ∈ pc.changes) :
      owner = none ∨ owner = some (feed.object s).userId := by
    cases owner with
    | none => exact .inl rfl
    | some user => exact .inr ((hhonest _ hchange).owner rfl hfind ▸ howner)
  cases pc with
  | next changes storeFailed =>
    obtain ⟨owner, hchange⟩ : ∃ owner, (id, owner) ∈ changes := h.resolve_right fun hnot => hnot
    have howned := hmine hchange
    cases changes with
    | nil => contradiction
    | cons change changes =>
      have hwatched := RunFeed.mem_watched hsub hnone
      simp only [step] at hs
      split_ifs at hs with hnobody hother hfailed <;> obtain ⟨rfl, rfl⟩ := Prod.mk.inj hs
      · -- The early return, which a stream without an error excludes.
        exact absurd (hnobody ▸ hwatched) (Finset.notMem_empty _)
      · -- The change is skipped for its owner; ours is not, since our user is watched.
        rcases List.mem_cons.mp hchange with rfl | hrest
        · obtain ⟨user, huser, hnot⟩ := (Option.any_eq_true _ _).mp hother
          rcases howned with hunknown | hknown
          · exact absurd (huser.symm.trans hunknown) (Option.some_ne_none _)
          · obtain rfl := Option.some.inj (huser.symm.trans hknown)
            exact absurd hwatched (of_decide_eq_true hnot)
        · exact .inr ⟨_, rfl, .inl ⟨owner, hrest⟩⟩
      · -- A read has failed before: instead of reading, the streams of the owner are told.
        rcases List.mem_cons.mp hchange with rfl | hrest
        · exact .inr ⟨_, rfl, .inr howned⟩
        · exact .inr ⟨_, rfl, .inl ⟨owner, hrest⟩⟩
      · exact .inr ⟨_, rfl, .inl ⟨owner, hchange⟩⟩
  | resync owner changes =>
    obtain ⟨rfl, rfl⟩ := Prod.mk.inj hs
    rcases h with hchange | hsettles
    · exact .inr ⟨_, rfl, .inl hchange⟩
    · -- Our stream would have an error now.
      obtain ⟨-, hknown, hother⟩ := RunFeed.resync_of_none hsub he
      exact absurd hsettles (not_or.mpr ⟨hknown, hother⟩)
  | find runId owner changes =>
    obtain ⟨owner', hchange⟩ : ∃ owner', (id, owner') ∈ (runId, owner) :: changes := h.resolve_right fun hnot => hnot
    have howned := hmine hchange
    simp only [step] at hs
    -- A read that fails tells the streams of the owner; one that succeeds finds the run, which has an owner.
    rcases hfound runId owner changes rfl with rfl | rfl
    · obtain ⟨rfl, rfl⟩ := Prod.mk.inj hs
      rcases List.mem_cons.mp hchange with heq | hrest
      · obtain ⟨rfl, rfl⟩ := Prod.mk.inj heq
        exact .inr ⟨_, rfl, .inr howned⟩
      · exact .inr ⟨_, rfl, .inl ⟨owner', hrest⟩⟩
    · rcases List.mem_cons.mp hchange with heq | hrest
      · obtain ⟨rfl, rfl⟩ := Prod.mk.inj heq
        have hknown : FeedItem.requestedBy run ≠ none := by
          change run.requestedBy ≠ none
          rw [howner]
          exact Option.some_ne_none _
        simp only [hfind, if_neg hknown] at hs
        obtain ⟨rfl, rfl⟩ := Prod.mk.inj hs
        exact .inr ⟨_, rfl, .inr ⟨RunTables.find_id hfind, hfind⟩⟩
      · split at hs
        · contradiction
        · obtain ⟨rfl, rfl⟩ := Prod.mk.inj hs
          exact .inr ⟨_, rfl, .inl ⟨owner', hrest⟩⟩
        · split_ifs at hs <;> obtain ⟨rfl, rfl⟩ := Prod.mk.inj hs <;> exact .inr ⟨_, rfl, .inl ⟨owner', hrest⟩⟩
  | deliver run' changes =>
    obtain ⟨rfl, rfl⟩ := Prod.mk.inj hs
    rcases h with hchange | ⟨hid, hcurrent⟩
    · exact .inr ⟨_, rfl, .inl hchange⟩
    · obtain rfl := Option.some.inj (hcurrent.symm.trans hfind)
      have hobject : (feed.deliver run').object s = (feed.object s).deliver feed.pendingLimit run' := if_pos hsub
      rw [hobject] at he ⊢
      left
      rw [(Subscription.deliver_of_none he).2.1 howner, Dict.get?_set, if_pos hid.symm]

theorem step_changes (hs : step feed found pc = (feed', some pc')) : ∀ change ∈ pc'.changes, change ∈ pc.changes := by
  intro change hchange
  cases pc with
  | next changes storeFailed =>
    cases changes with
    | nil => cases hs
    | cons first changes =>
      simp only [step] at hs
      split_ifs at hs <;> cases hs
      · exact List.mem_cons_of_mem _ hchange
      · exact List.mem_cons_of_mem _ hchange
      · exact hchange
  | resync owner changes | deliver run changes =>
    cases hs
    exact hchange
  | find runId owner changes =>
    simp only [step] at hs
    split at hs
    · cases hs
      exact List.mem_cons_of_mem _ hchange
    · cases hs
      exact List.mem_cons_of_mem _ hchange
    · split_ifs at hs <;> cases hs <;> exact List.mem_cons_of_mem _ hchange

/-- What is about to be delivered has just been found. -/
theorem step_deliver {changes : List RunChange} (hs : step feed found pc = (feed', some (.deliver run changes))) :
    found = .ok (some run) ∧ ∃ runId owner, pc = .find runId owner changes := by
  cases pc with
  | next changes storeFailed =>
    cases changes with
    | nil => cases hs
    | cons first changes =>
      simp only [step] at hs
      split_ifs at hs <;> cases hs
  | resync owner changes | deliver run changes => cases hs
  | find runId owner changes =>
    simp only [step] at hs
    split at hs
    · cases hs
    · cases hs
    · split_ifs at hs <;> cases hs
      exact ⟨rfl, runId, owner, rfl⟩

end Publish
/-- A section of `publish` on a thread. -/
theorem feedRun_publish {calls calls' : FeedWorld RunTables RunDetail} {p : ℕ} {fails : Bool}
    {thread : FeedThread RunDetail}
    (hs : feedRun sqlRunFeed p fails calls (.publish pc) = some (calls', thread)) : ∃ found r,
    (∀ runId owner changes, pc = .find runId owner changes →
      found = .error .storeFailure ∨ found = .ok (calls.db.find runId)) ∧
    Publish.step calls.feed found pc = (calls'.feed, r) ∧ calls'.db = calls.db ∧
    ((∃ pc', r = some pc' ∧ thread = .publish pc' ∧ calls'.reads = calls.reads) ∨
      r = none ∧ thread = .idle ∧ calls'.reads = none) := by
  simp only [feedRun] at hs
  split at hs
  · rename_i hstep
    obtain ⟨rfl, rfl⟩ := Prod.mk.inj (Option.some.inj hs)
    refine ⟨_, _, ?_, hstep, rfl, .inl ⟨_, rfl, rfl, rfl⟩⟩
    rintro runId owner changes rfl
    cases fails
    · exact .inr rfl
    · exact .inl rfl
  · rename_i hstep
    obtain ⟨rfl, rfl⟩ := Prod.mk.inj (Option.some.inj hs)
    refine ⟨_, _, ?_, hstep, rfl, .inr ⟨rfl, rfl, rfl⟩⟩
    rintro runId owner changes rfl
    cases fails
    · exact .inr rfl
    · exact .inl rfl

end Publishing

section Listening
variable {w w' : LiveWorld} {pc : Publish.Pc RunDetail} {calls : FeedWorld RunTables RunDetail}
  {thread l : FeedThread RunDetail} {p : ℕ}

theorem Listener.serving_published : (Listener.published l).serving = true := by
  cases l <;> rfl

theorem LiveWorld.Live.published (h : w.Live) (hsound : w.feed.Sound) (hl : w.listener = .publish (.publish pc))
    {fails : Bool} (hrun : feedRun sqlRunFeed 0 fails w.toFeedWorld (.publish pc) = some (calls, thread)) :
    ({ w with toFeedWorld := calls, listener := .published thread } : LiveWorld).Live := by
  obtain ⟨found, r, hfound, hstep, hdb, hafter⟩ := feedRun_publish hrun
  obtain ⟨-, hgrows⟩ := Publish.step_sound hsound hstep
  have hhonest : ∀ change ∈ pc.changes, HonestChange w.db change := by
    intro change hchange
    exact h.inHand change (by rw [hl]; exact hchange)
  have hheld : w.reads = some 0 := by
    have hfits := h.fits
    rwa [hl] at hfits
  have hnext : ∀ pc', r = some pc' → Listener.published thread = .publish (.publish pc') := by
    rintro pc' rfl
    rcases hafter with ⟨pc'', hpc, rfl, -⟩ | ⟨hnone, -⟩
    · obtain rfl := Option.some.inj hpc
      rfl
    · contradiction
  refine ⟨fun s view hview => (h.created s view hview).trans_le hgrows.created, fun _ => Listener.serving_published,
    ?_, ?_, ?_, ?_, ?_⟩
  · rcases hafter with ⟨pc', -, rfl, hreads⟩ | ⟨-, rfl, -⟩
    · exact hreads.trans hheld
    · trivial
  · intro queue hqueue payload hp change hparse
    exact hdb ▸ h.queued queue hqueue payload hp change hparse
  · intro change hchange
    rcases hafter with ⟨pc', rfl, rfl, -⟩ | ⟨-, rfl, -⟩
    · exact hdb ▸ hhonest change (Publish.step_changes hstep change hchange)
    · exact absurd hchange List.not_mem_nil
  · intro run changes hdeliver
    rcases hafter with ⟨pc', rfl, rfl, -⟩ | ⟨-, rfl, -⟩
    · cases hdeliver
      obtain ⟨hrun, runId, owner, hpc⟩ := Publish.step_deliver hstep
      rcases hfound runId owner changes hpc with hfailed | hread
      · rw [hrun] at hfailed
        contradiction
      · have hfind : w.db.find runId = some run := (Except.ok.inj (hrun.symm.trans hread)).symm
        left
        change calls.db.find run.id = some run
        rw [hdb, RunTables.find_id hfind]
        exact hfind
    · contradiction
  · intro s hs herror view hview id run hfind howner hshows
    have hexists : s < w.feed.created := h.created s view hview
    have hsub : s ∈ w.feed.subscriptions := (hgrows.members s hs).resolve_right hexists.ne
    have hnone : (w.feed.object s).error = none := hgrows.error_none hexists herror
    have hfind : w.db.find id = some run := hdb ▸ hfind
    have howner : run.requestedBy = some (w.feed.object s).userId := by rw [← hgrows.userId s hexists]; exact howner
    have hlatest (hget : (calls.feed.object s).pending.get? id = some run) :
        view.latest (calls.feed.object s).pending id = some run := by
      rw [View.latest, hget, Option.some_or]
    have hlistener : ((∃ owner, (id, owner) ∈ w.listener.inHand) ∨
        w.listener.Settles w.db (w.feed.object s).userId id) → view.latest (calls.feed.object s).pending id = some run ∨
        LiveWorld.Due { w with toFeedWorld := calls, listener := .published thread } (calls.feed.object s).userId id := by
      intro hholds
      rw [hl] at hholds
      rcases Publish.step_settles hstep hsub hnone herror hfind howner hhonest hfound hholds with
        hget | ⟨pc', hpc', hholds⟩
      · exact .inl (hlatest hget)
      · right
        right
        change (∃ owner, (id, owner) ∈ (Listener.published thread).inHand) ∨
          (Listener.published thread).Settles calls.db (calls.feed.object s).userId id
        rw [hnext pc' hpc', hdb, hgrows.userId s hexists]
        exact hholds
    rcases h.covers s hsub hnone view hview id run hfind howner hshows with hshown | hqueued | hholds
    · -- What was shown may be overlaid by the state that this section delivers.
      rcases Publish.step_pending hstep hsub herror id with hsame | ⟨run', changes, rfl, hid, -, hget⟩
      · left
        rw [View.latest, hsame]
        exact hshown
      · -- What is delivered may be the current state, or an older one if another notification is queued.
        rcases h.fresh run' changes hl with hcurrent | hqueued
        · rw [hid, hfind] at hcurrent
          obtain rfl := Option.some.inj hcurrent
          exact .inl (hlatest hget)
        · exact .inr (.inl (hid ▸ hqueued))
    · exact .inr (.inl hqueued)
    · exact hlistener hholds

/-- What a request sees survives a step that leaves `_reads` to it and what is due, due. -/
theorem FeedThread.Sees.step (h : l.Sees p w) (hgiven : l.Given w.feed) (hgrows : w.feed.Grows w'.feed)
    (hreads : w.reads = some (p + 1) → w'.reads = some (p + 1) ∧ w'.reading = w.reading)
    (hcovers : w.reads = some (p + 1) → ∀ s ∈ w'.feed.subscriptions, s ∈ w.feed.subscriptions →
      (w'.feed.object s).error = none → (w.feed.object s).error = none → ∀ userId view, w.Covers userId view .empty →
        w'.Covers userId view .empty) : l.Sees p w' := by
  cases l with
  | reading s => exact (hreads h).1
  | read s runs =>
    obtain ⟨hheld, hcovered⟩ := h
    obtain ⟨hheld', hreading⟩ := hreads hheld
    refine ⟨hheld', fun hs herror => ?_⟩
    have hexists : s < w.feed.created := hgiven.1
    -- A stream that is served and has no error afterwards was so before.
    have hsub : s ∈ w.feed.subscriptions := (hgrows.members s hs).resolve_right hexists.ne
    have hnone := hgrows.error_none hexists herror
    rw [hreading, hgrows.userId s hexists]
    exact hcovers hheld s hs hsub herror hnone _ _ (hcovered hsub hnone)
  | publishing | publish => exact h
  | idle | snapshotting | subscribed | snapshot | drained | waiting => trivial

/-- A step of the listener beside the feed. -/
theorem LiveWorld.Live.moved {queue : Option (List String)} {listener : Listener} (h : w.Live)
    (hserving : w.listener.serving = true → listener.serving = true) (hfits : listener.Fits w.reads)
    (hqueued : ∀ q, queue = some q → ∀ payload ∈ q, ∃ old, w.queue = some old ∧ payload ∈ old)
    (hinHand : ∀ change ∈ listener.inHand, HonestChange w.db change)
    (hquiet : ∀ run changes, listener ≠ .publish (.publish (.deliver run changes)))
    (hdue : ∀ s ∈ w.feed.subscriptions, (w.feed.object s).error = none → ∀ userId id, w.Due userId id →
      LiveWorld.Due { w with queue, listener } userId id) :
    ({ w with queue, listener } : LiveWorld).Live ∧
      ∀ p (l : FeedThread RunDetail), l.Given w.feed → l.Sees p w → l.Sees p { w with queue, listener } := by
  refine ⟨⟨h.created, fun hup => hserving (h.serving hup), hfits, fun q hq payload hp change hparse => ?_, hinHand,
    fun run changes hl => absurd hl (hquiet run changes), fun s hs herror view hview =>
      (h.covers s hs herror view hview).of_due rfl rfl (hdue s hs herror _)⟩, fun p l hgiven hl => ?_⟩
  · obtain ⟨old, hold, hmem⟩ := hqueued q hq payload hp
    exact h.queued old hold payload hmem change hparse
  · exact hl.step hgiven (.refl _) (fun hheld => ⟨hheld, rfl⟩) fun _ s hs _ herror _ userId view hcovers =>
      hcovers.of_due rfl rfl (hdue s hs herror userId)

theorem Listener.resting_spec {listener : Listener} (h : listener.resting = true) : (∀ reads, listener.Fits reads) ∧
    (∀ change, change ∉ listener.inHand) ∧ ∀ run changes, listener ≠ .publish (.publish (.deliver run changes)) := by
  cases listener with
  | collect | publish => contradiction
  | _ => exact ⟨fun _ => trivial, fun _ => List.not_mem_nil, fun _ _ hl => by cases hl⟩

/-- The connection is lost, and with it the batch that was being taken. -/
theorem LiveWorld.Live.lost {listener : Listener} (h : w.Live) (hresting : listener.resting = true)
    (hserving : w.listener.serving = true → listener.serving = true) :
    ({ w with queue := none, listener } : LiveWorld).Live ∧
      ∀ p (l : FeedThread RunDetail), l.Given w.feed → l.Sees p w → l.Sees p { w with queue := none, listener } := by
  obtain ⟨hfits, hnothing, hquiet⟩ := Listener.resting_spec hresting
  have hnone (q : List String) (hq : (none : Option (List String)) = some q) : False := by cases hq
  exact h.moved hserving (hfits _) (fun q hq => absurd hq (hnone q)) (fun change hc => absurd hc (hnothing change)) hquiet
    fun _ _ _ _ _ _ => .inl fun q hq => absurd hq (hnone q)

/-- A call after which every stream that is served has failed, with the connection as it was or a new one. -/
theorem LiveWorld.Live.called {feed : RunFeed RunDetail} {queue : Option (List String)} {listener : Listener} (h : w.Live)
    (hgrows : w.feed.Grows feed) (hresting : listener.resting = true)
    (hserving : feed.isAvailable = true → listener.serving = true) (hqueue : queue = w.queue ∨ queue = some [])
    (hfailed : ∀ s ∈ feed.subscriptions, (feed.object s).error ≠ none) :
    ({ w with feed, queue, listener } : LiveWorld).Live ∧
      ∀ p (l : FeedThread RunDetail), l.Given w.feed → l.Sees p w → l.Sees p { w with feed, queue, listener } := by
  obtain ⟨hfits, hnothing, hquiet⟩ := Listener.resting_spec hresting
  refine ⟨⟨fun s view hview => (h.created s view hview).trans_le hgrows.created, hserving, hfits _, ?_,
    fun change hc => absurd hc (hnothing change), fun run changes hl => absurd hl (hquiet run changes),
    fun s hs herror => absurd herror (hfailed s hs)⟩, fun p l hgiven hl => ?_⟩
  · rcases hqueue with rfl | rfl
    · exact h.queued
    · intro q hq payload hp
      obtain rfl := Option.some.inj hq
      contradiction
  · exact hl.step hgiven hgrows (fun hheld => ⟨hheld, rfl⟩) fun _ s hs _ herror => absurd herror (hfailed s hs)

/-- While the listener does not serve, no stream is without an error. -/
theorem LiveWorld.Live.failed (h : w.Live) (hsound : w.feed.Sound) (hdown : w.listener.serving = false) :
    w.feed.isAvailable = false ∧ ∀ s ∈ w.feed.subscriptions, (w.feed.object s).error ≠ none := by
  have hunavailable : w.feed.isAvailable = false := by
    by_contra hup
    have hserving := h.serving (Bool.eq_true_of_not_eq_false hup)
    rw [hdown] at hserving
    contradiction
  exact ⟨hunavailable, hsound.down hunavailable⟩

/-- `publish` takes `_reads`, which no request holds then. -/
theorem LiveWorld.Live.begun {changes : List RunChange} (h : w.Live) (hl : w.listener = .publish (.publishing changes))
    (hfree : w.reads = none) :
    ({ w with reads := some 0, listener := .publish (.publish (.next changes false)) } : LiveWorld).Live ∧
      ∀ p (l : FeedThread RunDetail), l.Given w.feed → l.Sees p w →
        l.Sees p { w with reads := some 0, listener := .publish (.publish (.next changes false)) } := by
  have hsame : w.listener.inHand = changes := by
    rw [hl]
    rfl
  have hheld {p : ℕ} (hp : w.reads = some (p + 1)) : False := by
    rw [hfree] at hp
    contradiction
  -- What is in hand stays in hand; a request that held `_reads` would contradict `hfree`.
  refine ⟨⟨h.created, fun _ => rfl, rfl, h.queued, fun change hc => h.inHand change (hsame ▸ hc),
    fun _ _ he => (by cases he), fun s hs herror view hview =>
      (h.covers s hs herror view hview).of_due rfl rfl fun id hdue => ?_⟩, fun p l hgiven hsees =>
    hsees.step hgiven (.refl _) (fun hp => (hheld hp).elim) fun hp => (hheld hp).elim⟩
  rcases hdue with hqueued | hinHand | hsettles
  · exact .inl hqueued
  · exact .inr (.inl (hsame ▸ hinHand))
  · rw [hl] at hsettles
    contradiction

/-- The next notification is taken into the batch. -/
theorem LiveWorld.Live.collected {changes : Dict UUID (Option UUID)} {payload : String} {queue : List String} (h : w.Live)
    (hl : w.listener = .collect changes) (hqueue : w.queue = some (payload :: queue)) :
    ({ w with queue := some queue, listener := .collect (collected changes payload) } : LiveWorld).Live ∧
      ∀ p (l : FeedThread RunDetail), l.Given w.feed → l.Sees p w →
        l.Sees p { w with queue := some queue, listener := .collect (collected changes payload) } := by
  have hsame : w.listener.inHand = changes.entries := by
    rw [hl]
    rfl
  refine h.moved (fun _ => rfl) trivial (fun q hq payload' hp => ?_) ?_ (fun _ _ he => by cases he)
    fun s hs herror userId id hdue => ?_
  · obtain rfl := Option.some.inj hq
    exact ⟨_, hqueue, List.mem_cons_of_mem _ hp⟩
  · exact honest_collected (hsame ▸ h.inHand) (h.queued _ hqueue payload List.mem_cons_self)
  · rcases hdue with hqueued | ⟨owner, howner⟩ | hsettles
    · obtain ⟨payload', hp, owner, hparse⟩ := hqueued _ hqueue
      rcases List.mem_cons.mp hp with rfl | hp
      · exact .inr (.inl (mem_collected hparse))
      · left
        intro q hq
        obtain rfl := Option.some.inj hq
        exact ⟨payload', hp, owner, hparse⟩
    · exact .inr (.inl (mem_collected_of_mem (hsame ▸ howner)))
    · rw [hl] at hsettles
      contradiction

/-- The batch is over, and what is in it is published. -/
theorem LiveWorld.Live.taken {changes : Dict UUID (Option UUID)} {listener : Listener} (h : w.Live)
    (hl : w.listener = .collect changes) (hserving : listener.serving = true) (hfits : listener.Fits w.reads)
    (hquiet : ∀ run changes, listener ≠ .publish (.publish (.deliver run changes)))
    (hsame : listener.inHand = changes.entries) :
    ({ w with listener } : LiveWorld).Live ∧
      ∀ p (l : FeedThread RunDetail), l.Given w.feed → l.Sees p w → l.Sees p { w with listener } := by
  have hsame : listener.inHand = w.listener.inHand := by
    rw [hl]
    exact hsame
  refine h.moved (fun _ => hserving) hfits (fun q hq payload hp => ⟨q, hq, hp⟩)
    (fun change hc => h.inHand change (hsame ▸ hc)) hquiet fun s hs herror userId id hdue => ?_
  rcases hdue with hqueued | hinHand | hsettles
  · exact .inl hqueued
  · exact .inr (.inl (hsame ▸ hinHand))
  · rw [hl] at hsettles
    contradiction

/-- Every step of the listener. -/
theorem LiveWorld.Live.listen (h : w.Live) (hsound : w.feed.Sound) (hs : w.Listens w') :
    w'.Live ∧ ∀ p (l : FeedThread RunDetail), l.Given w.feed → l.Sees p w → l.Sees p w' := by
  cases hs with
  | start hl =>
    obtain ⟨hdown, hfailed⟩ := h.failed hsound (by rw [hl]; rfl)
    refine h.called (.refl _) ?_ (fun hup => ?_) (.inl rfl) hfailed
    · split <;> rfl
    · rw [hdown] at hup
      contradiction
  | connect hl =>
    obtain ⟨hdown, hfailed⟩ := h.failed hsound (by rw [hl]; rfl)
    refine h.called (.refl _) rfl (fun hup => ?_) (.inr rfl) hfailed
    rw [hdown] at hup
    contradiction
  | available hl =>
    obtain ⟨-, hfailed⟩ := h.failed hsound (by rw [hl]; rfl)
    exact h.called hsound.available.2 rfl (fun _ => rfl) (.inl rfl) hfailed
  | unavailable listener hl =>
    have hfailed : ∀ s ∈ w.feed.subscriptions, (w.feed.unavailable.object s).error ≠ none :=
      fun s => RunFeed.unavailable_error
    refine h.called hsound.unavailable.2 ?_ (fun hup => by cases hup) (.inl rfl) hfailed
    rcases hl with ⟨-, rfl⟩ | ⟨-, rfl⟩ <;> rfl
  | lost listener hl hnext =>
    refine h.lost ?_ fun _ => ?_
    · rcases hnext with rfl | rfl <;> rfl
    · rcases hnext with rfl | rfl <;> rfl
  | batch hl =>
    refine h.moved (fun _ => rfl) trivial (fun q hq payload hp => ⟨q, hq, hp⟩)
      (fun _ hc => absurd hc List.not_mem_nil) (fun _ _ he => by cases he) fun s hs herror userId id hdue => ?_
    rcases hdue with hqueued | ⟨owner, hinHand⟩ | hsettles
    · exact .inl hqueued
    · rw [hl] at hinHand
      exact absurd hinHand List.not_mem_nil
    · rw [hl] at hsettles
      contradiction
  | notified changes payload queue hl hqueue => exact h.collected hl hqueue
  | nothing changes hl hempty =>
    exact h.taken hl rfl trivial (fun _ _ he => by cases he) (List.length_eq_zero_iff.mp hempty).symm
  | publish changes hl => exact h.taken hl rfl trivial (fun _ _ he => by cases he) rfl
  | run fails thread thread' calls hl hrun =>
    have hfits := h.fits
    rw [hl] at hfits
    cases thread with
    | publishing changes =>
      obtain ⟨hfree, hrun⟩ := Option.ite_none_right_eq_some.mp hrun
      obtain ⟨rfl, rfl⟩ := Prod.mk.inj (Option.some.inj hrun)
      exact h.begun hl hfree
    | publish pc =>
      have hown : w.reads = some 0 := hfits
      have hheld {p : ℕ} (hp : w.reads = some (p + 1)) : False := by
        rw [hown] at hp
        cases hp
      obtain ⟨-, hgrows, -⟩ := feedRun_sound sqlRunFeed_owned hsound (l := .publish pc) trivial hrun
      exact ⟨h.published hsound hl hrun, fun p l hgiven hsees =>
        hsees.step hgiven hgrows (fun hp => (hheld hp).elim) fun hp => (hheld hp).elim⟩
    | idle | snapshotting | reading | read | subscribed | snapshot | drained | waiting => contradiction

/-- The connection dies. -/
theorem LiveWorld.Live.died (h : w.Live) : ({ w with queue := none } : LiveWorld).Live ∧
    ∀ p (l : FeedThread RunDetail), l.Given w.feed → l.Sees p w → l.Sees p { w with queue := none } := by
  have hlost (id : UUID) : LiveWorld.Queued { w with queue := none } id := by
    intro q hq
    cases hq
  refine ⟨⟨h.created, h.serving, h.fits, fun q hq => (by cases hq), h.inHand, fun run _ _ => .inr (hlost run.id),
    fun s hs herror view hview => (h.covers s hs herror view hview).of_due rfl rfl fun id _ => .inl (hlost id)⟩,
    fun p l hgiven hl => ?_⟩
  exact hl.step hgiven (.refl _) (fun hheld => ⟨hheld, rfl⟩) fun _ s hs _ herror _ userId view hcovers =>
    hcovers.of_due rfl rfl fun id _ => .inl (hlost id)

end Listening

end Mic3

import Mic3.LiveCoverage

/-! The live feed loses no update, whatever requests do beside the listener. -/
namespace Mic3
open Relational Interleaving

/-- What a request leaves as it is. -/
structure LiveWorld.SameSource (w w' : LiveWorld) : Prop where
  db : w'.db = w.db
  queue : w'.queue = w.queue
  listener : w'.listener = w.listener
  changes : w'.changes = w.changes

/-- A request does nothing to the database and the listener, and takes `_reads` from nobody. -/
def liveCoverage : Contract ℕ LiveWorld (FeedThread RunDetail) where
  inv := LiveWorld.Live
  assert := fun p l w => l.Sees p w
  guarantee := fun p w w' => w.SameSource w' ∧
    ∀ q ≠ p, w.reads = some (q + 1) → w'.reads = some (q + 1) ∧ w'.reading = w.reading

section Requests
variable {w w' : LiveWorld} {l l' : FeedThread RunDetail} {p s : ℕ} {userId : UUID} {view : View}
  {pending : Dict UUID RunDetail}

theorem Listener.Fits.mono {listener : Listener} {reads reads' : Option ℕ} (h : listener.Fits reads)
    (hreads : reads = some 0 → reads' = some 0) : listener.Fits reads' := by
  unfold Fits at h
  split at h
  · trivial
  · exact hreads h
  · contradiction
  · rename_i hquiet
    cases listener with
    | publish thread => exact absurd rfl (hquiet thread)
    | _ => trivial

theorem LiveWorld.Covers.congr (h : w.Covers userId view pending) (hsame : w.SameSource w') :
    w'.Covers userId view pending := by
  refine h.of_due hsame.db hsame.changes fun id hdue => ?_
  unfold LiveWorld.Due LiveWorld.Queued at hdue ⊢
  rwa [hsame.queue, hsame.listener, hsame.db]

theorem LiveWorld.Live.requested (h : w.Live) (hsame : w.SameSource w')
    (hup : w'.feed.isAvailable = w.feed.isAvailable) (hreads : w.reads = some 0 → w'.reads = some 0)
    (hcreated : ∀ s view, w'.views s = some view → s < w'.feed.created)
    (hcovers : ∀ s ∈ w'.feed.subscriptions, (w'.feed.object s).error = none → ∀ view, w'.views s = some view →
      w.Covers (w'.feed.object s).userId view (w'.feed.object s).pending) : w'.Live where
  created := hcreated
  serving := fun hserves => by
    rw [hsame.listener]
    exact h.serving (hup ▸ hserves)
  fits := by
    rw [hsame.listener]
    exact h.fits.mono hreads
  queued := fun queue hqueue => by
    rw [hsame.db]
    exact h.queued queue (hsame.queue ▸ hqueue)
  inHand := fun change hchange => by
    rw [hsame.db]
    exact h.inHand change (hsame.listener ▸ hchange)
  fresh := fun run changes hl => by
    unfold LiveWorld.Queued
    rw [hsame.db, hsame.queue]
    exact h.fresh run changes (hsame.listener ▸ hl)
  covers := fun s hs herror view hview => (hcovers s hs herror view hview).congr hsame

/-- A snapshot shows what it was read from. -/
theorem LiveWorld.covers_snapshot : w.Covers userId ⟨sqlRunFeed.snapshot w.db userId, w.changes, []⟩ .empty := by
  intro id run hfind howner hshows
  rcases hshows with ⟨d, hd, hid⟩ | hchanged
  · left
    have hfound : ((sqlRunFeed.snapshot w.db userId).find? (·.id = id)).isSome := by
      rw [List.find?_isSome]
      exact ⟨d, hd, decide_eq_true hid⟩
    obtain ⟨d', hd'⟩ := Option.isSome_iff_exists.mp hfound
    have hchosen := List.find?_some hd'
    have hid' : d'.id = id := of_decide_eq_true hchosen
    have hcurrent := (RunTables.mem_snapshot (List.mem_of_find?_eq_some hd')).1
    rw [hid', hfind] at hcurrent
    calc View.latest ⟨sqlRunFeed.snapshot w.db userId, w.changes, []⟩ .empty id
        = (sqlRunFeed.snapshot w.db userId).find? (·.id = id) := rfl
      _ = some d' := hd'
      _ = some run := hcurrent.symm
  · exact absurd hchanged (lt_irrefl _)

/-- A request does something to one subscription, which stays its user's and keeps its error. -/
theorem LiveWorld.Live.updated {f : Subscription RunDetail → Subscription RunDetail} {reads : Option ℕ}
    {views : ℕ → Option View} (h : w.Live) (hreads : w.reads = some 0 → reads = some 0)
    (hcreated : ∀ view, views s = some view → s < w.feed.created)
    (huser : (f (w.feed.object s)).userId = (w.feed.object s).userId)
    (herror : (f (w.feed.object s)).error = (w.feed.object s).error) (hviews : ∀ s' ≠ s, views s' = w.views s')
    (hcovers : s ∈ w.feed.subscriptions → (w.feed.object s).error = none → ∀ view, views s = some view →
      w.Covers (w.feed.object s).userId view (f (w.feed.object s)).pending) :
    ({ w with feed := w.feed.update s f, reads, views } : LiveWorld).Live := by
  refine h.requested ⟨rfl, rfl, rfl, rfl⟩ rfl hreads (fun s' view hview => ?_) fun s' hs hnone view hview => ?_
  · by_cases hself : s' = s
    · subst hself
      exact hcreated view hview
    · exact h.created s' view ((hviews s' hself).symm.trans hview)
  · by_cases hself : s' = s
    · subst hself
      have hobject : (w.feed.update s' f).object s' = f (w.feed.object s') := if_pos rfl
      change ((w.feed.update s' f).object s').error = none at hnone
      change w.Covers ((w.feed.update s' f).object s').userId view ((w.feed.update s' f).object s').pending
      rw [hobject] at hnone ⊢
      rw [huser]
      exact hcovers hs (herror.symm.trans hnone) view hview
    · have hobject : (w.feed.update s f).object s' = w.feed.object s' := if_neg hself
      change ((w.feed.update s f).object s').error = none at hnone
      change w.Covers ((w.feed.update s f).object s').userId view ((w.feed.update s f).object s').pending
      rw [hobject] at hnone ⊢
      exact h.covers s' hs hnone view ((hviews s' hself).symm.trans hview)

/-- What every step of a request gives. -/
def Coverage (p : ℕ) (w w' : LiveWorld) (l' : FeedThread RunDetail) : Prop :=
  w'.Live ∧ l'.Sees p w' ∧ liveCoverage.guarantee p w w'

/-- The calls of a request, at once. -/
theorem live_call {call : FeedCall} (hcall : FeedAction.ofRequest (.call call) = true) (h : w.Live) (hsound : w.feed.Sound)
    (hobject : ∀ s ∈ call.object?, s < w.feed.created) {calls : FeedWorld RunTables RunDetail}
    (hs : feedCall w.toFeedWorld call = (calls, l')) :
    Coverage p w (({ w with toFeedWorld := calls } : LiveWorld).handed (.call call) l') l' := by
  cases call with
  | subscribe userId =>
    simp only [feedCall] at hs
    split at hs <;> obtain ⟨rfl, rfl⟩ := Prod.mk.inj hs
    · rename_i feed s hok
      obtain ⟨-, -, -, rfl, rfl⟩ := RunFeed.subscribe_ok hok
      refine ⟨h.requested ⟨rfl, rfl, rfl, rfl⟩ rfl (fun hheld => hheld)
        (fun s view hview => (h.created s view hview).trans (Nat.lt_succ_self _)) fun s hs herror view hview => ?_,
        trivial, ⟨rfl, rfl, rfl, rfl⟩, fun _ _ hheld => ⟨hheld, rfl⟩⟩
      -- The new subscription has no snapshot yet.
      have hne : s ≠ w.feed.created := (h.created s view hview).ne
      have hsub : s ∈ w.feed.subscriptions := (Finset.mem_insert.mp hs).resolve_left hne
      change (if s = w.feed.created then (⟨userId, false, 0, .empty, none⟩ : Subscription RunDetail)
        else w.feed.object s).error = none at herror
      change w.Covers (if s = w.feed.created then (⟨userId, false, 0, .empty, none⟩ : Subscription RunDetail)
        else w.feed.object s).userId view (if s = w.feed.created then
          (⟨userId, false, 0, .empty, none⟩ : Subscription RunDetail) else w.feed.object s).pending
      rw [if_neg hne] at herror ⊢
      exact h.covers s hsub herror view hview
    · exact ⟨h, trivial, ⟨rfl, rfl, rfl, rfl⟩, fun _ _ hheld => ⟨hheld, rfl⟩⟩
  | unsubscribe s =>
    obtain ⟨rfl, rfl⟩ := Prod.mk.inj hs
    exact ⟨h.requested ⟨rfl, rfl, rfl, rfl⟩ rfl (fun hheld => hheld) h.created fun s' hs =>
      h.covers s' (Finset.mem_of_mem_erase hs), trivial, ⟨rfl, rfl, rfl, rfl⟩, fun _ _ hheld => ⟨hheld, rfl⟩⟩
  | snapshot s | wait s =>
    obtain ⟨rfl, rfl⟩ := Prod.mk.inj hs
    exact ⟨h, trivial, ⟨rfl, rfl, rfl, rfl⟩, fun _ _ hheld => ⟨hheld, rfl⟩⟩
  | drain s =>
    obtain ⟨rfl, rfl⟩ := Prod.mk.inj hs
    refine ⟨h.updated (fun hheld => hheld) (fun _ _ => hobject s rfl) rfl rfl (fun s' hne => Function.update_of_ne hne _ _)
      fun hs herror view hview => ?_, trivial, ⟨rfl, rfl, rfl, rfl⟩, fun _ _ hheld => ⟨hheld, rfl⟩⟩
    rw [Function.update_self] at hview
    obtain ⟨before, hbefore, rfl⟩ := Option.map_eq_some_iff.mp hview
    intro id run hfind howner hshows
    -- What was pending is now the latest that was drained.
    have hkeyed : ∀ k r, (w.feed.object s).pending.get? k = some r → r.id = k :=
      fun k r hr => ((hsound.sound s).owned k r hr).1
    change View.latest _ .empty id = some run ∨ _
    rw [View.latest_drained hkeyed]
    exact h.covers s hs herror before hbefore id run hfind howner hshows
  | publish | available | unavailable => contradiction

/-- Every step of a request. -/
theorem live_act {a : FeedAction} (ha : liveFeed.act p a w l = some (w', l')) (h : w.Live) (hsound : w.feed.Sound)
    (hgiven : l.Given w.feed) (hl : l.Sees p w) : Coverage p w w' l' := by
  obtain ⟨hrequest, calls, hcalls, rfl⟩ := liveFeed_act ha
  cases a with
  | call call =>
    obtain ⟨⟨-, hobject⟩, hcalls⟩ := Option.ite_none_right_eq_some.mp hcalls
    exact live_call hrequest h hsound hobject (Option.some.inj hcalls)
  | callback s =>
    obtain ⟨-, hcalls⟩ := Option.ite_none_right_eq_some.mp hcalls
    obtain ⟨rfl, rfl⟩ := Prod.mk.inj (Option.some.inj hcalls)
    refine ⟨h.updated (fun hheld => hheld) (h.created s) rfl rfl (fun _ _ => rfl) fun hs herror view hview =>
      h.covers s hs herror view hview, ?_, ⟨rfl, rfl, rfl, rfl⟩, fun _ _ hheld => ⟨hheld, rfl⟩⟩
    exact hl.step hgiven (hsound.callback s).2 (fun hheld => ⟨hheld, rfl⟩) fun _ _ _ _ _ _ userId view hcovers =>
      hcovers.congr ⟨rfl, rfl, rfl, rfl⟩
  | run fails =>
    change feedRun sqlRunFeed (p + 1) fails w.toFeedWorld l = some (calls, l') at hcalls
    cases l with
    | publishing | publish => exact hl.elim
    | snapshotting s =>
      obtain ⟨hfree, hcalls⟩ := Option.ite_none_right_eq_some.mp hcalls
      obtain ⟨rfl, rfl⟩ := Prod.mk.inj (Option.some.inj hcalls)
      have hfree : w.reads = none := hfree
      have hnobody {q : ℕ} (hheld : w.reads = some q) : False := by
        rw [hfree] at hheld
        cases hheld
      exact ⟨h.requested ⟨rfl, rfl, rfl, rfl⟩ rfl (fun hheld => (hnobody hheld).elim) h.created h.covers, rfl,
        ⟨rfl, rfl, rfl, rfl⟩, fun _ _ hheld => (hnobody hheld).elim⟩
    | reading s =>
      have hl : w.reads = some (p + 1) := hl
      have hother {q : ℕ} (hne : q ≠ p + 1) (hheld : w.reads = some q) : False :=
        hne (Option.some.inj (hheld.symm.trans hl))
      simp only [feedRun] at hcalls
      split at hcalls <;> obtain ⟨rfl, rfl⟩ := Prod.mk.inj (Option.some.inj hcalls)
      · exact ⟨h.requested ⟨rfl, rfl, rfl, rfl⟩ rfl (fun hheld => (hother (Nat.succ_ne_zero p).symm hheld).elim) h.created
          h.covers, trivial, ⟨rfl, rfl, rfl, rfl⟩, fun q hne hheld => (hother (by omega) hheld).elim⟩
      · exact ⟨h.requested ⟨rfl, rfl, rfl, rfl⟩ rfl (fun hheld => hheld) h.created h.covers,
          ⟨hl, fun _ _ => LiveWorld.covers_snapshot⟩, ⟨rfl, rfl, rfl, rfl⟩,
          fun q hne hheld => (hother (by omega) hheld).elim⟩
    | read s runs =>
      obtain ⟨hl, hcovered⟩ := hl
      have hother {q : ℕ} (hne : q ≠ p + 1) (hheld : w.reads = some q) : False :=
        hne (Option.some.inj (hheld.symm.trans hl))
      simp only [feedRun] at hcalls
      split at hcalls <;> obtain ⟨rfl, rfl⟩ := Prod.mk.inj (Option.some.inj hcalls)
      · rename_i hok
        obtain ⟨-, -, rfl⟩ := RunFeed.finishSnapshot_ok hok
        -- `pending.clear()` drops nothing newer than the snapshot: nobody has published since it was read.
        refine ⟨h.updated (fun hheld => (hother (Nat.succ_ne_zero p).symm hheld).elim) (fun _ _ => hgiven.1) rfl rfl
          (fun s' hne => Function.update_of_ne hne _ _) fun hs herror view hview => ?_, trivial,
          ⟨rfl, rfl, rfl, rfl⟩, fun q hne hheld => (hother (by omega) hheld).elim⟩
        rw [Function.update_self] at hview
        obtain rfl := Option.some.inj hview
        exact hcovered hs herror
      · exact ⟨h.requested ⟨rfl, rfl, rfl, rfl⟩ rfl (fun hheld => (hother (Nat.succ_ne_zero p).symm hheld).elim) h.created
          h.covers, trivial, ⟨rfl, rfl, rfl, rfl⟩, fun q hne hheld => (hother (by omega) hheld).elim⟩
    | waiting s =>
      obtain ⟨-, hcalls⟩ := Option.ite_none_right_eq_some.mp hcalls
      obtain ⟨rfl, rfl⟩ := Prod.mk.inj (Option.some.inj hcalls)
      exact ⟨h, trivial, ⟨rfl, rfl, rfl, rfl⟩, fun _ _ hheld => ⟨hheld, rfl⟩⟩
    | idle | subscribed | snapshot | drained => contradiction

end Requests

section Runs
variable {c : LiveConfig} {perUser total pendingLimit s : ℕ} {db : RunTables} {view : View} {id : UUID} {run : RunDetail}

theorem LiveWorld.start_live : (LiveWorld.start perUser total pendingLimit db).Live where
  created := fun s view hview => by cases hview
  serving := fun hup => by cases hup
  fits := trivial
  queued := fun queue hqueue => by cases hqueue
  inHand := fun change hchange => absurd hchange List.not_mem_nil
  fresh := fun run changes hl => by cases hl
  covers := fun s hs => absurd hs (Finset.notMem_empty s)

theorem liveCoverage_established : (liveCoverage.both liveBounds).Established liveFeed (fun _ _ => True)
    ⟨.start perUser total pendingLimit db, fun _ => .idle⟩ := by
  have hproof : liveCoverage.Proof liveBounds liveFeed fun _ _ => True := {
    act := fun p a w l w' l' _ ha hsound hgiven _ h hl => live_act ha h hsound hgiven hl
    stable := fun p q l w w' hne _ hgiven hgrows hkeeps _ hl => by
      obtain ⟨hsame, hreads⟩ := hkeeps
      exact hl.step hgiven hgrows (hreads q hne.symm) fun _ _ _ _ _ _ userId view hcovers => hcovers.congr hsame
    env := fun event w w' _ he hsound h => by
      cases event with
      | listener action => exact h.listen hsound (LiveWorld.listens he)
      | commit writes =>
        obtain ⟨⟨db, changes⟩, hwrites, rfl⟩ := Option.map_eq_some_iff.mp he
        have ha := applyWrites_announced hwrites
        exact ⟨h.committed ha, fun p l hgiven hl => hl.step hgiven (.refl _) (fun hheld => ⟨hheld, rfl⟩)
          fun _ _ _ _ _ _ userId view hcovers => hcovers.committed ha⟩
      | die =>
        obtain rfl := Option.some.inj he
        exact h.died
      | stop =>
        obtain rfl := Option.some.inj he
        exact ⟨⟨h.created, h.serving, h.fits, h.queued, h.inHand, h.fresh, h.covers⟩, fun p l hgiven hl =>
          hl.step hgiven (.refl _) (fun hheld => ⟨hheld, rfl⟩) fun _ _ _ _ _ _ _ _ hcovers => hcovers⟩ }
  exact hproof.established (liveBounds_established perUser total pendingLimit db) ⟨LiveWorld.start_live, fun _ => trivial⟩

theorem LiveWorld.Due.inFlight {w : LiveWorld} {userId : UUID} (h : w.Due userId id) :
    w.InFlight userId id ∨ w.queue = none := by
  cases hqueue : w.queue with
  | none => exact .inr rfl
  | some queue =>
    left
    rcases h with hqueued | hinHand | hsettles
    · exact .inl ⟨queue, hqueue, hqueued queue hqueue⟩
    · exact .inr (.inl hinHand)
    · exact .inr (.inr hsettles)

/-- A connection that has died is not followed by another before `unavailable()`. -/
theorem LiveWorld.Lost.listen {w w' : LiveWorld} (h : w.Lost) (hs : w.Listens w') :
    w'.Lost ∨ w'.feed = w.feed.unavailable := by
  obtain ⟨hnone, hserving⟩ := h
  cases hs with
  | start hl | connect hl | available hl =>
    rw [hl] at hserving
    contradiction
  | unavailable => exact .inr rfl
  | lost listener hl hnext =>
    left
    refine ⟨rfl, ?_⟩
    rcases hnext with rfl | rfl <;> rfl
  | batch | nothing | publish => exact .inl ⟨hnone, rfl⟩
  | notified changes payload queue hl hqueue =>
    rw [hnone] at hqueue
    contradiction
  | run => exact .inl ⟨hnone, Listener.serving_published⟩

/-- Streams whose notifications were lost with the connection are all told. -/
theorem LiveWorld.Lost.step {c' : LiveConfig} {label : Label ℕ FeedAction LiveEvent} (h : c.shared.Lost)
    (hstep : liveFeed.step c label = some c') (hs : s ∈ c.shared.feed.subscriptions) :
    c'.shared.Lost ∨ (c'.shared.feed.object s).error ≠ none := by
  cases label with
  | act p a =>
    obtain ⟨⟨w', l'⟩, ha, rfl⟩ := Option.map_eq_some_iff.mp hstep
    obtain ⟨-, calls, -, rfl⟩ := liveFeed_act ha
    -- Requests leave the connection and the listener as they are.
    left
    unfold LiveWorld.Lost LiveWorld.handed at *
    split <;> exact h
  | env event =>
    obtain ⟨w', he, rfl⟩ := Option.map_eq_some_iff.mp hstep
    cases event with
    | listener action =>
      rcases h.listen (LiveWorld.listens he) with hlost | hfeed
      · exact .inl hlost
      · right
        change (w'.feed.object s).error ≠ none
        rw [hfeed]
        exact RunFeed.unavailable_error hs
    | commit writes =>
      obtain ⟨⟨db, changes⟩, -, rfl⟩ := Option.map_eq_some_iff.mp he
      exact .inl ⟨by rw [LiveWorld.committed, h.1, Option.map_none], h.2⟩
    | die =>
      obtain rfl := Option.some.inj he
      exact .inl ⟨rfl, h.2⟩
    | stop =>
      obtain rfl := Option.some.inj he
      exact .inl h

/-- The live feed loses no update. Whatever is committed, read, taken and drained in whatever order, a stream that has
its snapshot and no error has been handed the current state of a run, or a notification of it is in flight, or the
connection was lost; and that ends with an error of the stream. -/
theorem feed_loses_nothing
    (h : Reachable liveFeed (fun _ _ => True) ⟨.start perUser total pendingLimit db, fun _ => .idle⟩ c)
    (hs : s ∈ c.shared.feed.subscriptions) (herror : (c.shared.feed.object s).error = none)
    (hview : c.shared.views s = some view) :
    (∀ id run, c.shared.db.find id = some run → run.requestedBy = some (c.shared.feed.object s).userId →
      view.Shows c.shared.changes id → view.latest (c.shared.feed.object s).pending id = some run ∨
        c.shared.InFlight (c.shared.feed.object s).userId id ∨ c.shared.Lost) ∧
    (c.shared.Lost → ∀ label c', liveFeed.step c label = some c' →
      c'.shared.Lost ∨ (c'.shared.feed.object s).error ≠ none) := by
  obtain ⟨⟨hlive, hsound⟩, -⟩ := liveCoverage_established.holds c h
  refine ⟨fun id run hfind howner hshows => ?_, fun hlost label c' hstep => hlost.step hstep hs⟩
  rcases hlive.covers s hs herror view hview id run hfind howner hshows with hlatest | hdue
  · exact .inl hlatest
  · rcases hdue.inFlight with hflight | hnone
    · exact .inr (.inl hflight)
    · refine .inr (.inr ⟨hnone, ?_⟩)
      by_contra hdown
      exact (hlive.failed hsound (Bool.eq_false_of_not_eq_true hdown)).2 s hs herror

/-- The run of user 7 is dispatched, and has an output. -/
def dispatching : List RowWrite :=
  [.updateRun ⟨1, 1, some 7, .obj [], "", .running, none, none, some 2, none, none, none, 1⟩,
    .insertArtifact ⟨1, "outputs/result.txt", "", 5⟩]

/-- A stream of user 7 has its snapshot when the run changes, and drains what is delivered. -/
def liveSession : List (Label ℕ FeedAction LiveEvent) :=
  List.replicate 4 (.env (.listener (.run false))) ++ [.act 0 (.call (.subscribe 7)), .act 0 (.call (.snapshot 0))] ++
  List.replicate 3 (.act 0 (.run false)) ++ [.env (.commit dispatching)] ++
  List.replicate 2 (.env (.listener .notified)) ++ List.replicate 6 (.env (.listener (.run false))) ++
  [.act 0 (.call (.drain 0))]

/-- Nothing is in flight, and the stream has no error. -/
def liveSettled (c : LiveConfig) : Bool :=
  match c.shared.listener, c.shared.queue, c.shared.views 0, c.shared.db.find 1 with
  | .batch, some [], some view, some run =>
    0 ∈ c.shared.feed.subscriptions ∧ (c.shared.feed.object 0).error = none ∧
      run.requestedBy = some (c.shared.feed.object 0).userId ∧ run.status = .running ∧ view.since 1 < c.shared.changes 1
  | _, _, _, _ => false

theorem liveSettled_iff (h : liveSettled c = true) : c.shared.listener = .batch ∧ c.shared.queue = some [] ∧
    ∃ view run, c.shared.views 0 = some view ∧ c.shared.db.find 1 = some run ∧ 0 ∈ c.shared.feed.subscriptions ∧
      (c.shared.feed.object 0).error = none ∧ run.requestedBy = some (c.shared.feed.object 0).userId ∧
      run.status = .running ∧ view.since 1 < c.shared.changes 1 := by
  unfold liveSettled at h
  split at h
  · exact ⟨‹_›, ‹_›, _, _, ‹_›, ‹_›, of_decide_eq_true h⟩
  · exact absurd h Bool.false_ne_true

theorem liveSession_settles :
    liveFeed.passes ⟨.start 2 3 1 feedTables, fun _ => .idle⟩ [(liveSession, liveSettled)] = true := by
  decide +kernel

/-- When nothing is in flight, the client has the state with the dispatch and the output. -/
theorem feed_loses_nothing_demo : ∃ (c : LiveConfig) (view : View) (run : RunDetail),
    Reachable liveFeed (fun _ _ => True) ⟨.start 2 3 1 feedTables, fun _ => .idle⟩ c ∧ c.shared.views 0 = some view ∧
    c.shared.db.find 1 = some run ∧ run.status = .running ∧
    view.latest (c.shared.feed.object 0).pending 1 = some run := by
  obtain ⟨c, hrun, hcheck, -⟩ := System.passes_cons liveSession_settles
  have hr : Reachable liveFeed (fun _ _ => True) _ c := reachable_of_run (fun _ _ _ => trivial) hrun
  obtain ⟨hlistener, hqueue, view, run, hview, hfind, hs, herror, howner, hrunning, hshows⟩ := liveSettled_iff hcheck
  refine ⟨c, view, run, hr, hview, hfind, hrunning, ?_⟩
  rcases (feed_loses_nothing hr hs herror hview).1 1 run hfind howner (.inr hshows) with hlatest | hflight | hlost
  · exact hlatest
  · unfold LiveWorld.InFlight at hflight
    rw [hlistener, hqueue] at hflight
    rcases hflight with ⟨queue, hsome, payload, hmem, -⟩ | ⟨owner, hinHand⟩ | hsettles
    · obtain rfl := Option.some.inj hsome
      exact absurd hmem List.not_mem_nil
    · exact absurd hinHand List.not_mem_nil
    · contradiction
  · exact absurd (hqueue.symm.trans hlost.1) (Option.some_ne_none _)

end Runs
end Mic3

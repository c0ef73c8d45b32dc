import Mic3.FeedBounds

/-! No wakeup is lost: a subscription with something for its stream has its event set, or a call of `changed.set`
scheduled that the loop has yet to run. -/
namespace Mic3
open Relational Interleaving

/-- The event is set or will be. -/
def Subscription.Awake {R : Type} (sub : Subscription R) : Prop := sub.changed = true ∨ 0 < sub.scheduled

/-- What one step can do to a subscription. -/
inductive Subscription.Moves {R : Type} [FeedItem R] : Subscription R → Subscription R → Prop where
  | same (sub : Subscription R) : Moves sub sub
  | new (sub : Subscription R) (userId : UUID) : Moves sub ⟨userId, false, 0, .empty, none⟩
  | fail (sub : Subscription R) (code : FeedError) : Moves sub (sub.fail code)
  | deliver (sub : Subscription R) (limit : ℕ) (run : R) : Moves sub (sub.deliver limit run)
  | clear (sub : Subscription R) : Moves sub { sub with pending := .empty }
  | callback (sub : Subscription R) : Moves sub sub.callback

/-- No step is a `drain` that returns an error to the stream of `s`. -/
def NotTold {W R : Type} (s : ℕ) (w : FeedWorld W R) (l : Label ℕ FeedAction W) : Prop :=
  ∀ p, l = .act p (.call (.drain s)) → (w.feed.object s).error = none

section Moves
variable {R : Type} {sub sub' : Subscription R}

theorem Subscription.fail_awake (code : FeedError) (h : sub.error ≠ none → sub.Awake) :
    (sub.fail code).Awake := by
  unfold fail
  split
  · exact .inr (Nat.succ_pos _)
  · exact h ‹_›

variable [FeedItem R]

/-- Only an empty dictionary is filled without a wake, and then the event is still to be set. -/
theorem Subscription.Moves.pending_awake (h : Moves sub sub') (ha : sub.pending.size ≠ 0 → sub.Awake) :
    sub'.pending.size ≠ 0 → sub'.Awake := by
  have hfail (code : FeedError) (hp : (sub.fail code).pending.size ≠ 0) : (sub.fail code).Awake := by
    unfold Subscription.fail at hp ⊢
    split
    · exact .inr (Nat.succ_pos _)
    · rw [if_neg ‹_›] at hp
      exact ha hp
  cases h with
  | same => exact ha
  | new userId => exact fun hp => absurd rfl hp
  | fail code => exact hfail code
  | deliver limit run =>
    intro hp
    unfold Subscription.deliver at hp ⊢
    split
    · rw [if_pos ‹_›] at hp
      exact ha hp
    · rw [if_neg ‹_›] at hp
      split
      · rw [if_pos ‹_›] at hp
        exact hfail _ hp
      · split
        · exact .inr (Nat.succ_pos _)
        · exact ha ‹_›
  | clear => exact fun hp => absurd rfl hp
  | callback => exact fun _ => .inl rfl

theorem Subscription.Moves.error_awake (h : Moves sub sub') (ha : sub.error ≠ none → sub.Awake) :
    sub'.error ≠ none → sub'.Awake := by
  cases h with
  | same => exact ha
  | new userId => exact fun he => absurd rfl he
  | fail code => exact fun _ => Subscription.fail_awake code ha
  | deliver limit run =>
    intro he
    unfold Subscription.deliver at he ⊢
    split
    · rw [if_pos ‹_›] at he
      exact ha he
    · rename_i hfor
      have hnone : sub.error = none := not_not.mp (not_or.mp hfor).1
      rw [if_neg hfor] at he
      split
      · exact Subscription.fail_awake _ ha
      · rw [if_neg ‹_›] at he
        -- a delivery leaves the error as it was
        split at he <;> exact absurd hnone he
  | clear => exact ha
  | callback => exact fun _ => .inl rfl

end Moves

section Runs
variable {W R : Type} [FeedItem R] {store : FeedStore W R} {w w' : FeedWorld W R} {feed feed' : RunFeed R}
  {l l' : FeedThread R} {c c' : Config ℕ (FeedWorld W R) (FeedThread R)} {p s : ℕ}

theorem RunFeed.forEach_moves (feed : RunFeed R) {f : Subscription R → Subscription R}
    (h : ∀ sub : Subscription R, Subscription.Moves sub (f sub)) :
    Subscription.Moves (feed.object s) ((feed.forEach f).object s) := by
  unfold RunFeed.forEach
  dsimp only
  split
  · exact h _
  · exact .same _

theorem RunFeed.update_moves {f : Subscription R → Subscription R} (s' : ℕ)
    (h : Subscription.Moves (feed.object s') (f (feed.object s'))) :
    Subscription.Moves (feed.object s) ((feed.update s' f).object s) := by
  unfold RunFeed.update
  dsimp only
  split
  · rename_i hs
    exact hs ▸ h
  · exact .same _

theorem Publish.step_moves {found : Except FeedRefusal (Option R)} {pc : Pc R} {r : Option (Pc R)}
    (hs : step feed found pc = (feed', r)) : Subscription.Moves (feed.object s) (feed'.object s) := by
  have hsame {r' : Option (Pc R)} (he : (feed, r') = (feed', r)) :
      Subscription.Moves (feed.object s) (feed'.object s) := by
    obtain ⟨rfl, -⟩ := Prod.mk.inj he
    exact .same _
  cases pc with
  | next changes storeFailed =>
    cases changes with
    | nil => exact hsame hs
    | cons change changes =>
      simp only [step] at hs
      split_ifs at hs <;> exact hsame hs
  | resync owner changes =>
    obtain ⟨rfl, -⟩ := Prod.mk.inj hs
    refine RunFeed.forEach_moves _ fun sub => ?_
    split
    · exact .fail sub _
    · exact .same sub
  | find runId owner changes =>
    simp only [step] at hs
    split at hs
    · exact hsame hs
    · exact hsame hs
    · split_ifs at hs <;> exact hsame hs
  | deliver run changes =>
    obtain ⟨rfl, -⟩ := Prod.mk.inj hs
    exact RunFeed.forEach_moves _ fun sub => .deliver sub _ run

theorem feedRun_moves {fails : Bool} (hs : feedRun store p fails w l = some (w', l')) :
    Subscription.Moves (w.feed.object s) (w'.feed.object s) := by
  cases l with
  | publishing changes | snapshotting s' | waiting s' =>
    obtain ⟨-, hs⟩ := Option.ite_none_right_eq_some.mp hs
    obtain ⟨rfl, -⟩ := Prod.mk.inj (Option.some.inj hs)
    exact .same _
  | publish pc =>
    simp only [feedRun] at hs
    split at hs
    all_goals
      rename_i hstep
      obtain ⟨rfl, -⟩ := Prod.mk.inj (Option.some.inj hs)
      exact Publish.step_moves hstep
  | reading s' =>
    simp only [feedRun] at hs
    split at hs <;> obtain ⟨rfl, -⟩ := Prod.mk.inj (Option.some.inj hs) <;> exact .same _
  | read s' result =>
    simp only [feedRun] at hs
    split at hs <;> obtain ⟨rfl, -⟩ := Prod.mk.inj (Option.some.inj hs)
    · rename_i hok
      obtain ⟨-, -, rfl⟩ := RunFeed.finishSnapshot_ok hok
      exact RunFeed.update_moves (f := fun sub => { sub with pending := .empty }) s' (.clear _)
    · exact .same _
  | idle | subscribed | snapshot | drained => contradiction

/-- Every call but a `drain` of the subscription itself. -/
theorem feedCall_moves {call : FeedCall} (hs : feedCall w call = (w', l')) (hcall : call ≠ .drain s) :
    Subscription.Moves (w.feed.object s) (w'.feed.object s) := by
  cases call with
  | subscribe userId =>
    simp only [feedCall] at hs
    split at hs <;> obtain ⟨rfl, -⟩ := Prod.mk.inj hs
    · rename_i hok
      obtain ⟨-, -, -, -, rfl⟩ := RunFeed.subscribe_ok hok
      dsimp only
      split
      · exact .new _ userId
      · exact .same _
    · exact .same _
  | unsubscribe s' | snapshot s' | publish changes | wait s' | available =>
    obtain ⟨rfl, -⟩ := Prod.mk.inj hs
    exact .same _
  | drain s' =>
    obtain ⟨rfl, -⟩ := Prod.mk.inj hs
    have hne : s ≠ s' := fun he => hcall (he ▸ rfl)
    have hother : (w.feed.drain s').1.object s = w.feed.object s := if_neg hne
    exact hother ▸ .same _
  | unavailable =>
    obtain ⟨rfl, -⟩ := Prod.mk.inj hs
    exact RunFeed.forEach_moves { w.feed with isAvailable := false } fun sub => .fail sub _

/-- A step moves a subscription, or it is a `drain` of it. -/
theorem feed_step_moves {l : Label ℕ FeedAction W} (hs : (feedCalls store).step c l = some c') (s : ℕ) :
    Subscription.Moves (c.shared.feed.object s) (c'.shared.feed.object s) ∨
      (∃ p, l = .act p (.call (.drain s))) ∧ c'.shared.feed.object s = (c.shared.feed.object s).drained := by
  cases l with
  | env db =>
    obtain rfl := Option.some.inj hs
    exact .inl (.same _)
  | act p a =>
    obtain ⟨⟨w', l'⟩, ha, rfl⟩ := Option.map_eq_some_iff.mp hs
    cases a with
    | call call =>
      obtain ⟨-, ha⟩ := Option.ite_none_right_eq_some.mp ha
      by_cases hcall : call = .drain s
      · subst hcall
        obtain ⟨rfl, -⟩ := Prod.mk.inj (Option.some.inj ha)
        exact .inr ⟨⟨p, rfl⟩, if_pos rfl⟩
      · exact .inl (feedCall_moves (Option.some.inj ha) hcall)
    | run fails => exact .inl (feedRun_moves ha)
    | callback s' =>
      obtain ⟨-, ha⟩ := Option.ite_none_right_eq_some.mp ha
      obtain ⟨rfl, -⟩ := Prod.mk.inj (Option.some.inj ha)
      exact .inl (RunFeed.update_moves s' (.callback _))

/-- One step keeps both: a `drain` empties what is pending, and returns an error only when it may. -/
theorem feed_step_awake {l : Label ℕ FeedAction W} (hs : (feedCalls store).step c l = some c') :
    (((c.shared.feed.object s).pending.size ≠ 0 → (c.shared.feed.object s).Awake) →
      (c'.shared.feed.object s).pending.size ≠ 0 → (c'.shared.feed.object s).Awake) ∧
    (NotTold s c.shared l → ((c.shared.feed.object s).error ≠ none → (c.shared.feed.object s).Awake) →
      (c'.shared.feed.object s).error ≠ none → (c'.shared.feed.object s).Awake) := by
  rcases feed_step_moves hs s with hmoves | ⟨⟨p, hl⟩, hdrained⟩
  · exact ⟨hmoves.pending_awake, fun _ => hmoves.error_awake⟩
  · rw [hdrained]
    exact ⟨fun _ hp => absurd rfl hp, fun htold _ he => absurd (htold p hl) he⟩

/-- Whatever threads, loop and streams do, in any order: what is there for a stream has set its event, or has a
call of `changed.set` scheduled; so no stream waits for an event that nothing will set. -/
theorem no_lost_wakeup {perUser total pendingLimit : ℕ} {db : W}
    (h : Reachable (feedCalls store) (fun _ _ => True)
      ⟨⟨RunFeed.init perUser total pendingLimit, none, db⟩, fun _ => .idle⟩ c) (s : ℕ) :
    ((c.shared.feed.object s).pending.size ≠ 0 → (c.shared.feed.object s).Awake) ∧
    (Reachable (feedCalls store) (NotTold s)
        ⟨⟨RunFeed.init perUser total pendingLimit, none, db⟩, fun _ => .idle⟩ c →
      (c.shared.feed.object s).error ≠ none → (c.shared.feed.object s).Awake) ∧
    ∀ p, c.procs p = .waiting s → (c.shared.feed.object s).changed = false →
      (c.shared.feed.object s).scheduled = 0 →
      (c.shared.feed.object s).pending.size = 0 ∧
      (Reachable (feedCalls store) (NotTold s)
          ⟨⟨RunFeed.init perUser total pendingLimit, none, db⟩, fun _ => .idle⟩ c →
        (c.shared.feed.object s).error = none) := by
  have hpending : (c.shared.feed.object s).pending.size ≠ 0 → (c.shared.feed.object s).Awake :=
    h.invariant (fun c => (c.shared.feed.object s).pending.size ≠ 0 → (c.shared.feed.object s).Awake)
      (fun hp => absurd rfl hp) fun _ _ _ _ ih _ hs => (feed_step_awake hs).1 ih
  have herror (h : Reachable (feedCalls store) (NotTold s)
      ⟨⟨RunFeed.init perUser total pendingLimit, none, db⟩, fun _ => .idle⟩ c) :
      (c.shared.feed.object s).error ≠ none → (c.shared.feed.object s).Awake :=
    h.invariant (fun c => (c.shared.feed.object s).error ≠ none → (c.shared.feed.object s).Awake)
      (fun he => absurd rfl he) fun _ _ _ _ ih hok hs => (feed_step_awake hs).2 hok ih
  refine ⟨hpending, herror, fun p _ hclear hnone => ?_⟩
  have hasleep : ¬ (c.shared.feed.object s).Awake := by
    rintro (hset | hscheduled)
    · exact absurd (hset.symm.trans hclear) Bool.true_eq_false.mp
    · omega
  exact ⟨not_not.mp fun hp => hasleep (hpending hp), fun h => not_not.mp fun he => hasleep (herror h he)⟩

/-- A stream of user 7 waits while the run is delivered; the event is not set yet. -/
def waitingSession : List (Label ℕ FeedAction RunTables) :=
  [.act 0 (.call .available), .act 1 (.call (.subscribe 7)), .act 1 (.call (.wait 0)),
    .act 0 (.call (.publish [(1, none)]))] ++ List.replicate 4 (.act 0 (.run false))

theorem no_lost_wakeup_waiting : ∃ c : Config ℕ (FeedWorld RunTables RunDetail) (FeedThread RunDetail),
    Reachable (feedCalls sqlRunFeed) (fun _ _ => True)
      ⟨⟨RunFeed.init 2 3 1, none, feedTables⟩, fun _ => .idle⟩ c ∧
    (c.shared.feed.object 0).changed = false ∧ 0 < (c.shared.feed.object 0).scheduled := by
  have hpasses : (feedCalls sqlRunFeed).passes ⟨⟨RunFeed.init 2 3 1, none, feedTables⟩, fun _ => .idle⟩
      [(waitingSession, fun c => (c.shared.feed.object 0).changed = false ∧
        (c.shared.feed.object 0).pending.size ≠ 0)] = true := by decide +kernel
  obtain ⟨c, hrun, hcheck, -⟩ := System.passes_cons hpasses
  obtain ⟨hclear, hp⟩ := of_decide_eq_true hcheck
  have hr : Reachable (feedCalls sqlRunFeed) (fun _ _ => True) _ c := reachable_of_run (fun _ _ _ => trivial) hrun
  rcases (no_lost_wakeup hr 0).1 hp with hset | hscheduled
  · exact absurd (hset.symm.trans hclear) Bool.true_eq_false.mp
  · exact ⟨c, hr, hclear, hscheduled⟩

end Runs
end Mic3

import Mic3.Feed

/-! What each section of the feed preserves. -/
namespace Mic3
open Relational

variable {R : Type}

section Sections
variable {sub : Subscription R} {feed feed' : RunFeed R} {limit : ℕ} {run : R} {s : ℕ}

@[simp] theorem Subscription.fail_userId (code : FeedError) : (sub.fail code).userId = sub.userId := by
  unfold Subscription.fail
  split <;> rfl

theorem Subscription.fail_error (code : FeedError) : (sub.fail code).error ≠ none := by
  unfold Subscription.fail
  split
  · exact Option.some_ne_none _
  · assumption

theorem Subscription.fail_of_error {code : FeedError} (h : sub.error ≠ none) : sub.fail code = sub := if_neg h

/-- Afterwards every stream that is served has failed. -/
theorem RunFeed.unavailable_error (hs : s ∈ feed.subscriptions) : (feed.unavailable.object s).error ≠ none := by
  have hobject : feed.unavailable.object s = (feed.object s).fail .unavailable := if_pos hs
  rw [hobject]
  exact Subscription.fail_error _

/-- What `subscribe` gives: a new object within both limits, while the feed is available. -/
theorem RunFeed.subscribe_ok {userId : UUID} (h : feed.subscribe userId = .ok (feed', s)) :
    feed.isAvailable = true ∧ feed.subscriptions.card < feed.total ∧
      (feed.subscriptions.filter fun s => (feed.object s).userId = userId).card < feed.perUser ∧
      s = feed.created ∧ feed' = { feed with
        subscriptions := insert feed.created feed.subscriptions
        created := feed.created + 1
        object := fun s => if s = feed.created then ⟨userId, false, 0, .empty, none⟩ else feed.object s } := by
  unfold RunFeed.subscribe at h
  split at h
  · contradiction
  rename_i hup
  split at h
  · contradiction
  rename_i hroom
  obtain ⟨htotal, hown⟩ := not_or.mp hroom
  obtain ⟨rfl, rfl⟩ := Prod.mk.inj (Except.ok.inj h)
  exact ⟨not_not.mp hup, not_le.mp htotal, not_le.mp hown, rfl, rfl⟩

theorem RunFeed.finishSnapshot_ok (h : feed.finishSnapshot s = .ok feed') : (feed.object s).error = none ∧
    feed.isAvailable = true ∧ feed' = feed.update s fun sub => { sub with pending := .empty } := by
  unfold RunFeed.finishSnapshot at h
  split at h
  · contradiction
  · rename_i hok
    obtain ⟨herror, hup⟩ := not_or.mp hok
    exact ⟨not_not.mp herror, not_not.mp hup, (Except.ok.inj h).symm⟩

def RunFeed.SameLimits (feed feed' : RunFeed R) : Prop :=
  feed'.total = feed.total ∧ feed'.perUser = feed.perUser ∧ feed'.pendingLimit = feed.pendingLimit

/-- What no section changes: the limits, who an object is for, and its first error. -/
structure RunFeed.Grows (feed feed' : RunFeed R) : Prop where
  limits : feed.SameLimits feed'
  created : feed.created ≤ feed'.created
  userId : ∀ s < feed.created, (feed'.object s).userId = (feed.object s).userId
  error : ∀ s < feed.created, ∀ code, (feed.object s).error = some code → (feed'.object s).error = some code
  members : ∀ s ∈ feed'.subscriptions, s ∈ feed.subscriptions ∨ s = feed.created

theorem RunFeed.SameLimits.trans {feed'' : RunFeed R} (h : feed.SameLimits feed') (h' : feed'.SameLimits feed'') :
    feed.SameLimits feed'' :=
  ⟨h'.1.trans h.1, h'.2.1.trans h.2.1, h'.2.2.trans h.2.2⟩

theorem RunFeed.Grows.refl (feed : RunFeed R) : feed.Grows feed :=
  ⟨⟨rfl, rfl, rfl⟩, le_rfl, fun _ _ => rfl, fun _ _ _ => id, fun _ => .inl⟩

variable [FeedItem R]

/-- A subscription within its bound, whose runs are its user's, and which after an error has none. -/
structure Subscription.Sound (limit : ℕ) (sub : Subscription R) : Prop where
  bounded : sub.pending.size ≤ limit
  failed : sub.error ≠ none → sub.pending = .empty
  owned : ∀ k r, sub.pending.get? k = some r → FeedItem.id r = k ∧ FeedItem.requestedBy r = some sub.userId

structure RunFeed.Sound (feed : RunFeed R) : Prop where
  total : feed.subscriptions.card ≤ feed.total
  perUser : ∀ userId, (feed.subscriptions.filter fun s => (feed.object s).userId = userId).card ≤ feed.perUser
  created : ∀ s ∈ feed.subscriptions, s < feed.created
  sound : ∀ s, (feed.object s).Sound feed.pendingLimit
  down : feed.isAvailable = false → ∀ s ∈ feed.subscriptions, (feed.object s).error ≠ none

theorem Subscription.sound_of_empty (h : sub.pending = .empty) : sub.Sound limit :=
  ⟨h ▸ Nat.zero_le _, fun _ => h, fun _ _ hr => absurd (h ▸ hr) (Option.not_mem_none _)⟩

theorem Subscription.Sound.fail (h : sub.Sound limit) (code : FeedError) : (sub.fail code).Sound limit := by
  unfold Subscription.fail
  split
  · exact Subscription.sound_of_empty rfl
  · exact h

theorem Subscription.deliver_userId : (sub.deliver limit run).userId = sub.userId := by
  unfold Subscription.deliver
  split
  · rfl
  · split
    · exact Subscription.fail_userId _
    · split <;> rfl

theorem Subscription.deliver_of_error (h : sub.error ≠ none) : sub.deliver limit run = sub := if_pos (.inl h)

theorem Subscription.Sound.deliver (h : sub.Sound limit) : (sub.deliver limit run).Sound limit := by
  unfold Subscription.deliver
  split
  · exact h
  rename_i hfor
  obtain ⟨herror, howner⟩ := not_or.mp hfor
  split
  · exact h.fail _
  rename_i hroom
  have hput : (sub.put run).Sound limit := by
    refine ⟨?_, fun hfailed => absurd hfailed herror, fun k r hr => ?_⟩
    · change (sub.pending.set (FeedItem.id run) run).size ≤ limit
      by_cases hmem : FeedItem.id run ∈ sub.pending.keys
      · rw [Dict.size_set_of_mem hmem]
        exact h.bounded
      · have hspace : sub.pending.size < limit := not_le.mp fun hfull => hroom ⟨hmem, hfull⟩
        rw [Dict.size_set_of_notMem hmem]
        omega
    · have hr : (sub.pending.set (FeedItem.id run) run).get? k = some r := hr
      rw [Dict.get?_set] at hr
      split at hr
      · obtain rfl := Option.some.inj hr
        exact ⟨Eq.symm ‹_›, not_not.mp howner⟩
      · exact h.owned k r hr
  split
  · exact ⟨hput.bounded, hput.failed, hput.owned⟩
  · exact hput

/-- A section that does something to each subscription that it serves. -/
theorem RunFeed.Sound.forEach {f : Subscription R → Subscription R} (h : feed.Sound)
    (hsound : ∀ sub : Subscription R, sub.Sound feed.pendingLimit → (f sub).Sound feed.pendingLimit)
    (huser : ∀ sub, (f sub).userId = sub.userId)
    (herror : ∀ sub code, sub.error = some code → (f sub).error = some code) :
    (feed.forEach f).Sound ∧ feed.Grows (feed.forEach f) := by
  have hobject (s : ℕ) : ((feed.forEach f).object s).userId = (feed.object s).userId := by
    unfold RunFeed.forEach
    dsimp only
    split
    · exact huser _
    · rfl
  have hkept (s : ℕ) (code : FeedError) (he : (feed.object s).error = some code) :
      ((feed.forEach f).object s).error = some code := by
    unfold RunFeed.forEach
    dsimp only
    split
    · exact herror _ code he
    · exact he
  refine ⟨⟨h.total, fun userId => ?_, h.created, fun s => ?_, fun hdown s hs => ?_⟩,
    ⟨⟨rfl, rfl, rfl⟩, le_rfl, fun s _ => hobject s, fun s _ => hkept s, fun s => .inl⟩⟩
  · simp only [hobject]
    exact h.perUser userId
  · unfold RunFeed.forEach
    dsimp only
    split
    · exact hsound _ (h.sound s)
    · exact h.sound s
  · obtain ⟨code, hcode⟩ := Option.ne_none_iff_exists'.mp (h.down hdown s hs)
    rw [hkept s code hcode]
    exact Option.some_ne_none _

/-- A section that does something to one subscription. -/
theorem RunFeed.Sound.update {f : Subscription R → Subscription R} (h : feed.Sound) (s : ℕ)
    (hsound : (f (feed.object s)).Sound feed.pendingLimit)
    (huser : (f (feed.object s)).userId = (feed.object s).userId)
    (herror : (f (feed.object s)).error = (feed.object s).error) :
    (feed.update s f).Sound ∧ feed.Grows (feed.update s f) := by
  have hobject (s' : ℕ) : ((feed.update s f).object s').userId = (feed.object s').userId ∧
      ((feed.update s f).object s').error = (feed.object s').error := by
    unfold RunFeed.update
    dsimp only
    split
    · rename_i hs
      rw [hs]
      exact ⟨huser, herror⟩
    · exact ⟨rfl, rfl⟩
  refine ⟨⟨h.total, fun userId => ?_, h.created, fun s' => ?_, fun hdown s' hs => ?_⟩,
    ⟨⟨rfl, rfl, rfl⟩, le_rfl, fun s' _ => (hobject s').1, fun s' _ code he => (hobject s').2.trans he, fun s' => .inl⟩⟩
  · simp only [hobject]
    exact h.perUser userId
  · unfold RunFeed.update
    dsimp only
    split
    · exact hsound
    · exact h.sound s'
  · rw [(hobject s').2]
    exact h.down hdown s' hs

theorem RunFeed.Sound.available (h : feed.Sound) : feed.available.Sound ∧ feed.Grows feed.available :=
  ⟨⟨h.total, h.perUser, h.created, h.sound, fun hdown => absurd hdown.symm Bool.false_ne_true⟩,
    ⟨⟨rfl, rfl, rfl⟩, le_rfl, fun _ _ => rfl, fun _ _ _ => id, fun _ => .inl⟩⟩

theorem RunFeed.Sound.unavailable (h : feed.Sound) : feed.unavailable.Sound ∧ feed.Grows feed.unavailable := by
  obtain ⟨hsound, hgrows⟩ := h.forEach (f := Subscription.fail .unavailable) (fun _ hs => hs.fail _)
    (fun _ => Subscription.fail_userId _) fun sub code he => by
      rw [Subscription.fail_of_error (he ▸ Option.some_ne_none code)]
      exact he
  exact ⟨⟨hsound.total, hsound.perUser, hsound.created, hsound.sound, fun _ s hs => RunFeed.unavailable_error hs⟩,
    ⟨hgrows.limits, hgrows.created, hgrows.userId, hgrows.error, hgrows.members⟩⟩

theorem RunFeed.Sound.subscribe (h : feed.Sound) {userId : UUID} (hs : feed.subscribe userId = .ok (feed', s)) :
    feed'.Sound ∧ feed.Grows feed' := by
  obtain ⟨hup, htotal, hown, -, rfl⟩ := RunFeed.subscribe_ok hs
  have hnew : feed.created ∉ feed.subscriptions := fun hmem => absurd (h.created _ hmem) (lt_irrefl _)
  have hold {s : ℕ} (hs : s ∈ feed.subscriptions) : s ≠ feed.created := fun he => hnew (he ▸ hs)
  refine ⟨⟨?_, fun user => ?_, fun s hs => ?_, fun s => ?_, fun hdown => ?_⟩,
    ⟨⟨rfl, rfl, rfl⟩, Nat.le_succ _, fun s hs => ?_, fun s hs code he => ?_, fun s hs => ?_⟩⟩
  · change (insert feed.created feed.subscriptions).card ≤ feed.total
    rw [Finset.card_insert_of_notMem hnew]
    omega
  · -- The streams of a user are those there were and, for the subscriber, the new one.
    have hcount (P : UUID → Prop) [DecidablePred P] :
        ((insert feed.created feed.subscriptions).filter fun s =>
          P (if s = feed.created then (⟨userId, false, 0, .empty, none⟩ : Subscription R) else feed.object s).userId) =
        if P userId then insert feed.created (feed.subscriptions.filter fun s => P (feed.object s).userId)
        else feed.subscriptions.filter fun s => P (feed.object s).userId := by
      rw [Finset.filter_insert, if_pos rfl]
      have hsame : (feed.subscriptions.filter fun s =>
          P (if s = feed.created then (⟨userId, false, 0, .empty, none⟩ : Subscription R) else feed.object s).userId) =
          feed.subscriptions.filter fun s => P (feed.object s).userId :=
        Finset.filter_congr fun s hs => by rw [if_neg (hold hs)]
      rw [hsame]
    change ((insert feed.created feed.subscriptions).filter fun s =>
      (if s = feed.created then (⟨userId, false, 0, .empty, none⟩ : Subscription R) else feed.object s).userId = user).card
        ≤ feed.perUser
    rw [hcount (· = user)]
    split
    · rename_i huser
      subst huser
      have hcard := Finset.card_insert_le feed.created
        (feed.subscriptions.filter fun s => (feed.object s).userId = userId)
      omega
    · exact h.perUser user
  · rcases Finset.mem_insert.mp hs with rfl | hs
    · exact Nat.lt_succ_self _
    · exact (h.created s hs).trans (Nat.lt_succ_self _)
  · dsimp only
    split
    · exact Subscription.sound_of_empty rfl
    · exact h.sound s
  · exact absurd (hdown.symm.trans hup) Bool.false_ne_true
  · exact congrArg _ (if_neg hs.ne)
  · exact (congrArg _ (if_neg hs.ne)).trans he
  · exact (Finset.mem_insert.mp hs).symm

theorem RunFeed.Sound.unsubscribe (h : feed.Sound) (s : ℕ) :
    (feed.unsubscribe s).Sound ∧ feed.Grows (feed.unsubscribe s) := by
  have hsub : feed.subscriptions.erase s ⊆ feed.subscriptions := Finset.erase_subset _ _
  refine ⟨⟨(Finset.card_le_card hsub).trans h.total, fun userId => ?_, fun s' hs => h.created s' (hsub hs), h.sound,
    fun hdown s' hs => h.down hdown s' (hsub hs)⟩,
    ⟨⟨rfl, rfl, rfl⟩, le_rfl, fun _ _ => rfl, fun _ _ _ => id, fun s' hs => .inl (hsub hs)⟩⟩
  exact (Finset.card_le_card (Finset.filter_subset_filter _ hsub)).trans (h.perUser userId)

theorem RunFeed.Sound.finishSnapshot (h : feed.Sound) (hs : feed.finishSnapshot s = .ok feed') :
    feed'.Sound ∧ feed.Grows feed' := by
  obtain ⟨-, -, rfl⟩ := RunFeed.finishSnapshot_ok hs
  exact h.update s (Subscription.sound_of_empty rfl) rfl rfl

theorem RunFeed.Sound.callback (h : feed.Sound) (s : ℕ) : (feed.callback s).Sound ∧ feed.Grows (feed.callback s) :=
  h.update s ⟨(h.sound s).bounded, (h.sound s).failed, (h.sound s).owned⟩ rfl rfl

theorem RunFeed.Sound.drain (h : feed.Sound) (s : ℕ) : (feed.drain s).1.Sound ∧ feed.Grows (feed.drain s).1 :=
  h.update s (Subscription.sound_of_empty rfl) rfl rfl

theorem RunFeed.Sound.deliver (h : feed.Sound) (run : R) :
    (feed.deliver run).Sound ∧ feed.Grows (feed.deliver run) :=
  h.forEach (fun _ => Subscription.Sound.deliver) (fun _ => Subscription.deliver_userId) fun sub code he => by
    rw [Subscription.deliver_of_error (he ▸ Option.some_ne_none code)]
    exact he

theorem RunFeed.Sound.resync (h : feed.Sound) (owner : Option UUID) :
    (feed.resync owner).Sound ∧ feed.Grows (feed.resync owner) := by
  refine h.forEach (fun sub hs => ?_) (fun sub => ?_) fun sub code he => ?_
  · split
    · exact hs.fail _
    · exact hs
  · split
    · exact Subscription.fail_userId _
    · rfl
  · split
    · rw [Subscription.fail_of_error (he ▸ Option.some_ne_none code)]
      exact he
    · exact he

/-- Every section of `publish`, whatever the store returns. -/
theorem Publish.step_sound (h : feed.Sound) {found : Except FeedRefusal (Option R)} {pc : Pc R} {r : Option (Pc R)}
    (hs : step feed found pc = (feed', r)) : feed'.Sound ∧ feed.Grows feed' := by
  have hsame {r' : Option (Pc R)} (he : (feed, r') = (feed', r)) : feed'.Sound ∧ feed.Grows feed' := by
    obtain ⟨rfl, -⟩ := Prod.mk.inj he
    exact ⟨h, .refl feed⟩
  cases pc with
  | next changes storeFailed =>
    cases changes with
    | nil => exact hsame hs
    | cons change changes =>
      simp only [step] at hs
      split_ifs at hs <;> exact hsame hs
  | resync owner changes =>
    obtain ⟨rfl, -⟩ := Prod.mk.inj hs
    exact h.resync owner
  | find runId owner changes =>
    simp only [step] at hs
    split at hs
    · exact hsame hs
    · exact hsame hs
    · split_ifs at hs <;> exact hsame hs
  | deliver run changes =>
    obtain ⟨rfl, -⟩ := Prod.mk.inj hs
    exact h.deliver run

end Sections
end Mic3

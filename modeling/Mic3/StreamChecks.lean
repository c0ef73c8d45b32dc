import Mic3.Lib.Trace
import Mic3.Streams

/-! What a stream sends has passed a check of its user's access that began after the last of it was read, and
nothing follows its error. -/
namespace Mic3
open Relational Interleaving Trace

section Contents
variable {W R : Type} {P : R → Prop}

/-- Every state that is pending is one of `P`. -/
def Subscription.Carries (P : R → Prop) (sub : Subscription R) : Prop := ∀ run ∈ sub.pending.values, P run

def RunFeed.Carries (P : R → Prop) (feed : RunFeed R) : Prop := ∀ s, (feed.object s).Carries P

/-- The same of what a thread has in its hands. -/
def FeedThread.Carries (P : R → Prop) : FeedThread R → Prop
  | .publish (.deliver run _) => P run
  | .read _ result | .snapshot _ (.ok result) | .drained _ _ result => ∀ run ∈ result, P run
  | _ => True

theorem Subscription.carries_empty {sub : Subscription R} (h : sub.pending = .empty) : sub.Carries P := by
  intro run hrun
  rw [h] at hrun
  contradiction

theorem Subscription.Carries.fail {sub : Subscription R} (h : sub.Carries P) (code : FeedError) :
    (sub.fail code).Carries P := by
  unfold Subscription.fail
  split
  · exact Subscription.carries_empty rfl
  · exact h

theorem RunFeed.Carries.forEach {feed : RunFeed R} {f : Subscription R → Subscription R} (h : feed.Carries P)
    (hf : ∀ sub : Subscription R, sub.Carries P → (f sub).Carries P) : (feed.forEach f).Carries P := by
  intro s
  unfold RunFeed.forEach
  dsimp only
  split
  · exact hf _ (h s)
  · exact h s

theorem RunFeed.Carries.update {feed : RunFeed R} {f : Subscription R → Subscription R} (h : feed.Carries P) (s : ℕ)
    (hf : (f (feed.object s)).Carries P) : (feed.update s f).Carries P := by
  intro s'
  unfold RunFeed.update
  dsimp only
  split
  · exact hf
  · exact h s'

theorem RunFeed.Carries.drain {feed : RunFeed R} (h : feed.Carries P) (s : ℕ) : (feed.drain s).1.Carries P :=
  h.update s (Subscription.carries_empty rfl)

theorem RunFeed.Carries.subscribe {feed feed' : RunFeed R} {userId : UUID} {s : ℕ} (h : feed.Carries P)
    (hs : feed.subscribe userId = .ok (feed', s)) : feed'.Carries P := by
  obtain ⟨-, -, -, -, rfl⟩ := RunFeed.subscribe_ok hs
  intro s'
  dsimp only
  split
  · exact Subscription.carries_empty rfl
  · exact h s'

variable {store : FeedStore W R} {w w' : FeedWorld W R} {l l' : FeedThread R}

theorem RunFeed.Carries.resync {feed : RunFeed R} (h : feed.Carries P) (owner : Option UUID) :
    (feed.resync owner).Carries P := by
  refine h.forEach fun sub hsub => ?_
  split
  · exact hsub.fail _
  · exact hsub

/-- A call puts nothing into the feed. -/
theorem feedCall_carries (h : w.feed.Carries P) {call : FeedCall} (hs : feedCall w call = (w', l')) :
    w'.feed.Carries P ∧ l'.Carries P ∧ w'.db = w.db := by
  cases call with
  | subscribe userId =>
    simp only [feedCall] at hs
    split at hs
    · rename_i feed s hok
      obtain ⟨rfl, rfl⟩ := Prod.mk.inj hs
      exact ⟨h.subscribe hok, trivial, rfl⟩
    · obtain ⟨rfl, rfl⟩ := Prod.mk.inj hs
      exact ⟨h, trivial, rfl⟩
  | drain s =>
    obtain ⟨rfl, rfl⟩ := Prod.mk.inj hs
    exact ⟨h.drain s, h s, rfl⟩
  | unavailable =>
    obtain ⟨rfl, rfl⟩ := Prod.mk.inj hs
    have hdown : ({ w.feed with isAvailable := false } : RunFeed R).Carries P := h
    exact ⟨hdown.forEach fun _ hsub => hsub.fail _, trivial, rfl⟩
  | unsubscribe | snapshot | publish | wait | available =>
    obtain ⟨rfl, rfl⟩ := Prod.mk.inj hs
    exact ⟨h, trivial, rfl⟩

variable [FeedItem R]

theorem Subscription.Carries.deliver {sub : Subscription R} {run : R} (h : sub.Carries P) (hrun : P run) (limit : ℕ) :
    (sub.deliver limit run).Carries P := by
  have hput : (sub.put run).Carries P := by
    intro r hr
    obtain ⟨k, hk⟩ := Dict.mem_values.mp hr
    have hk : (sub.pending.set (FeedItem.id run) run).get? k = some r := hk
    rw [Dict.get?_set] at hk
    split at hk
    · obtain rfl := Option.some.inj hk
      exact hrun
    · exact h r (Dict.mem_values.mpr ⟨k, hk⟩)
  unfold Subscription.deliver
  split
  · exact h
  split
  · exact h.fail _
  split
  · exact hput
  · exact hput

/-- A section of `publish` delivers what the store has found. -/
theorem Publish.step_carries {feed feed' : RunFeed R} {found : Except FeedRefusal (Option R)} {pc : Pc R}
    {r : Option (Pc R)} (h : feed.Carries P) (hl : (FeedThread.publish pc).Carries P)
    (hfound : ∀ run, found = .ok (some run) → P run) (hs : step feed found pc = (feed', r)) :
    feed'.Carries P ∧ ∀ pc', r = some pc' → (FeedThread.publish pc').Carries P := by
  have hsame {r' : Option (Pc R)} (hr : ∀ pc', r' = some pc' → (FeedThread.publish pc').Carries P)
      (he : (feed, r') = (feed', r)) :
      feed'.Carries P ∧ ∀ pc', r = some pc' → (FeedThread.publish pc').Carries P := by
    obtain ⟨rfl, rfl⟩ := Prod.mk.inj he
    exact ⟨h, hr⟩
  cases pc with
  | next changes storeFailed =>
    cases changes with
    | nil => exact hsame (fun _ he => by cases he) hs
    | cons change changes =>
      simp only [step] at hs
      split_ifs at hs
      all_goals exact hsame (fun _ he => by cases he <;> trivial) hs
  | resync owner changes =>
    obtain ⟨rfl, rfl⟩ := Prod.mk.inj hs
    exact ⟨h.resync owner, fun _ he => by cases he; trivial⟩
  | find runId owner changes =>
    simp only [step] at hs
    split at hs
    · exact hsame (fun _ he => by cases he; trivial) hs
    · exact hsame (fun _ he => by cases he; trivial) hs
    · rename_i run
      split_ifs at hs
      · exact hsame (fun _ he => by cases he; trivial) hs
      · exact hsame (fun _ he => by cases he; exact hfound run rfl) hs
  | deliver run changes =>
    obtain ⟨rfl, rfl⟩ := Prod.mk.inj hs
    exact ⟨h.forEach fun sub hsub => hsub.deliver hl _, fun _ he => by cases he; trivial⟩

/-- What a section puts into the feed or gives a thread was read from the store. -/
theorem feedRun_carries (hfind : ∀ id run, store.find w.db id = some run → P run)
    (hsnapshot : ∀ userId, ∀ run ∈ store.snapshot w.db userId, P run) (h : w.feed.Carries P) (hl : l.Carries P)
    {p : ℕ} {fails : Bool} (hs : feedRun store p fails w l = some (w', l')) :
    w'.feed.Carries P ∧ l'.Carries P ∧ w'.db = w.db := by
  cases l with
  | publishing changes =>
    obtain ⟨-, hs⟩ := Option.ite_none_right_eq_some.mp hs
    obtain ⟨rfl, rfl⟩ := Prod.mk.inj (Option.some.inj hs)
    exact ⟨h, trivial, rfl⟩
  | publish pc =>
    simp only [feedRun] at hs
    split at hs
    all_goals
      rename_i hstep
      obtain ⟨rfl, rfl⟩ := Prod.mk.inj (Option.some.inj hs)
      have hkept := Publish.step_carries h hl (fun run hfound => by
        -- What is found is what the store has found.
        split at hfound
        · split at hfound
          · cases hfound
          · exact hfind _ run (Except.ok.inj hfound)
        · cases hfound) hstep
    · exact ⟨hkept.1, hkept.2 _ rfl, rfl⟩
    · exact ⟨hkept.1, trivial, rfl⟩
  | snapshotting s =>
    obtain ⟨-, hs⟩ := Option.ite_none_right_eq_some.mp hs
    obtain ⟨rfl, rfl⟩ := Prod.mk.inj (Option.some.inj hs)
    exact ⟨h, trivial, rfl⟩
  | reading s =>
    simp only [feedRun] at hs
    split at hs <;> obtain ⟨rfl, rfl⟩ := Prod.mk.inj (Option.some.inj hs)
    · exact ⟨h, trivial, rfl⟩
    · exact ⟨h, hsnapshot _, rfl⟩
  | read s result =>
    simp only [feedRun] at hs
    split at hs <;> obtain ⟨rfl, rfl⟩ := Prod.mk.inj (Option.some.inj hs)
    · rename_i hok
      obtain ⟨-, -, rfl⟩ := RunFeed.finishSnapshot_ok hok
      have hcleared : ({ w.feed.object s with pending := .empty } : Subscription R).Carries P :=
        Subscription.carries_empty rfl
      exact ⟨h.update (f := fun sub => { sub with pending := .empty }) s hcleared, hl, rfl⟩
    · exact ⟨h, trivial, rfl⟩
  | waiting s =>
    obtain ⟨-, hs⟩ := Option.ite_none_right_eq_some.mp hs
    obtain ⟨rfl, rfl⟩ := Prod.mk.inj (Option.some.inj hs)
    exact ⟨h, trivial, rfl⟩
  | idle | subscribed | snapshot | drained => contradiction

end Contents

section Events
variable {R : Type}

/-- Since then no states of runs were read. -/
def StreamEvent.KeepsBatch : StreamEvent R → Prop
  | .read _ => False
  | _ => True

/-- Nor did a check begin. -/
def StreamEvent.KeepsCheck : StreamEvent R → Prop
  | .read _ | .checkStarted => False
  | _ => True

/-- These are the states that were read last. -/
def BatchRead (runs : List R) : List (StreamEvent R) → Prop :=
  Since StreamEvent.KeepsBatch (· = .read runs) fun _ => True

/-- Then `access_error` began. -/
def CheckStarted (runs : List R) : List (StreamEvent R) → Prop :=
  Since StreamEvent.KeepsCheck (· = .checkStarted) (BatchRead runs)

/-- And it returned `None`. -/
def CheckPassed (runs : List R) : List (StreamEvent R) → Prop :=
  Since StreamEvent.KeepsCheck (· = .checked none) (CheckStarted runs)

/-- After they were read, the token had not expired. -/
def ReadInTime (expiresAt : ℚ) (runs : List R) : List (StreamEvent R) → Prop :=
  Since StreamEvent.KeepsBatch (∃ now < expiresAt, · = .clock now) (BatchRead runs)

theorem BatchRead.inTime {runs : List R} {trace : List (StreamEvent R)} {expiresAt now : ℚ} (h : BatchRead runs trace)
    (hnow : ¬ expiresAt ≤ now) : ReadInTime expiresAt runs (.clock now :: trace) :=
  Since.now ⟨now, not_le.mp hnow, rfl⟩ h

/-- What may be sent of these states. -/
structure Cleared (expiresAt : ℚ) (runs : List R) (earlier : List (StreamEvent R)) : Prop where
  passed : CheckPassed runs earlier
  inTime : ReadInTime expiresAt runs earlier

/-- A frame with states of runs is sent when its whole batch has been cleared. -/
def SentWhenCleared (expiresAt : ℚ) : StreamEvent R → List (StreamEvent R) → Prop
  | .sent (.snapshot items), earlier => Cleared expiresAt items earlier
  | .sent (.updated run), earlier => ∃ runs, run ∈ runs ∧ Cleared expiresAt runs earlier
  | _, _ => True

/-- The states of runs in a frame. -/
def Frame.runs : Frame R → List R
  | .snapshot items => items
  | .updated run => [run]
  | _ => []

def StreamEvent.frame? : StreamEvent R → Option (Frame R)
  | .sent frame => some frame
  | _ => none

/-- What has been sent, in order. -/
def sentFrames (trace : List (StreamEvent R)) : List (Frame R) := (trace.filterMap StreamEvent.frame?).reverse

/-- The frames between the snapshot and the error. -/
def Frame.Ongoing : Frame R → Prop
  | .updated _ | .heartbeat => True
  | _ => False

/-- The retry line has been sent. -/
def Greeted (frames : List (Frame R)) : Prop :=
  ∃ milliseconds, retryMinMs ≤ milliseconds ∧ milliseconds ≤ retryMaxMs ∧ frames = [.retry milliseconds]

/-- Then the snapshot, and then updates and heartbeats. -/
def Ongoing (frames : List (Frame R)) : Prop :=
  ∃ greeting items rest, Greeted greeting ∧ frames = greeting ++ .snapshot items :: rest ∧ ∀ f ∈ rest, f.Ongoing

/-- At the end the error. -/
def Ended (frames : List (Frame R)) : Prop :=
  ∃ before code, (Greeted before ∨ Ongoing before) ∧ frames = before ++ [.error code]

theorem Ongoing.sent {frames : List (Frame R)} (h : Ongoing frames) {f : Frame R} (hf : f.Ongoing) :
    Ongoing (frames ++ [f]) := by
  obtain ⟨greeting, items, rest, hgreeted, rfl, hrest⟩ := h
  refine ⟨greeting, items, rest ++ [f], hgreeted, ?_, fun f' hmem => ?_⟩
  · rw [List.append_assoc, List.cons_append]
  · rcases List.mem_append.mp hmem with hmem | hmem
    · exact hrest f' hmem
    · rw [List.mem_singleton.mp hmem]
      exact hf

theorem sentFrames_sent (f : Frame R) (trace : List (StreamEvent R)) :
    sentFrames (.sent f :: trace) = sentFrames trace ++ [f] := by
  simp only [sentFrames, List.filterMap_cons, StreamEvent.frame?, List.reverse_cons]

theorem sentFrames_append {events trace : List (StreamEvent R)} (h : ∀ e ∈ events, e.frame? = none) :
    sentFrames (events ++ trace) = sentFrames trace := by
  have hnone : events.filterMap StreamEvent.frame? = [] := List.filterMap_eq_nil_iff.mpr h
  rw [sentFrames, List.filterMap_append, hnone, List.nil_append]
  rfl

end Events

section Invariant
variable {W R : Type} (isActive : W → UUID → Bool)

/-- The user was active at a version that is not before any of these states. -/
def SeenActive (userId : UUID) (v : Versions W) (runs : List (Stamped R)) : Prop :=
  ∃ n ≤ v.count, isActive (v.db n) userId = true ∧ ∀ run ∈ runs, run.version ≤ n

/-- The states of a batch. -/
def RunStream.Batch.runs (stream : RunStream R) : Batch R → List R
  | .snapshot => stream.snapshot
  | .updates _ _ runs => runs

/-- What has happened to the batch that a stream is at. -/
def RunStream.Pc.Known (stream : RunStream (Stamped R)) (v : Versions W) (trace : List (StreamEvent (Stamped R))) :
    Pc (Stamped R) → Prop
  | .retry => BatchRead stream.snapshot trace ∧ ∀ run ∈ stream.snapshot, run.version ≤ v.count
  | .accessError batch =>
    BatchRead (batch.runs stream) trace ∧ ∀ run ∈ batch.runs stream, run.version ≤ v.count
  | .isActive batch =>
    CheckStarted (batch.runs stream) trace ∧ BatchRead (batch.runs stream) trace ∧
      ∀ run ∈ batch.runs stream, run.version ≤ v.count
  | .answered batch active =>
    CheckStarted (batch.runs stream) trace ∧ BatchRead (batch.runs stream) trace ∧
      (active = true → SeenActive isActive stream.userId v (batch.runs stream))
  | .snapshot => Cleared stream.expiresAt stream.snapshot trace ∧ SeenActive isActive stream.userId v stream.snapshot
  | .due _ _ runs => BatchRead runs trace ∧ ∀ run ∈ runs, run.version ≤ v.count
  | .expiry _ _ runs => BatchRead runs trace ∧
      (runs ≠ [] → CheckPassed runs trace ∧ SeenActive isActive stream.userId v runs)
  | .updates _ _ rest => rest = [] ∨ ∃ runs, (∀ run ∈ rest, run ∈ runs) ∧ Cleared stream.expiresAt runs trace ∧
      SeenActive isActive stream.userId v runs
  | _ => True

/-- What a stream has sent when it is there. -/
def RunStream.Pc.Shape (frames : List (Frame R)) : Pc R → Prop
  | .retry => frames = []
  | .accessError .snapshot | .isActive .snapshot | .answered .snapshot _ | .snapshot => Greeted frames
  | .error _ => Greeted frames ∨ Ongoing frames
  | .done => Ended frames
  | _ => Ongoing frames

/-- The trace of a stream. -/
structure Guarded (stream : RunStream (Stamped R)) (v : Versions W) (trace : List (StreamEvent (Stamped R))) :
    Prop where
  cleared : Justified (SentWhenCleared stream.expiresAt) trace
  active : ∀ f, .sent f ∈ trace → ∀ run ∈ f.runs, ∃ n ≤ v.count,
    isActive (v.db n) stream.userId = true ∧ run.version ≤ n

variable {isActive} {stream : RunStream (Stamped R)} {v v' : Versions W} {trace : List (StreamEvent (Stamped R))}
  {runs : List (Stamped R)}

/-- Later versions leave the earlier ones as they were. -/
def Versions.Extends (v v' : Versions W) : Prop := v.count ≤ v'.count ∧ ∀ n ≤ v.count, v'.db n = v.db n

theorem Versions.extends_commit (v : Versions W) (db : W) : v.Extends (v.commit db) := by
  refine ⟨Nat.le_succ _, fun n hn => ?_⟩
  have hne : n ≠ v.count + 1 := by omega
  exact Function.update_of_ne hne _ _

theorem SeenActive.extends {userId : UUID} (h : SeenActive isActive userId v runs) (hv : v.Extends v') :
    SeenActive isActive userId v' runs := by
  obtain ⟨n, hn, hactive, hruns⟩ := h
  refine ⟨n, hn.trans hv.1, ?_, hruns⟩
  rw [hv.2 n hn]
  exact hactive

theorem Guarded.extends (h : Guarded isActive stream v trace) (hv : v.Extends v') :
    Guarded isActive stream v' trace := by
  refine ⟨h.cleared, fun f hf run hrun => ?_⟩
  obtain ⟨n, hn, hactive, hversion⟩ := h.active f hf run hrun
  refine ⟨n, hn.trans hv.1, ?_, hversion⟩
  rw [hv.2 n hn]
  exact hactive

theorem RunStream.Pc.Known.extends {pc : Pc (Stamped R)} (h : pc.Known isActive stream v trace) (hv : v.Extends v') :
    pc.Known isActive stream v' trace := by
  cases pc with
  | retry | accessError | due => exact ⟨h.1, fun run hrun => (h.2 run hrun).trans hv.1⟩
  | isActive => exact ⟨h.1, h.2.1, fun run hrun => (h.2.2 run hrun).trans hv.1⟩
  | answered => exact ⟨h.1, h.2.1, fun hactive => (h.2.2 hactive).extends hv⟩
  | snapshot => exact ⟨h.1, h.2.extends hv⟩
  | expiry => exact ⟨h.1, fun hne => ⟨(h.2 hne).1, (h.2 hne).2.extends hv⟩⟩
  | updates =>
    rcases h with hnone | ⟨runs, hmem, hcleared, hseen⟩
    · exact .inl hnone
    · exact .inr ⟨runs, hmem, hcleared, hseen.extends hv⟩
  | schedule | drain | heartbeat | wait | waiting | error | done => trivial

/-- Events that send nothing. -/
theorem Guarded.append (h : Guarded isActive stream v trace) {events : List (StreamEvent (Stamped R))}
    (he : ∀ e ∈ events, e.frame? = none) : Guarded isActive stream v (events ++ trace) := by
  refine ⟨h.cleared.append fun e hmem earlier => ?_, fun f hf run hrun => ?_⟩
  · have hsilent := he e hmem
    cases e with
    | sent f => contradiction
    | read | checkStarted | checked | clock => trivial
  · rcases List.mem_append.mp hf with hf | hf
    · have hsilent := he _ hf
      contradiction
    · exact h.active f hf run hrun

/-- A frame is sent. -/
theorem Guarded.send (h : Guarded isActive stream v trace) {f : Frame (Stamped R)}
    (hcleared : SentWhenCleared stream.expiresAt (.sent f) trace)
    (hactive : f.runs ≠ [] → SeenActive isActive stream.userId v f.runs) :
    Guarded isActive stream v (.sent f :: trace) := by
  refine ⟨⟨hcleared, h.cleared⟩, fun f' hf run hrun => ?_⟩
  rcases List.mem_cons.mp hf with he | hf
  · obtain rfl := StreamEvent.sent.inj he
    obtain ⟨n, hn, hyes, hruns⟩ := hactive (List.ne_nil_of_mem hrun)
    exact ⟨n, hn, hyes, hruns run hrun⟩
  · exact h.active f' hf run hrun

section Steps

/-- What a step of `stream` keeps. -/
structure RunStream.Kept (isActive : W → UUID → Bool) (stream : RunStream (Stamped R)) (v : Versions W)
    (trace : List (StreamEvent (Stamped R))) (pc : Pc (Stamped R)) : Prop where
  guarded : Guarded isActive stream v trace
  known : pc.Known isActive stream v trace
  shape : pc.Shape (sentFrames trace)

theorem RunStream.Kept.extends {pc : Pc (Stamped R)} (h : Kept isActive stream v trace pc) (hv : v.Extends v') :
    Kept isActive stream v' trace pc :=
  ⟨h.guarded.extends hv, h.known.extends hv, h.shape⟩

/-- A step that sends nothing. -/
theorem RunStream.Kept.append {pc pc' : Pc (Stamped R)} (h : Kept isActive stream v trace pc)
    {events : List (StreamEvent (Stamped R))} (he : ∀ e ∈ events, e.frame? = none)
    (hknown : pc'.Known isActive stream v (events ++ trace)) (hshape : pc'.Shape (sentFrames trace)) :
    Kept isActive stream v (events ++ trace) pc' :=
  ⟨h.guarded.append he, hknown, by rwa [sentFrames_append he]⟩

/-- A step that sends a frame. -/
theorem RunStream.Kept.send {pc pc' : Pc (Stamped R)} (h : Kept isActive stream v trace pc) {f : Frame (Stamped R)}
    (hcleared : SentWhenCleared stream.expiresAt (.sent f) trace)
    (hactive : f.runs ≠ [] → SeenActive isActive stream.userId v f.runs)
    (hknown : pc'.Known isActive stream v (.sent f :: trace)) (hshape : pc'.Shape (sentFrames trace ++ [f])) :
    Kept isActive stream v (.sent f :: trace) pc' :=
  ⟨h.guarded.send hcleared hactive, hknown, by rwa [sentFrames_sent]⟩

/-- Whatever batch the access is checked for, the error may follow what has been sent. -/
theorem RunStream.Pc.Shape.error {batch : Batch R} {frames : List (Frame R)}
    (h : (Pc.accessError batch).Shape frames) (code : String) : (Pc.error code : Pc R).Shape frames := by
  cases batch with
  | snapshot => exact .inl h
  | updates => exact .inr h

variable {clocks : Clocks} {w w' : FeedWorld (Versions W) (Stamped R)}

/-- What `stream` sends, a step at a time. -/
theorem RunStream.step_kept {fails : Bool} {milliseconds : ℕ} {pc pc' : Pc (Stamped R)}
    {events : List (StreamEvent (Stamped R))} (h : Kept isActive stream w.db trace pc)
    (hfeed : w.feed.Carries fun run => run.version ≤ w.db.count)
    (hs : step isActive stream fails milliseconds clocks w pc = some (w', events, pc')) :
    Kept isActive stream w.db (events ++ trace) pc' ∧ w'.db = w.db ∧
      w'.feed.Carries fun run => run.version ≤ w.db.count := by
  have hknown := h.known
  have hshape := h.shape
  cases pc with
  | retry =>
    obtain ⟨⟨hmin, hmax⟩, hs⟩ := Option.ite_none_right_eq_some.mp hs
    cases hs
    refine ⟨h.send trivial (fun hne => absurd rfl hne) ⟨hknown.1.cons trivial, hknown.2⟩ ?_, rfl, hfeed⟩
    have hnothing : sentFrames trace = [] := hshape
    rw [hnothing]
    exact ⟨milliseconds, hmin, hmax, rfl⟩
  | accessError batch =>
    have hnext : (Pc.isActive batch).Shape (sentFrames trace) := by cases batch <;> exact hshape
    simp only [step] at hs
    split at hs <;> cases hs
    · exact ⟨h.append (by simp [StreamEvent.frame?]) trivial (Pc.Shape.error hshape _), rfl, hfeed⟩
    · have hread := hknown.1.append (l := [.clock clocks.time, .checkStarted]) (by simp [StreamEvent.KeepsBatch])
      have hstarted : CheckStarted (batch.runs stream) (.checkStarted :: trace) := Since.now rfl hknown.1
      have hstarted : CheckStarted (batch.runs stream) ([.clock clocks.time, .checkStarted] ++ trace) :=
        hstarted.cons trivial
      exact ⟨h.append (by simp [StreamEvent.frame?]) ⟨hstarted, hread, hknown.2⟩ hnext, rfl, hfeed⟩
  | isActive batch =>
    have hbatch : (Pc.accessError batch).Shape (sentFrames trace) := by cases batch <;> exact hshape
    simp only [step] at hs
    split at hs <;> cases hs
    · exact ⟨h.append (by simp [StreamEvent.frame?]) trivial (Pc.Shape.error hbatch _), rfl, hfeed⟩
    · have hanswered : isActive w.db.current stream.userId = true →
          SeenActive isActive stream.userId w.db (batch.runs stream) :=
        fun hyes => ⟨w.db.count, le_rfl, hyes, hknown.2.2⟩
      have hnext : (Pc.answered batch (isActive w.db.current stream.userId)).Shape (sentFrames trace) := by
        cases batch <;> exact hshape
      exact ⟨h.append (by simp) ⟨hknown.1, hknown.2.1, hanswered⟩ hnext, rfl, hfeed⟩
  | answered batch active =>
    have hbatch : (Pc.accessError batch).Shape (sentFrames trace) := by cases batch <;> exact hshape
    cases hs
    refine ⟨h.append (by simp [StreamEvent.frame?]) ?_ ?_, rfl, hfeed⟩
    · -- The check has passed when the second reading is in time and the account was active.
      unfold answer
      split_ifs with hexpired hyes
      · trivial
      · have hstarted : CheckStarted (batch.runs stream) (.clock clocks.time :: trace) := hknown.1.cons trivial
        have hpassed : CheckPassed (batch.runs stream) (.checked none :: .clock clocks.time :: trace) :=
          Since.now rfl hstarted
        have hintime : ReadInTime stream.expiresAt (batch.runs stream) (.checked none :: .clock clocks.time :: trace) :=
          (hknown.2.1.inTime hexpired).cons trivial
        have hread := hknown.2.1.append (l := [.checked none, .clock clocks.time]) (by simp [StreamEvent.KeepsBatch])
        cases batch with
        | snapshot => exact ⟨⟨hpassed, hintime⟩, hknown.2.2 hyes⟩
        | updates heartbeatAt heartbeatDue runs => exact ⟨hread, fun _ => ⟨hpassed, hknown.2.2 hyes⟩⟩
      · trivial
    · unfold answer
      split_ifs
      · exact hbatch.error _
      · cases batch <;> exact hbatch
      · exact hbatch.error _
  | snapshot =>
    cases hs
    refine ⟨h.send hknown.1 (fun _ => hknown.2) trivial ?_, rfl, hfeed⟩
    exact ⟨sentFrames trace, stream.snapshot, [], hshape, rfl, fun _ hf => absurd hf List.not_mem_nil⟩
  | schedule =>
    cases hs
    exact ⟨h.append (by simp) trivial hshape, rfl, hfeed⟩
  | drain heartbeatAt =>
    cases hs
    have hdrained : ∀ run ∈ (w.feed.object stream.sub).pending.values, run.version ≤ w.db.count := hfeed stream.sub
    exact ⟨h.append (by simp [StreamEvent.frame?]) ⟨Since.now rfl trivial, hdrained⟩ hshape, rfl, hfeed.drain _⟩
  | due heartbeatAt error runs =>
    simp only [step] at hs
    cases error with
    | some code =>
      cases hs
      exact ⟨h.append (by simp) trivial (.inr hshape), rfl, hfeed⟩
    | none =>
      dsimp only at hs
      split_ifs at hs with hneither <;> cases hs
      · exact ⟨h.append (by simp) hknown hshape, rfl, hfeed⟩
      · have hempty : runs = [] := by
          by_contra hne
          exact hneither (.inl (by simpa using hne))
        exact ⟨h.append (by simp) ⟨hknown.1, fun hne => absurd hempty hne⟩ hshape, rfl, hfeed⟩
  | expiry heartbeatAt heartbeatDue runs =>
    simp only [step] at hs
    split at hs <;> cases hs
    · exact ⟨h.append (by simp [StreamEvent.frame?]) trivial (.inr hshape), rfl, hfeed⟩
    · rename_i hexpired
      refine ⟨h.append (by simp [StreamEvent.frame?]) ?_ hshape, rfl, hfeed⟩
      by_cases hempty : runs = []
      · exact .inl hempty
      · obtain ⟨hpassed, hseen⟩ := hknown.2 hempty
        exact .inr ⟨runs, fun _ => id, ⟨hpassed.cons trivial, hknown.1.inTime hexpired⟩, hseen⟩
  | updates heartbeatAt heartbeatDue rest =>
    cases rest with
    | nil =>
      simp only [step] at hs
      split at hs <;> cases hs
      · refine ⟨h.send trivial (fun hne => absurd rfl hne) trivial ?_, rfl, hfeed⟩
        exact Ongoing.sent hshape trivial
      · exact ⟨h.append (by simp) trivial hshape, rfl, hfeed⟩
    | cons run rest =>
      cases hs
      rcases hknown with hnone | ⟨runs, hmem, hcleared, hseen⟩
      · contradiction
      have hrun : run ∈ runs := hmem run List.mem_cons_self
      have hone : SeenActive isActive stream.userId w.db [run] := by
        obtain ⟨n, hn, hyes, hruns⟩ := hseen
        refine ⟨n, hn, hyes, fun r hr => ?_⟩
        rw [List.mem_singleton.mp hr]
        exact hruns run hrun
      have hlater : Cleared stream.expiresAt runs (.sent (.updated run) :: trace) :=
        ⟨hcleared.passed.cons trivial, hcleared.inTime.cons trivial⟩
      refine ⟨h.send ⟨runs, hrun, hcleared⟩ (fun _ => hone) ?_ (Ongoing.sent hshape trivial), rfl, hfeed⟩
      exact .inr ⟨runs, fun r hr => hmem r (List.mem_cons_of_mem _ hr), hlater, hseen⟩
  | heartbeat =>
    cases hs
    exact ⟨h.append (by simp) trivial hshape, rfl, hfeed⟩
  | wait heartbeatAt =>
    cases hs
    exact ⟨h.append (by simp [StreamEvent.frame?]) trivial hshape, rfl, hfeed⟩
  | waiting heartbeatAt deadline =>
    obtain ⟨-, hs⟩ := Option.ite_none_right_eq_some.mp hs
    cases hs
    exact ⟨h.append (by simp) trivial hshape, rfl, hfeed⟩
  | error code =>
    cases hs
    refine ⟨h.send trivial (fun hne => absurd rfl hne) trivial ?_, rfl, hfeed⟩
    exact ⟨sentFrames trace, code, hshape, rfl⟩
  | done => contradiction

variable [FeedItem R]

end Steps

section Runs

/-- What a stream may have sent, wherever it is. -/
def Told (frames : List (Frame R)) : Prop := frames = [] ∨ Greeted frames ∨ Ongoing frames ∨ Ended frames

theorem RunStream.Pc.Shape.told {pc : Pc R} {frames : List (Frame R)} (h : pc.Shape frames) : Told frames := by
  cases pc with
  | retry => exact .inl h
  | accessError batch | isActive batch =>
    cases batch with
    | snapshot => exact .inr (.inl h)
    | updates => exact .inr (.inr (.inl h))
  | answered batch =>
    cases batch with
    | snapshot => exact .inr (.inl h)
    | updates => exact .inr (.inr (.inl h))
  | snapshot => exact .inr (.inl h)
  | error => exact .inr (h.imp_right .inl)
  | done => exact .inr (.inr (.inr h))
  | schedule | drain | due | expiry | updates | heartbeat | wait | waiting => exact .inr (.inr (.inl h))

theorem Greeted.no_error {frames : List (Frame R)} (h : Greeted frames) (code : String) : .error code ∉ frames := by
  obtain ⟨milliseconds, -, -, rfl⟩ := h
  intro hmem
  cases List.mem_singleton.mp hmem

theorem Ongoing.no_error {frames : List (Frame R)} (h : Ongoing frames) (code : String) : .error code ∉ frames := by
  obtain ⟨greeting, items, rest, hgreeted, rfl, hrest⟩ := h
  intro hmem
  rcases List.mem_append.mp hmem with hmem | hmem
  · exact hgreeted.no_error code hmem
  · rcases List.mem_cons.mp hmem with he | hmem
    · cases he
    · exact hrest _ hmem

/-- The error is the last that is sent. -/
theorem Told.error_last {frames after before : List (Frame R)} {code : String} (h : Told frames)
    (he : frames = before ++ .error code :: after) : after = [] := by
  have hmem : Frame.error code ∈ frames := by
    rw [he]
    exact List.mem_append_right _ List.mem_cons_self
  rcases h with rfl | hgreeted | hongoing | ⟨earlier, code', hearlier, rfl⟩
  · contradiction
  · exact absurd hmem (hgreeted.no_error code)
  · exact absurd hmem (hongoing.no_error code)
  · by_contra hne
    -- The error would stand before the last frame, where there is none.
    have hdrop : earlier = before ++ (Frame.error code :: after).dropLast := by
      have hlast := congrArg List.dropLast he
      rwa [List.dropLast_concat, List.dropLast_append_of_ne_nil (List.cons_ne_nil _ _)] at hlast
    have hin : Frame.error code ∈ earlier := by
      rw [hdrop, List.dropLast_cons_of_ne_nil hne]
      exact List.mem_append_right _ List.mem_cons_self
    rcases hearlier with hgreeted | hongoing
    · exact hgreeted.no_error code hin
    · exact hongoing.no_error code hin

theorem sentFrames_split (later earlier : List (StreamEvent R)) (f : Frame R) :
    sentFrames (later ++ .sent f :: earlier) = sentFrames earlier ++ f :: sentFrames later := by
  simp only [sentFrames, List.filterMap_append, List.filterMap_cons, StreamEvent.frame?, List.reverse_append,
    List.reverse_cons, List.append_assoc, List.singleton_append]

theorem mem_sentFrames {f : Frame R} {trace : List (StreamEvent R)} : f ∈ sentFrames trace ↔ .sent f ∈ trace := by
  simp only [sentFrames, List.mem_reverse, List.mem_filterMap]
  constructor
  · rintro ⟨e, he, hf⟩
    cases e with
    | sent f' =>
      obtain rfl := Option.some.inj hf
      exact he
    | read | checkStarted | checked | clock => contradiction
  · exact fun hmem => ⟨.sent f, hmem, rfl⟩

/-- What the feed and the threads carry was read at a version that there has been. -/
def RunEvents.Kept (isActive : W → UUID → Bool) (v : Versions W) (trace : List (StreamEvent (Stamped R))) :
    RunEvents (Stamped R) → Prop
  | .subscribe _ _ => trace = []
  | .snapshot _ _ _ call => trace = [] ∧ call.Carries fun run => run.version ≤ v.count
  | .stream stream pc => RunStream.Kept isActive stream v trace pc
  | .closed stream call => (call.Carries fun run => run.version ≤ v.count) ∧
      ∀ s ∈ stream, Guarded isActive s v trace ∧ Told (sentFrames trace)
  | .failed _ | .refused _ _ => True

def StreamThread.Kept (isActive : W → UUID → Bool) (v : Versions W) (trace : List (StreamEvent (Stamped R))) :
    StreamThread (Stamped R) → Prop
  | .feed thread => trace = [] ∧ thread.Carries fun run => run.version ≤ v.count
  | .request r => r.Kept isActive v trace

theorem FeedThread.Carries.mono {P Q : R → Prop} {l : FeedThread R} (h : l.Carries P) (hle : ∀ run, P run → Q run) :
    l.Carries Q := by
  cases l with
  | publish pc =>
    cases pc with
    | deliver run changes => exact hle run h
    | next | resync | find => trivial
  | read s result | drained s error result => exact fun run hrun => hle run (h run hrun)
  | snapshot s r =>
    cases r with
    | ok result => exact fun run hrun => hle run (h run hrun)
    | error => trivial
  | idle | publishing | snapshotting | reading | subscribed | waiting => trivial

theorem StreamThread.Kept.extends {l : StreamThread (Stamped R)} (h : l.Kept isActive v trace) (hv : v.Extends v') :
    l.Kept isActive v' trace := by
  have hlater (call : FeedThread (Stamped R)) (hcall : call.Carries fun run => run.version ≤ v.count) :
      call.Carries fun run => run.version ≤ v'.count := hcall.mono fun run hrun => hrun.trans hv.1
  cases l with
  | feed thread => exact ⟨h.1, hlater _ h.2⟩
  | request request =>
    cases request with
    | subscribe => exact h
    | snapshot => exact ⟨h.1, hlater _ h.2⟩
    | stream s pc => exact RunStream.Kept.extends h hv
    | closed s call => exact ⟨hlater _ h.1, fun s' hs => ⟨(h.2 s' hs).1.extends hv, (h.2 s' hs).2⟩⟩
    | failed | refused => trivial

/-- Streams send what their checks have cleared, over versions that only grow. -/
def guarding (isActive : W → UUID → Bool) : Contract ℕ (StreamWorld W R) (StreamThread (Stamped R)) where
  inv := fun w => w.feed.feed.Carries fun run => run.version ≤ w.feed.db.count
  assert := fun p l w => l.Kept isActive w.feed.db (w.trace p)
  guarantee := fun p w w' => w'.feed.db = w.feed.db ∧ ∀ q ≠ p, w'.trace q = w.trace q

variable [FeedItem R] {store : FeedStore W R} {c : Config ℕ (StreamWorld W R) (StreamThread (Stamped R))}

/-- What the stamped store gives was read now. -/
theorem feedRun_versions {w w' : FeedWorld (Versions W) (Stamped R)} {l l' : FeedThread (Stamped R)} {p : ℕ}
    {fails : Bool} (h : w.feed.Carries fun run => run.version ≤ w.db.count)
    (hl : l.Carries fun run => run.version ≤ w.db.count)
    (hs : feedRun store.stamped p fails w l = some (w', l')) :
    (w'.feed.Carries fun run => run.version ≤ w.db.count) ∧ (l'.Carries fun run => run.version ≤ w.db.count) ∧
      w'.db = w.db := by
  refine feedRun_carries (fun id run hfind => ?_) (fun userId run hrun => ?_) h hl hs
  · obtain ⟨state, -, rfl⟩ := Option.map_eq_some_iff.mp hfind
    exact le_rfl
  · obtain ⟨state, -, rfl⟩ := List.mem_map.mp hrun
    exact le_rfl

theorem runEvents_kept {w w' : FeedWorld (Versions W) (Stamped R)} {request request' : RunEvents (Stamped R)}
    {p milliseconds : ℕ} {fails : Bool} {clocks : Clocks} {events : List (StreamEvent (Stamped R))}
    (h : w.feed.Carries fun run => run.version ≤ w.db.count) (hl : request.Kept isActive w.db trace)
    (hs : runEvents store isActive p fails milliseconds clocks w request = some (w', events, request')) :
    (w'.feed.Carries fun run => run.version ≤ w.db.count) ∧ request'.Kept isActive w.db (events ++ trace) ∧
      w'.db = w.db := by
  cases request with
  | subscribe userId expiresAt =>
    simp only [runEvents] at hs
    split at hs <;> cases hs
    · rename_i hok
      exact ⟨h.subscribe hok, ⟨hl, trivial⟩, rfl⟩
    · exact ⟨h, trivial, rfl⟩
    · exact ⟨h, trivial, rfl⟩
  | snapshot userId expiresAt sub call =>
    obtain ⟨rfl, hcall⟩ := hl
    simp only [runEvents] at hs
    split at hs
    · rename_i items
      cases hs
      refine ⟨h, ⟨⟨⟨trivial, trivial⟩, fun f hf => ?_⟩, ⟨Since.now rfl trivial, hcall⟩, rfl⟩, rfl⟩
      rcases List.mem_cons.mp hf with he | hf
      · cases he
      · contradiction
    · cases hs
      exact ⟨h, trivial, rfl⟩
    · obtain ⟨⟨w₁, l₁⟩, hrun, he⟩ := Option.map_eq_some_iff.mp hs
      cases he
      obtain ⟨hfeed, hcall', hdb⟩ := feedRun_versions h hcall hrun
      exact ⟨hfeed, ⟨rfl, hcall'⟩, hdb⟩
  | failed sub =>
    cases hs
    exact ⟨h, trivial, rfl⟩
  | stream s pc =>
    obtain ⟨⟨w₁, events₁, pc₁⟩, hstep, he⟩ := Option.map_eq_some_iff.mp hs
    cases he
    obtain ⟨hkept, hdb, hfeed⟩ := RunStream.step_kept hl h hstep
    exact ⟨hfeed, hkept, hdb⟩
  | closed s call =>
    obtain ⟨⟨w₁, l₁⟩, hrun, he⟩ := Option.map_eq_some_iff.mp hs
    cases he
    obtain ⟨hfeed, hcall', hdb⟩ := feedRun_versions h hl.1 hrun
    exact ⟨hfeed, ⟨hcall', hl.2⟩, hdb⟩
  | refused => contradiction

theorem guarding_proof : (guarding isActive).Proof .trivial (streams store isActive) fun _ _ => True where
  act := by
    intro p a w l w' l' _ ha _ _ _ h hl
    cases l with
    | feed thread =>
      cases a with
      | feed action =>
        obtain ⟨⟨feed, thread'⟩, hact, he⟩ := Option.map_eq_some_iff.mp ha
        cases he
        have hkept : (feed.feed.Carries fun run => run.version ≤ w.feed.db.count) ∧
            (thread'.Carries fun run => run.version ≤ w.feed.db.count) ∧ feed.db = w.feed.db := by
          cases action with
          | call call =>
            obtain ⟨-, hact⟩ := Option.ite_none_right_eq_some.mp hact
            exact feedCall_carries h (Option.some.inj hact)
          | run fails => exact feedRun_versions h hl.2 hact
          | callback s =>
            obtain ⟨-, hact⟩ := Option.ite_none_right_eq_some.mp hact
            cases hact
            exact ⟨RunFeed.Carries.update h s (h s), hl.2, rfl⟩
        obtain ⟨hfeed, hthread, hsame⟩ := hkept
        refine ⟨?_, ⟨hl.1, ?_⟩, hsame, fun _ _ => rfl⟩
        · change feed.feed.Carries fun run => run.version ≤ feed.db.count
          rw [hsame]
          exact hfeed
        · change thread'.Carries fun run => run.version ≤ feed.db.count
          rw [hsame]
          exact hthread
      | arrive userId expiresAt =>
        cases thread <;> simp only [streams] at ha <;> try contradiction
        split at ha
        · cases ha
          exact ⟨h, trivial, rfl, fun _ _ => rfl⟩
        · split at ha <;> cases ha
          · exact ⟨h, trivial, rfl, fun _ _ => rfl⟩
          · exact ⟨h, hl.1, rfl, fun _ _ => rfl⟩
      | run | close => cases ha
    | request request =>
      cases a with
      | run fails milliseconds =>
        obtain ⟨⟨feed, events, request'⟩, hrun, he⟩ := Option.map_eq_some_iff.mp ha
        cases he
        obtain ⟨hfeed, hrequest, hsame⟩ := runEvents_kept h hl hrun
        refine ⟨?_, ?_, hsame, fun q hq => Function.update_of_ne hq _ _⟩
        · change feed.feed.Carries fun run => run.version ≤ feed.db.count
          rw [hsame]
          exact hfeed
        · change request'.Kept isActive feed.db (Function.update w.trace p (events ++ w.trace p) p)
          rw [hsame, Function.update_self]
          exact hrequest
      | close =>
        obtain ⟨⟨feed, request'⟩, hclose, he⟩ := Option.map_eq_some_iff.mp ha
        cases he
        cases request with
        | snapshot userId expiresAt sub call =>
          cases hclose
          exact ⟨h, ⟨hl.2, fun _ hs => by cases hs⟩, rfl, fun _ _ => rfl⟩
        | stream s pc =>
          cases hclose
          refine ⟨h, ⟨trivial, fun s' hs => ?_⟩, rfl, fun _ _ => rfl⟩
          obtain rfl := Option.some.inj hs
          have hkept : RunStream.Kept isActive s w.feed.db (w.trace p) pc := hl
          exact ⟨hkept.guarded, hkept.shape.told⟩
        | subscribe | failed | refused | closed => contradiction
      | feed | arrive => cases ha
  stable := by
    intro p q l w w' hne _ _ _ hg _ hl
    change l.Kept isActive w'.feed.db (w'.trace q)
    rw [hg.1, hg.2 q (Ne.symm hne)]
    exact hl
  env := by
    intro e w w' _ he _ h
    cases e with
    | inl db =>
      cases he
      have hgrows := w.feed.db.extends_commit db
      exact ⟨fun s run hrun => (h s run hrun).trans hgrows.1, fun _ _ _ hl => StreamThread.Kept.extends hl hgrows⟩
    | inr times =>
      obtain ⟨-, he⟩ := Option.ite_none_right_eq_some.mp he
      cases he
      exact ⟨h, fun _ _ _ hl => hl⟩

/-- A feed, a database and clocks before there is any stream. -/
def StreamWorld.start (perUser total pendingLimit : ℕ) (db : W) (clocks : Clocks) : StreamWorld W R :=
  ⟨⟨RunFeed.init perUser total pendingLimit, none, ⟨0, fun _ => db⟩⟩, clocks, fun _ => []⟩

/-- The stream that a request has opened. -/
def StreamThread.stream? : StreamThread R → Option (RunStream R)
  | .request (.stream s _) => some s
  | .request (.closed s _) => s
  | _ => none

variable {perUser total pendingLimit : ℕ} {db : W} {clocks : Clocks}

theorem stream_kept (h : Reachable (streams store isActive) (fun _ _ => True)
    ⟨StreamWorld.start perUser total pendingLimit db clocks, fun _ => .feed .idle⟩ c) (p : ℕ) :
    (c.procs p).Kept isActive c.shared.feed.db (c.shared.trace p) := by
  have hinit : (guarding isActive).Holds (⟨StreamWorld.start perUser total pendingLimit db clocks,
      fun _ => .feed .idle⟩ : Config ℕ (StreamWorld W R) (StreamThread (Stamped R))) :=
    ⟨fun _ => Subscription.carries_empty rfl, fun _ => ⟨rfl, trivial⟩⟩
  have hproof : (guarding isActive).Proof .trivial (streams store isActive) fun _ _ => True := guarding_proof
  have hestablished := hproof.established Contract.trivial_established hinit
  exact ((hestablished.holds c h).2 p).1

/-- What a stream sends has been cleared by a check that began after all of its batch was read; a state that was read
when the account was inactive for good is never sent; and a stream ends with its only error. -/
theorem stream_guarded (h : Reachable (streams store isActive) (fun _ _ => True)
      ⟨StreamWorld.start perUser total pendingLimit db clocks, fun _ => .feed .idle⟩ c)
    {p : ℕ} {stream : RunStream (Stamped R)} (hp : (c.procs p).stream? = some stream) :
    (∀ later f earlier, c.shared.trace p = later ++ .sent f :: earlier →
      SentWhenCleared stream.expiresAt (.sent f) earlier) ∧
    (∀ n, (∀ m, n ≤ m → m ≤ c.shared.feed.db.count → isActive (c.shared.feed.db.db m) stream.userId = false) →
      ∀ f, .sent f ∈ c.shared.trace p → ∀ run ∈ f.runs, run.version < n) ∧
    Told (sentFrames (c.shared.trace p)) ∧
    (c.procs p = .request (.stream stream .done) → Ended (sentFrames (c.shared.trace p))) ∧
    ∀ later code earlier, c.shared.trace p = later ++ .sent (.error code) :: earlier → ∀ f, .sent f ∉ later := by
  have hkept := stream_kept h p
  have hall : Guarded isActive stream c.shared.feed.db (c.shared.trace p) ∧ Told (sentFrames (c.shared.trace p)) := by
    revert hkept hp
    generalize c.procs p = l
    intro hp hkept
    cases l with
    | feed thread => contradiction
    | request request =>
      cases request with
      | stream s pc =>
        obtain rfl := Option.some.inj hp
        have hkept : RunStream.Kept isActive s c.shared.feed.db (c.shared.trace p) pc := hkept
        exact ⟨hkept.guarded, hkept.shape.told⟩
      | closed s call => exact hkept.2 stream hp
      | subscribe | snapshot | failed | refused => contradiction
  obtain ⟨hguarded, htold⟩ := hall
  refine ⟨fun later f earlier he => ?_, fun n hinactive f hf run hrun => ?_, htold, fun hdone => ?_,
    fun later code earlier he f hf => ?_⟩
  · have hjustified := hguarded.cleared
    rw [he] at hjustified
    exact hjustified.at
  · obtain ⟨m, hm, hactive, hversion⟩ := hguarded.active f hf run hrun
    by_contra hlate
    have hno := hinactive m ((not_lt.mp hlate).trans hversion) hm
    rw [hno] at hactive
    contradiction
  · rw [hdone] at hkept
    have hkept : RunStream.Kept isActive stream c.shared.feed.db (c.shared.trace p) .done := hkept
    exact hkept.shape
  · have hsplit : sentFrames (c.shared.trace p) = sentFrames earlier ++ .error code :: sentFrames later := by
      rw [he, sentFrames_split]
    have hnothing := htold.error_last hsplit
    have hmem : f ∈ sentFrames later := mem_sentFrames.mpr hf
    rw [hnothing] at hmem
    contradiction

end Runs
end Invariant

/-- `select(User.is_active)`, `is True`. -/
def AccountTables.isActive (t : AccountTables) (userId : UUID) : Bool :=
  (t.users.find? userId).map User.isActive = some true

/-- The store of the feed, in a database with accounts. -/
def databaseFeed : FeedStore (RunTables × AccountTables) RunDetail :=
  ⟨fun db => db.1.find, fun db => db.1.snapshot⟩

/-- User 7 with an account, active or not. -/
def streamAccounts (active : Bool) : AccountTables :=
  ⟨⟨[⟨7, none, none, active⟩], List.nodup_singleton _⟩, .empty, [], .empty⟩

/-- User 7 opens a stream; the account is deactivated, and then a change of the run is published. -/
def streamSession : List (Label ℕ StreamAction ((RunTables × AccountTables) ⊕ ℚ × ℚ)) :=
  [.act 0 (.feed (.call .available)), .act 1 (.arrive 7 (some 100))] ++
  List.replicate 16 (.act 1 (.run false 3000)) ++
  [.env (.inl (feedTables, streamAccounts false)), .act 0 (.feed (.call (.publish [(1, some 7)])))] ++
  List.replicate 5 (.act 0 (.feed (.run false))) ++ [.act 2 (.feed (.callback 0))] ++
  List.replicate 7 (.act 1 (.run false 3000))

/-- It is over. -/
def StreamThread.over (l : StreamThread (Stamped RunDetail)) : Bool :=
  match l with
  | .request (.stream _ .done) => true
  | _ => false

theorem stream_guarded_session : ∃ c stream, Reachable (streams databaseFeed fun db => db.2.isActive) (fun _ _ => True)
      ⟨StreamWorld.start 5 100 100 (feedTables, streamAccounts true) ⟨1, 1, 0⟩, fun _ => .feed .idle⟩ c ∧
    c.procs 1 = .request (.stream stream .done) ∧ Ended (sentFrames (c.shared.trace 1)) := by
  have hpasses : (streams databaseFeed fun db => db.2.isActive).passes
      ⟨StreamWorld.start 5 100 100 (feedTables, streamAccounts true) ⟨1, 1, 0⟩, fun _ => .feed .idle⟩
      [(streamSession, fun c => (c.procs 1).over)] = true := by decide +kernel
  obtain ⟨c, hrun, hcheck, -⟩ := System.passes_cons hpasses
  have hr : Reachable (streams databaseFeed fun db => db.2.isActive) (fun _ _ => True) _ c :=
    reachable_of_run (fun _ _ _ => trivial) hrun
  have hover : ∃ stream, c.procs 1 = .request (.stream stream .done) := by
    revert hcheck
    generalize c.procs 1 = l
    intro hcheck
    unfold StreamThread.over at hcheck
    split at hcheck
    · exact ⟨_, rfl⟩
    · exact absurd hcheck Bool.false_ne_true
  obtain ⟨stream, hstream⟩ := hover
  have hopened : (c.procs 1).stream? = some stream := by rw [hstream]; rfl
  exact ⟨c, stream, hr, hstream, (stream_guarded hr hopened).2.2.2.1 hstream⟩

end Mic3

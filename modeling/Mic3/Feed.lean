import Mathlib.Data.Finset.Card
import Mic3.Lib.Dict
import Mic3.Uuid

/-! `RunFeed`: personal subscriptions and the fan-out of changed runs to them. Every method's section under
`_lock` is one function here; `publish` and `snapshot`, which hold `_reads` around several of them and around
the reads of the store, are programs of such sections. -/
namespace Mic3
open Relational

/-- The states of runs, as the store reads them. -/
class FeedItem (R : Type) where
  id : R → UUID
  requestedBy : R → Option UUID

inductive FeedError where
  | unavailable
  | resyncRequired
  deriving DecidableEq

def FeedError.text : FeedError → String
  | .unavailable => "unavailable"
  | .resyncRequired => "resync_required"

/-- What `subscribe` and `snapshot` raise. -/
inductive FeedRefusal where
  | feedUnavailable
  | feedLimitExceeded
  | storeFailure
  deriving DecidableEq

/-- `scheduled` counts the calls of `changed.set` that the loop has yet to run. -/
structure Subscription (R : Type) where
  userId : UUID
  changed : Bool
  scheduled : ℕ
  pending : Dict UUID R
  error : Option FeedError

/-- The feed and every subscription object there ever was; `subscriptions` are those it serves. -/
structure RunFeed (R : Type) where
  perUser : ℕ
  total : ℕ
  pendingLimit : ℕ
  isAvailable : Bool
  subscriptions : Finset ℕ
  created : ℕ
  object : ℕ → Subscription R

variable {R : Type}

/-- `loop.call_soon_threadsafe(changed.set)`. -/
def Subscription.wake (sub : Subscription R) : Subscription R := { sub with scheduled := sub.scheduled + 1 }

/-- The loop runs a scheduled `changed.set`. -/
def Subscription.callback (sub : Subscription R) : Subscription R :=
  { sub with changed := true, scheduled := sub.scheduled - 1 }

/-- `_fail`. -/
def Subscription.fail (code : FeedError) (sub : Subscription R) : Subscription R :=
  if sub.error = none then { sub with error := some code, pending := .empty }.wake else sub

/-- `pending[run.id] = run`. -/
def Subscription.put [FeedItem R] (run : R) (sub : Subscription R) : Subscription R :=
  { sub with pending := sub.pending.set (FeedItem.id run) run }

/-- The body of the loop of `_deliver`. -/
def Subscription.deliver [FeedItem R] (limit : ℕ) (run : R) (sub : Subscription R) : Subscription R :=
  if sub.error ≠ none ∨ FeedItem.requestedBy run ≠ some sub.userId then sub
  else if FeedItem.id run ∉ sub.pending.keys ∧ limit ≤ sub.pending.size then sub.fail .resyncRequired
  else
    -- `wake = not sub.pending`, before the run is put there
    if sub.pending.size = 0 then (sub.put run).wake else sub.put run

/-- `changed.clear()` and `pending.clear()` of `drain`. -/
def Subscription.drained (sub : Subscription R) : Subscription R := { sub with changed := false, pending := .empty }

namespace RunFeed

/-- A feed at its start. -/
def init (perUser total pendingLimit : ℕ) : RunFeed R :=
  ⟨perUser, total, pendingLimit, false, ∅, 0, fun _ => ⟨0, false, 0, .empty, none⟩⟩

/-- `for sub in self._subscriptions`. -/
def forEach (feed : RunFeed R) (f : Subscription R → Subscription R) : RunFeed R :=
  { feed with object := fun s => if s ∈ feed.subscriptions then f (feed.object s) else feed.object s }

def update (feed : RunFeed R) (s : ℕ) (f : Subscription R → Subscription R) : RunFeed R :=
  { feed with object := fun s' => if s' = s then f (feed.object s) else feed.object s' }

def available (feed : RunFeed R) : RunFeed R := { feed with isAvailable := true }

def unavailable (feed : RunFeed R) : RunFeed R :=
  { feed with isAvailable := false }.forEach (Subscription.fail .unavailable)

def subscribe (feed : RunFeed R) (userId : UUID) : Except FeedRefusal (RunFeed R × ℕ) :=
  if ¬ feed.isAvailable then throw .feedUnavailable
  else if feed.total ≤ feed.subscriptions.card ∨
      feed.perUser ≤ (feed.subscriptions.filter fun s => (feed.object s).userId = userId).card then
    throw .feedLimitExceeded
  else pure ({ feed with
    subscriptions := insert feed.created feed.subscriptions
    created := feed.created + 1
    object := fun s => if s = feed.created then ⟨userId, false, 0, .empty, none⟩ else feed.object s }, feed.created)

def unsubscribe (feed : RunFeed R) (s : ℕ) : RunFeed R :=
  { feed with subscriptions := feed.subscriptions.erase s }

/-- The section of `snapshot` that ends it. -/
def finishSnapshot (feed : RunFeed R) (s : ℕ) : Except FeedRefusal (RunFeed R) :=
  if (feed.object s).error ≠ none ∨ ¬ feed.isAvailable then throw .feedUnavailable
  else pure (feed.update s fun sub => { sub with pending := .empty })

/-- The users with a stream that has not failed. -/
def watched (feed : RunFeed R) : Finset UUID :=
  (feed.subscriptions.filter fun s => (feed.object s).error = none).image fun s => (feed.object s).userId

def callback (feed : RunFeed R) (s : ℕ) : RunFeed R := feed.update s Subscription.callback

def drain (feed : RunFeed R) (s : ℕ) : RunFeed R × Option FeedError × List R :=
  (feed.update s Subscription.drained, (feed.object s).error, (feed.object s).pending.values)

def deliver [FeedItem R] (feed : RunFeed R) (run : R) : RunFeed R :=
  feed.forEach (Subscription.deliver feed.pendingLimit run)

def resync (feed : RunFeed R) (owner : Option UUID) : RunFeed R :=
  feed.forEach fun sub => if owner = none ∨ owner = some sub.userId then sub.fail .resyncRequired else sub

end RunFeed

/-- A change of a run, and its owner when that is known. -/
abbrev RunChange := UUID × Option UUID

namespace Publish

/-- Where `publish` is; it holds `_reads`. -/
inductive Pc (R : Type) where
  | next (changes : List RunChange) (storeFailed : Bool)
  | resync (owner : Option UUID) (changes : List RunChange)
  | find (runId : UUID) (owner : Option UUID) (changes : List RunChange)
  | deliver (run : R) (changes : List RunChange)

/-- One section of `publish`, with what `store.find` gives there; without a `Pc` it returns. -/
def step [FeedItem R] (feed : RunFeed R) (found : Except FeedRefusal (Option R)) : Pc R → RunFeed R × Option (Pc R)
  | .next [] _ => (feed, none)
  | .next ((runId, owner) :: changes) storeFailed =>
    if feed.watched = ∅ then (feed, none)
    else if owner.any (· ∉ feed.watched) then (feed, some (.next changes storeFailed))
    else if storeFailed then (feed, some (.resync owner changes))
    else (feed, some (.find runId owner changes))
  | .resync owner changes => (feed.resync owner, some (.next changes true))
  | .find _ owner changes =>
    match found with
    | .error _ => (feed, some (.resync owner changes))
    | .ok none => (feed, some (.next changes false))
    | .ok (some run) =>
      if FeedItem.requestedBy run = none then (feed, some (.next changes false))
      else (feed, some (.deliver run changes))
  | .deliver run changes => (feed.deliver run, some (.next changes false))

end Publish

end Mic3

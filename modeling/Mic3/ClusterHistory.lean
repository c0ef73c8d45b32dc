import Mic3.Emissions
import Mic3.Layers

/-! The Job objects there ever were: each existing object is one of those that were created, and no two
creations have one uid. -/
namespace Mic3
open Relational Interleaving

/-- Every object of the cluster was created under its key, with a uid of its own. -/
structure Cluster.Recorded (k : Cluster) : Prop where
  jobs : ∀ key job, k.jobs key = some job → (key, job.uid) ∈ k.created
  named : ∀ entry ∈ k.created, entry.2 ≠ ""
  distinct : (k.created.map (·.2)).Nodup

def clusterHistory : Contract Pid World Proc where
  inv := fun w => w.cluster.Recorded
  assert := fun _ _ _ => True
  guarantee := fun _ w w' => w.cluster.created ⊆ w'.cluster.created

def Effect.creates : Effect → Bool
  | .createJob .. => true
  | _ => false

section Effects
variable {p : Pid} {w w' : World} {e : Effect}

theorem cluster_apply (hc : e.creates = false) (ha : w.apply p e = some w') : w'.cluster = w.cluster := by
  cases e with
  | createJob key job => contradiction
  | lock k =>
    obtain ⟨locks, -, rfl⟩ := lock_apply ha
    rfl
  | share k =>
    obtain ⟨locks, -, rfl⟩ := share_apply ha
    rfl
  | commit change entries =>
    obtain ⟨tables, -, rfl⟩ := commit_apply ha
    rfl
  | sessionLock key =>
    obtain ⟨-, rfl⟩ := sessionLock_apply ha
    rfl
  | acknowledge | assign | poll | commitOffset =>
    obtain ⟨-, h⟩ := Option.ite_none_right_eq_some.mp ha
    obtain rfl := Option.some.inj h
    rfl
  | read | rollback | sessionUnlock | produce | closeConsumer | disconnect =>
    obtain rfl := Option.some.inj ha
    rfl

theorem create_recorded {byWorker : Bool} {key : JobKey} {job : JobObject}
    (h : w.create byWorker key job = some w') (hr : w.cluster.Recorded) : w'.cluster.Recorded := by
  obtain ⟨⟨-, hne, hfresh⟩, rfl⟩ := create_apply h
  refine ⟨fun k j hj => ?_, List.forall_mem_cons.mpr ⟨hne, hr.named⟩, ?_⟩
  · by_cases hk : k = key
    · subst hk
      obtain rfl : job = j := by simpa using hj
      exact List.mem_cons_self
    · exact List.mem_cons_of_mem _ (hr.jobs k j (by simpa [hk] using hj))
  · exact List.nodup_cons.mpr ⟨hfresh, hr.distinct⟩

theorem create_subset {byWorker : Bool} {key : JobKey} {job : JobObject}
    (h : w.create byWorker key job = some w') :
    w.cluster.created ⊆ w'.cluster.created := by
  obtain ⟨-, rfl⟩ := create_apply h
  exact List.subset_cons_self _ _

end Effects

theorem clusterHistory_layer (x : External) : Layer clusterHistory .trivial x where
  start := fun _ _ _ => trivial
  failing := fun _ _ _ => trivial
  refl := fun _ _ => List.Subset.refl _
  step := by
    intro p w i l e l' w' _ ha _ _ _ hr _
    cases hc : e.creates with
    | false =>
      have hsame := cluster_apply hc ha
      exact ⟨by simpa only [clusterHistory, hsame] using hr, trivial, by simp [clusterHistory, hsame]⟩
    | true =>
      cases e with
      | createJob key job => exact ⟨create_recorded ha hr, trivial, create_subset ha⟩
      | _ => contradiction

theorem clusterHistory_event {w w' : World} {ev : External.Event} (he : w.event ev = some w')
    (hr : w.cluster.Recorded) : w'.cluster.Recorded := by
  cases ev with
  | createJob key job => exact create_recorded he hr
  | updateJob key job =>
    obtain ⟨old, hold, rfl⟩ := Option.map_eq_some_iff.mp he
    refine ⟨fun k j hj => ?_, hr.named, hr.distinct⟩
    by_cases hk : k = key
    · subst hk
      obtain rfl : { job with uid := old.uid } = j := by simpa using hj
      exact hr.jobs k old hold
    · exact hr.jobs k j (by simpa [hk] using hj)
  | deleteJob key =>
    obtain rfl := Option.some.inj he
    refine ⟨fun k j hj => ?_, hr.named, hr.distinct⟩
    by_cases hk : k = key
    · simp [hk] at hj
    · exact hr.jobs k j (by simpa [hk] using hj)
  | deliver sent partition =>
    obtain ⟨record, -, rfl⟩ := Option.map_eq_some_iff.mp he
    exact hr
  | addUser | append | revoke =>
    obtain rfl := Option.some.inj he
    exact hr

theorem initial_recorded : World.initial.cluster.Recorded where
  jobs := fun _ _ h => (by cases h)
  named := List.forall_mem_nil _
  distinct := List.nodup_nil

theorem clusterHistory_established (x : External) :
    clusterHistory.Established (platform x) (fun _ _ => True) initial := by
  have hproof : clusterHistory.Proof .trivial (platform x) fun _ _ => True :=
    { act := fun p a w l w' l' _ ha hinv hl hg hr hk =>
        (clusterHistory_layer x).act (fun _ _ _ => trivial) ha hinv hl hg hr hk
      stable := fun _ _ _ _ _ _ _ _ _ _ _ _ => trivial
      env := fun _ _ _ _ he _ hr => ⟨clusterHistory_event he hr, fun _ _ _ _ => trivial⟩ }
  have hinit : clusterHistory.Holds initial := ⟨initial_recorded, fun _ => trivial⟩
  exact (hproof.established Contract.trivial_established hinit).left

end Mic3

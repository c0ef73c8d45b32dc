import Mathlib.Logic.Function.Basic
import Mathlib.Data.List.Basic

/-! A lock table: every key has at most one exclusive owner and any number of sharers, and an
exclusive lock excludes every other process. A request that has to wait has no result. -/
namespace Interleaving

structure LockTable (K P : Type*) where
  owner : K → Option P
  sharers : K → List P

namespace LockTable
variable {K P : Type*} [DecidableEq P]

def free : LockTable K P := ⟨fun _ => none, fun _ => []⟩

/-- Everything `p` holds, dropped at once. -/
def release (l : LockTable K P) (p : P) : LockTable K P where
  owner := fun k => if l.owner k = some p then none else l.owner k
  sharers := fun k => (l.sharers k).filter (· ≠ p)

variable {l l' : LockTable K P} {p q : P} {k j : K}

theorem owner_release_of_ne (hq : q ≠ p) (hj : l.owner j = some q) :
    (l.release p).owner j = some q := by
  simp [release, hj, hq]

theorem owner_of_release (h : (l.release p).owner j = some q) : l.owner j = some q := by
  simp only [release] at h
  split at h
  · contradiction
  · exact h

variable [DecidableEq K]

def acquire (l : LockTable K P) (p : P) (k : K) : Option (LockTable K P) :=
  if (l.owner k = none ∨ l.owner k = some p) ∧ ∀ q ∈ l.sharers k, q = p then
    some { l with owner := Function.update l.owner k (some p) }
  else none

def share (l : LockTable K P) (p : P) (k : K) : Option (LockTable K P) :=
  if l.owner k = none ∨ l.owner k = some p then
    some { l with sharers := Function.update l.sharers k (p :: l.sharers k) }
  else none

theorem owner_acquire (h : l.acquire p k = some l') : l'.owner k = some p := by
  unfold acquire at h
  split at h
  · obtain rfl := Option.some.inj h
    simp
  · contradiction

/-- Nobody's lock is taken away by an acquisition. -/
theorem owner_acquire_of_owner (h : l.acquire p k = some l') (hj : l.owner j = some q) :
    l'.owner j = some q := by
  unfold acquire at h
  split at h
  · rename_i hfree
    obtain rfl := Option.some.inj h
    by_cases hjk : j = k
    · subst hjk
      rcases hfree.1 with hn | hp
      · rw [hn] at hj; contradiction
      · simpa [hp] using hj
    · simpa [hjk] using hj
  · contradiction

theorem owner_acquire_of_ne (h : l.acquire p k = some l') (hj : j ≠ k) : l'.owner j = l.owner j := by
  obtain ⟨-, h⟩ := Option.ite_none_right_eq_some.mp h
  obtain rfl := Option.some.inj h
  exact Function.update_of_ne hj _ _

theorem owner_share (h : l.share p k = some l') : l'.owner = l.owner := by
  unfold share at h
  split at h
  · obtain rfl := Option.some.inj h
    rfl
  · contradiction

theorem sharers_acquire (h : l.acquire p k = some l') : l'.sharers = l.sharers ∧ ∀ q ∈ l.sharers k, q = p := by
  obtain ⟨hfree, h⟩ := Option.ite_none_right_eq_some.mp h
  obtain rfl := Option.some.inj h
  exact ⟨rfl, hfree.2⟩

/-- `p` is the owner or a sharer. -/
def Holds (l : LockTable K P) (p : P) (k : K) : Prop := l.owner k = some p ∨ p ∈ l.sharers k

/-- Nobody shares what another one owns. -/
def Exclusive (l : LockTable K P) : Prop := ∀ k p, l.owner k = some p → ∀ q ∈ l.sharers k, q = p

omit [DecidableEq P] [DecidableEq K] in
theorem Exclusive.eq (h : l.Exclusive) (hp : l.owner k = some p) (hq : l.Holds q k) : q = p := by
  rcases hq with howner | hshares
  · exact Option.some.inj (howner.symm.trans hp)
  · exact h k p hp q hshares

omit [DecidableEq P] [DecidableEq K] in
theorem exclusive_free : (free : LockTable K P).Exclusive := fun _ _ h => by cases h

omit [DecidableEq K] in
theorem holds_release (h : (l.release p).Holds q k) : l.Holds q k ∧ q ≠ p := by
  rcases h with howner | hshares
  · refine ⟨.inl (owner_of_release howner), ?_⟩
    rintro rfl
    simp only [release] at howner
    split at howner
    · contradiction
    · exact absurd howner ‹_›
  · obtain ⟨hmem, hne⟩ := List.mem_filter.mp hshares
    exact ⟨.inr hmem, of_decide_eq_true hne⟩

omit [DecidableEq K] in
theorem Exclusive.release (h : l.Exclusive) (p : P) : (l.release p).Exclusive := by
  intro k q hq r hr
  exact h k q (owner_of_release hq) r (List.mem_of_mem_filter hr)

theorem holds_acquire (h : l.acquire p k = some l') (hj : l'.Holds q j) : l.Holds q j ∨ q = p ∧ j = k := by
  obtain ⟨hsharers, -⟩ := sharers_acquire h
  rcases hj with howner | hshares
  · by_cases hjk : j = k
    · subst hjk
      rw [owner_acquire h] at howner
      exact .inr ⟨(Option.some.inj howner).symm, rfl⟩
    · exact .inl (.inl ((owner_acquire_of_ne h hjk).symm.trans howner))
  · exact .inl (.inr (hsharers ▸ hshares))

theorem Exclusive.acquire (h : l.Exclusive) (ha : l.acquire p k = some l') : l'.Exclusive := by
  obtain ⟨hsharers, hown⟩ := sharers_acquire ha
  intro j q hq r hr
  rw [hsharers] at hr
  by_cases hjk : j = k
  · subst hjk
    rw [owner_acquire ha] at hq
    exact (hown r hr).trans (Option.some.inj hq)
  · exact h j q ((owner_acquire_of_ne ha hjk).symm.trans hq) r hr

theorem share_eq (h : l.share p k = some l') : (l.owner k = none ∨ l.owner k = some p) ∧
    l' = { l with sharers := Function.update l.sharers k (p :: l.sharers k) } := by
  obtain ⟨hfree, h⟩ := Option.ite_none_right_eq_some.mp h
  exact ⟨hfree, (Option.some.inj h).symm⟩

theorem holds_share (h : l.share p k = some l') (hj : l'.Holds q j) : l.Holds q j ∨ q = p ∧ j = k := by
  obtain ⟨-, rfl⟩ := share_eq h
  rcases hj with howner | hshares
  · exact .inl (.inl howner)
  · by_cases hjk : j = k
    · subst hjk
      simp only [Function.update_self, List.mem_cons] at hshares
      exact hshares.elim (fun hq => .inr ⟨hq, rfl⟩) (fun hq => .inl (.inr hq))
    · simp only [Function.update_of_ne hjk] at hshares
      exact .inl (.inr hshares)

theorem Exclusive.share (h : l.Exclusive) (ha : l.share p k = some l') : l'.Exclusive := by
  obtain ⟨hfree, rfl⟩ := share_eq ha
  intro j q hq r hr
  by_cases hjk : j = k
  · subst hjk
    simp only [Function.update_self, List.mem_cons] at hr
    rcases hr with rfl | hr
    · rcases hfree with hnone | hself
      · exact absurd (hnone.symm.trans hq) (Option.some_ne_none q).symm
      · exact Option.some.inj (hself.symm.trans hq)
    · exact h j q hq r hr
  · simp only [Function.update_of_ne hjk] at hr
    exact h j q hq r hr

end LockTable
end Interleaving

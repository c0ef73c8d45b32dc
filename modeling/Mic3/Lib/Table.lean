import Mathlib.Data.List.Nodup

/-! Tables whose rows carry their own primary key. The key's uniqueness is a field of the table,
so an insertion that would break it has no result and an update in place cannot break it. -/
namespace Relational

/-- A row type with a primary key in `κ`. -/
class Keyed (α : Type*) (κ : outParam Type*) where
  key : α → κ

export Keyed (key)

structure Table (α : Type*) {κ : Type*} [Keyed α κ] where
  rows : List α
  nodup : (rows.map key).Nodup

namespace Table
variable {α κ : Type*} [Keyed α κ]

def empty : Table α := ⟨[], List.nodup_nil⟩

instance : Inhabited (Table α) := ⟨empty⟩

def count (t : Table α) (p : α → Bool) : ℕ := t.rows.countP p

@[simp] theorem count_empty (p : α → Bool) : (empty : Table α).count p = 0 := rfl

theorem count_congr {t : Table α} {p q : α → Bool} (h : ∀ r ∈ t.rows, p r = q r) :
    t.count p = t.count q :=
  List.countP_congr fun r hr => by rw [h r hr]

theorem count_mono {t : Table α} {p q : α → Bool} (h : ∀ r ∈ t.rows, p r = true → q r = true) :
    t.count p ≤ t.count q :=
  List.countP_mono_left h

variable [DecidableEq κ]

/-- The row at a key. -/
def find? (t : Table α) (k : κ) : Option α := t.rows.find? fun r => key r = k

/-- Insertion fails on a key that is already there. -/
def insert (t : Table α) (r : α) : Option (Table α) :=
  if h : key r ∈ t.rows.map key then none
  else some ⟨r :: t.rows, by simpa only [List.map_cons, List.nodup_cons] using ⟨h, t.nodup⟩⟩

/-- The row at the key of `r` becomes `r`; without one nothing changes. -/
def replace (t : Table α) (r : α) : Table α where
  rows := t.rows.map fun x => if key x = key r then r else x
  nodup := by
    have hk : (t.rows.map fun x => if key x = key r then r else x).map key = t.rows.map key := by
      rw [List.map_map]
      apply List.map_congr_left
      intro x _
      by_cases hx : key x = key r <;> simp [hx]
    rw [hk]
    exact t.nodup

/-- The table without the row at a key. -/
def delete (t : Table α) (k : κ) : Table α where
  rows := t.rows.filter fun r => key r ≠ k
  nodup := t.nodup.sublist (List.filter_sublist.map key)

def insertAll (t : Table α) : List α → Option (Table α)
  | [] => some t
  | r :: rs => (t.insert r).bind fun t' => t'.insertAll rs

/-- The row at a key, changed by `f`. -/
def modify (t : Table α) (k : κ) (f : α → α) : Table α :=
  match t.find? k with
  | some r => t.replace (f r)
  | none => t

@[simp] theorem find?_empty (k : κ) : (empty : Table α).find? k = none := rfl

variable {t t' : Table α} {r s : α} {k j : κ}

theorem key_of_find? (h : t.find? k = some r) : key r = k := by
  simpa using List.find?_some h

theorem mem_of_find? (h : t.find? k = some r) : r ∈ t.rows := List.mem_of_find?_eq_some h

theorem find?_of_mem (h : r ∈ t.rows) : t.find? (key r) = some r := by
  obtain ⟨rows, hn⟩ := t
  simp only [find?] at *
  induction rows with
  | nil => simp at h
  | cons x xs ih =>
    simp only [List.map_cons, List.nodup_cons] at hn
    rw [List.find?_cons]
    rcases List.mem_cons.mp h with rfl | hx
    · simp
    · have hne : key x ≠ key r := fun he => hn.1 (he ▸ List.mem_map_of_mem hx)
      simpa [hne] using ih hn.2 hx

theorem mem_iff_find? : r ∈ t.rows ↔ t.find? (key r) = some r :=
  ⟨find?_of_mem, mem_of_find?⟩

/-- At most one row has the key. -/
theorem filter_key (t : Table α) (k : κ) : (t.rows.filter fun r => key r = k) = (t.find? k).toList := by
  cases hk : t.find? k with
  | none => exact List.filter_eq_nil_iff.mpr fun r hr => List.find?_eq_none.mp hk r hr
  | some r =>
    have hnodup := (t.nodup.of_map key).filter fun r => decide (key r = k)
    refine (List.perm_ext_iff_of_nodup hnodup (List.nodup_singleton r)).mpr (fun s => ?_) |>.eq_singleton
    rw [List.mem_filter, List.mem_singleton, decide_eq_true_iff, mem_iff_find?]
    constructor
    · rintro ⟨hs, rfl⟩
      exact Option.some.inj (hs.symm.trans hk)
    · rintro rfl
      exact ⟨key_of_find? hk ▸ hk, key_of_find? hk⟩

theorem find?_eq_none : t.find? k = none ↔ k ∉ t.rows.map key := by
  simp only [find?, List.find?_eq_none, decide_eq_true_eq, List.mem_map, not_exists, not_and]

theorem find?_insert (h : t.insert r = some t') :
    t'.find? k = if k = key r then some r else t.find? k := by
  unfold insert at h
  split at h
  · contradiction
  · obtain rfl := Option.some.inj h
    by_cases hk : k = key r
    · simp [find?, hk]
    · simp [find?, hk, Ne.symm hk]

theorem insert_fresh (h : t.insert r = some t') : t.find? (key r) = none := by
  unfold insert at h
  split at h
  · contradiction
  · rwa [find?_eq_none]

theorem insert_isSome (h : t.find? (key r) = none) : ∃ t', t.insert r = some t' := by
  unfold insert
  rw [dif_neg (find?_eq_none.mp h)]
  exact ⟨_, rfl⟩

theorem rows_insert (h : t.insert r = some t') : t'.rows = r :: t.rows := by
  unfold insert at h
  split at h
  · contradiction
  · obtain rfl := Option.some.inj h
    rfl

theorem find?_insert_of_some (h : t.insert r = some t') (hs : t.find? k = some s) :
    t'.find? k = some s := by
  rw [find?_insert h, if_neg, hs]
  rintro rfl
  rw [insert_fresh h] at hs
  contradiction

theorem count_insert (h : t.insert r = some t') (p : α → Bool) :
    t'.count p = t.count p + if p r then 1 else 0 := by
  simp only [count, rows_insert h, List.countP_cons]

theorem find?_replace (t : Table α) (r : α) (k : κ) :
    (t.replace r).find? k = if k = key r then (t.find? k).map fun _ => r else t.find? k := by
  have hp : ((fun x => decide (key x = k)) ∘ fun x => if key x = key r then r else x) =
      fun x : α => decide (key x = k) := by
    funext x
    by_cases hx : key x = key r <;> simp [hx]
  rw [find?, replace, List.find?_map, hp]
  change (t.find? k).map _ = _
  cases h : t.find? k with
  | none => simp
  | some s =>
    have hs := key_of_find? h
    by_cases hk : k = key r <;> simp [hs, hk]

theorem find?_replace_self (h : t.find? (key r) = some s) : (t.replace r).find? (key r) = some r := by
  rw [find?_replace, if_pos rfl, h]
  rfl

theorem find?_replace_of_ne (h : k ≠ key r) : (t.replace r).find? k = t.find? k := by
  rw [find?_replace, if_neg h]

/-- Replacing a row moves a count by what the two rows contribute. -/
theorem count_replace (h : t.find? (key r) = some s) (p : α → Bool) :
    (t.replace r).count p + (if p s then 1 else 0) = t.count p + if p r then 1 else 0 := by
  obtain ⟨rows, hn⟩ := t
  simp only [find?, replace, count] at *
  induction rows with
  | nil => simp at h
  | cons x xs ih =>
    simp only [List.map_cons, List.nodup_cons] at hn
    rw [List.find?_cons] at h
    by_cases hx : key x = key r
    · have hs : x = s := by simpa [hx] using h
      subst hs
      -- No later row has this key, so the rest of the table stays as it is.
      have hrest : (xs.map fun y => if key y = key r then r else y) = xs := by
        conv_rhs => rw [← List.map_id xs]
        apply List.map_congr_left
        intro y hy
        have hne : key y ≠ key r := fun he => hn.1 (hx ▸ he ▸ List.mem_map_of_mem hy)
        simp [hne]
      simp only [List.map_cons, hx, if_true, hrest, List.countP_cons]
      omega
    · have hrec := ih hn.2 (by simpa [hx] using h)
      simp only [List.map_cons, if_neg hx, List.countP_cons]
      omega

theorem find?_insertAll {rs : List α} (h : t.insertAll rs = some t') :
    t'.find? k = (t.find? k).or (rs.find? fun r => key r = k) := by
  induction rs generalizing t with
  | nil =>
    obtain rfl := Option.some.inj h
    simp
  | cons x xs ih =>
    obtain ⟨u, hu, hrest⟩ := Option.bind_eq_some_iff.mp h
    rw [ih hrest, find?_insert hu, List.find?_cons]
    by_cases hk : k = key x
    · have hnone : t.find? k = none := hk ▸ insert_fresh hu
      simp [hk, hk ▸ hnone]
    · simp [hk, Ne.symm hk]

theorem rows_insertAll {rs : List α} (h : t.insertAll rs = some t') :
    t'.rows = rs.reverse ++ t.rows := by
  induction rs generalizing t with
  | nil =>
    obtain rfl := Option.some.inj h
    rfl
  | cons x xs ih =>
    obtain ⟨u, hu, hrest⟩ := Option.bind_eq_some_iff.mp h
    rw [ih hrest, rows_insert hu]
    simp

theorem find?_modify {f : α → α} (hf : ∀ r, key (f r) = key r) :
    (t.modify k f).find? j = if j = k then (t.find? k).map f else t.find? j := by
  unfold modify
  cases h : t.find? k with
  | none =>
    by_cases hk : j = k
    · simp [hk, h]
    · simp [hk]
  | some r =>
    have hr : key (f r) = k := (hf r).trans (key_of_find? h)
    simp only [find?_replace, hr]
    by_cases hk : j = k
    · simp [hk, h]
    · simp [hk]

/-- A view of the rows that `f` does not change is the same after a modification. -/
theorem map_rows_modify {β : Type*} {f : α → α} {g : α → β} (hf : ∀ r, key (f r) = key r)
    (hg : ∀ r, g (f r) = g r) : (t.modify k f).rows.map g = t.rows.map g := by
  unfold modify
  cases h : t.find? k with
  | none => rfl
  | some r =>
    simp only [replace, List.map_map]
    apply List.map_congr_left
    intro x hx
    by_cases hk : key x = key (f r)
    · have hxr : x = r := by
        have hfind := find?_of_mem hx
        rw [hk, hf, key_of_find? h, h] at hfind
        exact (Option.some.inj hfind).symm
      simp [hxr, hf, hg]
    · simp [hk]

theorem replace_self (h : r ∈ t.rows) : t.replace r = t := by
  have hrows : (t.rows.map fun x => if key x = key r then r else x) = t.rows := by
    conv_rhs => rw [← List.map_id t.rows]
    refine List.map_congr_left fun x hx => ?_
    split
    · exact (List.inj_on_of_nodup_map t.nodup hx h ‹_›).symm
    · rfl
  obtain ⟨rows, hn⟩ := t
  simp only [replace, hrows]

/-- A change that leaves the row as it is changes nothing. -/
theorem modify_self {f : α → α} (h : t.find? k = some r) (hf : f r = r) : t.modify k f = t := by
  simp only [modify, h, hf, replace_self (mem_of_find? h)]

theorem modify_congr {f g : α → α} (h : t.find? k = some r) (hfg : f r = g r) : t.modify k f = t.modify k g := by
  simp only [modify, h, hfg]

/-- Changing a row moves a count by what the row contributed and what it contributes now. -/
theorem count_modify {f : α → α} (hf : ∀ r, key (f r) = key r) (h : t.find? k = some r)
    (p : α → Bool) :
    (t.modify k f).count p + (if p r then 1 else 0) = t.count p + if p (f r) then 1 else 0 := by
  have hr : key (f r) = k := (hf r).trans (key_of_find? h)
  have hfind : t.find? (key (f r)) = some r := hr ▸ h
  simpa only [modify, h] using count_replace hfind p

end Table
end Relational

import Mathlib.Data.List.Nodup

/-! Dictionaries in insertion order: a key keeps its place when its value is set again. -/
namespace Relational

structure Dict (κ α : Type*) where
  entries : List (κ × α)
  nodup : (entries.map Prod.fst).Nodup

namespace Dict
variable {κ α : Type*}

def empty : Dict κ α := ⟨[], List.nodup_nil⟩

instance : Inhabited (Dict κ α) := ⟨empty⟩

def keys (d : Dict κ α) : List κ := d.entries.map Prod.fst

def values (d : Dict κ α) : List α := d.entries.map Prod.snd

def size (d : Dict κ α) : ℕ := d.entries.length

@[simp] theorem size_empty : (empty : Dict κ α).size = 0 := rfl

@[simp] theorem values_empty : (empty : Dict κ α).values = [] := rfl

theorem ext {d d' : Dict κ α} (h : d.entries = d'.entries) : d = d' := by
  obtain ⟨entries, hn⟩ := d
  obtain rfl : entries = d'.entries := h
  rfl

variable [DecidableEq κ]

def get? (d : Dict κ α) (k : κ) : Option α := (d.entries.find? fun e => e.1 = k).map Prod.snd

def set (d : Dict κ α) (k : κ) (a : α) : Dict κ α where
  entries :=
    if k ∈ d.keys then d.entries.map fun e => if e.1 = k then (k, a) else e
    else d.entries ++ [(k, a)]
  nodup := by
    split
    · have hkeys : (d.entries.map fun e => if e.1 = k then (k, a) else e).map Prod.fst = d.entries.map Prod.fst := by
        rw [List.map_map]
        apply List.map_congr_left
        intro e _
        by_cases he : e.1 = k <;> simp [he]
      rw [hkeys]
      exact d.nodup
    · rename_i hk
      rw [List.map_append]
      exact d.nodup.append (List.nodup_singleton _) (List.disjoint_singleton.mpr hk)

/-- `d.setdefault(k, a)`. -/
def setdefault (d : Dict κ α) (k : κ) (a : α) : Dict κ α := if k ∈ d.keys then d else d.set k a

/-- `d[k] = f(d[k])`, for a key that is there. -/
def adjust (d : Dict κ α) (k : κ) (f : α → α) : Dict κ α where
  entries := d.entries.map fun e => if e.1 = k then (e.1, f e.2) else e
  nodup := by
    have hkeys : (d.entries.map fun e => if e.1 = k then (e.1, f e.2) else e).map Prod.fst =
        d.entries.map Prod.fst := by
      rw [List.map_map]
      apply List.map_congr_left
      intro e _
      by_cases he : e.1 = k <;> simp [he]
    rw [hkeys]
    exact d.nodup

@[simp] theorem get?_empty (k : κ) : (empty : Dict κ α).get? k = none := rfl

variable {d : Dict κ α} {k j : κ} {a b : α}

theorem mem_of_get? (h : d.get? k = some a) : (k, a) ∈ d.entries := by
  obtain ⟨e, he, rfl⟩ := Option.map_eq_some_iff.mp h
  have hk : e.1 = k := by simpa using List.find?_some he
  exact hk ▸ List.mem_of_find?_eq_some he

theorem get?_of_mem (h : (k, a) ∈ d.entries) : d.get? k = some a := by
  obtain ⟨entries, hn⟩ := d
  simp only [get?] at *
  induction entries with
  | nil => simp at h
  | cons e es ih =>
    simp only [List.map_cons, List.nodup_cons] at hn
    rw [List.find?_cons]
    rcases List.mem_cons.mp h with rfl | hrest
    · simp
    · have hne : e.1 ≠ k := fun he => hn.1 (he ▸ List.mem_map_of_mem hrest)
      simpa [hne] using ih hn.2 hrest

theorem get?_iff_mem : d.get? k = some a ↔ (k, a) ∈ d.entries := ⟨mem_of_get?, get?_of_mem⟩

theorem mem_entries_set {e : κ × α} : e ∈ (d.set k a).entries ↔ e = (k, a) ∨ e.1 ≠ k ∧ e ∈ d.entries := by
  unfold set
  dsimp only
  split
  · rename_i hk
    obtain ⟨e₀, he₀, rfl⟩ := List.mem_map.mp hk
    constructor
    · intro h
      obtain ⟨e', he', rfl⟩ := List.mem_map.mp h
      split
      · exact .inl rfl
      · exact .inr ⟨‹_›, he'⟩
    · rintro (rfl | ⟨hne, he⟩)
      · exact List.mem_map.mpr ⟨e₀, he₀, if_pos rfl⟩
      · exact List.mem_map.mpr ⟨e, he, if_neg hne⟩
  · rename_i hk
    rw [List.mem_append, List.mem_singleton]
    constructor
    · rintro (he | rfl)
      · exact .inr ⟨fun hkey => hk (hkey ▸ List.mem_map_of_mem he), he⟩
      · exact .inl rfl
    · rintro (rfl | ⟨-, he⟩)
      · exact .inr rfl
      · exact .inl he

theorem get?_set : (d.set k a).get? j = if j = k then some a else d.get? j := by
  have hiff (b : α) : (d.set k a).get? j = some b ↔ (if j = k then some a else d.get? j) = some b := by
    rw [get?_iff_mem, mem_entries_set]
    by_cases hj : j = k
    · simp [hj, eq_comm]
    · simp [hj, get?_iff_mem]
  exact Option.ext hiff

theorem size_set_of_mem (h : k ∈ d.keys) : (d.set k a).size = d.size := by
  unfold set size
  dsimp only
  rw [if_pos h, List.length_map]

theorem size_set_of_notMem (h : k ∉ d.keys) : (d.set k a).size = d.size + 1 := by
  unfold set size
  dsimp only
  rw [if_neg h, List.length_append]
  rfl

theorem mem_values : a ∈ d.values ↔ ∃ k, d.get? k = some a := by
  simp only [values, List.mem_map, get?_iff_mem]
  constructor
  · rintro ⟨⟨k, a⟩, he, rfl⟩
    exact ⟨k, he⟩
  · rintro ⟨k, he⟩
    exact ⟨(k, a), he, rfl⟩

theorem entries_set_of_notMem (h : k ∉ d.keys) : (d.set k a).entries = d.entries ++ [(k, a)] := if_neg h

theorem keys_set_of_notMem (h : k ∉ d.keys) : (d.set k a).keys = d.keys ++ [k] := by
  rw [keys, entries_set_of_notMem h, List.map_append]
  rfl

theorem mem_keys_set : k ∈ (d.set k a).keys :=
  List.mem_map.mpr ⟨(k, a), mem_entries_set.mpr (.inl rfl), rfl⟩

theorem map_entries_of_notMem (h : k ∉ d.keys) (f : κ × α → κ × α) :
    (d.entries.map fun e => if e.1 = k then f e else e) = d.entries := by
  calc (d.entries.map fun e => if e.1 = k then f e else e)
      = d.entries.map id := List.map_congr_left fun e he => if_neg fun hk : e.1 = k => h (hk ▸ List.mem_map_of_mem he)
    _ = d.entries := d.entries.map_id

theorem set_set : (d.set k a).set k b = d.set k b := by
  apply ext
  change (if k ∈ (d.set k a).keys then _ else _) = _
  rw [if_pos mem_keys_set]
  unfold set
  dsimp only
  split
  · rw [List.map_map]
    apply List.map_congr_left
    intro e _
    by_cases he : e.1 = k <;> simp [he]
  · rename_i hk
    rw [List.map_append, map_entries_of_notMem hk fun _ => (k, b), List.map_singleton, if_pos rfl]

theorem setdefault_set : (d.set k a).setdefault k b = d.set k a := if_pos mem_keys_set

theorem setdefault_of_notMem (h : k ∉ d.keys) : d.setdefault k a = d.set k a := if_neg h

theorem adjust_set {f : α → α} (h : k ∉ d.keys) : (d.set k a).adjust k f = d.set k (f a) := by
  apply ext
  change (d.set k a).entries.map (fun e => if e.1 = k then (e.1, f e.2) else e) = _
  rw [entries_set_of_notMem h, entries_set_of_notMem h, List.map_append,
    map_entries_of_notMem h fun e => (e.1, f e.2), List.map_singleton, if_pos rfl]

/-- New keys are appended in their order. -/
theorem entries_foldl_set {β : Type*} {key : β → κ} {value : β → α} {l : List β} (hn : (l.map key).Nodup)
    (hnew : ∀ x ∈ l, key x ∉ d.keys) :
    (l.foldl (fun d x => d.set (key x) (value x)) d).entries = d.entries ++ l.map fun x => (key x, value x) := by
  induction l generalizing d with
  | nil => exact (List.append_nil _).symm
  | cons x l ih =>
    rw [List.map_cons, List.nodup_cons] at hn
    have hx : key x ∉ d.keys := hnew x List.mem_cons_self
    rw [List.foldl_cons, ih hn.2, entries_set_of_notMem hx, List.append_assoc]
    · rfl
    · intro y hy hmem
      rw [keys_set_of_notMem hx, List.mem_append, List.mem_singleton] at hmem
      rcases hmem with hmem | heq
      · exact hnew y (List.mem_cons_of_mem x hy) hmem
      · exact hn.1 (heq ▸ List.mem_map_of_mem hy)

end Dict
end Relational

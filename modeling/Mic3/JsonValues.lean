import Mic3.Json

/-! JSON values as dicts compare them: the order of an object's keys does not matter. -/
namespace Mic3

section Lookups
variable {α β κ : Type} [DecidableEq κ] {l l' : List (κ × α)} {k : κ} {a : α}

/-- With distinct keys a lookup finds any entry. -/
theorem lookup_iff_mem (hn : (l.map Prod.fst).Nodup) : l.lookup k = some a ↔ (k, a) ∈ l := by
  rw [List.lookup_eq_some_iff]
  constructor
  · rintro ⟨before, after, rfl, -⟩
    exact List.mem_append_right before List.mem_cons_self
  · intro hmem
    obtain ⟨before, after, rfl⟩ := List.mem_iff_append.mp hmem
    refine ⟨before, after, rfl, fun e he => ?_⟩
    have hdisjoint : e.1 ≠ k := by
      rw [List.map_append, List.map_cons] at hn
      have hkey : e.1 ∈ before.map Prod.fst := List.mem_map_of_mem he
      exact fun hek => (List.nodup_middle.mp hn).notMem (List.mem_append_left _ (hek ▸ hkey))
    exact bne_iff_ne.mpr hdisjoint.symm

theorem lookup_perm (hn : (l.map Prod.fst).Nodup) (h : l.Perm l') : l.lookup k = l'.lookup k := by
  refine Option.ext fun a => ?_
  have hn' : (l'.map Prod.fst).Nodup := (h.map Prod.fst).nodup_iff.mp hn
  rw [lookup_iff_mem hn, lookup_iff_mem hn', h.mem_iff]

theorem lookup_map_values (f : α → β) : (l.map fun e => (e.1, f e.2)).lookup k = (l.lookup k).map f := by
  induction l with
  | nil => rfl
  | cons e l ih =>
    rw [List.map_cons, List.lookup_cons, List.lookup_cons]
    cases k == e.1
    · exact ih
    · rfl

/-- Association lists with the same keys and lookups are permutations of each other. -/
theorem perm_of_lookup (hn : (l.map Prod.fst).Nodup) (hn' : (l'.map Prod.fst).Nodup)
    (h : ∀ k, l.lookup k = l'.lookup k) : l.Perm l' := by
  refine (List.perm_ext_iff_of_nodup (List.Nodup.of_map _ hn) (List.Nodup.of_map _ hn')).mpr fun e => ?_
  rw [show e = (e.1, e.2) from rfl, ← lookup_iff_mem hn, ← lookup_iff_mem hn', h]

end Lookups

namespace Json

mutual
/-- No dict has a key twice. -/
def Proper : Json → Prop
  | .arr items => ProperItems items
  | .obj fields => (fields.map Prod.fst).Nodup ∧ ProperFields fields
  | _ => True

def ProperItems : List Json → Prop
  | [] => True
  | x :: xs => x.Proper ∧ ProperItems xs

def ProperFields : List (String × Json) → Prop
  | [] => True
  | (_, x) :: xs => x.Proper ∧ ProperFields xs
end

mutual
/-- The value with the keys of every dict in order. -/
def ordered : Json → Json
  | .arr items => .arr (orderedItems items)
  | .obj fields => .obj ((orderedFields fields).insertionSort fun a b => a.1 ≤ b.1)
  | x => x

def orderedItems : List Json → List Json
  | [] => []
  | x :: xs => x.ordered :: orderedItems xs

def orderedFields : List (String × Json) → List (String × Json)
  | [] => []
  | (k, x) :: xs => (k, x.ordered) :: orderedFields xs
end

/-- Equality of JSON values: that of Python's dicts and lists. -/
def Same (a b : Json) : Prop := a.ordered = b.ordered

instance (a b : Json) : Decidable (a.Same b) := inferInstanceAs (Decidable (a.ordered = b.ordered))

variable {a b : Json} {items items' : List Json} {fields fields' : List (String × Json)} {k : String}

theorem properItems_iff : ProperItems items ↔ ∀ x ∈ items, x.Proper := by
  induction items with
  | nil => simp [ProperItems]
  | cons x xs ih => simp [ProperItems, ih]

theorem properFields_iff : ProperFields fields ↔ ∀ e ∈ fields, e.2.Proper := by
  induction fields with
  | nil => simp [ProperFields]
  | cons e xs ih => simp [ProperFields, ih]

theorem orderedItems_eq : orderedItems items = items.map ordered := by
  induction items with
  | nil => rfl
  | cons x xs ih => rw [orderedItems, ih, List.map_cons]

theorem orderedFields_eq : orderedFields fields = fields.map fun e => (e.1, e.2.ordered) := by
  induction fields with
  | nil => rfl
  | cons e xs ih => rw [orderedFields, ih, List.map_cons]

theorem keys_orderedFields : (orderedFields fields).map Prod.fst = fields.map Prod.fst := by
  rw [orderedFields_eq, List.map_map]
  rfl

theorem Same.refl (a : Json) : a.Same a := rfl

theorem Same.symm (h : a.Same b) : b.Same a := Eq.symm h

/-- Sorted entries with distinct keys are determined by what they are. -/
theorem insertionSort_eq_iff {α : Type} {l l' : List (String × α)} (hn : (l.map Prod.fst).Nodup) :
    (l.insertionSort fun a b => a.1 ≤ b.1) = (l'.insertionSort fun a b => a.1 ≤ b.1) ↔ l.Perm l' := by
  have hperm := List.perm_insertionSort (fun a b : String × α => a.1 ≤ b.1) l
  have hperm' := List.perm_insertionSort (fun a b : String × α => a.1 ≤ b.1) l'
  constructor
  · intro h
    exact hperm.symm.trans ((List.Perm.of_eq h).trans hperm')
  · intro h
    have htotal : Std.Total fun a b : String × α => a.1 ≤ b.1 := ⟨fun a b => le_total a.1 b.1⟩
    have htrans : IsTrans (String × α) fun a b => a.1 ≤ b.1 := ⟨fun _ _ _ => le_trans⟩
    refine List.Perm.eq_of_pairwise (fun e e' he he' hle hle' => ?_)
      (List.pairwise_insertionSort _ l) (List.pairwise_insertionSort _ l') (hperm.trans (h.trans hperm'.symm))
    -- Entries with one key are one entry.
    have hkey : e.1 = e'.1 := le_antisymm hle hle'
    have hmem : (e.1, e.2) ∈ l := hperm.mem_iff.mp he
    have hmem' : (e.1, e'.2) ∈ l := hkey ▸ h.mem_iff.mpr (hperm'.mem_iff.mp he')
    have hvalue : e.2 = e'.2 :=
      Option.some.inj (((lookup_iff_mem hn).mpr hmem).symm.trans ((lookup_iff_mem hn).mpr hmem'))
    exact Prod.ext hkey hvalue

theorem same_arr : (Json.arr items).Same (.arr items') ↔ items.map ordered = items'.map ordered := by
  rw [Same, ordered, ordered, orderedItems_eq, orderedItems_eq, Json.arr.injEq]

/-- Dicts are the same when they have the same keys with the same values. -/
theorem same_obj (hn : (fields.map Prod.fst).Nodup) : (Json.obj fields).Same (.obj fields') ↔
    (fields.map fun e => (e.1, e.2.ordered)).Perm (fields'.map fun e => (e.1, e.2.ordered)) := by
  have hkeys : ((orderedFields fields).map Prod.fst).Nodup := by rwa [keys_orderedFields]
  rw [Same, ordered, ordered, Json.obj.injEq, insertionSort_eq_iff hkeys, orderedFields_eq, orderedFields_eq]

/-- What is the same as a dict is a dict with the same keys. -/
theorem Same.obj_left (hn : (fields.map Prod.fst).Nodup) (h : (Json.obj fields).Same b) :
    ∃ fields', b = .obj fields' ∧ (fields.map Prod.fst).Perm (fields'.map Prod.fst) ∧
      ∀ k, (fields.lookup k).map ordered = (fields'.lookup k).map ordered := by
  cases b with
  | obj fields' =>
    have hperm := (same_obj hn).mp h
    have hkeys (l : List (String × Json)) : (l.map fun e => (e.1, e.2.ordered)).map Prod.fst = l.map Prod.fst := by
      rw [List.map_map]
      rfl
    refine ⟨fields', rfl, ?_, fun k => ?_⟩
    · have hmapped := hperm.map Prod.fst
      rwa [hkeys, hkeys] at hmapped
    · rw [← lookup_map_values, ← lookup_map_values]
      exact lookup_perm ((hkeys fields).symm ▸ hn) hperm
  | null | bool | int | float | str | arr => simp [Same, ordered] at h

theorem Same.arr_left (h : (Json.arr items).Same b) :
    ∃ items', b = .arr items' ∧ items.map ordered = items'.map ordered := by
  cases b with
  | arr items' => exact ⟨items', rfl, same_arr.mp h⟩
  | null | bool | int | float | str | obj => simp [Same, ordered] at h

theorem Same.str_left {s : String} (h : (Json.str s).Same b) : b = .str s := by
  cases b with
  | str s' => exact h.symm
  | null | bool | int | float | arr | obj => simp [Same, ordered] at h

end Json
end Mic3

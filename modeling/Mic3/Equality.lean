import Mic3.Jobs
import Mic3.JsonValues

/-! Python's `==` on JSON values: dicts by key, lists in order, numbers of any type by value. -/
namespace Mic3
namespace Json

/-- A value that is neither a list nor a dict. -/
def isScalar : Json → Bool
  | .arr _ | .obj _ => false
  | _ => true

/-- Induction over JSON values: the items of a list and the values of a dict come first. -/
@[elab_as_elim]
theorem structural {P : Json → Prop} (scalar : ∀ v : Json, v.isScalar = true → P v)
    (arr : ∀ items, (∀ x ∈ items, P x) → P (.arr items))
    (obj : ∀ fields, (∀ e ∈ fields, P e.2) → P (.obj fields)) (v : Json) : P v := by
  refine @Json.rec P (fun items => ∀ x ∈ items, P x) (fun fields => ∀ e ∈ fields, P e.2) (fun e => P e.2)
    ?_ ?_ ?_ ?_ ?_ arr obj (List.forall_mem_nil _) ?_ (List.forall_mem_nil _) ?_ (fun _ _ h => h) v
  · exact scalar .null rfl
  · exact fun b => scalar (.bool b) rfl
  · exact fun n => scalar (.int n) rfl
  · exact fun repr => scalar (.float repr) rfl
  · exact fun s => scalar (.str s) rfl
  · exact fun x xs hx hxs => List.forall_mem_cons.mpr ⟨hx, hxs⟩
  · exact fun e es he hes => List.forall_mem_cons.mpr ⟨he, hes⟩

mutual
/-- `actual == expected`. -/
def equal (actual expected : Json) : Bool :=
  match expected with
  | .obj fields => match actual with
    | .obj actualFields => actualFields.length = fields.length && equalFields actual fields
    | _ => false
  | .arr items => match actual with
    | .arr actualItems => equalItems actualItems items
    | _ => false
  | e => scalarEq actual e

def equalFields (actual : Json) : List (String × Json) → Bool
  | [] => true
  | (k, v) :: fields =>
    (match actual.get? k with
      | some a => equal a v
      | none => false) && equalFields actual fields

def equalItems (actual : List Json) : List Json → Bool
  | [] => actual = []
  | e :: es => match actual with
    | a :: as => equal a e && equalItems as es
    | [] => false
end

mutual
/-- No number in the value is a NaN. -/
def noNaN : Json → Bool
  | .float repr => repr ≠ "nan"
  | .arr items => noNaNItems items
  | .obj fields => noNaNFields fields
  | _ => true

def noNaNItems : List Json → Bool
  | [] => true
  | x :: xs => noNaN x && noNaNItems xs

def noNaNFields : List (String × Json) → Bool
  | [] => true
  | (_, x) :: xs => noNaN x && noNaNFields xs
end

variable {a b c e v : Json} {items items' : List Json} {fields fields' : List (String × Json)}

theorem noNaNItems_iff : noNaNItems items = true ↔ ∀ x ∈ items, x.noNaN = true := by
  induction items with
  | nil => simp [noNaNItems]
  | cons x xs ih => simp [noNaNItems, ih]

theorem noNaNFields_iff : noNaNFields fields = true ↔ ∀ e ∈ fields, e.2.noNaN = true := by
  induction fields with
  | nil => simp [noNaNFields]
  | cons e xs ih => simp [noNaNFields, ih]

theorem equal_scalar (h : e.isScalar = true) : equal a e = scalarEq a e := by
  cases e with
  | arr items => exact absurd h Bool.false_ne_true
  | obj fields => exact absurd h Bool.false_ne_true
  | null | bool b | int n | float r | str s => rw [equal] <;> nofun

theorem equalItems_iff : equalItems items' items = true ↔ List.Forall₂ (fun a e => equal a e = true) items' items := by
  induction items generalizing items' with
  | nil => simp [equalItems]
  | cons e es ih =>
    cases items' with
    | nil => simp [equalItems]
    | cons a as => simp [equalItems, ih]

theorem equalFields_iff : equalFields a fields = true ↔
    ∀ e ∈ fields, ∃ x, a.get? e.1 = some x ∧ equal x e.2 = true := by
  induction fields with
  | nil => simp [equalFields]
  | cons e es ih =>
    rw [equalFields, Bool.and_eq_true, ih, List.forall_mem_cons]
    refine and_congr_left fun _ => ?_
    cases a.get? e.1 <;> simp

theorem equal_arr : equal a (.arr items) = true ↔
    ∃ as, a = .arr as ∧ List.Forall₂ (fun x y => equal x y = true) as items := by
  cases a <;> simp [equal, equalItems_iff]

theorem equal_obj : equal a (.obj fields) = true ↔ ∃ as, a = .obj as ∧ as.length = fields.length ∧
    ∀ e ∈ fields, ∃ x, as.lookup e.1 = some x ∧ equal x e.2 = true := by
  cases a <;> simp [equal, equalFields_iff, get?]

theorem scalarEq_refl (h : v.noNaN = true) : scalarEq v v = true := by
  unfold scalarEq
  split
  · rename_i x y hx hy
    obtain rfl := Option.some.inj (hx.symm.trans hy)
    exact decide_eq_true rfl
  · cases v <;> simp_all [noNaN]

/-- Equal numbers have equal values; anything else is equal to itself only. -/
theorem scalarEq_trans (h : scalarEq a b = true) (h' : scalarEq b c = true) : scalarEq a c = true := by
  unfold scalarEq at h h' ⊢
  cases ha : numberValue a with
  | some x =>
    cases hb : numberValue b with
    | some y =>
      cases hc : numberValue c with
      | some z =>
        simp only [ha, hb, hc, decide_eq_true_eq] at h h' ⊢
        exact h.trans h'
      | none =>
        simp only [hb, hc, Bool.and_eq_true, decide_eq_true_eq] at h'
        rw [h'.1, hc] at hb
        contradiction
    | none =>
      simp only [ha, hb, Bool.and_eq_true, decide_eq_true_eq] at h
      rw [h.1, hb] at ha
      contradiction
  | none =>
    simp only [ha, Bool.and_eq_true, decide_eq_true_eq] at h
    rw [← h.1, ha] at h'
    exact h'

/-- Without NaN a value is equal to itself. -/
theorem equal_refl (hp : v.Proper) (h : v.noNaN = true) : equal v v = true := by
  induction v using structural with
  | scalar v hs => exact (equal_scalar hs).trans (scalarEq_refl h)
  | arr items ih =>
    have hitems := properItems_iff.mp hp
    have hnumbers := noNaNItems_iff.mp h
    exact equal_arr.mpr ⟨items, rfl, List.forall₂_same.mpr fun x hx => ih x hx (hitems x hx) (hnumbers x hx)⟩
  | obj fields ih =>
    have hfields := properFields_iff.mp hp.2
    have hnumbers := noNaNFields_iff.mp h
    refine equal_obj.mpr ⟨fields, rfl, rfl, fun e he => ⟨e.2, ?_, ih e he (hfields e he) (hnumbers e he)⟩⟩
    exact (lookup_iff_mem hp.1).mpr he

end Json
end Mic3

import Mathlib.Logic.Relation
import Mic3.Equality

/-! What `contains` accepts: the values from which removing entries of objects, at any depth, leaves the
expected one. Admission may add defaults to a Job and nothing else. -/
namespace Mic3
namespace Json
open Relation

/-- One entry of an object, at some depth, is removed. -/
inductive Removal : Json → Json → Prop
  | entry (before : List (String × Json)) (e : String × Json) (after : List (String × Json)) :
      Removal (.obj (before ++ e :: after)) (.obj (before ++ after))
  | value {v v' : Json} (before : List (String × Json)) (k : String) (after : List (String × Json))
      (h : Removal v v') : Removal (.obj (before ++ (k, v) :: after)) (.obj (before ++ (k, v') :: after))
  | item {v v' : Json} (before : List Json) (after : List Json) (h : Removal v v') :
      Removal (.arr (before ++ v :: after)) (.arr (before ++ v' :: after))

/-- A defaulting step adds one entry to an object. -/
def Defaulting (a a' : Json) : Prop := Removal a' a

variable {a b c e : Json} {as bs items : List Json} {fs gs fields : List (String × Json)}

section Shape

theorem contains_scalar (h : e.isScalar = true) : contains a e = scalarEq a e := by
  cases e with
  | arr items => exact absurd h Bool.false_ne_true
  | obj fields => exact absurd h Bool.false_ne_true
  | null | bool b | int n | float r | str s => rw [contains] <;> nofun

theorem containsItems_iff : containsItems as items = true ↔ List.Forall₂ (fun a e => contains a e = true) as items := by
  induction items generalizing as with
  | nil => simp [containsItems]
  | cons e es ih =>
    cases as with
    | nil => simp [containsItems]
    | cons a as => simp [containsItems, ih]

theorem containsFields_iff : containsFields a fields = true ↔
    ∀ e ∈ fields, ∃ x, a.get? e.1 = some x ∧ contains x e.2 = true := by
  induction fields with
  | nil => simp [containsFields]
  | cons e es ih =>
    rw [containsFields, Bool.and_eq_true, ih, List.forall_mem_cons]
    refine and_congr_left fun _ => ?_
    cases a.get? e.1 <;> simp

theorem contains_arr : contains a (.arr items) = true ↔
    ∃ as, a = .arr as ∧ List.Forall₂ (fun x y => contains x y = true) as items := by
  cases a <;> simp [contains, containsItems_iff]

theorem contains_obj : contains a (.obj fields) = true ↔ ∃ as, a = .obj as ∧
    ∀ e ∈ fields, ∃ x, as.lookup e.1 = some x ∧ contains x e.2 = true := by
  cases a <;> simp [contains, containsFields_iff, get?]

end Shape

section Removals

theorem removals_values (h : List.Forall₂ (fun f g => f.1 = g.1 ∧ ReflTransGen Removal f.2 g.2) fs gs)
    (before : List (String × Json)) : ReflTransGen Removal (.obj (before ++ fs)) (.obj (before ++ gs)) := by
  induction h generalizing before with
  | nil => exact .refl
  | @cons f g fs gs hfg _ ih =>
    obtain ⟨k, v⟩ := f
    obtain ⟨k', v'⟩ := g
    obtain ⟨rfl, hv⟩ : k = k' ∧ ReflTransGen Removal v v' := hfg
    have hhead : ReflTransGen Removal (.obj (before ++ (k, v) :: fs)) (.obj (before ++ (k, v') :: fs)) :=
      hv.lift (fun x => Json.obj (before ++ (k, x) :: fs)) fun _ _ h => .value before k fs h
    have hrest := ih (before ++ [(k, v')])
    rw [List.append_assoc, List.append_assoc] at hrest
    exact hhead.trans hrest

theorem removals_items (h : List.Forall₂ (ReflTransGen Removal) as bs) (before : List Json) :
    ReflTransGen Removal (.arr (before ++ as)) (.arr (before ++ bs)) := by
  induction h generalizing before with
  | nil => exact .refl
  | @cons v v' as bs hv _ ih =>
    have hhead : ReflTransGen Removal (.arr (before ++ v :: as)) (.arr (before ++ v' :: as)) :=
      hv.lift (fun x => Json.arr (before ++ x :: as)) fun _ _ h => .item before as h
    have hrest := ih (before ++ [v'])
    rw [List.append_assoc, List.append_assoc] at hrest
    exact hhead.trans hrest

theorem removals_filter (p : String × Json → Bool) (before : List (String × Json)) :
    ReflTransGen Removal (.obj (before ++ fs)) (.obj (before ++ fs.filter p)) := by
  induction fs generalizing before with
  | nil => exact .refl
  | cons f fs ih =>
    cases hp : p f with
    | true =>
      have hrest := ih (before ++ [f])
      rw [List.append_assoc, List.append_assoc] at hrest
      rwa [List.filter_cons_of_pos hp]
    | false =>
      rw [List.filter_cons_of_neg (Bool.eq_false_iff.mp hp)]
      exact .head (.entry before f fs) (ih before)

theorem Removal.proper (h : Removal a b) (ha : a.Proper) : b.Proper := by
  induction h with
  | entry before e after =>
    have hsub : List.Sublist (before ++ after) (before ++ e :: after) := (List.sublist_cons_self e after).append_left before
    refine ⟨ha.1.sublist (hsub.map Prod.fst), properFields_iff.mpr fun x hx => ?_⟩
    exact properFields_iff.mp ha.2 x (hsub.subset hx)
  | @value v v' before k after h ih =>
    have hfields := properFields_iff.mp ha.2
    have hv' : v'.Proper := ih (hfields (k, v) (List.mem_append_right before List.mem_cons_self))
    refine ⟨by simpa only [List.map_append, List.map_cons] using ha.1, properFields_iff.mpr fun x hx => ?_⟩
    rcases List.mem_append.mp hx with hx | hx
    · exact hfields x (List.mem_append_left _ hx)
    · rcases List.mem_cons.mp hx with rfl | hx
      · exact hv'
      · exact hfields x (List.mem_append_right before (List.mem_cons_of_mem _ hx))
  | @item v v' before after h ih =>
    have hitems := properItems_iff.mp ha
    have hv' : v'.Proper := ih (hitems v (List.mem_append_right before List.mem_cons_self))
    refine properItems_iff.mpr fun x hx => ?_
    rcases List.mem_append.mp hx with hx | hx
    · exact hitems x (List.mem_append_left _ hx)
    · rcases List.mem_cons.mp hx with rfl | hx
      · exact hv'
      · exact hitems x (List.mem_append_right before (List.mem_cons_of_mem _ hx))

theorem contains_container (ha : a.isScalar = false) (he : e.isScalar = true) : contains a e = false := by
  rw [contains_scalar he]
  cases a with
  | arr as => cases e <;> first | rfl | exact absurd he Bool.false_ne_true
  | obj fs => cases e <;> first | rfl | exact absurd he Bool.false_ne_true
  | null | bool | int | float | str => exact absurd ha Bool.true_eq_false.mp

/-- With distinct keys, what remains after a removal is found where it was. -/
theorem lookup_of_remaining {before after : List (String × Json)} {x : String × Json} {k : String} {v : Json}
    (hn : ((before ++ x :: after).map Prod.fst).Nodup) (h : (before ++ after).lookup k = some v) :
    (before ++ x :: after).lookup k = some v := by
  have hsub : List.Sublist (before ++ after) (before ++ x :: after) :=
    (List.sublist_cons_self x after).append_left before
  have hmem : (k, v) ∈ before ++ after := (lookup_iff_mem (hn.sublist (hsub.map Prod.fst))).mp h
  exact (lookup_iff_mem hn).mpr (hsub.subset hmem)

/-- One item of a list may be matched by another instead. -/
theorem forall₂_at {α β : Type} {R : α → β → Prop} {before after : List α} {x x' : α} {l : List β}
    (hx : ∀ y, R x' y → R x y) (h : List.Forall₂ R (before ++ x' :: after) l) :
    List.Forall₂ R (before ++ x :: after) l := by
  induction before generalizing l with
  | nil =>
    obtain ⟨y, l', hy, hrest, rfl⟩ := List.forall₂_cons_left_iff.mp h
    exact .cons (hx y hy) hrest
  | cons w before ih =>
    obtain ⟨y, l', hy, hrest, rfl⟩ := List.forall₂_cons_left_iff.mp h
    exact .cons hy (ih hrest)

/-- Removing an entry adds nothing that is prescribed. -/
theorem contains_of_removal (h : Removal a b) (ha : a.Proper) (hb : contains b e = true) : contains a e = true := by
  induction h generalizing e with
  | entry before x after =>
    cases e with
    | obj fields =>
      obtain ⟨bs, hbs, hfields⟩ := contains_obj.mp hb
      obtain rfl := Json.obj.inj hbs
      refine contains_obj.mpr ⟨_, rfl, fun f hf => ?_⟩
      obtain ⟨v, hv, hc⟩ := hfields f hf
      exact ⟨v, lookup_of_remaining ha.1 hv, hc⟩
    | arr items =>
      obtain ⟨bs, hbs, -⟩ := contains_arr.mp hb
      contradiction
    | null | bool | int | float | str => exact absurd (hb.symm.trans (contains_container rfl rfl)) Bool.true_eq_false.mp
  | @value v v' before k after h ih =>
    cases e with
    | obj fields =>
      obtain ⟨bs, hbs, hfields⟩ := contains_obj.mp hb
      obtain rfl := Json.obj.inj hbs
      have hv : v.Proper := properFields_iff.mp ha.2 (k, v) (List.mem_append_right before List.mem_cons_self)
      have hn : ((before ++ (k, v') :: after).map Prod.fst).Nodup := by
        simpa only [List.map_append, List.map_cons] using ha.1
      refine contains_obj.mpr ⟨_, rfl, fun f hf => ?_⟩
      obtain ⟨x, hx, hc⟩ := hfields f hf
      have hmem : (f.1, x) ∈ before ++ (k, v') :: after := (lookup_iff_mem hn).mp hx
      rcases List.mem_append.mp hmem with hmem | hmem
      · exact ⟨x, (lookup_iff_mem ha.1).mpr (List.mem_append_left _ hmem), hc⟩
      · rcases List.mem_cons.mp hmem with heq | hmem
        · obtain ⟨hk, rfl⟩ := Prod.mk.inj heq
          refine ⟨v, (lookup_iff_mem ha.1).mpr ?_, ih hv hc⟩
          exact hk ▸ List.mem_append_right before List.mem_cons_self
        · exact ⟨x, (lookup_iff_mem ha.1).mpr (List.mem_append_right before (List.mem_cons_of_mem _ hmem)), hc⟩
    | arr items =>
      obtain ⟨bs, hbs, -⟩ := contains_arr.mp hb
      contradiction
    | null | bool | int | float | str => exact absurd (hb.symm.trans (contains_container rfl rfl)) Bool.true_eq_false.mp
  | @item v v' before after h ih =>
    cases e with
    | arr items =>
      obtain ⟨bs, hbs, hitems⟩ := contains_arr.mp hb
      obtain rfl := Json.arr.inj hbs
      have hv : v.Proper := properItems_iff.mp ha v (List.mem_append_right before List.mem_cons_self)
      exact contains_arr.mpr ⟨_, rfl, forall₂_at (fun y hy => ih hv hy) hitems⟩
    | obj fields =>
      obtain ⟨bs, hbs, -⟩ := contains_obj.mp hb
      contradiction
    | null | bool | int | float | str => exact absurd (hb.symm.trans (contains_container rfl rfl)) Bool.true_eq_false.mp

theorem contains_of_removals (h : ReflTransGen Removal a b) (ha : a.Proper) (hb : contains b e = true) :
    contains a e = true := by
  induction h using ReflTransGen.head_induction_on with
  | refl => exact hb
  | head h _ ih => exact contains_of_removal h ha (ih (h.proper ha))

theorem contains_of_equal (h : equal a e = true) : contains a e = true := by
  induction e using structural generalizing a with
  | scalar e hs => rwa [contains_scalar hs, ← equal_scalar hs]
  | arr items ih =>
    obtain ⟨as, rfl, hitems⟩ := equal_arr.mp h
    refine contains_arr.mpr ⟨as, rfl, ?_⟩
    exact List.forall₂_iff_get.mpr ⟨hitems.length_eq, fun i h₁ h₂ =>
      ih _ (List.get_mem items ⟨i, h₂⟩) ((List.forall₂_iff_get.mp hitems).2 i h₁ h₂)⟩
  | obj fields ih =>
    obtain ⟨as, rfl, -, hfields⟩ := equal_obj.mp h
    refine contains_obj.mpr ⟨as, rfl, fun f hf => ?_⟩
    obtain ⟨x, hx, hc⟩ := hfields f hf
    exact ⟨x, hx, ih f hf hc⟩

/-- What contains the expected value becomes equal to it when entries are removed. -/
theorem removals_of_contains (ha : a.Proper) (he : e.Proper) (h : contains a e = true) :
    ∃ b, ReflTransGen Removal a b ∧ equal b e = true := by
  induction e using structural generalizing a with
  | scalar e hs => exact ⟨a, .refl, by rwa [equal_scalar hs, ← contains_scalar hs]⟩
  | arr items ih =>
    obtain ⟨as, rfl, hitems⟩ := contains_arr.mp h
    have hproper := properItems_iff.mp ha
    have hproper' := properItems_iff.mp he
    have hpruned : ∃ bs, List.Forall₂ (ReflTransGen Removal) as bs ∧
        List.Forall₂ (fun b e => equal b e = true) bs items := by
      clear h ha he
      induction hitems with
      | nil => exact ⟨[], .nil, .nil⟩
      | @cons x y as items hxy _ ihl =>
        obtain ⟨bs, hbs, hequal⟩ := ihl (fun z hz => ih z (List.mem_cons_of_mem _ hz))
          (fun z hz => hproper z (List.mem_cons_of_mem _ hz)) fun z hz => hproper' z (List.mem_cons_of_mem _ hz)
        obtain ⟨b, hb, he⟩ := ih y List.mem_cons_self (hproper x List.mem_cons_self) (hproper' y List.mem_cons_self) hxy
        exact ⟨b :: bs, .cons hb hbs, .cons he hequal⟩
    obtain ⟨bs, hbs, hequal⟩ := hpruned
    exact ⟨.arr bs, removals_items hbs [], equal_arr.mpr ⟨bs, rfl, hequal⟩⟩
  | obj fields ih =>
    obtain ⟨as, rfl, hfields⟩ := contains_obj.mp h
    have hproper := properFields_iff.mp ha.2
    have hproper' := properFields_iff.mp he.2
    -- The entries that are not prescribed go first, then each value is pruned in place.
    have hkept : ∀ f ∈ as.filter fun f => f.1 ∈ fields.map Prod.fst,
        ∃ b, ReflTransGen Removal f.2 b ∧ ∀ v, (f.1, v) ∈ fields → equal b v = true := by
      intro f hf
      obtain ⟨hmem, hkey⟩ := List.mem_filter.mp hf
      obtain ⟨g, hg, hgf⟩ := List.mem_map.mp (of_decide_eq_true hkey)
      obtain ⟨x, hx, hc⟩ := hfields g hg
      have hxf : as.lookup g.1 = some f.2 := (lookup_iff_mem ha.1).mpr (hgf ▸ hmem)
      obtain rfl : f.2 = x := Option.some.inj (hxf.symm.trans hx)
      obtain ⟨b, hb, hequal⟩ := ih g hg (hproper f hmem) (hproper' g hg) hc
      refine ⟨b, hb, fun v hv => ?_⟩
      have hsame : fields.lookup g.1 = some v := (lookup_iff_mem he.1).mpr (hgf ▸ hv)
      have hown : fields.lookup g.1 = some g.2 := (lookup_iff_mem he.1).mpr hg
      rwa [Option.some.inj (hsame.symm.trans hown)]
    have : Nonempty Json := ⟨.null⟩
    choose! pruned hpruned hequal using hkept
    let kept := as.filter fun f => f.1 ∈ fields.map Prod.fst
    have hvalues : List.Forall₂ (fun f g : String × Json => f.1 = g.1 ∧ ReflTransGen Removal f.2 g.2) kept
        (kept.map fun f => (f.1, pruned f)) :=
      List.forall₂_map_right_iff.mpr (List.forall₂_same.mpr fun f hf => ⟨rfl, hpruned f hf⟩)
    have hkeys : (kept.map fun f => (f.1, pruned f)).map Prod.fst = kept.map Prod.fst := by
      rw [List.map_map]
      rfl
    have hnodup : (kept.map Prod.fst).Nodup := ha.1.sublist (List.filter_sublist.map _)
    have hperm : (kept.map Prod.fst).Perm (fields.map Prod.fst) := by
      refine (List.perm_ext_iff_of_nodup hnodup he.1).mpr fun k => ?_
      constructor
      · intro hk
        obtain ⟨f, hf, rfl⟩ := List.mem_map.mp hk
        exact of_decide_eq_true (List.mem_filter.mp hf).2
      · intro hk
        obtain ⟨g, hg, rfl⟩ := List.mem_map.mp hk
        obtain ⟨x, hx, -⟩ := hfields g hg
        have hmem : (g.1, x) ∈ as := (lookup_iff_mem ha.1).mp hx
        exact List.mem_map.mpr ⟨(g.1, x), List.mem_filter.mpr ⟨hmem, decide_eq_true hk⟩, rfl⟩
    refine ⟨.obj (kept.map fun f => (f.1, pruned f)),
      (removals_filter _ []).trans (removals_values hvalues []), equal_obj.mpr ⟨_, rfl, ?_, fun g hg => ?_⟩⟩
    · have hlength := hperm.length_eq
      simpa only [List.length_map] using hlength
    · obtain ⟨f, hf, hfg⟩ := List.mem_map.mp (hperm.mem_iff.mpr (List.mem_map_of_mem hg))
      refine ⟨pruned f, ?_, hequal f hf g.2 (hfg ▸ hg)⟩
      exact (lookup_iff_mem (hkeys ▸ hnodup)).mpr (hfg ▸ List.mem_map_of_mem hf)

end Removals

section Paths

/-- A key of an object, or a place in a list. -/
inductive Segment where
  | key (k : String)
  | index (i : ℕ)

/-- The value at a path. -/
def at? : Json → List Segment → Option Json
  | v, [] => some v
  | v, .key k :: path => (v.get? k).bind fun x => x.at? path
  | .arr items, .index i :: path => items[i]?.bind fun x => x.at? path
  | _, .index _ :: _ => none

/-- A value meets what is prescribed in its place: a scalar that is equal, a list of that length, an object. -/
def Meets (x s : Json) : Prop :=
  match s with
  | .arr items => ∃ as, x = .arr as ∧ as.length = items.length
  | .obj _ => ∃ fs, x = .obj fs
  | s => scalarEq x s = true

theorem meets_of_contains (h : contains a e = true) : a.Meets e := by
  cases e with
  | arr items =>
    obtain ⟨as, rfl, hitems⟩ := contains_arr.mp h
    exact ⟨as, rfl, hitems.length_eq⟩
  | obj fields =>
    obtain ⟨as, rfl, -⟩ := contains_obj.mp h
    exact ⟨as, rfl⟩
  | null | bool | int | float | str => exact (contains_scalar rfl).symm.trans h

/-- Whatever stands in the expected value stands in its place in a value that contains it. -/
theorem at_of_contains {path : List Segment} {s : Json} (h : contains a e = true) (hs : e.at? path = some s) :
    ∃ x, a.at? path = some x ∧ contains x s = true := by
  induction path generalizing a e with
  | nil =>
    obtain rfl := Option.some.inj hs
    exact ⟨a, rfl, h⟩
  | cons segment path ih =>
    cases segment with
    | key k =>
      obtain ⟨v, hv, hrest⟩ := Option.bind_eq_some_iff.mp hs
      cases e with
      | obj fields =>
        obtain ⟨as, rfl, hfields⟩ := contains_obj.mp h
        obtain ⟨before, after, rfl, -⟩ := List.lookup_eq_some_iff.mp hv
        obtain ⟨x, hx, hc⟩ := hfields (k, v) (List.mem_append_right before List.mem_cons_self)
        obtain ⟨y, hy, hc⟩ := ih hc hrest
        exact ⟨y, Option.bind_eq_some_iff.mpr ⟨x, hx, hy⟩, hc⟩
      | null | bool | int | float | str | arr => contradiction
    | index i =>
      cases e with
      | arr items =>
        obtain ⟨v, hv, hs⟩ := Option.bind_eq_some_iff.mp hs
        obtain ⟨as, rfl, hitems⟩ := contains_arr.mp h
        obtain ⟨hlength, hget⟩ := List.forall₂_iff_get.mp hitems
        obtain ⟨hi, rfl⟩ := List.getElem?_eq_some_iff.mp hv
        obtain ⟨y, hy, hc⟩ := ih (hget i (hlength ▸ hi) hi) hs
        exact ⟨y, Option.bind_eq_some_iff.mpr ⟨_, List.getElem?_eq_getElem (hlength ▸ hi), hy⟩, hc⟩
      | null | bool | int | float | str | obj => contradiction

end Paths

theorem contains_refl (ha : a.Proper) (hn : a.noNaN = true) : contains a a = true :=
  contains_of_equal (equal_refl ha hn)

theorem contains_trans (h : contains a b = true) (h' : contains b c = true) : contains a c = true := by
  induction c using structural generalizing a b with
  | scalar c hc =>
    rw [contains_scalar hc] at h' ⊢
    cases hb : b.isScalar with
    | true =>
      rw [contains_scalar hb] at h
      exact scalarEq_trans h h'
    | false =>
      rw [← contains_scalar hc, contains_container hb hc] at h'
      contradiction
  | arr items ih =>
    obtain ⟨bs, rfl, hitems⟩ := contains_arr.mp h'
    obtain ⟨as, rfl, hitems'⟩ := contains_arr.mp h
    obtain ⟨hlength, hget⟩ := List.forall₂_iff_get.mp hitems
    obtain ⟨hlength', hget'⟩ := List.forall₂_iff_get.mp hitems'
    refine contains_arr.mpr ⟨as, rfl, List.forall₂_iff_get.mpr ⟨hlength'.trans hlength, fun i h₁ h₂ => ?_⟩⟩
    exact ih _ (List.get_mem items ⟨i, h₂⟩) (hget' i h₁ (hlength ▸ h₂)) (hget i (hlength ▸ h₂) h₂)
  | obj fields ih =>
    obtain ⟨bs, rfl, hfields⟩ := contains_obj.mp h'
    obtain ⟨as, rfl, hfields'⟩ := contains_obj.mp h
    refine contains_obj.mpr ⟨as, rfl, fun f hf => ?_⟩
    obtain ⟨y, hy, hc⟩ := hfields f hf
    obtain ⟨before, after, rfl, -⟩ := List.lookup_eq_some_iff.mp hy
    obtain ⟨x, hx, hc'⟩ := hfields' (f.1, y) (List.mem_append_right before List.mem_cons_self)
    exact ⟨x, hx, ih f hf hc' hc⟩

/-- The comparison of a Job with what was rendered accepts exactly additions: the actual value contains the
expected one when removing entries of objects makes them equal. What contains it still does after any defaulting,
and does not once anything that is prescribed has changed or gone. -/
theorem contains_accepts_additions (ha : a.Proper) (he : e.Proper) :
    (contains a e = true ↔ ∃ b, ReflTransGen Removal a b ∧ equal b e = true) ∧
    (a.noNaN = true → contains a a = true) ∧
    (∀ b c, contains a b = true → contains b c = true → contains a c = true) ∧
    (∀ a', a'.Proper → ReflTransGen Defaulting a a' → contains a e = true → contains a' e = true) ∧
    ∀ path s, e.at? path = some s → (∀ x, a.at? path = some x → ¬ x.Meets s) → contains a e = false := by
  refine ⟨⟨removals_of_contains ha he, ?_⟩, contains_refl ha, fun b c => contains_trans, ?_, ?_⟩
  · rintro ⟨b, hb, hequal⟩
    exact contains_of_removals hb ha (contains_of_equal hequal)
  · intro a' ha' hdefaults hc
    have hremovals : ReflTransGen Removal a' a := reflTransGen_swap.mp hdefaults
    exact contains_of_removals hremovals ha' hc
  · intro path s hs hchanged
    rw [← Bool.not_eq_true]
    intro hc
    obtain ⟨x, hx, hc⟩ := at_of_contains hc hs
    exact hchanged x hx (meets_of_contains hc)

end Json

/-- A spec to which admission has added defaults. -/
theorem contains_accepts_additions_defaulted : ∃ b, Relation.ReflTransGen Json.Removal
      (.obj [("backoffLimit", .int 0), ("template", .obj [("dnsPolicy", .str "ClusterFirst"), ("a", .arr [.int 1])])]) b ∧
      Json.equal b (.obj [("template", .obj [("a", .arr [.int 1])])]) = true := by
  refine (Json.contains_accepts_additions ?_ ?_).1.mp (by decide +kernel)
  · simp [Json.Proper, Json.ProperFields, Json.ProperItems]
  · simp [Json.Proper, Json.ProperFields, Json.ProperItems]

end Mic3

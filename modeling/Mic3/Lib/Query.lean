import Mathlib.Data.List.Perm.Basic
import Mathlib.Data.List.Sort
import Mathlib.Data.Prod.Lex
import Mathlib.Order.WithBot

/-! Answers of queries: rows in the order of a key, the first of them, and a left outer join. -/
namespace Relational

section Ordering
variable {α κ : Type*} [LinearOrder κ] {key : α → κ} {l l' : List α} {x : α} {n : ℕ}

/-- `ORDER BY key`. -/
def orderBy (key : α → κ) (l : List α) : List α := l.insertionSort fun a b => key a ≤ key b

theorem orderBy_perm (key : α → κ) (l : List α) : (orderBy key l).Perm l := List.perm_insertionSort _ l

theorem mem_orderBy : x ∈ orderBy key l ↔ x ∈ l := (orderBy_perm key l).mem_iff

theorem pairwise_orderBy (key : α → κ) (l : List α) : (orderBy key l).Pairwise fun a b => key a ≤ key b := by
  have htotal : Std.Total fun a b : α => key a ≤ key b := ⟨fun a b => le_total (key a) (key b)⟩
  have htrans : IsTrans α fun a b => key a ≤ key b := ⟨fun _ _ _ => le_trans⟩
  exact List.pairwise_insertionSort _ l

/-- With distinct keys the order is strict. -/
theorem pairwise_lt_orderBy (h : (l.map key).Nodup) : (orderBy key l).Pairwise fun a b => key a < key b := by
  have hne : (orderBy key l).Pairwise fun a b => key a ≠ key b :=
    List.pairwise_map.mp (((orderBy_perm key l).map key).nodup_iff.mpr h)
  exact (pairwise_orderBy key l).imp₂ (fun a b => lt_of_le_of_ne) hne

/-- There is one list of the rows in a strict order. -/
theorem orderBy_eq (h : l.Perm l') (hlt : l'.Pairwise fun a b => key a < key b) : orderBy key l = l' := by
  have hle : (orderBy key l).Perm l' := (orderBy_perm key l).trans h
  have hinj := List.pairwise_map.mpr (hlt.imp ne_of_lt)
  have hanti : ∀ a b, a ∈ orderBy key l → b ∈ l' → key a ≤ key b → key b ≤ key a → a = b :=
    fun a b ha hb hab hba => List.inj_on_of_nodup_map hinj (hle.mem_iff.mp ha) hb (le_antisymm hab hba)
  exact hle.eq_of_pairwise hanti (pairwise_orderBy key l) (hlt.imp le_of_lt)

theorem filter_orderBy (h : (l.map key).Nodup) (p : α → Bool) : (orderBy key l).filter p = orderBy key (l.filter p) :=
  (orderBy_eq ((orderBy_perm key l).symm.filter p) ((pairwise_lt_orderBy h).filter p)).symm

/-- A row is among the first `n` of a strict order if fewer than `n` stand before it. -/
theorem mem_take_iff (hlt : l.Pairwise fun a b => key a < key b) :
    x ∈ l.take n ↔ x ∈ l ∧ l.countP (fun y => key y < key x) < n := by
  induction l generalizing n with
  | nil => simp
  | cons a l ih =>
    obtain ⟨ha, hrest⟩ := List.pairwise_cons.mp hlt
    cases n with
    | zero => simp
    | succ n =>
      rw [List.take_succ_cons, List.mem_cons, List.mem_cons, ih hrest, List.countP_cons]
      by_cases hx : x = a
      · subst hx
        have hnone : l.countP (fun y => key y < key x) = 0 :=
          List.countP_eq_zero.mpr fun y hy => by simpa using (ha y hy).le
        simp [hnone]
      · simp only [hx, false_or]
        refine and_congr_right fun hmem => ?_
        simp only [decide_eq_true (ha x hmem), if_true]
        omega

theorem mem_take_orderBy (h : (l.map key).Nodup) :
    x ∈ (orderBy key l).take n ↔ x ∈ l ∧ l.countP (fun y => key y < key x) < n := by
  rw [mem_take_iff (pairwise_lt_orderBy h), mem_orderBy, (orderBy_perm key l).countP_eq]

end Ordering

section Joins
variable {α β : Type*} {on : α → β → Bool} {left : List α} {right : List β}

/-- The rows of `a` in a left outer join, when it is joined with `bs`. -/
def joined (a : α) : List β → List (α × Option β)
  | [] => [(a, none)]
  | b :: bs => (b :: bs).map fun b => (a, some b)

/-- `left LEFT OUTER JOIN right ON on`. -/
def outerJoin (on : α → β → Bool) (left : List α) (right : List β) : List (α × Option β) :=
  left.flatMap fun a => joined a (right.filter (on a))

theorem joined_ne_nil (a : α) (bs : List β) : joined a bs ≠ [] := by cases bs <;> simp [joined]

theorem fst_of_mem_joined {a : α} {bs : List β} {row : α × Option β} (h : row ∈ joined a bs) : row.1 = a := by
  cases bs with
  | nil => rw [List.mem_singleton.mp h]
  | cons b bs =>
    obtain ⟨b', -, rfl⟩ := List.mem_map.mp h
    rfl

@[simp] theorem filterMap_joined (a : α) (bs : List β) : (joined a bs).filterMap Prod.snd = bs := by
  cases bs with
  | nil => rfl
  | cons b bs => rw [joined, List.filterMap_map, Function.comp_def, List.filterMap_some]

theorem joined_perm {a : α} {bs bs' : List β} (h : bs.Perm bs') : (joined a bs).Perm (joined a bs') := by
  cases bs with
  | nil => rw [List.nil_perm.mp h]
  | cons b bs =>
    cases bs' with
    | nil => exact absurd (List.perm_nil.mp h) (List.cons_ne_nil b bs)
    | cons b' bs' => exact h.map fun b => (a, some b)

/-- A condition on the left rows picks the same rows before the join and after it. -/
theorem filter_outerJoin (p : α → Bool) :
    (outerJoin on left right).filter (fun row => p row.1) = outerJoin on (left.filter p) right := by
  induction left with
  | nil => rfl
  | cons a left ih =>
    have hrows : ∀ row ∈ joined a (right.filter (on a)), p row.1 = p a := fun row hrow => by
      rw [fst_of_mem_joined hrow]
    rw [outerJoin, List.flatMap_cons, List.filter_append, ← outerJoin, ih, List.filter_cons]
    by_cases ha : p a = true
    · rw [if_pos ha, outerJoin, outerJoin, List.flatMap_cons,
        List.filter_eq_self.mpr fun row hrow => (hrows row hrow).trans ha]
    · rw [if_neg ha, List.filter_eq_nil_iff.mpr fun row hrow => by rwa [hrows row hrow], List.nil_append]

variable {κ μ : Type*} [LinearOrder κ] [LinearOrder μ] {key : α → κ} {key' : β → μ}

/-- The place of a partner; a missing one comes last. -/
def partnerKey (key' : β → μ) (partner : Option β) : WithTop μ := partner.elim ⊤ fun b => (key' b : WithTop μ)

theorem pairwise_joined {a : α} {bs : List β} (h : bs.Pairwise fun b b' => key' b < key' b') :
    (joined a bs).Pairwise fun row row' => partnerKey key' row.2 < partnerKey key' row'.2 := by
  cases bs with
  | nil => exact List.pairwise_singleton _ _
  | cons b bs => exact List.pairwise_map.mpr (h.imp fun {b b'} h => WithTop.coe_lt_coe.mpr h)

theorem orderBy_joined {a : α} {bs : List β} (h : (bs.map key').Nodup) :
    orderBy (fun row => partnerKey key' row.2) (joined a bs) = joined a (orderBy key' bs) :=
  orderBy_eq (joined_perm (orderBy_perm key' bs).symm) (pairwise_joined (pairwise_lt_orderBy h))

/-- The place of a joined row. -/
def joinedKey (key : α → κ) (key' : β → μ) (row : α × Option β) : κ ×ₗ WithTop μ :=
  toLex (key row.1, partnerKey key' row.2)

/-- A join in the order of its left rows, and within one by its partners, goes through the left rows in order. -/
theorem orderBy_outerJoin (hleft : (left.map key).Nodup)
    (hright : ∀ a ∈ left, ((right.filter (on a)).map key').Nodup) :
    orderBy (joinedKey key key') (outerJoin on left right) =
      (orderBy key left).flatMap fun a => joined a (orderBy key' (right.filter (on a))) := by
  apply orderBy_eq
  · exact (orderBy_perm key left).symm.flatMap fun a _ => joined_perm (orderBy_perm key' _).symm
  · rw [List.pairwise_flatMap]
    constructor
    · intro a ha
      refine (pairwise_joined (pairwise_lt_orderBy (hright a (mem_orderBy.mp ha)))).imp_of_mem ?_
      intro x y hx hy hlt
      exact Prod.Lex.toLex_lt_toLex.mpr (.inr ⟨congrArg key (by rw [fst_of_mem_joined hx, fst_of_mem_joined hy]), hlt⟩)
    · refine (pairwise_lt_orderBy hleft).imp fun {a b} hlt x hx y hy => ?_
      exact Prod.Lex.toLex_lt_toLex.mpr (.inl (by rwa [fst_of_mem_joined hx, fst_of_mem_joined hy]))

end Joins
end Relational

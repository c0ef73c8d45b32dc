import Mathlib.Computability.Language

/-! Regular expressions over classes of symbols: the language of one, a matcher that decides it by
derivatives, and what the usual shorthands match. -/

open Computability

inductive Regex (α : Type*) where
  | empty
  | epsilon
  | cls (p : α → Bool)
  | alt (r s : Regex α)
  | seq (r s : Regex α)
  | star (r : Regex α)

namespace Regex
variable {α : Type*}

/-- The words of one symbol that satisfies `p`. -/
def classOf (p : α → Bool) : Language α := {w | ∃ a, p a = true ∧ w = [a]}

theorem mem_classOf {p : α → Bool} {w : List α} : w ∈ classOf p ↔ ∃ a, p a = true ∧ w = [a] := Iff.rfl

theorem cons_mem_classOf {p : α → Bool} {a : α} {w : List α} :
    a :: w ∈ classOf p ↔ p a = true ∧ w = [] := by
  constructor
  · rintro ⟨b, hb, h⟩
    obtain ⟨rfl, rfl⟩ := List.cons.inj h
    exact ⟨hb, rfl⟩
  · rintro ⟨ha, rfl⟩
    exact ⟨a, ha, rfl⟩

def language : Regex α → Language α
  | empty => 0
  | epsilon => 1
  | cls p => classOf p
  | alt r s => r.language + s.language
  | seq r s => r.language * s.language
  | star r => r.language∗

/-- Whether the empty word matches. -/
def nullable : Regex α → Bool
  | empty | cls _ => false
  | epsilon | star _ => true
  | alt r s => r.nullable || s.nullable
  | seq r s => r.nullable && s.nullable

/-- What has to follow `a`. -/
def deriv (a : α) : Regex α → Regex α
  | empty | epsilon => empty
  | cls p => if p a then epsilon else empty
  | alt r s => alt (r.deriv a) (s.deriv a)
  | seq r s => if r.nullable then alt (seq (r.deriv a) s) (s.deriv a) else seq (r.deriv a) s
  | star r => seq (r.deriv a) (star r)

/-- Whether the whole word matches. -/
def fullmatch (r : Regex α) : List α → Bool
  | [] => r.nullable
  | a :: w => (r.deriv a).fullmatch w

theorem nullable_iff (r : Regex α) : r.nullable = true ↔ [] ∈ r.language := by
  induction r with
  | empty => simp [nullable, language]
  | epsilon => simp [nullable, language]
  | cls p => simp [nullable, language, mem_classOf]
  | alt r s ihr ihs =>
    rw [language, Language.mem_add, ← ihr, ← ihs]
    exact Bool.or_eq_true_iff
  | seq r s ihr ihs => simp [nullable, language, Language.mem_mul, ihr, ihs]
  | star r => simp [nullable, language, Language.nil_mem_kstar]

section Words
variable {l m : Language α} {a : α} {w : List α}

theorem cons_mem_mul : a :: w ∈ l * m ↔
    (∃ u ∈ {u | a :: u ∈ l}, ∃ v ∈ m, u ++ v = w) ∨ [] ∈ l ∧ a :: w ∈ m := by
  rw [Language.mem_mul]
  constructor
  · rintro ⟨u, hu, v, hv, h⟩
    cases u with
    | nil => exact .inr ⟨hu, h ▸ hv⟩
    | cons b u =>
      obtain ⟨hb, hw⟩ := List.cons.inj h
      exact .inl ⟨u, hb ▸ hu, v, hv, hw⟩
  · rintro (⟨u, hu, v, hv, h⟩ | ⟨hnil, hw⟩)
    · exact ⟨a :: u, hu, v, hv, congrArg (a :: ·) h⟩
    · exact ⟨[], hnil, a :: w, hw, rfl⟩

theorem cons_mem_kstar : a :: w ∈ l∗ ↔ ∃ u ∈ {u | a :: u ∈ l}, ∃ v ∈ l∗, u ++ v = w := by
  constructor
  · intro h
    rw [Language.kstar_def_nonempty] at h
    obtain ⟨words, hw, hall⟩ := h
    cases words with
    | nil => contradiction
    | cons u words =>
      obtain ⟨hu, hne⟩ := hall u List.mem_cons_self
      cases u with
      | nil => exact absurd rfl hne
      | cons b u =>
        obtain ⟨hb, hw⟩ := List.cons.inj hw
        refine ⟨u, hb ▸ hu, words.flatten, Language.join_mem_kstar fun v hv => ?_, hw.symm⟩
        exact (hall v (List.mem_cons_of_mem _ hv)).1
  · rintro ⟨u, hu, v, hv, rfl⟩
    obtain ⟨words, rfl, hall⟩ := Language.mem_kstar.mp hv
    refine Language.mem_kstar.mpr ⟨(a :: u) :: words, rfl, fun v hv => ?_⟩
    rcases List.mem_cons.mp hv with rfl | hv
    · exact hu
    · exact hall v hv

end Words

theorem mem_deriv (r : Regex α) (a : α) (w : List α) :
    w ∈ (r.deriv a).language ↔ a :: w ∈ r.language := by
  induction r generalizing w with
  | empty => simp [deriv, language]
  | epsilon => simp [deriv, language, Language.mem_one]
  | cls p =>
    rw [language, cons_mem_classOf]
    by_cases hp : p a = true
    · simp [deriv, hp, language, Language.mem_one]
    · simp [deriv, hp, language]
  | alt r s ihr ihs => simp only [deriv, language, Language.mem_add, ihr, ihs]
  | seq r s ihr ihs =>
    have hfirst (w : List α) : w ∈ (seq (r.deriv a) s).language ↔
        ∃ u ∈ {u | a :: u ∈ r.language}, ∃ v ∈ s.language, u ++ v = w := by
      simp only [language, Language.mem_mul, ihr, Set.mem_ofPred_eq]
    by_cases hn : r.nullable = true
    · have hnil := (nullable_iff r).mp hn
      simp only [deriv, hn, if_true]
      rw [language, Language.mem_add, hfirst, ihs, language, cons_mem_mul]
      simp only [hnil, true_and]
    · have hnil : [] ∉ r.language := fun h => hn ((nullable_iff r).mpr h)
      simp only [deriv, hn, if_false, Bool.false_eq_true]
      rw [hfirst, language, cons_mem_mul]
      simp only [hnil, false_and, or_false]
  | star r ih =>
    rw [deriv, language, language, Language.mem_mul, cons_mem_kstar]
    simp only [ih, Set.mem_ofPred_eq]

/-- The matcher decides the language. -/
theorem fullmatch_iff (r : Regex α) (w : List α) : r.fullmatch w = true ↔ w ∈ r.language := by
  induction w generalizing r with
  | nil => exact nullable_iff r
  | cons a w ih => exact (ih _).trans (mem_deriv r a w)

/-! The usual shorthands. -/

def opt (r : Regex α) : Regex α := alt epsilon r

def plus (r : Regex α) : Regex α := seq r (star r)

/-- `r{n}`. -/
def times (r : Regex α) : ℕ → Regex α
  | 0 => epsilon
  | n + 1 => seq r (r.times n)

/-- `r{0,n}`. -/
def upTo (r : Regex α) : ℕ → Regex α
  | 0 => epsilon
  | n + 1 => opt (seq r (r.upTo n))

def literal [DecidableEq α] : List α → Regex α
  | [] => epsilon
  | a :: w => seq (cls (· = a)) (literal w)

/-- Any symbol. -/
def any : Regex α := cls fun _ => true

section Shorthands
variable {p q : α → Bool} {r s : Regex α} {w : List α}

theorem fullmatch_epsilon : epsilon.fullmatch w = true ↔ w = [] := by
  rw [fullmatch_iff, language, Language.mem_one]

theorem fullmatch_cls : (cls p).fullmatch w = true ↔ ∃ a, p a = true ∧ w = [a] :=
  (fullmatch_iff _ _).trans mem_classOf

theorem fullmatch_seq : (seq r s).fullmatch w = true ↔
    ∃ u v, r.fullmatch u = true ∧ s.fullmatch v = true ∧ u ++ v = w := by
  simp only [fullmatch_iff, language, Language.mem_mul]
  constructor
  · rintro ⟨u, hu, v, hv, h⟩
    exact ⟨u, v, hu, hv, h⟩
  · rintro ⟨u, v, hu, hv, h⟩
    exact ⟨u, hu, v, hv, h⟩

theorem fullmatch_alt :
    (alt r s).fullmatch w = true ↔ r.fullmatch w = true ∨ s.fullmatch w = true := by
  simp only [fullmatch_iff, language, Language.mem_add]

theorem fullmatch_opt : (opt r).fullmatch w = true ↔ w = [] ∨ r.fullmatch w = true := by
  rw [opt, fullmatch_alt, fullmatch_epsilon]

theorem fullmatch_cls_cons {a : α} : (seq (cls p) r).fullmatch (a :: w) = true ↔
    p a = true ∧ r.fullmatch w = true := by
  rw [fullmatch_seq]
  constructor
  · rintro ⟨u, v, hu, hv, h⟩
    obtain ⟨b, hb, rfl⟩ := fullmatch_cls.mp hu
    obtain ⟨rfl, rfl⟩ := List.cons.inj h
    exact ⟨hb, hv⟩
  · rintro ⟨ha, hw⟩
    exact ⟨[a], w, fullmatch_cls.mpr ⟨a, ha, rfl⟩, hw, rfl⟩

theorem fullmatch_cls_nil : (seq (cls p) r).fullmatch [] = false := rfl

theorem fullmatch_star_cls : (star (cls p)).fullmatch w = true ↔ ∀ a ∈ w, p a = true := by
  induction w with
  | nil => simp [fullmatch, nullable]
  | cons a w ih =>
    have hstep : (star (cls p)).fullmatch (a :: w) = (seq ((cls p).deriv a) (star (cls p))).fullmatch w := rfl
    rw [hstep, fullmatch_seq, List.forall_mem_cons, ← ih]
    by_cases hp : p a = true
    · simp [deriv, hp, fullmatch_epsilon]
    · simp [deriv, hp, fullmatch_iff empty, language]

theorem fullmatch_plus_cls :
    (plus (cls p)).fullmatch w = true ↔ w ≠ [] ∧ ∀ a ∈ w, p a = true := by
  cases w with
  | nil => simp [plus, fullmatch_cls_nil]
  | cons a w => simp [plus, fullmatch_cls_cons, fullmatch_star_cls]

theorem fullmatch_times_cls {n : ℕ} :
    (times (cls p) n).fullmatch w = true ↔ w.length = n ∧ ∀ a ∈ w, p a = true := by
  induction n generalizing w with
  | zero =>
    rw [times, fullmatch_epsilon, List.length_eq_zero_iff]
    exact ⟨fun h => ⟨h, h ▸ List.forall_mem_nil _⟩, And.left⟩
  | succ n ih =>
    cases w with
    | nil => simp [times, fullmatch_cls_nil]
    | cons a w =>
      rw [times, fullmatch_cls_cons, ih, List.length_cons, List.forall_mem_cons, Nat.succ_inj]
      exact and_left_comm

theorem fullmatch_upTo_cls {n : ℕ} :
    (upTo (cls p) n).fullmatch w = true ↔ w.length ≤ n ∧ ∀ a ∈ w, p a = true := by
  induction n generalizing w with
  | zero =>
    rw [upTo, fullmatch_epsilon, Nat.le_zero, List.length_eq_zero_iff]
    exact ⟨fun h => ⟨h, h ▸ List.forall_mem_nil _⟩, And.left⟩
  | succ n ih =>
    rw [upTo, fullmatch_opt]
    cases w with
    | nil => simp
    | cons a w =>
      rw [fullmatch_cls_cons, ih, List.length_cons, List.forall_mem_cons, Nat.succ_le_succ_iff,
        and_left_comm]
      exact or_iff_right (List.cons_ne_nil a w)

theorem fullmatch_literal [DecidableEq α] {text : List α} :
    (literal text).fullmatch w = true ↔ w = text := by
  induction text generalizing w with
  | nil => exact fullmatch_epsilon
  | cons a text ih =>
    cases w with
    | nil => simp [literal, fullmatch_cls_nil]
    | cons b w => simp [literal, fullmatch_cls_cons, ih]

end Shorthands

/-- A pattern that is searched for, with its anchors. -/
structure Pattern (α : Type*) where
  start : Bool
  body : Regex α
  stop : Bool

/-- Whether the pattern matches somewhere in the word. -/
def Pattern.found (p : Pattern α) (w : List α) : Bool :=
  let body := if p.stop then p.body else seq p.body (star any)
  (if p.start then body else seq (star any) body).fullmatch w

theorem Pattern.found_anchored {r : Regex α} {w : List α} :
    (Pattern.mk true r true).found w = r.fullmatch w := rfl

theorem fullmatch_any (w : List α) : (star any).fullmatch w = true :=
  fullmatch_star_cls.mpr fun _ _ => rfl

/-- A pattern with no end anchor matches at the start. -/
theorem Pattern.found_prefix {r : Regex α} {w : List α} :
    (Pattern.mk true r false).found w = true ↔ ∃ u v, r.fullmatch u = true ∧ u ++ v = w := by
  refine fullmatch_seq.trans ⟨?_, ?_⟩
  · rintro ⟨u, v, hu, -, h⟩
    exact ⟨u, v, hu, h⟩
  · rintro ⟨u, v, hu, h⟩
    exact ⟨u, v, hu, fullmatch_any v, h⟩

end Regex

import Mathlib.Data.List.Basic
import Mathlib.Logic.Function.Basic

/-! Self-delimiting encodings: whatever follows, the encoded text tells its value and its end. -/
namespace Encoding

def SelfDelimiting {α σ : Type*} (f : α → List σ) : Prop :=
  ∀ a b r s, f a ++ r = f b ++ s → a = b ∧ r = s

/-- No encoded value starts with `stop`, whatever follows it. -/
def Avoids {α σ : Type*} (f : α → List σ) (stop : σ) : Prop := ∀ a r s, f a ++ r ≠ stop :: s

/-- The encoded values with `sep` between them, and `stop` at the end. -/
def separated {α σ : Type*} (f : α → List σ) (sep stop : σ) (items : List α) : List σ :=
  [sep].intercalate (items.map f) ++ [stop]

/-- What stands before the first separator and after it. -/
theorem cut_at {σ : Type*} {sep : σ} {u v x y : List σ} (hu : sep ∉ u) (hv : sep ∉ v)
    (h : u ++ sep :: x = v ++ sep :: y) : u = v ∧ x = y := by
  induction u generalizing v with
  | nil =>
    cases v with
    | nil => exact ⟨rfl, (List.cons.inj h).2⟩
    | cons c v => exact absurd ((List.cons.inj h).1 ▸ List.mem_cons_self) hv
  | cons c u ih =>
    cases v with
    | nil => exact absurd ((List.cons.inj h).1 ▸ List.mem_cons_self) hu
    | cons d v =>
      obtain ⟨rfl, hrest⟩ := List.cons.inj h
      obtain ⟨rfl, hxy⟩ := ih (fun hm => hu (List.mem_cons_of_mem c hm)) (fun hm => hv (List.mem_cons_of_mem c hm)) hrest
      exact ⟨rfl, hxy⟩

variable {α β γ σ : Type*} {f : α → List σ} {g : β → List σ} {stop sep : σ}

namespace SelfDelimiting

theorem injective (hf : SelfDelimiting f) : Function.Injective f := by
  intro a b h
  exact (hf a b [] [] (congrArg (· ++ []) h)).1

/-- A decoder that returns the value and the rest. -/
theorem of_decode {decode : List σ → Option (α × List σ)} (h : ∀ a r, decode (f a ++ r) = some (a, r)) :
    SelfDelimiting f := by
  intro a b r s heq
  have hsame : some (a, r) = some (b, s) := by rw [← h a r, heq, h b s]
  exact Prod.mk.inj (Option.some.inj hsame)

theorem comp (hf : SelfDelimiting f) {e : γ → α} (he : Function.Injective e) :
    SelfDelimiting fun c => f (e c) := by
  intro c d r s h
  obtain ⟨hcd, hrs⟩ := hf _ _ _ _ h
  exact ⟨he hcd, hrs⟩

theorem after (hf : SelfDelimiting f) (l : List σ) : SelfDelimiting fun a => l ++ f a := by
  intro a b r s h
  simp only [List.append_assoc, List.append_cancel_left_eq] at h
  exact hf a b r s h

theorem before (hf : SelfDelimiting f) (l : List σ) : SelfDelimiting fun a => f a ++ l := by
  intro a b r s h
  simp only [List.append_assoc] at h
  obtain ⟨hab, hrest⟩ := hf a b _ _ h
  exact ⟨hab, List.append_cancel_left hrest⟩

theorem append (hf : SelfDelimiting f) (hg : SelfDelimiting g) :
    SelfDelimiting fun p : α × β => f p.1 ++ g p.2 := by
  intro p q r s h
  simp only [List.append_assoc] at h
  obtain ⟨hfst, hrest⟩ := hf _ _ _ _ h
  obtain ⟨hsnd, hrs⟩ := hg _ _ _ _ hrest
  exact ⟨Prod.ext hfst hsnd, hrs⟩

/-- Any number of values up to a stop that none of them starts with. -/
theorem terminated (hf : SelfDelimiting f) (hstop : Avoids f stop) :
    SelfDelimiting fun items : List α => items.flatMap f ++ [stop] := by
  intro items
  induction items with
  | nil =>
    intro items' r s h
    cases items' with
    | nil => exact ⟨rfl, (List.cons.inj h).2⟩
    | cons b items' =>
      have hstart : f b ++ (items'.flatMap f ++ [stop] ++ s) = stop :: r := by
        simpa [List.append_assoc] using h.symm
      exact absurd hstart (hstop _ _ _)
  | cons a items ih =>
    intro items' r s h
    cases items' with
    | nil =>
      have hstart : f a ++ (items.flatMap f ++ [stop] ++ r) = stop :: s := by
        simpa [List.append_assoc] using h
      exact absurd hstart (hstop _ _ _)
    | cons b items' =>
      have hsplit : f a ++ (items.flatMap f ++ [stop] ++ r) = f b ++ (items'.flatMap f ++ [stop] ++ s) := by
        simpa [List.append_assoc] using h
      obtain ⟨rfl, hrest⟩ := hf _ _ _ _ hsplit
      obtain ⟨rfl, hrs⟩ := ih _ _ _ hrest
      exact ⟨rfl, hrs⟩

theorem separated_cons (f : α → List σ) (sep stop : σ) (a : α) (items : List α) :
    separated f sep stop (a :: items) = f a ++ (items.flatMap (fun b => sep :: f b) ++ [stop]) := by
  induction items generalizing a with
  | nil => simp [separated]
  | cons b items ih =>
    have hrest := ih b
    simp only [separated, List.map_cons, List.intercalate_cons_cons, List.flatMap_cons, List.append_assoc,
      List.cons_append, List.nil_append] at hrest ⊢
    rw [hrest]

/-- A list in brackets, its items separated. -/
theorem separated (hf : SelfDelimiting f) (hstop : Avoids f stop) (hsep : sep ≠ stop) :
    SelfDelimiting (Encoding.separated f sep stop) := by
  have hitem : SelfDelimiting fun a => sep :: f a := hf.after [sep]
  have hitemStop : Avoids (fun a => sep :: f a) stop := fun a r s h => hsep (List.cons.inj h).1
  have htail := hitem.terminated hitemStop
  intro items items' r s h
  cases items with
  | nil =>
    cases items' with
    | nil => exact ⟨rfl, (List.cons.inj h).2⟩
    | cons b items' =>
      rw [separated_cons, List.append_assoc] at h
      exact absurd h.symm (hstop _ _ _)
  | cons a items =>
    cases items' with
    | nil =>
      rw [separated_cons, List.append_assoc] at h
      exact absurd h (hstop _ _ _)
    | cons b items' =>
      have hsplit : f a ++ (items.flatMap (fun b => sep :: f b) ++ [stop] ++ r) =
          f b ++ (items'.flatMap (fun b => sep :: f b) ++ [stop] ++ s) := by
        simpa only [separated_cons, List.append_assoc] using h
      obtain ⟨rfl, hrest⟩ := hf _ _ _ _ hsplit
      obtain ⟨rfl, hrs⟩ := htail _ _ _ _ hrest
      exact ⟨rfl, hrs⟩

end SelfDelimiting
end Encoding

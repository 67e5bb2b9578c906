import Mathlib

/-!
# The sorting contract of the standard library

`std::sort` takes a strict weak order and returns the elements of the range
in an order the comparison does not contradict. Which of two equivalent
elements comes first is unspecified. A `StdSort` is any function that keeps
this contract; what is proved for every `StdSort` is proved without
appealing to the order of equivalent elements.

Where no two elements are equivalent the result is determined
(`StdSort.sort_eq`).
-/

variable {α : Type}

/-- A strict weak order, as a comparison function. -/
structure StrictWeak (lt : α → α → Bool) : Prop where
  /-- Nothing comes before itself. -/
  irrefl : ∀ a, lt a a = false
  /-- The order is transitive. -/
  trans : ∀ a b c, lt a b = true → lt b c = true → lt a c = true
  /-- So is its equivalence. -/
  incomp : ∀ a b c, lt b a = false → lt c b = false → lt c a = false

/-- Comparing by a key in a linear order is a strict weak order. -/
theorem strictWeak_of_key {κ : Type} [LinearOrder κ] {lt : α → α → Bool} (f : α → κ)
    (h : ∀ a b, lt a b = true ↔ f a < f b) : StrictWeak lt := by
  have hn : ∀ a b, lt a b = false ↔ f b ≤ f a := fun a b => by
    rw [← not_lt, ← h, Bool.not_eq_true]
  exact
    { irrefl := fun a => (hn a a).mpr le_rfl
      trans := fun a b c hab hbc => (h a c).mpr (lt_trans ((h a b).mp hab) ((h b c).mp hbc))
      incomp := fun a b c hba hcb =>
        (hn c a).mpr (le_trans ((hn b a).mp hba) ((hn c b).mp hcb)) }

/-- Two distinct members of a pairwise related list are related one way or
the other. -/
theorem pairwise_or_of_ne {R : α → α → Prop} {l : List α} (h : l.Pairwise R)
    {a b : α} (ha : a ∈ l) (hb : b ∈ l) (hne : a ≠ b) : R a b ∨ R b a := by
  have : Std.Symm (fun a b => R a b ∨ R b a) := ⟨fun _ _ => Or.symm⟩
  exact (h.imp (S := fun a b => R a b ∨ R b a) Or.inl).forall ha hb hne

/-- A function that keeps the contract of `std::sort`. -/
structure StdSort where
  /-- The sorting function. -/
  sort : {α : Type} → (α → α → Bool) → List α → List α
  /-- It rearranges the elements. -/
  perm : ∀ {α : Type} {lt : α → α → Bool}, StrictWeak lt →
    ∀ l : List α, (sort lt l).Perm l
  /-- No element comes after one it is before. -/
  sorted : ∀ {α : Type} {lt : α → α → Bool}, StrictWeak lt →
    ∀ l : List α, (sort lt l).Pairwise (fun a b => lt b a = false)

namespace StdSort

/-- **Without equivalent elements the result is determined**: it is the
rearrangement in strict order. -/
theorem sort_eq (S : StdSort) {lt : α → α → Bool} (hlt : StrictWeak lt)
    {l l' : List α} (hp : l'.Perm l) (hs : l'.Pairwise (fun a b => lt a b = true)) :
    S.sort lt l = l' := by
  have hw : l'.Pairwise (fun a b => lt b a = false) := hs.imp (fun {a b} hab => by
    by_contra hc
    have hba : lt b a = true := by simpa using hc
    have := hlt.trans a b a hab hba
    rw [hlt.irrefl a] at this
    cases this)
  refine List.Perm.eq_of_pairwise ?_ (S.sorted hlt l) hw
    ((S.perm hlt l).trans hp.symm)
  intro a b ha hb hab hba
  by_contra hne
  have ha' : a ∈ l' := hp.mem_iff.mpr ((S.perm hlt l).mem_iff.mp ha)
  rcases pairwise_or_of_ne hs ha' hb hne with h | h
  · rw [h] at hba
    cases hba
  · rw [h] at hab
    cases hab

/-- Insertion sort keeps the contract. -/
def insertion : StdSort where
  sort lt l := l.insertionSort (fun a b => lt b a = false)
  perm _ l := List.perm_insertionSort _ l
  sorted := fun {α lt} hlt l => by
    have : Std.Total (fun a b : α => lt b a = false) := ⟨fun a b => by
      by_contra hc
      rw [not_or] at hc
      have h₁ : lt b a = true := by simpa using hc.1
      have h₂ : lt a b = true := by simpa using hc.2
      have := hlt.trans a b a h₂ h₁
      rw [hlt.irrefl a] at this
      cases this⟩
    have : IsTrans α (fun a b : α => lt b a = false) := ⟨fun a b c h₁ h₂ =>
      hlt.incomp a b c h₁ h₂⟩
    exact List.pairwise_insertionSort _ l

end StdSort

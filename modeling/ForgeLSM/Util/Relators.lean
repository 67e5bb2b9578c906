import ForgeLSM.Util.OrdMap
import ForgeLSM.Util.Probe
import ForgeLSM.Util.Ring

/-!
# Relations between containers

Two states that stand for one another hold related things in the same places.
For options and lists this is `Option.Rel` and `List.Forall₂`; here is how it
passes through the operations on maps, rings and rows of sources.
-/

variable {α β γ : Type} {R : α → β → Prop} {o : Option α}

/-- Both are there or neither is. -/
theorem rel_cases {o' : Option β} (h : Option.Rel R o o') :
    (o = none ∧ o' = none) ∨ ∃ x y, o = some x ∧ o' = some y ∧ R x y := by
  cases h with
  | none => exact Or.inl ⟨rfl, rfl⟩
  | some hxy => exact Or.inr ⟨_, _, rfl, rfl, hxy⟩

theorem exists_of_rel_some {y : β} (h : Option.Rel R o (some y)) : ∃ x, o = some x ∧ R x y := by
  cases h with
  | some hxy => exact ⟨_, rfl, hxy⟩

theorem exists_of_some_rel {x : α} {o : Option β} (h : Option.Rel R (some x) o) :
    ∃ y, o = some y ∧ R x y := by
  cases h with
  | some hxy => exact ⟨_, rfl, hxy⟩

theorem isSome_of_rel {o' : Option β} (h : Option.Rel R o o') : o.isSome = o'.isSome := by
  cases h <;> rfl

theorem rel_map {α' β' : Type} {R' : α' → β' → Prop} {f : α → α'} {g : β → β'} {o' : Option β}
    (h : Option.Rel R o o') (hfg : ∀ x y, R x y → R' (f x) (g y)) :
    Option.Rel R' (o.map f) (o'.map g) := by
  cases h with
  | none => exact .none
  | some hxy => exact .some (hfg _ _ hxy)

/-! ## Maps -/

section Maps

variable {K : Type} [LinearOrder K] {a : OrdMap K α} {b : OrdMap K β}

section

variable (h : ∀ k, Option.Rel R (a.get k) (b.get k))
include h

theorem rel_insert (n : K) {x : α} {y : β} (hxy : R x y) (k : K) :
    Option.Rel R ((a.insert n x).get k) ((b.insert n y).get k) := by
  rw [OrdMap.get_insert, OrdMap.get_insert]
  split_ifs
  · exact .some hxy
  · exact h k

theorem rel_filterKeys (p : K → Bool) (k : K) :
    Option.Rel R ((a.filterKeys p).get k) ((b.filterKeys p).get k) := by
  rw [OrdMap.get_filterKeys, OrdMap.get_filterKeys]
  split_ifs
  · exact h k
  · exact .none

theorem keys_eq_of_rel : a.keys = b.keys :=
  OrdMap.keys_congr (fun k => isSome_of_rel (h k))

end

end Maps

/-! ## Rings and rows of sources -/

theorem rel_update {ι : Type} [DecidableEq ι] {f : ι → Option α} {g : ι → Option β}
    (h : ∀ i, Option.Rel R (f i) (g i)) (j : ι) {x : Option α} {y : Option β}
    (hxy : Option.Rel R x y) (i : ι) :
    Option.Rel R (Function.update f j x i) (Function.update g j y i) := by
  rw [Function.update_apply, Function.update_apply]
  split_ifs
  · exact hxy
  · exact h i

theorem forall₂_cases {l : List α} {l' : List β} (h : List.Forall₂ R l l') :
    (l = [] ∧ l' = []) ∨ ∃ x xs y ys, l = x :: xs ∧ l' = y :: ys ∧ R x y
      ∧ List.Forall₂ R xs ys := by
  cases h with
  | nil => exact Or.inl ⟨rfl, rfl⟩
  | cons hxy hrest => exact Or.inr ⟨_, _, _, _, rfl, rfl, hxy, hrest⟩

theorem forall₂_filterMap {f : γ → Option α} {g : γ → Option β}
    (h : ∀ c, Option.Rel R (f c) (g c)) (l : List γ) :
    List.Forall₂ R (l.filterMap f) (l.filterMap g) := by
  induction l with
  | nil => exact .nil
  | cons c l ih =>
    rw [List.filterMap_cons, List.filterMap_cons]
    obtain ⟨hf, hg⟩ | ⟨x, y, hf, hg, hxy⟩ := rel_cases (h c) <;> rw [hf, hg]
    · exact ih
    · exact .cons hxy ih

/-- Readers of related rings see related queues. -/
theorem Ring.forall₂_scan {n : ℕ} [NeZero n] {slots : Fin n → Option α} {slots' : Fin n → Option β}
    (h : ∀ i, Option.Rel R (slots i) (slots' i)) (idx : ℕ) :
    List.Forall₂ R (Ring.scan slots idx) (Ring.scan slots' idx) := by
  refine forall₂_filterMap (fun i => ?_) _
  unfold Ring.stop
  split_ifs
  · exact h _
  · exact .none

/-- Sources are probed as those they are related to. -/
theorem findSomeE_of_forall₂ {ε δ : Type} {p : α → Except ε (Option δ)} {g : β → Option γ}
    {f : γ → δ} {l : List α} {l' : List β} (h : List.Forall₂ R l l')
    (hp : ∀ x y, R x y → p x = .ok ((g y).map f)) :
    findSomeE p l = .ok ((l'.findSome? g).map f) := by
  induction h with
  | nil => rfl
  | cons hxy _ ih =>
    rw [findSomeE, hp _ _ hxy, List.findSome?_cons, ih]
    cases g _ <;> rfl

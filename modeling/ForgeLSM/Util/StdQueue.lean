import ForgeLSM.Util.StdSort

/-!
# The priority queue of the standard library

`std::priority_queue` takes a strict weak order and gives an element that no
other comes after. Which of several such elements it gives is unspecified, and so
is the order in which it stores them. A `StdQueue` is any function that keeps
this contract, and a queue is the list of what is in it, in any order.

What is merged through such a queue are iterators: take the first iterator, emit
its item, advance it, and put it back unless it is at its end. Whatever the queue
does with equivalent elements, the merge emits every item (`StdQueue.popAll_perm`)
in order (`StdQueue.popAll_sorted`).
-/

variable {α : Type}

/-- A function that keeps the contract of `std::priority_queue`. -/
structure StdQueue where
  /-- `top` and `pop`: the element given, and what is left. -/
  pop : {α : Type} → (α → α → Bool) → List α → Option (α × List α)
  /-- It gives an element as long as there is one. -/
  pop_eq_none : ∀ {α : Type} (lt : α → α → Bool) (q : List α), pop lt q = none ↔ q = []
  /-- It takes one element out. -/
  perm : ∀ {α : Type} {lt : α → α → Bool} {q rest : List α} {x : α},
    pop lt q = some (x, rest) → q.Perm (x :: rest)
  /-- The element given comes before none that is left. -/
  top : ∀ {α : Type} {lt : α → α → Bool} {q rest : List α} {x : α}, StrictWeak lt →
    pop lt q = some (x, rest) → ∀ y ∈ rest, lt x y = false

namespace StdQueue

/-- Look for the first element from the end of the list. -/
def linearPop (lt : α → α → Bool) : List α → Option (α × List α)
  | [] => none
  | x :: xs =>
    match linearPop lt xs with
    | none => some (x, [])
    | some (y, rest) => if lt x y then some (y, x :: rest) else some (x, xs)

theorem linearPop_eq_none (lt : α → α → Bool) (q : List α) : linearPop lt q = none ↔ q = [] := by
  cases q with
  | nil => exact iff_of_true rfl rfl
  | cons x xs =>
    refine iff_of_false (fun h => ?_) (List.cons_ne_nil x xs)
    rw [linearPop] at h
    split at h
    · cases h
    · split_ifs at h

variable {lt : α → α → Bool}

/-- The two ways the first element is found. -/
theorem linearPop_cons {x y : α} {xs rest : List α} (h : linearPop lt (x :: xs) = some (y, rest)) :
    (y = x ∧ rest = xs ∧ ∀ z zs, linearPop lt xs = some (z, zs) → lt x z = false)
      ∨ ∃ zs, linearPop lt xs = some (y, zs) ∧ rest = x :: zs ∧ lt x y = true := by
  rw [linearPop] at h
  split at h
  · rename_i hnone
    cases h
    rw [(linearPop_eq_none lt xs).mp hnone]
    exact .inl ⟨rfl, rfl, fun z zs hz => by cases hz⟩
  · rename_i z zs hz
    split_ifs at h with hlt
    · cases h
      exact .inr ⟨zs, hz, rfl, hlt⟩
    · cases h
      refine .inl ⟨rfl, rfl, fun z' zs' hz' => ?_⟩
      obtain ⟨rfl, -⟩ := Prod.mk.inj (Option.some.inj (hz.symm.trans hz'))
      exact Bool.eq_false_iff.mpr hlt

theorem linearPop_perm {q rest : List α} {x : α} (h : linearPop lt q = some (x, rest)) :
    q.Perm (x :: rest) := by
  induction q generalizing rest with
  | nil => cases h
  | cons a q ih =>
    rcases linearPop_cons h with ⟨rfl, rfl, -⟩ | ⟨zs, hz, rfl, -⟩
    · exact List.Perm.refl _
    · exact ((ih hz).cons a).trans (List.Perm.swap x a zs)

theorem linearPop_top {q rest : List α} {x : α} (hlt : StrictWeak lt)
    (h : linearPop lt q = some (x, rest)) : ∀ y ∈ rest, lt x y = false := by
  induction q generalizing x rest with
  | nil => cases h
  | cons a q ih =>
    intro y hy
    rcases linearPop_cons h with ⟨rfl, rfl, hfirst⟩ | ⟨zs, hz, rfl, hax⟩
    · -- the element is not after the first of the others, and that one after none
      cases hq : linearPop lt rest with
      | none =>
        rw [(linearPop_eq_none lt rest).mp hq] at hy
        cases hy
      | some p =>
        obtain ⟨z, zs⟩ := p
        rcases List.mem_cons.mp ((linearPop_perm hq).mem_iff.mp hy) with rfl | hy
        · exact hfirst y zs hq
        · exact hlt.incomp y z x (ih hq y hy) (hfirst z zs hq)
    · rcases List.mem_cons.mp hy with rfl | hy
      · by_contra hxa
        have hxx := hlt.trans x y x (by simpa using hxa) hax
        rw [hlt.irrefl x] at hxx
        cases hxx
      · exact ih hz y hy

/-- A search of the whole list keeps the contract. -/
def linear : StdQueue where
  pop := linearPop
  pop_eq_none := linearPop_eq_none
  perm := linearPop_perm
  top := linearPop_top

end StdQueue

/-- **An iterator that is valid**: its item, and the items behind it. -/
structure Iter (α : Type) where
  item : α
  rest : List α
  deriving DecidableEq

namespace Iter

/-- The items the iterator has still to give. -/
def items (it : Iter α) : List α := it.item :: it.rest

/-- An iterator over a list, if it is valid. -/
def ofList : List α → Option (Iter α)
  | [] => none
  | x :: xs => some ⟨x, xs⟩

/-- `next`, and the iterator put back into the queue if it is still valid. -/
def advance (it : Iter α) (q : List (Iter α)) : List (Iter α) := (ofList it.rest).toList ++ q

theorem flatMap_items_advance (it : Iter α) (q : List (Iter α)) :
    (it.advance q).flatMap items = it.rest ++ q.flatMap items := by
  obtain ⟨x, rest⟩ := it
  cases rest with
  | nil => rfl
  | cons y ys => rfl

/-- The valid iterators over some lists have the items of all of them. -/
theorem flatMap_items_filterMap (ls : List (List α)) :
    (ls.filterMap ofList).flatMap items = ls.flatten := by
  induction ls with
  | nil => rfl
  | cons l ls ih =>
    cases l with
    | nil => exact ih
    | cons x xs => exact congrArg (fun r => x :: xs ++ r) ih

end Iter

namespace StdQueue

variable (Q : StdQueue) {lt : Iter α → Iter α → Bool} {q rest : List (Iter α)}

/-- The items the queue gives, in the order it gives them, over at most `n`
steps. -/
def popAll (lt : Iter α → Iter α → Bool) : ℕ → List (Iter α) → List α
  | 0, _ => []
  | n + 1, q =>
    match Q.pop lt q with
    | none => []
    | some (it, rest) => it.item :: popAll lt n (it.advance rest)

/-- **One step of the queue takes one item out and loses none.** -/
theorem pop_items {it : Iter α} (h : Q.pop lt q = some (it, rest)) :
    (q.flatMap Iter.items).Perm (it.item :: (it.advance rest).flatMap Iter.items) := by
  have hperm := (Q.perm h).flatMap_right Iter.items
  rwa [List.flatMap_cons, Iter.items, List.cons_append, ← Iter.flatMap_items_advance] at hperm

/-- There is one item less after a step. -/
theorem length_items_advance {it : Iter α} (h : Q.pop lt q = some (it, rest)) :
    ((it.advance rest).flatMap Iter.items).length + 1 = (q.flatMap Iter.items).length := by
  rw [(Q.pop_items h).length_eq, List.length_cons]

/-- **The merge emits every item**, given as many steps as there are items. -/
theorem popAll_perm (lt : Iter α → Iter α → Bool) {n : ℕ} {q : List (Iter α)}
    (hn : (q.flatMap Iter.items).length ≤ n) : (Q.popAll lt n q).Perm (q.flatMap Iter.items) := by
  induction n generalizing q with
  | zero =>
    rw [List.length_eq_zero_iff.mp (Nat.le_zero.mp hn)]
    exact List.Perm.refl _
  | succ n ih =>
    rw [popAll]
    cases hp : Q.pop lt q with
    | none =>
      rw [(Q.pop_eq_none lt q).mp hp]
      exact List.Perm.refl _
    | some p =>
      obtain ⟨it, rest⟩ := p
      have hlen := Q.length_items_advance hp
      exact ((ih (by omega)).cons _).trans (Q.pop_items hp).symm

/-- The item given is before all others, when every iterator is in order. -/
theorem pop_le {le : α → α → Prop} (htrans : ∀ a b c, le a b → le b c → le a c)
    (hlt : StrictWeak lt) (hle : ∀ a b : Iter α, lt a b = false → le a.item b.item) {it : Iter α}
    (hs : ∀ jt ∈ q, jt.items.Pairwise le) (h : Q.pop lt q = some (it, rest)) :
    ∀ y ∈ (it.advance rest).flatMap Iter.items, le it.item y := by
  intro y hy
  rw [Iter.flatMap_items_advance, List.mem_append] at hy
  have hmem : ∀ jt ∈ it :: rest, jt.items.Pairwise le := fun jt hjt =>
    hs jt ((Q.perm h).mem_iff.mpr hjt)
  rcases hy with hy | hy
  · exact (List.pairwise_cons.mp (hmem it List.mem_cons_self)).1 y hy
  · obtain ⟨jt, hjt, hyj⟩ := List.mem_flatMap.mp hy
    have hhead := hle it jt (Q.top hlt h jt hjt)
    rcases List.mem_cons.mp hyj with rfl | hyr
    · exact hhead
    · have hjs := List.pairwise_cons.mp (hmem jt (List.mem_cons_of_mem it hjt))
      exact htrans _ _ _ hhead (hjs.1 y hyr)

/-- **The merge emits in order**, when every iterator is in order. -/
theorem popAll_sorted {le : α → α → Prop}
    (htrans : ∀ a b c, le a b → le b c → le a c) (hlt : StrictWeak lt)
    (hle : ∀ a b : Iter α, lt a b = false → le a.item b.item) {n : ℕ} {q : List (Iter α)}
    (hs : ∀ jt ∈ q, jt.items.Pairwise le) (hn : (q.flatMap Iter.items).length ≤ n) :
    (Q.popAll lt n q).Pairwise le := by
  induction n generalizing q with
  | zero => exact List.Pairwise.nil
  | succ n ih =>
    rw [popAll]
    cases hp : Q.pop lt q with
    | none => exact List.Pairwise.nil
    | some p =>
      obtain ⟨it, rest⟩ := p
      have hlen := Q.length_items_advance hp
      have hrest : ∀ jt ∈ it.advance rest, jt.items.Pairwise le := by
        intro jt hjt
        have hmem : ∀ kt ∈ it :: rest, kt.items.Pairwise le := fun kt hkt =>
          hs kt ((Q.perm hp).mem_iff.mpr hkt)
        rcases List.mem_append.mp hjt with hjt | hjt
        · have hit := (List.pairwise_cons.mp (hmem it List.mem_cons_self)).2
          obtain ⟨x, _ | ⟨y, ys⟩⟩ := it
          · cases hjt
          · obtain rfl := List.mem_singleton.mp hjt
            exact hit
        · exact hmem jt (List.mem_cons_of_mem it hjt)
      refine List.pairwise_cons.mpr ⟨fun y hy => ?_, ih hrest (by omega)⟩
      exact Q.pop_le htrans hlt hle hs hp y
        ((Q.popAll_perm lt (by omega)).mem_iff.mp hy)

end StdQueue

/-! ## Iterators seen from outside -/

section View

variable {ι : Type} (Q : StdQueue) {view : ι → List α} {lt : ι → ι → Bool} {le : α → α → Prop}

/-- **What comes next out of a queue of iterators of any kind**, each of which
has some items still to give: the first of all items in order, when no two of
them are equal in the order. -/
theorem StdQueue.pop_view (hlt : StrictWeak lt) (htrans : ∀ a b c, le a b → le b c → le a c)
    {q rest : List ι} {it : ι} (hpop : Q.pop lt q = some (it, rest))
    (hle : ∀ i ∈ q, ∀ j ∈ q, ∀ a b, lt i j = false → (view i).head? = some a →
      (view j).head? = some b → le a b) (hsorted : ∀ i ∈ q, (view i).Pairwise le)
    {xs : List α} (hxs : xs.Pairwise le) (hperm : xs.Perm (q.flatMap view))
    (hanti : ∀ a ∈ xs, ∀ b ∈ xs, le a b → le b a → a = b) {x : α} {l : List α}
    (hview : view it = x :: l) :
    ∃ ys, xs = x :: ys ∧ ys.Perm (l ++ rest.flatMap view) := by
  have hq := Q.perm hpop
  have hall : xs.Perm (x :: (l ++ rest.flatMap view)) := by
    refine hperm.trans ((hq.flatMap_right view).trans ?_)
    rw [List.flatMap_cons, hview]
    exact List.Perm.refl _
  have hsort : ∀ i ∈ it :: rest, (view i).Pairwise le := fun i hi =>
    hsorted i (hq.mem_iff.mpr hi)
  -- the item is before those behind it, and before the first of every other iterator
  have hfirst : ∀ b ∈ l ++ rest.flatMap view, le x b := by
    intro b hb
    rcases List.mem_append.mp hb with hb | hb
    · have := hsort it List.mem_cons_self
      rw [hview] at this
      exact (List.pairwise_cons.mp this).1 b hb
    · obtain ⟨j, hj, hbj⟩ := List.mem_flatMap.mp hb
      obtain ⟨y, ys, hj'⟩ := List.exists_cons_of_ne_nil (List.ne_nil_of_mem hbj)
      have hxy : le x y := hle it (hq.mem_iff.mpr List.mem_cons_self) j
        (hq.mem_iff.mpr (List.mem_cons_of_mem it hj)) x y (Q.top hlt hpop j hj)
        (by rw [hview]; rfl) (by rw [hj']; rfl)
      have hys := hsort j (List.mem_cons_of_mem it hj)
      rw [hj'] at hbj hys
      rcases List.mem_cons.mp hbj with rfl | hby
      · exact hxy
      · exact htrans _ _ _ hxy ((List.pairwise_cons.mp hys).1 b hby)
  cases xs with
  | nil => exact absurd hall.length_eq (by simp)
  | cons y ys =>
    have hy : y ∈ x :: (l ++ rest.flatMap view) := hall.mem_iff.mp List.mem_cons_self
    have hx : x ∈ y :: ys := hall.mem_iff.mpr List.mem_cons_self
    obtain rfl : y = x := by
      rcases List.mem_cons.mp hy with hyx | hy
      · exact hyx
      rcases List.mem_cons.mp hx with hxy | hx
      · exact hxy.symm
      exact hanti y List.mem_cons_self x (List.mem_cons_of_mem y hx)
        ((List.pairwise_cons.mp hxs).1 x hx) (hfirst y hy)
    exact ⟨ys, rfl, hall.cons_inv⟩

end View

import Mathlib

/-!
# Merging sorted iterators through a priority queue

A merge of several sorted inputs keeps one iterator per input in a priority
queue: take the iterator whose current item comes first, emit the item,
advance the iterator, put it back unless it is exhausted. `popTop` is one
such step on a queue of iterators, each the list of items it has still to
give, and `drain` is the loop.

With a total comparison and inputs sorted by it, the loop emits every item
of every input, in order (`drain_perm`, `drain_sorted`); so the first
emitted item that passes a test is the least of the items that pass it
(`le_of_find?_sorted`). That last fact is how a merge resolves duplicates:
order the items of one key by preference, and keep the first
(`dedupKey`).
-/

variable {α K : Type*} {its : List (List α)}

/-- The item the queue gives next, and the queue left behind. Exhausted
iterators are not in the queue. -/
def popTop (le : α → α → Bool) : List (List α) → Option (α × List (List α))
  | [] => none
  | [] :: its => popTop le its
  | (x :: xs) :: its =>
    match popTop le its with
    | none => some (x, [xs])
    | some (y, rest) => if le x y then some (x, xs :: its) else some (y, (x :: xs) :: rest)

/-- The items the queue gives, in the order it gives them, over at most `n`
steps. -/
def drain (le : α → α → Bool) : ℕ → List (List α) → List α
  | 0, _ => []
  | n + 1, its =>
    match popTop le its with
    | none => []
    | some (x, rest) => x :: drain le n rest

/-- The queue is empty exactly when no iterator has an item left. -/
theorem popTop_eq_none {le : α → α → Bool} (h : popTop le its = none) : its.flatten = [] := by
  induction its with
  | nil => rfl
  | cons it its ih =>
    cases it with
    | nil => exact ih h
    | cons x xs =>
      simp only [popTop] at h
      split at h
      · cases h
      · split_ifs at h

/-- **One step of the queue takes one item out and loses none.** -/
theorem popTop_perm {le : α → α → Bool} {its rest : List (List α)} {x : α}
    (h : popTop le its = some (x, rest)) :
    its.flatten.Perm (x :: rest.flatten) := by
  induction its generalizing x rest with
  | nil => cases h
  | cons it its ih =>
    cases it with
    | nil => exact ih h
    | cons a as =>
      simp only [popTop] at h
      split at h
      · rename_i hn
        cases h
        simp [popTop_eq_none hn]
      · rename_i y r hr
        split_ifs at h
        · cases h
          exact List.Perm.refl _
        · obtain ⟨rfl, rfl⟩ := Prod.mk.inj (Option.some.inj h)
          have hp : ((a :: as) ++ its.flatten).Perm ((a :: as) ++ (y :: r.flatten)) :=
            (ih hr).append_left _
          exact hp.trans List.perm_middle

section Sorted

variable {le : α → α → Bool} (htotal : ∀ a b, le a b = true ∨ le b a = true)
  (htrans : ∀ a b c, le a b = true → le b c = true → le a c = true)

include htotal htrans in
/-- **The queue gives the least item of all**, and its iterators stay
sorted. -/
theorem popTop_sorted {its rest : List (List α)} {x : α}
    (hs : ∀ it ∈ its, it.Pairwise (fun a b => le a b = true))
    (h : popTop le its = some (x, rest)) :
    (∀ y ∈ its.flatten, le x y = true)
      ∧ ∀ it ∈ rest, it.Pairwise (fun a b => le a b = true) := by
  have hrefl : ∀ a, le a a = true := fun a => (htotal a a).elim id id
  induction its generalizing x rest with
  | nil => cases h
  | cons it its ih =>
    have hits := fun jt hj => hs jt (List.mem_cons_of_mem it hj)
    cases it with
    | nil => exact ih hits h
    | cons a as =>
      obtain ⟨ha, has⟩ := List.pairwise_cons.mp (hs (a :: as) List.mem_cons_self)
      simp only [popTop] at h
      split at h
      · rename_i hn
        cases h
        refine ⟨fun y hy => ?_, fun jt hj => ?_⟩
        · rw [List.flatten_cons, popTop_eq_none hn, List.append_nil] at hy
          rcases List.mem_cons.mp hy with rfl | hy
          · exact hrefl y
          · exact ha y hy
        · obtain rfl := List.mem_singleton.mp hj
          exact has
      · rename_i y r hr
        obtain ⟨hy, hrs⟩ := ih hits hr
        split_ifs at h with hle
        · cases h
          refine ⟨fun z hz => ?_, fun jt hj => ?_⟩
          · rcases List.mem_append.mp (List.flatten_cons ▸ hz) with hz | hz
            · rcases List.mem_cons.mp hz with rfl | hz
              · exact hrefl z
              · exact ha z hz
            · exact htrans _ _ _ hle (hy z hz)
          · rcases List.mem_cons.mp hj with rfl | hj
            · exact has
            · exact hits jt hj
        · obtain ⟨rfl, rfl⟩ := Prod.mk.inj (Option.some.inj h)
          have hya : le y a = true := (htotal y a).resolve_right hle
          refine ⟨fun z hz => ?_, fun jt hj => ?_⟩
          · rcases List.mem_append.mp (List.flatten_cons ▸ hz) with hz | hz
            · rcases List.mem_cons.mp hz with rfl | hz
              · exact hya
              · exact htrans _ _ _ hya (ha z hz)
            · exact hy z hz
          · rcases List.mem_cons.mp hj with rfl | hj
            · exact List.pairwise_cons.mpr ⟨ha, has⟩
            · exact hrs jt hj

/-- **The loop emits every item of every iterator**, given as many steps as
there are items. -/
theorem drain_perm (le : α → α → Bool) {n : ℕ} (hn : its.flatten.length ≤ n) :
    (drain le n its).Perm its.flatten := by
  induction n generalizing its with
  | zero =>
    rw [List.length_eq_zero_iff.mp (Nat.le_zero.mp hn)]
    exact List.Perm.refl _
  | succ n ih =>
    rw [drain]
    cases hp : popTop le its with
    | none =>
      rw [popTop_eq_none hp]
    | some p =>
      obtain ⟨x, rest⟩ := p
      have hperm := popTop_perm hp
      have hlen : rest.flatten.length ≤ n := by
        have := hperm.length_eq
        simp only [List.length_cons] at this
        omega
      exact ((ih hlen).cons x).trans hperm.symm

include htotal htrans in
/-- **The loop emits in order.** -/
theorem drain_sorted (n : ℕ) (hs : ∀ it ∈ its, it.Pairwise (fun a b => le a b = true)) :
    (drain le n its).Pairwise (fun a b => le a b = true)
      ∧ ∀ y ∈ drain le n its, y ∈ its.flatten := by
  induction n generalizing its with
  | zero => exact ⟨List.Pairwise.nil, fun y hy => by cases hy⟩
  | succ n ih =>
    rw [drain]
    cases hp : popTop le its with
    | none => exact ⟨List.Pairwise.nil, fun y hy => by cases hy⟩
    | some p =>
      obtain ⟨x, rest⟩ := p
      obtain ⟨hx, hrest⟩ := popTop_sorted htotal htrans hs hp
      obtain ⟨hd, hmem⟩ := ih hrest
      have hsub : ∀ y ∈ x :: drain le n rest, y ∈ its.flatten := by
        intro y hy
        refine (popTop_perm hp).mem_iff.mpr ?_
        rcases List.mem_cons.mp hy with rfl | hy
        · exact List.mem_cons_self
        · exact List.mem_cons_of_mem x (hmem y hy)
      refine ⟨List.pairwise_cons.mpr ⟨fun y hy => ?_, hd⟩, hsub⟩
      exact hx y (hsub y (List.mem_cons_of_mem x hy))

end Sorted

/-- In a sorted list the first item that passes a test comes before every
item that passes it. -/
theorem le_of_find?_sorted {le : α → α → Bool} (hrefl : ∀ a, le a a = true)
    {l : List α} (hs : l.Pairwise (fun a b => le a b = true)) {p : α → Bool}
    {x : α} (h : l.find? p = some x) {y : α} (hy : y ∈ l) (hp : p y = true) :
    le x y = true := by
  induction l with
  | nil => cases hy
  | cons a l ih =>
    obtain ⟨ha, hl⟩ := List.pairwise_cons.mp hs
    rw [List.find?_cons] at h
    cases hpa : p a with
    | true =>
      rw [hpa] at h
      cases h
      rcases List.mem_cons.mp hy with rfl | hy
      · exact hrefl y
      · exact ha y hy
    | false =>
      rw [hpa] at h
      rcases List.mem_cons.mp hy with rfl | hy
      · rw [hpa] at hp
        cases hp
      · exact ih hl h hy

section Dedup

variable [DecidableEq K]

/-- Keep the first item of every run of equal keys. `last` is the key of the
item kept last, if there is one. -/
def dedupKey (key : α → K) : Option K → List α → List α
  | _, [] => []
  | last, x :: xs =>
    if last = some (key x) then dedupKey key last xs
    else x :: dedupKey key (some (key x)) xs

/-- **Keeping the first of every run keeps the first of every key**: away
from the key kept last, a search sees what it saw. -/
theorem find?_dedupKey (key : α → K) (last : Option K) (l : List α) {k : K}
    (hk : last ≠ some k) :
    (dedupKey key last l).find? (fun x => decide (key x = k))
      = l.find? (fun x => decide (key x = k)) := by
  induction l generalizing last with
  | nil => rfl
  | cons a l ih =>
    rw [dedupKey]
    by_cases hka : key a = k
    · rw [if_neg (by rw [hka]; exact hk)]
      simp [hka]
    · split_ifs with hl
      · rw [ih last hk]
        simp [hka]
      · rw [List.find?_cons, List.find?_cons]
        simp only [hka, decide_false]
        exact ih _ (fun hc => hka (Option.some.inj hc))

/-- **The kept items ascend strictly**, when the keys of the list ascend. -/
theorem dedupKey_sorted [LinearOrder K] {key : α → K} {last : Option K}
    {l : List α} (hs : l.Pairwise (fun a b => key a ≤ key b))
    (hlast : ∀ k ∈ last, ∀ x ∈ l, k ≤ key x) :
    (dedupKey key last l).Pairwise (fun a b => key a < key b)
      ∧ ∀ k ∈ last, ∀ x ∈ dedupKey key last l, k < key x := by
  induction l generalizing last with
  | nil => exact ⟨List.Pairwise.nil, fun _ _ x hx => by cases hx⟩
  | cons a l ih =>
    obtain ⟨ha, hl⟩ := List.pairwise_cons.mp hs
    have hlast' : ∀ k ∈ last, ∀ x ∈ l, k ≤ key x :=
      fun k hk x hx => hlast k hk x (List.mem_cons_of_mem a hx)
    rw [dedupKey]
    split_ifs with hla
    · exact ih hl hlast'
    · have hnext : ∀ k ∈ some (key a), ∀ x ∈ l, k ≤ key x := fun k hk x hx => by
        cases hk
        exact ha x hx
      obtain ⟨hd, hgt⟩ := ih hl hnext
      refine ⟨List.pairwise_cons.mpr ⟨fun x hx => hgt _ rfl x hx, hd⟩, fun k hk x hx => ?_⟩
      have hka : k < key a := by
        refine lt_of_le_of_ne (hlast k hk a List.mem_cons_self) (fun hc => hla ?_)
        rw [← hc]
        exact hk
      rcases List.mem_cons.mp hx with rfl | hx
      · exact hka
      · exact lt_trans hka (hgt _ rfl x hx)

end Dedup

import Mathlib

/-!
# Probing a list of sources, first hit wins

A layered store answers a lookup from the first source that holds the key:
`List.findSome?` with the sources in the order they are probed. What such a
lookup depends on is the order of the sources that can *both* answer. Where
at most one of them can, any order gives the same answer
(`findSome?_perm`).
-/

variable {α β : Type*} {l : List α} {f : α → Option β}

/-- The sources exclude one another at this probe: of any two, one misses. -/
def Exclusive (f : α → Option β) (l : List α) : Prop :=
  l.Pairwise (fun a b => f a = none ∨ f b = none)

/-- A list none of whose sources answers gives no answer. -/
theorem findSome?_eq_none (h : ∀ a ∈ l, f a = none) : l.findSome? f = none :=
  List.findSome?_eq_none_iff.mpr h

/-- The first source answers, or else the others do. -/
theorem findSome?_cons_or (f : α → Option β) (a : α) (l : List α) :
    (a :: l).findSome? f = (f a).or (l.findSome? f) := by
  rw [List.findSome?_cons]
  cases f a <;> rfl

/-- Probing depends only on what the sources answer. -/
theorem findSome?_congr {f g : α → Option β} (h : ∀ a ∈ l, f a = g a) :
    l.findSome? f = l.findSome? g := by
  induction l with
  | nil => rfl
  | cons a l ih =>
    rw [List.findSome?_cons, List.findSome?_cons, h a List.mem_cons_self,
      ih (fun b hb => h b (List.mem_cons_of_mem a hb))]

/-- Lists of sources are probed one after the other. -/
theorem findSome?_flatMap {γ : Type*} (g : γ → List α) (f : α → Option β) (l : List γ) :
    (l.flatMap g).findSome? f = l.findSome? (fun c => (g c).findSome? f) := by
  induction l with
  | nil => rfl
  | cons c l ih => rw [List.flatMap_cons, List.findSome?_append, findSome?_cons_or, ih]

/-- A source that is not there gives no answer. -/
theorem findSome?_filterMap {γ : Type*} (g : γ → Option α) (f : α → Option β) (l : List γ) :
    (l.filterMap g).findSome? f = l.findSome? (fun c => (g c).bind f) := by
  induction l with
  | nil => rfl
  | cons c l ih =>
    rw [findSome?_cons_or, ← ih, List.filterMap_cons]
    cases g c with
    | none => rfl
    | some a => exact findSome?_cons_or f a _

/-- Among exclusive sources, one that answers gives the answer of the list. -/
theorem findSome?_eq_of_mem (h : Exclusive f l) {a : α} (ha : a ∈ l) {b : β} (hb : f a = some b) :
    l.findSome? f = some b := by
  induction l with
  | nil => cases ha
  | cons c l ih =>
    obtain ⟨hc, hl⟩ := List.pairwise_cons.mp h
    rcases List.mem_cons.mp ha with rfl | ha
    · rw [List.findSome?_cons, hb]
    · have hcn : f c = none := (hc a ha).resolve_right (by rw [hb]; simp)
      rw [List.findSome?_cons, hcn]
      exact ih hl ha

/-- **Exclusive sources may be probed in any order.** -/
theorem findSome?_perm {l l' : List α} (h : Exclusive f l) (hp : l.Perm l') :
    l.findSome? f = l'.findSome? f := by
  have h' : Exclusive f l' := (hp.pairwise_iff (fun hab => hab.symm)).mp h
  cases hl : l'.findSome? f with
  | none =>
    refine findSome?_eq_none (fun a ha => ?_)
    exact List.findSome?_eq_none_iff.mp hl a (hp.mem_iff.mp ha)
  | some b =>
    obtain ⟨a, ha, hb⟩ := List.exists_of_findSome?_eq_some hl
    exact findSome?_eq_of_mem h (hp.mem_iff.mpr ha) hb

/-- Exclusive sources split along any test: the ones that pass first, then
the others. -/
theorem findSome?_split (h : Exclusive f l) (p : α → Bool) :
    l.findSome? f = ((l.filter p).findSome? f).or ((l.filter (fun a => !p a)).findSome? f) := by
  rw [← List.findSome?_append]
  exact findSome?_perm h (List.filter_append_perm p l).symm

/-! ## Sources that can fail -/

/-- Probe the sources in their order until one answers or fails. -/
def findSomeE {ε : Type*} (p : α → Except ε (Option β)) : List α → Except ε (Option β)
  | [] => .ok none
  | a :: l =>
    match p a with
    | .error e => .error e
    | .ok none => findSomeE p l
    | .ok (some b) => .ok (some b)

/-- Sources that do not fail are probed as such. -/
theorem findSomeE_eq {ε γ : Type*} {p : α → Except ε (Option β)} {g : α → Option γ} {f : γ → β}
    (h : ∀ a, p a = .ok ((g a).map f)) : findSomeE p l = .ok ((l.findSome? g).map f) := by
  induction l with
  | nil => rfl
  | cons a l ih =>
    rw [findSomeE, h a, ih, List.findSome?_cons]
    cases g a <;> rfl

/-- What each source gives, if anything, in their order. -/
def collectE {ε : Type*} (p : α → Except ε (Option β)) : List α → Except ε (List β)
  | [] => .ok []
  | a :: l => do
    let b ← p a
    let rest ← collectE p l
    .ok (b.toList ++ rest)

theorem collectE_eq {ε : Type*} {p : α → Except ε (Option β)} (h : ∀ a, p a = .ok (f a)) :
    collectE p l = .ok (l.filterMap f) := by
  induction l with
  | nil => rfl
  | cons a l ih =>
    rw [collectE, h a, ih, List.filterMap_cons]
    cases f a <;> rfl

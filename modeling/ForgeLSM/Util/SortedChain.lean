import Mathlib

/-!
# Sorted chains of links

A linked list in a heap is a way to read links, a place to start at, and the list of
places met from there: `Linked next a xs`. The reading is partial, since a place that
was never allocated has no link, and a link is absent at the end of the list. What a
place holds and how the heap stores it does not matter here.

When the places of a chain, the start included, are ranked in strict order, a place of
the chain splits it in two (`SortedChain.exists_split`), and what one link shows is
enough to place any other member before or behind it
(`SortedChain.le_or_le_of_next`). That is what a search along the chain goes by, and
what keeps a search valid while others insert: a member stays a member, and its rank
does not change. An insertion is two stores (`SortedChain.splice`); the store into the
new place alone changes nothing (`Linked.congr`).
-/

variable {α K : Type*}

/-- A member put in its place keeps a list in order. -/
theorem pairwise_insert {R : α → α → Prop} {pre post : List α} {n : α}
    (h : (pre ++ post).Pairwise R) (hpre : ∀ x ∈ pre, R x n) (hpost : ∀ y ∈ post, R n y) :
    (pre ++ n :: post).Pairwise R := by
  obtain ⟨hl, hr, hbetween⟩ := List.pairwise_append.mp h
  refine List.pairwise_append.mpr ⟨hl, List.pairwise_cons.mpr ⟨hpost, hr⟩, fun x hx y hy => ?_⟩
  rcases List.mem_cons.mp hy with rfl | hy
  · exact hpre x hx
  · exact hbetween x hx y hy

/-- **The chain behind a place**: following the links from `a` one meets `xs`, and then
the end. -/
def Linked (next : α → Option (Option α)) : α → List α → Prop
  | a, [] => next a = some none
  | a, x :: xs => next a = some (some x) ∧ Linked next x xs

/-- The places from a link on, for lists shorter than the fuel. -/
def walk (next : α → Option (Option α)) : ℕ → Option α → Option (List α)
  | 0, _ => none
  | _ + 1, none => some []
  | fuel + 1, some x => (next x).bind (fun link => (walk next fuel link).map (x :: ·))

namespace Linked

variable {next next' : α → Option (Option α)} {a n : α} {xs pre post : List α}

/-- A chain depends on the links of its places only. -/
theorem congr (h : Linked next a xs) (heq : ∀ x ∈ a :: xs, next' x = next x) :
    Linked next' a xs := by
  induction xs generalizing a with
  | nil => exact (heq a List.mem_cons_self).trans h
  | cons x xs ih =>
    refine ⟨(heq a List.mem_cons_self).trans h.1, ih h.2 (fun y hy => ?_)⟩
    exact heq y (List.mem_cons_of_mem a hy)

/-- The link of the start leads to the first place. -/
theorem next_start (h : Linked next a xs) : next a = some xs.head? := by
  cases xs with
  | nil => exact h
  | cons x xs => exact h.1

/-- Behind the last place of a front part is the rest. -/
theorem getLastD (h : Linked next a (pre ++ post)) : Linked next (pre.getLastD a) post := by
  induction pre generalizing a with
  | nil => exact h
  | cons x pre ih =>
    rw [List.getLastD_cons]
    exact ih h.2

/-- **Inserting a place.** The new place leads to the rest of the chain, the place before
it leads to the new one, and the other links are as they were. -/
theorem splice (h : Linked next a (pre ++ post)) (hnodup : (a :: (pre ++ post)).Nodup)
    (hn : next' n = some post.head?) (hp : next' (pre.getLastD a) = some (some n))
    (hframe : ∀ x ∈ a :: (pre ++ post), x ≠ pre.getLastD a → next' x = next x) :
    Linked next' a (pre ++ n :: post) := by
  induction pre generalizing a with
  | nil =>
    refine ⟨hp, ?_⟩
    cases post with
    | nil => exact hn
    | cons y post =>
      refine ⟨hn, h.2.congr (fun x hx => ?_)⟩
      refine hframe x (List.mem_cons_of_mem a hx) (fun heq => ?_)
      rw [heq] at hx
      exact (List.nodup_cons.mp hnodup).1 hx
  | cons x pre ih =>
    obtain ⟨hnot, hnodup'⟩ := List.nodup_cons.mp hnodup
    rw [List.getLastD_cons] at hp hframe
    have hmem : pre.getLastD x ∈ x :: pre ++ post :=
      List.mem_append_left post List.getLastD_mem_cons
    have hne : a ≠ pre.getLastD x := fun heq => hnot (heq ▸ hmem)
    refine ⟨(hframe a List.mem_cons_self hne).trans h.1, ih h.2 hnodup' hp (fun y hy => ?_)⟩
    exact hframe y (List.mem_cons_of_mem a hy)

/-- A walk along a chain gives the chain. -/
theorem walk_eq (h : Linked next a xs) {fuel : ℕ} (hfuel : xs.length < fuel) :
    walk next fuel xs.head? = some xs := by
  induction xs generalizing a fuel with
  | nil =>
    obtain ⟨m, rfl⟩ : ∃ m, fuel = m + 1 := ⟨fuel - 1, by omega⟩
    rfl
  | cons x xs ih =>
    obtain ⟨m, rfl⟩ : ∃ m, fuel = m + 1 := ⟨fuel - 1, by omega⟩
    rw [List.length_cons, Nat.succ_lt_succ_iff] at hfuel
    rw [List.head?_cons, walk, h.2.next_start, Option.bind_some, ih h.2 hfuel]
    rfl

end Linked

/-- **A chain in strict order of rank**, the start included. -/
structure SortedChain [LinearOrder K] (next : α → Option (Option α)) (rank : α → K) (a : α)
    (xs : List α) : Prop where
  linked : Linked next a xs
  sorted : (a :: xs).Pairwise (fun x y => rank x < rank y)

/-- How many places of a list rank above a place. -/
def ahead [LinearOrder K] (rank : α → K) (xs : List α) (x : α) : ℕ :=
  xs.countP (fun y => decide (rank x < rank y))

section

variable [LinearOrder K] {rank : α → K}

/-- A list in order splits at every rank. -/
theorem exists_split_at {xs : List α} (h : xs.Pairwise (fun x y => rank x < rank y)) (t : K) :
    ∃ pre post, xs = pre ++ post ∧ (∀ y ∈ pre, rank y < t) ∧ ∀ y ∈ post, t ≤ rank y := by
  induction xs with
  | nil => exact ⟨[], [], rfl, by simp, by simp⟩
  | cons x xs ih =>
    obtain ⟨hx, hxs⟩ := List.pairwise_cons.mp h
    by_cases hlt : rank x < t
    · obtain ⟨pre, post, rfl, hpre, hpost⟩ := ih hxs
      exact ⟨x :: pre, post, rfl, List.forall_mem_cons.mpr ⟨hlt, hpre⟩, hpost⟩
    · have hle := not_lt.mp hlt
      refine ⟨[], x :: xs, rfl, by simp, List.forall_mem_cons.mpr ⟨hle, fun y hy => ?_⟩⟩
      exact le_of_lt (lt_of_le_of_lt hle (hx y hy))

/-- A search for a rank from below stops at the first place that has it. -/
theorem find?_append_eq_head? {pre post : List α} {t : K} (hpre : ∀ y ∈ pre, rank y < t)
    (hpost : ∀ y ∈ post.head?, t ≤ rank y) :
    (pre ++ post).find? (fun y => decide (t ≤ rank y)) = post.head? := by
  have hnone : pre.find? (fun y => decide (t ≤ rank y)) = none :=
    List.find?_eq_none.mpr (fun y hy hle =>
      absurd (hpre y hy) (not_lt.mpr (of_decide_eq_true hle)))
  rw [List.find?_append, hnone, Option.none_or]
  cases post with
  | nil => rfl
  | cons y post => rw [List.head?_cons, List.find?_cons, decide_eq_true (hpost y rfl)]

/-- **A search in a list in order gives the least place that has the rank.** -/
theorem rank_le_of_find? {xs : List α} (h : xs.Pairwise (fun x y => rank x < rank y)) {t : K}
    {y z : α} (hy : xs.find? (fun y => decide (t ≤ rank y)) = some y) (hz : z ∈ xs)
    (hle : t ≤ rank z) : rank y ≤ rank z := by
  obtain ⟨pre, post, rfl, hpre, hpost⟩ := exists_split_at h t
  rw [find?_append_eq_head? hpre (fun y hy => hpost y (List.mem_of_head? hy))] at hy
  rcases List.mem_append.mp hz with hz | hz
  · exact absurd (hpre z hz) (not_lt.mpr hle)
  · cases post with
    | nil => cases hz
    | cons x post =>
      cases hy
      rcases List.mem_cons.mp hz with rfl | hz
      · exact le_refl _
      · exact le_of_lt ((List.pairwise_cons.mp (List.pairwise_append.mp h).2.1).1 z hz)

theorem ahead_le_length (rank : α → K) (xs : List α) (x : α) : ahead rank xs x ≤ xs.length :=
  List.countP_le_length

/-- **A step forward leaves less ahead.** -/
theorem ahead_lt {xs : List α} {x y : α} (hy : y ∈ xs) (hlt : rank x < rank y) :
    ahead rank xs y < ahead rank xs x := by
  unfold ahead
  rw [List.countP_eq_length_filter, List.countP_eq_length_filter]
  have hsub : (xs.filter (fun z => decide (rank y < rank z))).Sublist
      (xs.filter (fun z => decide (rank x < rank z))) :=
    List.monotone_filter_right xs (fun z hz => by
      simp only [decide_eq_true_eq] at hz ⊢
      exact lt_trans hlt hz)
  refine lt_of_le_of_ne hsub.length_le (fun hlen => ?_)
  -- otherwise the place itself would rank above itself
  have hin : y ∈ xs.filter (fun z => decide (rank x < rank z)) :=
    List.mem_filter.mpr ⟨hy, decide_eq_true hlt⟩
  rw [← hsub.eq_of_length hlen, List.mem_filter] at hin
  exact lt_irrefl _ (of_decide_eq_true hin.2)

end

namespace SortedChain

variable [LinearOrder K] {next next' : α → Option (Option α)} {rank : α → K} {a : α} {xs : List α}
  {link : Option α}

section

variable (h : SortedChain next rank a xs)
include h

theorem nodup : (a :: xs).Nodup :=
  List.Pairwise.imp (fun {x y} (hlt : rank x < rank y) (heq : x = y) =>
    lt_irrefl (rank x) (heq ▸ hlt)) h.sorted

/-- **A place of the chain splits it**: what is not behind it ranks no higher, and its
link leads to what is behind it. -/
theorem exists_split {x : α} (hx : x ∈ a :: xs) :
    ∃ pre post, xs = pre ++ post ∧ pre.getLastD a = x ∧ next x = some post.head?
      ∧ (∀ y ∈ pre, rank y ≤ rank x) ∧ ∀ y ∈ post, rank x < rank y := by
  rcases List.mem_cons.mp hx with rfl | hx
  · exact ⟨[], xs, rfl, rfl, h.linked.next_start, by simp, (List.pairwise_cons.mp h.sorted).1⟩
  · obtain ⟨l₁, l₂, rfl⟩ := List.append_of_mem hx
    have hsorted := (List.pairwise_cons.mp h.sorted).2
    obtain ⟨-, hright, hbetween⟩ := List.pairwise_append.mp hsorted
    have hlast : (l₁ ++ [x]).getLastD a = x := by simp
    have hsplit : l₁ ++ x :: l₂ = (l₁ ++ [x]) ++ l₂ := by simp
    refine ⟨l₁ ++ [x], l₂, hsplit, hlast, ?_, fun y hy => ?_, (List.pairwise_cons.mp hright).1⟩
    · have hlinked := h.linked
      rw [hsplit] at hlinked
      rw [← hlinked.getLastD.next_start, hlast]
    · rcases List.mem_append.mp hy with hy | hy
      · exact le_of_lt (hbetween y hy x List.mem_cons_self)
      · exact le_of_eq (congrArg rank (List.mem_singleton.mp hy))

/-- A link leads forward. -/
theorem mem_of_next {x y : α} (hx : x ∈ a :: xs) (hnext : next x = some (some y)) :
    y ∈ xs ∧ rank x < rank y := by
  obtain ⟨pre, post, rfl, -, hpost, -, hlt⟩ := h.exists_split hx
  have hhead : post.head? = some y := Option.some.inj (hpost.symm.trans hnext)
  have hmem : y ∈ post := List.mem_of_head? hhead
  exact ⟨List.mem_append_right pre hmem, hlt y hmem⟩

/-- **What one link shows**: every place is at or before the one it was read at, or at or
behind the one it leads to. -/
theorem le_or_le_of_next {x z : α} (hx : x ∈ a :: xs) (hnext : next x = some link) (hz : z ∈ xs) :
    rank z ≤ rank x ∨ ∃ y, link = some y ∧ rank y ≤ rank z := by
  obtain ⟨pre, post, rfl, -, hpost, hpre, -⟩ := h.exists_split hx
  obtain rfl : post.head? = link := Option.some.inj (hpost.symm.trans hnext)
  rcases List.mem_append.mp hz with hz | hz
  · exact Or.inl (hpre z hz)
  · cases post with
    | nil => cases hz
    | cons y post =>
      refine Or.inr ⟨y, rfl, ?_⟩
      have hsorted := (List.pairwise_append.mp (List.pairwise_cons.mp h.sorted).2).2.1
      rcases List.mem_cons.mp hz with rfl | hz
      · exact le_refl _
      · exact le_of_lt ((List.pairwise_cons.mp hsorted).1 z hz)

/-- **Where a search ends.** The link of a place below the target that leads to none below
it leads to the first place that is not below it. -/
theorem eq_find? {x : α} {t : K} (hx : x ∈ a :: xs) (hlt : rank x < t) (hnext : next x = some link)
    (hlink : ∀ y ∈ link, t ≤ rank y) : link = xs.find? (fun y => decide (t ≤ rank y)) := by
  obtain ⟨pre, post, rfl, -, hpost, hpre, -⟩ := h.exists_split hx
  obtain rfl : post.head? = link := Option.some.inj (hpost.symm.trans hnext)
  exact (find?_append_eq_head? (fun y hy => lt_of_le_of_lt (hpre y hy) hlt) hlink).symm

/-- **Inserting a place in order.** -/
theorem splice {p n : α} {ys : List α} (hp : p ∈ a :: xs) (hlink : next p = some link)
    (hpn : rank p < rank n) (hnl : ∀ y ∈ link, rank n < rank y) (hn' : next' n = some link)
    (hp' : next' p = some (some n)) (hframe : ∀ x ∈ a :: xs, x ≠ p → next' x = next x)
    (hsorted : (a :: ys).Pairwise (fun x y => rank x < rank y))
    (hmem : ∀ y, y ∈ ys ↔ y = n ∨ y ∈ xs) : SortedChain next' rank a ys := by
  obtain ⟨pre, post, rfl, hlast, hpost, hpre, -⟩ := h.exists_split hp
  obtain rfl : post.head? = link := Option.some.inj (hpost.symm.trans hlink)
  have hchain := (List.pairwise_cons.mp h.sorted).2
  have hbehind : ∀ y ∈ post, rank n < rank y := by
    cases post with
    | nil => exact fun y hy => by cases hy
    | cons z post =>
      intro y hy
      have hz := hnl z rfl
      rcases List.mem_cons.mp hy with rfl | hy
      · exact hz
      · exact lt_trans hz ((List.pairwise_cons.mp (List.pairwise_append.mp hchain).2.1).1 y hy)
  have hnew : (pre ++ n :: post).Pairwise (fun x y => rank x < rank y) :=
    pairwise_insert hchain (fun y hy => lt_of_le_of_lt (hpre y hy) hpn) hbehind
  -- lists in strict order with the same members are equal
  have : Std.Antisymm (fun x y => rank x < rank y) := ⟨fun x y hxy hyx => absurd hyx hxy.asymm⟩
  have : Std.Irrefl (fun x y => rank x < rank y) := ⟨fun x => lt_irrefl (rank x)⟩
  obtain rfl : pre ++ n :: post = ys :=
    hnew.eq_of_mem_iff (List.pairwise_cons.mp hsorted).2 (fun y => by
      rw [hmem, List.mem_append, List.mem_append, List.mem_cons]
      tauto)
  refine ⟨h.linked.splice h.nodup hn' (hlast.symm ▸ hp') ?_, hsorted⟩
  rwa [hlast]

end

end SortedChain

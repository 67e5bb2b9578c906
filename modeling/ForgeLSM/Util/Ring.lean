import Mathlib

/-!
# A ring of slots

A queue of bounded length kept in an array of slots that is used over and
over: a counter goes up by one with each element that enters, and the element
goes to the slot the counter falls on. Elements leave oldest first, which
clears their slot and leaves the counter.

A reader goes back from the counter and takes what is in the slots it comes
by (`Ring.scan`). `Ring.Holds` says that the slots hold a queue; then the
reader sees the queue, newest first.
-/

open Function

namespace Ring

variable {α : Type*} {n : ℕ} [NeZero n] {idx : ℕ} {slots : Fin n → Option α} {l : List α}

/-- A ring of four slots has slots. -/
instance neZeroFour : NeZero 4 := ⟨by decide⟩

/-- The slot a count falls on. -/
def slotOf (n : ℕ) [NeZero n] (idx : ℕ) : Fin n := Fin.ofNat n idx

/-- What the reader finds at its `i`-th stop back from the counter. -/
def stop (slots : Fin n → Option α) (idx i : ℕ) : Option α :=
  if idx > i then slots (slotOf n (idx - 1 - i)) else none

/-- **What a reader going back from the counter finds**, newest first. -/
def scan (slots : Fin n → Option α) (idx : ℕ) : List α :=
  (List.range n).filterMap (stop slots idx)

/-- **The slots hold a queue**, given newest first. -/
structure Holds (slots : Fin n → Option α) (idx : ℕ) (l : List α) : Prop where
  length_le : l.length ≤ n
  length_le_idx : l.length ≤ idx
  stop_eq : ∀ i < n, stop slots idx i = l[i]?

/-- Counts less than one round apart fall on different slots. -/
theorem slotOf_ne {x y : ℕ} (hlt : y < x) (hround : x - y < n) : slotOf n x ≠ slotOf n y := by
  intro h
  have hmod : x % n = y % n := congrArg Fin.val h
  have hzero := Nat.sub_mod_eq_zero_of_mod_eq hmod
  rw [Nat.mod_eq_of_lt hround] at hzero
  omega

/-- Counts one round apart fall on the same slot. -/
theorem slotOf_sub {x : ℕ} (h : n ≤ x) : slotOf n (x - n) = slotOf n x :=
  Fin.ext (Nat.mod_eq_sub_mod h).symm

theorem filterMap_getElem?_range (l : List α) (m : ℕ) :
    (List.range m).filterMap (fun i => l[i]?) = l.take m := by
  induction m with
  | zero => simp
  | succ m ih =>
    rw [List.range_succ, List.filterMap_append, ih, List.take_add_one]
    cases h : l[m]? <;> simp [h]

/-- **A reader sees the queue.** -/
theorem Holds.scan_eq (h : Holds slots idx l) : scan slots idx = l := by
  unfold scan
  rw [List.filterMap_congr (fun i hi => h.stop_eq i (List.mem_range.mp hi)),
    filterMap_getElem?_range, List.take_of_length_le h.length_le]

theorem holds_nil : Holds (fun _ : Fin n => (none : Option α)) idx [] where
  length_le := Nat.zero_le n
  length_le_idx := Nat.zero_le idx
  stop_eq i _ := by
    unfold stop
    split_ifs <;> rfl

/-- **An element enters** a slot that is free. -/
theorem Holds.push (h : Holds slots idx l) (hfree : slots (slotOf n idx) = none) (a : α) :
    Holds (update slots (slotOf n idx) (some a)) (idx + 1) (a :: l) := by
  -- a full ring would have its oldest element where the new one goes
  have hroom : l.length < n := by
    refine lt_of_le_of_ne h.length_le (fun hfull => ?_)
    have hn : 0 < n := Nat.pos_of_neZero n
    have hstop := h.stop_eq (n - 1) (by omega)
    have hidx := h.length_le_idx
    rw [stop, if_pos (by omega), show idx - 1 - (n - 1) = idx - n by omega,
      slotOf_sub (by omega), hfree, List.getElem?_eq_getElem (by omega)] at hstop
    cases hstop
  refine ⟨hroom, Nat.succ_le_succ h.length_le_idx, fun i hi => ?_⟩
  cases i with
  | zero =>
    rw [stop, if_pos (by omega), show idx + 1 - 1 - 0 = idx by omega, update_self]
    rfl
  | succ i =>
    rw [List.getElem?_cons_succ, ← h.stop_eq i (by omega)]
    unfold stop
    by_cases hlt : idx > i
    · rw [if_pos (by omega), if_pos hlt, show idx + 1 - 1 - (i + 1) = idx - 1 - i by omega,
        update_of_ne (slotOf_ne (by omega) (by omega)).symm]
    · rw [if_neg (by omega), if_neg hlt]

/-- **The oldest element leaves**: its slot is cleared. -/
theorem Holds.pop {a : α} (h : Holds slots idx (l ++ [a])) :
    Holds (update slots (slotOf n (idx - (l.length + 1))) none) idx l := by
  have hle := h.length_le
  have hidx := h.length_le_idx
  rw [List.length_append, List.length_singleton] at hle hidx
  refine ⟨by omega, by omega, fun i hi => ?_⟩
  have hstop := h.stop_eq i hi
  unfold stop at hstop ⊢
  by_cases hlt : idx > i
  · rw [if_pos hlt] at hstop ⊢
    rcases lt_trichotomy i l.length with hil | hil | hil
    · rw [update_of_ne (slotOf_ne (by omega) (by omega)), hstop,
        List.getElem?_append_left hil]
    · rw [show idx - 1 - i = idx - (l.length + 1) by omega, update_self,
        List.getElem?_eq_none (by omega)]
    · rw [update_of_ne (slotOf_ne (by omega) (by omega)).symm, hstop,
        List.getElem?_eq_none (by simp; omega), List.getElem?_eq_none (by omega)]
  · rw [if_neg hlt, List.getElem?_eq_none (by omega)]

/-! ## All the slots

A reader that goes through the slots in the order of the array sees the same
elements, in another order. -/

/-- The slots the counter has not come to yet are free. -/
def Unused (slots : Fin n → Option α) (idx : ℕ) : Prop :=
  ∀ j : Fin n, idx ≤ j.val → slots j = none

theorem Unused.push (h : Unused slots idx) (a : α) :
    Unused (update slots (slotOf n idx) (some a)) (idx + 1) := by
  intro j hj
  have hmod : (slotOf n idx).val = idx := Nat.mod_eq_of_lt (by omega)
  rw [update_of_ne (fun hc => by rw [hc] at hj; omega)]
  exact h j (by omega)

omit [NeZero n] in
theorem Unused.clear (h : Unused slots idx) (i : Fin n) :
    Unused (update slots i none) idx := by
  intro j hj
  by_cases hji : j = i
  · rw [hji, update_self]
  · rw [update_of_ne hji]
    exact h j hj

/-- **The reader comes by every slot** that the counter has come to. -/
theorem exists_stop {j : Fin n} (hlt : j.val < idx) :
    ∃ i < n, i < idx ∧ slotOf n (idx - 1 - i) = j := by
  have hround : (idx - 1 - j.val) % n < n := Nat.mod_lt _ (Nat.pos_of_neZero n)
  have hle : (idx - 1 - j.val) % n ≤ idx - 1 - j.val := Nat.mod_le _ _
  refine ⟨(idx - 1 - j.val) % n, hround, by omega, Fin.ext ?_⟩
  show (idx - 1 - (idx - 1 - j.val) % n) % n = j.val
  have hdiv := Nat.div_add_mod (idx - 1 - j.val) n
  rw [show idx - 1 - (idx - 1 - j.val) % n = j.val + n * ((idx - 1 - j.val) / n) by omega,
    Nat.add_mul_mod_self_left, Nat.mod_eq_of_lt j.isLt]

/-- Every element of the queue is in a slot. -/
theorem Holds.exists_slot (h : Holds slots idx l) {a : α} (ha : a ∈ l) : ∃ j, slots j = some a := by
  obtain ⟨i, hi, rfl⟩ := List.getElem_of_mem ha
  have hstop := h.stop_eq i (lt_of_lt_of_le hi h.length_le)
  rw [stop, if_pos (lt_of_lt_of_le hi h.length_le_idx), List.getElem?_eq_getElem hi] at hstop
  exact ⟨_, hstop⟩

/-- **The elements of the queue are those in the slots.** -/
theorem Holds.mem_iff (h : Holds slots idx l) (hu : Unused slots idx) {a : α} :
    a ∈ l ↔ ∃ j, slots j = some a := by
  constructor
  · exact h.exists_slot
  · rintro ⟨j, hj⟩
    have hlt : j.val < idx := by
      by_contra hle
      rw [hu j (not_lt.mp hle)] at hj
      cases hj
    -- the stop at which the reader comes by the slot
    obtain ⟨i, hi, hidx, hslot⟩ := exists_stop hlt
    have hstop := h.stop_eq i hi
    rw [stop, if_pos hidx, hslot, hj] at hstop
    exact List.mem_of_getElem? hstop.symm

/-! ## The slots in use

The slots in use are those of the last counts, as many as there are elements, and the reader
comes by each of them once. -/

/-- What is in the slot of a count that has not left. -/
theorem Holds.slot_eq (h : Holds slots idx l) {x : ℕ} (hlo : idx - l.length ≤ x) (hhi : x < idx) :
    slots (slotOf n x) = l[idx - 1 - x]? := by
  have hle := h.length_le
  have hle' := h.length_le_idx
  have hstop := h.stop_eq (idx - 1 - x) (by omega)
  rw [stop, if_pos (by omega), show idx - 1 - (idx - 1 - x) = x by omega] at hstop
  exact hstop

/-- **The slots in use are an interval of counts.** -/
theorem Holds.isSome_iff (h : Holds slots idx l) (hu : Unused slots idx) (j : Fin n) :
    (slots j).isSome ↔ ∃ x, idx - l.length ≤ x ∧ x < idx ∧ slotOf n x = j := by
  constructor
  · intro hj
    have hlt : j.val < idx := by
      by_contra hle
      rw [hu j (not_lt.mp hle)] at hj
      cases hj
    obtain ⟨i, hi, hidx, hslot⟩ := exists_stop hlt
    have hstop := h.stop_eq i hi
    rw [stop, if_pos hidx, hslot] at hstop
    have hil : i < l.length := by
      rw [hstop] at hj
      obtain ⟨a, ha⟩ := Option.isSome_iff_exists.mp hj
      exact (List.getElem?_eq_some_iff.mp ha).1
    exact ⟨idx - 1 - i, by omega, by omega, hslot⟩
  · rintro ⟨x, hlo, hhi, rfl⟩
    rw [h.slot_eq hlo hhi, List.getElem?_eq_getElem (by omega)]
    rfl

/-- **The slots a reader comes by**, for as long as the counter lets it go back. -/
def visits (n : ℕ) [NeZero n] (idx : ℕ) : List (Fin n) :=
  ((List.range n).takeWhile (fun i => idx > i)).map (fun i => slotOf n (idx - 1 - i))

theorem takeWhile_range (n idx : ℕ) :
    (List.range n).takeWhile (fun i => idx > i) = List.range (min n idx) := by
  have hall : ∀ i ∈ List.range (min n idx), decide (idx > i) = true := by
    intro i hi
    have := List.mem_range.mp hi
    exact decide_eq_true (by omega)
  rcases le_or_gt n idx with hle | hlt
  · rw [min_eq_left hle] at hall ⊢
    exact List.takeWhile_eq_self_iff.mpr hall
  · obtain ⟨k, rfl⟩ := Nat.exists_eq_add_of_lt hlt
    rw [min_eq_right hlt.le] at hall ⊢
    rw [Nat.add_assoc, List.range_add, List.takeWhile_append_of_pos hall, List.range_succ_eq_map]
    simp

theorem mem_visits_iff {j : Fin n} :
    j ∈ visits n idx ↔ ∃ i < n, i < idx ∧ slotOf n (idx - 1 - i) = j := by
  rw [visits, takeWhile_range]
  simp only [List.mem_map, List.mem_range, lt_min_iff, and_assoc]

theorem nodup_visits (n : ℕ) [NeZero n] (idx : ℕ) : (visits n idx).Nodup := by
  rw [visits, takeWhile_range]
  refine List.Nodup.map_on (fun i hi k hk heq => ?_) List.nodup_range
  have hi' := List.mem_range.mp hi
  have hk' := List.mem_range.mp hk
  rcases lt_trichotomy i k with hik | rfl | hik
  · exact absurd heq (slotOf_ne (by omega) (by omega))
  · rfl
  · exact absurd heq.symm (slotOf_ne (by omega) (by omega))

/-- What the reader finds is what is in the slots it comes by. -/
theorem filterMap_visits (slots : Fin n → Option α) (idx : ℕ) :
    (visits n idx).filterMap slots = scan slots idx := by
  have hsplit : List.range n = List.range (min n idx)
      ++ (List.range (n - min n idx)).map (min n idx + ·) := by
    rw [← List.range_add, Nat.add_sub_cancel' (Nat.min_le_left n idx)]
  -- past the count of all that entered, a reader stops
  have hrest : ((List.range (n - min n idx)).map (min n idx + ·)).filterMap (stop slots idx)
      = [] := by
    rw [List.filterMap_eq_nil_iff]
    intro i hi
    obtain ⟨k, hk, rfl⟩ := List.mem_map.mp hi
    have := List.mem_range.mp hk
    exact if_neg (by omega)
  rw [visits, takeWhile_range, List.filterMap_map, scan, hsplit, List.filterMap_append, hrest,
    List.append_nil]
  refine List.filterMap_congr (fun i hi => ?_)
  have := List.mem_range.mp hi
  exact (if_pos (by omega)).symm

end Ring

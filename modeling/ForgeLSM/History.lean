import ForgeLSM.Basic

/-!
# Histories of operations

What the store is for: a client puts and deletes, and reads back the last of
its operations on a key. A `History` is the list of the operations in the
order they were committed, and `History.value` is what a read should return.

An operation is told from the others by its *stamp*, its place in the
history counted from one. The stamp of the last operation on a key
(`History.lastStamp`) says how recent an entry for the key has to be, and
`List.take` goes back to the history at an earlier time: the last
operation on a key is the same at two times when none was committed in
between (`lastStamp_take_eq`).
-/

/-- An operation of the client: a put, or a delete. -/
structure Op where
  key : Key
  /-- The value put, none for a delete. -/
  value : Option Value
  deriving DecidableEq

/-- The operations committed, oldest first. -/
abbrev History := List Op

namespace History

/-- The last operation on a key. -/
def lastOp (h : History) (k : Key) : Option Op := h.reverse.find? (fun op => decide (op.key = k))

/-- **What a read should return**: the value of the last put of the key, none
when the key was never written or last deleted. -/
def value (h : History) (k : Key) : Option Value := (h.lastOp k).bind Op.value

/-- The place of the last operation on a key in the reversed history,
counted from the end. -/
def lastStampRev : List Op → Key → ℕ
  | [], _ => 0
  | op :: ops, k => if op.key = k then ops.length + 1 else lastStampRev ops k

/-- **The stamp of the last operation on a key**, zero when there is none. -/
def lastStamp (h : History) (k : Key) : ℕ := lastStampRev h.reverse k

/-- The operation with a stamp. -/
def opAt (h : History) (n : ℕ) : Option Op := if n = 0 then none else h[n - 1]?

theorem lastStamp_append_singleton (h : History) (op : Op) (k : Key) :
    lastStamp (h ++ [op]) k = if op.key = k then h.length + 1 else lastStamp h k := by
  unfold lastStamp
  rw [List.reverse_append, List.reverse_singleton, List.singleton_append, lastStampRev,
    List.length_reverse]

theorem lastOp_append_singleton (h : History) (op : Op) (k : Key) :
    lastOp (h ++ [op]) k = if op.key = k then some op else lastOp h k := by
  unfold lastOp
  rw [List.reverse_append, List.reverse_singleton, List.singleton_append, List.find?_cons]
  by_cases hk : op.key = k
  · rw [decide_eq_true hk, if_pos hk]
  · rw [decide_eq_false hk, if_neg hk]

variable {h : History}

theorem opAt_append_left {n : ℕ} (hn : n ≤ h.length) (h' : History) :
    opAt (h ++ h') n = opAt h n := by
  unfold opAt
  split_ifs with h0
  · rfl
  · exact List.getElem?_append_left (by omega)

theorem le_length_of_opAt {n : ℕ} {op : Op} (hop : opAt h n = some op) : n ≤ h.length := by
  unfold opAt at hop
  split_ifs at hop
  have := (List.getElem?_eq_some_iff.mp hop).1
  omega

theorem opAt_append_singleton (h : History) (op : Op) :
    opAt (h ++ [op]) (h.length + 1) = some op := by
  unfold opAt
  rw [if_neg (by omega), Nat.add_sub_cancel, List.getElem?_append_right (le_refl _)]
  simp

theorem lastStamp_le_length (h : History) (k : Key) : lastStamp h k ≤ h.length := by
  induction h using List.reverseRecOn with
  | nil => exact Nat.le_refl 0
  | append_singleton h op ih =>
    rw [lastStamp_append_singleton, List.length_append, List.length_singleton]
    split_ifs <;> omega

variable {k : Key}

/-- Operations on other keys do not matter. -/
theorem lastStamp_append_of_ne {h t : History} (ht : ∀ op ∈ t, op.key ≠ k) :
    lastStamp (h ++ t) k = lastStamp h k := by
  induction t using List.reverseRecOn with
  | nil => rw [List.append_nil]
  | append_singleton t op ih =>
    rw [← List.append_assoc, lastStamp_append_singleton,
      if_neg (ht op (List.mem_append_right t (List.mem_singleton.mpr rfl))),
      ih (fun op' hop' => ht op' (List.mem_append_left _ hop'))]

/-- The last operation is the one with the last stamp. -/
theorem lastOp_eq_opAt (h : History) (k : Key) : lastOp h k = opAt h (lastStamp h k) := by
  induction h using List.reverseRecOn with
  | nil => rfl
  | append_singleton h op ih =>
    rw [lastOp_append_singleton, lastStamp_append_singleton]
    split_ifs with hk
    · exact (opAt_append_singleton h op).symm
    · rw [ih, opAt_append_left (lastStamp_le_length h k)]

/-- No operation on the key has a later stamp. -/
theorem le_lastStamp {n : ℕ} {op : Op} (hop : opAt h n = some op) : n ≤ lastStamp h op.key := by
  induction h using List.reverseRecOn with
  | nil =>
    unfold opAt at hop
    split_ifs at hop
    simp at hop
  | append_singleton h op' ih =>
    rw [lastStamp_append_singleton]
    by_cases hn : n ≤ h.length
    · rw [opAt_append_left hn] at hop
      split_ifs
      · omega
      · exact ih hop
    · have hlt := le_length_of_opAt hop
      rw [List.length_append, List.length_singleton] at hlt
      obtain rfl : n = h.length + 1 := by omega
      rw [opAt_append_singleton] at hop
      cases hop
      rw [if_pos rfl]

/-- **The last operation as of an earlier time** is the last one, when it is
that old. -/
theorem lastStamp_take_eq {y : ℕ} (hy : lastStamp h k ≤ y) :
    lastStamp (h.take y) k = lastStamp h k := by
  induction h using List.reverseRecOn with
  | nil => simp
  | append_singleton h op ih =>
    by_cases hlen : (h ++ [op]).length ≤ y
    · rw [List.take_of_length_le hlen]
    · rw [List.length_append, List.length_singleton] at hlen
      rw [List.take_append_of_le_length (by omega)]
      rw [lastStamp_append_singleton] at hy ⊢
      split_ifs at hy ⊢ with hk
      · omega
      · exact ih hy

/-- The last operations as of two times agree, when the later one is as old
as the earlier time. -/
theorem lastStamp_take_take {x y : ℕ} (hxy : x ≤ y) (hx : lastStamp (h.take y) k ≤ x) :
    lastStamp (h.take x) k = lastStamp (h.take y) k := by
  have := lastStamp_take_eq hx
  rwa [List.take_take, min_eq_left hxy] at this

theorem lastStamp_take_le (h : History) (k : Key) (y : ℕ) : lastStamp (h.take y) k ≤ y :=
  le_trans (lastStamp_le_length _ k) (by
    rw [List.length_take]
    exact min_le_left _ _)

theorem opAt_take {n y : ℕ} (hn : n ≤ y) : opAt (h.take y) n = opAt h n := by
  unfold opAt
  split_ifs with h0
  · rfl
  · rw [List.getElem?_take, if_pos (by omega)]

/-! ## Puts -/

/-- **The stamp of the last operation on a key when it is a put.** -/
def putStamp (h : History) (k : Key) : Option ℕ :=
  if (h.value k).isSome then some (h.lastStamp k) else none

theorem value_eq_none_of_putStamp (hn : putStamp h k = none) : value h k = none := by
  unfold putStamp at hn
  split_ifs at hn with hv
  exact Option.not_isSome_iff_eq_none.mp hv

theorem lastStamp_eq_of_putStamp {n : ℕ} (hn : putStamp h k = some n) : lastStamp h k = n := by
  unfold putStamp at hn
  split_ifs at hn
  exact Option.some.inj hn

/-- What is expected of a key stays while its last stamp does. -/
theorem putStamp_append {h t : History} (ht : lastStamp (h ++ t) k = lastStamp h k) :
    putStamp (h ++ t) k = putStamp h k := by
  unfold putStamp value
  rw [lastOp_eq_opAt, lastOp_eq_opAt, ht, opAt_append_left (lastStamp_le_length h k)]

/-- The last operation on a key is on the key. -/
theorem key_of_opAt_lastStamp {op : Op} (hop : opAt h (lastStamp h k) = some op) : op.key = k := by
  rw [← lastOp_eq_opAt, lastOp] at hop
  simpa using List.find?_some hop

/-- What is expected of a key depends only on its last stamp. -/
theorem lastOp_take_take {x y : ℕ} (hxy : x ≤ y) (hx : lastStamp (h.take y) k ≤ x) :
    lastOp (h.take x) k = lastOp (h.take y) k := by
  rw [lastOp_eq_opAt, lastOp_eq_opAt, lastStamp_take_take hxy hx, opAt_take hx,
    opAt_take (lastStamp_take_le h k y)]

theorem putStamp_take_take {x y : ℕ} (hxy : x ≤ y) (hx : lastStamp (h.take y) k ≤ x) :
    putStamp (h.take x) k = putStamp (h.take y) k := by
  unfold putStamp History.value
  rw [lastOp_take_take hxy hx, lastStamp_take_take hxy hx]

end History

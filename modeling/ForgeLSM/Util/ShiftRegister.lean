import Mathlib.Data.List.Basic
import Mathlib.Logic.Function.Iterate

/-!
# Shift registers with feedback

The register of a cyclic redundancy check: with every bit of the input it moves
down one place, and when a bit falls out the polynomial is added.

The register is linear in the exclusive or of inputs (`xor_feedAll`), so that
what two inputs of one length leave behind differs as their difference does, fed
from zero. A difference that lies within as many bits as the register has never
leaves zero: `eq_of_feedAll_eq_zero` says that the bits fed within one length of
the register can be read off it, and behind them the register, once it is not
zero, does not become so again. `feedAll_ne_of_burst` puts the two together.
-/

namespace ShiftRegister

variable {w : ℕ} (poly : BitVec w) {c : BitVec w}

/-- One place down; the polynomial is added when a bit falls out. -/
def shift (c : BitVec w) : BitVec w := (c >>> 1) ^^^ (if c.getLsbD 0 then poly else 0#w)

/-- A bit is added to the register, which then moves down. -/
def feed (c : BitVec w) (b : Bool) : BitVec w :=
  shift poly (c ^^^ BitVec.setWidth w (BitVec.ofBool b))

/-- The bits of an input are fed in turn. -/
def feedAll (c : BitVec w) (bits : List Bool) : BitVec w := bits.foldl (feed poly) c

/-! ## The register is linear -/

theorem shift_xor (a b : BitVec w) : shift poly (a ^^^ b) = shift poly a ^^^ shift poly b := by
  unfold shift
  rw [BitVec.getLsbD_xor, BitVec.ushiftRight_xor_distrib]
  apply BitVec.eq_of_getLsbD_eq
  intro i hi
  cases a.getLsbD 0 <;> cases b.getLsbD 0 <;> simp [BitVec.getLsbD_xor] <;>
    cases a.getLsbD (1 + i) <;> cases b.getLsbD (1 + i) <;> cases poly.getLsbD i <;> rfl

theorem iterate_shift_xor (n : ℕ) (a b : BitVec w) :
    (shift poly)^[n] (a ^^^ b) = (shift poly)^[n] a ^^^ (shift poly)^[n] b := by
  induction n generalizing a b with
  | zero => rfl
  | succ n ih => rw [Function.iterate_succ_apply, shift_xor, ih]; rfl

@[simp] theorem shift_zero : shift poly 0#w = 0#w := by simp [shift]

theorem feed_xor (a b : BitVec w) (x y : Bool) :
    feed poly a x ^^^ feed poly b y = feed poly (a ^^^ b) (x ^^ y) := by
  unfold feed
  rw [← shift_xor]
  congr 1
  apply BitVec.eq_of_getLsbD_eq
  intro i hi
  simp only [BitVec.getLsbD_xor, BitVec.getLsbD_setWidth, BitVec.getLsbD_ofBool]
  cases decide (i < w) <;> cases decide (i = 0) <;> cases x <;> cases y <;> simp

/-- **The difference of two runs is the run of the difference.** -/
theorem xor_feedAll {xs ys : List Bool} (h : xs.length = ys.length) (a b : BitVec w) :
    feedAll poly a xs ^^^ feedAll poly b ys = feedAll poly (a ^^^ b) (List.zipWith xor xs ys) := by
  induction xs generalizing ys a b with
  | nil =>
    obtain rfl : ys = [] := List.length_eq_zero_iff.mp h.symm
    rfl
  | cons x xs ih =>
    cases ys with
    | nil => cases h
    | cons y ys =>
      have hstep := ih (Nat.succ.inj h) (feed poly a x) (feed poly b y)
      rw [feed_xor] at hstep
      exact hstep

theorem feedAll_append (c : BitVec w) (xs ys : List Bool) :
    feedAll poly c (xs ++ ys) = feedAll poly (feedAll poly c xs) ys :=
  List.foldl_append

/-! ## Feeding clear bits -/

theorem feed_false (c : BitVec w) : feed poly c false = shift poly c := by
  simp [feed]

theorem feedAll_replicate_false (c : BitVec w) (n : ℕ) :
    feedAll poly c (List.replicate n false) = (shift poly)^[n] c := by
  induction n generalizing c with
  | zero => rfl
  | succ n ih =>
    rw [List.replicate_succ, Function.iterate_succ_apply, ← ih, ← feed_false]
    rfl

/-- A register with clear low bits only moves down. -/
theorem iterate_shift_of_low {n : ℕ} (h : ∀ i < n, c.getLsbD i = false) :
    (shift poly)^[n] c = c >>> n := by
  induction n with
  | zero => simp
  | succ n ih =>
    have hlow : (c >>> n).getLsbD 0 = false := by
      simpa using h n (Nat.lt_succ_self n)
    rw [Function.iterate_succ_apply', ih (fun i hi => h i (Nat.lt_succ_of_lt hi)), shift, hlow,
      if_neg Bool.false_ne_true, BitVec.xor_zero, BitVec.shiftRight_add]

/-- Input that is clear is the same as no input but the shifts. -/
theorem feedAll_eq_iterate_xor (c : BitVec w) (bits : List Bool) :
    feedAll poly c bits = (shift poly)^[bits.length] c ^^^ feedAll poly 0#w bits := by
  have hxor := xor_feedAll poly (List.length_replicate (n := bits.length) (a := false)) c 0#w
  rw [feedAll_replicate_false] at hxor
  have hzip : List.zipWith xor (List.replicate bits.length false) bits = bits := by
    clear hxor
    induction bits with
    | nil => rfl
    | cons b bits ih => simp [List.replicate_succ, ih]
  rw [hxor, hzip, BitVec.xor_zero]

/-! ## Bursts -/

section Burst

variable {poly}

section

variable (hp : poly.getLsbD (w - 1) = true)
include hp

/-- **What falls out shows at the top.** A polynomial with its top bit set puts
the bit that falls out there. -/
theorem getLsbD_shift_top (c : BitVec w) : (shift poly c).getLsbD (w - 1) = c.getLsbD 0 := by
  have hout : c.getLsbD (1 + (w - 1)) = false := BitVec.getLsbD_of_ge c _ (by omega)
  unfold shift
  rw [BitVec.getLsbD_xor, BitVec.getLsbD_ushiftRight, hout]
  cases c.getLsbD 0 <;> simp [hp]

/-- When nothing fell out, the register moved down. -/
theorem getLsbD_of_shift_top (h : (shift poly c).getLsbD (w - 1) = false) :
    c.getLsbD 0 = false ∧ ∀ i, c.getLsbD (i + 1) = (shift poly c).getLsbD i := by
  rw [getLsbD_shift_top hp] at h
  refine ⟨h, fun i => ?_⟩
  unfold shift
  rw [h, if_neg Bool.false_ne_true, BitVec.xor_zero, BitVec.getLsbD_ushiftRight, Nat.add_comm]

theorem shift_eq_zero (h : shift poly c = 0#w) : c = 0#w := by
  obtain ⟨hlow, hup⟩ := getLsbD_of_shift_top hp (c := c) (by rw [h, BitVec.getLsbD_zero])
  apply BitVec.eq_of_getLsbD_eq
  intro i hi
  cases i with
  | zero => rw [hlow, BitVec.getLsbD_zero]
  | succ i => rw [hup, h, BitVec.getLsbD_zero, BitVec.getLsbD_zero]

/-- **The bits fed can be read off the register** when they leave it zero and are
not more than it has. -/
theorem eq_of_feedAll_eq_zero {bits : List Bool} (hlen : bits.length ≤ w)
    (h : feedAll poly c bits = 0#w) (i : ℕ) : c.getLsbD i = bits.getD i false := by
  induction bits generalizing c i with
  | nil =>
    rw [show c = 0#w from h, BitVec.getLsbD_zero]
    rfl
  | cons b bits ih =>
    have hnext := ih (Nat.le_of_succ_le hlen) (c := feed poly c b) h
    -- the bits still to come do not reach the top, so that nothing fell out
    have htop : (feed poly c b).getLsbD (w - 1) = false := by
      have hshort : bits.length ≤ w - 1 := by
        rw [List.length_cons] at hlen
        omega
      rw [hnext, List.getD_eq_getElem?_getD, List.getElem?_eq_none hshort]
      rfl
    obtain ⟨hlow, hup⟩ := getLsbD_of_shift_top hp htop
    have hpos : 0 < w := by
      rw [List.length_cons] at hlen
      omega
    cases i with
    | zero =>
      rw [BitVec.getLsbD_xor, BitVec.getLsbD_setWidth, BitVec.getLsbD_ofBool] at hlow
      rw [List.getD_cons_zero]
      cases hc : c.getLsbD 0 <;> cases b <;> simp_all
    | succ i =>
      have hbit := hup i
      rw [BitVec.getLsbD_xor, BitVec.getLsbD_setWidth, BitVec.getLsbD_ofBool] at hbit
      rw [List.getD_cons_succ, ← hnext i, feed, ← hbit]
      simp

/-- **No burst leaves zero.** Bits that are clear outside a window as long as the
register, and not all clear, do not leave a register zero that was so. -/
theorem feedAll_zero_ne_zero {bits : List Bool} {start i : ℕ} (hi : bits[i]? = some true)
    (hwin : ∀ j : ℕ, bits[j]? = some true → start ≤ j ∧ j < start + w) :
    feedAll poly 0#w bits ≠ 0#w := by
  have hclear : ∀ l : List Bool, (∀ b ∈ l, b = false) → l = List.replicate l.length false :=
    fun l hl => List.eq_replicate_iff.mpr ⟨rfl, hl⟩
  have hfront : ∀ b ∈ bits.take start, b = false := by
    intro b hb
    obtain ⟨j, hj, rfl⟩ := List.mem_take_iff_getElem.mp hb
    by_contra hne
    have hj' : j < start := by omega
    have := hwin j (by rw [List.getElem?_eq_getElem (by omega)]; simpa using hne)
    omega
  have hback : ∀ b ∈ (bits.drop start).drop w, b = false := by
    intro b hb
    rw [List.drop_drop] at hb
    obtain ⟨j, hj, rfl⟩ := List.mem_drop_iff_getElem.mp hb
    by_contra hne
    have := hwin (start + w + j) (by rw [List.getElem?_eq_getElem (by omega)]; simpa using hne)
    omega
  have hsplit : bits
      = bits.take start ++ ((bits.drop start).take w ++ (bits.drop start).drop w) := by
    rw [List.take_append_drop, List.take_append_drop]
  have hzero : feedAll poly 0#w (bits.take start) = 0#w := by
    rw [hclear _ hfront, feedAll_replicate_false]
    exact Function.iterate_fixed (shift_zero poly) _
  intro h
  rw [hsplit, feedAll_append, hzero, feedAll_append, hclear _ hback, feedAll_replicate_false] at h
  -- behind the window the register is zero only if it was so before
  have hmid : feedAll poly 0#w ((bits.drop start).take w) = 0#w := by
    generalize feedAll poly 0#w ((bits.drop start).take w) = c at h
    generalize ((bits.drop start).drop w).length = n at h
    induction n generalizing c with
    | zero => exact h
    | succ n ih => exact shift_eq_zero hp (ih _ h)
  obtain ⟨hlo, hhi⟩ := hwin i hi
  have hbit := eq_of_feedAll_eq_zero hp (List.length_take_le _ _) hmid (i - start)
  rw [BitVec.getLsbD_zero, List.getD_eq_getElem?_getD, List.getElem?_take_of_lt (by omega),
    List.getElem?_drop, Nat.add_sub_cancel' hlo, hi] at hbit
  cases hbit

/-- **A burst is detected.** Two inputs of one length that differ, and only
within a window as long as the register, leave different registers. -/
theorem feedAll_ne_of_burst (c : BitVec w) {xs ys : List Bool} (hlen : xs.length = ys.length)
    (hne : xs ≠ ys) {start : ℕ} (hwin : ∀ i : ℕ, xs[i]? ≠ ys[i]? → start ≤ i ∧ i < start + w) :
    feedAll poly c xs ≠ feedAll poly c ys := by
  have hdiff : ∀ i : ℕ, (List.zipWith xor xs ys)[i]? = some true ↔ xs[i]? ≠ ys[i]? := by
    intro i
    rw [List.getElem?_zipWith]
    by_cases hi : i < xs.length
    · rw [List.getElem?_eq_getElem hi, List.getElem?_eq_getElem (by omega)]
      simp
    · rw [List.getElem?_eq_none (by omega), List.getElem?_eq_none (by omega)]
      simp
  obtain ⟨i, hi⟩ : ∃ i : ℕ, xs[i]? ≠ ys[i]? := by
    by_contra hall
    exact hne (List.ext_getElem? (fun (i : ℕ) => not_not.mp (fun h => hall ⟨i, h⟩)))
  intro heq
  have hxor := xor_feedAll poly hlen c c
  rw [heq, BitVec.xor_self, BitVec.xor_self] at hxor
  exact feedAll_zero_ne_zero hp ((hdiff i).mpr hi) (fun j hj => hwin j ((hdiff j).mp hj)) hxor.symm

end

end Burst

end ShiftRegister

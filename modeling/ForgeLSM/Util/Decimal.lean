import ForgeLSM.Util.Bytes

/-!
# Decimal numbers in names

A storage engine names its files by number: `printf` writes the number in
decimal, padded with zeros to a width, and `strtoul` reads it back. Among numbers
that fit the width the names sort as the numbers do; past the width they need not,
since a longer numeral is compared by as many of its digits as the shorter one has
(`padDecimal_lt_iff`).
-/

/-- The character of a digit. -/
def digitByte (d : ℕ) : Byte := Fin.ofNat 256 (48 + d)

/-- The digit of a character. -/
def digitOf (b : Byte) : Option ℕ :=
  if 48 ≤ b.val ∧ b.val ≤ 57 then some (b.val - 48) else none

theorem val_digitByte {d : ℕ} (h : d < 10) : (digitByte d).val = 48 + d := by
  show (48 + d) % 256 = 48 + d
  omega

theorem digitOf_digitByte {d : ℕ} (h : d < 10) : digitOf (digitByte d) = some d := by
  rw [digitOf, val_digitByte h, if_pos (by omega)]
  congr 1
  omega

/-- The last `w` decimal digits of a number. -/
def fixedDecimal : ℕ → ℕ → List Byte
  | 0, _ => []
  | w + 1, n => fixedDecimal w (n / 10) ++ [digitByte (n % 10)]

/-- **The format `%0wu`**: the number in decimal, with zeros in front up to
the width. -/
def padDecimal (w n : ℕ) : List Byte :=
  fixedDecimal (if n < 10 ^ w then w else Nat.log 10 n + 1) n

@[simp] theorem length_fixedDecimal (w n : ℕ) : (fixedDecimal w n).length = w := by
  induction w generalizing n with
  | zero => rfl
  | succ w ih => simp [fixedDecimal, ih]

/-- The value of the digits in front, added to what was read before them. -/
def readDigits : ℕ → List Byte → ℕ
  | acc, [] => acc
  | acc, b :: bs =>
    match digitOf b with
    | none => acc
    | some d => readDigits (10 * acc + d) bs

/-- The white space of the C locale. -/
def isSpace (b : Byte) : Bool := b.val == 32 || (9 ≤ b.val && b.val ≤ 13)

/-- The greatest value of `unsigned long`. -/
def ulongMax : ℕ := 2 ^ 64 - 1

/-- **`strtoul` in base 10**: white space, a sign, the digits in front. A
value out of range is the greatest one; a negative value wraps. -/
def strtoul (s : List Byte) : ℕ :=
  match s.dropWhile isSpace with
  | [] => 0
  | b :: bs =>
    if b.val = 45 then
      if readDigits 0 bs > ulongMax then ulongMax else (2 ^ 64 - readDigits 0 bs) % 2 ^ 64
    else if b.val = 43 then min (readDigits 0 bs) ulongMax
    else min (readDigits 0 (b :: bs)) ulongMax

/-! ## Reading back -/

/-- Reading a fixed number of digits shifts what was read before. -/
theorem readDigits_fixedDecimal {w n : ℕ} (h : n < 10 ^ w) (acc : ℕ) (rest : List Byte) :
    readDigits acc (fixedDecimal w n ++ rest) = readDigits (acc * 10 ^ w + n) rest := by
  induction w generalizing n rest with
  | zero =>
    obtain rfl : n = 0 := by simpa using h
    simp [fixedDecimal]
  | succ w ih =>
    have hdiv : n / 10 < 10 ^ w := by rw [pow_succ] at h; omega
    have hmod : n % 10 < 10 := Nat.mod_lt n (by decide)
    rw [fixedDecimal, List.append_assoc, ih hdiv, List.singleton_append, readDigits,
      digitOf_digitByte hmod]
    show readDigits (10 * (acc * 10 ^ w + n / 10) + n % 10) rest = _
    congr 1
    rw [pow_succ]
    have := Nat.div_add_mod n 10
    nlinarith

/-- The width a number is written with holds it. -/
theorem lt_pow_padDecimal (w n : ℕ) :
    n < 10 ^ (if n < 10 ^ w then w else Nat.log 10 n + 1) := by
  split_ifs with h
  · exact h
  · exact Nat.lt_pow_succ_log_self (by decide) n

/-- Different numbers are written differently. -/
theorem padDecimal_injective (w : ℕ) : Function.Injective (padDecimal w) := by
  have hread : ∀ n, readDigits 0 (padDecimal w n) = n := by
    intro n
    have h := readDigits_fixedDecimal (lt_pow_padDecimal w n) 0 []
    rw [List.append_nil, Nat.zero_mul, Nat.zero_add] at h
    exact h
  intro n m h
  rw [← hread n, h, hread m]

/-- A written number starts with a digit. -/
theorem exists_digit_cons {w : ℕ} (hw : 0 < w) (n : ℕ) :
    ∃ d bs, d < 10 ∧ fixedDecimal w n = digitByte d :: bs := by
  induction w generalizing n with
  | zero => cases hw
  | succ w ih =>
    rw [fixedDecimal]
    cases w with
    | zero => exact ⟨n % 10, [], Nat.mod_lt n (by decide), rfl⟩
    | succ w =>
      obtain ⟨d, bs, hd, he⟩ := ih (Nat.succ_pos w) (n / 10)
      exact ⟨d, bs ++ [digitByte (n % 10)], hd, by rw [he]; rfl⟩

/-! ## Sorting -/

/-- Lists of one length compare by their common positions first. -/
theorem append_lt_append_of_length_eq {a b x y : List Byte} (hlen : a.length = b.length)
    (h : a < b) : a ++ x < b ++ y := by
  induction a generalizing b with
  | nil =>
    obtain rfl := List.length_eq_zero_iff.mp hlen.symm
    exact absurd h (lt_irrefl _)
  | cons c a ih =>
    cases b with
    | nil => cases hlen
    | cons d b =>
      rw [List.cons_append, List.cons_append, List.cons_lt_cons_iff]
      rcases List.cons_lt_cons_iff.mp h with h | ⟨rfl, hab⟩
      · exact Or.inl h
      · exact Or.inr ⟨rfl, ih (Nat.succ.inj hlen) hab⟩

theorem fixedDecimal_lt {w n m : ℕ} (hm : m < 10 ^ w) (h : n < m) :
    fixedDecimal w n < fixedDecimal w m := by
  induction w generalizing n m with
  | zero =>
    rw [pow_zero] at hm
    omega
  | succ w ih =>
    have hdiv : m / 10 < 10 ^ w := by rw [pow_succ] at hm; omega
    rw [fixedDecimal, fixedDecimal]
    rcases lt_or_eq_of_le (Nat.div_le_div_right (c := 10) h.le) with hlt | heq
    · exact append_lt_append_of_length_eq (by simp) (ih hdiv hlt)
    · rw [heq]
      refine List.Lex.append_left _ (List.cons_lt_cons_iff.mpr (Or.inl ?_)) _
      rw [Fin.lt_def, val_digitByte (Nat.mod_lt n (by decide)),
        val_digitByte (Nat.mod_lt m (by decide))]
      omega

/-- How many digits a number is written with. -/
def padWidth (w n : ℕ) : ℕ := if n < 10 ^ w then w else Nat.log 10 n + 1

theorem padWidth_mono (w : ℕ) {n m : ℕ} (h : n ≤ m) : padWidth w n ≤ padWidth w m := by
  have hlog : Nat.log 10 n ≤ Nat.log 10 m := Nat.log_mono_right h
  unfold padWidth
  split_ifs with hn hm
  · exact le_refl w
  · -- a number that does not fit has more digits
    have : w ≤ Nat.log 10 m := (Nat.le_log_iff_pow_le (by decide) (by omega)).mpr (by omega)
    omega
  · omega
  · omega

/-- The digits of a number, split after the first of them. -/
theorem fixedDecimal_add (w k n : ℕ) :
    fixedDecimal (w + k) n = fixedDecimal w (n / 10 ^ k) ++ fixedDecimal k n := by
  induction k generalizing n with
  | zero => simp [fixedDecimal]
  | succ k ih =>
    rw [← Nat.add_assoc, fixedDecimal, ih, fixedDecimal, List.append_assoc, pow_succ',
      Nat.div_div_eq_div_mul]

/-- **How names compare past the width.** What follows the number starts below the
digits, so that of two numerals one of which begins with the other the shorter
comes first. -/
theorem padDecimal_lt_iff {w n m : ℕ} (h : n < m) {c : Byte} (hc : c.val < 48) (x : List Byte) :
    padDecimal w n ++ c :: x < padDecimal w m ++ c :: x
      ↔ n ≤ m / 10 ^ (padWidth w m - padWidth w n) := by
  obtain ⟨k, hk⟩ := Nat.exists_eq_add_of_le (padWidth_mono w h.le)
  have hn : n < 10 ^ padWidth w n := lt_pow_padDecimal w n
  have hm : m < 10 ^ padWidth w m := lt_pow_padDecimal w m
  have hq : m / 10 ^ k < 10 ^ padWidth w n := by
    rw [hk, pow_add] at hm
    exact Nat.div_lt_of_lt_mul (by rwa [Nat.mul_comm])
  have hsplit : padDecimal w m
      = fixedDecimal (padWidth w n) (m / 10 ^ k) ++ fixedDecimal k m := by
    rw [← fixedDecimal_add, ← hk]
    rfl
  have hshort : padDecimal w n = fixedDecimal (padWidth w n) n := rfl
  rw [hsplit, hshort, hk, Nat.add_sub_cancel_left, List.append_assoc]
  rcases lt_trichotomy n (m / 10 ^ k) with hlt | heq | hgt
  · exact iff_of_true (append_lt_append_of_length_eq (by simp) (fixedDecimal_lt hq hlt)) hlt.le
  · -- the digits of the shorter numeral are there, and more follow
    have hpos : 0 < k := by
      rcases Nat.eq_zero_or_pos k with rfl | hpos
      · rw [pow_zero, Nat.div_one] at heq
        omega
      · exact hpos
    obtain ⟨d, bs, hd, he⟩ := exists_digit_cons hpos m
    refine iff_of_true ?_ heq.le
    rw [← heq, he]
    refine List.Lex.append_left _ (List.cons_lt_cons_iff.mpr (Or.inl ?_)) _
    rw [Fin.lt_def, val_digitByte hd]
    omega
  · exact iff_of_false
      (lt_asymm (append_lt_append_of_length_eq (by simp) (fixedDecimal_lt hn hgt)))
      (not_le.mpr hgt)

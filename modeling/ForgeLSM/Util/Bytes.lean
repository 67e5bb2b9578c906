import Mathlib

/-!
# Little-endian integers in byte strings

Fixed-width unsigned integers are laid out least significant byte first.
`leBytes w x` is the layout of `x` in `w` bytes and `takeLe w` the read that
undoes it: `takeLe_leBytes` is the round trip, with whatever follows left
for the next read. A value too wide for its field is cut to its low bytes,
as a narrowing conversion does (`leNat_leBytes`).
-/

/-- A byte. -/
abbrev Byte := Fin 256

/-- There is a byte, so that numerals denote bytes. -/
instance neZeroByteCount : NeZero 256 := ⟨by decide⟩

/-- The `w` low bytes of `x`, least significant first. -/
def leBytes : ℕ → ℕ → List Byte
  | 0, _ => []
  | w + 1, x => Fin.ofNat 256 x :: leBytes w (x / 256)

/-- The number a byte string denotes, least significant byte first. -/
def leNat : List Byte → ℕ
  | [] => 0
  | b :: bs => b.val + 256 * leNat bs

@[simp] theorem length_leBytes (w x : ℕ) : (leBytes w x).length = w := by
  induction w generalizing x with
  | zero => rfl
  | succ w ih => simp [leBytes, ih]

/-- **A layout denotes its value cut to the width of the field.** -/
theorem leNat_leBytes (w x : ℕ) : leNat (leBytes w x) = x % 256 ^ w := by
  induction w generalizing x with
  | zero => simp [leBytes, leNat, Nat.mod_one]
  | succ w ih =>
    show x % 256 + 256 * leNat (leBytes w (x / 256)) = x % 256 ^ (w + 1)
    rw [ih, pow_succ, Nat.mul_comm (256 ^ w) 256, Nat.mod_mul]

theorem leNat_lt (bs : List Byte) : leNat bs < 256 ^ bs.length := by
  induction bs with
  | nil => simp [leNat]
  | cons b bs ih =>
    rw [leNat, List.length_cons, pow_succ]
    have := b.isLt
    omega

/-- **A byte string is the layout of the number it denotes.** -/
theorem leBytes_leNat (bs : List Byte) : leBytes bs.length (leNat bs) = bs := by
  induction bs with
  | nil => rfl
  | cons b bs ih =>
    have hdiv : (b.val + 256 * leNat bs) / 256 = leNat bs := by
      have := b.isLt
      omega
    have hb : Fin.ofNat 256 (b.val + 256 * leNat bs) = b := by
      refine Fin.ext ?_
      rw [Fin.val_ofNat, Nat.add_mul_mod_self_left, Nat.mod_eq_of_lt b.isLt]
    rw [List.length_cons, leNat, leBytes, hdiv, ih, hb]

/-- A number cut to 32 bits. -/
def u32 (n : ℕ) : ℕ := n % 2 ^ 32

theorem u32_of_lt {n : ℕ} (h : n < 2 ^ 32) : u32 n = n := Nat.mod_eq_of_lt h

theorem u32_lt (n : ℕ) : u32 n < 2 ^ 32 := Nat.mod_lt n (by decide)

theorem u32_le (n : ℕ) : u32 n ≤ n := Nat.mod_le n _

/-- Four bytes are the layout of a number as far as 32 bits go. -/
theorem leBytes_u32 (n : ℕ) : leBytes 4 (u32 n) = leBytes 4 n := by
  have hpow : (256 : ℕ) ^ 4 = 2 ^ 32 := by norm_num
  have h := leBytes_leNat (leBytes 4 n)
  rwa [length_leBytes, leNat_leBytes, hpow] at h

/-- The first `n` bytes of an input and what follows them, when the input is
long enough. -/
def takeBytes (n : ℕ) (bs : List Byte) : Option (List Byte × List Byte) :=
  if n ≤ bs.length then some (bs.take n, bs.drop n) else none

/-- Read a `w`-byte integer off the front of an input. -/
def takeLe (w : ℕ) (bs : List Byte) : Option (ℕ × List Byte) :=
  (takeBytes w bs).map (fun p => (leNat p.1, p.2))

/-- Reading the length of a block off its front gives the block back. -/
theorem takeBytes_append (xs rest : List Byte) :
    takeBytes xs.length (xs ++ rest) = some (xs, rest) := by
  rw [takeBytes, if_pos (by simp)]
  simp

theorem takeBytes_append_of_length {n : ℕ} {xs : List Byte} (rest : List Byte)
    (h : xs.length = n) : takeBytes n (xs ++ rest) = some (xs, rest) := by
  subst h
  exact takeBytes_append xs rest

/-- **The round trip of a fixed-width integer.** -/
theorem takeLe_leBytes {w x : ℕ} (h : x < 256 ^ w) (rest : List Byte) :
    takeLe w (leBytes w x ++ rest) = some (x, rest) := by
  rw [takeLe, takeBytes_append_of_length rest (length_leBytes w x)]
  simp [leNat_leBytes, Nat.mod_eq_of_lt h]

/-- **What a read of a block takes off an input.** -/
theorem takeBytes_eq_some {n : ℕ} {bs xs rest : List Byte} :
    takeBytes n bs = some (xs, rest) ↔ xs.length = n ∧ bs = xs ++ rest := by
  constructor
  · intro h
    unfold takeBytes at h
    split_ifs at h with hle
    cases h
    exact ⟨by rw [List.length_take]; omega, (List.take_append_drop n bs).symm⟩
  · rintro ⟨hn, rfl⟩
    exact takeBytes_append_of_length rest hn

/-- **What a read of an integer takes off an input**: its layout. -/
theorem takeLe_eq_some {w x : ℕ} {bs rest : List Byte} :
    takeLe w bs = some (x, rest) ↔ x < 256 ^ w ∧ bs = leBytes w x ++ rest := by
  constructor
  · intro h
    obtain ⟨⟨xs, r⟩, hp, he⟩ := Option.map_eq_some_iff.mp h
    cases he
    obtain ⟨rfl, rfl⟩ := takeBytes_eq_some.mp hp
    exact ⟨leNat_lt xs, by rw [leBytes_leNat]⟩
  · rintro ⟨hx, rfl⟩
    exact takeLe_leBytes hx rest

variable {bs : List Byte}

/-- A read of an integer fails only for want of bytes. -/
theorem takeLe_eq_none {w : ℕ} : takeLe w bs = none ↔ bs.length < w := by
  rw [takeLe, Option.map_eq_none_iff, takeBytes, ← not_le]
  split_ifs with h <;> simp [h]

/-- A read never leaves more than it was given. -/
theorem length_of_takeBytes {n : ℕ} {bs xs rest : List Byte}
    (h : takeBytes n bs = some (xs, rest)) : rest.length + n = bs.length := by
  obtain ⟨rfl, rfl⟩ := takeBytes_eq_some.mp h
  rw [List.length_append, Nat.add_comm]

theorem length_of_takeLe {w x : ℕ} {bs rest : List Byte}
    (h : takeLe w bs = some (x, rest)) : rest.length + w = bs.length := by
  obtain ⟨-, rfl⟩ := takeLe_eq_some.mp h
  rw [List.length_append, length_leBytes, Nat.add_comm]

/-! ## Reading at an offset -/

/-- The `n` bytes from an offset on, fewer when the input ends before. -/
def slice (bs : List Byte) (off n : ℕ) : List Byte := (bs.drop off).take n

/-- The `w`-byte integer at an offset. -/
def leAt (w : ℕ) (bs : List Byte) (off : ℕ) : ℕ := leNat (slice bs off w)

/-- **A slice of a concatenation**: the part that starts at the offset and has
the length. -/
theorem slice_eq (pre xs post : List Byte) {off n : ℕ} (hbs : bs = pre ++ (xs ++ post))
    (hoff : off = pre.length) (hn : n = xs.length) : slice bs off n = xs := by
  subst hbs hoff hn
  simp [slice]

/-- **An integer read where it was laid out**, cut to the bytes it was laid out
in. -/
theorem leAt_eq_mod (pre post : List Byte) {w x off : ℕ} (hbs : bs = pre ++ (leBytes w x ++ post))
    (hoff : off = pre.length) : leAt w bs off = x % 256 ^ w := by
  rw [leAt, slice_eq pre _ post hbs hoff (length_leBytes w x).symm, leNat_leBytes]

/-- An integer that fits its bytes is read as it was. -/
theorem leAt_eq (pre post : List Byte) {w x off : ℕ} (hbs : bs = pre ++ (leBytes w x ++ post))
    (hoff : off = pre.length) (hx : x < 256 ^ w) : leAt w bs off = x := by
  rw [leAt_eq_mod pre post hbs hoff, Nat.mod_eq_of_lt hx]

/-- A shorter slice is a front of a longer one. -/
theorem slice_min (bs : List Byte) (off n m : ℕ) :
    slice bs off (min n m) = (slice bs off n).take (min n m) := by
  rw [slice, slice, List.take_take, min_eq_left (min_le_left n m)]

/-- What is read is laid out. -/
theorem leBytes_leAt {w : ℕ} {off : ℕ} (h : off + w ≤ bs.length) :
    leBytes w (leAt w bs off) = slice bs off w := by
  have hlen : (slice bs off w).length = w := by
    rw [slice, List.length_take, List.length_drop]
    omega
  have hback := leBytes_leNat (slice bs off w)
  rw [hlen] at hback
  exact hback

/-- Two slices in a row are one. -/
theorem slice_append_slice (bs : List Byte) (off n m : ℕ) :
    slice bs off n ++ slice bs (off + n) m = slice bs off (n + m) := by
  rw [slice, slice, slice, ← List.drop_drop, List.take_add]

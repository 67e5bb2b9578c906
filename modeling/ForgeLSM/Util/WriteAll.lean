import Mathlib

/-!
# Writing a buffer out

A buffer is written by a loop around a call that may write less than it was
asked to, be interrupted, or fail. What the calls return is given by a list; a
call the list does not reach writes all it is asked to.

The loop writes a part of the buffer from its start (`writeAll_prefix`), and
all of it if it reports success (`writeAll_eq_of_ok`).
-/

variable {α : Type*}

/-- What one call of `write` returns. -/
inductive WriteResult where
  /-- It has written so many bytes, or as many as there were. -/
  | wrote (n : ℕ)
  /-- `EINTR`: it is called again. -/
  | interrupted
  | failed
  deriving DecidableEq

/-- **The loop around `write`**: what it has written of the buffer, and whether
it reports success. A call that writes nothing is a failure. -/
def writeAll : List WriteResult → List α → List α × Bool
  | _, [] => ([], true)
  | [], buf => (buf, true)
  | .interrupted :: rs, buf => writeAll rs buf
  | .failed :: _, _ => ([], false)
  | .wrote 0 :: _, _ => ([], false)
  | .wrote (n + 1) :: rs, buf =>
    let rest := writeAll rs (buf.drop (n + 1))
    (buf.take (n + 1) ++ rest.1, rest.2)

/-- It writes from the start of the buffer. -/
theorem writeAll_prefix (rs : List WriteResult) (buf : List α) : (writeAll rs buf).1 <+: buf := by
  fun_induction writeAll rs buf with
  | case1 | case2 => exact List.prefix_refl _
  | case3 rs buf _ ih => exact ih
  | case4 | case5 => exact List.nil_prefix
  | case6 n rs buf _ rest ih =>
    obtain ⟨more, hmore⟩ := ih
    refine ⟨more, ?_⟩
    rw [List.append_assoc, hmore, List.take_append_drop]

/-- **If it reports success it has written all of it.** -/
theorem writeAll_eq_of_ok {rs : List WriteResult} {buf : List α}
    (h : (writeAll rs buf).2 = true) : (writeAll rs buf).1 = buf := by
  fun_induction writeAll rs buf with
  | case1 => rfl
  | case2 => rfl
  | case3 rs buf _ ih => exact ih h
  | case4 | case5 => cases h
  | case6 n rs buf _ rest ih =>
    show buf.take (n + 1) ++ rest.1 = buf
    rw [ih h, List.take_append_drop]

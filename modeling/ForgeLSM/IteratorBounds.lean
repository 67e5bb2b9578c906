import ForgeLSM.TableIterator

/-!
# Iterating over blocks that no writer wrote

The iterator trusts nothing in a block: an entry is read only after its numbers have been
compared with the place where the restarts begin, and that place only after the number of
restarts has been compared with the size of the block. `next` computes the place once more
without the test. It may, because an iterator is valid only in a block that has passed it.

So whatever a block holds, no byte outside it is read (`SSTableIterator.calls_bounded`), and
since an entry that is read takes at least its header, every loop over the iterator ends.
-/

namespace SSTableIterator

open SSTableReader (numRestarts restartsOffset)

/-! ## Calls -/

/-- A call on an iterator. -/
inductive IterCall where
  | seekToFirst
  | seek (target : Key)
  | next

section Calls

variable {r : SSTableReader} (cache : BlockCache r)

/-- A call is made. -/
def call (it : SSTableIterator) : IterCall → Except TableError SSTableIterator
  | .seekToFirst => it.seekToFirst cache
  | .seek target => it.seek cache target
  | .next => it.next cache

/-- **Calls on a new iterator**, up to the first that throws. The constructor goes to the
first entry. -/
def calls (cs : List IterCall) : Except TableError SSTableIterator :=
  ({} : SSTableIterator).seekToFirst cache >>= fun it => cs.foldlM (call cache) it

/-- `next`, so many times. -/
def nexts : ℕ → SSTableIterator → Except TableError SSTableIterator
  | 0, it => .ok it
  | n + 1, it => it.next cache >>= nexts n

end Calls

/-- **What the iterator throws**: one of its errors for a corrupt block, or that a block is
not in the file. -/
def Thrown (r : SSTableReader) (err : TableError) : Prop :=
  err = .corrupt "SSTableIterator: Corrupted num_restarts"
    ∨ err = .corrupt "SSTableIterator: Corrupted entry header bounds"
    ∨ err = .corrupt "SSTableIterator: Corrupted entry payload bounds"
    ∨ err = .corrupt "SSTableIterator: I/O error reading block"
      ∧ ∃ e ∈ r.index, ¬ inBounds r.file e.offset e.length

/-! ## No byte outside the block -/

/-- **An iterator between calls**: it is valid only in a block that has the number of its
restarts. -/
def Ready (it : SSTableIterator) : Prop :=
  it.valid = true → ∃ b, it.currentBlock = some b ∧ 4 ≤ b.length

/-- **A call stays in bounds**: it leaves an iterator that is ready for the next one, or
throws. -/
def Bounded (r : SSTableReader) : Except TableError SSTableIterator → Prop
  | .error err => Thrown r err
  | .ok it => Ready it

theorem ready_of_invalid {it : SSTableIterator} (h : it.valid = false) : Ready it := by
  intro hv
  rw [h] at hv
  cases hv

section Safe

variable {r : SSTableReader} {cache : BlockCache r} {it : SSTableIterator}

theorem Bounded.bind {x : Except TableError SSTableIterator}
    {f : SSTableIterator → Except TableError SSTableIterator} (hx : Bounded r x)
    (hf : ∀ it, Ready it → Bounded r (f it)) : Bounded r (x >>= f) := by
  cases x with
  | error err => exact hx
  | ok it => exact hf it hx

/-- The restarts begin in the block, whatever it counts: an offset in 32 bits is not above
the one without a bound. -/
theorem restartsOffset_le (block : List Byte) : restartsOffset block ≤ block.length := by
  have hle : restartsOffset block ≤ block.length - 4 - u32 (numRestarts block * 4) := u32_le _
  omega

/-- An entry in front of the restarts is read inside the block, or refused. -/
theorem parseEntry_bounded {block : List Byte} (hblock : it.currentBlock = some block)
    (hfour : 4 ≤ block.length) : Bounded r (it.parseEntry block) := by
  have hle := restartsOffset_le block
  unfold parseEntry
  dsimp only
  by_cases hheader : it.offsetInBlock + 12 > restartsOffset block
  · rw [if_pos hheader]
    exact Or.inr (Or.inl rfl)
  rw [if_neg hheader, if_neg (not_not.mpr (by unfold inBounds; omega))]
  by_cases hpayload : it.offsetInBlock + 12 + leAt 4 block (it.offsetInBlock + 4)
      + leAt 4 block (it.offsetInBlock + 8) > restartsOffset block
  · rw [if_pos hpayload]
    exact Or.inr (Or.inr (Or.inl rfl))
  rw [if_neg hpayload, if_neg (not_not.mpr (by unfold inBounds; omega))]
  exact fun _ => ⟨block, hblock, hfour⟩

/-- **An entry is read inside its block**, or is refused. -/
theorem parseCurrentEntry_bounded (it : SSTableIterator) : Bounded r it.parseCurrentEntry := by
  have hstop : Bounded r (.ok { it with valid := false }) := ready_of_invalid rfl
  unfold parseCurrentEntry
  cases hb : it.currentBlock with
  | none =>
    rw [hb] at hstop
    exact hstop
  | some block =>
    rw [hb] at hstop
    dsimp only
    by_cases hend : it.offsetInBlock ≥ block.length
    · rw [if_pos hend]
      exact hstop
    by_cases hfour : block.length < 4
    · rw [if_neg hend, if_pos hfour]
      exact hstop
    rw [if_neg hend, if_neg hfour]
    by_cases hcount : numRestarts block = 0 ∨ numRestarts block > (block.length - 4) / 4
    · rw [if_pos hcount]
      exact Or.inl rfl
    rw [if_neg hcount]
    by_cases hrestarts : it.offsetInBlock ≥ restartsOffset block
    · rw [if_pos hrestarts]
      exact hstop
    rw [if_neg hrestarts]
    exact parseEntry_bounded hb (not_lt.mp hfour)

/-- A block of the index is loaded, or is not in the file. -/
theorem loadBlock_bounded {idx : ℕ} (hidx : idx < r.index.length) :
    (∃ block, loadBlock cache idx = .ok block)
      ∨ ∃ err, loadBlock cache idx = .error err ∧ Thrown r err := by
  unfold loadBlock
  rw [List.getElem?_eq_getElem hidx]
  dsimp only
  cases hload : cache.load r.index[idx] with
  | some block => exact Or.inl ⟨block, rfl⟩
  | none =>
    refine Or.inr ⟨_, rfl, Or.inr (Or.inr (Or.inr ⟨rfl, r.index[idx], List.getElem_mem hidx, ?_⟩))⟩
    intro hin
    have hread := (Option.or_eq_none_iff.mp hload).2
    rw [VLog.pread_of_le hin] at hread
    cases hread

theorem enterBlock_bounded {idx : ℕ} (hidx : idx < r.index.length) :
    Bounded r (it.enterBlock cache idx) := by
  unfold enterBlock
  rcases @loadBlock_bounded r cache idx hidx with ⟨block, hload⟩ | ⟨err, hload, herr⟩
  · rw [hload]
    exact parseCurrentEntry_bounded _
  · rw [hload]
    exact herr

theorem seekToFirst_bounded (it : SSTableIterator) : Bounded r (it.seekToFirst cache) := by
  unfold seekToFirst
  dsimp only
  by_cases hempty : r.index.isEmpty = true
  · rw [if_pos hempty]
    exact ready_of_invalid rfl
  · rw [if_neg hempty]
    refine enterBlock_bounded (List.length_pos_of_ne_nil (fun hnil => hempty ?_))
    rw [hnil]
    rfl

/-- **`next` reads the number of restarts of a block that has it.** -/
theorem next_bounded (h : Ready it) : Bounded r (it.next cache) := by
  unfold next
  cases hvalid : it.valid with
  | false => exact h
  | true =>
    obtain ⟨block, hblock, hfour⟩ := h hvalid
    simp only [Bool.not_true, Bool.false_eq_true, if_false, hblock]
    rw [if_neg (not_lt.mpr hfour)]
    by_cases hend : it.offsetInBlock ≥ restartsOffset block
    · rw [if_pos hend]
      by_cases hmore : it.blockIdx + 1 < r.index.length
      · rw [if_pos hmore]
        exact enterBlock_bounded hmore
      · rw [if_neg hmore]
        exact ready_of_invalid rfl
    · rw [if_neg hend]
      exact parseCurrentEntry_bounded it

/-! ## Every loop ends -/

/-- The search of the index stays in it. -/
theorem searchIndex_lt (index : List IndexEntry) (target : Key) {left right blockIdx n : ℕ}
    (hright : right < n) (hblock : blockIdx < n) :
    searchIndex index target left right blockIdx < n := by
  fun_induction searchIndex index target left right blockIdx with
  | case1 left right blockIdx hle mid hge hzero => omega
  | case2 left right blockIdx hle mid hge hzero ih => exact ih (by omega) (by omega)
  | case3 left right blockIdx hle mid hlt ih => exact ih hright hblock
  | case4 left right blockIdx hlt => exact hblock

/-- **The loop of `seek` is some number of calls of `next`**, and ends behind the entries or
at one that is not below the target. -/
theorem skipBelow_eq_nexts (cache : BlockCache r) (target : Key) (it : SSTableIterator) :
    ∃ n, it.skipBelow cache target = nexts cache n it
      ∧ ∀ it', it.skipBelow cache target = .ok it' →
        it'.valid = false ∨ target ≤ it'.currentKey := by
  fun_induction skipBelow cache target it with
  | case1 it hv err hnext =>
    refine ⟨1, ?_, nofun⟩
    rw [nexts, hnext]
    rfl
  | case2 it hv it' hnext hv' ih =>
    obtain ⟨n, hn, hend⟩ := ih
    refine ⟨n + 1, ?_, hend⟩
    rw [nexts, hnext, hn]
    rfl
  | case3 it hv it' hnext hv' =>
    refine ⟨1, ?_, fun it'' heq => ?_⟩
    · rw [nexts, hnext]
      rfl
    · cases heq
      exact Or.inl (Bool.eq_false_iff.mpr hv')
  | case4 it hv =>
    refine ⟨0, rfl, fun it' heq => ?_⟩
    cases heq
    by_cases hvalid : it.valid = true
    · exact Or.inr (not_lt.mp (fun hlt => hv ⟨hvalid, hlt⟩))
    · exact Or.inl (Bool.eq_false_iff.mpr hvalid)

/-- **A full iteration ends.** -/
theorem nexts_end (cache : BlockCache r) (it : SSTableIterator) :
    ∃ n, ∀ it', nexts cache n it = .ok it' → it'.valid = false := by
  by_cases hv : it.valid = true
  · cases hnext : it.next cache with
    | error err =>
      refine ⟨1, fun it' h => ?_⟩
      rw [nexts, hnext] at h
      cases h
    | ok it₁ =>
      by_cases hv₁ : it₁.valid = true
      · obtain ⟨n, hn⟩ := nexts_end cache it₁
        refine ⟨n + 1, fun it' h => hn it' ?_⟩
        rw [nexts, hnext] at h
        exact h
      · refine ⟨1, fun it' h => ?_⟩
        rw [nexts, hnext] at h
        cases h
        exact Bool.eq_false_iff.mpr hv₁
  · refine ⟨0, fun it' h => ?_⟩
    cases h
    exact Bool.eq_false_iff.mpr hv
termination_by left r it
decreasing_by exact next_lt hnext hv hv₁

/-- **A seek ends**: it enters a block, and calls `next` some number of times. -/
theorem seek_ends (cache : BlockCache r) (it : SSTableIterator) (target : Key) :
    (r.index = [] ∨ ∃ n, it.seek cache target = it.enterBlock cache
        (searchIndex r.index target 0 (r.index.length - 1) (r.index.length - 1))
          >>= nexts cache n)
      ∧ ∀ it', it.seek cache target = .ok it' → it'.valid = false ∨ target ≤ it'.currentKey := by
  unfold seek
  cases hindex : r.index with
  | nil =>
    refine ⟨Or.inl rfl, fun it' h => ?_⟩
    cases h
    exact Or.inl rfl
  | cons e index =>
    rw [← hindex, if_neg (by rw [hindex]; nofun)]
    dsimp only
    cases henter : it.enterBlock cache
        (searchIndex r.index target 0 (r.index.length - 1) (r.index.length - 1)) with
    | error err => exact ⟨Or.inr ⟨0, rfl⟩, nofun⟩
    | ok it₁ =>
      obtain ⟨n, hn, hend⟩ := skipBelow_eq_nexts cache target it₁
      exact ⟨Or.inr ⟨n, hn⟩, hend⟩

theorem nexts_bounded (n : ℕ) (h : Ready it) : Bounded r (nexts cache n it) := by
  induction n generalizing it with
  | zero => exact h
  | succ n ih => exact (next_bounded h).bind (fun _ h' => ih h')

theorem seek_bounded (it : SSTableIterator) (target : Key) : Bounded r (it.seek cache target) := by
  by_cases hnil : r.index = []
  · unfold seek
    rw [hnil]
    exact ready_of_invalid rfl
  · obtain ⟨n, hn⟩ := (seek_ends cache it target).1.resolve_left hnil
    have hpos := List.length_pos_of_ne_nil hnil
    rw [hn]
    exact (enterBlock_bounded (searchIndex_lt _ _ (by omega) (by omega))).bind
      (fun _ h' => nexts_bounded n h')

end Safe

/-- **An iterator reads nothing outside its blocks, and every loop over it ends.** Take any
index and any blocks, in the file or in the cache whether they are what the file has or not,
and any calls on a new iterator, up to the first that throws. What is
thrown is one of the errors for a corrupt block, unless a block is not in the file. From
there, a full iteration is over after some number of calls of `next`, and a seek after it has
entered a block and called `next` some number of times, behind the last entry or at a key
that is not below its target. -/
theorem calls_bounded {r : SSTableReader} (cache : BlockCache r) (cs : List IterCall) :
    (∀ err, calls cache cs = .error err → Thrown r err)
      ∧ ∀ it, calls cache cs = .ok it →
        (∃ n, ∀ it', nexts cache n it = .ok it' → it'.valid = false)
        ∧ ∀ target,
          (r.index = [] ∨ ∃ n, it.seek cache target = it.enterBlock cache
              (searchIndex r.index target 0 (r.index.length - 1) (r.index.length - 1))
                >>= nexts cache n)
          ∧ ∀ it', it.seek cache target = .ok it' →
            it'.valid = false ∨ target ≤ it'.currentKey := by
  have hcall : ∀ it c, Ready it → Bounded r (call cache it c) := by
    intro it c h
    cases c with
    | seekToFirst => exact seekToFirst_bounded it
    | seek target => exact seek_bounded it target
    | next => exact next_bounded h
  have hcalls : ∀ it, Ready it → Bounded r (cs.foldlM (call cache) it) := by
    induction cs with
    | nil => exact fun it h => h
    | cons c cs ih => exact fun it h => (hcall it c h).bind ih
  have hrun : Bounded r (calls cache cs) := (seekToFirst_bounded {}).bind hcalls
  refine ⟨fun err herr => ?_, fun it _ => ⟨nexts_end cache it, seek_ends cache it⟩⟩
  rw [herr] at hrun
  exact hrun

/-- A block of eight bytes that counts more restarts than it has room for. -/
def tooManyRestarts : SSTableReader where
  file := [0, 0, 0, 0, 2, 0, 0, 0]
  index := [⟨[9], 0, 8⟩]

theorem calls_bounded_tooManyRestarts :
    calls (BlockCache.empty tooManyRestarts) [.seek [3], .next]
        = .error (.corrupt "SSTableIterator: Corrupted num_restarts")
      ∧ Thrown tooManyRestarts (.corrupt "SSTableIterator: Corrupted num_restarts") := by
  have hcalls : calls (BlockCache.empty tooManyRestarts) [.seek [3], .next]
      = .error (.corrupt "SSTableIterator: Corrupted num_restarts") := rfl
  exact ⟨hcalls, (calls_bounded (BlockCache.empty tooManyRestarts) _).1 _ hcalls⟩

end SSTableIterator

import ForgeLSM.KVStore
import ForgeLSM.Util.Decimal

/-!
# The order of the segments

The write-ahead log is a row of files, one for each memtable, named by a number
that only grows. `recover` replays them in the order of their paths, and a later
entry for a key replaces an earlier one.

Names are padded to six digits. Of ids with as many digits the order of the names
is that of the ids, and past the width a longer name is compared by its first
digits: `wal_1000000.log` comes before `wal_999999.log`. `inOrder_iff_namesOrdered`
says for which sets of ids the segments are replayed in their order – and then the
entry of the segment with the highest id is the one that stays.
-/

namespace KVStore

/-- **The names of the ids sort as the ids do**: of two ids the lower is not above
what the first digits of the higher make, as many as the lower is written with. -/
def NamesOrdered (ids : List ℕ) : Prop :=
  ∀ a ∈ ids, ∀ b ∈ ids, a < b → a ≤ b / 10 ^ (padWidth 6 b - padWidth 6 a)

theorem walName_injective : Function.Injective walName := by
  intro a b h
  unfold walName at h
  rw [List.append_cancel_right_eq, List.append_cancel_left_eq] at h
  exact padDecimal_injective 6 h

theorem walName_lt_iff {a b : ℕ} (h : a < b) :
    walName a < walName b ↔ a ≤ b / 10 ^ (padWidth 6 b - padWidth 6 a) := by
  rw [← padDecimal_lt_iff (w := 6) h (show (46 : Byte).val < 48 by decide) [108, 111, 103]]
  simp only [walName, List.cons_append, List.nil_append, List.cons_lt_cons_iff,
    lt_irrefl, false_or, true_and]

/-- Ids of at most six digits are written with six. -/
theorem namesOrdered_of_lt {ids : List ℕ} (h : ∀ id ∈ ids, id < 10 ^ 6) : NamesOrdered ids := by
  intro a ha b hb hab
  rw [padWidth, padWidth, if_pos (h a ha), if_pos (h b hb), Nat.sub_self, pow_zero, Nat.div_one]
  exact hab.le

/-- **When the segments are replayed in the order of their ids.** -/
theorem walOrder_eq_keys_iff (env : Env) (w : Wal) :
    walOrder env w = w.segments.keys ↔ NamesOrdered w.segments.keys := by
  have hweak : StrictWeak (fun a b => decide (walName a < walName b)) :=
    strictWeak_of_key walName (fun a b => decide_eq_true_iff)
  constructor
  · intro horder a ha b hb hab
    have hsorted := env.stdSort.sorted hweak w.segments.keys
    rw [← walOrder, horder] at hsorted
    -- no id comes behind one whose name is greater
    have hle : ¬ walName b < walName a := by
      rcases pairwise_or_of_ne (w.segments.keys_sorted.and hsorted) ha hb hab.ne with h | h
      · exact of_decide_eq_false h.2
      · exact absurd h.1 (lt_asymm hab)
    rw [← walName_lt_iff hab]
    refine lt_of_le_of_ne (not_lt.mp hle) (fun heq => hab.ne ?_)
    exact walName_injective heq
  · intro hnames
    refine env.stdSort.sort_eq hweak (List.Perm.refl _) ?_
    refine w.segments.keys_sorted.imp_of_mem (fun {a b} ha hb hab => ?_)
    exact decide_eq_true ((walName_lt_iff hab).mpr (hnames a ha b hb hab))

/-- The segments are replayed in the order of their ids while these have at most
six digits. -/
theorem walOrder_eq (env : Env) {w : Wal} (h : ∀ id ∈ w.segments.keys, id < 10 ^ 6) :
    walOrder env w = w.segments.keys :=
  (walOrder_eq_keys_iff env w).mpr (namesOrdered_of_lt h)

/-- **The record of a key that should stay**: in the segment with the highest id
that has one, the last. -/
def newestRecord (w : Wal) (k : Key) : Option WalRecord :=
  w.segments.keys.reverse.findSome? (fun id =>
    (replay ((w.segments.get id).getD [])).reverse.find? (fun r => decide (r.key = k)))

/-- Segments in the order of their ids leave for each key the record that should
stay. -/
theorem find?_replayed {env : Env} {w : Wal} (h : walOrder env w = w.segments.keys) (k : Key) :
    (replayed env w).reverse.find? (fun r => decide (r.key = k)) = newestRecord w k := by
  unfold replayed newestRecord
  rw [h]
  induction w.segments.keys using List.reverseRecOn with
  | nil => rfl
  | append_singleton ids id ih =>
    rw [List.flatMap_append, List.reverse_append, List.flatMap_singleton, List.find?_append, ih,
      List.reverse_append, List.reverse_singleton, List.singleton_append, List.findSome?_cons]
    cases (replay ((w.segments.get id).getD [])).reverse.find? (fun r => decide (r.key = k)) <;> rfl

/-- **When the segments are replayed in age order**: exactly when the names of
their ids sort as the ids do. They are then applied in the order of their ids,
and the entry that a recovery has for a key is that of the segment with the
highest id. -/
theorem inOrder_iff_namesOrdered (env : Env) (s : KVStore) :
    (walOrder env s.wal = s.wal.segments.keys
        ∧ ∀ k, (recover env s).active.get k = (newestRecord s.wal k).map replayCell)
      ↔ NamesOrdered s.wal.segments.keys := by
  rw [← walOrder_eq_keys_iff env]
  refine ⟨And.left, fun h => ⟨h, fun k => ?_⟩⟩
  show ((replayed env s.wal).foldl (fun m r => m.insert r.key (replayCell r))
    (.empty : Memtable)).get k = _
  rw [OrdMap.get_foldl_insert WalRecord.key replayCell _ (fun r => decide_eq_true_iff),
    find?_replayed h]

/-- What is left on disk when a key was written in the segment 999999 and again in
the one that follows it. -/
def sevenDigits : KVStore where
  wal :=
    { segments := (OrdMap.empty.insert 999999 [⟨[97], some ⟨1, 9, 1⟩, 1⟩]).insert 1000000
        [⟨[97], some ⟨1, 19, 1⟩, 2⟩]
      current := 1000000 }

/-- The older entry is the one that stays. -/
theorem olderSegment_wins :
    walOrder Env.small sevenDigits.wal = [1000000, 999999]
      ∧ (recover Env.small sevenDigits).active.get [97] = some ⟨⟨1, 9, 1⟩, 1⟩
      ∧ newestRecord sevenDigits.wal [97] = some ⟨[97], some ⟨1, 19, 1⟩, 2⟩ := by
  decide +kernel

end KVStore

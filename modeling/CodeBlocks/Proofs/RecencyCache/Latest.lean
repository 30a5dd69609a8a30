import CodeBlocks.Proofs.RecencyCache.Recency

/-! # The latest keys — what a store of ratio one holds

    A store whose ratio is one gives up one entry at a time.  It then holds
    exactly the keys that were used last, as many as its limit allows
    (`HoldsLatest`): a use brings its key to the end, and pushes out the
    oldest key if there is no room.  So a key is found as long as fewer
    other keys than the limit were used after it
    (`HoldsLatest.mem_keys_iff`).

    All of it is about lists of last uses: `List.dedup` keeps the last use
    of every key, and `List.rtake` is the part of it that has room. -/

namespace CodeBlocks.RecencyCache

variable {κ α : Type}

/-! ## The end of a list of uses -/

section Uses

theorem rtake_of_length_le {keys : List κ} {n : Nat} (h : keys.length ≤ n) :
    keys.rtake n = keys := by
  rw [List.rtake, Nat.sub_eq_zero_of_le h, List.drop_zero]

theorem rtake_append_of_le (front : List κ) {back : List κ} {n : Nat} (h : n ≤ back.length) :
    (front ++ back).rtake n = back.rtake n := by
  rw [List.rtake, List.rtake, List.length_append, Nat.add_sub_assoc h, List.drop_length_add_append]

theorem rtake_append_of_ge (front : List κ) {back : List κ} {n : Nat} (h : back.length ≤ n) :
    (front ++ back).rtake n = front.rtake (n - back.length) ++ back := by
  rw [List.rtake, List.rtake, List.length_append, List.drop_append_of_le_length (by omega)]
  congr 2
  omega

variable [DecidableEq κ]

theorem length_le_filter_ne {keys : List κ} (hnodup : keys.Nodup) (key : κ) :
    keys.length ≤ (keys.filter (· ≠ key)).length + 1 := by
  have herase : keys.erase key = keys.filter (· ≠ key) := by
    rw [hnodup.erase_eq_filter]
    exact List.filter_congr fun other _ => by simp [bne, beq_eq_decide]
  rw [← herase, List.length_erase]
  split <;> omega

/-- The keys that have room after a use are found among those that had room before it. -/
theorem rtake_use {keys : List κ} (hnodup : keys.Nodup) (key : κ) (n : Nat) :
    ((keys.rtake n).filter (· ≠ key) ++ [key]).rtake n
      = (keys.filter (· ≠ key) ++ [key]).rtake n := by
  rcases Nat.le_total keys.length n with hfits | hlong
  · rw [rtake_of_length_le hfits]
  · -- at most one of the last `n` keys leaves its place, and `key` takes it
    obtain ⟨front, hfront⟩ : ∃ front, keys = front ++ keys.rtake n :=
      ⟨keys.take (keys.length - n), (List.take_append_drop ..).symm⟩
    have hlength : (keys.rtake n).length = n := by
      rw [List.rtake, List.length_drop]
      omega
    have hlast : (keys.rtake n).Nodup := hnodup.sublist (List.drop_sublist ..)
    have hroom := length_le_filter_ne hlast key
    rw [hlength] at hroom
    generalize keys.rtake n = last at hfront hroom
    rw [hfront, List.filter_append, List.append_assoc]
    refine (rtake_append_of_le _ ?_).symm
    rw [List.length_append]
    exact hroom

/-- A key has room as long as fewer other keys were used after it. -/
theorem mem_rtake_dedup_iff (earlier : List κ) {since : List κ} {key : κ} (h : key ∉ since)
    (n : Nat) : key ∈ (earlier ++ key :: since).dedup.rtake n ↔ since.dedup.length < n := by
  obtain ⟨front, hfront⟩ :
      ∃ front, (earlier ++ key :: since).dedup = front ++ key :: since.dedup := by
    rw [List.dedup_append, List.dedup_cons_of_notMem h]
    obtain ⟨front, hfront⟩ := List.suffix_union_right earlier (key :: since.dedup)
    exact ⟨front, hfront.symm⟩
  rcases Nat.lt_or_ge since.dedup.length n with hlt | hge
  · refine iff_of_true ?_ hlt
    rw [hfront, rtake_append_of_ge front (show (key :: since.dedup).length ≤ n from hlt)]
    exact List.mem_append_right _ List.mem_cons_self
  · refine iff_of_false ?_ (Nat.not_lt_of_le hge)
    rw [hfront, List.append_cons, rtake_append_of_le _ hge]
    intro hmem
    exact h (List.mem_dedup.mp (List.mem_of_mem_drop hmem))

end Uses

/-! ## Stores of ratio one -/

/-- A store that gives up one entry at a time, with a limit that is a double. -/
structure Stepwise (c : RecencyCache κ α) : Prop where
  ratio : c.ratio = Binary64.one
  limit : c.limit ≤ Binary64.powerOfTwo 53

theorem Stepwise.keepCount_eq {c : RecencyCache κ α} (h : c.Stepwise) : c.keepCount = c.limit := by
  rw [keepCount, h.ratio, Binary64.roundToNat_mul_one h.limit]

variable [DecidableEq κ] {c : RecencyCache κ α} {used : List κ}

/-- The keys are those used last, as many as there is room for. -/
def HoldsLatest (c : RecencyCache κ α) (used : List κ) : Prop :=
  c.keys = used.dedup.rtake c.limit

namespace HoldsLatest

theorem rtake_keysUsing (h : c.HoldsLatest used) (key : κ) :
    (c.keysUsing key).rtake c.limit = (used ++ [key]).dedup.rtake c.limit := by
  rw [keysUsing, show c.keys = used.dedup.rtake c.limit from h, rtake_use used.nodup_dedup,
    dedup_concat]

/-- Setting a key is a use of it. -/
theorem set (h : c.HoldsLatest used) (hstep : c.Stepwise) (key : κ) (value : α) :
    (c.set key value).HoldsLatest (used ++ [key]) := by
  rw [HoldsLatest, limit_set, ← h.rtake_keysUsing, keys_set, hstep.keepCount_eq]
  split
  · rfl
  · next hfits => exact (rtake_of_length_le (Nat.le_of_not_lt hfits)).symm

/-- So is finding it. -/
theorem get? (h : c.HoldsLatest used) {key : κ} (hkey : key ∈ c.keys) :
    (c.get? key).2.HoldsLatest (used ++ [key]) := by
  have hsize : c.keys.length ≤ c.limit := by
    rw [show c.keys = used.dedup.rtake c.limit from h, List.rtake, List.length_drop]
    omega
  have hkeys : (c.get? key).2.keys = c.keysUsing key := by
    rw [keys_get?, if_pos (contains_iff.mpr hkey)]
  have hfits : (c.keysUsing key).length ≤ c.limit := by
    rw [← hkeys, length_keys]
    exact (size_get? c key).trans ((length_keys c).symm.trans_le hsize)
  rw [HoldsLatest, limit_get?, ← h.rtake_keysUsing, hkeys, rtake_of_length_le hfits]

/-- **A key is there as long as fewer other keys than the limit were used after it.** -/
theorem mem_keys_iff {earlier since : List κ} {key : κ}
    (h : c.HoldsLatest (earlier ++ key :: since)) (hkey : key ∉ since) :
    key ∈ c.keys ↔ since.dedup.length < c.limit := by
  rw [show c.keys = (earlier ++ key :: since).dedup.rtake c.limit from h]
  exact mem_rtake_dedup_iff earlier hkey c.limit

end HoldsLatest

end CodeBlocks.RecencyCache

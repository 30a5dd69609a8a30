import CodeBlocks.RecencyCache

/-! # Entries of a store — where they come from

    No operation makes an entry up: looking a key up moves an entry,
    shrinking drops entries, and `set` brings in one entry, its own. -/

namespace CodeBlocks.RecencyCache

variable {κ α : Type} [DecidableEq κ] {c : RecencyCache κ α} {key : κ} {value : α}
variable {entry : κ × α}

/-- A key with a value has an entry. -/
theorem mem_entries_of_peek? (h : c.peek? key = some value) : (key, value) ∈ c.entries := by
  obtain ⟨⟨k, v⟩, hfind, rfl⟩ := Option.map_eq_some_iff.mp h
  have hk : k = key := by simpa using List.find?_some hfind
  rw [← hk]
  exact List.mem_of_find?_eq_some hfind

theorem mem_entries_of_mem_others (h : entry ∈ c.others key) : entry ∈ c.entries :=
  (List.mem_filter.mp h).1

theorem get?_fst (c : RecencyCache κ α) (key : κ) : (c.get? key).1 = c.peek? key := by
  rw [get?]
  split
  · next value hvalue => exact hvalue.symm
  · next hnone => exact hnone.symm

/-- Looking a key up brings in no entry. -/
theorem mem_entries_of_mem_get? (h : entry ∈ (c.get? key).2.entries) : entry ∈ c.entries := by
  rw [get?] at h
  split at h
  · next value hvalue =>
      rcases List.mem_append.mp h with hother | hmoved
      · exact mem_entries_of_mem_others hother
      · rw [List.mem_singleton.mp hmoved]
        exact mem_entries_of_peek? hvalue
  · exact h

omit [DecidableEq κ] in
/-- Shrinking brings in no entry. -/
theorem mem_entries_of_mem_trim (h : entry ∈ c.trim.entries) : entry ∈ c.entries := by
  rw [trim] at h
  split at h
  · exact List.mem_of_mem_drop h
  · exact h

/-- Setting a key brings in the one entry that was set. -/
theorem mem_entries_of_mem_set (h : entry ∈ (c.set key value).entries) :
    entry ∈ c.entries ∨ entry = (key, value) := by
  rcases List.mem_append.mp (mem_entries_of_mem_trim h) with hother | hset
  · exact Or.inl (mem_entries_of_mem_others hother)
  · exact Or.inr (List.mem_singleton.mp hset)

end CodeBlocks.RecencyCache

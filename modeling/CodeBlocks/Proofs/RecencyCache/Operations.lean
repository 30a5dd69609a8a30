import CodeBlocks.Proofs.Number.Rounding
import CodeBlocks.Proofs.RecencyCache.Entries
import Mathlib.Data.List.DropRight

/-! # Operations on a store — what becomes of the keys

    * The lemmas `keys_get?`, `keys_set`, … say of each operation which
      keys there are after it, and in which order.
    * `limit_apply` and `ratio_apply` say of all of them what the settings
      are after it: those it gives, or those there were.
    * `keys_apply_sublist` is what the operations have in common: a key
      that is used goes to the end, and nothing else comes in or moves.
    * `Bounded` is kept by every operation: the ratio is at most one, and
      a store whose limit is a double does not hold more than it. -/

namespace CodeBlocks.RecencyCache

/-- All that can be asked of a store. -/
inductive Operation (κ α : Type) where
  | get (key : κ)
  | peek (key : κ)
  | contains (key : κ)
  | set (key : κ) (value : α)
  | remove (key : κ)
  | delete (key : κ)
  | clear
  | setLimit (limit : Nat)
  | setRatio (ratio : Binary64)

variable {κ α : Type}

section Apply

variable [DecidableEq κ]

/-- The store after an operation. -/
def apply (c : RecencyCache κ α) : Operation κ α → RecencyCache κ α
  | .get key        => (c.get? key).2
  | .peek _         => c
  | .contains _     => c
  | .set key value  => c.set key value
  | .remove key     => (c.remove key).2
  | .delete key     => (c.delete key).2
  | .clear          => c.clear
  | .setLimit limit => c.setLimit limit
  | .setRatio ratio => c.setRatio ratio

/-- The store after a list of operations. -/
def applyAll (c : RecencyCache κ α) (operations : List (Operation κ α)) : RecencyCache κ α :=
  operations.foldl apply c

/-- The key that an operation uses: the one it sets, or looks up and finds. -/
def use? (c : RecencyCache κ α) : Operation κ α → Option κ
  | .set key _ => some key
  | .get key   => if c.contains key then some key else none
  | _          => none

/-- The keys with one of them, or a new one, as the latest used. -/
def keysUsing (c : RecencyCache κ α) (key : κ) : List κ := c.keys.filter (· ≠ key) ++ [key]

end Apply

/-- The limit that an operation gives. -/
def Operation.limit? : Operation κ α → Option Nat
  | .setLimit limit => some limit
  | _               => none

/-- The ratio that an operation gives, brought into the unit interval. -/
def Operation.ratio? : Operation κ α → Option Binary64
  | .setRatio ratio => some ratio.clampUnit
  | _               => none

/-! ## The keys after an operation -/

theorem length_keys (c : RecencyCache κ α) : c.keys.length = c.size := List.length_map ..

theorem keys_keepLatest (c : RecencyCache κ α) (n : Nat) : (c.keepLatest n).keys = c.keys.rtake n := by
  rw [keys, keepLatest, List.rtake, List.map_drop, length_keys]
  rfl

theorem keys_trim (c : RecencyCache κ α) :
    c.trim.keys = if c.limit < c.size then c.keys.rtake c.keepCount else c.keys := by
  rw [trim]
  split
  · exact keys_keepLatest c _
  · rfl

theorem keys_trim_sublist (c : RecencyCache κ α) : c.trim.keys.Sublist c.keys := by
  rw [keys_trim]
  split
  · exact List.drop_sublist ..
  · exact List.Sublist.refl _

theorem keepLatest_eq (c : RecencyCache κ α) (n : Nat) :
    c.keepLatest n = { c with entries := (c.keepLatest n).entries } := rfl

/-- Shrinking changes nothing but the entries. -/
theorem trim_eq (c : RecencyCache κ α) : c.trim = { c with entries := c.trim.entries } := by
  rw [trim]
  split
  · -- by name, since here `rfl` would compute the numbers of `keepCount`
    exact keepLatest_eq c _
  · rfl

theorem limit_trim (c : RecencyCache κ α) : c.trim.limit = c.limit := by rw [trim_eq]

theorem ratio_trim (c : RecencyCache κ α) : c.trim.ratio = c.ratio := by rw [trim_eq]

theorem keys_setLimit (c : RecencyCache κ α) (limit : Nat) :
    (c.setLimit limit).keys
      = if limit < c.size then c.keys.rtake ((Binary64.ofNat limit).mul c.ratio).roundToNat
        else c.keys := by
  rw [setLimit, keys_trim, keepCount]
  rfl

theorem keys_setRatio (c : RecencyCache κ α) (ratio : Binary64) :
    (c.setRatio ratio).keys
      = if c.limit < c.size then
          c.keys.rtake ((Binary64.ofNat c.limit).mul ratio.clampUnit).roundToNat
        else c.keys := by
  rw [setRatio, keys_trim, keepCount]
  rfl

section Keys

variable [DecidableEq κ]

theorem contains_iff {c : RecencyCache κ α} {key : κ} : c.contains key = true ↔ key ∈ c.keys := by
  rw [contains, peek?, Option.isSome_map, List.find?_isSome, keys, List.mem_map]
  constructor
  · rintro ⟨entry, hentry, hkey⟩
    exact ⟨entry, hentry, of_decide_eq_true hkey⟩
  · rintro ⟨entry, hentry, hkey⟩
    exact ⟨entry, hentry, decide_eq_true hkey⟩

theorem keys_others (c : RecencyCache κ α) (key : κ) :
    (c.others key).map Prod.fst = c.keys.filter (· ≠ key) := by
  rw [keys, List.filter_map]
  rfl

theorem keys_use (c : RecencyCache κ α) (key : κ) (value : α) :
    keys { c with entries := c.others key ++ [(key, value)] } = c.keysUsing key := by
  rw [keys, List.map_append, keys_others]
  rfl

theorem keys_get? (c : RecencyCache κ α) (key : κ) :
    (c.get? key).2.keys = if c.contains key then c.keysUsing key else c.keys := by
  rw [get?, contains]
  cases c.peek? key with
  | some value => exact keys_use c key value
  | none => rfl

/-- **Setting a key makes it the latest; a store that has outgrown its limit keeps its latest.** -/
theorem keys_set (c : RecencyCache κ α) (key : κ) (value : α) :
    (c.set key value).keys
      = if c.limit < (c.keysUsing key).length then (c.keysUsing key).rtake c.keepCount
        else c.keysUsing key := by
  rw [set, keys_trim, ← length_keys, keys_use]
  rfl

theorem keys_remove (c : RecencyCache κ α) (key : κ) :
    (c.remove key).2.keys = c.keys.filter (· ≠ key) :=
  keys_others c key

/-- **A key that is used goes to the end; no other key comes in, and none changes its place.** -/
theorem keys_apply_sublist (c : RecencyCache κ α) (operation : Operation κ α) :
    (c.apply operation).keys.Sublist (((c.use? operation).map c.keysUsing).getD c.keys) := by
  cases operation with
  | get key =>
      rw [apply, keys_get?, use?]
      split
      · exact List.Sublist.refl _
      · exact List.Sublist.refl _
  | set key value =>
      refine (keys_trim_sublist _).trans ?_
      rw [keys_use]
      exact List.Sublist.refl _
  | remove key => exact keys_remove c key ▸ List.filter_sublist
  | delete key => exact keys_remove c key ▸ List.filter_sublist
  | peek key => exact List.Sublist.refl _
  | contains key => exact List.Sublist.refl _
  | clear => exact List.nil_sublist _
  | setLimit limit => exact keys_trim_sublist _
  | setRatio ratio => exact keys_trim_sublist _

theorem size_get? (c : RecencyCache κ α) (key : κ) : (c.get? key).2.size ≤ c.size := by
  rw [← length_keys, ← length_keys, keys_get?]
  split
  · next hcontains =>
      have hlt : (c.keys.filter (· ≠ key)).length < c.keys.length :=
        List.length_filter_lt_length_iff_exists.mpr ⟨key, contains_iff.mp hcontains, by simp⟩
      rw [keysUsing, List.length_append]
      exact hlt
  · exact Nat.le_refl _

end Keys

/-! ## The settings after an operation -/

section Settings

variable [DecidableEq κ]

theorem limit_get? (c : RecencyCache κ α) (key : κ) : (c.get? key).2.limit = c.limit := by
  rw [get?]
  split <;> rfl

theorem ratio_get? (c : RecencyCache κ α) (key : κ) : (c.get? key).2.ratio = c.ratio := by
  rw [get?]
  split <;> rfl

theorem limit_set (c : RecencyCache κ α) (key : κ) (value : α) :
    (c.set key value).limit = c.limit := limit_trim _

theorem ratio_set (c : RecencyCache κ α) (key : κ) (value : α) :
    (c.set key value).ratio = c.ratio := ratio_trim _

/-- **The limit is the one that the operation gives, or stays as it is.** -/
theorem limit_apply (c : RecencyCache κ α) (operation : Operation κ α) :
    (c.apply operation).limit = operation.limit?.getD c.limit := by
  cases operation with
  | get key => exact limit_get? c key
  | set key value => exact limit_set c key value
  | setLimit limit => exact limit_trim _
  | setRatio ratio => exact limit_trim _
  | peek key | contains key | remove key | delete key | clear => rfl

/-- **So is the ratio.** -/
theorem ratio_apply (c : RecencyCache κ α) (operation : Operation κ α) :
    (c.apply operation).ratio = operation.ratio?.getD c.ratio := by
  cases operation with
  | get key => exact ratio_get? c key
  | set key value => exact ratio_set c key value
  | setLimit limit => exact ratio_trim _
  | setRatio ratio => exact ratio_trim _
  | peek key | contains key | remove key | delete key | clear => rfl

end Settings

/-! ## The bound on the size -/

/-- The ratio is at most one, and a store whose limit is a double does not hold more than it.  A
    limit that is no double may be rounded up, and then so is what a store keeps. -/
structure Bounded (c : RecencyCache κ α) : Prop where
  ratio : c.ratio.units ≤ Binary64.unitsOfOne
  size : c.limit ≤ Binary64.powerOfTwo 53 → c.size ≤ c.limit

theorem bounded_empty (limit : Nat) (ratio : Binary64) :
    Bounded (empty limit ratio : RecencyCache κ α) where
  ratio := ratio.units_clampUnit_le
  size _ := Nat.zero_le limit

theorem bounded_trim {c : RecencyCache κ α} (hratio : c.ratio.units ≤ Binary64.unitsOfOne) :
    c.trim.Bounded where
  ratio := ratio_trim c ▸ hratio
  size hlimit := by
    rw [limit_trim] at hlimit ⊢
    rw [← length_keys, keys_trim]
    split
    · have hkeep : c.keepCount ≤ c.limit := Binary64.roundToNat_mul_le hlimit hratio
      rw [List.rtake, List.length_drop]
      omega
    · next hfits =>
        rw [length_keys]
        exact Nat.le_of_not_lt hfits

theorem Bounded.of_size_le {c c' : RecencyCache κ α} (h : c.Bounded) (hlimit : c'.limit = c.limit)
    (hratio : c'.ratio = c.ratio) (hsize : c'.size ≤ c.size) : c'.Bounded where
  ratio := hratio ▸ h.ratio
  size hdouble := by
    rw [hlimit] at hdouble ⊢
    exact hsize.trans (h.size hdouble)

variable [DecidableEq κ]

/-- **Every operation leaves the store bounded.** -/
theorem Bounded.apply {c : RecencyCache κ α} (h : c.Bounded) (operation : Operation κ α) :
    (c.apply operation).Bounded := by
  cases operation with
  | get key => exact h.of_size_le (limit_get? c key) (ratio_get? c key) (size_get? c key)
  | peek key => exact h
  | contains key => exact h
  | set key value => exact bounded_trim h.ratio
  | remove key => exact h.of_size_le rfl rfl (List.length_filter_le ..)
  | delete key => exact h.of_size_le rfl rfl (List.length_filter_le ..)
  | clear => exact h.of_size_le rfl rfl (Nat.zero_le _)
  | setLimit limit => exact bounded_trim h.ratio
  | setRatio ratio => exact bounded_trim ratio.units_clampUnit_le

theorem Bounded.applyAll {c : RecencyCache κ α} (h : c.Bounded)
    (operations : List (Operation κ α)) : (c.applyAll operations).Bounded := by
  induction operations generalizing c with
  | nil => exact h
  | cons operation operations ih => exact ih (h.apply operation)

end CodeBlocks.RecencyCache

import CodeBlocks.Proofs.RecencyCache.Operations
import Mathlib.Data.List.Dedup

/-! # Recency — the least recently used goes first

    The uses of keys along a run are in the order of time, and a key's
    last use is what `List.dedup` keeps of it.  `Remembers` ties a store
    to the operations it has seen: its keys stand in the order of their
    last uses, and every value is the one that was set last.  All
    operations keep it, so it holds after every run that begins with an
    empty store.

    A store that has outgrown its limit keeps the limit times the ratio,
    rounded, of its latest keys: the limit and the ratio that were given
    last (`latest?`).  Keys are lost this way, or by taking them out
    (`Loses`).  A new ratio takes none away where the limit is a double;
    beyond 2^53 the limit may have been rounded up, and then so was what
    the store kept (`Bounded.loses_by_ratio_iff`). -/

namespace CodeBlocks

namespace RecencyCache

variable {κ α : Type} [DecidableEq κ]

/-- The keys used along a list of operations, in the order of time. -/
def uses (c : RecencyCache κ α) : List (Operation κ α) → List κ
  | [] => []
  | operation :: operations => (c.use? operation).toList ++ (c.apply operation).uses operations

/-- The value that an operation sets a key to. -/
def Operation.valueOf? (key : κ) : Operation κ α → Option α
  | .set k value => if k = key then some value else none
  | _            => none

/-- What was given by the latest of the operations that give something. -/
def latest? {β : Type} (given? : Operation κ α → Option β) (operations : List (Operation κ α)) :
    Option β :=
  operations.reverse.findSome? given?

/-- The value of the latest operation that sets a key. -/
def latestSet? (operations : List (Operation κ α)) (key : κ) : Option α :=
  latest? (Operation.valueOf? key) operations

/-- What it takes for a store to lose a key that is present.  Removing the key and clearing the
    store do it.  Setting a key and setting the limit do it if they leave more keys than the limit
    and this one is not among the latest, as many as the limit times the ratio is. -/
def Loses (c : RecencyCache κ α) (key : κ) : Operation κ α → Prop
  | .get _ | .peek _ | .contains _ | .setRatio _ => False
  | .remove k | .delete k => k = key
  | .clear => True
  | .set k _ =>
      c.limit < (c.keysUsing k).length ∧
        key ∉ (c.keysUsing k).rtake ((Binary64.ofNat c.limit).mul c.ratio).roundToNat
  | .setLimit limit =>
      limit < c.size ∧ key ∉ c.keys.rtake ((Binary64.ofNat limit).mul c.ratio).roundToNat

/-! ## Lists of uses -/

section Uses

theorem dedup_concat (used : List κ) (key : κ) :
    (used ++ [key]).dedup = used.dedup.filter (· ≠ key) ++ [key] := by
  induction used with
  | nil => rfl
  | cons first used ih =>
      rw [List.cons_append, List.dedup_cons, List.dedup_cons, ih]
      by_cases hkey : first = key
      · -- an earlier use of the key counts for nothing, on either side
        subst hkey
        by_cases hmem : first ∈ used <;> simp [hmem]
      · by_cases hmem : first ∈ used <;> simp [hmem, hkey]

/-- A part of a list without duplicates is picked out by its members. -/
theorem eq_filter_of_sublist {part whole : List κ} (h : part.Sublist whole)
    (hnodup : whole.Nodup) : part = whole.filter (· ∈ part) := by
  induction h with
  | slnil => rfl
  | @cons part whole key h ih =>
      obtain ⟨hkey, hnodup⟩ := List.nodup_cons.mp hnodup
      have hnot : key ∉ part := fun hmem => hkey (h.subset hmem)
      rw [List.filter_cons_of_neg (by simpa using hnot)]
      exact ih hnodup
  | @cons_cons part whole key h ih =>
      obtain ⟨hkey, hnodup⟩ := List.nodup_cons.mp hnodup
      rw [List.filter_cons_of_pos (by simp)]
      -- on what follows it makes no difference that `key` is picked too
      refine congrArg (key :: ·) ((ih hnodup).trans (List.filter_congr fun other hother => ?_))
      have hne : other ≠ key := fun heq => hkey (heq ▸ hother)
      simp [hne]

end Uses

/-! ## What was given last -/

omit [DecidableEq κ] in
theorem latest?_concat {β : Type} (given? : Operation κ α → Option β)
    (operations : List (Operation κ α)) (operation : Operation κ α) :
    latest? given? (operations ++ [operation]) = (given? operation).or (latest? given? operations) := by
  rw [latest?, List.reverse_append, List.reverse_singleton, List.singleton_append,
    List.findSome?_cons]
  cases given? operation <;> rfl

/-- **A setting that every operation gives or leaves is the one that was given last.** -/
theorem setting_applyAll {β : Type} {setting : RecencyCache κ α → β}
    {given? : Operation κ α → Option β}
    (hstep : ∀ c operation, setting (c.apply operation) = (given? operation).getD (setting c))
    (start : RecencyCache κ α) (operations : List (Operation κ α)) :
    setting (start.applyAll operations) = (latest? given? operations).getD (setting start) := by
  induction operations using List.reverseRecOn with
  | nil => rfl
  | append_singleton operations operation ih =>
      rw [applyAll, List.foldl_concat, hstep, latest?_concat]
      cases given? operation with
      | some given => rfl
      | none => exact ih

/-! ## What a store remembers -/

/-- The keys of a store stand in the order of their last uses, with the values set last. -/
structure Remembers (c : RecencyCache κ α) (operations : List (Operation κ α)) (used : List κ) :
    Prop where
  order : c.keys.Sublist used.dedup
  values : ∀ entry ∈ c.entries, latestSet? operations entry.1 = some entry.2

theorem remembers_empty (limit : Nat) (ratio : Binary64) :
    (empty limit ratio : RecencyCache κ α).Remembers [] [] where
  order := List.Sublist.refl []
  values _ hentry := nomatch hentry

section Step

variable {c : RecencyCache κ α} {operations : List (Operation κ α)} {used : List κ}

/-- Every entry was there before and is not set, or is the one that is set. -/
theorem valueOf?_of_mem_apply {operation : Operation κ α} {entry : κ × α}
    (h : entry ∈ (c.apply operation).entries) :
    operation.valueOf? entry.1 = some entry.2 ∨
      operation.valueOf? entry.1 = none ∧ entry ∈ c.entries := by
  cases operation with
  | set key value =>
      rcases List.mem_append.mp (mem_entries_of_mem_trim h) with hother | hset
      · obtain ⟨hentry, hne⟩ := List.mem_filter.mp hother
        exact .inr ⟨if_neg (Ne.symm (of_decide_eq_true hne)), hentry⟩
      · rw [List.mem_singleton.mp hset]
        exact .inl (if_pos rfl)
  | get key => exact .inr ⟨rfl, mem_entries_of_mem_get? h⟩
  | peek key => exact .inr ⟨rfl, h⟩
  | contains key => exact .inr ⟨rfl, h⟩
  | remove key => exact .inr ⟨rfl, mem_entries_of_mem_others h⟩
  | delete key => exact .inr ⟨rfl, mem_entries_of_mem_others h⟩
  | clear => cases h
  | setLimit limit => exact .inr ⟨rfl, mem_entries_of_mem_trim (c := { c with limit }) h⟩
  | setRatio ratio =>
      exact .inr ⟨rfl, mem_entries_of_mem_trim (c := { c with ratio := ratio.clampUnit }) h⟩

/-- **Every operation is remembered.** -/
theorem Remembers.apply (h : c.Remembers operations used) (operation : Operation κ α) :
    (c.apply operation).Remembers (operations ++ [operation])
      (used ++ (c.use? operation).toList) where
  order := by
    refine (keys_apply_sublist c operation).trans ?_
    cases c.use? operation with
    | none =>
        rw [Option.toList_none, List.append_nil]
        exact h.order
    | some key =>
        -- the used key leaves its place and goes to the end, in the store and in the history
        rw [Option.toList_some, dedup_concat]
        exact (h.order.filter _).append_right [key]
  values entry hentry := by
    rw [latestSet?, latest?_concat]
    rcases valueOf?_of_mem_apply hentry with hset | ⟨hnone, hbefore⟩
    · rw [hset, Option.some_or]
    · rw [hnone, Option.none_or]
      exact h.values entry hbefore

theorem Remembers.applyAll (h : c.Remembers operations used) (later : List (Operation κ α)) :
    (c.applyAll later).Remembers (operations ++ later) (used ++ c.uses later) := by
  induction later generalizing c operations used with
  | nil =>
      rw [uses, List.append_nil, List.append_nil]
      exact h
  | cons operation later ih =>
      have hlater := ih (h.apply operation)
      rw [List.append_assoc, List.append_assoc] at hlater
      exact hlater

theorem Remembers.keys_eq (h : c.Remembers operations used) :
    c.keys = used.dedup.filter c.contains := by
  refine (eq_filter_of_sublist h.order used.nodup_dedup).trans ?_
  refine List.filter_congr fun key _ => ?_
  exact Bool.eq_iff_iff.mpr (decide_eq_true_iff.trans contains_iff.symm)

theorem Remembers.peek?_eq (h : c.Remembers operations used) (key : κ) :
    c.peek? key = if key ∈ c.keys then latestSet? operations key else none := by
  split
  · next hmem =>
      obtain ⟨value, hvalue⟩ := Option.isSome_iff_exists.mp (contains_iff.mpr hmem)
      rw [hvalue]
      exact (h.values _ (mem_entries_of_peek? hvalue)).symm
  · next hnot =>
      exact Option.not_isSome_iff_eq_none.mp fun hsome => hnot (contains_iff.mp hsome)

end Step

/-! ## What a store loses -/

section Loss

variable {c : RecencyCache κ α} {key : κ}

theorem mem_keysUsing {other : κ} : key ∈ c.keysUsing other ↔ key ∈ c.keys ∨ key = other := by
  rw [keysUsing, List.mem_append, List.mem_filter, List.mem_singleton, decide_eq_true_iff]
  constructor
  · rintro (⟨hmem, -⟩ | heq)
    · exact .inl hmem
    · exact .inr heq
  · intro h
    by_cases heq : key = other
    · exact .inr heq
    · exact .inl ⟨h.resolve_right heq, heq⟩

theorem not_mem_others (hkey : key ∈ c.keys) {other : κ} :
    key ∉ c.keys.filter (· ≠ other) ↔ other = key := by
  rw [List.mem_filter, decide_eq_true_iff, and_iff_right hkey, not_not, eq_comm]

omit [DecidableEq κ] in
theorem not_mem_shrunk {keys : List κ} (hmem : key ∈ keys) {p : Prop} [Decidable p] (n : Nat) :
    (key ∉ if p then keys.rtake n else keys) ↔ p ∧ key ∉ keys.rtake n := by
  split
  · next hp => exact (and_iff_right hp).symm
  · next hp => exact iff_of_false (fun hnot => hnot hmem) fun h => hp h.1

/-- The key that was set stays, unless the store shrinks to nothing. -/
theorem mem_keys_set_self (c : RecencyCache κ α) (key : κ) (value : α) :
    key ∈ (c.set key value).keys
      ↔ (c.keysUsing key).length ≤ c.limit ∨
        1 ≤ ((Binary64.ofNat c.limit).mul c.ratio).roundToNat := by
  rw [keys_set, ← keepCount]
  split
  · next hgrown =>
      rw [or_iff_right (Nat.not_le_of_lt hgrown)]
      cases c.keepCount with
      | zero => simp
      | succ n => simp [keysUsing, List.rtake_concat_succ]
  · next hfits => exact iff_of_true (mem_keysUsing.mpr (.inr rfl)) (.inl (Nat.le_of_not_lt hfits))

omit [DecidableEq κ] in
/-- A bounded store holds more than its limit only if that is beyond the doubles, and there a new
    ratio takes keys away. -/
theorem Bounded.loses_by_ratio_iff (h : c.Bounded) (hkey : key ∈ c.keys) (ratio : Binary64) :
    key ∉ (c.setRatio ratio).keys ↔
      Binary64.powerOfTwo 53 < c.limit ∧ c.limit < c.size ∧
        key ∉ c.keys.rtake ((Binary64.ofNat c.limit).mul ratio.clampUnit).roundToNat := by
  rw [keys_setRatio, not_mem_shrunk hkey]
  refine (and_iff_right_of_imp fun hlost => ?_).symm
  exact Nat.lt_of_not_le fun hdouble => Nat.not_le_of_lt hlost.1 (h.size hdouble)

/-- **A bounded store loses a key by being told to, or by shrinking.** -/
theorem Bounded.loses_iff (h : c.Bounded) (hkey : key ∈ c.keys) {operation : Operation κ α}
    (hdouble : ∀ ratio, operation = .setRatio ratio → c.limit ≤ Binary64.powerOfTwo 53) :
    key ∉ (c.apply operation).keys ↔ c.Loses key operation := by
  cases operation with
  | get other =>
      rw [RecencyCache.apply, keys_get?]
      refine iff_of_false (fun hnot => hnot ?_) id
      split
      · exact mem_keysUsing.mpr (.inl hkey)
      · exact hkey
  | peek other => exact iff_of_false (fun hnot => hnot hkey) id
  | contains other => exact iff_of_false (fun hnot => hnot hkey) id
  | set other value =>
      rw [RecencyCache.apply, keys_set, keepCount]
      exact not_mem_shrunk (mem_keysUsing.mpr (.inl hkey)) _
  | remove other => exact keys_remove c other ▸ not_mem_others hkey
  | delete other => exact keys_remove c other ▸ not_mem_others hkey
  | clear => exact iff_of_true List.not_mem_nil trivial
  | setLimit limit =>
      rw [RecencyCache.apply, keys_setLimit]
      exact not_mem_shrunk hkey _
  | setRatio ratio =>
      refine iff_of_false (fun hnot => ?_) id
      exact Nat.not_lt_of_le (hdouble ratio rfl) ((h.loses_by_ratio_iff hkey ratio).mp hnot).1

end Loss

/-- **The store forgets the least recently used.**  After every run of operations on a new store,

    * its limit and its ratio are those that were given last, the ratio brought into the unit
      interval;
    * the keys that are present stand in the order of their last uses, and each has the value that
      it was last set to;
    * setting a key makes it the latest, and if this leaves more keys than the limit, those stay
      that were used last, as many as the limit times the ratio is when rounded: the one that was
      set as long as any does;
    * setting the limit leaves as many of the latest, counted with the new limit;
    * otherwise a key is lost only by removing it or by clearing the store (`Loses`).  This holds
      of a new ratio if the limit is at most 2^53. -/
theorem least_recently_used_goes_first (limit : Nat) (ratio : Binary64)
    (operations : List (Operation κ α)) :
    let start : RecencyCache κ α := empty limit ratio
    let c := start.applyAll operations
    (c.limit = (latest? Operation.limit? operations).getD limit ∧
      c.ratio = (latest? Operation.ratio? operations).getD ratio.clampUnit) ∧
    c.keys = (start.uses operations).dedup.filter c.contains ∧
    (∀ key, c.contains key = true ↔ key ∈ c.keys) ∧
    (∀ key, c.peek? key = if key ∈ c.keys then latestSet? operations key else none) ∧
    (∀ key value, (c.set key value).keys
      = if c.limit < (c.keysUsing key).length then
          (c.keysUsing key).rtake ((Binary64.ofNat c.limit).mul c.ratio).roundToNat
        else c.keysUsing key) ∧
    (∀ key value, key ∈ (c.set key value).keys
      ↔ (c.keysUsing key).length ≤ c.limit ∨
        1 ≤ ((Binary64.ofNat c.limit).mul c.ratio).roundToNat) ∧
    (∀ limit, (c.setLimit limit).keys
      = if limit < c.size then
          c.keys.rtake ((Binary64.ofNat limit).mul c.ratio).roundToNat
        else c.keys) ∧
    ∀ operation, (∀ ratio, operation = .setRatio ratio → c.limit ≤ Binary64.powerOfTwo 53) →
      ∀ key ∈ c.keys, key ∉ (c.apply operation).keys ↔ c.Loses key operation := by
  intro start c
  have hremembers : c.Remembers operations (start.uses operations) :=
    (remembers_empty limit ratio).applyAll operations
  have hbounded : c.Bounded := (bounded_empty limit ratio).applyAll operations
  refine ⟨⟨?_, ?_⟩, hremembers.keys_eq, fun _ => contains_iff, hremembers.peek?_eq, ?_⟩
  · exact setting_applyAll limit_apply start operations
  · exact setting_applyAll ratio_apply start operations
  · refine ⟨fun key value => ?_, mem_keys_set_self c, keys_setLimit c, ?_⟩
    · rw [keys_set, keepCount]
    · exact fun operation hdouble key hkey => hbounded.loses_iff hkey hdouble

/-- Three keys, of which the first is used once more.  With a ratio of a half a fourth key leaves
    room for two, and a limit of one for one. -/
theorem oldest_keys_go_first :
    let start : RecencyCache Nat Nat := empty 3 Binary64.nan
    let operations : List (Operation Nat Nat) :=
      [.setRatio Binary64.half, .set 0 7, .set 1 8, .set 2 9, .get 0, .get 5]
    let c := start.applyAll operations
    (c.limit = 3 ∧ c.ratio = Binary64.half) ∧
      start.uses operations = [0, 1, 2, 0] ∧ c.keys = [1, 2, 0] ∧
      c.peek? 0 = some 7 ∧ c.peek? 5 = none ∧
      (c.set 3 5).keys = [0, 3] ∧ (c.setLimit 1).keys = [0] ∧
      c.limit ≤ Binary64.powerOfTwo 53 ∧
      ∀ ratio, ∀ key ∈ c.keys, key ∈ (c.setRatio ratio).keys := by
  intro start operations c
  have huses : start.uses operations = [0, 1, 2, 0] := by decide +kernel
  have hkeys : c.keys = [1, 2, 0] := by decide +kernel
  obtain ⟨⟨hlimit, hratio⟩, -, -, hpeek, hset, -, hsetLimit, hloses⟩ :=
    least_recently_used_goes_first 3 Binary64.nan operations
  have hdouble : c.limit ≤ Binary64.powerOfTwo 53 := hlimit.trans_le (by decide)
  refine ⟨⟨hlimit, hratio.trans (by decide +kernel)⟩, huses, hkeys, (hpeek 0).trans (by decide +kernel),
    (hpeek 5).trans (by decide +kernel), (hset 3 5).trans (by decide +kernel),
    (hsetLimit 1).trans (by decide +kernel), hdouble, ?_⟩
  intro ratio key hkey
  exact not_not.mp fun hlost => (hloses (.setRatio ratio) (fun _ _ => hdouble) key hkey).mp hlost

end RecencyCache

end CodeBlocks

import CodeBlocks.Number.Layout

/-! # RecencyCache — a bounded store that forgets the least recent

    The entries are listed in the order of their last use, oldest first;
    `set` and a `get` that finds its key are uses.  When the store has
    grown past its limit it shrinks to `keepCount`, the limit times the
    ratio rounded to a whole number, and the oldest entries go.  A ratio
    of one gives up one entry at a time, a smaller one a batch. -/

namespace CodeBlocks

/-- A store of at most `limit` entries, oldest use first. -/
structure RecencyCache (κ α : Type) where
  entries : List (κ × α)
  limit : Nat
  ratio : Binary64

namespace RecencyCache

variable {κ α : Type} [DecidableEq κ]

/-- An empty store; the ratio is brought into the unit interval. -/
def empty (limit : Nat) (ratio : Binary64) : RecencyCache κ α :=
  ⟨[], limit, ratio.clampUnit⟩

/-- An empty store that gives up one entry at a time. -/
def withLimit (limit : Nat) : RecencyCache κ α := empty limit Binary64.one

/-- The number of entries. -/
def size (c : RecencyCache κ α) : Nat := c.entries.length

/-- The keys, oldest use first. -/
def keys (c : RecencyCache κ α) : List κ := c.entries.map Prod.fst

/-- The value of a key. -/
def peek? (c : RecencyCache κ α) (key : κ) : Option α :=
  (c.entries.find? fun entry => entry.1 = key).map Prod.snd

/-- Whether a key is present. -/
def contains (c : RecencyCache κ α) (key : κ) : Bool := (c.peek? key).isSome

/-- The entries of all other keys. -/
def others (c : RecencyCache κ α) (key : κ) : List (κ × α) :=
  c.entries.filter fun entry => entry.1 ≠ key

/-- Looks a key up and makes it the latest used. -/
def get? (c : RecencyCache κ α) (key : κ) : Option α × RecencyCache κ α :=
  match c.peek? key with
  | some value => (some value, { c with entries := c.others key ++ [(key, value)] })
  | none => (none, c)

/-- How many entries stay when the store has outgrown its limit. -/
def keepCount (c : RecencyCache κ α) : Nat :=
  ((Binary64.ofNat c.limit).mul c.ratio).roundToNat

/-- Keeps only the `n` entries used last. -/
def keepLatest (c : RecencyCache κ α) (n : Nat) : RecencyCache κ α :=
  { c with entries := c.entries.drop (c.entries.length - n) }

/-- Shrinks a store that has outgrown its limit. -/
def trim (c : RecencyCache κ α) : RecencyCache κ α :=
  if c.limit < c.size then c.keepLatest c.keepCount else c

/-- Puts a value in, as the latest used. -/
def set (c : RecencyCache κ α) (key : κ) (value : α) : RecencyCache κ α :=
  trim { c with entries := c.others key ++ [(key, value)] }

/-- Takes a key out and gives the value it had. -/
def remove (c : RecencyCache κ α) (key : κ) : Option α × RecencyCache κ α :=
  (c.peek? key, { c with entries := c.others key })

/-- Takes a key out and tells whether it was there. -/
def delete (c : RecencyCache κ α) (key : κ) : Bool × RecencyCache κ α :=
  ((c.remove key).1.isSome, (c.remove key).2)

/-- Takes all entries out. -/
def clear (c : RecencyCache κ α) : RecencyCache κ α := { c with entries := [] }

/-- Sets the limit and shrinks to it. -/
def setLimit (c : RecencyCache κ α) (limit : Nat) : RecencyCache κ α :=
  trim { c with limit }

/-- Sets the ratio, brought into the unit interval. -/
def setRatio (c : RecencyCache κ α) (ratio : Binary64) : RecencyCache κ α :=
  trim { c with ratio := ratio.clampUnit }

/-- A diagnostic text. -/
def describe (c : RecencyCache κ α) : String :=
  "RecencyCache \x7b len: " ++ toString c.size ++ ", limit: " ++ toString c.limit
    ++ ", ratio: " ++ Layout.fractional.write c.ratio ++ " \x7d"

end RecencyCache

end CodeBlocks

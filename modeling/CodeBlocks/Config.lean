import CodeBlocks.Number.Layout
import CodeBlocks.Toml.Reader

/-! # ParserConfig — settings of the parsers

    Settings have defaults, a preset for streamed text, and may come from
    a TOML document, where other keys do not matter.  `fault?` names the
    first setting out of range: capacity, then ratio, then minimum. -/

namespace CodeBlocks

/-- Settings of a parser. -/
structure ParserConfig where
  /-- How many parsed texts are kept. -/
  cacheCapacity : Nat
  /-- Which part of them stays when there are too many. -/
  cacheRatio : Binary64
  /-- How many blocks trimming never gives up. -/
  minBlockCount : Nat
deriving DecidableEq

/-- A setting out of range. -/
inductive ConfigFault where
  | capacity
  | ratio (value : Binary64)
  | minimum
deriving DecidableEq

namespace ConfigFault

/-- What is wrong, in words. -/
def message : ConfigFault → String
  | capacity => "cache_capacity must be > 0"
  | ratio value => "cache_ratio (" ++ Layout.plain.write value ++ ") must be within 0..=1"
  | minimum => "min_block_count must be > 0"

end ConfigFault

namespace ParserConfig

/-- The settings used when none are given. -/
def standard : ParserConfig := ⟨60, Binary64.one, 20⟩

/-- Few documents and short texts, trimmed again and again. -/
def streaming : ParserConfig := ⟨8, Binary64.half, 5⟩

/-- The first setting out of range. -/
def fault? (c : ParserConfig) : Option ConfigFault :=
  if c.cacheCapacity = 0 then some .capacity
  else if !c.cacheRatio.inUnitInterval then some (.ratio c.cacheRatio)
  else if c.minBlockCount = 0 then some .minimum
  else none

/-- A natural number under a key, if the key is there; none if it holds anything
    else. -/
def countAt? (members : Toml.Members) (key : String) (standard : Nat) : Option Nat :=
  match members.lookup key with
  | none => some standard
  | some (.integer n) => if 0 ≤ n then some n.toNat else none
  | some _ => none

/-- A number under a key, if the key is there; none if it holds anything else. -/
def ratioAt? (members : Toml.Members) (key : String) (standard : Binary64) : Option Binary64 :=
  match members.lookup key with
  | none => some standard
  | some (.integer n) => some (Binary64.ofInt n)
  | some (.float x) => some x
  | some _ => none

/-- The settings of a document, with defaults for missing keys. -/
def ofMembers? (members : Toml.Members) : Option ParserConfig := do
  return ⟨← countAt? members "cache_capacity" standard.cacheCapacity,
    ← ratioAt? members "cache_ratio" standard.cacheRatio,
    ← countAt? members "min_block_count" standard.minBlockCount⟩

/-- A diagnostic text. -/
def describe (c : ParserConfig) : String :=
  "ParserConfig \x7b cache_capacity: " ++ toString c.cacheCapacity ++ ", cache_ratio: "
    ++ Layout.fractional.write c.cacheRatio ++ ", min_block_count: "
    ++ toString c.minBlockCount ++ " \x7d"

end ParserConfig

end CodeBlocks

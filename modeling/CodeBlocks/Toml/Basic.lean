import CodeBlocks.Number.Binary64

/-! # Toml — values, and tables built up line by line

    A document is a table of named values.  A table can come into being
    in four ways, and its origin decides what may still be added to it:

    * a header of its own closes it to a second header and to dotted keys
      from outside;
    * a longer header implies it, and one header of its own may follow;
    * dotted keys make it, and further dotted keys may add to it;
    * an inline table is complete.

    `within?` goes down a path, making the tables that are missing, and
    changes the table at its end. -/

namespace CodeBlocks

/-- How a table came into being. -/
inductive Toml.Origin where
  | header
  | implied
  | dotted
  | inline
deriving DecidableEq

/-- A TOML value. -/
inductive Toml where
  | string (value : String)
  | integer (value : Int)
  | float (value : Binary64)
  | bool (value : Bool)
  | datetime (text : String)
  | array (elements : List Toml)
  | table (origin : Toml.Origin) (members : List (String × Toml))
  /-- One table for each header in double brackets. -/
  | tables (elements : List (List (String × Toml)))

namespace Toml

/-- The named values of a table. -/
abbrev Members := List (String × Toml)

/-- Gives a new value to a name that has one. -/
def replace (members : Members) (key : String) (value : Toml) : Members :=
  members.map fun entry => if entry.1 = key then (key, value) else entry

/-- Adds a name that has no value yet. -/
def addNew? (members : Members) (key : String) (value : Toml) : Option Members :=
  match members.lookup key with
  | some _ => none
  | none => some (members ++ [(key, value)])

/-- Changes the table at the end of a path, which starts in a table of the given
    origin.  Missing tables get the origin `made`; dotted keys do not enter a
    table that has a header, and nothing enters a plain value. -/
def within? (made : Origin) (change : Origin → Members → Option Members) :
    List String → Origin → Members → Option Members
  | [], origin, members => change origin members
  | key :: path, _, members =>
      match members.lookup key with
      | none => do
          let inner ← within? made change path made []
          return members ++ [(key, .table made inner)]
      | some (.table origin inner) =>
          if origin = .inline ∨ (made = .dotted ∧ origin = .header) then none
          else do
            let inner ← within? made change path origin inner
            return replace members key (.table origin inner)
      | some (.tables elements) => do
          let last ← elements.getLast?
          let inner ← within? made change path .header last
          return replace members key (.tables (elements.dropLast ++ [inner]))
      | some _ => none

/-- Opens the table of a header: a new one, or one that is only implied. -/
def openTable? (path : List String) (key : String) (root : Members) : Option Members :=
  let change := fun (_ : Origin) members =>
    match members.lookup key with
    | none => some (members ++ [(key, .table .header [])])
    | some (.table .implied inner) => some (replace members key (.table .header inner))
    | some _ => none
  within? .implied change path .header root

/-- Opens one more table of a header in double brackets. -/
def openElement? (path : List String) (key : String) (root : Members) : Option Members :=
  let change := fun (_ : Origin) members =>
    match members.lookup key with
    | none => some (members ++ [(key, .tables [[]])])
    | some (.tables elements) => some (replace members key (.tables (elements ++ [[]])))
    | some _ => none
  within? .implied change path .header root

/-- Gives a value to a dotted key in a table: a table entered by dots must have
    been made by dots. -/
def assign? (path : List String) (key : String) (value : Toml) (origin : Origin)
    (members : Members) : Option Members :=
  let change := fun (reached : Origin) inner =>
    if path.isEmpty ∨ reached = .dotted then addNew? inner key value else none
  within? .dotted change path origin members

/-- Gives a value to a dotted key in the table that is open at `header`. -/
def assignIn? (header : List String) (path : List String) (key : String) (value : Toml)
    (root : Members) : Option Members :=
  within? .implied (assign? path key value) header .header root

end Toml

end CodeBlocks

import CodeBlocks.CommandLine.Outcome
import CodeBlocks.Json.Reader
import CodeBlocks.ParseTree.Listing

/-! # The program

    Reads the files that the command line names and prints the outcome.
    The parser engine runs apart: the tree of a source file is taken from
    the listing beside it, `<file>.tree.json`. -/

namespace CodeBlocks

/-- The text of a file. -/
def readText (path : String) : IO (Except FileFault String) := do
  match ← (IO.FS.readBinFile path).toBaseIO with
  | .error _ => return .error .missing
  | .ok bytes =>
      match String.fromUTF8? bytes with
      | some text => return .ok text
      | none => return .error .notText

/-- The tree listed beside a file. -/
def readTree (path : String) : IO (Option ParseTree) := do
  match ← readText (path ++ ".tree.json") with
  | .ok text => return (Json.parse? text).bind ParseTree.ofJson?
  | .error _ => return none

end CodeBlocks

open CodeBlocks

def main (args : List String) : IO UInt32 := do
  let paths := CommandLine.filesOf args
  let texts ← paths.mapM fun path => do return (path, ← readText path)
  let trees ← paths.mapM readTree
  let listed := (texts.zip trees).filterMap fun ((_, text), tree) =>
    return (← text.toOption, ← tree)
  let engine : Engine := fun _ text => listed.lookup text
  let read := fun path => (texts.lookup path).getD (.error .missing)
  let outcome := CommandLine.run engine read args
  IO.print outcome.output
  match outcome.message with
  | some message => IO.eprintln ("Error: " ++ message)
  | none => pure ()
  return outcome.code.toUInt32

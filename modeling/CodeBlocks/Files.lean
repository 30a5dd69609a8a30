import CodeBlocks.Error

/-! # Files — a directory tree held in memory

    Files are listed by the names on their way from the working directory;
    every proper beginning of such a way is a directory.  A path is
    followed name by name: `.` and an empty name stay, `..` goes up, and
    each needs a directory to stand in, so a path through or below a file
    leads nowhere.  Nothing outside the working directory is known. -/

namespace CodeBlocks

/-- Files by the names on their way. -/
structure Files where
  entries : List (List String × Except FileFault String)

namespace Files

/-- Files given by relative paths. -/
def ofPaths (files : List (String × Except FileFault String)) : Files :=
  ⟨files.map fun file => (file.1.splitOn "/", file.2)⟩

/-- Whether a way leads to a directory. -/
def isDirectory (files : Files) (way : List String) : Bool :=
  way.isEmpty || files.entries.any fun entry =>
    way.isPrefixOf entry.1 && way.length < entry.1.length

/-- Follows the names of a path from a place. -/
def follow (files : Files) : List String → List String → Option (List String)
  | place, [] => some place
  | place, name :: names =>
      if !files.isDirectory place then none
      else if name = "" ∨ name = "." then follow files place names
      else if name = ".." then
        if place.isEmpty then none else follow files place.dropLast names
      else follow files (place ++ [name]) names

/-- The text of the file at a path. -/
def read (files : Files) (path : String) : Except FileFault String :=
  let way := if path = "" ∨ path.toList.head? = some '/' then none
    else files.follow [] (path.splitOn "/")
  match way.bind fun way => files.entries.lookup way with
  | some content => content
  | none => .error .missing

end Files

end CodeBlocks

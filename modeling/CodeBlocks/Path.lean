/-! # Path — names and extensions of slash-separated paths

    Only `/` separates.  Empty components and `.` do not count, so a
    trailing `/` or `/.` is ignored; a path that ends in `..` has no file
    name.  A dot in front of a name does not start an extension. -/

namespace CodeBlocks.Path

/-- The components of a path that name something. -/
def components (path : String) : List String :=
  (path.splitOn "/").filter fun part => part != "" && part != "."

/-- The last component, unless the path leads upward. -/
def fileName? (path : String) : Option String :=
  match (components path).getLast? with
  | some name => if name = ".." then none else some name
  | none => none

/-- What follows the last dot of a name, if something precedes that dot. -/
def extensionOf? (name : String) : Option String :=
  match (name.splitOn ".").reverse with
  | last :: before@(_ :: _) => if before = [""] then none else some last
  | _ => none

/-- The extension of a path's file name. -/
def extension? (path : String) : Option String :=
  (fileName? path).bind extensionOf?

end CodeBlocks.Path

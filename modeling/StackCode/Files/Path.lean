/-
Paths as text: names apart by slashes. Apart from what is said here a path stays
as it was written; in particular `..` is never resolved.
-/
namespace StackCode.Path

def isAbsolute (path : String) : Bool := path.startsWith "/"

/-- What stands between the slashes. -/
def parts (path : String) : List String := path.splitOn "/"

/-- A part that leads nowhere: nothing at all, or a dot. -/
def isIdle (part : String) : Bool := part == "" || part == "."

/-- The path without its last name. The root and the empty path have no name. A dot at the start
counts as a name, one further on leads nowhere. -/
def parent? (path : String) : Option String :=
  match parts path with
  | [] => none
  | first :: rest =>
    match rest.reverse.dropWhile isIdle with
    | [] => if first == "" then none else some ""
    | _ :: above =>
      match (above.dropWhile isIdle).reverse with
      | [] => some (if first == "" then "/" else first)
      | between => some ("/".intercalate (first :: between))

/-- A path seen from a directory. An absolute path is the same from everywhere. -/
def join (dir path : String) : String :=
  if isAbsolute path || dir == "" then path
  else if dir.endsWith "/" then dir ++ path
  else dir ++ "/" ++ path

end StackCode.Path

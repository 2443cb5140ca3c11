/-! Paths of files, made absolute and brought into the one form without `.`, `..` and empty
parts. -/

namespace ExtensibleCheck

namespace Path

/-- The parts of a path after taking one more, the last part first. Above the root there is only the
root. -/
def descend (parts : List String) (part : String) : List String :=
  if part = "" || part = "." then parts
  else if part = ".." then parts.tail
  else part :: parts

/-- The absolute form of a path, seen from a directory given by an absolute path. -/
def resolve (directory path : String) : String :=
  let absolute := if path.startsWith "/" then path else directory ++ "/" ++ path
  "/" ++ "/".intercalate ((absolute.splitOn "/").foldl descend []).reverse

end Path

end ExtensibleCheck

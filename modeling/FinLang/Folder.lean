namespace FinLang

namespace Folder

-- What stands behind a path.
inductive Entry where
  | missing
  | directory
  | file (bytes : ByteArray)
deriving Inhabited

end Folder

-- A folder, given by the entries in it and in its subfolders under their paths.
structure Folder where
  entries : List (String × Folder.Entry)
deriving Inhabited

namespace Folder

-- Above the folder there are directories, of which nothing else is known.
def isAbove (place : List String) : Bool :=
  place.all fun part => part == ".." || part == "/"

-- The entry at a place, whose innermost part comes first. A directory need not
-- be listed if something in it is.
def entryAt (f : Folder) (place : List String) : Entry :=
  let name := "/".intercalate place.reverse
  if isAbove place || f.entries.any fun (path, _) => path.startsWith (name ++ "/") then .directory
  else (f.entries.lookup name).getD .missing

-- Goes on from a place. Every part of a path but the last has to be a directory.
def walk (f : Folder) (place : List String) : List String → Entry
  | [] => f.entryAt place
  | part :: rest =>
    match f.entryAt place with
    | .directory =>
      if part == "" || part == "." then f.walk place rest
      else if part == ".." && !isAbove place then f.walk place.tail rest
      else f.walk (part :: place) rest
    | _ => .missing

-- The entry that a path leads to, starting in the folder.
def find (f : Folder) (path : String) : Entry :=
  if path.isEmpty then .missing
  else f.walk (if path.startsWith "/" then ["/"] else []) (path.splitOn "/")

end Folder

end FinLang

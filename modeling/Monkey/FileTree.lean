/-!
# File trees

What a path names is settled on a `FileTree`, which holds the directories and files
that are known and the current directory. A path is cut at slashes; empty parts and
single dots do not count, so the empty path names the current directory. A path that
begins with a slash is followed from the root, any other from the current directory,
and two dots lead one directory up, from the root to the root itself. A path cannot
be looked up at all when it is longer than paths may be, when it leads through
directories to a part that is longer than parts may be, or when a part is to be looked
up in a directory that is closed to the command.

## Main definitions

* `Located` — what a path can name.
* `FileTree.ofFiles` — a new current directory that holds some files.
* `FileTree.normal` — a path without what does not count in it.
* `FileTree.locate` — what a path names.
-/

namespace Monkey

/-- What a path names. -/
inductive Located where
  | file (text : String)
  | directory
  | absent
  /-- The path, or a part of it, is too long to be looked up. -/
  | tooLong
  /-- The path leads through a directory in which nothing may be looked up. -/
  | denied

/-- The known directories and files. Each is given by the names that lead to it from the root. -/
structure FileTree where
  current : List String
  /-- What leads to a directory are directories, and need not be listed. -/
  directories : List (List String)
  /-- The files and their texts. What leads to a file are directories. -/
  files : List (List String × String)
  /-- The directories in which the command may look nothing up. -/
  closed : List (List String) := []

namespace FileTree

/-- The longest part of a path, in bytes. -/
def maxPartSize : Nat := 255

/-- Paths must be shorter than this, in bytes. -/
def pathBound : Nat := 4096

/-- The directories that stand below the root of every system. -/
def standardDirectories : List (List String) :=
  [["bin"], ["boot"], ["dev"], ["etc"], ["home"], ["lib"], ["media"], ["mnt"], ["opt"], ["proc"],
    ["root"], ["run"], ["sbin"], ["srv"], ["sys"], ["tmp"], ["usr"], ["var"]]

/-- The file that is always empty. -/
def nullDevice : List String := ["dev", "null"]

/-- The parts of a path that count. -/
def parts (path : String) : List String :=
  ((path.splitToList (· == '/')).filter fun p => p != "" && p != ".")

/-- What a path begins with, if it is followed from the root: one slash, but two slashes stay
two. -/
def root (path : String) : String :=
  match (path.toList.takeWhile (· == '/')).length with
  | 0 => ""
  | 2 => "//"
  | _ => "/"

/-- A path without what does not count in it. -/
def normal (path : String) : String :=
  let text := root path ++ "/".intercalate (parts path)
  if text.isEmpty then "." else text

/-- A system whose current directory is a new one for temporary files, which holds the given
files. Its own name is not known, so it stands under the empty name, which no path can give. -/
def ofFiles (files : List (String × String)) : FileTree :=
  let here := ["tmp", ""]
  { current := here
    directories := here :: standardDirectories
    files := (nullDevice, "") :: files.map fun f => (here ++ parts f.1, f.2) }

/-- Whether there is a directory at the end of the names. -/
def isDirectory (tree : FileTree) (names : List String) : Bool :=
  names.isEmpty || tree.directories.any (names.isPrefixOf ·) ||
    tree.files.any fun f => names.length < f.1.length && names.isPrefixOf f.1

/-- The text of the file at the end of the names. -/
def fileAt? (tree : FileTree) (names : List String) : Option String :=
  (tree.files.find? (·.1 == names)).map (·.2)

/-- Follows the parts of a path from the directory `here`. A part is looked up only in a
directory, and only in one that is not closed, so the length of a part behind something else does
not matter. -/
def follow (tree : FileTree) (here : List String) : List String → Located
  | [] => .directory
  | p :: ps =>
    if tree.closed.contains here then .denied
    else if p == ".." then follow tree here.dropLast ps
    else if maxPartSize < p.utf8ByteSize then .tooLong
    else
      let next := here ++ [p]
      if tree.isDirectory next then follow tree next ps
      else match tree.fileAt? next with
        | some text => if ps.isEmpty then .file text else .absent
        | none => .absent

/-- What a path names. A path cannot hold the character NUL. -/
def locate (tree : FileTree) (path : String) : Located :=
  if path.toList.contains '\x00' then .absent
  else if pathBound ≤ (normal path).utf8ByteSize then .tooLong
  else tree.follow (if path.startsWith "/" then [] else tree.current) (parts path)

end FileTree

end Monkey

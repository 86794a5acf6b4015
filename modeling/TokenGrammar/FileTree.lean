/-!
# Files and the paths to them

A tree of directories and files, and what a path leads to in it. A path is followed
name by name: an empty name and `.` stay where they are, `..` goes back, and behind the
root is the root itself. Only a directory can be followed further, be it by a name that
stays.
-/

namespace TokenGrammar

inductive FileTree
  | file (bytes : List UInt8)
  | directory (entries : List (String × FileTree))

inductive PathFault
  | notFound
  /-- The path goes on after a file. -/
  | notDirectory
  | tooLong
  /-- The path holds the zero character. -/
  | zeroCharacter
  deriving DecidableEq, Repr

namespace PathFault

def message : PathFault → String
  | notFound => "No such file or directory (os error 2)"
  | notDirectory => "Not a directory (os error 20)"
  | tooLong => "File name too long (os error 36)"
  | zeroCharacter => "file name contained an unexpected NUL byte"

end PathFault

namespace FileTree

def longestName : Nat := 255

def longestPath : Nat := 4095

/-- What a list of names leads to from `here`, where `above` holds the directories
around it from the inside out. -/
def follow (above : List FileTree) (here : FileTree) : List String → Except PathFault FileTree
  | [] => .ok here
  | name :: names =>
    match here with
    | file _ => .error .notDirectory
    | directory entries =>
      if name = "" ∨ name = "." then follow above here names
      else if name = ".." then follow above.tail (above.head?.getD here) names
      else if longestName < name.utf8ByteSize then .error .tooLong
      else
        match entries.lookup name with
        | some child => follow (here :: above) child names
        | none => .error .notFound

/-- What a path leads to. One that does not start with a slash starts at the end of the
names in `working`. -/
def find (root : FileTree) (working : List String) (path : String) :
    Except PathFault FileTree :=
  if path.toList.contains '\x00' then .error .zeroCharacter
  else if path = "" then .error .notFound
  else if longestPath < path.utf8ByteSize then .error .tooLong
  else
    let names := path.splitOn "/"
    follow [] root (if names.head? = some "" then names else working ++ names)

end FileTree

end TokenGrammar

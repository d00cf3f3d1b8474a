/-
# A folder of files

A folder that is held in memory, and how a path leads through it.  A path is
followed one component at a time: `.` stays, `..` goes up, a name goes down and
needs a directory to start from.  A slash at the end asks for a directory.
Nothing is known of the world outside of the folder, except that the folders
above it are there.
-/

namespace Lox

/-- Why a file cannot be read. -/
inductive ReadFault where
  | missing
  | directory
  | notADirectory
  | nameTooLong
  | notText
  | other (message : String)
deriving DecidableEq, Repr

/-- The wording of a reading fault. -/
def ReadFault.message : ReadFault → String
  | missing => "No such file or directory (os error 2)"
  | directory => "Is a directory (os error 21)"
  | notADirectory => "Not a directory (os error 20)"
  | nameTooLong => "File name too long (os error 36)"
  | notText => "stream did not contain valid UTF-8"
  | other message => message

/-- Paths inside a folder, outermost component first, each with the bytes of
its file, or nothing for a directory. -/
abbrev Folder := List (List String × Option ByteArray)

namespace Folder

/-- The longest name that a file can have, in bytes. -/
def maxNameLength : Nat := 255

/-- The longest path that can be followed, in bytes. -/
def maxPathLength : Nat := 4095

/-- What a path leads to. -/
inductive Target where
  | file (bytes : ByteArray)
  | directory

/-- What stands under a path of names. -/
def target? (folder : Folder) (path : List String) : Option Target :=
  match folder.lookup path with
  | some (some bytes) => some (.file bytes)
  | some none => some .directory
  | none =>
    if folder.any fun (p, _) => path.isPrefixOf p then some .directory
    else if path = [] then some .directory
    else none

/-- Where one is while following a path: some names down in the folder, the
innermost first, or some levels above it. -/
inductive Place where
  | inside (names : List String)
  | above (levels : Nat)

/-- What is at a place. -/
def at? (folder : Folder) : Place → Option Target
  | .inside names => folder.target? names.reverse
  | .above _ => some .directory

/-- Goes on by one component from a directory. -/
def Place.enter (place : Place) (component : String) : Option Place :=
  if component = "" ∨ component = "." then some place
  else match place, component with
    | .inside (_ :: names), ".." => some (.inside names)
    | .inside [], ".." => some (.above 1)
    | .above n, ".." => some (.above (n + 1))
    | .inside names, name => some (.inside (name :: names))
    | .above _, _ => none

/-- Follows the components of a path. -/
def follow (folder : Folder) (place : Place) : List String → Except ReadFault Target
  | [] =>
    match folder.at? place with
    | some t => .ok t
    | none => .error .missing
  | c :: cs =>
    match folder.at? place with
    | none => .error .missing
    | some (.file _) => .error .notADirectory
    | some .directory =>
      if maxNameLength < c.utf8ByteSize then .error .nameTooLong
      else match place.enter c with
        | some next => folder.follow next cs
        | none => .error .missing

/-- Where a path begins: at the folder, or far above it. -/
def origin (path : String) : Place :=
  if path.toList.head? = some '/' then .above 1 else .inside []

/-- The bytes of the file that a path leads to. -/
def read (folder : Folder) (path : String) : Except ReadFault ByteArray :=
  if path.isEmpty then .error .missing
  else if maxPathLength < path.utf8ByteSize then .error .nameTooLong
  else match folder.follow (origin path) (path.splitOn "/") with
    | .ok (.file bytes) => .ok bytes
    | .ok .directory => .error .directory
    | .error f => .error f

/-- A folder from names that may lead through further folders. -/
def ofNames (files : List (String × Option ByteArray)) : Folder :=
  files.map fun (name, contents) => (name.splitOn "/", contents)

end Folder

end Lox

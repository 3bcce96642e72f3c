/-
# Disks

A disk tells what a path leads to: a file, a directory, or a fault.  Files are
loaded from a disk with specs that are paths from the directory of the top file.

One disk is a *file tree*: the files below a working directory and the directories
on the way to them.  In a file tree a path is looked up one segment at a time.
Empty segments and `.` stay where they are, `..` goes up, and what a segment is
looked up in must be a directory.  A segment and a path as a whole may only be so
long.  Nothing outside the working directory is known.
-/
import ParameterChain.Session

namespace ParameterChain

/-- Why a path leads nowhere. -/
inductive DiskFault where
  | missing
  | notDirectory
  | isDirectory
  | nameTooLong
  | nulInPath
  deriving DecidableEq, Repr

/-- The system's wording of a fault. -/
def DiskFault.text : DiskFault → String
  | .missing => "No such file or directory (os error 2)"
  | .notDirectory => "Not a directory (os error 20)"
  | .isDirectory => "Is a directory (os error 21)"
  | .nameTooLong => "File name too long (os error 36)"
  | .nulInPath => "file name contained an unexpected NUL byte"

/-- What a path leads to. -/
inductive DiskEntry where
  | file (bytes : ByteArray)
  | directory

/-- The size that a directory is reported to have, in bytes. -/
def directorySize : Nat := 4096

def DiskEntry.size : DiskEntry → Nat
  | .file bytes => bytes.size
  | .directory => directorySize

/-- The segments of a path. -/
abbrev DiskPath := List String

namespace DiskPath

def ofText (path : String) : DiskPath :=
  path.splitOn "/"

def toText (path : DiskPath) : String :=
  "/".intercalate path

/-- The greatest length of a segment, in bytes. -/
def segmentLimit : Nat := 255

/-- The greatest length of a path, in bytes. -/
def lengthLimit : Nat := 4095

def isTooLong (path : DiskPath) : Bool :=
  lengthLimit < path.toText.utf8ByteSize

/-- A segment that stays where it is. -/
def isIdle (segment : String) : Bool :=
  segment.isEmpty || segment == "."

/-- A path that starts at the root of all directories. -/
def isAbsolute : DiskPath → Bool
  | first :: _ :: _ => first.isEmpty
  | _ => false

/-- The path without the idle segments at its end, the first one excepted: it tells
where the path starts. -/
def withoutIdleEnd : DiskPath → DiskPath
  | [] => []
  | first :: rest => first :: (rest.reverse.dropWhile isIdle).reverse

/-- The directory and the file that a path names, if its last segment is a
name. -/
def split? (path : DiskPath) : Option (DiskPath × String) :=
  match path.reverse.dropWhile isIdle with
  | [] => none
  | name :: directory =>
      if name = ".." then none else some (withoutIdleEnd directory.reverse, name)

/-- The path `spec` as seen from `directory`. -/
def join (directory spec : DiskPath) : DiskPath :=
  if spec.isAbsolute then spec else directory ++ spec

end DiskPath

/-- What every path leads to. -/
structure Disk where
  lookup : DiskPath → Except DiskFault DiskEntry

namespace Disk

/-- The bytes of the file that a path leads to. -/
def read (d : Disk) (path : DiskPath) : Except DiskFault ByteArray := do
  match ← d.lookup path with
  | .file bytes => return bytes
  | .directory => throw .isDirectory

/-- The files of a disk, with specs that are paths from `directory`. -/
def source (d : Disk) (directory : DiskPath) : Source := fun spec =>
  (d.read (directory.join (DiskPath.ofText spec))).mapError fun fault =>
    Failure.cannotOpen spec fault.text

end Disk

/-- The session that starts with the file at `path`.  Its includes are paths from
its directory. -/
def Session.open (d : Disk) (options : LoadOptions) (path : String) : Attempt Session :=
  match (DiskPath.ofText path).split? with
  | none => .error (.cannotOpen path "not a file")
  | some (directory, name) => Session.load (d.source directory) options name

/-! ## File trees -/

/-- The files below a working directory. -/
structure FileTree where
  files : List (DiskPath × ByteArray)

namespace FileTree

/-- The tree of the given files.  Their paths go down from the working directory. -/
def ofFiles (files : List (String × ByteArray)) : FileTree :=
  ⟨files.map fun (path, bytes) =>
    ((DiskPath.ofText path).filter fun segment => !DiskPath.isIdle segment, bytes)⟩

/-- What stands at a place below the working directory. -/
def entry? (t : FileTree) (place : DiskPath) : Option DiskEntry :=
  match t.files.find? fun (path, _) => path == place with
  | some (_, bytes) => some (.file bytes)
  | none =>
      if place.isEmpty || t.files.any fun (path, _) => place.isPrefixOf path then some .directory
      else none

/-- The entry that a path leads to from the place `place`, whose segments stand
innermost first; `none` is a place outside the working directory. -/
def walk (t : FileTree) (place : Option DiskPath) : DiskPath → Except DiskFault DiskEntry
  | [] =>
      match place with
      | none => .ok .directory
      | some place =>
          match t.entry? place.reverse with
          | some entry => .ok entry
          | none => .error .missing
  | segment :: rest =>
      match place with
      | none =>
          if DiskPath.isIdle segment || segment == ".." then t.walk none rest
          else if DiskPath.segmentLimit < segment.utf8ByteSize then .error .nameTooLong
          else .error .missing
      | some place =>
          match t.entry? place.reverse with
          | none => .error .missing
          | some (.file _) => .error .notDirectory
          | some .directory =>
              if DiskPath.isIdle segment then t.walk (some place) rest
              else if segment = ".." then t.walk place.tail? rest
              else if DiskPath.segmentLimit < segment.utf8ByteSize then .error .nameTooLong
              else t.walk (some (segment :: place)) rest

/-- The disk with nothing but the files of the tree. -/
def disk (t : FileTree) : Disk where
  lookup path :=
    if path.any fun segment => segment.toList.contains '\x00' then .error .nulInPath
    else if path == [""] then .error .missing
    else if path.isTooLong then .error .nameTooLong
    else if path.isAbsolute then t.walk none path.tail
    else t.walk (some []) path

end FileTree

end ParameterChain

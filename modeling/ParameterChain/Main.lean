/-
# The program

The program reads the top file and all files that can be reached from it by
includes, hands them to `CommandLine.run` as a disk, and writes what comes out.
Everything that decides anything is there; here files are read and texts are
printed.
-/
import ParameterChain.CommandLine

namespace ParameterChain.Main

/-- The fault that the system reported. -/
def faultOf : IO.Error → DiskFault
  | .inappropriateType _ code _ => if code = 21 then .isDirectory else .notDirectory
  | .invalidArgument _ 36 _ => .nameTooLong
  | _ => .missing

/-- What a path leads to. -/
def lookup (path : DiskPath) : IO (Except DiskFault DiskEntry) := do
  try
    return .ok (.file (← IO.FS.readBinFile path.toText))
  catch e =>
    match faultOf e with
    | .isDirectory => return .ok .directory
    | fault => return .error fault

/-- What is known of a disk. -/
abbrev Known := List (DiskPath × Except DiskFault DiskEntry)

/-- The specs that a file includes, if it can be read at all. -/
def specsOf (options : LoadOptions) (spec : String) (bytes : ByteArray) : List String :=
  match Source.declarations (fun _ => .ok bytes) options.limits spec with
  | .ok ds => (options.includeSpecs spec ds).filter (· ≠ builtInDefaults)
  | .error _ => []

/-- Find out about the files of some specs and about all that they include. -/
partial def explore (options : LoadOptions) (directory : DiskPath) (known : Known) :
    List String → IO Known
  | [] => return known
  | spec :: specs => do
      let path := directory.join (DiskPath.ofText spec)
      if known.any fun (p, _) => p == path then explore options directory known specs
      else
        let entry ← lookup path
        let included :=
          match entry with
          | .ok (.file bytes) => specsOf options spec bytes
          | _ => []
        explore options directory ((path, entry) :: known) (included ++ specs)

/-- Find out about the top file and all that it includes. -/
def exploreFrom (options : LoadOptions) (file : String) : IO Known := do
  let path := DiskPath.ofText file
  let top ← lookup path
  match path.split? with
  | none => return [(path, top)]
  | some (directory, name) => return (path, top) :: (← explore options directory [] [name])

/-- The disk of which nothing else is known. -/
def diskOf (known : Known) : Disk where
  lookup path :=
    match known.find? fun (p, _) => p == path with
    | some (_, entry) => entry
    | none => .error .missing

end ParameterChain.Main

open ParameterChain in
def main (arguments : List String) : IO UInt32 := do
  let setting ← IO.getEnv "PCL_MAX_FILE_SIZE"
  let options := CommandLine.loadOptions (CommandLine.sizeLimit setting)
  let known ←
    match CommandLine.Command.ofArguments arguments with
    | .ok c => Main.exploreFrom options c.file
    | .error _ => pure []
  let outcome := CommandLine.run (Main.diskOf known) setting arguments
  (← IO.getStdout).putStr outcome.output
  (← IO.getStderr).putStr outcome.errors
  return outcome.code.toUInt32

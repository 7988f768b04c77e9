import ClassLang.CommandLine

/-!
The compiler as a program.
-/

namespace ClassLang.CommandLine

/-- The number of the system for a part of a path that is no directory. -/
def notDirectoryCode : UInt32 := 20

/-- The number of the system for a name that is too long. -/
def tooLongCode : UInt32 := 36

/-- Why an operation on a file failed. -/
def FileFault.ofError : IO.Error → FileFault
  | .noFileOrDirectory .. => .notFound
  | .inappropriateType _ code _ => if code = notDirectoryCode then .notDirectory else .isDirectory
  | .permissionDenied .. => .denied
  | .invalidArgument _ code _ => if code = tooLongCode then .tooLong else .invalid
  | _ => .notFound

/-- The host over the files of the machine. -/
def terminal : Host IO where
  directory := return Path.names (← IO.currentDir).toString
  pathTo := Path.text
  isThere names := do
    try
      discard (IO.FS.Handle.mk (Path.text names) .read)
      return true
    catch e => return FileFault.ofError e = .isDirectory
  read path := do
    try return .ok (← IO.FS.readBinFile path).toList
    catch e => return .error (FileFault.ofError e)
  write path content := do
    try
      IO.FS.writeFile path content
      return .ok ()
    catch e => return .error (FileFault.ofError e)
  print text := do (← IO.getStdout).putStr text
  report text := do (← IO.getStderr).putStr text

/-- The exit code for how a command ends. A crash is reported. -/
def exitCode (exit : Exit) : IO UInt32 := do
  if let .crash message := exit then
    terminal.report (message.getD "the program breaks a rule" ++ "\n")
  return UInt32.ofNat exit.status

end ClassLang.CommandLine

open ClassLang.CommandLine in
/-- Runs the compiler with the arguments of the process. -/
def main (args : List String) : IO UInt32 := do exitCode (← run terminal args)

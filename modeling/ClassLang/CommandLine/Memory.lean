import ClassLang.CommandLine

/-!
A host that keeps files in memory. Commands start in a directory that all files
lie in; a directory is there if a file lies in it.
-/

namespace ClassLang.CommandLine

/-- The files that are there, by their names from the top, and what has been
shown. -/
structure Memory where
  files : List (List String × String)
  printed : String := ""
  reported : String := ""

namespace Memory

/-- The directory that commands start in. It has a name that no path can give, so
that only paths from that directory lead to it. -/
def home : List String := [""]

/-- The files with given paths and contents. -/
def ofFiles (files : List (String × String)) : Memory :=
  { files := files.map fun (path, content) => (Path.resolve home path, content) }

/-- Whether names lead to a directory. -/
def isDirectory (s : Memory) (names : List String) : Bool :=
  names.isPrefixOf home || s.files.any fun (f, _) => names.isPrefixOf f && names ≠ f

/-- Whether names lead to a file or a directory. -/
def isThere (s : Memory) (names : List String) : Bool :=
  s.isDirectory names || (s.files.lookup names).isSome

/-! Following paths -/

/-- The greatest number of bytes in a name. -/
def maxName : Nat := 255

/-- The number of bytes from which on a path is too long. -/
def pathLimit : Nat := 4096

/-- Follows the parts of a path from a directory. Each has to be looked up in a
directory that is there, but there may be nothing at the end. -/
def walk (s : Memory) (dir : List String) : List String → Except FileFault (List String)
  | [] => .ok dir
  | part :: rest =>
    if !s.isThere dir then .error .notFound
    else if !s.isDirectory dir then .error .notDirectory
    else if maxName < part.utf8ByteSize then .error .tooLong
    else s.walk (Path.step dir part) rest

/-- The directory that a path starts from and its parts, if it can be followed at
all. -/
def start (path : String) : Except FileFault (List String × List String) :=
  if path.isEmpty then .error .notFound
  else if path.contains '\x00' then .error .invalid
  else if pathLimit ≤ path.utf8ByteSize then .error .tooLong
  else .ok (if path.startsWith "/" then [] else home, path.splitOn "/")

/-- The content of the file at a path. A slash at the end asks for a directory. -/
def read (s : Memory) (path : String) : Except FileFault String := do
  let (dir, parts) ← start path
  let names ← s.walk dir parts
  if s.isDirectory names then throw .isDirectory
  else
    match s.files.lookup names with
    | some content => return content
    | none => throw .notFound

/-- The files after one has been written. Its directory must be there. -/
def write (s : Memory) (path content : String) : Except FileFault Memory := do
  let (dir, parts) ← start path
  let written := (parts.reverse.dropWhile (·.isEmpty)).reverse
  let dir ← s.walk dir (written.dropLast ++ [""])
  let name := written.getLast?.getD ""
  let names := Path.step dir name
  if path.endsWith "/" then throw .isDirectory
  else if maxName < name.utf8ByteSize then throw .tooLong
  else if s.isDirectory names then throw .isDirectory
  else return { s with files := (names, content) :: s.files.filter (·.1 ≠ names) }

/-! The host -/

/-- The path of a file as seen from the directory that commands start in. -/
def pathTo (names : List String) : String := "/".intercalate (names.drop home.length)

/-- The host over files in memory. -/
def host : Host (StateM Memory) where
  directory := pure home
  pathTo := pathTo
  isThere names := return (← get).isThere names
  read path := return ((← get).read path).map Utf8.encode
  write path content := do
    match (← get).write path content with
    | .ok s =>
      set s
      return .ok ()
    | .error f => return .error f
  print text := modify fun s => { s with printed := s.printed ++ text }
  report text := modify fun s => { s with reported := s.reported ++ text }

/-- The files in the directory that commands start in that are new or changed
against `before`, by their paths. -/
def changes (before after : Memory) : List (String × String) :=
  let changed := after.files.filter fun (f, content) =>
    home.isPrefixOf f && before.files.lookup f ≠ some content
  (changed.map fun (f, content) => (pathTo f, content)).mergeSort fun a b => a.1 ≤ b.1

end Memory

end ClassLang.CommandLine

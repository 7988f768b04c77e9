import ClassLang.CommandLine.Flag
import ClassLang.Compile
import ClassLang.Graph.Print
import ClassLang.Layout.Yaml
import ClassLang.Llvm.Emit
import ClassLang.Llvm.Print
import ClassLang.Machine
import ClassLang.Settings
import ClassLang.Settings.Load
import ClassLang.Tree.Outline
import ClassLang.Typed.Outline

/-!
The command line of the compiler. A command reads one file and lists what the
flags ask for, or runs the program. It reaches files and the terminal through a
host only, so that it can be run against files that are kept in memory.
-/

namespace ClassLang.CommandLine

/-! Options -/

/-- The version of the compiler. -/
def version : String := "0.1.0-dev"

/-- What flags set. An empty text stands for a flag that is not given. -/
structure Options where
  emitTokens : Bool := false
  emitTree : Bool := false
  emitTyped : Bool := false
  emitLayout : Bool := false
  emitGraph : Bool := false
  emitModule : Bool := false
  run : Bool := false
  noVerify : Bool := false
  doctor : Bool := false
  showVersion : Bool := false
  trace : Bool := false
  layoutFormat : String := ""
  output : String := ""
  settingsFile : String := ""
  onlyFunc : String := ""
  jobs : Int := 0
  deriving Repr, Inhabited

/-- The flags, in alphabetical order. -/
def flags : List (Flag Options) :=
  [⟨"config", .text fun v o => { o with settingsFile := v },
     "Config file (default: kyac.toml or kyac.yaml next to the input)"⟩,
   ⟨"doctor", .switch fun b o => { o with doctor := b }, "Check toolchain"⟩,
   ⟨"dump-func", .text fun v o => { o with onlyFunc := v }, "Only dump specific function"⟩,
   ⟨"emit-ast", .switch fun b o => { o with emitTree := b }, "Output AST"⟩,
   ⟨"emit-ir", .switch fun b o => { o with emitGraph := b }, "Output IR"⟩,
   ⟨"emit-layout", .switch fun b o => { o with emitLayout := b },
     "Output class layouts and dispatch tables"⟩,
   ⟨"emit-ll", .switch fun b o => { o with emitModule := b }, "Output LLVM IR"⟩,
   ⟨"emit-tokens", .switch fun b o => { o with emitTokens := b }, "Output token stream"⟩,
   ⟨"emit-typed-ast", .switch fun b o => { o with emitTyped := b }, "Output typed AST"⟩,
   ⟨"j", .int fun n o => { o with jobs := n },
     "Functions lowered in parallel (0: GOMAXPROCS)"⟩,
   ⟨"layout-format", .text fun v o => { o with layoutFormat := v },
     "Layout output format (text or yaml); overrides the config file"⟩,
   ⟨"no-verify", .switch fun b o => { o with noVerify := b }, "Skip IR verification"⟩,
   ⟨"o", .text fun v o => { o with output := v }, "Output file"⟩,
   ⟨"run", .switch fun b o => { o with run := b }, "Run main with the reference evaluator"⟩,
   ⟨"trace", .switch fun b o => { o with trace := b }, "Log each phase with timings"⟩,
   ⟨"version", .switch fun b o => { o with showVersion := b }, "Print version"⟩]

/-- The text about how the compiler is used. -/
def usage : String :=
  s!"Kyanite Compiler {version}\n\nUsage: kyac [options] <file.kya>\n\nOptions:\n"
    ++ String.join (flags.map (·.usage))

/-- Settings that flags have changed. -/
def Options.override (o : Options) (s : Settings) : Settings :=
  { s with
    jobs := if 0 < o.jobs then o.jobs else s.jobs
    verify := s.verify && !o.noVerify
    logLevel := if o.trace then Utf8.encode "debug" else s.logLevel
    layoutFormat :=
      if o.layoutFormat.isEmpty then s.layoutFormat else Utf8.encode o.layoutFormat }

/-! Surroundings -/

/-- Why a file cannot be used. -/
inductive FileFault where
  | notFound
  | notDirectory
  | isDirectory
  | denied
  | tooLong
  | invalid
  deriving DecidableEq, Repr

namespace FileFault

/-- The wording of a fault. -/
def message : FileFault → String
  | .notFound => "no such file or directory"
  | .notDirectory => "not a directory"
  | .isDirectory => "is a directory"
  | .denied => "permission denied"
  | .tooLong => "file name too long"
  | .invalid => "invalid argument"

/-- What fails when a file is read. A directory can be opened, but not read. -/
def readMessage (f : FileFault) (path : String) : String :=
  let action := if f = .isDirectory then "read" else "open"
  s!"{action} {path}: {f.message}"

/-- What fails when a file is written. -/
def writeMessage (f : FileFault) (path : String) : String := s!"open {path}: {f.message}"

end FileFault

/-- What a command needs from its surroundings. -/
structure Host (m : Type → Type) where
  /-- The directory that paths start from, as its names from the top. -/
  directory : m (List String)
  /-- The path to which names lead from the top. -/
  pathTo : List String → String
  /-- Whether names from the top lead to anything. -/
  isThere : List String → m Bool
  read : String → m (Except FileFault (List UInt8))
  /-- Makes a file with a given content, in place of one that is there. -/
  write : String → String → m (Except FileFault Unit)
  /-- Shows what was asked for. -/
  print : String → m Unit
  /-- Shows what went wrong. -/
  report : String → m Unit

variable {m : Type → Type} [Monad m]

/-- How a command ends: with an exit code, or because the program that it runs or
writes, or the settings file that it reads, breaks a rule that it was taken to keep. -/
inductive Exit where
  | code (n : Nat)
  | crash (message : Option String)
  deriving DecidableEq, Repr

/-- The exit code for how a command ends. -/
def Exit.status : Exit → Nat
  | .code n => n
  | .crash _ => 2

/-- Reports an error, and gives the exit code for it. -/
def failWith (h : Host m) (message : String) : m Exit := do
  h.report s!"error: {message}\n"
  return .code 1

/-! Tokens and trees -/

/-- A text with blanks behind it up to a width. -/
def padded (width : Nat) (s : String) : String :=
  s ++ String.ofList (List.replicate (width - s.length) ' ')

/-- One row of the list of tokens. -/
def tokenRow (pos token literal : String) : String :=
  padded 20 pos ++ " " ++ padded 12 token ++ " " ++ literal ++ "\n"

/-- One character of a literal in quotes. -/
def literalChar : Char → String
  | '\n' => "\\n"
  | '\t' => "\\t"
  | '\r' => "\\r"
  | '\\' => "\\\\"
  | '"' => "\\\""
  | c => String.singleton c

/-- A literal in quotes. -/
def literalText (s : String) : String :=
  "\"" ++ String.join (s.toList.map literalChar) ++ "\""

/-- The list of tokens with what is wrong in them. -/
def tokenList (rows errors : List String) : String :=
  let dashes (n : Nat) : String := String.ofList (List.replicate n '-')
  tokenRow "POSITION" "TOKEN" "LITERAL" ++ tokenRow (dashes 20) (dashes 12) (dashes 20)
    ++ String.join rows
    ++ (if errors.isEmpty then ""
        else "\nErrors:\n" ++ String.join (errors.map fun e => s!"  {e}\n"))

/-- What is reported for a file that can be opened but not read, as if it stood
before the first character. -/
def unreadable (path : String) (why : FileFault) : Diagnostic :=
  ⟨.syntactic, ⟨path, 1, 0⟩, s!"error reading source file: {why.readMessage path}"⟩

/-- Lists the tokens of a file. -/
def emitTokens (h : Host m) (path : String) : m Exit := do
  match ← h.read path with
  | .error .isDirectory =>
    let d := unreadable path .isDirectory
    h.print (tokenList [tokenRow d.pos.text Token.eof.text (literalText "")] [d.text])
    return .code 1
  | .error f => failWith h (f.readMessage path)
  | .ok bytes =>
    let ls := lexemes path bytes
    let rows := ls.map fun l => tokenRow l.pos.text l.token.text (literalText l.text)
    let errors := (ls.flatMap (·.faults)).map fun e =>
      s!"{path}:{e.pos.line}:{e.pos.col}: {e.fault.message}"
    h.print (tokenList rows errors)
    return .code (if errors.isEmpty then 0 else 1)

/-- Lists the syntax tree of a file. -/
def emitTree (h : Host m) (path : String) : m Exit := do
  match ← h.read path with
  | .error .isDirectory =>
    h.report ((unreadable path .isDirectory).text ++ "\n")
    h.print (parseFile path []).file.outline
    return .code 1
  | .error f => failWith h (f.readMessage path)
  | .ok bytes =>
    let p := parseFile path bytes
    h.report (String.join (p.reports.map fun e => e.text ++ "\n"))
    h.print p.file.outline
    return .code (if p.reports.isEmpty then 0 else 1)

/-! Compilation -/

/-- The lines that report a failed compilation. -/
def failureText (e : CompileError) : String :=
  if e.errors.isEmpty then s!"error: {e.message}\n"
  else String.join (e.errors.map fun d => s!"{d.text} [{d.kind.text}]\n")

/-- Compiles a file up to a phase, and reports the errors. -/
def compileFile (h : Host m) (s : Settings) (path : String) (last : Option Phase) :
    m (Option Artifacts) := do
  match ← h.read path with
  | .error .isDirectory =>
    h.report (failureText (.invalid [unreadable path .isDirectory]))
    return none
  | .error f =>
    discard (failWith h (f.readMessage path))
    return none
  | .ok bytes =>
    match compile { last, errorLimit := s.errorLimit, verify := s.verify } path bytes with
    | (a, none) => return some a
    | (_, some e) =>
      h.report (failureText e)
      return none

/-- Writes a listing to the file that the flags name, or prints it. The file is
made before the listing is known to exist. -/
def deliver (h : Host m) (o : Options) (listing : Except String String) : m Exit := do
  if o.output.isEmpty then
    match listing with
    | .ok text =>
      h.print text
      return .code 0
    | .error message => failWith h message
  else
    let text :=
      match listing with
      | .ok text => text
      | .error _ => ""
    match ← h.write o.output text, listing with
    | .error f, _ => failWith h (f.writeMessage o.output)
    | .ok (), .error message => failWith h message
    | .ok (), .ok _ => return .code 0

/-- Lists the typed tree of a file. -/
def emitTyped (h : Host m) (s : Settings) (path : String) : m Exit := do
  match (← compileFile h s path (some .check)).bind (·.typed) with
  | some f =>
    h.print f.outline
    return .code 0
  | none => return .code 1

/-- Lists the layouts of a file. -/
def emitLayout (h : Host m) (o : Options) (s : Settings) (path : String) : m Exit := do
  match (← compileFile h s path (some .layout)).bind (·.layouts) with
  | some ls =>
    deliver h o (.ok (if s.format = Settings.yamlFormat then ls.yaml else ls.text))
  | none => return .code 1

/-- The program of a file. -/
def programOf (h : Host m) (s : Settings) (path : String) : m (Option Graph.Program) := do
  return (← compileFile h s path none).bind (·.program)

/-- The graphs of a program as text, or only that of one function. -/
def graphText (p : Graph.Program) (onlyFunc : String) : Except String String :=
  let shown (text : Option String) : Except String String :=
    match text with
    | some t => .ok t
    | none => .error "missing operand"
  if onlyFunc.isEmpty then shown p.text?
  else
    match p.named? onlyFunc with
    | some f => shown f.text?
    | none => .error s!"no function {onlyFunc}"

/-- Lists the graphs of a file. -/
def emitGraph (h : Host m) (o : Options) (s : Settings) (path : String) : m Exit := do
  match ← programOf h s path with
  | some p => deliver h o (graphText p o.onlyFunc)
  | none => return .code 1

/-- Lists the module of a file. -/
def emitModule (h : Host m) (o : Options) (s : Settings) (path : String) : m Exit := do
  match ← programOf h s path with
  | some p =>
    match Llvm.emit p path with
    | .ok module => deliver h o (.ok module.text)
    | .error (.fault f) => return .crash f.message?
    | .error e => deliver h o (.error (e.message?.getD ""))
  | none => return .code 1

/-- Runs the program of a file. -/
def runProgram (h : Host m) (s : Settings) (path : String) : m Exit := do
  match ← programOf h s path with
  | none => return .code 1
  | some p =>
    let machine : Machine := { program := p }
    match machine.runMain Machine.ampleFuel none with
    | none => return .code 1
    | some r =>
      h.print r.out
      match r.result with
      | .ok _ => return .code 0
      | .error (.crash c) => return .crash c.message?
      | .error e => failWith h (e.message?.getD "")

/-! Commands -/

/-- The settings file for an input: the one that the flags name, or the first one
in the directory of the input and those above it. -/
def settingsPath (h : Host m) (o : Options) (path : String) : m (Option String) := do
  if !o.settingsFile.isEmpty then return some o.settingsFile
  let dir := Path.resolve (← h.directory) (Path.directory path)
  return (← (Settings.candidates dir).findM? h.isThere).map h.pathTo

/-- The settings in a file. -/
def readSettings (h : Host m) (path : String) : m (Except SettingsError Settings) := do
  match ← h.read path with
  | .error f => return .error (.unreadable path (f.readMessage path))
  | .ok bytes => return Settings.ofFile path (Utf8.decode bytes)

/-- How a command ends that cannot load its settings. -/
def failSettings (h : Host m) (e : SettingsError) : m Exit :=
  match e with
  | .moment _ _ => return .crash (some e.message)
  | .throughSetting _ | .incomparableKey => return .crash none
  | _ => failWith h e.message

/-- The settings for an input, or how a command ends that has none. -/
def settingsFor (h : Host m) (o : Options) (path : String) : m (Except Exit Settings) := do
  let base ←
    match ← settingsPath h o path with
    | none => pure (.ok {})
    | some file => readSettings h file
  match base with
  | .error e => return .error (← failSettings h e)
  | .ok s =>
    let s := o.override s
    match s.fault? with
    | some fault => return .error (← failWith h fault.message)
    | none => return .ok s

/-- Does what the flags ask for with an input. -/
def process (h : Host m) (o : Options) (path : String) : m Exit := do
  match ← settingsFor h o path with
  | .error exit => return exit
  | .ok s =>
    if o.emitTokens then emitTokens h path
    else if o.emitTree then emitTree h path
    else if o.emitTyped then emitTyped h s path
    else if o.emitLayout then emitLayout h o s path
    else if o.emitGraph then emitGraph h o s path
    else if o.emitModule then emitModule h o s path
    else if o.run then runProgram h s path
    else return .code (if (← programOf h s path).isSome then 0 else 1)

/-- Runs the compiler with arguments. -/
def run (h : Host m) (args : List String) : m Exit := do
  match readFlags flags {} args with
  | .error fault =>
    h.report (((fault.message?.map (· ++ "\n")).getD "") ++ usage)
    return .code (if fault = .help then 0 else 2)
  | .ok (o, rest) =>
    if o.showVersion then
      h.print s!"kyac version {version}\n"
      return .code 0
    else if o.doctor then failWith h "the toolchain cannot be checked"
    else
      match rest with
      | [] =>
        h.report "error: no input file\nusage: kyac [options] <file.kya>\n"
        return .code 1
      | path :: _ => process h o path

end ClassLang.CommandLine

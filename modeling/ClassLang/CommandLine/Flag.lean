import ClassLang.Number.Word
import ClassLang.Text.Quoted

/-!
Flags on a command line. A flag starts with one or two dashes; its value follows
behind an equals sign or, unless it is a switch, as the next argument. Flags end
at the first argument that is none, or behind two dashes alone.
-/

namespace ClassLang.CommandLine

/-- How a flag changes options of type `σ`. -/
inductive Setter (σ : Type) where
  | switch (set : Bool → σ → σ)
  | text (set : String → σ → σ)
  | int (set : Int → σ → σ)

/-- A flag with what it is for. -/
structure Flag (σ : Type) where
  name : String
  setter : Setter σ
  help : String

namespace Flag

/-- The word for the value of a flag, which a switch has none of. -/
def valueWord {σ : Type} (f : Flag σ) : String :=
  match f.setter with
  | .switch _ => ""
  | .text _ => " string"
  | .int _ => " int"

/-- The lines about a flag in a usage text. The name of a short switch leaves room
for the help on the same line. -/
def usage {σ : Type} (f : Flag σ) : String :=
  let head := "  -" ++ f.name ++ f.valueWord
  head ++ (if head.length ≤ 4 then "\t" else "\n    \t") ++ f.help ++ "\n"

end Flag

/-- Why a command line cannot be read. -/
inductive UsageFault where
  | help
  | syntactic (arg : String)
  | undefined (name : String)
  | noArgument (name : String)
  | badSwitch (value name : String)
  | badInt (value name : String) (why : Number.WordFault)
  deriving DecidableEq, Repr

namespace UsageFault

/-- The wording of a fault. A request for help is none. -/
def message? : UsageFault → Option String
  | .help => none
  | .syntactic arg => some s!"bad flag syntax: {arg}"
  | .undefined name => some s!"flag provided but not defined: -{name}"
  | .noArgument name => some s!"flag needs an argument: -{name}"
  | .badSwitch value name =>
    some s!"invalid boolean value {Text.quote value} for -{name}: parse error"
  | .badInt value name why =>
    let reason :=
      match why with
      | .malformed => "parse error"
      | .tooLarge => "value out of range"
    some s!"invalid value {Text.quote value} for flag -{name}: {reason}"

end UsageFault

/-- The truth value that the value of a switch stands for. -/
def truth? (s : String) : Option Bool :=
  if ["1", "t", "T", "TRUE", "true", "True"].contains s then some true
  else if ["0", "f", "F", "FALSE", "false", "False"].contains s then some false
  else none

/-- An argument that is a flag, as its name and its value behind an equals sign. -/
def splitFlag (body : List Char) : String × Option String :=
  let name := body.takeWhile (· ≠ '=')
  match body.dropWhile (· ≠ '=') with
  | _ :: value => (String.ofList name, some (String.ofList value))
  | [] => (String.ofList name, none)

/-- The characters of an argument behind its dashes, if it is a flag. -/
def flagBody? (arg : String) : Option (List Char) :=
  match arg.toList with
  | '-' :: '-' :: rest => some rest
  | '-' :: c :: rest => some (c :: rest)
  | _ => none

/-- Sets a flag to a value that is given for it. -/
def setTo {σ : Type} (f : Flag σ) (value : String) (options : σ) : Except UsageFault σ :=
  match f.setter with
  | .switch set =>
    match truth? value with
    | some b => .ok (set b options)
    | none => .error (.badSwitch value f.name)
  | .text set => .ok (set value options)
  | .int set =>
    match Number.readWord value with
    | .ok n => .ok (set n options)
    | .error why => .error (.badInt value f.name why)

/-- Sets the flag `name`, where `next` is the argument behind it. The result tells
whether that argument was taken as the value. -/
def setFlag {σ : Type} (flags : List (Flag σ)) (options : σ) (name : String)
    (value next : Option String) : Except UsageFault (σ × Bool) :=
  match flags.find? (·.name = name) with
  | none => if name = "help" || name = "h" then .error .help else .error (.undefined name)
  | some f =>
    match value, f.setter, next with
    | some v, _, _ => (setTo f v options).map (·, false)
    | none, .switch set, _ => .ok (set true options, false)
    | none, _, some v => (setTo f v options).map (·, true)
    | none, _, none => .error (.noArgument name)

/-- Reads the arguments of a command: the options that flags set, and the
arguments behind the flags. -/
def readFlags {σ : Type} (flags : List (Flag σ)) (options : σ) (args : List String) :
    Except UsageFault (σ × List String) :=
  match args with
  | [] => .ok (options, [])
  | arg :: rest =>
    if arg = "--" then .ok (options, rest)
    else
      match flagBody? arg with
      | none => .ok (options, arg :: rest)
      | some body =>
        if body.isEmpty || body.head? = some '-' || body.head? = some '=' then
          .error (.syntactic arg)
        else
          let (name, value) := splitFlag body
          match setFlag flags options name value rest.head? with
          | .error e => .error e
          | .ok (options, false) => readFlags flags options rest
          | .ok (options, true) => readFlags flags options rest.tail
termination_by args.length
decreasing_by all_goals (simp only [List.length_cons, List.length_tail]; omega)

end ClassLang.CommandLine

import ChartPipeline.Compile
import ChartPipeline.Json.Printer

/-!
# The command line

`[--pretty] [--config FILE] [FILE]`: compiles a chart spec from a file or from the standard input,
and prints its records as JSON.
-/

namespace ChartPipeline.CommandLine

structure Invocation where
  spec : Option String := none
  config : Option String := none
  pretty : Bool := false
deriving DecidableEq, Repr

namespace Invocation

def withSpec (i : Invocation) (file : String) : Option Invocation :=
  if file = "" || i.spec.isSome then none else some { i with spec := some file }

def withConfig (i : Invocation) (file : String) : Option Invocation :=
  if file = "" || i.config.isSome then none else some { i with config := some file }

def withPretty (i : Invocation) : Option Invocation :=
  if i.pretty then none else some { i with pretty := true }

/-- A dash alone is an ordinary argument. -/
def isFlag (arg : String) : Bool := arg.startsWith "-" && arg != "-"

/-- The file of an argument that gives the options file in one piece. -/
def attachedConfig? (arg : String) : Option String :=
  let option := "--config="
  if arg.startsWith option then some (String.ofList (arg.toList.drop option.length)) else none

/-- Reads the arguments; everything behind two dashes is a file. -/
def read (i : Invocation) : List String → Option Invocation
  | [] => some i
  | "--" :: files => files.foldlM withSpec i
  | "--pretty" :: rest => do (← i.withPretty).read rest
  | "--config" :: file :: rest => do
    guard !isFlag file
    (← i.withConfig file).read rest
  | arg :: rest =>
    match attachedConfig? arg with
    | some file => do (← i.withConfig file).read rest
    | none => do
      guard !isFlag arg
      (← i.withSpec arg).read rest

def ofArguments? (args : List String) : Option Invocation := ({} : Invocation).read args

end Invocation

inductive Failure where
  | unreadableConfig (file : String)
  | malformedConfig
  | unreadableSpec (file : String)
  | unreadableInput
  | malformedSpec
  | invalidSpec (cause : CompileError)

def Failure.message : Failure → String
  | .unreadableConfig file => "Failed to read config " ++ file
  | .malformedConfig => "Failed to parse config"
  | .unreadableSpec file => "Failed to read spec " ++ file
  | .unreadableInput => "Failed to read spec from stdin"
  | .malformedSpec => "Failed to parse chart spec"
  | .invalidSpec _ => "Failed to compile chart spec"

/-- Where the contents of files and of the standard input come from; `none` if they cannot be
read. -/
structure Contents where
  file? : String → Option String
  input? : Option String

def Invocation.options (i : Invocation) (from? : String → Option String) :
    Except Failure Options :=
  match i.config with
  | none => .ok {}
  | some file =>
    match from? file with
    | none => .error (.unreadableConfig file)
    | some text => (Options.ofText text).mapError fun _ => .malformedConfig

def Invocation.specText (i : Invocation) (c : Contents) : Except Failure String :=
  match i.spec with
  | none => c.input?.elim (.error .unreadableInput) .ok
  | some file => (c.file? file).elim (.error (.unreadableSpec file)) .ok

def Invocation.render (i : Invocation) (c : Compiled) : String :=
  (if i.pretty then c.toJson.pretty else c.toJson.compact) ++ "\n"

def Invocation.run (i : Invocation) (c : Contents) : List Event × Except Failure String :=
  let spec : Except Failure (Options × ChartSpec) := do
    let options ← i.options c.file?
    let text ← i.specText c
    let spec ← (ChartSpec.ofText text).mapError fun _ => .malformedSpec
    return (options, spec)
  match spec with
  | .error failure => ([], .error failure)
  | .ok (options, spec) =>
    let (events, result) := spec.compileTelling options
    (events, (result.mapError .invalidSpec).map i.render)

end ChartPipeline.CommandLine

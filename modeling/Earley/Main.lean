import Earley.CommandLine

/-! The command as a program: it reads the arguments and the files, and writes the transcript. -/
namespace Earley.CommandLine

/-- The arguments of the command: the name of the grammar file, the name of the file of words,
and the options. -/
structure Arguments where
  grammar : Option String
  input : Option String
  options : Options

namespace Arguments

/-- No arguments yet. -/
def initial : Arguments := ⟨none, none, ⟨none, .plain, false, false, []⟩⟩

/-- Add an argument that is no option: first the grammar file, then words. -/
def addPlain (arguments : Arguments) (value : String) : Arguments :=
  if arguments.grammar.isNone then { arguments with grammar := some value }
  else
    { arguments with
      options := { arguments.options with words := arguments.options.words ++ [value.toList] } }

/-- Set an option that has a value. -/
def setValue? (arguments : Arguments) (name value : String) : Option Arguments :=
  if name = "--input" then some { arguments with input := some value }
  else if name = "--derivation-limit" then
    some { arguments with options := { arguments.options with limit := some value.toList } }
  else none

/-- Set an option that has no value. -/
def setFlag? (arguments : Arguments) (name : String) : Option Arguments :=
  let options := arguments.options
  if name = "--show-non-terminals" then
    some { arguments with options := { options with style := .marked } }
  else if name = "--debug" then some { arguments with options := { options with debug := true } }
  else if name = "--verbose" then
    some { arguments with options := { options with verbose := true } }
  else none

/-- Set an option whose value follows it after an equals sign. -/
def setJoined? (arguments : Arguments) (argument : String) : Option Arguments :=
  match Text.fields '=' argument.toList with
  | name :: first :: more =>
    arguments.setValue? (String.ofList name) (String.ofList (Text.join ['='] (first :: more)))
  | _ => none

/-- A grammar file must be named. -/
def finish? (arguments : Arguments) : Option Arguments :=
  if arguments.grammar.isSome then some arguments else none

/-- Read arguments from left to right. After two dashes alone there are no more options. -/
def read? (arguments : Arguments) : List String → Option Arguments
  | [] => arguments.finish?
  | argument :: rest =>
    if argument = "--" then (rest.foldl addPlain arguments).finish?
    else if argument.startsWith "-" = false then read? (arguments.addPlain argument) rest
    else
      match (arguments.setFlag? argument).or (arguments.setJoined? argument) with
      | some next => read? next rest
      | none =>
        match rest with
        | [] => none
        | value :: others =>
          match arguments.setValue? argument value with
          | some next => read? next others
          | none => none

end Arguments

/-- The characters of a file. Without the file there are none. -/
def readFile (name : String) : IO (Option (List Char)) := do
  try return some (← IO.FS.readFile name).toList
  catch _ => return none

/-- The exit code of an ending, and what is said about it at the end of the log. -/
def Ending.report : Ending → UInt32 × String
  | .status code => (code.toUInt32, "")
  | .badLimit => (2, "The derivation limit must be an integer\n")
  | .missingFile => (1, "A file that was named does not exist\n")
  | .failed error => (1, error.message ++ "\n")

/-- Run the command on the files that the arguments name. -/
def execute (arguments : Arguments) : IO UInt32 := do
  let grammarFile ← match arguments.grammar with
    | some name => readFile name
    | none => pure none
  let inputFile ← match arguments.input with
    | none => pure InputFile.notGiven
    | some name => do
      match ← readFile name with
      | some text => pure (.content text)
      | none => pure .missing
  let transcript := run Digraph.descendants arguments.options grammarFile inputFile
  let (code, note) := transcript.ending.report
  IO.print transcript.output
  IO.eprint (transcript.log ++ note)
  return code

end Earley.CommandLine

def main (arguments : List String) : IO UInt32 := do
  match Earley.CommandLine.Arguments.initial.read? arguments with
  | some arguments => Earley.CommandLine.execute arguments
  | none =>
    IO.eprintln "The arguments are a grammar file, options, and words"
    return 2

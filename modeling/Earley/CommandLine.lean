import Earley.Grammar.Dependency
import Earley.Grammar.Reader
import Earley.Parser.Outcome

/-! The command that checks words against a grammar: what it prints and how it ends, for given
options and files. -/
namespace Earley.CommandLine

/-- The options of the command. The limit is kept as it was typed. -/
structure Options where
  limit : Option (List Char)
  style : Style
  debug : Bool
  verbose : Bool
  words : List (List Char)

/-- The content of a file that an option names. -/
inductive InputFile where
  | notGiven
  | missing
  | content (text : List Char)

/-- How the command ends. -/
inductive Ending where
  | status (code : Nat)
  /-- The limit is no integer. -/
  | badLimit
  | missingFile
  | failed (error : Error)

/-- What the command wrote, and how it ended. -/
structure Transcript where
  ending : Ending
  output : String
  log : String

/-- A log line. The text of the event may have several lines of its own. -/
def logLine (event : Event) : String :=
  (match event.level with
    | .debug => "DEBUG"
    | .warning => "WARNING") ++ " " ++ event.channel ++ ": " ++ event.text ++ "\n"

def logLines (log : Log) : String := String.join (log.toList.map logLine)

/-- Whether an error speaks about the grammar or a word, and not about a wrong use. -/
def isReportable : Error → Bool
  | .misuse _ | .noSuchIndex => false
  | _ => true

/-- A warning if some nonterminals cannot be reached. -/
def warning (unreachable : List Char) : String :=
  if unreachable.isEmpty then ""
  else
    "Warning: unreachable non-terminals: "
      ++ ", ".intercalate (unreachable.map String.singleton) ++ "\n"

/-- The verdict about a word, and its derivation if there is one. -/
def describeOutcome (style : Style) (outcome : Outcome) : String :=
  "\n" ++ Text.quoted outcome.word ++ ": " ++ (outcome.verdict.text?.getD "") ++ "\n"
    ++ (match outcome.verdict with
        | .matched (some derivation) => derivation.format style ++ "\n"
        | _ => "")

/-- Check words one after the other, after what was already written. -/
def checkWords (parser : Parser) (style : Style) :
    List (List Char) → String → String → Transcript
  | [], output, log => ⟨.status 0, output, log⟩
  | word :: rest, output, log =>
    match parser.parse word with
    | .error error => ⟨.failed error, output, log⟩
    | .ok (outcome, events) =>
      checkWords parser style rest (output ++ describeOutcome style outcome)
        (log ++ logLines events)

/-- The limit that the options ask for. -/
def readLimit? (options : Options) : Option Int :=
  match options.limit with
  | none => some defaultLimit
  | some text => Text.readInteger? text

/-- The lines of a file of words. -/
def wordsOf (text : List Char) : List (List Char) :=
  (Text.Line.ofText (Text.unifyNewlines text)).map Text.Line.content

/-- The parser for the content of a grammar file. -/
def makeParser (text : List Char) (limit : Int) (debug : Bool) : Except Error Parser := do
  let g ← Grammar.read (Text.unifyNewlines text)
  Parser.ofGrammar g limit debug

/-- Run the command. A grammar that is no good is reported and ends it with status one, unless
the whole error is asked for. -/
def run (descendants : Digraph Letter → Letter → Except Error (List Letter)) (options : Options)
    (grammarFile : Option (List Char)) (inputFile : InputFile) : Transcript :=
  match readLimit? options, grammarFile with
  | none, _ => ⟨.badLimit, "", ""⟩
  | some _, none => ⟨.missingFile, "", ""⟩
  | some limit, some text =>
    match makeParser text limit options.debug with
    | .error error =>
      if isReportable error && !options.verbose then ⟨.status 1, error.message ++ "\n", ""⟩
      else ⟨.failed error, "", ""⟩
    | .ok parser =>
      let output := parser.grammar.format options.style ++ "\n"
      match parser.grammar.unreachable descendants with
      | .error error => ⟨.failed error, output, ""⟩
      | .ok unreachable =>
        let output := output ++ warning unreachable
        match inputFile with
        | .missing => ⟨.missingFile, output, ""⟩
        | .notGiven => checkWords parser options.style options.words output ""
        | .content text =>
          checkWords parser options.style (options.words ++ wordsOf text) output ""

end Earley.CommandLine

import Earley.Derivation.Search
import Earley.Parser.Charting

/-! Parsing a word: its chart, the verdict, and a derivation where one can be found. -/
namespace Earley

/-- What is known about a word. A match may lack a derivation, if the limit of the search was
too low. -/
inductive Verdict where
  /-- The word was not judged yet. -/
  | pending
  | noMatch
  | matched (derivation : Option Derivation)
deriving DecidableEq

/-- Whether the word is known to match. -/
def Verdict.matches : Verdict → Bool
  | .matched _ => true
  | _ => false

/-- The verdict in words. There are none before the word was judged. -/
def Verdict.text? : Verdict → Option String
  | .pending => none
  | .noMatch => some "no match"
  | .matched (some _) => some "match"
  | .matched none => some "match (derivation unavailable)"

/-- A judged word with its chart. -/
structure Outcome where
  word : List Char
  chart : Chart
  verdict : Verdict

def Outcome.inspect (outcome : Outcome) : String :=
  match outcome.verdict with
  | .pending => "Pending[" ++ Text.quoted outcome.word ++ "]"
  | .noMatch => "NoMatch[" ++ Text.quoted outcome.word ++ "]"
  | .matched derivation =>
    "Match[" ++ Text.quoted outcome.word ++ ", "
      ++ (derivation.map Derivation.inspect).getD "None" ++ "]"

namespace Parser

/-- The verdict about a match with the given identifier, with what was logged. That the limit was
reached is a warning, not an error. -/
def judge (parser : Parser) (chart : Chart) (id : Nat) (log : Log) :
    Except Error (Verdict × Log) :=
  match Derivation.derive chart id parser.limit parser.trace with
  | (.ok derivation, searchLog) => .ok (.matched derivation, log ++ searchLog)
  | (.error (.limitReached word limit), searchLog) =>
    .ok (.matched none, (log ++ searchLog).push (.gaveUp word limit))
  | (.error error, _) => .error error

/-- Parse a word, and give what was logged meanwhile. -/
def parse (parser : Parser) (word : List Char) : Except Error (Outcome × Log) := do
  let ⟨chart, log⟩ ← parser.makeChart word
  match ← chart.findMatch with
  | none => return (⟨word, chart, .noMatch⟩, log)
  | some id =>
    let (verdict, log) ← parser.judge chart id log
    return (⟨word, chart, verdict⟩, log)

end Parser

/-- Parse one word with the parser of a grammar. -/
def Grammar.parse (g : Grammar) (word : List Char) (limit : Int) (trace : Bool) :
    Except Error (Outcome × Log) := do
  (← Parser.ofGrammar g limit trace).parse word

end Earley

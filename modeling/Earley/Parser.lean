import Earley.Event
import Earley.Grammar

/-! Parsers: a valid grammar with a limit for the search of derivations. -/
namespace Earley

/-- The grammar of a parser was found valid when the parser was made. Debug events are logged
exactly if `trace` is set. -/
structure Parser where
  grammar : Grammar
  limit : Int
  trace : Bool
deriving DecidableEq

/-- The limit that is used where none is given. -/
def defaultLimit : Int := 50000

namespace Parser

/-- The parser of a valid grammar. The limit must not be negative. -/
def ofGrammar (g : Grammar) (limit : Int) (trace : Bool) : Except Error Parser := do
  g.validate
  if limit < 0 then .error (.misuse .negativeLimit) else return ⟨g, limit, trace⟩

def inspect (parser : Parser) : String := "EarleyParser[" ++ parser.grammar.inspect ++ "]"

end Parser

end Earley

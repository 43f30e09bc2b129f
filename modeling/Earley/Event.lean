import Earley.Chart

/-! What is logged while a word is parsed. -/
namespace Earley

/-- Debug events are only logged on demand. -/
inductive Level where
  | debug
  | warning
deriving DecidableEq

inductive Event where
  /-- A state is about to be used for prediction or completion. -/
  | examined (id : Nat) (entry : Entry)
  /-- No more states can be derived at a position. -/
  | closed (position : Nat) (chart : Chart)
  /-- The search goes on from a path with the given states and form. -/
  | dequeued (path : List State) (form : Form)
  /-- The search met more nodes than the limit allows. -/
  | gaveUp (word : List Char) (limit : Int)

/-- The events in the order in which they happened. -/
abbrev Log := Array Event

namespace Event

def level : Event → Level
  | .gaveUp .. => .warning
  | _ => .debug

/-- The part of the program that an event belongs to. -/
def channel : Event → String
  | .dequeued .. => "cfgmatch.derivation"
  | _ => "cfgmatch.earley"

def text : Event → String
  | .examined id entry => "Examining " ++ entry.format .plain id
  | .closed position chart =>
    "Chart after closing position " ++ toString position ++ ":\n" ++ chart.format .plain
  | .dequeued path form =>
    "Dequeue [" ++ ", ".intercalate (path.map fun state => Text.quoted (state.format .plain).toList)
      ++ "] " ++ form.format .plain
  | .gaveUp word limit =>
    (Error.limitReached word limit).message ++ ", reporting match without derivation"

end Event

end Earley

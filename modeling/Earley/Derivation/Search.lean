import Earley.Derivation
import Earley.Event

/-! Search for a path of back-pointers that yields a derivation of the word. A queue makes shorter
paths come first, and among paths of one length those that extend an earlier one, or by an earlier
back-pointer. -/
namespace Earley.Derivation

/-- A path from the completed seed, and the form that the complete states on it make of the start
symbol. The identifiers before the last are kept in reverse. -/
structure Node where
  last : Nat
  earlier : List Nat
  form : Form
deriving DecidableEq

/-- The identifiers of the path, the completed seed first. -/
def Node.path (node : Node) : List Nat := (node.last :: node.earlier).reverse

/-- Extend a path by a back-pointer. A complete state replaces the last occurrence of its left
side; if there is none, the state completes another parent, and the path cannot be extended. -/
def Node.extend? (node : Node) (id : Nat) (state : State) : Option Node :=
  if state.isComplete then
    if state.lhs.isTerminal then none
    else
      (node.form.replaceLast? state.lhs state.alternative).map fun form =>
        ⟨id, node.last :: node.earlier, form⟩
  else some ⟨id, node.last :: node.earlier, node.form⟩

/-- How a search ends: with a path, without any, or with more nodes than the limit. -/
inductive Finding where
  | found (path : List Nat)
  | exhausted
  | limitReached
deriving DecidableEq

/-- The paths that the search has still to go on from, in the order in which it met them. The newer
ones are kept in reverse. -/
structure Queue where
  front : List Node
  back : List Node

namespace Queue

def toList (queue : Queue) : List Node := queue.front ++ queue.back.reverse

def enqueue (queue : Queue) (node : Node) : Queue := { queue with back := node :: queue.back }

/-- The path that waits longest, and the others. -/
def dequeue? (queue : Queue) : Option (Node × Queue) :=
  match queue.front with
  | node :: front => some (node, { queue with front := front })
  | [] =>
    match queue.back.reverse with
    | node :: front => some (node, ⟨front, []⟩)
    | [] => none

theorem toList_enqueue (queue : Queue) (node : Node) :
    (queue.enqueue node).toList = queue.toList ++ [node] := by
  simp [toList, enqueue]

theorem toList_eq_nil {queue : Queue} (hNext : queue.dequeue? = none) : queue.toList = [] := by
  obtain ⟨front, back⟩ := queue
  rw [dequeue?] at hNext
  cases front with
  | cons first front => cases hNext
  | nil =>
      rw [toList, List.nil_append]
      split at hNext
      · cases hNext
      · split at hNext
        · cases hNext
        · assumption

theorem toList_of_dequeue? {queue rest : Queue} {node : Node}
    (hNext : queue.dequeue? = some (node, rest)) : queue.toList = node :: rest.toList := by
  obtain ⟨front, back⟩ := queue
  rw [dequeue?] at hNext
  cases front with
  | cons first front =>
      cases hNext
      rfl
  | nil =>
      rw [toList, List.nil_append]
      split at hNext
      · next hSome => cases hSome
      · next =>
        split at hNext
        · next hBack =>
          cases hNext
          simpa [toList] using hBack
        · cases hNext

end Queue

/-- Extend a path by back-pointers, one after the other. An extension whose form is the word ends
the search. Any other one has to wait, and counts; the search ends when too many were counted. -/
def Node.expand (chart : Chart) (limit : Int) (node : Node) :
    List Nat → Queue → Nat → Except Finding (Queue × Nat)
  | [], queue, count => .ok (queue, count)
  | id :: rest, queue, count =>
    match (chart.state? id).bind (node.extend? id) with
    | none => node.expand chart limit rest queue count
    | some child =>
      if child.form = Form.ofWord chart.word then .error (.found child.path)
      else if limit < ((count + 1 : Nat) : Int) then .error .limitReached
      else node.expand chart limit rest (queue.enqueue child) (count + 1)

/-- The event that a search goes on from a node. -/
def Node.event (chart : Chart) (node : Node) : Event :=
  .dequeued (node.path.filterMap chart.state?) node.form

/-- A path that has to wait was counted, and those that may still be counted become fewer. -/
theorem Node.length_expand {chart : Chart} {limit : Int} {node : Node} {ids : List Nat}
    {queue next : Queue} {count newCount : Nat}
    (hExpand : node.expand chart limit ids queue count = .ok (next, newCount)) :
    next.toList.length + (limit.toNat - newCount) =
      queue.toList.length + (limit.toNat - count) := by
  induction ids generalizing queue count with
  | nil =>
      cases hExpand
      rfl
  | cons id rest ih =>
      rw [expand] at hExpand
      split at hExpand
      · exact ih hExpand
      · split at hExpand
        · cases hExpand
        · split at hExpand
          · cases hExpand
          · have hRest := ih hExpand
            rw [Queue.toList_enqueue, List.length_append, List.length_singleton] at hRest
            omega

/-- Go on from the paths in the queue, in order, until one of their extensions ends the search. -/
def search (chart : Chart) (limit : Int) (trace : Bool) (queue : Queue) (count : Nat) (log : Log) :
    Finding × Log :=
  match _ : queue.dequeue? with
  | none => (.exhausted, log)
  | some (node, rest) =>
    let log := if trace then log.push (node.event chart) else log
    match _ : node.expand chart limit (chart.pointers node.last) rest count with
    | .error finding => (finding, log)
    | .ok (next, newCount) => search chart limit trace next newCount log
termination_by queue.toList.length + (limit.toNat - count)
decreasing_by
  rw [Node.length_expand ‹node.expand .. = _›, Queue.toList_of_dequeue? ‹queue.dequeue? = _›]
  exact Nat.add_lt_add_right (Nat.lt_succ_self _) _

/-- Find the states of a derivation, from the completed seed on. The limit bounds the number of
nodes that are met before the path. What was logged is kept also if the limit is reached. -/
def findPath (chart : Chart) (id : Nat) (limit : Int) (trace : Bool) :
    Except Error (Option (List Nat)) × Log :=
  match chart.state id with
  | .error error => (.error error, #[])
  | .ok state =>
    if state.isCompleteParse = false then (.error (.misuse .notCompleteParse), #[])
    else
      match search chart limit trace ⟨[⟨id, [], state.alternative⟩], []⟩ 0 #[] with
      | (.found path, log) => (.ok (some path), log)
      | (.exhausted, log) => (.ok none, log)
      | (.limitReached, log) => (.error (.limitReached chart.word limit), log)

/-- Find a derivation, if there is one. -/
def derive (chart : Chart) (id : Nat) (limit : Int) (trace : Bool) :
    Except Error (Option Derivation) × Log :=
  match findPath chart id limit trace with
  | (.error error, log) => (.error error, log)
  | (.ok none, log) => (.ok none, log)
  | (.ok (some path), log) => ((ofPath chart path).map some, log)

end Earley.Derivation

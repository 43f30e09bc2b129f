import Earley.Symbol

/-! Productions: one left side with all its alternatives. -/
namespace Earley

/-- All rules of one left side, in the order in which their alternatives were first given. -/
structure Production where
  lhs : Letter
  alternatives : List Form
deriving DecidableEq

/-- Add an alternative at the end, unless it is there already. -/
def addAlternative (alternatives : List Form) (alternative : Form) : List Form :=
  if alternative ∈ alternatives then alternatives else alternatives ++ [alternative]

/-- Add alternatives one after the other. Repetitions are dropped, also those among the new
alternatives. -/
def addAlternatives (alternatives added : List Form) : List Form :=
  added.foldl addAlternative alternatives

theorem nodup_addAlternative {alternatives : List Form} (hNodup : alternatives.Nodup)
    (alternative : Form) : (addAlternative alternatives alternative).Nodup := by
  unfold addAlternative
  split
  · exact hNodup
  · next hNew =>
    refine List.nodup_append.mpr ⟨hNodup, by simp, fun other hOther last hLast hSame => ?_⟩
    rw [List.mem_singleton.mp hLast] at hSame
    exact hNew (hSame ▸ hOther)

/-- Adding alternatives never makes a repetition. -/
theorem nodup_addAlternatives {alternatives : List Form} (hNodup : alternatives.Nodup)
    (added : List Form) : (addAlternatives alternatives added).Nodup := by
  induction added generalizing alternatives with
  | nil => exact hNodup
  | cons alternative rest ih => exact ih (nodup_addAlternative hNodup alternative)

/-- Adding alternatives keeps the old ones in front. -/
theorem isPrefix_addAlternatives (alternatives added : List Form) :
    ∃ new, addAlternatives alternatives added = alternatives ++ new := by
  induction added generalizing alternatives with
  | nil => exact ⟨[], by simp [addAlternatives]⟩
  | cons alternative rest ih =>
    obtain ⟨new, hNew⟩ := ih (addAlternative alternatives alternative)
    change ∃ new, addAlternatives (addAlternative alternatives alternative) rest = _
    rw [hNew, addAlternative]
    split
    · exact ⟨new, rfl⟩
    · exact ⟨alternative :: new, by simp⟩

namespace Production

/-- The production of a left side, with each alternative kept once. -/
def ofAlternatives (lhs : Letter) (alternatives : List Form) : Production :=
  ⟨lhs, addAlternatives [] alternatives⟩

def contains (production : Production) (alternative : Form) : Bool :=
  production.alternatives.contains alternative

/-- The left side, an arrow, and the alternatives separated by bars. -/
def format (style : Style) (production : Production) : String :=
  (Symbol.nonterminal production.lhs).format style ++ " -> "
    ++ " | ".intercalate (production.alternatives.map (Form.format style))

/-- The production with name and kind of every symbol, for diagnostics. -/
def inspect (production : Production) : String :=
  "Production[" ++ Text.quoted production.lhs.toList ++ " -> "
    ++ " | ".intercalate (production.alternatives.map Form.inspect) ++ "]"

end Production

end Earley

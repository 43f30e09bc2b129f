/-! Fields of a text: the parts between the occurrences of one separator character. -/
namespace Earley.Text

/-- Cut a text at every occurrence of the separator. There is always one field more than there
are separators, so the empty text has one empty field. -/
def fields (separator : Char) : List Char → List (List Char)
  | [] => [[]]
  | c :: rest =>
    if c = separator then [] :: fields separator rest
    else
      match fields separator rest with
      | [] => [[c]]
      | field :: others => (c :: field) :: others

/-- Join fields with a text between each two of them. -/
def join (separator : List Char) : List (List Char) → List Char
  | [] => []
  | [field] => field
  | field :: others => field ++ separator ++ join separator others

theorem fields_ne_nil (separator : Char) (text : List Char) : fields separator text ≠ [] := by
  fun_cases fields separator text <;> simp_all

/-- The separators are all that a cut takes away. -/
theorem join_fields (separator : Char) (text : List Char) :
    join [separator] (fields separator text) = text := by
  induction text with
  | nil => rfl
  | cons c rest ih =>
    rw [fields]
    split
    · next hSame =>
      obtain ⟨field, others, hFields⟩ := List.exists_cons_of_ne_nil (fields_ne_nil separator rest)
      rw [hFields] at ih ⊢
      simp [join, ih, hSame]
    · split
      · next hNil => exact absurd hNil (fields_ne_nil separator rest)
      · next field others hFields =>
        rw [hFields] at ih
        cases others <;> simp_all [join]

end Earley.Text

/-! # Pieces between separators

`splitAt` cuts a run of characters at every separator.  The pieces may be empty; there is one more
of them than separators, and no separator is in them. -/

namespace ProtoSchema.Text

/-- The pieces of `cs` between its separators `sep`. -/
def splitAt (sep : Char) : List Char → List (List Char)
  | [] => [[]]
  | c :: cs =>
    if c = sep then [] :: splitAt sep cs
    else
      match splitAt sep cs with
      | [] => [[c]]
      | p :: ps => (c :: p) :: ps

/-- The pieces of a text between its separators. -/
def split (sep : Char) (s : String) : List String := (splitAt sep s.toList).map String.ofList

theorem splitAt_ne_nil (sep : Char) (cs : List Char) : splitAt sep cs ≠ [] := by
  fun_cases splitAt sep cs <;> simp_all

theorem not_mem_of_mem_splitAt {sep : Char} {cs p : List Char} (h : p ∈ splitAt sep cs) :
    sep ∉ p := by
  fun_induction splitAt sep cs generalizing p with
  | case1 => simp_all
  | case2 cs ih =>
    simp only [List.mem_cons] at h
    rcases h with rfl | h
    · simp
    · exact ih h
  | case3 c cs hc hs => exact absurd hs (splitAt_ne_nil _ _)
  | case4 c cs hc q qs hs ih =>
    simp only [List.mem_cons] at h
    rcases h with rfl | h
    · simp only [List.mem_cons, not_or]
      exact ⟨fun e => hc e.symm, ih (by rw [hs]; simp)⟩
    · exact ih (by rw [hs]; simp [h])

example : split '.' "a..b" = ["a", "", "b"] := by decide +kernel

end ProtoSchema.Text

import ProtoSchema.Proofs.Token.Texts

/-! # The text of a dotted name

Every text is that of the name it spells (`text_ofText`), and a name of identifiers is spelled by its
text (`ofText_text`). -/

namespace ProtoSchema

/-! ### Pieces between separators -/

namespace Text

variable {sep : Char} {p cs : List Char}

theorem splitAt_of_not_mem (h : sep ∉ p) : splitAt sep p = [p] := by
  induction p with
  | nil => rfl
  | cons c p ih =>
    rw [List.mem_cons, not_or] at h
    rw [splitAt, if_neg fun hc => h.1 hc.symm, ih h.2]

theorem splitAt_append (h : sep ∉ p) : splitAt sep (p ++ sep :: cs) = p :: splitAt sep cs := by
  induction p with
  | nil => rw [List.nil_append, splitAt, if_pos rfl]
  | cons c p ih =>
    rw [List.mem_cons, not_or] at h
    rw [List.cons_append, splitAt, if_neg fun hc => h.1 hc.symm, ih h.2]

/-- Between the pieces of a run stands the separator. -/
theorem splitAt_eq_cons {ps : List (List Char)} (h : splitAt sep cs = p :: ps) :
    ps = [] ∧ cs = p ∨ ∃ rest, cs = p ++ sep :: rest ∧ splitAt sep rest = ps := by
  induction cs generalizing p with
  | nil =>
    cases h
    exact .inl ⟨rfl, rfl⟩
  | cons c cs ih =>
    rw [splitAt] at h
    split at h
    · next hc =>
      cases h
      exact .inr ⟨cs, by rw [hc]; rfl, rfl⟩
    · cases hs : splitAt sep cs with
      | nil => exact absurd hs (splitAt_ne_nil _ _)
      | cons q qs =>
        rw [hs] at h
        cases h
        rcases ih hs with ⟨rfl, rfl⟩ | ⟨rest, rfl, hrest⟩
        · exact .inl ⟨rfl, rfl⟩
        · exact .inr ⟨rest, rfl, hrest⟩

/-- Joining the pieces of a text gives the text. -/
theorem intercalate_split (s : String) : (String.singleton sep).intercalate (split sep s) = s := by
  suffices h : ∀ (ps : List (List Char)) (cs : List Char), splitAt sep cs = ps →
      (String.singleton sep).intercalate (ps.map String.ofList) = String.ofList cs by
    rw [split, h _ _ rfl, String.ofList_toList]
  intro ps
  induction ps with
  | nil => exact fun cs h => absurd h (splitAt_ne_nil _ _)
  | cons p ps ih =>
    intro cs h
    rcases splitAt_eq_cons h with ⟨rfl, rfl⟩ | ⟨rest, rfl, hrest⟩
    · rw [List.map_singleton, String.intercalate_singleton]
    · have hjoined := ih rest hrest
      obtain ⟨q, qs, rfl⟩ := List.exists_cons_of_ne_nil (hrest ▸ splitAt_ne_nil sep rest)
      rw [List.map_cons, List.map_cons, String.intercalate_cons_cons, ← List.map_cons, hjoined,
        String.append_assoc, String.ofList_append, String.ofList_cons]

end Text

/-! ### Dotted names -/

namespace DottedName

variable {name : DottedName}

/-- Joining takes back what splitting has taken apart. -/
theorem text_ofText (s : String) : (ofText s).text = s := by
  unfold ofText
  split
  · next h => rw [h]; rfl
  · exact Text.intercalate_split s

theorem not_mem_of_isName {w : String} (h : IsName w) : '.' ∉ w.toList := by
  obtain ⟨c, cs, hw, hword⟩ := h
  rw [hw, List.mem_cons]
  rintro (rfl | hmem)
  · exact absurd hword.start (by decide)
  · exact absurd (hword.more _ hmem) (by decide)

theorem split_text {w : String} {ws : List String} (h : ∀ v ∈ w :: ws, IsName v) :
    Text.split '.' (text (w :: ws)) = w :: ws := by
  induction ws generalizing w with
  | nil =>
    rw [text, String.intercalate_singleton, Text.split,
      Text.splitAt_of_not_mem (not_mem_of_isName (h w (List.mem_singleton_self w))),
      List.map_singleton, String.ofList_toList]
  | cons v vs ih =>
    rw [List.forall_mem_cons] at h
    have htext : (text (w :: v :: vs)).toList = w.toList ++ '.' :: (text (v :: vs)).toList := by
      rw [text, String.intercalate_cons_cons, String.append_assoc, String.toList_append,
        String.toList_append]
      rfl
    rw [Text.split, htext, Text.splitAt_append (not_mem_of_isName h.1), List.map_cons,
      String.ofList_toList]
    exact congrArg _ (ih h.2)

theorem text_ne_empty {w : String} {ws : List String} (h : IsName w) : text (w :: ws) ≠ "" := by
  obtain ⟨more, hmore⟩ := exists_intercalate_cons "." w ws
  obtain ⟨c, cs, hw, -⟩ := h
  intro he
  rw [text, hmore] at he
  have hlist := congrArg String.toList he
  rw [String.toList_append, hw] at hlist
  cases hlist

/-- The text of a name spells that name. -/
theorem ofText_text (h : ∀ w ∈ name, IsIdent w) : ofText name.text = name := by
  have hwords : ∀ w ∈ name, IsName w := fun w hw => (h w hw).word
  cases name with
  | nil => rfl
  | cons w ws =>
    rw [ofText, if_neg (text_ne_empty (hwords w (List.mem_cons_self ..))), split_text hwords]

end DottedName

end ProtoSchema

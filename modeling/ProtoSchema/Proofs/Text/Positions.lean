import Mathlib.Data.List.DropRight
import Mathlib.Data.String.Basic
import ProtoSchema.Text.Position

/-! # Places in a text

An offset is the place between two characters of a text if it counts the bytes of some front part of it
(`isValid_iff`).  There the line is one more than the number of newlines in front, and the column is one
more than the number of bytes behind the last of them (`Position.inText_eq`). -/

namespace ProtoSchema

theorem byteSize_eq_utf8Len : ∀ cs : List Char, byteSize cs = String.utf8Len cs
  | [] => rfl
  | c :: cs => by
    have ih := byteSize_eq_utf8Len cs
    simp only [byteSize_cons, String.utf8Len_cons]
    omega

@[simp] theorem byteSize_toList (s : String) : byteSize s.toList = s.utf8ByteSize := by
  rw [byteSize_eq_utf8Len, ← String.utf8ByteSize_ofList, String.ofList_toList]

/-- The places between the characters of a text are behind its front parts. -/
theorem isValid_iff {text : String} {offset : Nat} :
    String.Pos.Raw.IsValid text ⟨offset⟩ ↔ ∃ front, front <+: text.toList ∧ byteSize front = offset := by
  rw [String.Pos.Raw.isValid_iff_exists_append]
  constructor
  · rintro ⟨front, back, rfl, hoffset⟩
    refine ⟨front.toList, ⟨back.toList, String.toList_append.symm⟩, ?_⟩
    rw [byteSize_toList]
    exact (congrArg String.Pos.Raw.byteIdx hoffset).symm
  · rintro ⟨front, ⟨back, htext⟩, rfl⟩
    refine ⟨String.ofList front, String.ofList back, ?_, ?_⟩
    · rw [← String.ofList_append, htext, String.ofList_toList]
    · rw [byteSize_eq_utf8Len, ← String.utf8ByteSize_ofList]
      rfl

/-- The span is a stretch of characters of the text. -/
structure Span.Within (sp : Span) (text : String) : Prop where
  ordered : sp.start ≤ sp.stop
  inside : sp.stop ≤ text.utf8ByteSize
  start : String.Pos.Raw.IsValid text ⟨sp.start⟩
  stop : String.Pos.Raw.IsValid text ⟨sp.stop⟩

/-! ### Lines and columns -/

/-- The position right behind the text `front`. -/
def Position.behind (front : List Char) : Position :=
  ⟨1 + front.count '\n', 1 + byteSize (front.rtakeWhile (· ≠ '\n'))⟩

namespace LineIndex

theorem startsFrom_append (offset : Nat) (cs ds : List Char) :
    startsFrom offset (cs ++ ds) = startsFrom offset cs ++ startsFrom (offset + byteSize cs) ds := by
  induction cs generalizing offset with
  | nil => rfl
  | cons c cs ih =>
    simp only [List.cons_append, startsFrom, byteSize_cons]
    rw [ih, ← Nat.add_assoc]
    split <;> rfl

theorem mem_startsFrom {start offset : Nat} {cs : List Char} (h : start ∈ startsFrom offset cs) :
    offset < start ∧ start ≤ offset + byteSize cs := by
  induction cs generalizing offset with
  | nil => cases h
  | cons c cs ih =>
    have hpos := c.utf8Size_pos
    simp only [startsFrom] at h
    rw [byteSize_cons]
    split at h
    · obtain rfl | h := List.mem_cons.mp h
      · omega
      · have := ih h
        omega
    · have := ih h
      omega

theorem length_startsFrom (offset : Nat) (cs : List Char) :
    (startsFrom offset cs).length = cs.count '\n' := by
  induction cs generalizing offset with
  | nil => rfl
  | cons c cs ih =>
    simp only [startsFrom, List.count_cons, beq_iff_eq]
    split
    · rw [List.length_cons, ih]
    · rw [ih, Nat.add_zero]

/-- The last line of a text is what stands behind its last newline. -/
theorem getLastD_startsFrom (cs : List Char) :
    (startsFrom 0 cs).getLastD 0 + byteSize (cs.rtakeWhile (· ≠ '\n')) = byteSize cs := by
  induction cs using List.reverseRecOn with
  | nil => rfl
  | append_singleton cs c ih =>
    rw [startsFrom_append, byteSize_append]
    by_cases hc : c = '\n'
    · subst hc
      simp [startsFrom]
    · rw [List.rtakeWhile_concat_pos _ _ _ (by simpa using hc), byteSize_append]
      simp only [startsFrom, hc, if_false, List.append_nil]
      omega

/-- Behind `front`, the lines that have begun are those that begin in `front`. -/
theorem takeWhile_startsFrom (front back : List Char) :
    (startsFrom 0 (front ++ back)).takeWhile (· ≤ byteSize front) = startsFrom 0 front := by
  rw [startsFrom_append, List.takeWhile_append_of_pos]
  · suffices h : (startsFrom (0 + byteSize front) back).takeWhile (· ≤ byteSize front) = [] by
      rw [h, List.append_nil]
    cases hstarts : startsFrom (0 + byteSize front) back with
    | nil => rfl
    | cons start starts =>
      have := (mem_startsFrom (hstarts ▸ List.mem_cons_self : start ∈ startsFrom (0 + byteSize front) back)).1
      rw [List.takeWhile_cons_of_neg]
      simp only [decide_eq_true_eq]
      omega
  · intro start hstart
    have := (mem_startsFrom hstart).2
    simp only [decide_eq_true_eq]
    omega

end LineIndex

/-- The position between two parts of a text is right behind the first of them. -/
theorem Position.inText_eq {text : String} {front back : List Char} (h : text.toList = front ++ back) :
    Position.inText text (byteSize front) = Position.behind front := by
  have hlast := LineIndex.getLastD_startsFrom front
  simp only [Position.inText, LineIndex.ofText, LineIndex.position, Position.behind, h,
    LineIndex.takeWhile_startsFrom, LineIndex.length_startsFrom, Position.mk.injEq]
  omega

end ProtoSchema

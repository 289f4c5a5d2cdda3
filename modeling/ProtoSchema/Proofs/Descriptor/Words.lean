import ProtoSchema.Proofs.Descriptor.Contents

/-! # The numbers of descriptors in words

Where numbers are computed in words of 32 bits, a descriptor takes the number of a field and both ends of a
range out of words without a sign into words with one, and adds one to the end of a range there.  No legible
declaration has a number for which one of these steps wraps around (`exportsExactly`). -/

namespace ProtoSchema

namespace FieldNumber

theorem isValid_iff {n : Nat} :
    isValid n = true ↔ 1 ≤ n ∧ n ≤ 536870911 ∧ ¬(19000 ≤ n ∧ n ≤ 19999) := by
  show _ ↔ 1 ≤ n ∧ n ≤ max ∧ _
  simp only [isValid, Bool.and_eq_true, Bool.not_eq_true', decide_eq_true_eq, and_assoc,
    ← Bool.not_eq_true]

/-- A number in a word without a sign, taken over into a word with a sign. -/
def word (n : Nat) : Int32 := (UInt32.ofNat n).toInt32

theorem toInt_word {n : Nat} (h : n < 2147483648) : (word n).toInt = n := by
  rw [word, UInt32.toInt32_ofNat', Int32.toInt_ofNat_of_lt h]

/-- One more fits into a word as well, if it is below the bound. -/
theorem toInt_word_add_one {n : Nat} (h : n + 1 < 2147483648) : (word n + 1).toInt = n + 1 := by
  rw [Int32.toInt_add, toInt_word (Nat.lt_of_succ_lt h)]
  exact Int.bmod_eq_of_le (by simp; omega) (by simp; omega)

end FieldNumber

/-- An enum number in a word with a sign. -/
theorem toInt_ofInt_of_isEnumNumber {n : Int} (h : Event.isEnumNumber n = true) :
    (Int32.ofInt n).toInt = n := by
  simp only [Event.isEnumNumber, Bool.and_eq_true, decide_eq_true_eq] at h
  exact Int32.toInt_ofInt_of_le (by omega) (by omega)

/-- A half-open range holds the numbers of a range with both its ends, and both of its ends are what words
yield for those. -/
structure HalfOpenRange.Renders (h : HalfOpenRange) (r : NumberRange) : Prop where
  start : (FieldNumber.word r.first).toInt = h.start
  stop : (FieldNumber.word r.last + 1).toInt = h.stop
  contains : ∀ n, h.contains n = true ↔ r.contains n = true

theorem NumberRange.Legible.renders {r : NumberRange} (h : r.Legible) : r.halfOpen.Renders r := by
  have hlast := h.last
  have hordered := h.ordered
  simp only [FieldNumber.max] at hlast
  refine ⟨FieldNumber.toInt_word (by omega), ?_, fun n => by rw [contains_halfOpen]⟩
  rw [FieldNumber.toInt_word_add_one (by omega)]
  rfl

/-- The number of a field is valid, and the same in a word. -/
structure Descriptor.Field.InBounds (d : Descriptor.Field) : Prop where
  valid : FieldNumber.isValid d.number = true
  word : (FieldNumber.word d.number).toInt = d.number

theorem Descriptor.Field.inBounds_of_isValid {d : Descriptor.Field} (h : FieldNumber.isValid d.number = true) :
    d.InBounds := by
  have hmax := FieldNumber.le_max_of_isValid h
  simp only [FieldNumber.max] at hmax
  exact ⟨h, FieldNumber.toInt_word (by omega)⟩

namespace Pool

variable {pool : Pool} {f : FileId}

open Descriptor (absolute)

/-- The descriptor of a file leaves out nothing of the file, its numbers are in their bounds and the same in
words, and its ranges hold the numbers that are in those of the file. -/
structure ExportsExactly (pool : Pool) (f : FileId) : Prop where
  complete : pool.Exports f (pool.descriptor f)
  field : ∀ name m, (pool.descriptor f).Declares name m → ∀ d ∈ m.fields, d.InBounds
  extension : ∀ d, (pool.descriptor f).HoldsExtension d → d.InBounds
  /-- The ranges are those of a message of the file, one by one; the entry message of a map has none. -/
  ranges : ∀ name m, (pool.descriptor f).Declares name m →
    (m.isMapEntry = true ∧ m.extensionRanges = [] ∧ m.reservedRanges = []) ∨
      ∃ b, pool.BlockOf f b ∧ name = absolute (pool.block b).fullName ∧
        List.Forall₂ HalfOpenRange.Renders m.extensionRanges (pool.block b).extensionRanges ∧
        List.Forall₂ HalfOpenRange.Renders m.reservedRanges (pool.block b).reservedRanges
  /-- The numbers of an enum are those of an enum of the file, one by one. -/
  value : ∀ name E, (pool.descriptor f).DeclaresEnum name E →
    ∃ e, pool.EnumOf f e ∧ E.values.map Prod.snd = (pool.enum e).values.keys ∧
      ∀ v ∈ E.values, (Int32.ofInt v.2).toInt = v.2

theorem renders_all {rs : List NumberRange} (h : ∀ r ∈ rs, r.Legible) :
    List.Forall₂ HalfOpenRange.Renders (rs.map NumberRange.halfOpen) rs := by
  rw [List.forall₂_map_left_iff, List.forall₂_same]
  exact fun r hr => (h r hr).renders

theorem exportsExactly (hw : pool.WellFormed) (hl : pool.Legible) (hf : pool.HasFile f) :
    pool.ExportsExactly f where
  complete := exports_descriptor hw hl f
  field name m hm d hd := by
    obtain ⟨b, hb, -, ⟨-, rfl⟩ | ⟨g, -, key, -, rfl⟩⟩ := of_declares hw hl hf hm
    · obtain ⟨g, hg, rfl⟩ := hw.mem_fieldDescriptors_iff.mp hd
      exact Descriptor.Field.inBounds_of_isValid (hl.field g (hw.mem_fields_iff.mp hg).1).number
    · -- the fields of an entry message are numbered by one and two
      rcases List.mem_cons.mp hd with rfl | hd
      · exact Descriptor.Field.inBounds_of_isValid rfl
      · rw [List.mem_singleton] at hd
        subst hd
        exact Descriptor.Field.inBounds_of_isValid rfl
  extension d hd := by
    obtain ⟨x, -, -, hmem⟩ := of_holdsExtension hw hl hf hd
    obtain ⟨g, hg, rfl⟩ := List.mem_map.mp hmem
    exact Descriptor.Field.inBounds_of_isValid (hl.field g (hw.mem_fields_iff.mp hg).1).number
  ranges name m hm := by
    obtain ⟨b, hb, -, ⟨rfl, rfl⟩ | ⟨g, -, key, -, rfl⟩⟩ := of_declares hw hl hf hm
    · refine .inr ⟨b, hb, rfl, ?_⟩
      rw [hw.messageDescriptor_eq]
      have hlegible := hl.block b hb.1
      exact ⟨renders_all hlegible.extensionRanges, renders_all hlegible.reservedRanges⟩
    · exact .inl ⟨rfl, rfl, rfl⟩
  value name E hE := by
    obtain ⟨e, he, rfl⟩ := of_declaresEnum hw hl hf hE
    refine ⟨e, he, by rw [enumDescriptor, List.map_map]; rfl, fun v hv => ?_⟩
    obtain ⟨entry, hentry, rfl⟩ := List.mem_map.mp hv
    exact toInt_ofInt_of_isEnumNumber ((hl.enum e he.1).values entry hentry).number

end Pool

end ProtoSchema

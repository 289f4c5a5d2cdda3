import ProtoSchema.Proofs.Compiler.Runs
import ProtoSchema.Proofs.Session.Numbers

/-! # Wire numbers

On the wire a field of a message is known by its number alone.  After any calls, no two fields of a
message of a complete file have one number, its extensions in complete files counted among them; and
extension numbers are in use for those extensions and for nothing else (`numbers_after`). -/

namespace ProtoSchema.Compiler

variable {c : Compiler}

/-- `m` is a message of a complete file. -/
def IsMessage (c : Compiler) (m : BlockId) : Prop :=
  ∃ f, c.session.Registered f ∧ m ∈ c.pool.blocksOf f ∧ (c.pool.block m).isExtend = false

/-- `d` is a field that the message `m` declares itself. -/
def OwnField (c : Compiler) (m : BlockId) (d : FieldId) : Prop :=
  d ∈ (c.pool.block m).fields.values

/-- `d` is a field of an extend block in a complete file that is bound to the message `m`. -/
def Extension (c : Compiler) (m : BlockId) (d : FieldId) : Prop :=
  ∃ f b type, c.session.Registered f ∧ b ∈ c.pool.blocksOf f ∧
    (c.pool.block b).heading = .extend type (some (.message m)) ∧
      d ∈ (c.pool.block b).fields.values

/-- The number of a field. -/
def number (c : Compiler) (d : FieldId) : Nat := (c.pool.field d).number.value

/-- What is so of the numbers of fields. -/
structure NumbersSafe (c : Compiler) : Prop where
  distinct : ∀ m d e, c.IsMessage m → c.OwnField m d ∨ c.Extension m d →
    c.OwnField m e ∨ c.Extension m e → c.number d = c.number e → d = e
  inRange : ∀ m d, c.Extension m d →
    ∃ range ∈ (c.pool.block m).extensionRanges, range.contains (c.number d) = true
  own : ∀ m d, c.IsMessage m → c.OwnField m d →
    (∀ range ∈ (c.pool.block m).extensionRanges, range.contains (c.number d) = false) ∧
    (∀ range ∈ (c.pool.block m).reservedRanges, range.contains (c.number d) = false) ∧
    (c.pool.field d).name.value ∉ (c.pool.block m).reservedNames
  inUse : ∀ m n d, c.pool.extensions.find? (m, n) = some d ↔ c.Extension m d ∧ c.number d = n

theorem fieldFault_eq_none_iff {b : Block} {d : Field} : Pool.fieldFault b d = none ↔
    (∀ range ∈ b.extensionRanges, range.contains d.number.value = false) ∧
      (∀ range ∈ b.reservedRanges, range.contains d.number.value = false) ∧
        d.name.value ∉ b.reservedNames := by
  simp only [Pool.fieldFault]
  split
  · next h =>
    obtain ⟨range, hr, hn⟩ := List.any_eq_true.mp h
    exact iff_of_false (by simp) fun hall => by simp [hall.2.1 range hr] at hn
  · next hreserved =>
    split
    · next h => exact iff_of_false (by simp) fun hall => hall.2.2 (by simpa using h)
    · next hname =>
      split
      · next h =>
        obtain ⟨range, hr, hn⟩ := List.any_eq_true.mp h
        exact iff_of_false (by simp) fun hall => by simp [hall.1 range hr] at hn
      · next hrange =>
        have hno : ∀ {rs : List NumberRange}, ¬rs.any (·.contains d.number.value) = true →
            ∀ range ∈ rs, range.contains d.number.value = false := fun h range hr =>
          Bool.eq_false_iff.mpr fun hn => h (List.any_eq_true.mpr ⟨range, hr, hn⟩)
        exact iff_of_true rfl ⟨hno hrange, hno hreserved, by simpa using hname⟩

section invariants

variable (hs : Session.Sound (c.session, [])) (hn : Session.Numbered c.session)
include hs

/-- The extensions of a message, as the pool knows them. -/
theorem extension_iff {m : BlockId} {d : FieldId} : c.Extension m d ↔
    ∃ f, c.session.Registered f ∧ c.pool.FieldOf f d ∧ c.pool.Extends m (c.number d) d := by
  constructor
  · rintro ⟨f, b, type, hf, hb, hh, hd⟩
    obtain ⟨hd', rfl⟩ := hs.tree.mem_fields_iff.mp hd
    exact ⟨f, hf, ⟨hd', (hs.tree.mem_blocksOf_iff (hs.hasFile hf)).mp hb⟩, ⟨type, hh⟩, rfl⟩
  · rintro ⟨f, hf, ⟨hd, hb⟩, ⟨type, hh⟩, -⟩
    exact ⟨f, _, type, hf, (hs.tree.mem_blocksOf_iff (hs.hasFile hf)).mpr hb, hh,
      hs.tree.mem_fields_iff.mpr ⟨hd, rfl⟩⟩

include hn

theorem extensions_inUse (m : BlockId) (n : Nat) (d : FieldId) :
    c.pool.extensions.find? (m, n) = some d ↔ c.Extension m d ∧ c.number d = n := by
  rw [extension_iff hs]
  refine (hn.inUse m n d).trans ⟨?_, ?_⟩
  · rintro ⟨f, hf, hd, ht, rfl⟩
    exact ⟨⟨f, hf, hd, ht, rfl⟩, rfl⟩
  · rintro ⟨⟨f, hf, hd, he⟩, rfl⟩
    exact ⟨f, hf, hd, he⟩

theorem extension_inRange {m : BlockId} {d : FieldId} (h : c.Extension m d) :
    ∃ range ∈ (c.pool.block m).extensionRanges, range.contains (c.number d) = true := by
  obtain ⟨f, hf, hd, he⟩ := (extension_iff hs).mp h
  exact hn.room f d m _ hf hd he

theorem ownField_fits {m : BlockId} {d : FieldId} (hm : c.IsMessage m) (hd : c.OwnField m d) :
    (∀ range ∈ (c.pool.block m).extensionRanges, range.contains (c.number d) = false) ∧
    (∀ range ∈ (c.pool.block m).reservedRanges, range.contains (c.number d) = false) ∧
    (c.pool.field d).name.value ∉ (c.pool.block m).reservedNames := by
  obtain ⟨f, hf, hb, hx⟩ := hm
  have hb := (hs.tree.mem_blocksOf_iff (hs.hasFile hf)).mp hb
  exact fieldFault_eq_none_iff.mp ((hn.fits f m hf hb).message hx d hd)

/-- An own field and an extension of a message have different numbers. -/
theorem number_ne {m : BlockId} {d e : FieldId} (hm : c.IsMessage m) (hd : c.OwnField m d)
    (he : c.Extension m e) : c.number d ≠ c.number e := by
  intro h
  obtain ⟨range, hr, hin⟩ := extension_inRange hs hn he
  rw [← h, (ownField_fits hs hn hm hd).1 range hr] at hin
  cases hin

theorem numbersSafe : c.NumbersSafe where
  distinct m d e hm hd he hne := by
    rcases hd with hd | hd <;> rcases he with he | he
    · obtain ⟨hd, hdb⟩ := hs.tree.mem_fields_iff.mp hd
      obtain ⟨he, heb⟩ := hs.tree.mem_fields_iff.mp he
      have h₁ := (hs.tree.field_iff m _ d).mpr ⟨hd, hdb, hne⟩
      have h₂ := (hs.tree.field_iff m _ e).mpr ⟨he, heb, rfl⟩
      exact Option.some.inj (h₁.symm.trans h₂)
    · exact absurd hne (number_ne hs hn hm hd he)
    · exact absurd hne.symm (number_ne hs hn hm he hd)
    · have h₁ := (extensions_inUse hs hn m _ d).mpr ⟨hd, hne⟩
      have h₂ := (extensions_inUse hs hn m _ e).mpr ⟨he, rfl⟩
      exact Option.some.inj (h₁.symm.trans h₂)
  inRange m d := extension_inRange hs hn
  own m d := ownField_fits hs hn
  inUse := extensions_inUse hs hn

end invariants

/-- After any calls the numbers of fields are safe. -/
theorem numbers_after (resolver : Resolver) (calls : List Call) :
    (after (fresh resolver) calls).NumbersSafe :=
  numbersSafe (sound_after resolver calls)
    (Session.numbered_empty.steps Session.sound_empty (goes_after calls (fresh resolver)).steps)

end ProtoSchema.Compiler

import ProtoSchema.Proofs.Compiler.Bindings
import ProtoSchema.Proofs.Compiler.Links
import ProtoSchema.Proofs.Compiler.Numbers

/-! # Reserved numbers

A message sets numbers aside with its reserved ranges.  Its own fields are tested against these, but
its extensions are only tested against its extension ranges.  So a field in a complete file has a
reserved number of its message just where the two kinds of ranges overlap and the field stands in an
extend block (`extension_of_reserved`), and there it can have one (`extension_of_overlap`). -/

namespace ProtoSchema.Compiler

variable {c : Compiler} {f : FileId} {d : FieldId} {m : BlockId}

/-- The field has a number that its message `m` reserves. -/
def UsesReserved (c : Compiler) (m : BlockId) (d : FieldId) : Prop :=
  ∃ range ∈ (c.pool.block m).reservedRanges, range.contains (c.number d) = true

/-- A field of a message is one of its own fields. -/
theorem ownField_of_owner (hs : Session.Sound (c.session, [])) (hd : c.pool.FieldOf f d)
    (owner : c.pool.fieldOwner? d = some m) (declared : c.pool.isExtension d = false) :
    (c.pool.field d).block = m ∧ c.OwnField m d := by
  have hm : (c.pool.field d).block = m := by
    rw [Pool.fieldOwner?, Pool.owner?, Pool.heading_eq_message_iff.mpr ⟨declared, rfl⟩] at owner
    exact Option.some.inj owner
  exact ⟨hm, hs.tree.mem_fields_iff.mpr ⟨hd.1, hm⟩⟩

/-- A field of an extend block is an extension of its message. -/
theorem extension_of_owner (hs : Session.Sound (c.session, [])) (hf : c.session.Registered f)
    (hd : c.pool.FieldOf f d) (owner : c.pool.fieldOwner? d = some m)
    (injected : c.pool.isExtension d = true) : c.Extension m d := by
  have hb := (hs.tree.mem_blocksOf_iff (hs.hasFile hf)).mpr hd.2
  have hin := hs.tree.mem_fields_iff.mpr ⟨hd.1, rfl⟩
  rw [Pool.isExtension, Block.isExtend] at injected
  rw [Pool.fieldOwner?, Pool.owner?] at owner
  cases hh : (c.pool.block (c.pool.field d).block).heading with
  | message name =>
    rw [hh] at injected
    cases injected
  | extend type target =>
    rw [hh] at owner
    rcases target with _ | (t | e)
    · cases owner
    · cases owner
      exact ⟨f, _, type, hf, hb, hh, hin⟩
    · cases owner

theorem not_usesReserved (hs : Session.Sound (c.session, [])) (hn : Session.Numbered c.session)
    (hf : c.session.Registered f) (hd : c.pool.FieldOf f d)
    (owner : c.pool.fieldOwner? d = some m) (declared : c.pool.isExtension d = false) :
    ¬c.UsesReserved m d := by
  obtain ⟨rfl, hown⟩ := ownField_of_owner hs hd owner declared
  have hmessage : c.IsMessage (c.pool.field d).block :=
    ⟨f, hf, (hs.tree.mem_blocksOf_iff (hs.hasFile hf)).mpr hd.2, declared⟩
  rintro ⟨range, hr, hin⟩
  rw [(ownField_fits hs hn hmessage hown).2.1 range hr] at hin
  cases hin

/-- After any calls, a field of a complete file has a number that its message reserves only if it
stands in an extend block and its number is in an extension range of the message too. -/
theorem extension_of_reserved (resolver : Resolver) (calls : List Call)
    (registered : (after (fresh resolver) calls).session.Registered f)
    (there : (after (fresh resolver) calls).pool.FieldOf f d)
    (owner : (after (fresh resolver) calls).pool.fieldOwner? d = some m)
    (reserved : (after (fresh resolver) calls).UsesReserved m d) :
    (after (fresh resolver) calls).pool.isExtension d = true ∧
      ∃ range ∈ ((after (fresh resolver) calls).pool.block m).extensionRanges,
        range.contains ((after (fresh resolver) calls).number d) = true := by
  have hs := sound_after resolver calls
  have hn := Session.numbered_empty.steps Session.sound_empty
    (goes_after calls (fresh resolver)).steps
  cases injected : (after (fresh resolver) calls).pool.isExtension d with
  | false => exact absurd reserved (not_usesReserved hs hn registered there owner injected)
  | true =>
    have hx := extension_of_owner hs registered there owner injected
    exact ⟨rfl, extension_inRange hs hn hx⟩

/-- A message with a reserved number in one of its extension ranges, and an extension with it. -/
def overlapping : Compiler :=
  opened "message M { reserved 105; extensions 100 to 200; } extend M { optional int32 a = 105; }"

/-- The extension of the overlapping message, as it stands in the complete file. -/
theorem overlapping_field :
    overlapping.session.registry.find? "a.proto" = some ⟨0⟩ ∧
      (overlapping.pool.HasField ⟨0⟩ ∧ overlapping.pool.HasBlock (overlapping.pool.field ⟨0⟩).block ∧
        (overlapping.pool.block (overlapping.pool.field ⟨0⟩).block).file = ⟨0⟩) ∧
      overlapping.pool.fieldOwner? ⟨0⟩ = some ⟨0⟩ ∧ overlapping.number ⟨0⟩ = 105 ∧
      (overlapping.pool.block ⟨0⟩).reservedRanges = [⟨105, 105⟩] := by
  decide +kernel

theorem overlapping_reserves : overlapping.UsesReserved ⟨0⟩ ⟨0⟩ := by
  obtain ⟨-, -, -, hnumber, hranges⟩ := overlapping_field
  refine ⟨⟨105, 105⟩, ?_, ?_⟩
  · rw [hranges]
    exact List.mem_cons_self ..
  · rw [hnumber]
    rfl

/-- The field stands in an extend block, and its number is in an extension range. -/
theorem extension_of_overlap :
    overlapping.UsesReserved ⟨0⟩ ⟨0⟩ ∧ overlapping.pool.isExtension ⟨0⟩ = true ∧
      ∃ range ∈ (overlapping.pool.block ⟨0⟩).extensionRanges,
        range.contains (overlapping.number ⟨0⟩) = true := by
  obtain ⟨hfile, hfield, howner, -⟩ := overlapping_field
  exact ⟨overlapping_reserves,
    extension_of_reserved (.memory [("a.proto", _)]) [.openFile "a.proto"] ⟨_, hfile⟩ hfield howner
      overlapping_reserves⟩

/-- A complete file may have a field with a number that its message reserves. -/
theorem overlapping_usesReserved :
    overlapping.session.Registered ⟨0⟩ ∧ overlapping.pool.FieldOf ⟨0⟩ ⟨0⟩ ∧
      overlapping.pool.fieldOwner? ⟨0⟩ = some ⟨0⟩ ∧ overlapping.UsesReserved ⟨0⟩ ⟨0⟩ := by
  obtain ⟨hfile, hfield, howner, -⟩ := overlapping_field
  exact ⟨⟨_, hfile⟩, hfield, howner, overlapping_reserves⟩

end ProtoSchema.Compiler

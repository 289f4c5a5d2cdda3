import ProtoSchema.Proofs.Compiler.Bindings
import ProtoSchema.Proofs.Session.Editions

/-! # Required fields in files of the newer version

The version of a file may be stated behind its declarations, and a label `required` is only refused
where the file is known to be in the newer version.  So a complete file of the newer version may have
required fields, but all of them stand in front of its version statement (`required_before_edition`),
as they do where the statement is the last of the file (`late_edition`). -/

namespace ProtoSchema.Compiler

/-- After any calls, a required field of a complete file of the newer version begins in front of the
version statement of the file. -/
theorem required_before_edition (resolver : Resolver) (calls : List Call) {f : FileId} {d : FieldId}
    (registered : (after (fresh resolver) calls).session.Registered f)
    (there : (after (fresh resolver) calls).pool.FieldOf f d)
    (newer : ((after (fresh resolver) calls).pool.file f).editionOrOldest = .proto3)
    (required : ((after (fresh resolver) calls).pool.field d).form.label? = some .required) :
    ∃ v, ((after (fresh resolver) calls).pool.file f).edition = some v ∧ v.value = .proto3 ∧
      ((after (fresh resolver) calls).pool.field d).typeSpan.start < v.span.start := by
  have hfirst := (Session.editions_empty.steps Session.sound_empty
    (goes_after calls (fresh resolver)).steps).registered f registered
  have hform : ((after (fresh resolver) calls).pool.field d).form = .plain (some .required) := by
    cases h : ((after (fresh resolver) calls).pool.field d).form with
    | plain label =>
      rw [h] at required
      exact congrArg FieldForm.plain required
    | map key =>
      rw [h] at required
      cases required
  cases hv : ((after (fresh resolver) calls).pool.file f).edition with
  | none =>
    -- a file without a version statement is in the older version
    rw [File.editionOrOldest, hv] at newer
    cases newer
  | some v =>
    rw [File.editionOrOldest, hv] at newer
    exact ⟨v, rfl, newer, hfirst d v there hform (.inl hv) newer⟩

/-- The version statement of a file stands behind a required field. -/
def lateEdition : Compiler := opened "message M { required int32 a = 1; } syntax = \"proto3\";"

/-- The required field of the file with a late version statement. -/
theorem lateEdition_field :
    lateEdition.session.registry.find? "a.proto" = some ⟨0⟩ ∧
      (lateEdition.pool.HasField ⟨0⟩ ∧ lateEdition.pool.HasBlock (lateEdition.pool.field ⟨0⟩).block ∧
        (lateEdition.pool.block (lateEdition.pool.field ⟨0⟩).block).file = ⟨0⟩) ∧
      (lateEdition.pool.file ⟨0⟩).editionOrOldest = .proto3 ∧
      (lateEdition.pool.field ⟨0⟩).form.label? = some .required := by
  decide +kernel

/-- The field begins in front of the statement. -/
theorem late_edition :
    ∃ v, (lateEdition.pool.file ⟨0⟩).edition = some v ∧ v.value = .proto3 ∧
      (lateEdition.pool.field ⟨0⟩).typeSpan.start < v.span.start := by
  obtain ⟨hfile, hfield, hnewer, hrequired⟩ := lateEdition_field
  exact required_before_edition (.memory [("a.proto", _)]) [.openFile "a.proto"] ⟨_, hfile⟩ hfield
    hnewer hrequired

/-- A complete file of the newer version may have a required field. -/
theorem lateEdition_required :
    lateEdition.session.Registered ⟨0⟩ ∧ lateEdition.pool.FieldOf ⟨0⟩ ⟨0⟩ ∧
      (lateEdition.pool.file ⟨0⟩).editionOrOldest = .proto3 ∧
      (lateEdition.pool.field ⟨0⟩).form.label? = some .required := by
  obtain ⟨hfile, hfield, hnewer, hrequired⟩ := lateEdition_field
  exact ⟨⟨_, hfile⟩, hfield, hnewer, hrequired⟩

end ProtoSchema.Compiler

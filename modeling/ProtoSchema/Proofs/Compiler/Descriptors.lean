import ProtoSchema.Compiler.Output
import ProtoSchema.Proofs.Compiler.Links
import ProtoSchema.Proofs.Compiler.Numbers
import ProtoSchema.Proofs.Compiler.Visibility
import ProtoSchema.Proofs.Descriptor.Contents
import ProtoSchema.Proofs.Session.Legibility

/-! # Descriptor sets stand by themselves

Where imported files are listed, the descriptors of a compiler refer to nothing outside of them
(`selfContained_after`): each file stands behind those that it depends on, types of fields and extended
messages are declared in some file of the set, and an extension has a number that its message leaves to
extensions.  Only the type of a map field is an entry message, which stands in the same message.  Nothing is
left out to that end: the set has all complete files, and all that they declare. -/

namespace ProtoSchema

namespace Descriptor

/-- The type of a field has a scalar type's number, or its name is that of a message or an enum that a
file of the set declares; the number of the type says which. -/
def Field.Resolved (files : List File) (d : Field) : Prop :=
  ∀ name, d.type.name? = some name →
    d.type.number = 11 ∧ (∃ g ∈ files, ∃ m, g.Declares name m ∧ m.isMapEntry = false) ∨
      d.type.number = 14 ∧ ∃ g ∈ files, ∃ e, g.DeclaresEnum name e

/-- Some files refer to nothing but what they declare themselves. -/
structure SelfContained (files : List File) : Prop where
  /-- Every dependency is the name of an earlier file. -/
  dependency : ∀ (k : Nat) (file : File), files[k]? = some file → ∀ name ∈ file.dependencies,
    ∃ j < k, ∃ g : File, files[j]? = some g ∧ g.name = name
  /-- The public and the weak dependencies are different places in the list of dependencies. -/
  places : ∀ file ∈ files, file.publicDependencies.Disjoint file.weakDependencies ∧
    (∀ k ∈ file.publicDependencies, k < file.dependencies.length) ∧
    ∀ k ∈ file.weakDependencies, k < file.dependencies.length
  /-- The type of a field is declared in the files, or it is an entry message in the same message. -/
  field : ∀ file ∈ files, ∀ name m, file.Declares name m → ∀ d ∈ m.fields, d.Resolved files ∨
    d.type.number = 11 ∧ ∃ entry ∈ m.nestedTypes, entry.isMapEntry = true ∧
      d.type.name? = some (name ++ "." ++ entry.name)
  extension : ∀ file ∈ files, ∀ d, file.HoldsExtension d → d.Resolved files ∧
    ∃ fullName, d.extendee = some fullName ∧ ∃ g ∈ files, ∃ m, g.Declares (absolute fullName) m ∧
      m.isMapEntry = false ∧ ∃ range ∈ m.extensionRanges, range.contains d.number = true

end Descriptor

open Descriptor (absolute)

/-! ### Places of imports -/

theorem Pool.mem_importPlaces_iff {imports : List Import} {kind : ImportKind} {k : Nat} :
    k ∈ Pool.importPlaces imports kind ↔ ∃ i, imports[k]? = some i ∧ i.kind = kind := by
  simp only [Pool.importPlaces, List.mem_map, List.mem_filter, decide_eq_true_eq, Prod.exists,
    List.mem_zipIdx_iff_getElem?]
  constructor
  · rintro ⟨i, j, ⟨hi, hkind⟩, rfl⟩
    exact ⟨i, hi, hkind⟩
  · rintro ⟨i, hi, hkind⟩
    exact ⟨i, k, ⟨hi, hkind⟩, rfl⟩

theorem Pool.lt_of_mem_importPlaces {imports : List Import} {kind : ImportKind} {k : Nat}
    (h : k ∈ Pool.importPlaces imports kind) : k < imports.length := by
  obtain ⟨i, hi, -⟩ := Pool.mem_importPlaces_iff.mp h
  exact (List.getElem?_eq_some_iff.mp hi).1

/-- An import is of one kind. -/
theorem Pool.disjoint_importPlaces {imports : List Import} {kind kind' : ImportKind} (h : kind ≠ kind') :
    (Pool.importPlaces imports kind).Disjoint (Pool.importPlaces imports kind') := by
  intro k hk hk'
  obtain ⟨i, hi, rfl⟩ := Pool.mem_importPlaces_iff.mp hk
  obtain ⟨i', hi', rfl⟩ := Pool.mem_importPlaces_iff.mp hk'
  rw [hi] at hi'
  cases hi'
  exact h rfl

namespace Compiler

variable {c : Compiler}

/-- What is known of the session of a compiler after any calls. -/
structure Settled (c : Compiler) : Prop where
  sound : Session.Sound (c.session, [])
  grounds : Session.Grounds (c.session, [])
  bindings : Session.Bindings (c.session, [])
  numbered : Session.Numbered c.session
  legible : Session.Legible c.session

theorem settled_after (resolver : Resolver) (calls : List Call) :
    (after (fresh resolver) calls).Settled := by
  have hsteps := (goes_after calls (fresh resolver)).steps
  exact ⟨sound_after resolver calls, Session.grounds_empty.steps Session.sound_empty hsteps,
    Session.bindings_empty.steps Session.sound_empty hsteps,
    Session.numbered_empty.steps Session.sound_empty hsteps,
    Session.legible_empty.steps Session.sound_empty hsteps⟩

theorem Settled.tree (hc : c.Settled) : c.pool.WellFormed := hc.sound.tree

/-- Where imports are listed, the descriptors are those of all complete files, in their order. -/
theorem descriptors_eq (listed : c.includeImports = true) :
    c.descriptors = c.session.registry.values.map c.pool.descriptor := by
  have hall : c.files = c.session.registry.values :=
    List.filter_eq_self.mpr fun id _ => by rw [listed, Bool.true_or]
  rw [descriptors, hall]

theorem mem_descriptors_iff (listed : c.includeImports = true) {file : Descriptor.File} :
    file ∈ c.descriptors ↔ ∃ f, c.session.Registered f ∧ c.pool.descriptor f = file := by
  simp only [descriptors_eq listed, List.mem_map, Table.mem_values_iff]
  exact .rfl

section settled

variable (hc : c.Settled) (listed : c.includeImports = true)
include hc listed

/-- The type that a name in a complete file is bound to is declared in the set. -/
theorem resolved_named {name : TypeName} {t : TypeId} {d : Descriptor.Field} {f : FileId}
    (hf : c.session.Registered f) (hthere : c.pool.HasType t)
    (hvisible : c.pool.Visible f (c.pool.typeFile t))
    (hd : d.type = c.pool.fieldTypeDescriptor (.named name (some t))) : d.Resolved c.descriptors := by
  have htarget := hc.sound.registered_of_reaches hf hvisible.reaches
  have hmem := (mem_descriptors_iff listed).mpr ⟨_, htarget, rfl⟩
  intro n hn
  rw [hd] at hn ⊢
  cases t with
  | message b =>
    cases hn
    exact .inl ⟨rfl, _, hmem, _, Pool.declares_message hc.tree hc.legible.pool ⟨hthere.1, rfl⟩
      hthere.2, hc.tree.messageDescriptor_isMapEntry b⟩
  | enum e =>
    cases hn
    exact .inr ⟨rfl, _, hmem, _, Pool.declares_enum hc.tree hc.legible.pool ⟨hthere, rfl⟩⟩

/-- The type of a field of a complete file is scalar or declared in the set. -/
theorem resolved_field {f : FileId} {g : FieldId} (hf : c.session.Registered f)
    (hg : c.pool.FieldOf f g) {d : Descriptor.Field}
    (hd : d.type = c.pool.fieldTypeDescriptor (c.pool.field g).type) : d.Resolved c.descriptors := by
  cases htype : (c.pool.field g).type with
  | scalar s =>
    intro n hn
    rw [hd, htype] at hn
    cases hn
  | named name target =>
    have href := Pool.Refers.field hg htype
    obtain ⟨t, rfl⟩ := hc.numbered.exists_target hf href
    obtain ⟨hthere, hvisible⟩ := (hc.grounds.registered f hf).bound href
    exact resolved_named hc listed hf hthere hvisible (htype ▸ hd)

/-- The fields of a message are of types that the set declares, and map fields are of the type of an
entry message in the same message. -/
theorem resolved_message {f : FileId} {b : BlockId} (hf : c.session.Registered f)
    (hb : c.pool.BlockOf f b) {d : Descriptor.Field} (hd : d ∈ (c.pool.messageDescriptor b).fields) :
    d.Resolved c.descriptors ∨ d.type.number = 11 ∧
      ∃ entry ∈ (c.pool.messageDescriptor b).nestedTypes, entry.isMapEntry = true ∧
        d.type.name? = some (absolute ((c.pool.block b).fullName ++ [entry.name])) := by
  obtain ⟨g, hmem, rfl⟩ := hc.tree.mem_fieldDescriptors_iff.mp hd
  obtain ⟨hg, rfl⟩ := hc.tree.mem_fields_iff.mp hmem
  cases hform : (c.pool.field g).form with
  | plain label =>
    refine .inl (resolved_field hc listed hf ⟨hg, hb⟩ ?_)
    simp only [Pool.fieldDescriptor, hform]
  | map key =>
    refine .inr ⟨?_, _, hc.tree.mem_nestedTypes_iff.mpr (.inr ⟨g, hmem, key, hform, rfl⟩), rfl, ?_⟩
    · simp only [Pool.fieldDescriptor, hform]
      rfl
    · simp only [Pool.fieldDescriptor, hform]
      rfl

/-- The fields of an entry message are of types that the set declares. -/
theorem resolved_entry {f : FileId} {g : FieldId} {key : Scalar} (hf : c.session.Registered f)
    (hg : c.pool.FieldOf f g) {d : Descriptor.Field}
    (hd : d ∈ (c.pool.mapEntry (c.pool.field g) key).fields) : d.Resolved c.descriptors := by
  rcases List.mem_cons.mp hd with rfl | hd
  · intro n hn
    cases hn
  · rw [List.mem_singleton] at hd
    exact resolved_field hc listed hf hg (hd ▸ rfl)

/-- An extension is of a type that the set declares, and has a number that the extended message, which
the set declares as well, leaves to extensions. -/
theorem resolved_extension {f : FileId} {x : BlockId} (hf : c.session.Registered f)
    (hx : c.pool.BlockOf f x) (hextend : (c.pool.block x).isExtend = true) {d : Descriptor.Field}
    (hd : d ∈ c.pool.extensionDescriptors x) : d.Resolved c.descriptors ∧
      ∃ fullName, d.extendee = some fullName ∧ ∃ g ∈ c.descriptors, ∃ m,
        g.Declares (absolute fullName) m ∧ m.isMapEntry = false ∧
          ∃ range ∈ m.extensionRanges, range.contains d.number = true := by
  obtain ⟨g, hmem, rfl⟩ := List.mem_map.mp hd
  obtain ⟨hg, rfl⟩ := hc.tree.mem_fields_iff.mp hmem
  obtain ⟨type, m, hheading, hthere⟩ := extend_linked hc.numbered hc.bindings hf hx hextend
  constructor
  · -- no extend block has a map
    refine resolved_field hc listed hf ⟨hg, hx⟩ ?_
    cases hform : (c.pool.field g).form with
    | plain label => simp only [Pool.fieldDescriptor, hform]
    | map key => exact absurd hform (hc.legible.plain g hg hextend key)
  · obtain ⟨-, hvisible⟩ := (hc.grounds.registered f hf).bound (.extend hx hheading)
    have htarget := hc.sound.registered_of_reaches hf hvisible.reaches
    have hextension : c.Extension m g := ⟨f, _, type, hf,
      (hc.tree.mem_blocksOf_iff (hc.sound.hasFile hf)).mpr hx, hheading, hmem⟩
    obtain ⟨range, hrange, hcontains⟩ := extension_inRange hc.sound hc.numbered hextension
    refine ⟨(c.pool.block m).fullName, ?_, _, (mem_descriptors_iff listed).mpr ⟨_, htarget, rfl⟩, _,
      Pool.declares_message hc.tree hc.legible.pool ⟨hthere.1, rfl⟩ hthere.2,
      hc.tree.messageDescriptor_isMapEntry m, range.halfOpen, ?_, ?_⟩
    · simp only [Pool.owner?, hheading, Option.map_some, Option.getD_some]
    · rw [hc.tree.messageDescriptor_extensionRanges]
      exact List.mem_map_of_mem hrange
    · rwa [NumberRange.contains_halfOpen]

/-- A file is registered behind its imports. -/
theorem dependency_earlier {k : Nat} {file : Descriptor.File} (hk : c.descriptors[k]? = some file)
    {name : String} (hname : name ∈ file.dependencies) :
    ∃ j < k, ∃ g : Descriptor.File, c.descriptors[j]? = some g ∧ g.name = name := by
  rw [descriptors_eq listed, List.getElem?_map, Option.map_eq_some_iff] at hk
  obtain ⟨f, hf, rfl⟩ := hk
  rw [Table.values, List.getElem?_map, Option.map_eq_some_iff] at hf
  obtain ⟨⟨n, f⟩, hentry, rfl⟩ := hf
  obtain ⟨i, hi, rfl⟩ := List.mem_map.mp hname
  obtain ⟨target, htarget⟩ := Table.mem_values_iff.mp hi
  obtain ⟨j, hjk, hj⟩ := hc.sound.ordered k n f hentry target i htarget
  refine ⟨j, hjk, c.pool.descriptor i.file, ?_, rfl⟩
  rw [descriptors_eq listed, Table.values, List.map_map, List.getElem?_map, hj]
  rfl

theorem selfContained : Descriptor.SelfContained c.descriptors := by
  refine ⟨fun k file hk name => dependency_earlier hc listed hk, fun file hfile => ?_,
    fun file hfile name m hm d hd => ?_, fun file hfile d hd => ?_⟩
  all_goals obtain ⟨f, hf, rfl⟩ := (mem_descriptors_iff listed).mp hfile
  · have hlength : ∀ {kind}, ∀ k ∈ Pool.importPlaces (c.pool.file f).imports.values kind,
        k < (c.pool.descriptor f).dependencies.length := fun k hk =>
      (Pool.lt_of_mem_importPlaces hk).trans_eq (List.length_map _).symm
    exact ⟨Pool.disjoint_importPlaces (by decide), hlength, hlength⟩
  · obtain ⟨b, hb, hx, ⟨rfl, rfl⟩ | ⟨g, hg, key, -, rfl⟩⟩ :=
      Pool.of_declares hc.tree hc.legible.pool (hc.sound.hasFile hf) hm
    · refine (resolved_message hc listed hf hb hd).imp_right fun h => ?_
      obtain ⟨hnumber, entry, hentry, hmap, hname⟩ := h
      refine ⟨hnumber, entry, hentry, hmap, hname.trans (congrArg some ?_)⟩
      exact Descriptor.absolute_append (hc.tree.fullName_ne_nil hb.1 hx) _
    · obtain ⟨hthere, rfl⟩ := hc.tree.mem_fields_iff.mp hg
      exact .inl (resolved_entry hc listed hf ⟨hthere, hb⟩ hd)
  · obtain ⟨x, hx, hextend, hmem⟩ :=
      Pool.of_holdsExtension hc.tree hc.legible.pool (hc.sound.hasFile hf) hd
    exact resolved_extension hc listed hf hx hextend hmem

end settled

/-- After any calls, if imports are listed, the descriptors that are listed refer to nothing outside of
them.  They are those of all complete files in the order of registration, with all that these declare. -/
theorem selfContained_after (resolver : Resolver) (calls : List Call)
    (listed : (after (fresh resolver) calls).includeImports = true) :
    Descriptor.SelfContained (after (fresh resolver) calls).descriptors ∧
      List.Forall₂ (after (fresh resolver) calls).pool.Exports
        (after (fresh resolver) calls).session.registry.values
        (after (fresh resolver) calls).descriptors := by
  have hc := settled_after resolver calls
  refine ⟨selfContained hc listed, ?_⟩
  rw [descriptors_eq listed, List.forall₂_map_right_iff, List.forall₂_same]
  exact fun f _ => Pool.exports_descriptor hc.tree hc.legible.pool f

/-- A file extends a message that it imports, and has a map with values of it. -/
def extendsImported : Compiler :=
  after (fresh (.memory [("a.proto", "import \"base.proto\"; " ++
    "message N \x7b map<int32, p.M> ms = 1; extend p.M \x7b optional N n = 100; \x7d \x7d"),
    ("base.proto", "package p; message M \x7b extensions 100 to 200; \x7d")]))
    [.openFile "a.proto", .includeImports true]

/-- With imports, the descriptors are those of both files, and they stand by themselves. -/
theorem extendsImported_selfContained : extendsImported.includeImports = true ∧
    extendsImported.descriptors.map Descriptor.File.name = ["base.proto", "a.proto"] ∧
    Descriptor.SelfContained extendsImported.descriptors ∧
    List.Forall₂ extendsImported.pool.Exports extendsImported.session.registry.values
      extendsImported.descriptors := by
  have hread : extendsImported.includeImports = true ∧
      extendsImported.descriptors.map Descriptor.File.name = ["base.proto", "a.proto"] := by
    decide +kernel
  exact ⟨hread.1, hread.2, selfContained_after (.memory [("a.proto", _), _]) [_, _] hread.1⟩

end Compiler

end ProtoSchema

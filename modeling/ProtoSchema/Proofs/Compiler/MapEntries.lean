import ProtoSchema.Proofs.Compiler.Descriptors

/-! # Entry messages of map fields

The entry message of a map field is named after the field, and the names of fields are told apart before
they are put in Pascal case.  So in the descriptor of a message two nested types may have one name, and
`typeNames_nodup_iff` says when: exactly if the names of two map fields are the same in Pascal case, or
a message or enum in the message has the name of an entry message (`sameEntries_clash`). -/

namespace ProtoSchema

open Descriptor (absolute)

/-- The names of the types that are declared directly in a message. -/
def Descriptor.Message.typeNames (m : Descriptor.Message) : List String :=
  m.nestedTypes.map Descriptor.Message.name ++ m.enumTypes.map Descriptor.Enum.name

namespace Pool

variable {pool : Pool} {b : BlockId}

/-- The map fields of a message. -/
def mapFields (pool : Pool) (b : BlockId) : List FieldId :=
  (pool.block b).fields.values.filter fun d => pool.mapEntry? (pool.field d) |>.isSome

/-- The name of the entry message of a field. -/
def entryName (pool : Pool) (d : FieldId) : String := mapEntryName (pool.field d).name.value

/-- The entry messages of a message have different names, and no declaration in the message has one of
them. -/
structure EntriesDistinct (pool : Pool) (b : BlockId) : Prop where
  fields : ∀ d ∈ pool.mapFields b, ∀ e ∈ pool.mapFields b,
    pascalName (pool.field d).name.value = pascalName (pool.field e).name.value → d = e
  messages : ∀ d ∈ pool.mapFields b,
    (pool.members (.block b)).messages.find? (pool.entryName d) = none
  enums : ∀ d ∈ pool.mapFields b, (pool.members (.block b)).enums.find? (pool.entryName d) = none

/-- The type of the map field `d` of a message is named as an entry message in it, and no other type in the
message has this name. -/
structure OwnEntry (pool : Pool) (b : BlockId) (d : FieldId) : Prop where
  type : (pool.fieldDescriptor (pool.block b).fullName (pool.field d)).type =
    .message ((pool.block b).fullName ++ [pool.entryName d])
  entry : ∃ m ∈ (pool.messageDescriptor b).nestedTypes, pool.mapEntry? (pool.field d) = some m ∧
    m.name = pool.entryName d ∧
      ∀ m' ∈ (pool.messageDescriptor b).nestedTypes, m'.name = pool.entryName d → m' = m
  enum : ∀ e ∈ (pool.messageDescriptor b).enumTypes, e.name ≠ pool.entryName d

theorem entryName_inj {d e : FieldId} : pool.entryName d = pool.entryName e ↔
    pascalName (pool.field d).name.value = pascalName (pool.field e).name.value := by
  refine ⟨fun h => ?_, fun h => congrArg (· ++ "Entry") h⟩
  unfold entryName mapEntryName at h
  exact (String.append_left_inj _).mp h

theorem mem_mapFields_iff {d : FieldId} : d ∈ pool.mapFields b ↔
    d ∈ (pool.block b).fields.values ∧ ∃ key, (pool.field d).form = .map key := by
  rw [mapFields, List.mem_filter]
  unfold mapEntry?
  refine and_congr_right fun _ => ?_
  cases (pool.field d).form <;> simp

theorem mapEntry?_eq_some {d : FieldId} {m : Descriptor.Message}
    (h : pool.mapEntry? (pool.field d) = some m) : m.name = pool.entryName d := by
  unfold mapEntry? at h
  split at h <;> cases h
  rfl

theorem entries_names (ds : List FieldId) :
    ((ds.map pool.field).filterMap pool.mapEntry?).map Descriptor.Message.name =
      (ds.filter fun d => pool.mapEntry? (pool.field d) |>.isSome).map pool.entryName := by
  induction ds with
  | nil => rfl
  | cons d ds ih =>
    cases h : pool.mapEntry? (pool.field d) with
    | none => simpa [h] using ih
    | some m => simpa [h, mapEntry?_eq_some h] using ih

namespace WellFormed

variable (hw : pool.WellFormed)
include hw

theorem typeNames_eq (b : BlockId) : (pool.messageDescriptor b).typeNames =
    (pool.members (.block b)).messages.keys ++ (pool.mapFields b).map pool.entryName ++
      (pool.members (.block b)).enums.keys := by
  have hmessages : (((pool.members (.block b)).messages.values.map pool.messageDescriptor).map
      Descriptor.Message.name) = (pool.members (.block b)).messages.keys := by
    rw [List.map_map, ← hw.message_names]
    exact List.map_congr_left fun a _ => hw.messageDescriptor_name a
  have henums : ((pool.members (.block b)).enums.values.map pool.enumDescriptor).map
      Descriptor.Enum.name = (pool.members (.block b)).enums.keys := by
    rw [List.map_map, ← hw.enum_names]
    rfl
  rw [Descriptor.Message.typeNames, hw.messageDescriptor_eq, ← hmessages, ← henums, mapFields,
    ← entries_names, ← List.map_append]
  rfl

/-- The types in the descriptor of a message have different names if and only if the entry messages
are told apart. -/
theorem nodup_typeNames_iff (b : BlockId) :
    (pool.messageDescriptor b).typeNames.Nodup ↔ pool.EntriesDistinct b := by
  have hfields : (pool.mapFields b).Nodup := (hw.nodup_fields b).filter _
  have hdeclared : ∀ n, n ∈ (pool.members (.block b)).messages.keys →
      n ∉ (pool.members (.block b)).enums.keys := fun n hm => by
    rcases hw.message_enum (.block b) n with hnone | hnone
    · exact absurd hm (Table.find?_eq_none_iff.mp hnone)
    · exact Table.find?_eq_none_iff.mp hnone
  rw [hw.typeNames_eq, List.nodup_append', List.nodup_append', List.nodup_map_iff_inj_on hfields]
  constructor
  · rintro ⟨⟨-, hinj, hmessages⟩, -, henums⟩
    refine ⟨fun d hd e he h => hinj d hd e he (entryName_inj.mpr h), fun d hd => ?_, fun d hd => ?_⟩
    · exact Table.find?_eq_none_iff.mpr fun hm => hmessages hm (List.mem_map_of_mem hd)
    · exact Table.find?_eq_none_iff.mpr fun hm =>
        henums (List.mem_append_right _ (List.mem_map_of_mem hd)) hm
  · intro h
    refine ⟨⟨(pool.members (.block b)).messages.nodup,
      fun d hd e he hde => h.fields d hd e he (entryName_inj.mp hde), fun n hn hentry => ?_⟩,
      (pool.members (.block b)).enums.nodup, fun n hn henum => ?_⟩
    · obtain ⟨d, hd, rfl⟩ := List.mem_map.mp hentry
      exact Table.find?_eq_none_iff.mp (h.messages d hd) hn
    · rcases List.mem_append.mp hn with hn | hn
      · exact hdeclared n hn henum
      · obtain ⟨d, hd, rfl⟩ := List.mem_map.mp hn
        exact Table.find?_eq_none_iff.mp (h.enums d hd) henum

/-- If the entry messages are told apart, the type of each map field denotes its own one. -/
theorem ownEntry (h : pool.EntriesDistinct b) {d : FieldId} (hd : d ∈ pool.mapFields b) :
    pool.OwnEntry b d := by
  obtain ⟨hmem, key, hkey⟩ := mem_mapFields_iff.mp hd
  refine ⟨by simp only [fieldDescriptor, hkey, entryName], ⟨pool.mapEntry (pool.field d) key,
    hw.mem_nestedTypes_iff.mpr (.inr ⟨d, hmem, key, hkey, rfl⟩), by unfold mapEntry?; rw [hkey], rfl,
    fun m hm hname => ?_⟩, fun e he hname => ?_⟩
  · rcases hw.mem_nestedTypes_iff.mp hm with ⟨a, ha, rfl⟩ | ⟨g, hg, key', hkey', rfl⟩
    · have hkeys := hw.message_names (.block b) ▸ List.mem_map_of_mem ha
      rw [← hw.messageDescriptor_name, hname] at hkeys
      exact absurd hkeys (Table.find?_eq_none_iff.mp (h.messages d hd))
    · obtain rfl := h.fields g (mem_mapFields_iff.mpr ⟨hg, key', hkey'⟩) d hd (entryName_inj.mp hname)
      rw [hkey] at hkey'
      cases hkey'
      rfl
  · obtain ⟨a, ha, rfl⟩ := hw.mem_enumTypes_iff.mp he
    have hkeys := hw.enum_names (.block b) ▸ List.mem_map_of_mem ha
    exact absurd (hname ▸ hkeys) (Table.find?_eq_none_iff.mp (h.enums d hd))

end WellFormed

end Pool

namespace Compiler

/-- After any calls, the descriptor of a file declares each message of the file, and the names of
the types in it are pairwise distinct if and only if the entry messages are told apart; then the type of
each map field denotes its own entry message and nothing else. -/
theorem typeNames_nodup_iff (resolver : Resolver) (calls : List Call) {f : FileId} {b : BlockId}
    (there : (after (fresh resolver) calls).pool.BlockOf f b)
    (message : ((after (fresh resolver) calls).pool.block b).isExtend = false) :
    ((after (fresh resolver) calls).pool.descriptor f).Declares
        (absolute ((after (fresh resolver) calls).pool.block b).fullName)
        ((after (fresh resolver) calls).pool.messageDescriptor b) ∧
      (((after (fresh resolver) calls).pool.messageDescriptor b).typeNames.Nodup ↔
        (after (fresh resolver) calls).pool.EntriesDistinct b) ∧
      ((after (fresh resolver) calls).pool.EntriesDistinct b →
        ∀ d ∈ (after (fresh resolver) calls).pool.mapFields b,
          (after (fresh resolver) calls).pool.OwnEntry b d) := by
  have hc := settled_after resolver calls
  exact ⟨Pool.declares_message hc.tree hc.legible.pool there message,
    hc.tree.nodup_typeNames_iff b, fun h d hd => hc.tree.ownEntry h hd⟩

/-- A message with a map field, and a message that has the field's name in Pascal case. -/
def mapAndMessage : Compiler :=
  opened "message M \x7b map<int32, M> foo_bar = 1; message FooBar \x7b\x7d \x7d"

/-- The entry message stands besides the message that is nested. -/
theorem typeNames_mapAndMessage :
    (mapAndMessage.pool.BlockOf ⟨0⟩ ⟨0⟩ ∧ (mapAndMessage.pool.block ⟨0⟩).isExtend = false) ∧
      (mapAndMessage.pool.messageDescriptor ⟨0⟩).typeNames = ["FooBar", "FooBarEntry"] ∧
      (mapAndMessage.pool.descriptor ⟨0⟩).Declares (absolute (mapAndMessage.pool.block ⟨0⟩).fullName)
        (mapAndMessage.pool.messageDescriptor ⟨0⟩) ∧
      mapAndMessage.pool.EntriesDistinct ⟨0⟩ ∧
      ∀ d ∈ mapAndMessage.pool.mapFields ⟨0⟩, mapAndMessage.pool.OwnEntry ⟨0⟩ d := by
  have hread : (mapAndMessage.pool.HasBlock ⟨0⟩ ∧ (mapAndMessage.pool.block ⟨0⟩).file = ⟨0⟩) ∧
      (mapAndMessage.pool.block ⟨0⟩).isExtend = false ∧
      (mapAndMessage.pool.messageDescriptor ⟨0⟩).typeNames = ["FooBar", "FooBarEntry"] := by
    decide +kernel
  obtain ⟨hthere, hmessage, hnames⟩ := hread
  obtain ⟨hdeclares, hnodup, hown⟩ :=
    typeNames_nodup_iff (.memory [("a.proto", _)]) [.openFile "a.proto"] hthere hmessage
  have hdistinct := hnodup.mp (hnames ▸ by decide)
  exact ⟨⟨hthere, hmessage⟩, hnames, hdeclares, hdistinct, hown hdistinct⟩

/-- The names of the map fields are different, and in Pascal case they are the same. -/
def sameEntries : Compiler :=
  opened "message M \x7b map<int32, int32> foo_bar = 1; map<int32, int32> fooBar = 2; \x7d"

/-- Entry messages are not told apart when the file is checked: it is complete, and in the descriptor of
its message two nested types have one name. -/
theorem sameEntries_clash :
    sameEntries.file? "a.proto" = some ⟨0⟩ ∧ sameEntries.pool.BlockOf ⟨0⟩ ⟨0⟩ ∧
      (sameEntries.pool.messageDescriptor ⟨0⟩).typeNames = ["FooBarEntry", "FooBarEntry"] ∧
      ¬ (sameEntries.pool.messageDescriptor ⟨0⟩).typeNames.Nodup := by
  have hread : sameEntries.file? "a.proto" = some ⟨0⟩ ∧
      (sameEntries.pool.HasBlock ⟨0⟩ ∧ (sameEntries.pool.block ⟨0⟩).file = ⟨0⟩) ∧
      (sameEntries.pool.messageDescriptor ⟨0⟩).typeNames = ["FooBarEntry", "FooBarEntry"] := by
    decide +kernel
  obtain ⟨hfile, hthere, hnames⟩ := hread
  exact ⟨hfile, hthere, hnames, hnames ▸ by decide⟩

end Compiler

end ProtoSchema

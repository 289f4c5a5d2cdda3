import ProtoSchema.Descriptor.Basic
import ProtoSchema.Wire

/-! # The binary form of descriptors

Each kind of descriptor is a record whose items are in ascending order of their numbers.  What is
missing has no item. -/

namespace ProtoSchema.Descriptor

open Wire (Record Value each whenSome)

/-- Both ends of a range. -/
def rangeRecord (r : HalfOpenRange) : Record := [(1, .number r.start), (2, .number r.stop)]

/-- A field; an extension names the message that it belongs to. -/
def Field.record (f : Field) : Record :=
  (1, .text f.name) ::
    (whenSome 2 Value.text (f.extendee.map absolute) ++
      [(3, .number f.number), (4, .number (labelNumber f.label)), (5, .number f.type.number)] ++
      whenSome 6 Value.text f.type.name? ++ [(10, .text f.jsonName)])

/-- A value of an enum. -/
def valueRecord (v : String × Int) : Record :=
  [(1, .text v.1), (2, .number (Wire.unsigned v.2))]

/-- An enum. -/
def Enum.record (e : Enum) : Record :=
  (1, .text e.name) :: each 2 (fun v => .record (valueRecord v)) e.values

/-- The options of the entry message of a map field. -/
def mapEntryRecord : Record := [(7, .number 1)]

mutual

/-- A message; the items of nested messages hold their records. -/
def Message.record : Message → Record
  | ⟨name, fields, extensions, nestedTypes, enumTypes, extensionRanges, reservedRanges,
      reservedNames, isMapEntry⟩ =>
    (1, .text name) ::
      (each 2 (fun f => .record (Field.record f)) fields ++
        Message.records nestedTypes ++
        each 4 (fun e => .record (Enum.record e)) enumTypes ++
        each 5 (fun r => .record (rangeRecord r)) extensionRanges ++
        each 6 (fun f => .record (Field.record f)) extensions ++
        (if isMapEntry then [(7, .record mapEntryRecord)] else []) ++
        each 9 (fun r => .record (rangeRecord r)) reservedRanges ++
        each 10 Value.text reservedNames)

/-- An item for each nested message. -/
def Message.records : List Message → Record
  | [] => []
  | m :: ms => (3, .record (Message.record m)) :: Message.records ms

end

/-- A file. -/
def File.record (f : File) : Record :=
  (1, .text f.name) ::
    (whenSome 2 Value.text f.package ++ each 3 Value.text f.dependencies ++
      each 4 (fun m => .record (Message.record m)) f.messages ++
      each 5 (fun e => .record (Enum.record e)) f.enums ++
      each 7 (fun x => .record (Field.record x)) f.extensions ++
      each 10 Value.number f.publicDependencies ++ each 11 Value.number f.weakDependencies ++
      whenSome 12 Value.text (editionName? f.edition))

/-- The binary form of a set of files. -/
def encodeSet (fs : List File) : List UInt8 :=
  Wire.encode (each 1 (fun f => .record (File.record f)) fs)

end ProtoSchema.Descriptor

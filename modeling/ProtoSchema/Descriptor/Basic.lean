import ProtoSchema.Declaration

/-! # Descriptors

A descriptor tells what a file declares, with full names and without source text.  Map fields are
gone: such a field repeats an entry message that stands among the nested types.  Number ranges are
half-open. -/

namespace ProtoSchema

/-- The numbers from `start` up to, but not including, `stop`. -/
structure HalfOpenRange where
  start : Nat
  stop : Nat
deriving DecidableEq, Repr, Inhabited

namespace HalfOpenRange

def contains (r : HalfOpenRange) (n : Nat) : Bool := r.start ≤ n && n < r.stop

@[simp] theorem contains_iff {r : HalfOpenRange} {n : Nat} :
    r.contains n = true ↔ r.start ≤ n ∧ n < r.stop := by
  simp [contains]

end HalfOpenRange

/-- The same numbers with the end left out. -/
def NumberRange.halfOpen (r : NumberRange) : HalfOpenRange := ⟨r.first, r.last + 1⟩

@[simp] theorem NumberRange.contains_halfOpen (r : NumberRange) (n : Nat) :
    r.halfOpen.contains n = r.contains n := by
  rw [Bool.eq_iff_iff, HalfOpenRange.contains_iff, contains_iff]
  exact and_congr_right fun _ => Nat.lt_succ_iff

namespace Descriptor

/-- The type of a field; other types than scalars have a full name. -/
inductive FieldType where
  | scalar (s : Scalar)
  | message (fullName : DottedName)
  | enum (fullName : DottedName)
deriving DecidableEq, Repr, Inhabited

/-- A field or an extension. -/
structure Field where
  name : String
  number : Nat
  label : Label
  type : FieldType
  /-- The full name of the message that an extension belongs to. -/
  extendee : Option DottedName := none
  jsonName : String
deriving DecidableEq, Repr, Inhabited

/-- An enum with its values and their numbers, in the order of declaration. -/
structure Enum where
  name : String
  values : List (String × Int)
deriving DecidableEq, Repr, Inhabited

/-- A message with all that is declared in it. -/
structure Message where
  name : String
  fields : List Field := []
  extensions : List Field := []
  nestedTypes : List Message := []
  enumTypes : List Enum := []
  extensionRanges : List HalfOpenRange := []
  reservedRanges : List HalfOpenRange := []
  reservedNames : List String := []
  /-- Does the message stand for the entries of a map field? -/
  isMapEntry : Bool := false
deriving Repr, Inhabited

mutual

/-- Equality of messages goes down into the nested types. -/
def Message.decEq : (a b : Message) → Decidable (a = b)
  | ⟨n, fs, xs, ts, es, ers, rrs, rns, m⟩, ⟨n', fs', xs', ts', es', ers', rrs', rns', m'⟩ =>
    have := Message.decEqList ts ts'
    decidable_of_iff
      (n = n' ∧ fs = fs' ∧ xs = xs' ∧ ts = ts' ∧ es = es' ∧ ers = ers' ∧ rrs = rrs' ∧ rns = rns' ∧
        m = m')
      (by simp)

def Message.decEqList : (as bs : List Message) → Decidable (as = bs)
  | [], [] => isTrue rfl
  | [], _ :: _ => isFalse nofun
  | _ :: _, [] => isFalse nofun
  | a :: as, b :: bs =>
    have := Message.decEq a b
    have := Message.decEqList as bs
    decidable_of_iff (a = b ∧ as = bs) (by simp)

end

instance : DecidableEq Message := Message.decEq

/-- A file with all that is declared in it, and the names of its imports. -/
structure File where
  name : String
  /-- The package; none if it is empty. -/
  package : Option String
  dependencies : List String
  /-- Places in the list of dependencies. -/
  publicDependencies : List Nat
  weakDependencies : List Nat
  messages : List Message
  enums : List Enum
  extensions : List Field
  edition : Edition
deriving DecidableEq, Repr, Inhabited

/-! ### Numbers and names of types -/

/-- The number of a scalar type. -/
def scalarNumber : Scalar → Nat
  | .double => 1
  | .float => 2
  | .int64 => 3
  | .uint64 => 4
  | .int32 => 5
  | .fixed64 => 6
  | .fixed32 => 7
  | .bool => 8
  | .string => 9
  | .bytes => 12
  | .uint32 => 13
  | .sfixed32 => 15
  | .sfixed64 => 16
  | .sint32 => 17
  | .sint64 => 18

/-- The number of a type; all messages have the same, and so have all enums. -/
def FieldType.number : FieldType → Nat
  | scalar s => scalarNumber s
  | message _ => 11
  | enum _ => 14

/-- A full name with a leading dot. -/
def absolute (fullName : DottedName) : String := TypeName.text ⟨true, fullName⟩

/-- The name of a type that is not scalar. -/
def FieldType.name? : FieldType → Option String
  | scalar _ => none
  | message fullName | enum fullName => some (absolute fullName)

/-- The number of a label. -/
def labelNumber : Label → Nat
  | .optional => 1
  | .required => 2
  | .repeated => 3

/-- The older version of the language is not named. -/
def editionName? : Edition → Option String
  | .proto2 => none
  | .proto3 => some Edition.proto3.name

end Descriptor

end ProtoSchema

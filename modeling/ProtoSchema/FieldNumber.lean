/-! # Field numbers

Fields are numbered from one to `2^29 - 1`; the numbers from 19000 to 19999 are set aside.  A
`NumberRange` holds both its ends. -/

namespace ProtoSchema

namespace FieldNumber

/-- The largest field number. -/
def max : Nat := 536870911

/-- May a field have the number `n`? -/
def isValid (n : Nat) : Bool := 1 ≤ n && n ≤ max && !(19000 ≤ n && n ≤ 19999)

end FieldNumber

/-- The field numbers from `first` to `last`, both included. -/
structure NumberRange where
  first : Nat
  last : Nat
deriving DecidableEq, Repr, Inhabited

namespace NumberRange

def contains (r : NumberRange) (n : Nat) : Bool := r.first ≤ n && n ≤ r.last

@[simp] theorem contains_iff {r : NumberRange} {n : Nat} :
    r.contains n = true ↔ r.first ≤ n ∧ n ≤ r.last := by
  simp [contains]

/-- A single number stands alone, and the largest number is written `max`. -/
def text (r : NumberRange) : String :=
  if r.first = r.last then toString r.first
  else if r.last = FieldNumber.max then toString r.first ++ " to max"
  else toString r.first ++ " to " ++ toString r.last

/-- Ranges with commas between them. -/
def listText (rs : List NumberRange) : String := ", ".intercalate (rs.map text)

end NumberRange

end ProtoSchema

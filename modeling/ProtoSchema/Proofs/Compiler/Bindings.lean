import ProtoSchema.Proofs.Compiler.Runs
import ProtoSchema.Proofs.Session.Bindings
import ProtoSchema.Proofs.Session.Numbers

/-! # Bindings of complete files

In a complete file every name is bound, and a lookup finds a type for it as well.  These two differ
just where the type that is found is declared behind the reference and the one that is bound is not
(`binding_eq_iff`): a name that denotes something when it is read is bound then, whatever comes
later (`field_before_sibling`). -/

namespace ProtoSchema.Compiler

open Pool (Refers Behind)

/-- In the complete file `f` the reference at `offset` is bound to a type, and a lookup finds one;
they are the same unless only the second is declared behind the reference. -/
theorem binding_eq_iff (resolver : Resolver) (calls : List Call) {f : FileId} {s : Scope}
    {name : TypeName} {offset : Nat} {target : Option TypeId}
    (registered : (after (fresh resolver) calls).session.Registered f)
    (reference : (after (fresh resolver) calls).pool.Refers f s name offset target) :
    ∃ t t', target = some t ∧ (after (fresh resolver) calls).pool.resolve? f s name = some t' ∧
      (t = t' ↔ ((after (fresh resolver) calls).pool.Behind f offset t' →
        (after (fresh resolver) calls).pool.Behind f offset t)) := by
  have hsteps := (goes_after calls (fresh resolver)).steps
  have hbindings := Session.bindings_empty.steps Session.sound_empty hsteps
  have hbound := (Session.numbered_empty.steps Session.sound_empty hsteps).bound f registered
  cases target with
  | none =>
    -- no reference of a complete file is unbound
    cases reference with
    | field there type => exact absurd ⟨_, type⟩ (hbound.field _ there)
    | extend there heading => exact absurd ⟨_, heading⟩ (hbound.block _ there)
  | some t =>
    obtain ⟨-, t', ht', h⟩ := hbindings.registered f registered s name offset t reference
    refine ⟨t, t', rfl, ht', fun he => he ▸ id, fun himp => ?_⟩
    rcases h with he | ⟨hnot, hb⟩
    · exact he
    · exact absurd (himp hb) hnot

theorem refers_field {pool : Pool} {f : FileId} {s : Scope} {name : TypeName} {offset : Nat}
    {target : Option TypeId} (d : FieldId) (there : pool.FieldOf f d)
    (type : (pool.field d).type = .named name target) (scope : .block (pool.field d).block = s)
    (place : (pool.field d).typeSpan.start = offset) : pool.Refers f s name offset target := by
  subst scope place
  exact .field there type

/-- A compiler that has opened one file. -/
def opened (text : String) : Compiler :=
  after (fresh (.memory [("a.proto", text)])) [.openFile "a.proto"]

/-- The type of a message stands in front of a field, and has the name of an outer type. -/
def typeFirst : Compiler := opened "message B {} message M { message B {} optional B b = 1; }"

/-- The type of a message stands behind a field, and has the name of an outer type. -/
def fieldFirst : Compiler := opened "message B {} message M { optional B b = 1; message B {} }"

/-- A field behind a type of its message is bound to that type. -/
theorem field_behind_sibling :
    typeFirst.session.Registered ⟨0⟩ ∧
      typeFirst.pool.Refers ⟨0⟩ (.block ⟨1⟩) ⟨false, ["B"]⟩ 47 (some (.message ⟨2⟩)) ∧
      ∃ t t', some (.message ⟨2⟩) = some t ∧
        typeFirst.pool.resolve? ⟨0⟩ (.block ⟨1⟩) ⟨false, ["B"]⟩ = some t' ∧
        (t = t' ↔ (typeFirst.pool.Behind ⟨0⟩ 47 t' → typeFirst.pool.Behind ⟨0⟩ 47 t)) := by
  have hfile : typeFirst.session.Registered ⟨0⟩ := ⟨"a.proto", by decide +kernel⟩
  have href : typeFirst.pool.Refers ⟨0⟩ (.block ⟨1⟩) ⟨false, ["B"]⟩ 47 (some (.message ⟨2⟩)) := by
    refine refers_field ⟨0⟩ ⟨?_, ?_, ?_⟩ ?_ ?_ ?_
    all_goals decide +kernel
  exact ⟨hfile, href, binding_eq_iff (.memory [("a.proto", _)]) [.openFile "a.proto"] hfile href⟩

/-- A field in front of a type of its message is bound to an outer type of that name, though a
lookup finds the type of the message. -/
theorem field_before_sibling :
    fieldFirst.session.Registered ⟨0⟩ ∧
      fieldFirst.pool.Refers ⟨0⟩ (.block ⟨1⟩) ⟨false, ["B"]⟩ 34 (some (.message ⟨0⟩)) ∧
      fieldFirst.pool.resolve? ⟨0⟩ (.block ⟨1⟩) ⟨false, ["B"]⟩ = some (.message ⟨2⟩) := by
  refine ⟨⟨"a.proto", by decide +kernel⟩, ?_, by decide +kernel⟩
  refine refers_field ⟨0⟩ ⟨?_, ?_, ?_⟩ ?_ ?_ ?_
  all_goals decide +kernel

end ProtoSchema.Compiler

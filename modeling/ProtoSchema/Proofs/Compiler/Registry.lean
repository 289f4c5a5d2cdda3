import Mathlib.Data.List.Nodup
import ProtoSchema.Proofs.Compiler.Runs

/-! # The registry

After any calls, failed ones included, the registry lists every file behind all files that it
imports, under its own name, and a name that is registered stays registered for the same file
(`registry_after`).  So no file imports itself, directly or through others. -/

namespace ProtoSchema.Compiler

/-- Where a complete file stands in the registry. -/
def position (c : Compiler) (id : FileId) : Nat := c.session.registry.values.idxOf id

/-- The complete file `a` imports the file `b`. -/
def Imports (c : Compiler) (a b : FileId) : Prop :=
  c.session.Registered a ∧ ∃ target i, (c.pool.file a).imports.find? target = some i ∧ i.file = b

/-- What is so of the complete files. -/
structure RegistrySound (c : Compiler) : Prop where
  /-- Every file is registered under its name. -/
  name : ∀ name id, c.file? name = some id → c.pool.HasFile id ∧ (c.pool.file id).name = name
  /-- Every import is registered under its name, for the file that the import recorded. -/
  imported : ∀ name id target i, c.file? name = some id →
    (c.pool.file id).imports.find? target = some i → c.file? target = some i.file
  /-- Every file stands behind those it imports. -/
  behind : ∀ a b, c.Imports a b → c.position b < c.position a
  acyclic : ∀ a, ¬Relation.TransGen c.Imports a a

variable {c : Compiler}

/-- No file is registered twice. -/
theorem nodup_values (h : Session.Sound (c.session, [])) : c.session.registry.values.Nodup := by
  have hkeys : c.session.registry.values.map (fun id => (c.pool.file id).name) =
      c.session.registry.keys := by
    rw [Table.values, Table.keys, List.map_map]
    refine List.map_congr_left fun e he => ?_
    exact (h.named e.1 e.2 (Table.mem_entries_iff.mp he)).2
  refine List.Nodup.of_map (fun id => (c.pool.file id).name) ?_
  rw [hkeys]
  exact c.session.registry.nodup

theorem position_of_getElem? (h : c.session.registry.values.Nodup) {k : Nat} {name : String}
    {id : FileId} (hk : c.session.registry.entries[k]? = some (name, id)) : c.position id = k := by
  have hv : c.session.registry.values[k]? = some id := by
    rw [Table.values, List.getElem?_map, hk]
    rfl
  obtain ⟨hlt, rfl⟩ := List.getElem?_eq_some_iff.mp hv
  exact h.idxOf_getElem k hlt

theorem position_lt (h : Session.Sound (c.session, [])) {a b : FileId} (hab : c.Imports a b) :
    c.position b < c.position a := by
  obtain ⟨⟨name, hname⟩, target, i, hi, rfl⟩ := hab
  obtain ⟨k, hk⟩ := List.getElem?_of_mem (Table.mem_entries_iff.mpr hname)
  obtain ⟨j, hjk, hj⟩ := h.ordered k name a hk target i hi
  rw [position_of_getElem? (nodup_values h) hk, position_of_getElem? (nodup_values h) hj]
  exact hjk

theorem registrySound (h : Session.Sound (c.session, [])) : c.RegistrySound where
  name := h.named
  imported name id target i hid hi := h.imported ⟨name, hid⟩ hi
  behind a b := position_lt h
  acyclic a hcycle := by
    have hlt : ∀ b, Relation.TransGen c.Imports a b → c.position b < c.position a := by
      intro b hab
      induction hab with
      | single hab => exact position_lt h hab
      | tail _ hbc ih => exact Nat.lt_trans (position_lt h hbc) ih
    exact Nat.lt_irrefl _ (hlt a hcycle)

theorem file?_of_steps {r : Resolver} {x y : Session.State} (hs : Session.Steps r x y)
    {name : String} {id : FileId} (hid : x.1.registry.find? name = some id) :
    y.1.registry.find? name = some id := by
  induction hs with
  | refl => exact hid
  | tail _ hstep ih => exact hstep.registry ih

/-- After any calls the registry is sound, and what is registered stays so whatever is called
next. -/
theorem registry_after (resolver : Resolver) (calls more : List Call) :
    (after (fresh resolver) calls).RegistrySound ∧
      ∀ name id, (after (fresh resolver) calls).file? name = some id →
        (after (fresh resolver) (calls ++ more)).file? name = some id := by
  refine ⟨registrySound (sound_after resolver calls), fun name id hid => ?_⟩
  rw [after_append]
  exact file?_of_steps (goes_after more (after (fresh resolver) calls)).steps hid

end ProtoSchema.Compiler

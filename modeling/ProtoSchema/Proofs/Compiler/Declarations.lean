import ProtoSchema.Proofs.Compiler.Descriptors
import ProtoSchema.Proofs.Compiler.Openings
import ProtoSchema.Proofs.Session.Drafts

/-! # No declaration is lost

A complete file holds exactly what is written in its source.  Each message, enum, extend block, field and
enum value is one entry under the scope that it is written in, entries of one kind are in the order of the
source, and names and numbers that have to differ do (`declarations_exact`). -/

namespace ProtoSchema

namespace Pool

variable {pool : Pool} {f : FileId}

/-- Every node of a file is listed once, in the scope that it is written in, and in no other scope. -/
structure ListsOnce (pool : Pool) (f : FileId) : Prop where
  message : ∀ b s, pool.BlockOf f b → (pool.block b).isExtend = false →
    (pool.contents s).messages.count b = if (pool.block b).parent = s then 1 else 0
  extendBlock : ∀ b s, pool.BlockOf f b → (pool.block b).isExtend = true →
    (pool.contents s).extendBlocks.count b = if (pool.block b).parent = s then 1 else 0
  enum : ∀ e s, pool.EnumOf f e →
    (pool.contents s).enums.count e = if (pool.enum e).parent = s then 1 else 0
  field : ∀ d s, pool.FieldOf f d →
    (pool.contents s).fields.count d = if .block (pool.field d).block = s then 1 else 0

/-- Messages, enums and fields in one scope have different names, and fields in it different numbers; the
values of one enum have different names and numbers. -/
structure SetsApart (pool : Pool) (f : FileId) : Prop where
  names : ∀ s, pool.scopeFile s = f → (pool.declared .asWritten s).names.Nodup
  numbers : ∀ s, pool.scopeFile s = f → (pool.declared .asWritten s).numbers.Nodup
  valueNames : ∀ e, pool.EnumOf f e →
    ((pool.enumOutline .asWritten e).values.map fun v => v.name.value).Nodup
  valueNumbers : ∀ e, pool.EnumOf f e →
    ((pool.enumOutline .asWritten e).values.map fun v => v.number.value).Nodup

theorem count_eq_of_mem_iff {α : Type} [DecidableEq α] {l : List α} {a : α} {p : Prop} [Decidable p]
    (hl : l.Nodup) (h : a ∈ l ↔ p) : l.count a = if p then 1 else 0 := by
  rw [hl.count]
  simp only [h]

theorem WellFormed.listsOnce (hw : pool.WellFormed) (f : FileId) : pool.ListsOnce f where
  message b s hb hx := by
    have hnodup : (pool.members s).messages.values.Nodup :=
      .of_map (fun b => (pool.block b).name) (by
        rw [hw.message_names]
        exact (pool.members s).messages.nodup)
    refine count_eq_of_mem_iff hnodup (hw.mem_messages_iff.trans ?_)
    exact ⟨fun h => h.2.2, fun h => ⟨hb.1, hx, h⟩⟩
  extendBlock b s hb hx := by
    refine count_eq_of_mem_iff (hw.extend_nodup s) ((hw.extend_iff s b).trans ?_)
    exact ⟨fun h => h.2.1, fun h => ⟨hb.1, h, hx⟩⟩
  enum e s he := by
    have hnodup : (pool.members s).enums.values.Nodup :=
      .of_map (fun e => (pool.enum e).name) (by
        rw [hw.enum_names]
        exact (pool.members s).enums.nodup)
    refine count_eq_of_mem_iff hnodup (hw.mem_enums_iff.trans ?_)
    exact ⟨fun h => h.2, fun h => ⟨he.1, h⟩⟩
  field d s hd := by
    cases s with
    | file i => rfl
    | block b =>
      refine count_eq_of_mem_iff (hw.nodup_fields b) (hw.mem_fields_iff.trans ?_)
      exact ⟨fun h => congrArg Scope.block h.2, fun h => ⟨hd.1, Scope.block.inj h⟩⟩

theorem WellFormed.setsApart (hw : pool.WellFormed) (hl : pool.Legible) (f : FileId) :
    pool.SetsApart f where
  names s _ := hw.nodup_names s
  numbers s _ := hw.nodup_numbers s
  valueNames e he := by
    have hnames := (hl.enum e he.1).names
    rw [Table.values, List.map_map] at hnames
    rw [enumOutline, View.enum, List.map_map]
    exact hnames
  valueNumbers e he := by
    rw [enumOutline, View.enum, List.map_map]
    exact (pool.enum e).values.nodup

end Pool

namespace Compiler

variable {f : FileId}

/-- After any calls, a complete file comes from a text that is spelled without a fault, and what the
statements of the text declare is what the file holds, scope by scope and in the same order.  Every node of
the file is listed once, and names and numbers that have to differ do. -/
theorem declarations_exact (resolver : Resolver) (calls : List Call)
    (registered : (after (fresh resolver) calls).session.Registered f) :
    (∃ name file es, (after (fresh resolver) calls).file? name = some f ∧
      resolver.openFile name = .ok file ∧
      (∃ n, (Scan.ofText file.text).ending = .endOfText n) ∧
      Spelling.Source [] (Scan.ofText file.text).tokens es ∧
      ∀ D, Event.Declare es D ↔ D = (after (fresh resolver) calls).pool.declared .asWritten (.file f)) ∧
    (after (fresh resolver) calls).pool.ListsOnce f ∧
    (after (fresh resolver) calls).pool.SetsApart f := by
  have hc := settled_after resolver calls
  refine ⟨?_, hc.tree.listsOnce f, hc.tree.setsApart hc.legible.pool f⟩
  obtain ⟨name, hname⟩ := registered
  have hcompleted := (lawful_after resolver calls).history.registered name f hname
  rw [(goes_after calls (fresh resolver)).resolver] at hcompleted
  obtain ⟨file, opened⟩ := hcompleted.exists_file
  obtain ⟨noFault, hdeclare⟩ := hcompleted.declare hc.tree opened
  obtain ⟨hending, hsource⟩ := Event.source_ofText noFault
  refine ⟨name, file, _, hname, opened, hending, hsource, fun D => ⟨fun h => h.unique hdeclare, ?_⟩⟩
  rintro rfl
  exact hdeclare

/-- A message with an enum, a map and a field, and an extend block for a message of another file. -/
def declaring : Compiler :=
  openedFirst ("import \"b.proto\"; message M \x7b enum E \x7b Z = 0; Y = -1; \x7d " ++
      "map<string, E> m = 2; optional E e = 1; \x7d extend B \x7b optional M n = 100; \x7d")
    [("b.proto", "message B \x7b extensions 100 to 200; \x7d")]

/-- The fields of the message and that of the extend block are listed in the order of the text. -/
theorem declarations_declaring :
    declaring.session.Registered ⟨0⟩ ∧
      (∃ es, Event.Declare es (declaring.pool.declared .asWritten (.file ⟨0⟩))) ∧
      declaring.pool.ListsOnce ⟨0⟩ ∧ declaring.pool.SetsApart ⟨0⟩ ∧
      (declaring.pool.declared .asWritten (.block ⟨1⟩)).numbers = [2, 1] ∧
      (declaring.pool.declared .asWritten (.block ⟨2⟩)).numbers = [100] := by
  have hread : declaring.file? "a.proto" = some ⟨0⟩ ∧
      (declaring.pool.declared .asWritten (.block ⟨1⟩)).numbers = [2, 1] ∧
      (declaring.pool.declared .asWritten (.block ⟨2⟩)).numbers = [100] := by
    decide +kernel
  obtain ⟨hfile, hmessage, hextend⟩ := hread
  have hregistered : declaring.session.Registered ⟨0⟩ := ⟨_, hfile⟩
  obtain ⟨⟨name, file, es, -, -, -, -, hdeclare⟩, hlists, hapart⟩ :=
    declarations_exact (.memory [("a.proto", _), _]) [.openFile "a.proto"] hregistered
  exact ⟨hregistered, ⟨es, (hdeclare _).mpr rfl⟩, hlists, hapart, hmessage, hextend⟩

end Compiler

end ProtoSchema

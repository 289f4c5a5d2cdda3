import ProtoSchema.Proofs.Compiler.Definitions

/-! # What public imports pass on

A complete file finds the types that a public import finds, if the first statement that imports that file
has the word `public` (`finds_iff`).  A public import behind a plain import of the same file passes nothing
on (`plainFirst_hides`). -/

namespace ProtoSchema

namespace Pool

variable {pool : Pool} {f : FileId} {name : String}

/-- A file finds a type by name. -/
def Finds (pool : Pool) (f : FileId) (name : String) : Prop := ∃ t, pool.definition? f name = some t

/-- A file finds what it declares and what its public imports find. -/
theorem AnswersExactly.found_iff (h : pool.AnswersExactly f) : pool.Finds f name ↔
    (∃ path t, pool.DeclaredAt (.file f) path t ∧ (pool.typeName t).text = withoutDot name) ∨
      ∃ i ∈ (pool.file f).imports.values, i.kind = .publicly ∧ pool.Finds i.file name := by
  by_cases hown : ∃ path t, pool.DeclaredAt (.file f) path t ∧ (pool.typeName t).text = withoutDot name
  · obtain ⟨path, t, hd, hname⟩ := id hown
    exact iff_of_true ⟨t, h.own name path t hd hname⟩ (.inl hown)
  · rw [or_iff_right hown, Finds, h.passedOn name fun path t hd hname => hown ⟨path, t, hd, hname⟩]
    simp only [publicImports, List.findSome?_map, ← Option.isSome_iff_exists, List.findSome?_isSome_iff,
      List.mem_filter, decide_eq_true_eq, Function.comp_apply, Finds, and_assoc]

end Pool

namespace Compiler

variable {f : FileId}

/-- After any calls, a complete file finds a type by name if and only if it declares one with that full
name, or the first statement of its source that imports some file has the word `public`, and that file
finds one. -/
theorem finds_iff (resolver : Resolver) (calls : List Call) {name : String} {file : SourceFile}
    (registered : (after (fresh resolver) calls).file? name = some f)
    (opened : resolver.openFile name = .ok file) (query : String) :
    (after (fresh resolver) calls).pool.Finds f query ↔
      (∃ path t, (after (fresh resolver) calls).pool.DeclaredAt (.file f) path t ∧
        ((after (fresh resolver) calls).pool.typeName t).text = Pool.withoutDot query) ∨
      ∃ target g, Event.ImportsFirst (Event.ofText file.text).1 target .publicly ∧
        (after (fresh resolver) calls).file? target = some g ∧
        (after (fresh resolver) calls).pool.Finds g query := by
  have hc := settled_after resolver calls
  have hreg : (after (fresh resolver) calls).session.Registered f := ⟨name, registered⟩
  have hlists := Session.listings_empty.steps Session.sound_empty (goes_after calls (fresh resolver)).steps
  have hanswers := (hlists f hreg).answersExactly hc.tree hc.legible.pool
  have hcompleted := (lawful_after resolver calls).history.registered name f registered
  rw [(goes_after calls (fresh resolver)).resolver] at hcompleted
  have himports := hcompleted.importNames_eq opened
  refine hanswers.found_iff.trans (or_congr_right ?_)
  simp only [← Event.mem_firstImports_iff, ← himports]
  constructor
  · rintro ⟨i, hi, hkind, hfinds⟩
    obtain ⟨target, htarget⟩ := Table.mem_values_iff.mp hi
    refine ⟨target, i.file, ?_, hc.sound.imported hreg htarget, hfinds⟩
    exact List.mem_map.mpr ⟨(target, i), Table.mem_entries_iff.mpr htarget, by rw [hkind]⟩
  · rintro ⟨target, g, hmem, hg, hfinds⟩
    obtain ⟨⟨n, i⟩, hentry, he⟩ := List.mem_map.mp hmem
    obtain ⟨rfl, hkind⟩ := Prod.mk.inj he
    have hfind := Table.mem_entries_iff.mp hentry
    obtain rfl : i.file = g := Option.some.inj ((hc.sound.imported hreg hfind).symm.trans hg)
    exact ⟨i, Table.mem_values_iff.mpr ⟨_, hfind⟩, hkind, hfinds⟩

/-- The text of a file that imports another one twice. -/
def importsTwice (first second : String) : String :=
  "import " ++ first ++ "\"g.proto\"; import " ++ second ++ "\"g.proto\";"

/-- A file with a public import and a plain import of the same file behind it. -/
def publicFirst : Compiler := openedFirst (importsTwice "public " "") [("g.proto", "message A \x7b\x7d")]

/-- The first statement counts, so the message of the imported file is found. -/
theorem publicFirst_finds :
    publicFirst.file? "a.proto" = some ⟨0⟩ ∧ publicFirst.pool.Finds ⟨0⟩ "A" := by
  have hread : publicFirst.file? "a.proto" = some ⟨0⟩ ∧ publicFirst.file? "g.proto" = some ⟨1⟩ ∧
      publicFirst.pool.definition? ⟨1⟩ "A" = some (.message ⟨0⟩) ∧
      ("g.proto", .publicly) ∈ Event.firstImports (Event.ofText (importsTwice "public " "")).1 := by
    decide +kernel
  obtain ⟨hfile, himported, hfind, hfirst⟩ := hread
  refine ⟨hfile, (finds_iff (.memory [("a.proto", importsTwice "public " ""), _]) [.openFile "a.proto"]
    hfile rfl "A").mpr (.inr ⟨"g.proto", ⟨1⟩, ?_, himported, _, hfind⟩)⟩
  exact Event.mem_firstImports_iff.mp hfirst

/-- A file with a plain import and a public import of the same file behind it. -/
def plainFirst : Compiler := openedFirst (importsTwice "" "public ") [("g.proto", "message A \x7b\x7d")]

/-- The source has a public import of a file that finds a message, and does not find that message. -/
theorem plainFirst_hides :
    plainFirst.file? "a.proto" = some ⟨0⟩ ∧ plainFirst.file? "g.proto" = some ⟨1⟩ ∧
      (∃ e ∈ (Event.ofText (importsTwice "" "public ")).1, e.Imports "g.proto" .publicly) ∧
      plainFirst.pool.Finds ⟨1⟩ "A" ∧ ¬plainFirst.pool.Finds ⟨0⟩ "A" := by
  have hread : plainFirst.file? "a.proto" = some ⟨0⟩ ∧ plainFirst.file? "g.proto" = some ⟨1⟩ ∧
      (Event.ofText (importsTwice "" "public ")).1[1]? =
        some (.importFile .publicly ⟨"g.proto", ⟨32, 41⟩⟩) ∧
      plainFirst.pool.definition? ⟨1⟩ "A" = some (.message ⟨0⟩) ∧
      plainFirst.pool.definition? ⟨0⟩ "A" = none := by
    decide +kernel
  obtain ⟨hfile, himported, hevent, hfind, hnone⟩ := hread
  refine ⟨hfile, himported, ⟨_, List.mem_of_getElem? hevent, _, rfl⟩, ⟨_, hfind⟩, ?_⟩
  rintro ⟨t, ht⟩
  cases hnone.symm.trans ht

end Compiler

end ProtoSchema

import ProtoSchema.Proofs.Compiler.Descriptors
import ProtoSchema.Proofs.Compiler.Openings
import ProtoSchema.Proofs.Session.Headings
import ProtoSchema.Proofs.Session.Imports

/-! # Sources that are read again

The source of a complete file can be read wherever its imports can be loaded, and what is read is what
the file declares: the same statements in the same order, with every type under its absolute name
(`outline_source`).  Only a file of the newer version that has a required field cannot be read again. -/

namespace ProtoSchema

open Located (unplaced)
open Event (Rereads)

namespace Pool

/-- The file is in the newer version and has a required field. -/
def RequiresInProto3 (pool : Pool) (f : FileId) : Prop :=
  (pool.file f).editionOrOldest = .proto3 ∧
    ∃ d, pool.FieldOf f d ∧ (pool.field d).form = .plain (some .required)

end Pool

namespace Session

variable {r : Resolver} {x y : State} {f : FileId}

/-- A complete file is imported under its name. -/
theorem Sound.importStatements (h : Sound x) (hf : x.1.Registered f) :
    (x.1.pool.file f).imports.values.map
        (fun i => Event.importFile i.kind (unplaced (x.1.pool.file i.file).name)) =
      (x.1.pool.importNames f).map fun n => .importFile n.2 (unplaced n.1) := by
  rw [Table.values, Pool.importNames, List.map_map, List.map_map]
  refine List.map_congr_left fun entry hentry => ?_
  obtain ⟨n, i⟩ := entry
  have hname := (h.named n _ (h.imported hf (Table.mem_entries_iff.mp hentry))).2
  show Event.importFile i.kind (unplaced (x.1.pool.file i.file).name) = .importFile i.kind (unplaced n)
  rw [hname]

theorem parse_of_ok {load : String → SessionM FileId} {name : String} {file : SourceFile}
    {s t : Session} {c : Cursor} {es : List Event} (htext : Event.ofText file.text = (es, none))
    (hrun : es.foldlM (applyEvent load name file.text) (Cursor.start ⟨s.pool.files.size⟩)
      (s.begin name file) = .ok c t) :
    parse load name file s = .ok ⟨s.pool.files.size⟩ t := by
  rw [parse_eq, htext]
  simp only [hrun]

/-- What is written of a file is read again in a session in which, some time, its imports are complete. -/
theorem parse_source {source : Pool} (hw : source.Writable f)
    (himports : (source.file f).imports.values.map
        (fun i => Event.importFile i.kind (unplaced (source.file i.file).name)) =
      (source.importNames f).map fun n => .importFile n.2 (unplaced n.1))
    (hlabels : ¬source.RequiresInProto3 f) {s x : Session} {name : String} {path : Option String}
    {ρ : Renaming} (hx : Regular (x, [])) (hh : History r (x, [])) (ht : Twin x ρ s)
    (hs : Regular (s, [])) (opened : r.openFile name = .ok ⟨path, source.source f⟩)
    (unread : x.registry.find? name = none)
    (known : ∀ n ∈ source.importNames f, ∃ g, x.registry.find? n.1 = some g) :
    ∃ id t, parse (loadUpTo r (importLimit r) [name]) name ⟨path, source.source f⟩ s = .ok id t ∧
      t.pool.outline .asWritten id = source.outline (.asPrinted source) f := by
  obtain ⟨hlines, hlegible⟩ := hw.lines_statements
  obtain ⟨es, htext, hes⟩ := Event.ofText_print hlines hlegible
  have htext : Event.ofText (source.source f) = (es, none) := htext
  simp only [Pool.statements, Pool.headStatements, List.append_assoc, himports] at hes
  obtain ⟨versions, es, rfl, hversions, hes⟩ := Rereads.append hes
  obtain ⟨packages, es, rfl, hpackages, hes⟩ := hes.append
  obtain ⟨imports, es, rfl, himports, hes⟩ := hes.append
  simp only [← List.append_assoc] at hes
  -- the head
  have hstart := Head.start hx ht hs unread opened
  have hrest : (Reading.start ⟨s.pool.files.size⟩ name (source.source f)).rest =
      versions ++ (packages ++ (imports ++ es)) := congrArg Prod.fst htext
  obtain ⟨t₁, v, hread₁, hhead, hv⟩ := hstart.editions hx rfl _ hversions hrest
  obtain ⟨t₂, p, hread₂, hhead, hp⟩ := hhead.packages hx rfl _ hpackages rfl
  obtain ⟨t₃, is, hread₃, hhead, his⟩ := hhead.imports hx hh _ himports rfl known (by
    rw [Pool.importNames, List.map_map]
    exact (source.file f).imports.nodup)
  -- the declarations behind it
  have hedition : ∀ F : File, F.edition = v → F.editionOrOldest = (source.file f).editionOrOldest :=
    fun F hF => by rw [File.editionOrOldest, File.editionOrOldest, hF, hv]
  obtain ⟨c, t, members, options, hread, hfile, hdeclared⟩ := hhead.declarations rfl rfl hw
    (fun d hd hrequired he => hlabels ⟨(hedition _ rfl).symm.trans he, d, hd, hrequired⟩) hes
  have hall := hread₁.append (hread₂.append (hread₃.append hread))
  refine ⟨⟨s.pool.files.size⟩, t, ?_, ?_⟩
  · exact parse_of_ok htext hall
  · have hfile : t.pool.file ⟨s.pool.files.size⟩ =
        { name, path, edition := v, package := p, imports := is, options, members } := hfile
    have himports : t.pool.importNames ⟨s.pool.files.size⟩ = source.importNames f := by
      rw [Pool.importNames, hfile]
      exact his
    have hedition := (congrArg (fun F => F.edition.map Located.value) hfile).trans hv
    have hpackage := (congrArg (fun F => F.package.map Located.value) hfile).trans hp
    rw [Pool.outline, Pool.outline]
    congr 1

end Session

namespace Compiler

variable {c : Compiler} {f : FileId}

/-- All that a complete file declares can be written. -/
theorem Settled.writable (hc : c.Settled) (hfilled : Session.Filled (c.session, []))
    (hf : c.session.Registered f) : c.pool.Writable f where
  tree := hc.tree
  there := hc.sound.hasFile hf
  legible := hc.legible.pool
  plain := hc.legible.plain
  filled e he hnone := hfilled.enums f e hf he (List.map_eq_nil_iff.mpr hnone)
  linked hr := by
    obtain ⟨t, rfl⟩ := hc.numbered.exists_target hf hr
    exact ⟨t, rfl, ((hc.grounds.registered f hf).bound hr).1⟩

/-- After any calls, the source of a complete file is read again by every compiler that can load its
imports, unless the file is in the newer version and has a required field: then the file that is read
states and declares the same as the first one, with a word for a number that has no digits.  Every type
is written as the absolute name of what it is bound to in the first file. -/
theorem outline_source (resolver : Resolver) (calls : List Call)
    (registered : (after (fresh resolver) calls).session.Registered f)
    (labels : ¬(after (fresh resolver) calls).pool.RequiresInProto3 f)
    {r : Resolver} {more : List Call} {name : String} {path : Option String}
    (opened : r.openFile name = .ok ⟨path, (after (fresh resolver) calls).pool.source f⟩)
    (loadable : Session.Loadable r (after (fresh r) more).session name
      (((after (fresh resolver) calls).pool.importNames f).map Prod.fst)) :
    (∃ id s, Session.parse (Session.loadUpTo r (Session.importLimit r) [name]) name
        ⟨path, (after (fresh resolver) calls).pool.source f⟩ (after (fresh r) more).session = .ok id s ∧
      s.pool.outline .asWritten id = (after (fresh resolver) calls).pool.outline
        (.asPrinted (after (fresh resolver) calls).pool) f) ∧
    ∀ {scope n offset target}, (after (fresh resolver) calls).pool.Refers f scope n offset target →
      ∃ t, target = some t ∧ (after (fresh resolver) calls).pool.boundName n target =
        ⟨true, (after (fresh resolver) calls).pool.typeName t⟩ := by
  have hc := settled_after resolver calls
  have hfilled := Session.filled_empty.steps Session.sound_empty (goes_after calls (fresh resolver)).steps
  have hw := hc.writable hfilled registered
  constructor
  · obtain ⟨x, hsteps, unread, known⟩ := loadable
    have hlawful := lawful_after r more
    have hresolver : (after (fresh r) more).resolver = r := (goes_after more (fresh r)).resolver
    have hhistory := hresolver ▸ hlawful.history
    refine Session.parse_source hw (hc.sound.importStatements registered) labels
      (hlawful.regular.steps hsteps) (hhistory.steps hlawful.regular hsteps)
      (.of_steps hlawful.regular hsteps) hlawful.regular opened unread fun n hn => ?_
    exact known _ (List.mem_map_of_mem hn)
  · intro scope n offset target hr
    obtain ⟨t, rfl, -⟩ := hw.linked hr
    exact ⟨t, rfl, rfl⟩

/-- A message that may be extended. -/
def extensible : String × String := ("base.proto", "message B \x7b extensions 100 to 200; \x7d")

/-- A compiler that has read a file with a map and an extension in a message. -/
def printing : Compiler := openedFirst ("import \"base.proto\"; message M \x7b map<int32, B> m = 1; " ++
  "extend B \x7b optional M n = 100 [x = nan]; \x7d \x7d") [extensible]

/-- The source of that file. -/
def printed : String := "import \"base.proto\";\nmessage M \x7b\n  map<int32, .B> m = 1;\n" ++
  "  extend .B \x7b\n    optional .M n = 100 [x = nan];\n  \x7d\n\x7d\n"

/-- A resolver that finds the source under another name. -/
def reprinted : Resolver := .memory [("copy.proto", printed), extensible]

/-- The source is read where its import is not complete yet, and declares what the first file declares. -/
theorem outline_printed :
    printing.session.Registered ⟨0⟩ ∧ ¬printing.pool.RequiresInProto3 ⟨0⟩ ∧
      reprinted.openFile "copy.proto" = .ok ⟨none, printing.pool.source ⟨0⟩⟩ ∧
      Session.Loadable reprinted {} "copy.proto" ["base.proto"] ∧
      ∃ id s, Session.parse (Session.loadUpTo reprinted (Session.importLimit reprinted) ["copy.proto"])
          "copy.proto" ⟨none, printing.pool.source ⟨0⟩⟩ {} = .ok id s ∧
        s.pool.outline .asWritten id = printing.pool.outline (.asPrinted printing.pool) ⟨0⟩ := by
  have hread : printing.file? "a.proto" = some ⟨0⟩ ∧
      (printing.pool.file ⟨0⟩).editionOrOldest = .proto2 ∧
      (printing.pool.importNames ⟨0⟩).map Prod.fst = ["base.proto"] ∧
      printing.pool.source ⟨0⟩ = printed := by
    decide +kernel
  obtain ⟨hfile, hedition, himports, hsource⟩ := hread
  have hlabels : ¬printing.pool.RequiresInProto3 ⟨0⟩ := fun h => by
    rw [Pool.RequiresInProto3, hedition] at h
    cases h.1
  have hopened : reprinted.openFile "copy.proto" = .ok ⟨none, printing.pool.source ⟨0⟩⟩ := by
    rw [hsource]
    rfl
  have hloaded : (after (fresh reprinted) [.openFile "base.proto"]).file? "copy.proto" = none ∧
      (after (fresh reprinted) [.openFile "base.proto"]).file? "base.proto" = some ⟨0⟩ := by
    decide +kernel
  have hloadable : Session.Loadable reprinted {} "copy.proto" ["base.proto"] := by
    refine ⟨_, (goes_after [.openFile "base.proto"] (fresh reprinted)).steps, hloaded.1, ?_⟩
    exact List.forall_mem_singleton.mpr ⟨_, hloaded.2⟩
  have hregistered : printing.session.Registered ⟨0⟩ := ⟨_, hfile⟩
  have himported : Session.Loadable reprinted (after (fresh reprinted) []).session "copy.proto"
      ((printing.pool.importNames ⟨0⟩).map Prod.fst) := himports ▸ hloadable
  refine ⟨hregistered, hlabels, hopened, hloadable, ?_⟩
  exact (outline_source (.memory [("a.proto", _), _]) [.openFile "a.proto"] hregistered hlabels hopened
    himported).1

end Compiler

end ProtoSchema

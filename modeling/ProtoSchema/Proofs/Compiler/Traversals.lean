import ProtoSchema.Proofs.Compiler.RelativeNames
import ProtoSchema.Proofs.Session.Records

/-! # What the passes over a file go through

When a file was read to its end, its blocks and fields are gone through once more, to bind names and to
check numbers.  In every pool that a session comes to, whatever else was read or given up in between, what
is listed for a file is what was declared in it: nothing is missing, nothing comes twice, nothing is from
another file, and the order is that of the text (`traversal_complete`). -/

namespace ProtoSchema

/-- The span begins earlier, and it ends before the other one begins. -/
structure Span.InFrontOf (sp sp' : Span) : Prop where
  start : sp.start < sp'.start
  stop : sp.stop ≤ sp'.start

theorem Span.Covers.nonempty {source : String} {sp : Span} {ts : List Token} (h : sp.Covers ts)
    (hts : ∀ t ∈ ts, t.StandsIn source) (hpair : ts.Pairwise fun a b => a.span.stop ≤ b.span.start) :
    sp.start < sp.stop := by
  cases h with
  | one mem => exact (hts _ mem).nonempty
  | @between t u order =>
    have ht := (hts t (order.subset (List.mem_cons_self ..))).nonempty
    have hu := (hts u (order.subset (List.mem_cons_of_mem _ (List.mem_cons_self ..)))).nonempty
    have hle := List.pairwise_pair.mp (hpair.sublist order)
    exact ht.trans_le (hle.trans hu.le)

/-- The places of an earlier event of a text are in front of those of a later one. -/
theorem Event.inFront_ofText (source : String) : (ofText source).1.Pairwise fun a b =>
    ∀ sp ∈ a.spans, ∀ sp' ∈ b.spans, sp.InFrontOf sp' := by
  obtain ⟨hcovers, hordered, -⟩ := readFrom_ofText source
  refine hordered.imp_of_mem fun ha _ hab sp hsp sp' hsp' => ?_
  have hnonempty := (hcovers _ ha sp hsp).nonempty (Scan.standsIn_ofText source) (Scan.pairwise_ofText source)
  exact ⟨hnonempty.trans_le (hab sp hsp sp' hsp'), hab sp hsp sp' hsp'⟩

namespace Session

variable {resolver : Resolver} {pool : Pool} {f : FileId}

/-- In all pools of a session every file is recorded. -/
theorem Meets.recorded (met : Meets resolver ({}, []) pool) (there : pool.HasFile f) :
    Recorded resolver pool f := by
  cases met with
  | reading reached => exact recorded_steps reached f there
  | @sweeping s rd st _ reached finished swept =>
    have hw := (sound_empty.steps reached).tree
    have htree := (Pool.sameTree_recordTypes s.pool rd.cursor.file).trans swept.sameTree
    have hold : s.pool.HasFile f := htree.files ▸ there
    exact (recorded_steps reached f hold).of_swept hw hold swept

end Session

namespace Compiler

/-- In every pool of a session, what is listed for a file is picked from all that was added to the pool:
the messages and extend blocks whose file it is, and the fields of those.  A walk with a stack of scopes
comes to just these blocks.  Blocks and fields are listed by increasing numbers and stand one behind the
other in the text, and they are, one for one, those that the statements declare which were read of it. -/
theorem traversal_complete (resolver : Resolver) {pool : Pool}
    (met : Session.Meets resolver ({}, []) pool) {f : FileId} (there : pool.HasFile f) :
    (pool.blocksOf f = pool.pickedBlocks f ∧ pool.fieldsOf f = pool.pickedFields f) ∧
    (∀ n, pool.blocks.size < n → Pool.sortBy BlockId.index (pool.walked n f) = pool.blocksOf f) ∧
    ((pool.blocksOf f).Pairwise fun a b =>
      a.index < b.index ∧ (pool.block a).span.InFrontOf (pool.block b).span) ∧
    ((pool.fieldsOf f).Pairwise fun a b =>
      a.index < b.index ∧ ∀ sp ∈ (pool.field a).spans, ∀ sp' ∈ (pool.field b).spans, sp.InFrontOf sp') ∧
    ∃ file es, resolver.openFile (pool.file f).name = .ok file ∧ es <+: (Event.ofText file.text).1 ∧
      (pool.blocksOf f).map (fun b => (pool.block b).opening) = es.filter Event.opensBlock ∧
      (pool.fieldsOf f).map (fun d => (pool.field d).statement) = es.filter Event.isField := by
  have hw := (Session.sound_empty.meets Session.typesNamed_empty met).1
  obtain ⟨file, es, opened, front, hblocks, hfields⟩ := met.recorded there
  have hblocksOf := hw.blocksOf_eq there
  have hfieldsOf := hw.fieldsOf_eq there
  have hordered := (Event.inFront_ofText file.text).sublist front.sublist
  refine ⟨⟨hblocksOf, hfieldsOf⟩, fun n hn => hw.sortBy_walked there hn, ?_, ?_, file, es, opened, front, ?_, ?_⟩
  · have hspans := hordered.filter Event.opensBlock
    rw [← hblocks, Pool.blockEvents, List.pairwise_map, ← hblocksOf] at hspans
    refine (hw.increasing_blocksOf f).and (hspans.imp fun hab => ?_)
    simp only [Block.spans_opening, List.mem_singleton, forall_eq] at hab
    exact hab
  · have hspans := hordered.filter Event.isField
    rw [← hfields, Pool.fieldEvents, List.pairwise_map, ← hfieldsOf] at hspans
    exact (hw.increasing_fieldsOf f).and hspans
  · rw [hblocksOf]
    exact hblocks
  · rw [hfieldsOf]
    exact hfields

/-- A file with an import between its declarations, and the file that it imports. -/
def interleavedTexts : List (String × String) :=
  [("a.proto", "message A \x7b extensions 9; message N \x7b optional A a = 1; \x7d optional N n = 2; \x7d " ++
      "import \"b.proto\"; extend A \x7b optional N k = 9; \x7d"),
    ("b.proto", "message C \x7b optional C c = 1; \x7d")]

/-- A compiler that has opened both files. -/
def interleaved : Compiler := after (fresh (.memory interleavedTexts)) [.openFile "a.proto"]

/-- The message of the imported file and its field are left out, and the field of the nested message comes
before that of the outer one. -/
theorem traversal_interleaved :
    interleaved.pool.HasFile ⟨0⟩ ∧
      interleaved.pool.blocksOf ⟨0⟩ = [⟨0⟩, ⟨1⟩, ⟨3⟩] ∧ interleaved.pool.fieldsOf ⟨0⟩ = [⟨0⟩, ⟨1⟩, ⟨3⟩] ∧
      Pool.sortBy BlockId.index (interleaved.pool.walked 5 ⟨0⟩) = [⟨0⟩, ⟨1⟩, ⟨3⟩] := by
  have hread : (0 < interleaved.pool.files.size) ∧ interleaved.pool.blocks.size < 5 ∧
      interleaved.pool.pickedBlocks ⟨0⟩ = [⟨0⟩, ⟨1⟩, ⟨3⟩] ∧
      interleaved.pool.pickedFields ⟨0⟩ = [⟨0⟩, ⟨1⟩, ⟨3⟩] := by
    decide +kernel
  obtain ⟨hthere, hsize, hblocks, hfields⟩ := hread
  have hmet : Session.Meets (.memory interleavedTexts) ({}, []) interleaved.pool :=
    (goes_after [.openFile "a.proto"] (fresh (.memory interleavedTexts))).meets
  obtain ⟨⟨hblocksOf, hfieldsOf⟩, hwalked, -⟩ := traversal_complete _ hmet hthere
  exact ⟨hthere, hblocksOf.trans hblocks, hfieldsOf.trans hfields,
    (hwalked 5 hsize).trans (hblocksOf.trans hblocks)⟩

end Compiler

end ProtoSchema

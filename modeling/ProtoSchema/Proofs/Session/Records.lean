import ProtoSchema.Proofs.Pool.Listings
import ProtoSchema.Proofs.Session.Completions

/-! # Records of what was read

In a session, the pool records for each of its files a front part of the events that the text of the file
has (`recorded_steps`).  For a file that is being read it is the part in front of the cursor
(`Traced.records`).  A file that was completed or given up keeps its record: what is done to the pool
later on is done to other files, and the sweep at the end of a file binds names but declares nothing. -/

namespace ProtoSchema.Session

variable {r : Resolver} {x y : State} {s : Session} {rd : Reading} {pool other : Pool} {f g : FileId}

/-- The pool records some of the first events of the text of the file: those that were applied. -/
def Recorded (r : Resolver) (pool : Pool) (f : FileId) : Prop :=
  ∃ file es, r.openFile (pool.file f).name = .ok file ∧ es <+: (Event.ofText file.text).1 ∧ pool.Records f es

/-- All events in front of the cursor are recorded. -/
theorem Traced.records (h : Traced r s rd) : s.pool.Records rd.cursor.file rd.done := by
  induction h with
  | @start s name file regular free opened =>
    exact Pool.records_nil ((fits_begin regular.sound.tree name file).early rfl).1
  | @event s rd e rest c pool notice traced regular next noImport applied ih =>
    obtain ⟨ks, ks', hn, hf, heff, -⟩ :=
      reading_event (regular.sound.reading _ (List.mem_cons_self ..)) next applied
    show pool.Records c.file (rd.done ++ [e])
    rw [heff.file_eq]
    exact ih.append (heff.addsRecord hn hf regular.sound.tree)
  | @importFile s rd kind target rest id traced regular next found ih =>
    have htouches : Pool.Touches rd.cursor.file s.pool
        (s.recordImport rd.cursor.file target.value ⟨id, kind⟩).pool := .modifyFile _ fun _ => rfl
    exact ih.append (.of_touches htouches regular.sound.tree rfl rfl rfl rfl)
  | later traced later ih => exact later.kept.records ih

theorem Traced.recorded (h : Traced r s rd) : Recorded r s.pool rd.cursor.file := by
  obtain ⟨file, opened, htext, -⟩ := h.opened
  refine ⟨file, rd.done, h.hasFile.2 ▸ opened, ⟨rd.rest, ?_⟩, h.records⟩
  rw [← htext, h.text]

theorem Recorded.of_kept (h : Recorded r pool f) (hkept : Pool.Kept f pool other) : Recorded r other f := by
  obtain ⟨file, es, opened, hfront, hrecords⟩ := h
  exact ⟨file, es, hkept.file ▸ opened, hfront, hkept.records hrecords⟩

/-- A change that adds neither blocks nor fields leaves every record as it is. -/
theorem Recorded.of_touches (h : Recorded r pool f) (ht : Pool.Touches g pool other) (hw : pool.WellFormed)
    (hf : pool.HasFile f) (hblocks : other.HasBlock = pool.HasBlock)
    (hfields : other.HasField = pool.HasField) : Recorded r other f := by
  obtain ⟨file, es, opened, hfront, hrecords⟩ := h
  refine ⟨file, es, (ht.file f hf).2.1 ▸ opened, hfront, ?_⟩
  have hnothing : Pool.AddsRecord f [] pool other := .of_touches ht hw hblocks hfields rfl rfl
  exact (List.append_nil es) ▸ hrecords.append hnothing

/-- Recording the types of a file and binding names in it leaves every record as it is. -/
theorem Recorded.of_swept (h : Recorded r pool f) (hw : pool.WellFormed) (hf : pool.HasFile f)
    (hswept : Pool.Swept g (pool.recordTypes g) other) : Recorded r other f := by
  have htypes := Pool.sameTree_recordTypes pool g
  have htouches : Pool.Touches g pool (pool.recordTypes g) := .modifyFile _ fun _ => rfl
  refine h.of_touches (htouches.trans hw (hswept.touches (htypes.wellFormed hw))) hw hf ?_ ?_
  · rw [hswept.sameTree.blocks, htypes.blocks]
  · rw [hswept.sameTree.fields, htypes.fields]

/-- After a step every file is recorded: that of the innermost text by what was read of it, the others as
they were before. -/
theorem recorded_step (hx : Regular x) (hh : History r x) (h : ∀ f, x.1.pool.HasFile f → Recorded r x.1.pool f)
    (hs : Step r x y) : ∀ f, y.1.pool.HasFile f → Recorded r y.1.pool f := by
  have htraced := (hh.step hx hs).reading
  have hw := hx.sound.tree
  intro f hf
  cases hs with
  | @begin s st name file free fresh opened =>
    have hadded := Pool.fileAdded s.pool name file.path
    by_cases hnew : f = ⟨s.pool.files.size⟩
    · subst hnew
      exact (htraced _ (List.mem_cons_self ..)).recorded
    · have hold : s.pool.HasFile f := ((hadded.files f).mp hf).resolve_right hnew
      have htouches : Pool.Touches ⟨s.pool.files.size⟩ s.pool (s.begin name file).pool :=
        .of_fileAdded hadded
      exact (h f hold).of_kept (htouches.kept hw hold hnew)
  | @event s st rd e rest c pool notice next noImport applied =>
    obtain ⟨ks, ks', hn, hfits, heff, -⟩ :=
      reading_event (hx.sound.reading rd (List.mem_cons_self ..)) next applied
    by_cases hread : f = c.file
    · subst hread
      exact (htraced _ (List.mem_cons_self ..)).recorded
    · have hold : s.pool.HasFile f := (heff.tables hn hfits).1 ▸ hf
      rw [heff.file_eq] at hread
      exact (h f hold).of_kept ((heff.touches hn hfits).kept hw hold hread)
  | @importFile s st rd kind target rest id next found =>
    have htouches : Pool.Touches rd.cursor.file s.pool
        (s.recordImport rd.cursor.file target.value ⟨id, kind⟩).pool := .modifyFile _ fun _ => rfl
    have hold : s.pool.HasFile f := (Pool.hasFile_modifyFile ..) ▸ hf
    exact (h f hold).of_touches htouches hw hold rfl rfl
  | @complete s st rd pool finished noFault checked =>
    obtain ⟨hchecked, htouches⟩ := hx.sound.checked checked
    have htree := (Pool.sameTree_recordTypes s.pool rd.cursor.file).trans hchecked.sameTree
    have hold : s.pool.HasFile f := htree.files ▸ hf
    exact (h f hold).of_touches htouches hw hold htree.blocks htree.fields
  | @reject s st rd fault pool finished checked =>
    obtain ⟨hswept, -⟩ := hx.sound.swept checked
    have htree := (Pool.sameTree_recordTypes s.pool rd.cursor.file).trans hswept.sameTree
    have hold : s.pool.HasFile f := htree.files ▸ hf
    exact (h f hold).of_swept hw hold hswept
  | abandon => exact h f hf

/-- After any steps from the beginning every file is recorded. -/
theorem recorded_steps (hs : Steps r ({}, []) x) : ∀ f, x.1.pool.HasFile f → Recorded r x.1.pool f := by
  induction hs with
  | refl => exact fun f hf => absurd hf (Nat.not_lt_zero _)
  | tail hsteps hstep ih =>
    exact recorded_step (regular_empty.steps hsteps) (history_empty.steps regular_empty hsteps) ih hstep

end ProtoSchema.Session

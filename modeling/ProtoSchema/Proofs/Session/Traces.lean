import ProtoSchema.Proofs.Session.Grounding
import ProtoSchema.Proofs.Session.Numbers

/-! # How files were read

Between two events of a file other files may be read, but the file itself stays as it is.  A file is
`Traced` in a session if it was begun and the events in front of its cursor were applied one by one,
each when the file was as the one before had left it.  In every session the files that are being read
are traced, and the registered files were, until their checks succeeded (`History`). -/

namespace ProtoSchema

namespace Pool

variable {pool other : Pool} {f : FileId}

theorem Kept.symm (h : Kept f pool other) : Kept f other pool where
  file := h.file.symm
  blocks b := (h.blocks b).symm
  enums e := (h.enums e).symm
  fields d := (h.fields d).symm
  block b hb := (h.block b ((h.blocks b).mp hb)).symm
  enum e he := (h.enum e ((h.enums e).mp he)).symm
  field d hd := (h.field d ((h.fields d).mp hd)).symm

end Pool

namespace Cursor

variable {c c' : Cursor} {pool other : Pool} {e : Event} {ks ks' : OpenBlocks}

/-- No event changes where a file was read from. -/
theorem Effect.path_eq (h : Effect c pool e c' other) (hn : e.Nests ks ks') (hf : c.Fits pool ks)
    {i : FileId} : (other.file i).path = (pool.file i).path := by
  cases h with
  | edition | package | fileOption =>
    rw [Pool.file_modifyFile]
    split <;> rfl
  | importFile | required | strayField | strayValue | closeEnum | closeBlock => rfl
  | blockOption | enumOption => rfl
  | message added =>
    cases hn with
    | openMessage hks =>
      rw [(Pool.blockAdded_addMessage added (hf.hasScope hks).1).file]
  | @extend type =>
    cases hn with
    | openExtend hks =>
      rw [(Pool.blockAdded_addExtend c.file type (pool.resolve? c.file c.scope type.value)
        (hf.hasScope hks).1).file]
  | enum added =>
    cases hn with
    | openEnum hks =>
      rw [(Pool.enumAdded_addEnum added (hf.hasScope hks).1).file]
  | field scope added => rw [(Pool.fieldAdded added (hf.scope_block scope).1).file]
  | value inEnum added =>
    obtain ⟨-, -, rfl⟩ := Pool.addValue_eq_ok added
    rfl
  | reservedRanges | reservedNames | extensionRanges =>
    unfold modifyOpen
    split <;> rfl

end Cursor

namespace Session

variable {r : Resolver} {x y : State} {s s' s'' : Session} {st : List Reading} {rd : Reading}
  {f : FileId}

/-! ### Later sessions -/

/-- The session `s'` is later than `s`: registered files are as they were, and all declarations are
in the files where they were. -/
structure Since (s s' : Session) : Prop where
  registry : ∀ name id, s.registry.find? name = some id → s'.registry.find? name = some id
  registered : ∀ g, s.Registered g → Pool.Kept g s.pool s'.pool
  file : ∀ i, s.pool.HasFile i → s'.pool.HasFile i ∧ (s'.pool.file i).name = (s.pool.file i).name
  block : ∀ f b, s.pool.BlockOf f b → s'.pool.BlockOf f b
  enum : ∀ f e, s.pool.EnumOf f e → s'.pool.EnumOf f e
  field : ∀ f d, s.pool.FieldOf f d → s'.pool.FieldOf f d

theorem Since.refl (s : Session) : Since s s :=
  ⟨fun _ _ h => h, fun _ _ => .refl _ _, fun _ h => ⟨h, rfl⟩, fun _ _ h => h, fun _ _ h => h,
    fun _ _ h => h⟩

theorem Since.registered_mono (h : Since s s') {g : FileId} (hg : s.Registered g) :
    s'.Registered g := by
  obtain ⟨name, hname⟩ := hg
  exact ⟨name, h.registry name g hname⟩

theorem Since.trans (h : Since s s') (h' : Since s' s'') : Since s s'' where
  registry name id hid := h'.registry name id (h.registry name id hid)
  registered g hg := (h.registered g hg).trans (h'.registered g (h.registered_mono hg))
  file i hi := ⟨(h'.file i (h.file i hi).1).1,
    (h'.file i (h.file i hi).1).2.trans (h.file i hi).2⟩
  block f b hb := h'.block f b (h.block f b hb)
  enum f e he := h'.enum f e (h.enum f e he)
  field f d hd := h'.field f d (h.field f d hd)

theorem Since.of_touches {g : FileId} (ht : Pool.Touches g s.pool s'.pool)
    (hr : ∀ name id, s.registry.find? name = some id → s'.registry.find? name = some id)
    (hk : ∀ f, s.Registered f → Pool.Kept f s.pool s'.pool) : Since s s' :=
  ⟨hr, hk, fun i hi => ⟨(ht.file i hi).1, (ht.file i hi).2.1⟩, fun _ _ => ht.blockOf, fun _ _ => ht.enumOf,
    fun _ _ => ht.fieldOf⟩

/-- A step leads to a later session. -/
theorem Since.of_step (hx : Sound x) (hs : Step r x y) : Since x.1 y.1 := by
  obtain ⟨g, ht, hkept⟩ := hx.kept hs
  exact .of_touches ht (fun _ _ => hs.registry) fun f hf => (hkept f hf).2

theorem Since.of_steps (hx : Sound x) (hs : Steps r x y) : Since x.1 y.1 := by
  induction hs with
  | refl => exact .refl _
  | tail hsteps hstep ih => exact ih.trans (.of_step (hx.steps hsteps) hstep)

/-- The session `s'` is later than `s`, and the file `f` is as it was. -/
structure Later (f : FileId) (s s' : Session) : Prop where
  since : Since s s'
  kept : Pool.Kept f s.pool s'.pool

theorem Later.refl (f : FileId) (s : Session) : Later f s s := ⟨.refl s, .refl _ _⟩

theorem Later.trans (h : Later f s s') (h' : Later f s' s'') : Later f s s'' :=
  ⟨h.since.trans h'.since, h.kept.trans h'.kept⟩

/-! ### The invariants together -/

/-- What is so of a session and of the files that are being read. -/
structure Regular (x : State) : Prop where
  sound : Sound x
  grounds : Grounds x
  numbered : Numbered x.1

theorem Regular.step (h : Regular x) (hs : Step r x y) : Regular y :=
  ⟨h.sound.step hs, h.grounds.step h.sound hs, h.numbered.step h.sound hs⟩

theorem regular_empty : Regular ({}, []) := ⟨sound_empty, grounds_empty, numbered_empty⟩

theorem Regular.steps (h : Regular x) (hs : Steps r x y) : Regular y := by
  induction hs with
  | refl => exact h
  | tail _ hstep ih => exact ih.step hstep

/-- Some of the files that are being read may be forgotten. -/
theorem Regular.sublist {st' : List Reading} (h : Regular (s, st)) (hst : st'.Sublist st) :
    Regular (s, st') where
  sound := ⟨h.sound.tree, h.sound.types, ⟨h.sound.distinct.nodup.sublist (hst.map _),
    fun rd hrd => h.sound.distinct.free rd (hst.mem hrd)⟩, h.sound.named, h.sound.ordered,
    fun rd hrd => h.sound.reading rd (hst.mem hrd)⟩
  grounds := ⟨h.grounds.registered, fun rd hrd => h.grounds.reading rd (hst.mem hrd)⟩
  numbered := h.numbered

/-! ### Traces -/

/-- The file was begun in some session, and the events in front of its cursor were applied. -/
inductive Traced (r : Resolver) : Session → Reading → Prop
  | start {s : Session} {name file} (regular : Regular (s, [])) (free : s.registry.find? name = none)
      (opened : r.openFile name = .ok file) :
      Traced r (s.begin name file) (.start ⟨s.pool.files.size⟩ name file.text)
  | event {s : Session} {rd : Reading} {e rest c pool notice} (traced : Traced r s rd) (regular : Regular (s, [rd]))
      (next : rd.rest = e :: rest) (noImport : ∀ kind target, e ≠ .importFile kind target)
      (applied : rd.cursor.apply s.pool e = .ok (c, pool, notice)) :
      Traced r (s.declare rd.name pool notice) (rd.advance c e rest)
  | importFile {s : Session} {rd : Reading} {kind target rest id} (traced : Traced r s rd) (regular : Regular (s, [rd]))
      (next : rd.rest = .importFile kind target :: rest)
      (found : s.registry.find? target.value = some id) :
      Traced r (s.recordImport rd.cursor.file target.value ⟨id, kind⟩)
        (rd.advance rd.cursor (.importFile kind target) rest)
  | later {s s' : Session} {rd : Reading} (traced : Traced r s rd) (later : Later rd.cursor.file s s') : Traced r s' rd

/-- The file was read to its end and has passed its checks, and it is still as it was then. -/
inductive Completed (r : Resolver) (x : Session) : String → FileId → Prop
  | intro {s : Session} {rd : Reading} {pool} (traced : Traced r s rd) (regular : Regular (s, [rd]))
      (finished : rd.rest = []) (noFault : (Event.ofText rd.text).2 = none)
      (checked : Pool.checkFile rd.cursor.file (s.pool.recordTypes rd.cursor.file) = .ok () pool)
      (later : Later rd.cursor.file (s.register pool rd.name rd.cursor.file) x) :
      Completed r x rd.name rd.cursor.file

theorem Completed.of_later {name : String} (h : Completed r s name f) (hl : Later f s s') :
    Completed r s' name f := by
  cases h with
  | intro traced regular finished noFault checked later =>
    exact .intro traced regular finished noFault checked (later.trans hl)

/-! ### What is known of a file that was traced -/

theorem Traced.hasFile (h : Traced r s rd) :
    s.pool.HasFile rd.cursor.file ∧ (s.pool.file rd.cursor.file).name = rd.name := by
  induction h with
  | @start s name file regular free opened =>
    have hadded := Pool.fileAdded s.pool name file.path
    exact ⟨(hadded.files _).mpr (.inr rfl), congrArg File.name hadded.file_new⟩
  | event traced regular next noImport applied ih =>
    obtain ⟨ks, ks', hn, hf, heff, hrd⟩ :=
      reading_event (regular.sound.reading _ (List.mem_cons_self ..)) next applied
    exact ⟨hrd.hasFile, hrd.name⟩
  | importFile traced regular next found ih =>
    have hrd := reading_importFile (regular.sound.reading _ (List.mem_cons_self ..)) next found
    exact ⟨hrd.hasFile, hrd.name⟩
  | later traced later ih =>
    obtain ⟨hf, hn⟩ := later.since.file _ ih.1
    exact ⟨hf, hn.trans ih.2⟩

/-- The events in front of the cursor and those behind it are those of the text. -/
theorem Traced.text (h : Traced r s rd) : (Event.ofText rd.text).1 = rd.done ++ rd.rest := by
  induction h with
  | start => rfl
  | event traced regular next noImport applied ih =>
    simp only [Reading.advance, ih, next, List.append_assoc, List.singleton_append]
  | importFile traced regular next found ih =>
    simp only [Reading.advance, ih, next, List.append_assoc, List.singleton_append]
  | later traced later ih => exact ih

/-- Every import in front of the cursor is recorded. -/
theorem Traced.imports (h : Traced r s rd) {kind : ImportKind} {target : Located String}
    (hi : .importFile kind target ∈ rd.done) :
    ∃ i, (s.pool.file rd.cursor.file).imports.find? target.value = some i := by
  induction h with
  | start => cases hi
  | @event s rd e rest c pool notice traced regular next noImport applied ih =>
    obtain ⟨ks, ks', hn, hf, heff, hrd⟩ :=
      reading_event (regular.sound.reading _ (List.mem_cons_self ..)) next applied
    rcases List.mem_append.mp hi with hi | hi
    · show ∃ i, (pool.file c.file).imports.find? target.value = some i
      rw [heff.file_eq, ((heff.tables hn hf).2.2 _).1]
      exact ih hi
    · exact absurd (List.mem_singleton.mp hi).symm (noImport kind target)
  | @importFile s rd kind' target' rest id traced regular next found ih =>
    have hfile : (s.recordImport rd.cursor.file target'.value ⟨id, kind'⟩).pool.file rd.cursor.file =
        { s.pool.file rd.cursor.file with
          imports := (s.pool.file rd.cursor.file).imports.insert target'.value ⟨id, kind'⟩ } := by
      rw [recordImport, Pool.file_modifyFile, if_pos ⟨rfl, traced.hasFile.1⟩]
    show ∃ i, ((s.recordImport rd.cursor.file target'.value ⟨id, kind'⟩).pool.file
      rd.cursor.file).imports.find? target.value = some i
    rw [hfile, Table.find?_insert]
    rcases List.mem_append.mp hi with hi | hi
    · obtain ⟨i, hi⟩ := ih hi
      exact ⟨i, by rw [hi]; rfl⟩
    · cases List.mem_singleton.mp hi
      rw [if_pos rfl]
      cases (s.pool.file rd.cursor.file).imports.find? target.value with
      | some i => exact ⟨i, rfl⟩
      | none => exact ⟨_, rfl⟩
  | later traced later ih =>
    rw [later.kept.file]
    exact ih hi

/-- The text and the path of a file are those that the resolver gives. -/
theorem Traced.opened (h : Traced r s rd) : ∃ file, r.openFile rd.name = .ok file ∧
    rd.text = file.text ∧ (s.pool.file rd.cursor.file).path = file.path := by
  induction h with
  | @start s name file regular free opened =>
    exact ⟨file, opened, rfl, congrArg File.path (Pool.fileAdded s.pool name file.path).file_new⟩
  | @event s rd e rest c pool notice traced regular next noImport applied ih =>
    obtain ⟨file, opened, htext, hpath⟩ := ih
    obtain ⟨ks, ks', hn, hf, heff, hrd⟩ :=
      reading_event (regular.sound.reading _ (List.mem_cons_self ..)) next applied
    refine ⟨file, opened, htext, ?_⟩
    show (pool.file c.file).path = _
    rw [heff.file_eq, heff.path_eq hn hf, hpath]
  | @importFile s rd kind target rest id traced regular next found ih =>
    obtain ⟨file, opened, htext, hpath⟩ := ih
    refine ⟨file, opened, htext, Eq.trans ?_ hpath⟩
    show ((s.recordImport _ _ _).pool.file rd.cursor.file).path = _
    rw [recordImport, Pool.file_modifyFile]
    split <;> rfl
  | later traced later ih =>
    obtain ⟨file, opened, htext, hpath⟩ := ih
    exact ⟨file, opened, htext, by rw [later.kept.file, hpath]⟩

/-- How the files of a session were read. -/
structure History (r : Resolver) (x : State) : Prop where
  reading : ∀ rd ∈ x.2, Traced r x.1 rd
  registered : ∀ name f, x.1.registry.find? name = some f → Completed r x.1 name f

/-- While a file is changed that is not registered, the others are as they were. -/
theorem History.change (h : History r (s, st)) (hx : Sound (s, st)) {g : FileId}
    {st' : List Reading} (hst : st'.Sublist st) (hg : ¬s.Registered g)
    (hne : ∀ rd ∈ st', rd.cursor.file ≠ g) (ht : Pool.Touches g s.pool s'.pool)
    (hr : s'.registry = s.registry) : History r (s', st') := by
  have hkept : ∀ f, s.Registered f → Pool.Kept f s.pool s'.pool := fun f hf =>
    ht.kept hx.tree (hx.hasFile hf) fun e => hg (e ▸ hf)
  have hsince : Since s s' := .of_touches ht (fun name id hid => hr ▸ hid) hkept
  refine ⟨fun rd hrd => ?_, fun name f hf => ?_⟩
  · refine (h.reading rd (hst.mem hrd)).later ⟨hsince, ?_⟩
    exact ht.kept hx.tree (hx.reading rd (hst.mem hrd)).hasFile (hne rd hrd)
  · have hf : s.registry.find? name = some f := hr ▸ hf
    exact (h.registered name f hf).of_later ⟨hsince, hkept f ⟨name, hf⟩⟩

theorem History.cons (h : History r (s, st)) (hrd : Traced r s rd) : History r (s, rd :: st) :=
  ⟨List.forall_mem_cons.mpr ⟨hrd, h.reading⟩, h.registered⟩

/-- Every step keeps the history. -/
theorem History.step (hx : Regular x) (h : History r x) (hs : Step r x y) : History r y := by
  have hsound := hx.sound
  cases hs with
  | @begin s st name file free fresh opened =>
    refine History.cons (h.change hsound (.refl _) ?_ ?_
      (.of_fileAdded (g := ⟨s.pool.files.size⟩) (Pool.fileAdded s.pool name file.path)) rfl)
      (.start (hx.sublist (List.nil_sublist _)) free opened)
    · exact fun hr => Pool.not_hasFile_size (hsound.hasFile hr)
    · exact fun rd hrd e => Pool.not_hasFile_size (e ▸ (hsound.reading rd hrd).hasFile)
  | @event s st rd e rest c pool notice next noImport applied =>
    obtain ⟨ks, ks', hn, hf, heff, -⟩ :=
      reading_event (hsound.reading rd (List.mem_cons_self ..)) next applied
    refine History.cons (h.change hsound (List.sublist_cons_self ..)
      (hsound.not_registered (List.mem_cons_self ..)) (fun rd' => hsound.file_ne)
      (heff.touches hn hf) rfl) ?_
    exact .event (h.reading rd (List.mem_cons_self ..))
      (hx.sublist (List.singleton_sublist.mpr (List.mem_cons_self ..))) next noImport applied
  | @importFile s st rd kind target rest id next found =>
    refine History.cons (h.change hsound (List.sublist_cons_self ..)
      (hsound.not_registered (List.mem_cons_self ..)) (fun rd' => hsound.file_ne)
      (.modifyFile _ fun _ => rfl) rfl) ?_
    exact .importFile (h.reading rd (List.mem_cons_self ..))
      (hx.sublist (List.singleton_sublist.mpr (List.mem_cons_self ..))) next found
  | @complete s st rd pool finished noFault checked =>
    obtain ⟨hc, ht⟩ := hsound.checked checked
    have hothers : History r ({ s with pool }, st) := h.change hsound (List.sublist_cons_self ..)
      (hsound.not_registered (List.mem_cons_self ..)) (fun rd' => hsound.file_ne) ht rfl
    have hfree := hsound.distinct.free rd (List.mem_cons_self ..)
    have hsince : Since { s with pool } (s.register pool rd.name rd.cursor.file) := by
      refine ⟨fun name id hid => ?_, fun _ _ => .refl _ _, fun _ h => ⟨h, rfl⟩, fun _ _ h => h,
        fun _ _ h => h, fun _ _ h => h⟩
      rw [register, Table.find?_insert, hid]
      rfl
    refine ⟨fun rd' hrd => (hothers.reading rd' hrd).later ⟨hsince, .refl _ _⟩, fun name f hf => ?_⟩
    rw [register, Table.find?_insert, Option.or_eq_some_iff] at hf
    rcases hf with hf | ⟨-, hf⟩
    · exact (hothers.registered name f hf).of_later ⟨hsince, .refl _ _⟩
    · split at hf
      · next he =>
        cases hf
        rw [he]
        exact .intro (h.reading rd (List.mem_cons_self ..))
          (hx.sublist (List.singleton_sublist.mpr (List.mem_cons_self ..))) finished noFault checked
          (.refl _ _)
      · cases hf
  | @reject s st rd fault pool finished checked =>
    exact h.change hsound (List.sublist_cons_self ..)
      (hsound.not_registered (List.mem_cons_self ..)) (fun rd' => hsound.file_ne)
      (hsound.swept checked).2 rfl
  | @abandon s st rd =>
    exact h.change hsound (List.sublist_cons_self ..)
      (hsound.not_registered (List.mem_cons_self ..)) (fun rd' => hsound.file_ne) (.refl _ _) rfl

theorem history_empty : History r ({}, []) :=
  ⟨fun rd hrd => (by cases hrd), fun name f hf => (by cases hf)⟩

theorem History.steps (hx : Regular x) (h : History r x) (hs : Steps r x y) : History r y := by
  induction hs with
  | refl => exact h
  | tail hsteps hstep ih => exact ih.step (hx.steps hsteps) hstep

end Session

end ProtoSchema

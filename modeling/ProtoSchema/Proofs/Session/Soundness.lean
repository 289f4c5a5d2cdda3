import ProtoSchema.Proofs.Pool.Checking
import ProtoSchema.Proofs.Session.Steps

/-! # What every step keeps

`Sound` is the invariant of a session and the files that are being read: the tree is well-formed,
every registered file has the name it is registered under and stands behind the files it imports,
and every file that is being read is where its cursor says.  A step touches one file only, and that
file is not registered (`Sound.touches`), so what is registered stays as it is. -/

namespace ProtoSchema.Session

variable {r : Resolver} {x y : State} {s s' : Session} {st : List Reading} {rd : Reading}

/-- A file is registered under a name. -/
def Registered (s : Session) (id : FileId) : Prop := ∃ name, s.registry.find? name = some id

/-- A file that is being read: what is read of it so far and what is still to be read. -/
structure Reading.Sound (s : Session) (rd : Reading) : Prop where
  text : (Event.ofText rd.text).1 = rd.done ++ rd.rest
  name : (s.pool.file rd.cursor.file).name = rd.name
  fits : ∃ ks ks', rd.cursor.Fits s.pool ks ∧ Event.Nested ks rd.rest ks'
  imports : ∀ target i, (s.pool.file rd.cursor.file).imports.find? target = some i →
    s.registry.find? target = some i.file

/-- The invariant of a session and of the files that are being read. -/
structure Sound (x : State) : Prop where
  tree : x.1.pool.WellFormed
  types : x.1.pool.TypesSound
  distinct : Distinct x
  named : ∀ name id, x.1.registry.find? name = some id →
    x.1.pool.HasFile id ∧ (x.1.pool.file id).name = name
  ordered : ∀ (k : Nat) name id, x.1.registry.entries[k]? = some (name, id) →
    ∀ target i, (x.1.pool.file id).imports.find? target = some i →
      ∃ j < k, x.1.registry.entries[j]? = some (target, i.file)
  reading : ∀ rd ∈ x.2, rd.Sound x.1

/-! ### Files -/

theorem Reading.Sound.hasFile (h : rd.Sound s) : s.pool.HasFile rd.cursor.file := by
  obtain ⟨_, _, hf, -⟩ := h.fits
  exact hf.hasFile

/-- A file that is being read is not registered. -/
theorem Sound.not_registered (h : Sound (s, st)) (hrd : rd ∈ st) :
    ¬s.Registered rd.cursor.file := by
  rintro ⟨name, hname⟩
  have hn := (h.named name _ hname).2
  have hfree := h.distinct.free rd hrd
  rw [← (h.reading rd hrd).name, hn] at hfree
  exact Option.some_ne_none _ (hname.symm.trans hfree)

/-- Different files are being read. -/
theorem Sound.file_ne (h : Sound (s, rd :: st)) {rd' : Reading} (hrd : rd' ∈ st) :
    rd'.cursor.file ≠ rd.cursor.file := by
  intro e
  have h₁ := (h.reading rd (List.mem_cons_self ..)).name
  have h₂ := (h.reading rd' (List.mem_cons_of_mem _ hrd)).name
  have hnodup := h.distinct.nodup
  rw [List.map_cons, List.nodup_cons] at hnodup
  refine hnodup.1 (List.mem_map.mpr ⟨rd', hrd, ?_⟩)
  rw [← h₁, ← h₂, e]

theorem Sound.hasFile (h : Sound x) {id : FileId} (hid : x.1.Registered id) :
    x.1.pool.HasFile id := by
  obtain ⟨name, hname⟩ := hid
  exact (h.named name id hname).1

theorem registered_register {s : Session} {pool : Pool} {name : String} {id f : FileId}
    (free : s.registry.find? name = none) :
    (s.register pool name id).Registered f ↔ s.Registered f ∨ f = id := by
  simp only [Registered, register, Table.find?_insert, Option.or_eq_some_iff]
  constructor
  · rintro ⟨name', h | ⟨-, h⟩⟩
    · exact .inl ⟨name', h⟩
    · split at h
      · cases h
        exact .inr rfl
      · cases h
  · rintro (⟨name', h⟩ | rfl)
    · exact ⟨name', .inl h⟩
    · exact ⟨name, .inr ⟨free, by simp⟩⟩

/-- The files that a registered file imports are registered. -/
theorem Sound.imported (h : Sound x) {id : FileId} (hid : x.1.Registered id) {target : String}
    {i : Import} (hi : (x.1.pool.file id).imports.find? target = some i) :
    x.1.registry.find? target = some i.file := by
  obtain ⟨name, hname⟩ := hid
  obtain ⟨k, hk⟩ := List.getElem?_of_mem (Table.mem_entries_iff.mpr hname)
  obtain ⟨j, -, hj⟩ := h.ordered k name id hk target i hi
  exact Table.mem_entries_iff.mp (List.mem_of_getElem? hj)

/-! ### Reading -/

/-- At the beginning of a file nothing is declared in it. -/
theorem fits_begin (hw : s.pool.WellFormed) (name : String) (file : SourceFile) :
    (Cursor.start ⟨s.pool.files.size⟩).Fits (s.begin name file).pool [] := by
  have hadded := Pool.fileAdded s.pool name file.path
  refine Cursor.fits_start ((hadded.files _).mpr (.inr rfl)) ?_ ?_
  · rintro b ⟨hb, he⟩
    rw [begin, hadded.hasBlock] at hb
    rw [begin, hadded.block] at he
    exact Pool.not_hasFile_size (hw.hasFile_of_blockOf ⟨hb, he⟩)
  · rintro e ⟨he, hf⟩
    rw [begin, hadded.hasEnum] at he
    rw [begin, hadded.enum] at hf
    exact Pool.not_hasFile_size (hw.hasFile_of_enumOf ⟨he, hf⟩)

theorem reading_start (hw : s.pool.WellFormed) (name : String) (file : SourceFile) :
    (Reading.start ⟨s.pool.files.size⟩ name file.text).Sound (s.begin name file) := by
  have hadded := Pool.fileAdded s.pool name file.path
  have hfile : (s.begin name file).pool.file (Reading.start ⟨s.pool.files.size⟩ name
      file.text).cursor.file = { name, path := file.path } := hadded.file_new
  obtain ⟨ks, hnested, -⟩ := Event.nested_ofText file.text
  refine ⟨rfl, by rw [hfile]; rfl, ⟨[], ks, fits_begin hw name file, hnested⟩, ?_⟩
  intro target i hi
  rw [hfile] at hi
  cases hi

/-- A file that is being read stays so while another is changed. -/
theorem Reading.Sound.of_touches (h : rd.Sound s) {g : FileId} (ht : Pool.Touches g s.pool s'.pool)
    (hw : s.pool.WellFormed) (hne : rd.cursor.file ≠ g)
    (hr : ∀ name id, s.registry.find? name = some id → s'.registry.find? name = some id) :
    rd.Sound s' := by
  have hkept := ht.kept hw h.hasFile hne
  obtain ⟨ks, ks', hf, hn⟩ := h.fits
  refine ⟨h.text, by rw [hkept.file, h.name], ⟨ks, ks', hf.of_kept ht hkept, hn⟩, ?_⟩
  intro target i hi
  rw [hkept.file] at hi
  exact hr _ _ (h.imports target i hi)

/-- An event of a file that is being read. -/
theorem reading_event (h : rd.Sound s) {e : Event} {rest : List Event} {c : Cursor} {pool : Pool}
    {notice : Option Notice} (next : rd.rest = e :: rest)
    (applied : rd.cursor.apply s.pool e = .ok (c, pool, notice)) :
    ∃ ks ks', e.Nests ks ks' ∧ rd.cursor.Fits s.pool ks ∧
      Cursor.Effect rd.cursor s.pool e c pool ∧
        (rd.advance c e rest).Sound (s.declare rd.name pool notice) := by
  obtain ⟨ks, last, hf, hn⟩ := h.fits
  rw [next] at hn
  cases hn with
  | @cons _ _ _ ks' _ head tail =>
    have heff := Cursor.effect_of_apply applied
    have hfile := heff.file_eq
    obtain ⟨-, -, htables⟩ := heff.tables head hf
    refine ⟨ks, ks', head, hf, heff, ?_, ?_, ⟨ks', last, heff.fits head hf, tail⟩, ?_⟩
    · simp only [Reading.advance, h.text, next, List.append_assoc, List.singleton_append]
    · show (pool.file c.file).name = rd.name
      rw [hfile, ((heff.touches head hf).file _ hf.hasFile).2.1, h.name]
    · show ∀ target i, (pool.file c.file).imports.find? target = some i → _
      rw [hfile, (htables _).1]
      exact h.imports

/-- An import of a file that is being read. -/
theorem reading_importFile (h : rd.Sound s) {kind : ImportKind} {target : Located String}
    {rest : List Event} {id : FileId} (next : rd.rest = .importFile kind target :: rest)
    (found : s.registry.find? target.value = some id) :
    (rd.advance rd.cursor (.importFile kind target) rest).Sound
      (s.recordImport rd.cursor.file target.value ⟨id, kind⟩) := by
  obtain ⟨ks, last, hf, hn⟩ := h.fits
  rw [next] at hn
  have hfile : (s.recordImport rd.cursor.file target.value ⟨id, kind⟩).pool.file rd.cursor.file =
      { s.pool.file rd.cursor.file with
        imports := (s.pool.file rd.cursor.file).imports.insert target.value ⟨id, kind⟩ } := by
    rw [recordImport, Pool.file_modifyFile, if_pos ⟨rfl, hf.hasFile⟩]
  cases hn with
  | @cons _ _ _ ks' _ head tail =>
    cases head
    refine ⟨?_, ?_, ⟨[], last, ?_, tail⟩, ?_⟩
    · simp only [Reading.advance, h.text, next, List.append_assoc, List.singleton_append]
    · rw [show (rd.advance _ _ _).cursor = rd.cursor from rfl, hfile]
      exact h.name
    · exact hf.of_touches (.modifyFile (g := rd.cursor.file) _ fun _ => rfl) rfl rfl
    · intro target' i hi
      rw [show (rd.advance _ _ _).cursor = rd.cursor from rfl, hfile, Table.find?_insert,
        Option.or_eq_some_iff] at hi
      rcases hi with hi | ⟨-, hi⟩
      · exact h.imports target' i hi
      · split at hi
        · next he =>
          cases hi
          rw [he]
          exact found
        · cases hi

/-! ### Steps -/

/-- A change to a file that is not registered, with those files still being read that it leaves
alone. -/
theorem Sound.change (h : Sound (s, st)) {g : FileId} {st' : List Reading} {pool : Pool}
    {warnings : List Warning} (hst : st'.Sublist st) (hg : ¬s.Registered g)
    (hne : ∀ rd ∈ st', rd.cursor.file ≠ g) (ht : Pool.Touches g s.pool pool)
    (hw : pool.WellFormed) (htypes : pool.TypesSound) :
    Sound ({ s with pool, warnings }, st') where
  tree := hw
  types := htypes
  distinct := ⟨h.distinct.nodup.sublist (hst.map _), fun rd hrd => h.distinct.free rd (hst.mem hrd)⟩
  named name id hid := by
    obtain ⟨hf, hn⟩ := h.named name id hid
    obtain ⟨hf', hn', -⟩ := ht.file id hf
    exact ⟨hf', hn'.trans hn⟩
  ordered k name id hid target i hi := by
    have hreg : s.Registered id := ⟨name, Table.mem_entries_iff.mp (List.mem_of_getElem? hid)⟩
    have hfile : pool.file id = s.pool.file id :=
      (ht.file id (h.hasFile hreg)).2.2 fun e => hg (e ▸ hreg)
    rw [hfile] at hi
    exact h.ordered k name id hid target i hi
  reading rd hrd := (h.reading rd (hst.mem hrd)).of_touches ht h.tree (hne rd hrd) fun _ _ h => h

/-- One more file is being read. -/
theorem Sound.cons (h : Sound (s, st)) (hd : Distinct (s, rd :: st)) (hrd : rd.Sound s) :
    Sound (s, rd :: st) :=
  ⟨h.tree, h.types, hd, h.named, h.ordered, List.forall_mem_cons.mpr ⟨hrd, h.reading⟩⟩

/-- A file is registered behind those that it imports. -/
theorem Sound.register (h : Sound (s, st)) {name : String} {id : FileId}
    (hd : Distinct (s.register s.pool name id, st)) (free : s.registry.find? name = none)
    (hf : s.pool.HasFile id) (hname : (s.pool.file id).name = name)
    (himports : ∀ target i, (s.pool.file id).imports.find? target = some i →
      s.registry.find? target = some i.file) : Sound (s.register s.pool name id, st) where
  tree := h.tree
  types := h.types
  distinct := hd
  named name' id' hid := by
    rw [Session.register, Table.find?_insert, Option.or_eq_some_iff] at hid
    rcases hid with hid | ⟨-, hid⟩
    · exact h.named name' id' hid
    · split at hid
      · next he =>
        cases hid
        exact ⟨hf, he ▸ hname⟩
      · cases hid
  ordered k name' id' hid target i hi := by
    simp only [Session.register, Table.entries_insert free] at hid ⊢
    rcases Nat.lt_or_ge k s.registry.entries.length with hk | hk
    · rw [List.getElem?_append_left hk] at hid
      obtain ⟨j, hj, he⟩ := h.ordered k name' id' hid target i hi
      exact ⟨j, hj, by rw [List.getElem?_append_left (Nat.lt_trans hj hk), he]⟩
    · -- the new file: all its imports were registered before it
      rw [List.getElem?_append_right hk, List.getElem?_singleton] at hid
      split at hid
      · next hz =>
        cases hid
        obtain ⟨j, hj⟩ := List.getElem?_of_mem (Table.mem_entries_iff.mpr (himports target i hi))
        have hlt := (List.getElem?_eq_some_iff.mp hj).1
        exact ⟨j, by omega, by rw [List.getElem?_append_left hlt, hj]⟩
      · cases hid
  reading rd hrd := by
    have hold := h.reading rd hrd
    refine ⟨hold.text, hold.name, hold.fits, fun target i hi => ?_⟩
    rw [Session.register, Table.find?_insert, hold.imports target i hi]
    rfl

/-- Before the checks of a file its types are recorded. -/
theorem recordTypes_sound {pool : Pool} (hw : pool.WellFormed) (ht : pool.TypesSound) (f : FileId) :
    (pool.recordTypes f).WellFormed ∧ (pool.recordTypes f).TypesSound ∧
      Pool.Touches f pool (pool.recordTypes f) := by
  refine ⟨?_, ht.recordTypes hw, .modifyFile _ fun _ => rfl⟩
  refine Pool.SameTree.wellFormed (.modifyFile _ _ ?_) hw
  exact fun _ => ⟨rfl, rfl⟩

/-- What the end of a file does to the pool. -/
theorem Sound.checked (h : Sound (s, rd :: st)) {pool : Pool}
    (checked : Pool.checkFile rd.cursor.file (s.pool.recordTypes rd.cursor.file) = .ok () pool) :
    Pool.Checked rd.cursor.file (s.pool.recordTypes rd.cursor.file) pool ∧
      Pool.Touches rd.cursor.file s.pool pool := by
  obtain ⟨hw, -, htouches⟩ := recordTypes_sound h.tree h.types rd.cursor.file
  have hfile := (h.reading rd (List.mem_cons_self ..)).hasFile
  have hc := Pool.checkFile_ends hw (htouches.file _ hfile).1
  rw [checked] at hc
  exact ⟨hc, htouches.trans h.tree (hc.touches hw)⟩

theorem Sound.swept (h : Sound (s, rd :: st)) {fault : Fault} {pool : Pool}
    (checked : Pool.checkFile rd.cursor.file (s.pool.recordTypes rd.cursor.file) =
      .error fault pool) :
    Pool.Swept rd.cursor.file (s.pool.recordTypes rd.cursor.file) pool ∧
      Pool.Touches rd.cursor.file s.pool pool := by
  obtain ⟨hw, -, htouches⟩ := recordTypes_sound h.tree h.types rd.cursor.file
  have hfile := (h.reading rd (List.mem_cons_self ..)).hasFile
  have hc := Pool.checkFile_ends hw (htouches.file _ hfile).1
  rw [checked] at hc
  exact ⟨hc, htouches.trans h.tree (hc.touches hw)⟩

/-- Every step keeps the invariant. -/
theorem Sound.step (h : Sound x) (hs : Step r x y) : Sound y := by
  have hd := h.distinct.step hs
  cases hs with
  | @begin s st name file free fresh opened =>
    have hadded := Pool.fileAdded s.pool name file.path
    have htouches : Pool.Touches ⟨s.pool.files.size⟩ s.pool (s.begin name file).pool :=
      .of_fileAdded hadded
    refine Sound.cons (h.change (.refl _) ?_ ?_ htouches (h.tree.of_fileAdded hadded)
      (h.types.of_touches htouches fun i => ?_)) hd (reading_start h.tree name file)
    · exact fun hr => Pool.not_hasFile_size (h.hasFile hr)
    · exact fun rd hrd e => Pool.not_hasFile_size (e ▸ (h.reading rd hrd).hasFile)
    · show ((s.pool.addFile name file.path).1.file i).types = _
      by_cases hi : i = ⟨s.pool.files.size⟩
      · rw [hi, Pool.file_of_not_hasFile Pool.not_hasFile_size, hadded.file_new]
        rfl
      · rw [hadded.file i hi]
  | @event s st rd e rest c pool notice next noImport applied =>
    obtain ⟨ks, ks', hn, hf, heff, hrd⟩ :=
      reading_event (h.reading rd (List.mem_cons_self ..)) next applied
    have htouches := heff.touches hn hf
    exact Sound.cons (h.change (List.sublist_cons_self ..) (h.not_registered (List.mem_cons_self ..))
      (fun rd' => h.file_ne) htouches (heff.wellFormed hn hf h.tree)
      (h.types.of_touches htouches fun i => ((heff.tables hn hf).2.2 i).2)) hd hrd
  | @importFile s st rd kind target rest id next found =>
    have hrd := reading_importFile (h.reading rd (List.mem_cons_self ..)) next found
    have htouches : Pool.Touches rd.cursor.file s.pool
        (s.recordImport rd.cursor.file target.value ⟨id, kind⟩).pool := .modifyFile _ fun _ => rfl
    have hw : (s.recordImport rd.cursor.file target.value ⟨id, kind⟩).pool.WellFormed := by
      refine Pool.SameTree.wellFormed (.modifyFile _ _ ?_) h.tree
      exact fun _ => ⟨rfl, rfl⟩
    refine Sound.cons (h.change (List.sublist_cons_self ..)
      (h.not_registered (List.mem_cons_self ..)) (fun rd' => h.file_ne) htouches hw
      (h.types.of_touches htouches fun i => ?_)) hd hrd
    simp only [Pool.file_modifyFile]
    split <;> rfl
  | @complete s st rd pool finished noFault checked =>
    have hrd := h.reading rd (List.mem_cons_self ..)
    obtain ⟨hw, ht, -⟩ := recordTypes_sound h.tree h.types rd.cursor.file
    obtain ⟨hc, htouches⟩ := h.checked checked
    have hfile : (pool.file rd.cursor.file).imports =
        (s.pool.file rd.cursor.file).imports := by
      rw [hc.file_eq, Pool.recordTypes, Pool.file_modifyFile]
      split <;> rfl
    have hothers : Sound ({ s with pool }, st) := h.change (List.sublist_cons_self ..)
      (h.not_registered (List.mem_cons_self ..)) (fun rd' => h.file_ne) htouches
      (hc.sameTree.wellFormed hw) (ht.of_touches (hc.touches hw) fun i => by rw [hc.file_eq])
    refine hothers.register hd (h.distinct.free rd (List.mem_cons_self ..)) ?_ ?_ ?_
    · exact (htouches.file _ hrd.hasFile).1
    · exact (htouches.file _ hrd.hasFile).2.1.trans hrd.name
    · show ∀ target i, (pool.file rd.cursor.file).imports.find? target = some i → _
      rw [hfile]
      exact hrd.imports
  | @reject s st rd fault pool finished checked =>
    obtain ⟨hw, ht, -⟩ := recordTypes_sound h.tree h.types rd.cursor.file
    obtain ⟨hc, htouches⟩ := h.swept checked
    exact h.change (List.sublist_cons_self ..) (h.not_registered (List.mem_cons_self ..))
      (fun rd' => h.file_ne) htouches (hc.sameTree.wellFormed hw)
      (ht.of_touches (hc.touches hw) fun i => by rw [hc.file_eq])
  | @abandon s st rd =>
    exact h.change (List.sublist_cons_self ..) (h.not_registered (List.mem_cons_self ..))
      (fun rd' => h.file_ne) (.refl _ _) h.tree h.types

/-- A step leaves every registered file alone. -/
theorem Sound.kept (h : Sound x) (hs : Step r x y) :
    ∃ g, Pool.Touches g x.1.pool y.1.pool ∧ ∀ f, x.1.Registered f → f ≠ g ∧
      Pool.Kept f x.1.pool y.1.pool := by
  have hkept : ∀ {g pool}, Pool.Touches g x.1.pool pool → ¬x.1.Registered g →
      ∃ g, Pool.Touches g x.1.pool pool ∧ ∀ f, x.1.Registered f → f ≠ g ∧
        Pool.Kept f x.1.pool pool := by
    intro g pool ht hg
    refine ⟨g, ht, fun f hf => ?_⟩
    have hne : f ≠ g := fun e => hg (e ▸ hf)
    exact ⟨hne, ht.kept h.tree (h.hasFile hf) hne⟩
  cases hs with
  | @begin s st name file =>
    refine hkept (.of_fileAdded (g := ⟨s.pool.files.size⟩) (Pool.fileAdded s.pool name file.path)) ?_
    exact fun hr => Pool.not_hasFile_size (h.hasFile hr)
  | event next noImport applied =>
    obtain ⟨ks, ks', hn, hf, heff, -⟩ :=
      reading_event (h.reading _ (List.mem_cons_self ..)) next applied
    exact hkept (heff.touches hn hf) (h.not_registered (List.mem_cons_self ..))
  | importFile =>
    exact hkept (.modifyFile _ fun _ => rfl) (h.not_registered (List.mem_cons_self ..))
  | complete finished noFault checked =>
    exact hkept (h.checked checked).2 (h.not_registered (List.mem_cons_self ..))
  | reject finished checked =>
    exact hkept (h.swept checked).2 (h.not_registered (List.mem_cons_self ..))
  | abandon => exact hkept (.refl _ _) (h.not_registered (List.mem_cons_self ..))

/-- Nothing is read yet. -/
theorem sound_empty : Sound ({}, []) where
  tree := Pool.wellFormed_empty
  types i name t h := by cases h
  distinct := ⟨List.nodup_nil, by simp⟩
  named name id h := by cases h
  ordered k name id h := by cases h
  reading rd h := by cases h

theorem Sound.steps (h : Sound x) (hs : Steps r x y) : Sound y := by
  induction hs with
  | refl => exact h
  | tail _ hstep ih => exact ih.step hstep

/-- What is registered stays registered. -/
theorem Step.registry (hs : Step r x y) {name : String} {id : FileId}
    (hid : x.1.registry.find? name = some id) : y.1.registry.find? name = some id := by
  cases hs with
  | begin | event | importFile | reject | abandon => exact hid
  | complete => rw [register, Table.find?_insert, hid]; rfl

end ProtoSchema.Session

import ProtoSchema.Proofs.Pool.Grounding
import ProtoSchema.Proofs.Session.Bindings

/-! # Sessions of grounded files

In every session all registered files are grounded, and all that are being read (`Grounds`).  A file
loses no import, so it sees what it has seen. -/

namespace ProtoSchema

namespace Pool

variable {pool other : Pool} {f : FileId}

/-- A sweep leaves a file grounded. -/
theorem Grounded.swept (h : pool.Grounded f) (hs : Swept f pool other) (hw : pool.WellFormed)
    (ht : pool.TypesSound) (hf : pool.HasFile f)
    (hg : ∀ i ∈ (pool.file f).imports.values, pool.Grounded i.file) : other.Grounded f := by
  induction hs with
  | refl => exact h
  | @tail swept last hab hbc ih =>
    have hswept : Swept f pool swept := hab
    have hw' := hswept.sameTree.wellFormed hw
    have hbc' : KeepsImports swept last := fun i k hk => by rwa [hbc.file_eq]
    have htouches : Touches f pool last := Swept.touches (hab.tail hbc) hw
    have hkeeps : KeepsImports pool last := fun i k hk => by rwa [hbc.file_eq, hswept.file_eq]
    refine ⟨fun {s name offset t} hr => ?_, fun {name t} hfind => ?_⟩
    · rcases hbc.refers hw' hr with hold | ⟨hs, hsf, hfound⟩
      · exact hbc.touches.hasVisible hbc' (ih.bound hold)
      · -- the name denotes what it denoted in front of the sweep
        have hs' : pool.InRange s := by
          cases s with
          | file i => exact (show pool.HasFile i from hswept.sameTree.files ▸ hs)
          | block b => exact (show pool.HasBlock b from hswept.sameTree.blocks ▸ hs)
        have hsf' : pool.scopeFile s = f := (hswept.sameTree.scopeFile s).symm.trans hsf
        rw [hswept.resolve?_eq hw hs' hsf' hf] at hfound
        exact htouches.hasVisible hkeeps (visible_of_resolve? hw ht hg hs' hsf' hfound)
    · rw [hbc.file_eq, hswept.file_eq] at hfind
      exact htouches.hasPassedOn hkeeps (h.listed hfind)

theorem Grounded.setExtensions (h : pool.Grounded f) (extensions : Table (BlockId × Nat) FieldId) :
    ({ pool with extensions } : Pool).Grounded f :=
  h.of_kept ⟨rfl, fun _ => .rfl, fun _ => .rfl, fun _ => .rfl, fun _ _ => rfl, fun _ _ => rfl,
    fun _ _ => rfl⟩ (.setExtensions (g := f) extensions) fun _ _ hk => hk

end Pool

namespace Session

variable {r : Resolver} {x y : State} {s s' : Session} {st : List Reading} {rd : Reading}

/-- Registered files are grounded, and so are those that are being read. -/
structure Grounds (x : State) : Prop where
  registered : ∀ f, x.1.Registered f → x.1.pool.Grounded f
  reading : ∀ rd ∈ x.2, x.1.pool.Grounded rd.cursor.file

/-- The files that a file imports which is being read are grounded. -/
theorem Grounds.imported (h : Grounds x) (hrd : rd.Sound x.1) :
    ∀ i ∈ (x.1.pool.file rd.cursor.file).imports.values, x.1.pool.Grounded i.file := by
  intro i hi
  obtain ⟨target, htarget⟩ := Table.mem_values_iff.mp hi
  exact h.registered _ ⟨target, hrd.imports target i htarget⟩

/-- The invariant while a file is changed that is not registered. -/
theorem Grounds.change (h : Grounds (s, st)) (hx : Sound (s, st)) {g : FileId}
    {st' : List Reading} {pool : Pool} {warnings : List Warning} (hst : st'.Sublist st)
    (hg : ¬s.Registered g) (hne : ∀ rd ∈ st', rd.cursor.file ≠ g)
    (ht : Pool.Touches g s.pool pool) (hi : Pool.KeepsImports s.pool pool) :
    Grounds ({ s with pool, warnings }, st') where
  registered f hf := (h.registered f hf).of_kept
    (ht.kept hx.tree (hx.hasFile hf) fun e => hg (e ▸ hf)) ht hi
  reading rd hrd := (h.reading rd (hst.mem hrd)).of_kept
    (ht.kept hx.tree (hx.reading rd (hst.mem hrd)).hasFile (hne rd hrd)) ht hi

theorem Grounds.cons (h : Grounds (s, st)) (hrd : s.pool.Grounded rd.cursor.file) :
    Grounds (s, rd :: st) :=
  ⟨h.registered, List.forall_mem_cons.mpr ⟨hrd, h.reading⟩⟩

/-- A file when its checks begin. -/
theorem Grounds.recordTypes (h : Grounds (s, rd :: st)) (hx : Sound (s, rd :: st)) :
    (s.pool.recordTypes rd.cursor.file).Grounded rd.cursor.file ∧
      ∀ i ∈ ((s.pool.recordTypes rd.cursor.file).file rd.cursor.file).imports.values,
        (s.pool.recordTypes rd.cursor.file).Grounded i.file := by
  have hread := hx.reading rd (List.mem_cons_self ..)
  have hg := h.imported hread
  have htouches : Pool.Touches rd.cursor.file s.pool (s.pool.recordTypes rd.cursor.file) :=
    .modifyFile _ fun _ => rfl
  refine ⟨(h.reading rd (List.mem_cons_self ..)).recordTypes hx.tree hread.hasFile hg, ?_⟩
  intro i hi
  rw [Pool.imports_recordTypes] at hi
  obtain ⟨target, htarget⟩ := Table.mem_values_iff.mp hi
  have hreg : s.Registered i.file := ⟨target, hread.imports target i htarget⟩
  refine (hg i hi).of_kept (htouches.kept hx.tree (hx.hasFile hreg) ?_) htouches
    (Pool.keepsImports_recordTypes _ _)
  exact fun e => hx.not_registered (List.mem_cons_self ..) (e ▸ hreg)

/-- A file that passed its checks. -/
theorem Grounds.checked (h : Grounds (s, rd :: st)) (hx : Sound (s, rd :: st)) {pool : Pool}
    (hc : Pool.Checked rd.cursor.file (s.pool.recordTypes rd.cursor.file) pool) :
    pool.Grounded rd.cursor.file := by
  obtain ⟨hw, ht, htouches⟩ := recordTypes_sound hx.tree hx.types rd.cursor.file
  have hf := (htouches.file _ (hx.reading rd (List.mem_cons_self ..)).hasFile).1
  obtain ⟨hown, himports⟩ := h.recordTypes hx
  obtain ⟨swept, hswept, he⟩ := hc.swept
  rw [he]
  exact (hown.swept hswept hw ht hf himports).setExtensions _

/-- Every step keeps the invariant. -/
theorem Grounds.step (hx : Sound x) (h : Grounds x) (hs : Step r x y) : Grounds y := by
  have hy := hx.step hs
  cases hs with
  | @begin s st name file free fresh opened =>
    have hadded := Pool.fileAdded s.pool name file.path
    have hfiles : ∀ i, s.pool.HasFile i → (s.pool.addFile name file.path).1.file i = s.pool.file i :=
      fun i hi => hadded.file i fun e => Pool.not_hasFile_size (e ▸ hi)
    refine Grounds.cons (h.change hx (.refl _) ?_ ?_
      (.of_fileAdded (g := ⟨s.pool.files.size⟩) hadded) fun i k hk => ?_) ?_
    · exact fun hr => Pool.not_hasFile_size (hx.hasFile hr)
    · exact fun rd hrd e => Pool.not_hasFile_size (e ▸ (hx.reading rd hrd).hasFile)
    · by_cases hi : s.pool.HasFile i
      · rwa [hfiles i hi]
      · rw [Pool.file_of_not_hasFile hi] at hk
        cases hk
    · obtain ⟨ks, ks', hf, -⟩ := (hy.reading _ (List.mem_cons_self ..)).fits
      refine Pool.grounded_of_empty (hf.early rfl).1 ?_
      exact congrArg File.types hadded.file_new
  | @event s st rd e rest c pool notice next noImport applied =>
    have hread := hx.reading rd (List.mem_cons_self ..)
    obtain ⟨ks, ks', hn, hf, heff, -⟩ := reading_event hread next applied
    refine Grounds.cons (h.change hx (List.sublist_cons_self ..)
      (hx.not_registered (List.mem_cons_self ..)) (fun rd' => hx.file_ne) (heff.touches hn hf)
      (heff.keepsImports hn hf)) ?_
    show pool.Grounded c.file
    rw [heff.file_eq]
    exact heff.grounded hn hf hx.tree hx.types (h.reading rd (List.mem_cons_self ..))
      (h.imported hread)
  | @importFile s st rd kind target rest id next found =>
    have htouches : Pool.Touches rd.cursor.file s.pool
        (s.recordImport rd.cursor.file target.value ⟨id, kind⟩).pool := .modifyFile _ fun _ => rfl
    have himports : Pool.KeepsImports s.pool
        (s.recordImport rd.cursor.file target.value ⟨id, kind⟩).pool := by
      intro i k hk
      simp only [recordImport, Pool.file_modifyFile]
      split
      · obtain ⟨n, hn⟩ := Table.mem_values_iff.mp hk
        refine Table.mem_values_iff.mpr ⟨n, ?_⟩
        rw [Table.find?_insert, hn]
        rfl
      · exact hk
    refine Grounds.cons (h.change hx (List.sublist_cons_self ..)
      (hx.not_registered (List.mem_cons_self ..)) (fun rd' => hx.file_ne) htouches himports) ?_
    have hg := h.reading rd (List.mem_cons_self ..)
    refine ⟨fun {scope name offset t} hr => ?_, fun {name t} hfind => ?_⟩
    · have hr : s.pool.Refers rd.cursor.file scope name offset (some t) := by
        cases hr with
        | field there type => exact .field there type
        | extend there heading => exact .extend there heading
      exact htouches.hasVisible himports (hg.bound hr)
    · simp only [recordImport, Pool.file_modifyFile] at hfind
      have hfind : (s.pool.file rd.cursor.file).types.find? name = some t := by
        split at hfind <;> exact hfind
      exact htouches.hasPassedOn himports (hg.listed hfind)
  | @complete s st rd pool finished noFault checked =>
    obtain ⟨hc, ht⟩ := hx.checked checked
    have himports : Pool.KeepsImports s.pool pool := fun i k hk => by
      rwa [hc.file_eq, Pool.imports_recordTypes]
    have hothers : Grounds ({ s with pool }, st) := h.change hx (List.sublist_cons_self ..)
      (hx.not_registered (List.mem_cons_self ..)) (fun rd' => hx.file_ne) ht himports
    refine ⟨fun f hf => ?_, hothers.reading⟩
    rcases (registered_register (hx.distinct.free rd (List.mem_cons_self ..))).mp hf with hf | rfl
    · exact hothers.registered f hf
    · exact h.checked hx hc
  | @reject s st rd fault pool finished checked =>
    obtain ⟨hc, ht⟩ := hx.swept checked
    refine h.change hx (List.sublist_cons_self ..) (hx.not_registered (List.mem_cons_self ..))
      (fun rd' => hx.file_ne) ht fun i k hk => ?_
    rwa [hc.file_eq, Pool.imports_recordTypes]
  | @abandon s st rd =>
    exact h.change hx (List.sublist_cons_self ..) (hx.not_registered (List.mem_cons_self ..))
      (fun rd' => hx.file_ne) (.refl _ _) fun _ _ hk => hk

theorem grounds_empty : Grounds ({}, []) where
  registered f hf := by
    obtain ⟨name, h⟩ := hf
    cases h
  reading rd hrd := by cases hrd

theorem Grounds.steps (hx : Sound x) (h : Grounds x) (hs : Steps r x y) : Grounds y := by
  induction hs with
  | refl => exact h
  | tail hsteps hstep ih => exact ih.step (hx.steps hsteps) hstep

end Session

end ProtoSchema

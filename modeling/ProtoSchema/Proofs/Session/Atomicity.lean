import ProtoSchema.Proofs.Pool.Rechecks
import ProtoSchema.Proofs.Session.Failures
import ProtoSchema.Proofs.Session.Links

/-! # What a run adds

A run adds declarations, and files to the registry, and leaves all that was there as it was
(`Beyond.steps`).  Every file that it registers is imported, directly or through others, by the one that
was to be loaded (`adds_loadUpTo`), and passes its checks if they are run again
(`passes_of_registered`). -/

namespace ProtoSchema

/-- The text of the file `a` has an import statement for `b`. -/
def Resolver.Imports (r : Resolver) (a b : String) : Prop :=
  ∃ file kind target, r.openFile a = .ok file ∧
    .importFile kind target ∈ (Event.ofText file.text).1 ∧ target.value = b

namespace Pool

variable {pool other third : Pool} {g : FileId}

/-- All declarations of the first pool are in the second one as they were, and all extensions have
their numbers. -/
structure Preserves (pool other : Pool) : Prop where
  file : ∀ i, pool.HasFile i → other.HasFile i ∧ other.file i = pool.file i
  block : ∀ b, pool.HasBlock b → other.HasBlock b ∧ other.block b = pool.block b
  enum : ∀ e, pool.HasEnum e → other.HasEnum e ∧ other.enum e = pool.enum e
  field : ∀ d, pool.HasField d → other.HasField d ∧ other.field d = pool.field d
  extensions : ∀ k d, pool.extensions.find? k = some d → other.extensions.find? k = some d

theorem Preserves.refl (pool : Pool) : Preserves pool pool :=
  ⟨fun _ h => ⟨h, rfl⟩, fun _ h => ⟨h, rfl⟩, fun _ h => ⟨h, rfl⟩, fun _ h => ⟨h, rfl⟩, fun _ _ h => h⟩

/-- A file is changed that was not there. -/
theorem Preserves.touches (h : Preserves pool other) (hw : pool.WellFormed) (ht : Touches g other third)
    (hg : ¬pool.HasFile g) (hext : ∀ k d, other.extensions.find? k = some d →
      third.extensions.find? k = some d) : Preserves pool third where
  file i hi := by
    obtain ⟨hi', he⟩ := h.file i hi
    obtain ⟨hi'', -, hkeep⟩ := ht.file i hi'
    exact ⟨hi'', (hkeep fun e => hg (e ▸ hi)).trans he⟩
  block b hb := by
    obtain ⟨hb', he⟩ := h.block b hb
    obtain ⟨hb'', -, hkeep⟩ := ht.block b hb'
    refine ⟨hb'', (hkeep fun e => hg ?_).trans he⟩
    rw [he] at e
    exact hw.hasFile_of_blockOf ⟨hb, e⟩
  enum e he := by
    obtain ⟨he', heq⟩ := h.enum e he
    obtain ⟨he'', -, hkeep⟩ := ht.enum e he'
    refine ⟨he'', (hkeep fun hf => hg ?_).trans heq⟩
    rw [heq] at hf
    exact hw.hasFile_of_enumOf ⟨he, hf⟩
  field d hd := by
    obtain ⟨hd', he⟩ := h.field d hd
    obtain ⟨hd'', -, hkeep⟩ := ht.field d hd'
    refine ⟨hd'', (hkeep fun hf => hg ?_).trans he⟩
    have hb := hw.field_block d hd
    rw [he, (h.block _ hb).2] at hf
    exact hw.hasFile_of_blockOf ⟨hb, hf⟩
  extensions k d hk := hext k d (h.extensions k d hk)

end Pool

namespace Session

variable {r : Resolver} {x y : State} {s s' : Session} {st : List Reading} {rd : Reading}
  {f : FileId} {name : String}

/-! ### What was there before -/

/-- All that was in `s` is as it was, and the files that are being read are new. -/
structure Beyond (s : Session) (x : State) : Prop where
  registry : s.registry.entries <+: x.1.registry.entries
  preserves : s.pool.Preserves x.1.pool
  reading : ∀ rd ∈ x.2, ¬s.pool.HasFile rd.cursor.file

theorem Beyond.step (h : Beyond s x) (hw : s.pool.WellFormed) (hx : Sound x) (hs : Step r x y) :
    Beyond s y := by
  obtain ⟨registry, preserves, reading⟩ := h
  cases hs with
  | @begin s' st name file free fresh opened =>
    have hnew : ¬s.pool.HasFile ⟨s'.pool.files.size⟩ := fun h =>
      Pool.not_hasFile_size (preserves.file _ h).1
    refine ⟨registry, preserves.touches hw (.of_fileAdded (g := ⟨s'.pool.files.size⟩)
      (Pool.fileAdded s'.pool name file.path)) hnew fun _ _ h => h, ?_⟩
    exact List.forall_mem_cons.mpr ⟨hnew, reading⟩
  | @event s' st rd e rest c pool notice next noImport applied =>
    obtain ⟨ks, ks', hn, hf, heff, -⟩ :=
      reading_event (hx.reading rd (List.mem_cons_self ..)) next applied
    rw [List.forall_mem_cons] at reading
    refine ⟨registry, preserves.touches hw (heff.touches hn hf) reading.1 fun k d hk => ?_, ?_⟩
    · show pool.extensions.find? k = some d
      rw [(heff.tables hn hf).2.1, hk]
    · refine List.forall_mem_cons.mpr ⟨?_, reading.2⟩
      show ¬s.pool.HasFile c.file
      rw [heff.file_eq]
      exact reading.1
  | @importFile s' st rd kind target rest id next found =>
    rw [List.forall_mem_cons] at reading
    exact ⟨registry, preserves.touches hw (.modifyFile (g := rd.cursor.file) _ fun _ => rfl) reading.1
      fun _ _ h => h, List.forall_mem_cons.mpr reading⟩
  | @complete s' st rd pool finished noFault checked =>
    obtain ⟨hc, ht⟩ := hx.checked checked
    rw [List.forall_mem_cons] at reading
    refine ⟨?_, preserves.touches hw ht reading.1 fun k d hk => hc.old k.1 k.2 d hk, reading.2⟩
    show _ <+: (s'.registry.insert rd.name rd.cursor.file).entries
    rw [Table.entries_insert (hx.distinct.free rd (List.mem_cons_self ..))]
    exact registry.trans (List.prefix_append _ _)
  | @reject s' st rd fault pool finished checked =>
    obtain ⟨hc, ht⟩ := hx.swept checked
    rw [List.forall_mem_cons] at reading
    refine ⟨registry, preserves.touches hw ht reading.1 fun k d hk => ?_, reading.2⟩
    show pool.extensions.find? k = some d
    rw [hc.extensions_eq]
    exact hk
  | abandon =>
    rw [List.forall_mem_cons] at reading
    exact ⟨registry, preserves, reading.2⟩

/-- A run leaves all that was there as it was. -/
theorem Beyond.steps (hs : Sound (s, [])) (h : Steps r (s, []) x) : Beyond s x := by
  induction h with
  | refl => exact ⟨List.prefix_refl _, .refl _, fun rd hrd => by cases hrd⟩
  | tail hsteps hstep ih => exact ih.step hs.tree (hs.steps hsteps) hstep

/-! ### Files that are new in the registry -/

/-- The files that are registered in `s'` but not in `s` are imported, directly or through others, by
the file `name`, or are that file. -/
def Adds (r : Resolver) (name : String) (s s' : Session) : Prop :=
  ∀ n, s.registry.find? n = none → s'.registry.find? n ≠ none →
    Relation.ReflTransGen r.Imports name n

theorem Adds.of_eq (h : s'.registry = s.registry) : Adds r name s s' := fun _ hnone hsome =>
  absurd (h ▸ hnone) hsome

theorem Adds.trans {s'' : Session} (h : Adds r name s s') (h' : Adds r name s' s'') :
    Adds r name s s'' := by
  intro n hnone hsome
  by_cases hn : s'.registry.find? n = none
  · exact h' n hn hsome
  · exact h n hnone hn

theorem Adds.imported {target : String} (h : Adds r target s s') (hi : r.Imports name target) :
    Adds r name s s' := fun n hnone hsome => .head hi (h n hnone hsome)

theorem adds_events {load : String → SessionM FileId} {text : String} (es : List Event)
    (hload : ∀ kind target, .importFile kind target ∈ es → r.Imports name target.value ∧
      ∀ s, Ends (load target.value s) (fun _ s' => Adds r target.value s s')
        (fun s' => Adds r target.value s s')) :
    ∀ c s, Ends (es.foldlM (applyEvent load name text) c s) (fun _ s' => Adds r name s s')
      (fun s' => Adds r name s s') := by
  induction es with
  | nil => exact fun c s => Adds.of_eq rfl
  | cons e es ih =>
    intro c s
    have hhead : Ends (applyEvent load name text c e s) (fun _ s' => Adds r name s s')
        (fun s' => Adds r name s s') := by
      by_cases hi : ∃ kind target, e = .importFile kind target
      · obtain ⟨kind, target, rfl⟩ := hi
        obtain ⟨himports, hends⟩ := hload kind target (List.mem_cons_self ..)
        have hends := hends s
        rw [applyEvent_importFile]
        cases hrun : load target.value s with
        | ok id s' =>
          rw [hrun] at hends
          exact (Adds.imported hends himports).trans (.of_eq rfl)
        | error e s' =>
          rw [hrun] at hends
          exact Adds.imported hends himports
      · rw [applyEvent_of_ne fun k t he => hi ⟨k, t, he⟩]
        cases c.apply s.pool e <;> exact Adds.of_eq rfl
    have htail := ih fun kind target hi => hload kind target (List.mem_cons_of_mem e hi)
    rw [List.foldlM_cons]
    refine Ends.bind (hhead.mono (fun c' s' h => ?_) fun _ h => h)
    exact (htail c' s').mono (fun _ _ h' => h.trans h') fun _ h' => h.trans h'

theorem adds_complete {load : String → SessionM FileId} {file : SourceFile}
    (opened : r.openFile name = .ok file)
    (hload : ∀ target s, Ends (load target s) (fun _ s' => Adds r target s s')
      (fun s' => Adds r target s s')) (s : Session) :
    Ends (complete load name file s) (fun _ s' => Adds r name s s') (fun s' => Adds r name s s') := by
  have hevents : Ends ((Event.ofText file.text).1.foldlM (applyEvent load name file.text)
      (Cursor.start ⟨s.pool.files.size⟩) (s.begin name file)) (fun _ s' => Adds r name s s')
      (fun s' => Adds r name s s') :=
    adds_events _ (fun kind target hi => ⟨⟨file, kind, target, opened, hi, rfl⟩, hload target.value⟩)
      _ (s.begin name file)
  rw [complete_eq, parse_eq]
  cases hrun : (Event.ofText file.text).1.foldlM (applyEvent load name file.text)
      (Cursor.start ⟨s.pool.files.size⟩) (s.begin name file) with
  | error e s' =>
    rw [hrun] at hevents
    exact hevents
  | ok c s' =>
    rw [hrun] at hevents
    have hadds : Adds r name s s' := hevents
    cases (Event.ofText file.text).2 with
    | some fault => exact hadds
    | none =>
      dsimp only
      cases Pool.checkFile ⟨s.pool.files.size⟩ (s'.pool.recordTypes ⟨s.pool.files.size⟩) with
      | error fault pool => exact hadds
      | ok u pool =>
        refine hadds.trans fun n hnone hsome => ?_
        rw [register, Table.find?_insert, hnone] at hsome
        split at hsome
        · next he => exact he ▸ .refl
        · exact absurd rfl hsome

/-- Whether it succeeds or not, a load registers only files that the file imports, and the file. -/
theorem adds_loadUpTo (limit : Nat) : ∀ reading name s,
    Ends (loadUpTo r limit reading name s) (fun _ s' => Adds r name s s')
      (fun s' => Adds r name s s') := by
  induction limit with
  | zero =>
    intro reading name s
    cases hfree : s.registry.find? name with
    | some id =>
      rw [loadUpTo_of_registered hfree]
      exact Adds.of_eq rfl
    | none =>
      rw [loadUpTo_zero r _ hfree]
      exact Adds.of_eq rfl
  | succ limit ih =>
    intro reading name s
    cases hfree : s.registry.find? name with
    | some id =>
      rw [loadUpTo_of_registered hfree]
      exact Adds.of_eq rfl
    | none =>
      rw [loadUpTo_succ r limit _ hfree]
      split
      · exact Adds.of_eq rfl
      · cases hopen : r.openFile name with
        | error e => exact Adds.of_eq rfl
        | ok file => exact adds_complete hopen (ih (reading ++ [name])) s

/-! ### Checks of registered files -/

/-- What is registered passes its checks again. -/
theorem passes_of_registered (hn : Numbered s) (hf : Filled (s, [])) (h : s.Registered f) :
    s.pool.Passes f where
  bound := hn.bound f h
  fits b := hn.fits f b h
  extensible b := hf.ranges f b h
  room d m n := hn.room f d m n h
  inUse d m n hd he := (hn.inUse m n d).mpr ⟨f, h, hd, he⟩

end Session

end ProtoSchema

import ProtoSchema.Proofs.Session.Soundness

/-! # Names of the types that files pass on

The types that a file passes on to those that import it are listed under their full names, its own
ones and those of its public imports alike (`TypesNamed`).  So a lookup in the imports of a file finds
a type whose full name is the name that was looked up, behind a front part of the package of an import
(`of_inImports`), and a lookup in the file itself finds a type of just that name (`of_inFile`). -/

namespace ProtoSchema

namespace Pool

variable {pool other : Pool} {f g : FileId} {name : DottedName} {t : TypeId}

/-- The types that files pass on are listed under their full names. -/
def TypesNamed (pool : Pool) : Prop :=
  ∀ i name t, (pool.file i).types.find? name = some t → pool.typeName t = name

theorem Touches.typeName_eq (h : Touches g pool other) (ht : pool.HasType t) :
    other.typeName t = pool.typeName t := by
  cases t with
  | message b => exact (h.block b ht.1).2.1.fullName
  | enum e => exact (h.enum e ht).2.1.fullName

theorem TypesNamed.of_touches (h : pool.TypesNamed) (ht : pool.TypesSound)
    (htouches : Touches g pool other) (htypes : ∀ i, (other.file i).types = (pool.file i).types) :
    other.TypesNamed := by
  intro i name t hi
  rw [htypes] at hi
  exact (htouches.typeName_eq (ht i name t hi)).trans (h i name t hi)

/-- The types that are recorded for a file are listed under their full names. -/
theorem TypesNamed.recordTypes (h : pool.TypesNamed) (f : FileId) :
    (pool.recordTypes f).TypesNamed := by
  intro i name t hi
  have hname : (pool.recordTypes f).typeName t = pool.typeName t := by cases t <;> rfl
  rw [hname]
  simp only [Pool.recordTypes, file_modifyFile] at hi
  split at hi
  · rcases Table.of_find?_insertAll hi with hi | hi
    · cases hi
    · rcases List.mem_append.mp hi with hi | hi
      · simp only [declaredTypes, List.mem_map] at hi
        obtain ⟨t', -, he⟩ := hi
        cases he
        rfl
      · simp only [importedTypes, List.mem_flatMap] at hi
        obtain ⟨j, -, hj⟩ := hi
        exact h _ _ _ (Table.mem_entries_iff.mp hj)
  · exact h i name t hi

/-! ### Lookups outside the scopes -/

theorem mem_qualifications {own imported q : DottedName} (h : q ∈ qualifications own imported name) :
    ∃ front, q = front ++ name ∧ (front = [] ∨
      front <+: imported ∧ own.sharedLength imported ≤ front.length) := by
  rcases List.mem_cons.mp h with rfl | h
  · exact ⟨[], rfl, .inl rfl⟩
  · split at h
    · cases h
    · obtain ⟨n, hn, rfl⟩ := List.mem_map.mp h
      rw [List.mem_reverse, List.mem_range'] at hn
      obtain ⟨k, hk, rfl⟩ := hn
      refine ⟨_, rfl, .inr ⟨List.take_prefix .., ?_⟩⟩
      rw [List.length_take]
      omega

/-- What is found in a file has just the name that was looked up. -/
theorem WellFormed.of_inFile (hw : pool.WellFormed) (h : pool.inFile f name = some t) :
    pool.typeFile t = f ∧ pool.typeName t = name := by
  simp only [inFile] at h
  split at h
  · next hp =>
    obtain ⟨-, hfile, hname⟩ := hw.of_descend _ (s := .file f) h
    obtain ⟨rest, rfl⟩ := List.isPrefixOf_iff_prefix.mp hp
    rw [List.drop_left] at hname
    exact ⟨hfile, hname⟩
  · cases h

/-- What is found in an import has the name that was looked up, behind a front part of the package of
the import. -/
theorem TypesNamed.of_inImports (h : pool.TypesNamed) (hfind : pool.inImports f name = some t) :
    ∃ i ∈ (pool.file f).imports.values, ∃ front, pool.typeName t = front ++ name ∧
      (pool.file i.file).types.find? (front ++ name) = some t ∧
      (front = [] ∨ front <+: (pool.file i.file).packageName ∧
        (pool.file f).packageName.sharedLength (pool.file i.file).packageName ≤ front.length) := by
  simp only [inImports] at hfind
  obtain ⟨i, hi, hfind⟩ := List.exists_of_findSome?_eq_some hfind
  obtain ⟨q, hq, hfind⟩ := List.exists_of_findSome?_eq_some hfind
  obtain ⟨front, rfl, hfront⟩ := mem_qualifications hq
  exact ⟨i, hi, front, h _ _ _ hfind, hfind, hfront⟩

end Pool

namespace Session

variable {r : Resolver} {x y : State}

/-- A step leaves all types that are passed on, or records those of one file. -/
theorem Sound.types_eq (hx : Sound x) (hs : Step r x y) :
    (∀ i, (y.1.pool.file i).types = (x.1.pool.file i).types) ∨
      ∃ f, ∀ i, (y.1.pool.file i).types = ((x.1.pool.recordTypes f).file i).types := by
  cases hs with
  | @begin s st name file free fresh opened =>
    have hadded := Pool.fileAdded s.pool name file.path
    refine .inl fun i => ?_
    by_cases hi : i = ⟨s.pool.files.size⟩
    · rw [hi, Pool.file_of_not_hasFile Pool.not_hasFile_size]
      show ((s.pool.addFile name file.path).1.file _).types = _
      rw [hadded.file_new]
      rfl
    · show ((s.pool.addFile name file.path).1.file i).types = _
      rw [hadded.file i hi]
  | event next noImport applied =>
    obtain ⟨ks, ks', hn, hf, heff, -⟩ :=
      reading_event (hx.reading _ (List.mem_cons_self ..)) next applied
    exact .inl fun i => ((heff.tables hn hf).2.2 i).2
  | @importFile s st rd kind target rest id =>
    refine .inl fun i => ?_
    simp only [recordImport, Pool.file_modifyFile]
    split <;> rfl
  | complete finished noFault checked =>
    exact .inr ⟨_, fun i => congrArg File.types (congrFun (hx.checked checked).1.file_eq i)⟩
  | reject finished checked =>
    exact .inr ⟨_, fun i => congrArg File.types (congrFun (hx.swept checked).1.file_eq i)⟩
  | abandon => exact .inl fun _ => rfl

theorem Sound.typesNamed_step (hx : Sound x) (h : x.1.pool.TypesNamed) (hs : Step r x y) :
    y.1.pool.TypesNamed := by
  obtain ⟨g, ht, -⟩ := hx.kept hs
  rcases hx.types_eq hs with htypes | ⟨f, htypes⟩
  · exact h.of_touches hx.types ht htypes
  · intro i name t hi
    have hrecorded := h.recordTypes f i name t (htypes i ▸ hi)
    have hhas := (hx.types.recordTypes hx.tree) i name t (htypes i ▸ hi)
    have hname : (x.1.pool.recordTypes f).typeName t = x.1.pool.typeName t := by cases t <;> rfl
    rw [hname] at hrecorded
    refine (ht.typeName_eq ?_).trans hrecorded
    cases t with
    | message b => exact hhas
    | enum e => exact hhas

theorem typesNamed_empty : Pool.TypesNamed {} := by
  intro i name t h
  cases h

/-- In every session the types that files pass on are listed under their full names. -/
theorem Sound.typesNamed (hx : Sound x) (h : x.1.pool.TypesNamed) (hs : Steps r x y) :
    y.1.pool.TypesNamed := by
  induction hs with
  | refl => exact h
  | tail hsteps hstep ih => exact (hx.steps hsteps).typesNamed_step ih hstep

end Session

end ProtoSchema

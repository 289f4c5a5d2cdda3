import ProtoSchema.Proofs.Session.Listings

/-! # What absolute names are bound to

An absolute name is looked up in its file and then in the imports, and what one of these lookups has
found it finds in all later sessions.  So every absolute name is bound to a type that one of the two
finds (`Absolutes`), even where the file has got a type of that name later on. -/

namespace ProtoSchema

namespace Pool

variable {pool other : Pool} {f g : FileId} {s : Scope} {name : TypeName} {N : DottedName} {t : TypeId}

/-- The full name `N` leads to the type `t` in the file, or in its imports. -/
def LeadsTo (pool : Pool) (f : FileId) (N : DottedName) (t : TypeId) : Prop :=
  pool.inFile f N = some t ∨ pool.inImports f N = some t

/-- Every absolute name of the file that is bound leads to the type that it is bound to. -/
structure BindsAbsolutes (pool : Pool) (f : FileId) : Prop where
  leadsTo : ∀ {s name offset t}, Refers pool f s name offset (some t) → name.absolute = true →
    pool.LeadsTo f name.segments t

theorem leadsTo_of_resolve? (habsolute : name.absolute = true)
    (h : pool.resolve? f s name = some t) : pool.LeadsTo f name.segments t := by
  rw [resolve?, if_pos habsolute] at h
  exact (Option.or_eq_some_iff.mp h).imp_right And.right

/-- A file without declarations. -/
theorem bindsAbsolutes_of_empty (hb : ∀ b, ¬pool.BlockOf f b) : pool.BindsAbsolutes f := by
  refine ⟨fun hr => ?_⟩
  cases hr with
  | field there => exact absurd there.2 (hb _)
  | extend there => exact absurd there (hb _)

/-- What is found in a file is found there in all later pools. -/
theorem Touches.inFile (h : Touches g pool other) (hw : pool.WellFormed) (hw' : other.WellFormed)
    (hfind : pool.inFile f N = some t) : other.inFile f N = some t := by
  have ht := hw.hasType_of_inFile hfind
  obtain ⟨hfile, hname⟩ := hw.of_inFile hfind
  have hfind' := hw'.inFile_typeName (h.hasType ht)
  rwa [(h.type_eq ht).1, hfile, h.typeName_eq ht, hname] at hfind'

/-- Pools that show the same from inside a file pass on the same to it. -/
theorem SameView.inImports_eq {new : TypeId → Prop} (h : SameView f new pool other)
    (N : DottedName) : other.inImports f N = pool.inImports f N := by
  simp only [inImports, h.scopes.packageName, h.imports]
  refine findSome?_congr fun i hi => ?_
  rw [(h.imported i hi).1, (h.imported i hi).2]

section

variable (hw : pool.WellFormed) (hw' : other.WellFormed)
include hw hw'

theorem LeadsTo.later (h : pool.LeadsTo f N t) (ht : Touches g pool other)
    (himports : pool.inImports f N = some t → other.inImports f N = some t) :
    other.LeadsTo f N t :=
  h.imp (ht.inFile hw hw') himports

/-- Nothing changes for a file that is left alone, as are the files it imports. -/
theorem BindsAbsolutes.of_kept (h : pool.BindsAbsolutes f) (hk : Kept f pool other)
    (ht : Touches g pool other) (hi : ∀ i ∈ (pool.file f).imports.values, Kept i.file pool other) :
    other.BindsAbsolutes f := by
  refine ⟨fun hr habsolute => (h.leadsTo (hk.refers_iff.mp hr) habsolute).later hw hw' ht
    fun hfind => ?_⟩
  have hview : SameView f (fun _ => False) pool other := hk.sameView hi
  rw [hview.inImports_eq, hfind]

theorem BindsAbsolutes.adds {anchor : Option Nat} (h : pool.BindsAbsolutes f)
    (ha : Adds f anchor pool other) : other.BindsAbsolutes f := by
  refine ⟨fun {s name offset t} hr habsolute => ?_⟩
  have hbound : pool.LeadsTo f name.segments t := by
    rcases ha.refers hr with hold | ⟨-, htarget, -⟩
    · exact h.leadsTo hold habsolute
    · exact leadsTo_of_resolve? habsolute htarget.symm
  exact hbound.later hw hw' ha.touches fun hfind => by rw [ha.view.inImports_eq, hfind]

/-- A change outside the tree that leaves the references as they are. -/
theorem BindsAbsolutes.of_refers (h : pool.BindsAbsolutes f) (ht : Touches f pool other)
    (hrefers : ∀ {s name offset t}, Refers other f s name offset (some t) →
      Refers pool f s name offset (some t))
    (himports : ∀ {N t}, pool.inImports f N = some t → other.inImports f N = some t) :
    other.BindsAbsolutes f :=
  ⟨fun hr habsolute => (h.leadsTo (hrefers hr) habsolute).later hw hw' ht himports⟩

end

/-- A name that is bound late leads to what it is bound to. -/
theorem BindsAbsolutes.swept (h : pool.BindsAbsolutes f) (hs : Swept f pool other)
    (hw : pool.WellFormed) : other.BindsAbsolutes f := by
  induction hs with
  | refl => exact h
  | @tail swept last hab hbc ih =>
    have hswept : Swept f pool swept := hab
    have hw' := hswept.sameTree.wellFormed hw
    have hview : SameView f (fun _ => False) swept last :=
      hbc.sameTree.sameView (by rw [hbc.file_eq]) fun i _ => by rw [hbc.file_eq]
    refine ⟨fun {s name offset t} hr habsolute => ?_⟩
    have hbound : swept.LeadsTo f name.segments t := by
      rcases hbc.refers hw' hr with hold | ⟨-, -, hfound⟩
      · exact ih.leadsTo hold habsolute
      · exact leadsTo_of_resolve? habsolute hfound
    exact hbound.later hw' (hbc.sameTree.wellFormed hw') hbc.touches fun hfind => by
      rw [hview.inImports_eq, hfind]

end Pool

namespace Session

variable {r : Resolver} {x y : State} {s : Session} {st : List Reading} {rd : Reading}

/-- The absolute names of the registered files, and of those that are being read, lead to what they are
bound to. -/
structure Absolutes (x : State) : Prop where
  registered : ∀ f, x.1.Registered f → x.1.pool.BindsAbsolutes f
  reading : ∀ rd ∈ x.2, x.1.pool.BindsAbsolutes rd.cursor.file

/-- A change to a file that is not registered, with those files still being read that it leaves
alone. -/
theorem Absolutes.change (h : Absolutes (s, st)) (hx : Sound (s, st)) {g : FileId}
    {st' : List Reading} {pool : Pool} {warnings : List Warning} (hst : st'.Sublist st)
    (hg : ¬s.Registered g) (hne : ∀ rd ∈ st', rd.cursor.file ≠ g)
    (ht : Pool.Touches g s.pool pool) (hw : pool.WellFormed) :
    Absolutes ({ s with pool, warnings }, st') := by
  have hkept : ∀ {f}, s.Registered f → Pool.Kept f s.pool pool := fun hf =>
    ht.kept hx.tree (hx.hasFile hf) fun e => hg (e ▸ hf)
  refine ⟨fun f hf => ?_, fun rd hrd => ?_⟩
  · exact (h.registered f hf).of_kept hx.tree hw (hkept hf) ht fun i hi =>
      hkept (hx.registered_import hf hi)
  · have hread := hx.reading rd (hst.mem hrd)
    refine (h.reading rd (hst.mem hrd)).of_kept hx.tree hw
      (ht.kept hx.tree hread.hasFile (hne rd hrd)) ht fun i hi => ?_
    obtain ⟨target, htarget⟩ := Table.mem_values_iff.mp hi
    exact hkept ⟨target, hread.imports target i htarget⟩

theorem Absolutes.cons (h : Absolutes (s, st)) (hrd : s.pool.BindsAbsolutes rd.cursor.file) :
    Absolutes (s, rd :: st) :=
  ⟨h.registered, List.forall_mem_cons.mpr ⟨hrd, h.reading⟩⟩

/-- The names of a file when its checks begin. -/
theorem Absolutes.recordTypes (h : Absolutes (s, rd :: st)) (hx : Sound (s, rd :: st)) :
    (s.pool.recordTypes rd.cursor.file).BindsAbsolutes rd.cursor.file := by
  have hread := hx.reading rd (List.mem_cons_self ..)
  obtain ⟨hw', -, htouches⟩ := recordTypes_sound hx.tree hx.types rd.cursor.file
  have htree : Pool.SameTree s.pool (s.pool.recordTypes rd.cursor.file) :=
    .modifyFile _ _ fun _ => ⟨rfl, rfl⟩
  have hview : Pool.SameView rd.cursor.file (fun _ => False) s.pool
      (s.pool.recordTypes rd.cursor.file) := by
    refine htree.sameView (Pool.imports_recordTypes ..) fun i hi => ?_
    -- no file imports itself
    obtain ⟨target, htarget⟩ := Table.mem_values_iff.mp hi
    have hne : rd.cursor.file ≠ i.file := fun he =>
      hx.not_registered (List.mem_cons_self ..) ⟨target, he ▸ hread.imports target i htarget⟩
    rw [Pool.recordTypes, Pool.file_modifyFile, if_neg fun h => hne h.1]
  refine (h.reading rd (List.mem_cons_self ..)).of_refers hx.tree hw' htouches
    (htree.refers (fun _ => ⟨rfl, rfl⟩) rfl) fun hfind => ?_
  rw [hview.inImports_eq, hfind]

/-- The names of a file that passed its checks. -/
theorem Absolutes.checked (h : Absolutes (s, rd :: st)) (hx : Sound (s, rd :: st)) {pool : Pool}
    (hc : Pool.Checked rd.cursor.file (s.pool.recordTypes rd.cursor.file) pool) :
    pool.BindsAbsolutes rd.cursor.file := by
  obtain ⟨hw', -, -⟩ := recordTypes_sound hx.tree hx.types rd.cursor.file
  obtain ⟨swept, hswept, he⟩ := hc.swept
  have hw := hswept.sameTree.wellFormed hw'
  have htree : Pool.SameTree swept { swept with extensions := pool.extensions } := .setExtensions _
  rw [he]
  exact ((h.recordTypes hx).swept hswept hw').of_refers hw (htree.wellFormed hw) (.setExtensions _)
    (htree.refers (fun _ => ⟨rfl, rfl⟩) rfl) fun hfind => hfind

/-- Every step keeps the invariant. -/
theorem Absolutes.step (hx : Sound x) (h : Absolutes x) (hs : Step r x y) : Absolutes y := by
  have hy := hx.step hs
  cases hs with
  | @begin s st name file free fresh opened =>
    have hadded := Pool.fileAdded s.pool name file.path
    have htouches : Pool.Touches ⟨s.pool.files.size⟩ s.pool (s.begin name file).pool :=
      .of_fileAdded hadded
    refine Absolutes.cons (h.change hx (.refl _) ?_ ?_ htouches hy.tree) ?_
    · exact fun hr => Pool.not_hasFile_size (hx.hasFile hr)
    · exact fun rd hrd e => Pool.not_hasFile_size (e ▸ (hx.reading rd hrd).hasFile)
    · obtain ⟨ks, ks', hf, -⟩ := (hy.reading _ (List.mem_cons_self ..)).fits
      exact Pool.bindsAbsolutes_of_empty (hf.early rfl).1
  | @event s st rd e rest c pool notice next noImport applied =>
    have hread := hx.reading rd (List.mem_cons_self ..)
    obtain ⟨ks, ks', hn, hf, heff, -⟩ := reading_event hread next applied
    refine Absolutes.cons (h.change hx (List.sublist_cons_self ..)
      (hx.not_registered (List.mem_cons_self ..)) (fun rd' => hx.file_ne) (heff.touches hn hf)
      hy.tree) ?_
    show pool.BindsAbsolutes c.file
    rw [heff.file_eq]
    by_cases hp : ∃ name, e = .package name
    · -- nothing is declared yet
      obtain ⟨name, rfl⟩ := hp
      cases heff with
      | package first early =>
        exact Pool.bindsAbsolutes_of_empty (hf.early early).1
    · exact (h.reading rd (List.mem_cons_self ..)).adds hx.tree hy.tree
        (heff.adds hn hf hx.tree fun name he => hp ⟨name, he⟩)
  | @importFile s st rd kind target rest id next found =>
    have htree : Pool.SameTree s.pool
        (s.recordImport rd.cursor.file target.value ⟨id, kind⟩).pool :=
      .modifyFile _ _ fun _ => ⟨rfl, rfl⟩
    have htouches : Pool.Touches rd.cursor.file s.pool
        (s.recordImport rd.cursor.file target.value ⟨id, kind⟩).pool := .modifyFile _ fun _ => rfl
    exact Absolutes.cons (h.change hx (List.sublist_cons_self ..)
      (hx.not_registered (List.mem_cons_self ..)) (fun rd' => hx.file_ne) htouches hy.tree)
      ((h.reading rd (List.mem_cons_self ..)).of_refers hx.tree hy.tree htouches
        (htree.refers (fun _ => ⟨rfl, rfl⟩) rfl) Pool.inImports_insertImport)
  | @complete s st rd pool finished noFault checked =>
    obtain ⟨hc, ht⟩ := hx.checked checked
    have hothers : Absolutes ({ s with pool }, st) := h.change hx (List.sublist_cons_self ..)
      (hx.not_registered (List.mem_cons_self ..)) (fun rd' => hx.file_ne) ht hy.tree
    refine ⟨fun f hf => ?_, hothers.reading⟩
    rcases (registered_register (hx.distinct.free rd (List.mem_cons_self ..))).mp hf with hf | rfl
    · exact hothers.registered f hf
    · exact h.checked hx hc
  | @reject s st rd fault pool finished checked =>
    exact h.change hx (List.sublist_cons_self ..) (hx.not_registered (List.mem_cons_self ..))
      (fun rd' => hx.file_ne) (hx.swept checked).2 hy.tree
  | @abandon s st rd =>
    exact h.change hx (List.sublist_cons_self ..) (hx.not_registered (List.mem_cons_self ..))
      (fun rd' => hx.file_ne) (.refl _ _) hx.tree

theorem absolutes_empty : Absolutes ({}, []) where
  registered f hf := by
    obtain ⟨name, h⟩ := hf
    cases h
  reading rd hrd := by cases hrd

theorem Absolutes.steps (hx : Sound x) (h : Absolutes x) (hs : Steps r x y) : Absolutes y := by
  induction hs with
  | refl => exact h
  | tail hsteps hstep ih => exact ih.step (hx.steps hsteps) hstep

end Session

end ProtoSchema

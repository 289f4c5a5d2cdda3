import ProtoSchema.Compiler.Output
import ProtoSchema.Proofs.Compiler.Orders
import ProtoSchema.Proofs.Compiler.Outlines
import ProtoSchema.Proofs.Pool.FlatLookup
import ProtoSchema.Proofs.Session.Mirrors
import ProtoSchema.Proofs.Source.Paths

/-! # Sources that are compiled again

The sources of the complete files can be opened by another compiler, in any order: every file is read
and checked there as it was in the first compiler (`Compiler.openFiles_sources`).  The printed full names
are what can fail, since they are looked up like all names: a name that leads to a rival in an import is
bound to the rival (`Compiler.rivals_reread`). -/

namespace ProtoSchema

namespace Session

variable {r : Resolver} {s t t' : Session} {name text : String} {file : SourceFile} {f : FileId}
  {load : String → SessionM FileId}

/-- Events register no files if all imports among them are registered. -/
theorem registry_of_events (hload : ∀ {target id s}, s.registry.find? target = some id →
    load target s = .ok id s) (es : List Event) : ∀ (c : Cursor) (s : Session),
    (∀ kind target, .importFile kind target ∈ es → ∃ id, s.registry.find? target.value = some id) →
    Ends (es.foldlM (applyEvent load name text) c s) (fun _ s' => s'.registry = s.registry)
      fun _ => True := by
  induction es with
  | nil => exact fun _ _ _ => rfl
  | cons e es ih =>
    intro c s hknown
    have hstep : Ends (applyEvent load name text c e s) (fun _ s' => s'.registry = s.registry)
        fun _ => True := by
      by_cases hi : ∃ kind target, e = .importFile kind target
      · obtain ⟨kind, target, rfl⟩ := hi
        obtain ⟨id, hid⟩ := hknown kind target (List.mem_cons_self ..)
        rw [applyEvent_importFile, hload hid]
        exact rfl
      · rw [applyEvent_of_ne fun kind target he => hi ⟨kind, target, he⟩]
        cases c.apply s.pool e with
        | error fault => trivial
        | ok result => exact rfl
    rw [List.foldlM_cons]
    refine Ends.bind (hstep.mono (fun c' s' hs => ?_) fun _ h => h)
    refine (ih c' s' fun kind target hi => ?_).mono (fun _ _ h => h.trans hs) fun _ h => h
    rw [hs]
    exact hknown kind target (List.mem_cons_of_mem e hi)

theorem registry_of_parse (hload : ∀ {target id s}, s.registry.find? target = some id →
    load target s = .ok id s) (hknown : ∀ kind target,
      .importFile kind target ∈ (Event.ofText file.text).1 → ∃ id, s.registry.find? target.value = some id)
    {id : FileId} (h : parse load name file s = .ok id t) : t.registry = s.registry := by
  have hends : Ends ((Event.ofText file.text).1.foldlM (applyEvent load name file.text)
      (Cursor.start ⟨s.pool.files.size⟩) (s.begin name file))
      (fun _ s' => s'.registry = s.registry) fun _ => True :=
    registry_of_events hload _ _ (s.begin name file) hknown
  rw [parse_eq] at h
  revert h hends
  cases (Event.ofText file.text).1.foldlM (applyEvent load name file.text)
      (Cursor.start ⟨s.pool.files.size⟩) (s.begin name file) with
  | error e s' => exact fun h => by cases h
  | ok c s' =>
    dsimp only
    cases (Event.ofText file.text).2 with
    | some fault => exact fun h => by cases h
    | none =>
      intro h hends
      cases h
      exact hends

/-- A mirror stays one while nothing is registered. -/
theorem Mirrors.later (h : Mirrors s t) (ht : t.pool.WellFormed)
    (hfiles : ∀ g, t.Registered g → t.pool.HasFile g) (ht' : t'.pool.WellFormed) (hsince : Since t t')
    (hreg : t'.registry = t.registry) : Mirrors s t' := by
  refine ⟨fun n g hg => ?_⟩
  rw [hreg] at hg
  obtain ⟨f, hf, he⟩ := h.files n g hg
  have hkept := hsince.registered g ⟨n, hg⟩
  exact ⟨f, hf, he.trans (hkept.outline ht ht' (hfiles g ⟨n, hg⟩)).symm⟩

/-- The source of a file is loaded by a mirror that has loaded the sources of its imports. -/
theorem Mirrors.loadOpened (h : Mirrors s t) (hs : Established (s, []))
    (hun : ∀ f, s.Registered f → s.pool.Unrivalled f) (ht : Established (t, []))
    (hh : History r (t, [])) (hf : s.registry.find? name = some f) (hw : s.pool.Writable f)
    (hlabels : ¬s.pool.RequiresInProto3 f) {path : Option String}
    (opened : r.openFile name = .ok ⟨path, s.pool.source f⟩) (free : t.registry.find? name = none)
    (known : ∀ n ∈ s.pool.importNames f, ∃ g, t.registry.find? n.1 = some g) :
    ∃ id t', Session.loadOpened r name ⟨path, s.pool.source f⟩ t = .ok id t' ∧ Mirrors s t' ∧
      t'.registry = t.registry.insert name id := by
  obtain ⟨id, t₁, hparse, houtline⟩ := parse_source hw (hs.regular.sound.importStatements ⟨name, hf⟩)
    hlabels ht.regular hh (.of_steps (r := r) ht.regular .refl) ht.regular opened free known
  have hdistinct : Distinct (t, []) := ht.regular.sound.distinct
  have hloads : ∀ rd : Reading, rd.name = name → Loads r (loadUpTo r (importLimit r) [name]) [rd] :=
    fun rd hrd => by
      have := steps_loadUpTo (r := r) (importLimit r) [rd]
      rwa [List.map_singleton, List.reverse_singleton, hrd] at this
  have hends := steps_parse hdistinct free (by simp) opened hloads
  rw [hparse] at hends
  obtain ⟨rd, rfl, htext, hrest, rfl, -, hsteps⟩ := hends
  have hread := ht.steps hsteps
  have htraced := (hh.steps ht.regular hsteps).reading rd (List.mem_singleton_self _)
  have himports : t₁.pool.importNames rd.cursor.file = s.pool.importNames f :=
    congrArg FileOutline.imports houtline
  have hreg : t₁.registry = t.registry := by
    refine registry_of_parse loadUpTo_of_registered (fun kind target hi => ?_) hparse
    have hi : .importFile kind target ∈ rd.done := by
      have htext' := htraced.text
      rw [hrest, List.append_nil, htext] at htext'
      exact htext' ▸ hi
    obtain ⟨i, hi⟩ := htraced.imports hi
    refine known (target.value, i.kind) ?_
    rw [← himports]
    exact List.mem_map.mpr ⟨(target.value, i), Table.mem_entries_iff.mpr hi, rfl⟩
  have hmirrors : Mirrors s t₁ := h.later ht.regular.sound.tree (fun _ => ht.regular.sound.hasFile)
    hread.regular.sound.tree (.of_steps ht.regular.sound hsteps) hreg
  obtain ⟨pool, checked, hcomplete⟩ := hmirrors.complete hs hun hread hf houtline.symm
  refine ⟨rd.cursor.file, t₁.register pool rd.name rd.cursor.file, ?_, hcomplete, by rw [Session.register, hreg]⟩
  rw [Session.loadOpened, complete_eq, hparse]
  simp only [checked]

end Session

namespace Compiler

variable {c d : Compiler} {name path : String} {f g : FileId}

/-- The complete files can be read again from their sources under their names: none is in the newer
version with a required field, the names are plain, the sources are not too long for a file, and the full
names of the types that are referred to lead to no other types. -/
structure Rereadable (c : Compiler) : Prop where
  plain : ∀ name f, c.file? name = some f → Path.IsPlain name
  short : ∀ name f, c.file? name = some f → (c.pool.source f).utf8ByteSize ≤ maxFileSize
  labels : ∀ name f, c.file? name = some f → ¬c.pool.RequiresInProto3 f
  unrivalled : ∀ name f, c.file? name = some f → c.pool.Unrivalled f

/-- The invariants of a compiler whose sources are read. -/
structure Sourced (c : Compiler) : Prop where
  established : Session.Established (c.session, [])
  writable : ∀ f, c.session.Registered f → c.pool.Writable f

theorem sourced_after (resolver : Resolver) (calls : List Call) :
    (after (fresh resolver) calls).Sourced := by
  have hestablished := Session.established_empty.steps (goes_after calls (fresh resolver)).steps
  exact ⟨hestablished, fun f hf => (settled_after resolver calls).writable hestablished.filled hf⟩

/-- Where imports are listed, the sources are those of all complete files. -/
theorem Sourced.sources_eq (hc : c.Sourced) (listed : c.includeImports = true) :
    c.sources = (c.session.registry.map c.pool.source).entries := by
  have hall : c.files = c.session.registry.values :=
    List.filter_eq_self.mpr fun id _ => by rw [listed, Bool.true_or]
  rw [sources, hall, Table.values, List.map_map]
  refine List.map_congr_left fun e he => ?_
  have hname := (hc.established.regular.sound.named e.1 e.2 (Table.mem_entries_iff.mp he)).2
  exact congrArg (fun n => (n, c.pool.source e.2)) hname

theorem Sourced.openFile_sources (hc : c.Sourced) (listed : c.includeImports = true)
    (hf : c.file? name = some f) (hshort : (c.pool.source f).utf8ByteSize ≤ maxFileSize) :
    (Resolver.memory c.sources).openFile name = .ok ⟨none, c.pool.source f⟩ := by
  have hlookup : c.sources.lookup name = some (c.pool.source f) := by
    rw [hc.sources_eq listed]
    show (c.session.registry.map c.pool.source).find? name = _
    rw [Table.find?_map, show c.session.registry.find? name = some f from hf]
    rfl
  simp only [Resolver.memory, hlookup, if_neg (Nat.not_lt.mpr hshort)]

/-- A compiler that opens the sources of another one by their names. -/
structure Reopens (c d : Compiler) : Prop where
  resolver : d.resolver = .memory c.sources
  lawful : Lawful d
  established : Session.Established (d.session, [])
  mirrors : Session.Mirrors c.session d.session

theorem nameOf_memory {files : List (String × String)} (hplain : Path.IsPlain name) :
    nameOf (.memory files) name = .ok name := by
  have hname : Path.fileName? name = some name := hplain
  simp only [nameOf, Resolver.memory, Option.none_or, hname]

/-- The next file in the order of the first compiler is opened. -/
theorem Reopens.openFile (hc : c.Sourced) (listed : c.includeImports = true) (hr : c.Rereadable)
    (h : c.Reopens d) (hf : c.file? name = some f) (free : d.file? name = none)
    (known : ∀ n ∈ c.pool.importNames f, ∃ g, d.file? n.1 = some g) :
    ∃ d', Compiler.openFile name d = .ok () d' ∧ c.Reopens d' ∧
      d'.session.registry.keys = d.session.registry.keys ++ [name] := by
  have opened := hc.openFile_sources listed hf (hr.short name f hf)
  obtain ⟨id, t, hload, hmirrors, hreg⟩ := h.mirrors.loadOpened hc.established
    (fun f ⟨n, hn⟩ => hr.unrivalled n f hn) h.established (h.resolver ▸ h.lawful.history) hf
    (hc.writable f ⟨name, hf⟩) (hr.labels name f hf) opened free known
  replace hload : Session.loadOpened (.memory c.sources) name ⟨none, c.pool.source f⟩ d.session =
    .ok id t := hload
  have hrun : Compiler.openFile name d =
      .ok () (({ d with session := t } : Compiler).addRoot id) := by
    rw [openFile_eq, h.resolver, nameOf_memory (hr.plain name f hf)]
    simp only [loadAt_of_free (show d.session.registry.find? name = none from free), openText_eq,
      h.resolver, opened, checkShadow, hload]
  have hgoes : Goes d (({ d with session := t } : Compiler).addRoot id) := by
    have hends := openFile_ends name d
    rwa [hrun] at hends
  have hsession : (({ d with session := t } : Compiler).addRoot id).session = t := by
    unfold addRoot
    split <;> rfl
  refine ⟨_, hrun, ⟨hgoes.resolver.trans h.resolver, h.lawful.goes hgoes,
    h.established.steps hgoes.steps, by rw [hsession]; exact hmirrors⟩, ?_⟩
  rw [hsession, hreg, Table.keys, Table.entries_insert free, List.map_append]
  rfl

/-- The files of the first compiler are opened in their order, each behind those that it imports. -/
theorem Reopens.openFiles (hc : c.Sourced) (listed : c.includeImports = true) (hr : c.Rereadable)
    (todo : List (String × FileId)) : ∀ (done : List (String × FileId)) (d : Compiler), c.Reopens d →
    c.session.registry.entries = done ++ todo → d.session.registry.keys = done.map Prod.fst →
    ∃ d', Compiler.openFiles (todo.map Prod.fst) d = .ok () d' ∧ c.Reopens d' ∧
      d'.session.registry.keys = c.session.registry.keys := by
  induction todo with
  | nil =>
    intro done d h hentries hkeys
    refine ⟨d, rfl, h, ?_⟩
    rw [hkeys, Table.keys, hentries, List.append_nil]
  | cons e todo ih =>
    intro done d h hentries hkeys
    have hat : c.session.registry.entries[done.length]? = some e := by
      rw [hentries, List.getElem?_append_right (Nat.le_refl _), Nat.sub_self, List.getElem?_cons_zero]
    have hf : c.file? e.1 = some e.2 := Table.mem_entries_iff.mp (List.mem_of_getElem? hat)
    have free : d.file? e.1 = none := by
      have hnodup := c.session.registry.nodup
      rw [hentries, List.map_append, List.map_cons] at hnodup
      refine Table.find?_eq_none_iff.mpr fun hmem => ?_
      rw [hkeys] at hmem
      exact (List.nodup_append.mp hnodup).2.2 _ hmem _ (List.mem_cons_self ..) rfl
    have known : ∀ n ∈ c.pool.importNames e.2, ∃ g, d.file? n.1 = some g := by
      intro n hn
      obtain ⟨i, hi, rfl⟩ := List.mem_map.mp hn
      -- imports stand in front
      obtain ⟨j, hj, hfound⟩ := hc.established.regular.sound.ordered _ e.1 e.2 hat i.1 i.2
        (Table.mem_entries_iff.mp hi)
      rw [hentries, List.getElem?_append_left hj] at hfound
      refine Table.mem_keys_iff.mp ?_
      rw [hkeys]
      exact List.mem_map_of_mem (List.mem_of_getElem? hfound)
    obtain ⟨d₁, hopen, h₁, hkeys₁⟩ := h.openFile hc listed hr hf free known
    obtain ⟨d', hopens, h', hkeys'⟩ := ih (done ++ [e]) d₁ h₁ (by rw [hentries, List.append_assoc]; rfl)
      (by rw [hkeys₁, hkeys, List.map_append]; rfl)
    exact ⟨d', (bind_of_ok hopen _).trans hopens, h', hkeys'⟩

/-- A compiler that is about to open the sources of the compiler `c`. -/
def reopening (c : Compiler) (includeImports : Bool) : Compiler :=
  { resolver := .memory c.sources, includeImports }

theorem reopens_start (c : Compiler) (includeImports : Bool) :
    c.Reopens (c.reopening includeImports) :=
  ⟨rfl, ⟨Session.regular_empty, Session.history_empty⟩, Session.established_empty,
    Session.mirrors_empty _⟩

/-- A twin of a mirror is one, too. -/
theorem Reopens.of_twin (h : c.Reopens d) {d' : Compiler} (hshadows : Shadows d d') (hlawful : Lawful d')
    (hestablished : Session.Established (d'.session, [])) : c.Reopens d' := by
  obtain ⟨hresolver, ρ, htwin⟩ := hshadows
  refine ⟨hresolver.trans h.resolver, hlawful, hestablished, ⟨fun name g hg => ?_⟩⟩
  obtain ⟨f, hf, rfl, hm⟩ := htwin.files name g hg
  obtain ⟨f', hf', he⟩ := h.mirrors.files name f hf
  have htree := h.lawful.regular.sound.tree
  refine ⟨f', hf', he.trans ?_⟩
  exact (hm.outline htree (fun _ => rfl) rfl htwin.regular.sound.tree
    (h.lawful.regular.sound.named name f hf).1).symm

/-- The sources can be opened in any order, and then all files are complete. -/
theorem Sourced.exists_reopens (hc : c.Sourced) (listed : c.includeImports = true)
    (hr : c.Rereadable) (includeImports : Bool) (paths : List String)
    (all : ∀ path, path ∈ paths ↔ ∃ f, c.file? path = some f) :
    ∃ d, Compiler.openFiles paths (c.reopening includeImports) = .ok () d ∧ c.Reopens d ∧
      ∀ name, (∃ g, d.file? name = some g) ↔ ∃ f, c.file? name = some f := by
  have hstart := c.reopens_start includeImports
  obtain ⟨d₀, hopens, hreopens, hkeys⟩ := hstart.openFiles hc listed hr c.session.registry.entries []
    _ rfl rfl
  obtain ⟨hgoes, -, hleads, -⟩ := leads_of_openFiles _ hstart.lawful hopens
  obtain ⟨d, hopen, hshadows⟩ := openFiles_again hreopens.lawful paths (fun path hpath => by
    obtain ⟨f, hf⟩ := (all path).mp hpath
    obtain ⟨name, g, hlead, -⟩ := hleads path (Table.mem_keys_iff.mpr ⟨f, hf⟩)
    exact ⟨name, g, hlead⟩) (c.reopening includeImports)
    ⟨hreopens.resolver.symm, ⟨id, id, id, id⟩, Session.twin_empty ..⟩
  obtain ⟨hgoes', -, hleads', -⟩ := leads_of_openFiles _ hstart.lawful hopen
  have hd : c.Reopens d := hreopens.of_twin hshadows (hstart.lawful.goes hgoes')
    (hstart.established.steps hgoes'.steps)
  refine ⟨d, hopen, hd, fun name => ⟨fun ⟨g, hg⟩ => ?_, fun ⟨f, hf⟩ => ?_⟩⟩
  · obtain ⟨f, hf, -⟩ := hd.mirrors.files name g hg
    exact ⟨f, hf⟩
  · obtain ⟨name', g, hlead, -⟩ := hleads' name ((all name).mpr ⟨f, hf⟩)
    have hnamed := hlead.named
    rw [hd.resolver, nameOf_memory (hr.plain name f hf)] at hnamed
    cases hnamed
    exact ⟨g, hlead.registered⟩

/-- What is read again is what was read. -/
theorem Sourced.restored (hc : c.Sourced) (hr : c.Rereadable) (h : c.Reopens d)
    (hf : c.file? name = some f) (hg : d.file? name = some g) :
    d.pool.outline (.asBound d.pool) g = c.pool.outline (.asBound c.pool) f ∧
      d.pool.source g = c.pool.source f := by
  have hcopies := h.mirrors.boundCopies hc.established h.established.consistent
    h.established.regular.numbered.bound fun f ⟨n, hn⟩ => hr.unrivalled n f hn
  have hR : Session.Namesakes c.session d.session f g := ⟨name, hf, hg⟩
  refine ⟨(hcopies.outline hR).symm, ?_⟩
  have himports : d.pool.importNames g = c.pool.importNames f :=
    (congrArg FileOutline.imports (hcopies.copies.outline hR)).symm
  refine (Pool.source_eq_of_outline hcopies.copies.left hcopies.copies.right ?_
    ((hcopies.determines hR).2.outline hcopies.copies.left hcopies.copies.right
      (hcopies.copies.outline hR))).symm
  exact (hc.established.regular.sound.importStatements ⟨name, hf⟩).trans
    ((congrArg _ himports.symm).trans (h.established.regular.sound.importStatements ⟨name, hg⟩).symm)

/-! ### Any compiler -/

/-- After any calls, the sources of all complete files, which are listed with the imports, can be opened
under their names by another compiler, in any order and however often each, if they can be read again.
The same files are complete then.  Each declares the same, and whatever a field or an extend block refers
to is declared under the same full name in the file of the same name.  And each file has the same source. -/
theorem openFiles_sources (resolver : Resolver) (calls : List Call)
    (listed : (after (fresh resolver) calls).includeImports = true)
    (rereadable : (after (fresh resolver) calls).Rereadable) (includeImports : Bool)
    (paths : List String)
    (all : ∀ path, path ∈ paths ↔ ∃ f, (after (fresh resolver) calls).file? path = some f) :
    ∃ d, openFiles paths ((after (fresh resolver) calls).reopening includeImports) = .ok () d ∧
      (∀ name, (∃ g, d.file? name = some g) ↔ ∃ f, (after (fresh resolver) calls).file? name = some f) ∧
      ∀ name f g, (after (fresh resolver) calls).file? name = some f → d.file? name = some g →
        d.pool.outline (.asBound d.pool) g = (after (fresh resolver) calls).pool.outline
          (.asBound (after (fresh resolver) calls).pool) f ∧
        d.pool.source g = (after (fresh resolver) calls).pool.source f := by
  have hc := sourced_after resolver calls
  obtain ⟨d, hopen, hd, hnames⟩ := hc.exists_reopens listed rereadable includeImports paths all
  exact ⟨d, hopen, hnames, fun name f g hf hg => hc.restored rereadable hd hf hg⟩

/-- So no source is changed when all are read again. -/
theorem reread_unchanged (resolver : Resolver) (calls : List Call)
    (listed : (after (fresh resolver) calls).includeImports = true)
    (rereadable : (after (fresh resolver) calls).Rereadable) :
    ∃ d, (after (fresh resolver) calls).reread = .ok d ∧
      (after (fresh resolver) calls).changed d = [] := by
  have hc := sourced_after resolver calls
  have hsources := hc.sources_eq listed
  have hmem : ∀ {name text}, (name, text) ∈ (after (fresh resolver) calls).sources →
      ∃ f, (after (fresh resolver) calls).file? name = some f ∧
        (after (fresh resolver) calls).pool.source f = text := by
    intro name text hmem
    rw [hsources] at hmem
    have hfind := Table.mem_entries_iff.mp hmem
    rw [Table.find?_map] at hfind
    exact Option.map_eq_some_iff.mp hfind
  have all : ∀ path, path ∈ ((after (fresh resolver) calls).sources.map Prod.fst).reverse ↔
      ∃ f, (after (fresh resolver) calls).file? path = some f := by
    intro path
    rw [List.mem_reverse, hsources]
    refine Table.mem_keys_iff.trans ?_
    simp only [Table.find?_map, Option.map_eq_some_iff]
    constructor
    · rintro ⟨-, f, hf, -⟩
      exact ⟨f, hf⟩
    · rintro ⟨f, hf⟩
      exact ⟨_, f, hf, rfl⟩
  obtain ⟨d, hopen, hd, hnames⟩ := hc.exists_reopens listed rereadable true _ all
  refine ⟨d, ?_, ?_⟩
  · rw [reread]
    simp only [reopening] at hopen
    simp only [hopen]
  · rw [changed, List.map_eq_nil_iff, List.filter_eq_nil_iff]
    rintro ⟨name, text⟩ hin
    obtain ⟨f, hf, rfl⟩ := hmem hin
    obtain ⟨g, hg⟩ := (hnames name).mpr ⟨f, hf⟩
    simp only [hg, Option.map_some, (hc.restored rereadable hd hf hg).2, ne_eq, not_true_eq_false,
      decide_false, Bool.false_eq_true, not_false_eq_true]

/-! ### Full names that end in each other -/

theorem typesNamed_after (resolver : Resolver) (calls : List Call) :
    (after (fresh resolver) calls).pool.TypesNamed :=
  Session.sound_empty.typesNamed Session.typesNamed_empty (goes_after calls (fresh resolver)).steps

/-- No full name leads to a rival if none of a type ends in the full name of another one. -/
theorem Sourced.unrivalled (hc : c.Sourced) (hnamed : c.pool.TypesNamed) (hf : c.session.Registered f)
    (hends : ∀ t ∈ c.pool.allTypes, ∀ t' ∈ c.pool.allTypes,
      c.pool.typeName t <:+ c.pool.typeName t' → t = t') : c.pool.Unrivalled f := by
  intro scope name offset t hr t' ht'
  have hw : c.pool.WellFormed := hc.established.regular.sound.tree
  have ht : c.pool.HasType t := ((hc.established.regular.grounds.registered f hf).bound hr).1
  rcases ht' with ht' | ht'
  · refine (hends t (Pool.mem_allTypes_iff.mpr ht) t' ?_ ?_).symm
    · exact Pool.mem_allTypes_iff.mpr (hw.hasType_of_inFile ht')
    · rw [(hw.of_inFile ht').2]
  · obtain ⟨i, -, front, hname, hfind, -⟩ := hnamed.of_inImports ht'
    refine (hends t (Pool.mem_allTypes_iff.mpr ht) t' ?_ ?_).symm
    · exact Pool.mem_allTypes_iff.mpr (hc.established.regular.sound.types _ _ t' hfind)
    · exact ⟨front, hname.symm⟩

/-- A file that extends a message of its import, and refers to types that are declared behind it. -/
def dumpingFiles : Resolver :=
  .memory [("a.proto", "package p; import public \"base.proto\"; extend q.B \x7b " ++
      "optional M m = 100; \x7d message M \x7b map<int32, Color> colors = 1; enum Color \x7b R = 0; \x7d \x7d"),
    ("base.proto", "package p.q; message B \x7b extensions 100 to 200; optional B next = 1; \x7d")]

/-- A compiler that has read the file and lists the import, too. -/
def dumping : Compiler := after (fresh dumpingFiles) [.openFile "a.proto", .includeImports true]

theorem dumping_rereadable : dumping.Rereadable := by
  have hc : dumping.Sourced := sourced_after dumpingFiles _
  have hnamed : dumping.pool.TypesNamed := typesNamed_after dumpingFiles _
  have hread : (∀ e ∈ dumping.session.registry.entries, Path.fileName? e.1 = some e.1 ∧
      (dumping.pool.source e.2).utf8ByteSize ≤ maxFileSize ∧
      (dumping.pool.file e.2).editionOrOldest = .proto2) ∧
      ∀ t ∈ dumping.pool.allTypes, ∀ t' ∈ dumping.pool.allTypes,
        dumping.pool.typeName t <:+ dumping.pool.typeName t' → t = t' := by
    decide +kernel
  have hentry : ∀ {name f}, dumping.file? name = some f → _ := fun hf =>
    hread.1 _ (Table.mem_entries_iff.mpr hf)
  refine ⟨fun name f hf => (hentry hf).1, fun name f hf => (hentry hf).2.1, fun name f hf h => ?_,
    fun name f hf => hc.unrivalled hnamed ⟨name, hf⟩ hread.2⟩
  rw [Pool.RequiresInProto3, (hentry hf).2.2] at h
  cases h.1

/-- The file is opened before its import, and once more. -/
theorem openFiles_sources_dumping : dumping.includeImports = true ∧ dumping.Rereadable ∧
    (∀ path, path ∈ ["a.proto", "base.proto", "a.proto"] ↔ ∃ f, dumping.file? path = some f) ∧
    ∃ d, openFiles ["a.proto", "base.proto", "a.proto"] (dumping.reopening false) = .ok () d ∧
      (∀ name, (∃ g, d.file? name = some g) ↔ ∃ f, dumping.file? name = some f) ∧
      ∀ name f g, dumping.file? name = some f → d.file? name = some g →
        d.pool.outline (.asBound d.pool) g = dumping.pool.outline (.asBound dumping.pool) f ∧
        d.pool.source g = dumping.pool.source f := by
  have hread : dumping.includeImports = true ∧
      dumping.session.registry.keys = ["base.proto", "a.proto"] := by decide +kernel
  have all : ∀ path, path ∈ ["a.proto", "base.proto", "a.proto"] ↔
      ∃ f, dumping.file? path = some f := by
    intro path
    refine Iff.trans ?_ (Table.mem_keys_iff (t := dumping.session.registry))
    rw [hread.2]
    simp only [List.mem_cons, List.not_mem_nil, or_false]
    rw [or_comm, or_assoc, or_self]
  exact ⟨hread.1, dumping_rereadable, all, openFiles_sources dumpingFiles
    [.openFile "a.proto", .includeImports true] hread.1 dumping_rereadable false _ all⟩

/-- A compiler that has read a file with two imports: both declare a message `A`, and the first one in a
message that has the name of the package. -/
def rivals : Compiler :=
  after (fresh (.memory [("a.proto", "package p; import \"x.proto\"; import \"y.proto\"; " ++
      "message M \x7b optional A a = 1; \x7d"),
    ("x.proto", "package p; message p \x7b message A \x7b\x7d \x7d"),
    ("y.proto", "package p; message A \x7b\x7d")])) [.openFile "a.proto", .includeImports true]

/-- The type of the first field, with the name of the file that declares it. -/
def firstType (c : Compiler) : WrittenType := (View.asBound c.pool).fieldType (c.pool.field ⟨0⟩).type

/-- The source names the message of the second import, and the name leads to that of the first one: the
source is not the same when it is read again. -/
theorem rivals_reread : (∀ name ∈ rivals.session.registry.keys, Path.IsPlain name) ∧
    rivals.firstType = .named ⟨true, ["y.proto", "p", "A"]⟩ ∧
    ∃ d, rivals.reread = .ok d ∧ d.firstType = .named ⟨true, ["x.proto", "p", "p", "A"]⟩ ∧
      rivals.changed d = ["a.proto"] := by
  have hplain : ∀ name ∈ rivals.session.registry.keys, Path.fileName? name = some name := by
    decide +kernel
  have hread : rivals.firstType = .named ⟨true, ["y.proto", "p", "A"]⟩ ∧
      rivals.reread.toOption.map (fun d => (d.firstType, rivals.changed d)) =
        some (.named ⟨true, ["x.proto", "p", "p", "A"]⟩, ["a.proto"]) := by
    decide +kernel
  refine ⟨hplain, hread.1, ?_⟩
  obtain ⟨d, hd, he⟩ := Option.map_eq_some_iff.mp hread.2
  obtain ⟨htype, hchanged⟩ := Prod.mk.inj he
  refine ⟨d, ?_, htype, hchanged⟩
  cases hrun : rivals.reread with
  | error e =>
    rw [hrun] at hd
    cases hd
  | ok d' =>
    rw [hrun] at hd
    exact congrArg _ (Option.some.inj hd)

end Compiler

end ProtoSchema

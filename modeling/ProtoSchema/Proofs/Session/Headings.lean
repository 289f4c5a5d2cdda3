import ProtoSchema.Proofs.Pool.Reconstruction
import ProtoSchema.Proofs.Session.Depth

/-! # Reading the head of a file

In front of its declarations a file states its version, its package and its imports.  While these are
read, the cursor stays where it is and nothing but the record of the file changes (`Head`).  The imports
are found if some session behind this one has completed them (`Loadable`): there all files behind them
are complete as well, so `load` reads them here, too. -/

namespace ProtoSchema.Session

open Located (unplaced)
open Event (Rereads)

variable {r : Resolver} {x s t t' t'' : Session} {st st' : List Reading} {rd : Reading} {ρ : Renaming}
  {F F' : File} {e : Event} {es es' rest : List Event} {c : Cursor}

/-- Some session that goes on from `s` has completed the files `targets`, and not the file `name`. -/
def Loadable (r : Resolver) (s : Session) (name : String) (targets : List String) : Prop :=
  ∃ x, Steps r (s, []) (x, []) ∧ x.registry.find? name = none ∧
    ∀ target ∈ targets, ∃ g, x.registry.find? target = some g

/-- A session is a twin of those that go on from it. -/
theorem Twin.of_steps (hs : Regular (s, [])) (h : Steps r (s, []) (x, [])) : Twin x .id s := by
  have hsince := Since.of_steps hs.sound h
  refine ⟨hs, fun name g hg => ⟨g, hsince.registry name g hg, rfl, ?_⟩⟩
  exact (Pool.Matches.refl g x.pool).of_kept (.refl _ _) (hsince.registered g ⟨name, hg⟩).symm

/-- A twin stays one as long as nothing is registered. -/
theorem Twin.step (h : Twin x ρ t) (hx : Regular (x, [])) (hr : Regular (t, st))
    (hs : Step r (t, st) (t', st')) (hreg : t'.registry = t.registry) : Twin x ρ t' := by
  obtain ⟨g, -, hkept⟩ := hr.sound.kept hs
  exact h.change hx ((hr.step hs).sublist (List.nil_sublist _)) hreg (fun f hf => (hkept f hf).2)
    (.refl _ _ _)

/-! ### Events in turn -/

/-- The file with some events behind it, and the cursor where it was. -/
def Reading.passed (rd : Reading) (es rest : List Event) : Reading :=
  { rd with done := rd.done ++ es, rest }

theorem Reading.passed_nil (h : rd.rest = rest) : rd.passed [] rest = rd := by
  rw [passed, List.append_nil, ← h]

theorem Reading.passed_passed {rest' : List Event} :
    (rd.passed es rest).passed es' rest' = rd.passed (es ++ es') rest' := by
  simp only [passed, List.append_assoc]

/-- The next events of the file are `es`, and the cursor `c` is behind them. -/
def Reads (r : Resolver) (rd : Reading) (t : Session) (es : List Event) (c : Cursor) (t' : Session) :
    Prop :=
  es.foldlM (applyEvent (loadUpTo r (importLimit r) [rd.name]) rd.name rd.text) rd.cursor t = .ok c t'

theorem Reads.append (h : Reads r rd t es rd.cursor t') (h' : Reads r rd t' es' c t'') :
    Reads r rd t (es ++ es') c t'' := (foldlM_of_ok h es').trans h'

theorem reads_single
    (h : applyEvent (loadUpTo r (importLimit r) [rd.name]) rd.name rd.text rd.cursor e t = .ok c t') :
    Reads r rd t [e] c t' := by
  rw [Reads, List.foldlM_cons]
  exact bind_of_ok h _

/-- Events that are no imports are applied in any session with the pool. -/
theorem reads_of_run {pool other : Pool} {c₀ : Cursor} (h : Cursor.Run c₀ pool es c other) :
    ∀ (t : Session) (rd : Reading), t.pool = pool → rd.cursor = c₀ →
      ∃ t', Reads r rd t es c t' ∧ t'.pool = other := by
  induction h with
  | nil =>
    rintro t rd rfl rfl
    exact ⟨t, rfl, rfl⟩
  | @cons c₀ pool e c₁ pool₁ notice es c other noImport applied _ ih =>
    rintro t rd rfl rfl
    obtain ⟨t', hread, hpool⟩ := ih (t.declare rd.name pool₁ notice) { rd with cursor := c₁ } rfl rfl
    refine ⟨t', ?_, hpool⟩
    rw [Reads, List.foldlM_cons]
    refine (bind_of_ok ?_ _).trans hread
    rw [applyEvent_of_ne noImport, applied]

/-! ### Statements at the head -/

/-- The head of the file `rd` is being read: `F` is what is recorded of the file, and nothing is
declared in it.  All files are read as they were in the session `x`. -/
structure Head (r : Resolver) (x : Session) (rd : Reading) (t : Session) (F : File) : Prop where
  regular : Regular (t, [rd])
  twin : ∃ ρ, Twin x ρ t
  unread : x.registry.find? rd.name = none
  opened : ∃ file, r.openFile rd.name = .ok file ∧ file.text = rd.text
  cursor : rd.cursor = .start rd.cursor.file
  file : t.pool.file rd.cursor.file = F

namespace Head

theorem hasFile (h : Head r x rd t F) : t.pool.HasFile rd.cursor.file :=
  (h.regular.sound.reading rd (List.mem_singleton_self _)).hasFile

/-- The next event of the file is one of its text. -/
theorem mem_text (h : Head r x rd t F) (next : rd.rest = e :: rest) : e ∈ (Event.ofText rd.text).1 := by
  rw [(h.regular.sound.reading rd (List.mem_singleton_self _)).text, next]
  exact List.mem_append_right _ (List.mem_cons_self ..)

section

variable (hx : Regular (x, []))
include hx

/-- A file is begun. -/
theorem start {file : SourceFile} {name : String} (ht : Twin x ρ t) (hr : Regular (t, []))
    (free : x.registry.find? name = none) (opened : r.openFile name = .ok file) :
    Head r x (.start ⟨t.pool.files.size⟩ name file.text) (t.begin name file)
      { name, path := file.path } := by
  have free' : t.registry.find? name = none := by
    by_contra hne
    obtain ⟨g, hg⟩ := Option.ne_none_iff_exists'.mp hne
    obtain ⟨f, hf, -⟩ := ht.files name g hg
    exact Option.some_ne_none _ (hf.symm.trans free)
  have hstep : Step r (t, []) _ := .begin free' (by simp) opened
  exact ⟨hr.step hstep, ⟨ρ, ht.step hx hr hstep rfl⟩, free, ⟨file, opened, rfl⟩, rfl,
    (Pool.fileAdded t.pool name file.path).file_new⟩

/-- A statement that is no import. -/
theorem event (h : Head r x rd t F) (next : rd.rest = e :: rest)
    (noImport : ∀ kind target, e ≠ .importFile kind target) {pool : Pool}
    (applied : rd.cursor.apply t.pool e = .ok (rd.cursor, pool, none))
    (hfile : pool.file rd.cursor.file = F') :
    ∃ t', Reads r rd t [e] rd.cursor t' ∧ Head r x (rd.passed [e] rest) t' F' := by
  have hstep : Step r (t, [rd]) (t.declare rd.name pool none, [rd.passed [e] rest]) :=
    .event next noImport applied
  obtain ⟨ρ, ht⟩ := h.twin
  refine ⟨t.declare rd.name pool none, reads_single ?_, h.regular.step hstep,
    ⟨ρ, ht.step hx h.regular hstep rfl⟩, h.unread, h.opened, h.cursor, hfile⟩
  rw [applyEvent_of_ne noImport, applied]

/-- The version of the file. -/
theorem edition (h : Head r x rd t F) {v : Located Edition} (next : rd.rest = .edition v :: rest)
    (hnone : F.edition = none) : ∃ t', Reads r rd t [.edition v] rd.cursor t' ∧
      Head r x (rd.passed [.edition v] rest) t' { F with edition := some v } := by
  have hedition := h.file ▸ hnone
  have happlied : rd.cursor.apply t.pool (.edition v) = .ok (rd.cursor,
      t.pool.modifyFile rd.cursor.file fun f => { f with edition := some v }, none) := by
    simp only [Cursor.apply, Cursor.addEdition, hedition, Except.map]
  refine h.event hx next (by simp) happlied ?_
  rw [Pool.file_modifyFile, if_pos ⟨rfl, h.hasFile⟩, h.file]

/-- The package of the file. -/
theorem package (h : Head r x rd t F) {p : Located DottedName} (next : rd.rest = .package p :: rest)
    (hnone : F.package = none) : ∃ t', Reads r rd t [.package p] rd.cursor t' ∧
      Head r x (rd.passed [.package p] rest) t' { F with package := some p } := by
  have hpackage := h.file ▸ hnone
  have hdefined : rd.cursor.defined = false := by rw [h.cursor]; rfl
  have happlied : rd.cursor.apply t.pool (.package p) = .ok (rd.cursor,
      t.pool.modifyFile rd.cursor.file fun f => { f with package := some p }, none) := by
    simp only [Cursor.apply, Cursor.addPackage, hpackage, hdefined, Except.map, Bool.false_eq_true,
      if_false]
  refine h.event hx next (by simp) happlied ?_
  rw [Pool.file_modifyFile, if_pos ⟨rfl, h.hasFile⟩, h.file]

/-- An import that is complete in the session `x`. -/
theorem importFile (hh : History r (x, [])) (h : Head r x rd t F) {kind : ImportKind}
    {target : Located String} (next : rd.rest = .importFile kind target :: rest)
    (known : ∃ g, x.registry.find? target.value = some g) :
    ∃ t' id, Reads r rd t [.importFile kind target] rd.cursor t' ∧
      Head r x (rd.passed [.importFile kind target] rest) t'
        { F with imports := F.imports.insert target.value ⟨id, kind⟩ } := by
  obtain ⟨g, hg⟩ := known
  obtain ⟨k, hk⟩ := List.getElem?_of_mem (Table.mem_entries_iff.mpr hg)
  obtain ⟨file, opened, htext⟩ := h.opened
  have hchain : Chain r [rd] target.value := fun n hn => by
    obtain rfl := List.mem_singleton.mp hn
    exact Resolver.mem_targets opened (htext ▸ h.mem_text next)
  have habove : Above x k [rd] := by
    intro rd' hrd j g hj
    rw [List.mem_singleton.mp hrd] at hj
    have hread := Table.mem_entries_iff.mp (List.mem_of_getElem? hj)
    exact absurd (hread.symm.trans h.unread) (Option.some_ne_none _)
  obtain ⟨ρ, ht⟩ := h.twin
  obtain ⟨σ, t₁, id, hload, found, hr₁, ht₁, hgrows⟩ :=
    loadUpTo_again hx hh k target.value g hk [rd] (importLimit r) hchain habove rfl ρ t ht h.regular
  have hstep : Step r (t₁, [rd]) (t₁.recordImport rd.cursor.file target.value ⟨id, kind⟩,
      [rd.passed [.importFile kind target] rest]) := .importFile next found
  refine ⟨_, id, reads_single ?_, hr₁.step hstep, ⟨σ, ht₁.step hx hr₁ hstep rfl⟩, h.unread, h.opened,
    h.cursor, ?_⟩
  · rw [applyEvent_importFile]
    simp only [List.map_singleton, List.reverse_singleton] at hload
    rw [hload]
  · obtain ⟨hthere, hkept⟩ := hgrows.kept _ h.hasFile
    show (t₁.pool.modifyFile rd.cursor.file _).file rd.cursor.file = _
    rw [Pool.file_modifyFile, if_pos ⟨rfl, hthere⟩, hkept.file, h.file]

/-! ### Whole heads -/

/-- The version of the file, if it states one. -/
theorem editions (h : Head r x rd t F) (hnone : F.edition = none) (v : Option (Located Edition))
    (hes : Rereads es (v.toList.map fun e => .edition (unplaced e.value))) (next : rd.rest = es ++ rest) :
    ∃ t' v', Reads r rd t es rd.cursor t' ∧ Head r x (rd.passed es rest) t' { F with edition := v' } ∧
      v'.map Located.value = v.map Located.value := by
  cases v with
  | none =>
    obtain rfl := Event.rereads_nil_iff.mp hes
    exact ⟨t, F.edition, rfl, (Reading.passed_nil next).symm ▸ h, by rw [hnone]⟩
  | some v =>
    obtain ⟨e, rfl, he⟩ := hes.single
    obtain ⟨v', rfl, hv⟩ : ∃ v', e = .edition v' ∧ v'.value = v.value := by
      cases e with
      | edition v' => exact ⟨v', rfl, (Located.mk.inj (Event.edition.inj he)).1⟩
      | _ => cases he
    obtain ⟨t', hread, hhead⟩ := h.edition hx next hnone
    exact ⟨t', some v', hread, hhead, congrArg some hv⟩

/-- The package of the file, if it has one. -/
theorem packages (h : Head r x rd t F) (hnone : F.package = none) (p : Option (Located DottedName))
    (hes : Rereads es (p.toList.map fun p => .package (unplaced p.value))) (next : rd.rest = es ++ rest) :
    ∃ t' p', Reads r rd t es rd.cursor t' ∧ Head r x (rd.passed es rest) t' { F with package := p' } ∧
      p'.map Located.value = p.map Located.value := by
  cases p with
  | none =>
    obtain rfl := Event.rereads_nil_iff.mp hes
    exact ⟨t, F.package, rfl, (Reading.passed_nil next).symm ▸ h, by rw [hnone]⟩
  | some p =>
    obtain ⟨e, rfl, he⟩ := hes.single
    obtain ⟨p', rfl, hp⟩ : ∃ p', e = .package p' ∧ p'.value = p.value := by
      cases e with
      | package p' => exact ⟨p', rfl, (Located.mk.inj (Event.package.inj he)).1⟩
      | _ => cases he
    obtain ⟨t', hread, hhead⟩ := h.package hx next hnone
    exact ⟨t', some p', hread, hhead, congrArg some hp⟩

/-- The imports of the file, each of another one. -/
theorem imports (hh : History r (x, [])) (names : List (String × ImportKind)) :
    ∀ {rd : Reading} {t : Session} {F : File} {es : List Event}, Head r x rd t F →
      Rereads es (names.map fun n => .importFile n.2 (unplaced n.1)) → rd.rest = es ++ rest →
      (∀ n ∈ names, ∃ g, x.registry.find? n.1 = some g) →
      (F.imports.keys ++ names.map Prod.fst).Nodup →
      ∃ t' is, Reads r rd t es rd.cursor t' ∧ Head r x (rd.passed es rest) t' { F with imports := is } ∧
        is.entries.map (fun i => (i.1, i.2.kind)) =
          F.imports.entries.map (fun i => (i.1, i.2.kind)) ++ names := by
  induction names with
  | nil =>
    intro rd t F es h hes next _ _
    obtain rfl := Event.rereads_nil_iff.mp hes
    exact ⟨t, F.imports, rfl, (Reading.passed_nil next).symm ▸ h, (List.append_nil _).symm⟩
  | cons n names ih =>
    intro rd t F es h hes next known hnodup
    obtain ⟨e, es, rfl, he, hrest⟩ := hes.cons
    obtain ⟨target, rfl, htarget⟩ : ∃ target, e = .importFile n.2 target ∧ target.value = n.1 := by
      cases e with
      | importFile kind target =>
        obtain ⟨rfl, ht⟩ := Event.importFile.inj he
        exact ⟨target, rfl, congrArg Located.value ht⟩
      | _ => cases he
    rw [List.forall_mem_cons, ← htarget] at known
    obtain ⟨t₁, id, hread, hhead⟩ := h.importFile hx hh next known.1
    have hfree : F.imports.find? target.value = none := Table.find?_eq_none_iff.mpr fun hm =>
      (List.nodup_append.mp hnodup).2.2 _ hm n.1 (List.mem_cons_self ..) htarget
    have hentries := Table.entries_insert hfree (⟨id, n.2⟩ : Import)
    obtain ⟨t', is, hread', hhead', his⟩ := ih hhead hrest rfl known.2 (by
      rw [Table.keys, hentries, List.map_append, List.append_assoc, htarget]
      exact hnodup)
    refine ⟨t', is, hread.append hread', ?_, ?_⟩
    · rwa [Reading.passed_passed] at hhead'
    · rw [his, hentries, List.map_append, List.append_assoc, htarget]
      rfl

end

/-- What is written behind the head is declared in the file. -/
theorem declarations (h : Head r x rd t F) (hmembers : F.members = {}) (hoptions : F.options = [])
    {source : Pool} {f : FileId} (hw : source.Writable f)
    (hlabels : ∀ d, source.FieldOf f d → (source.field d).form = .plain (some .required) →
      F.editionOrOldest ≠ .proto3)
    (hes : Rereads es ((source.file f).options.map .option ++
      (source.file f).members.enums.values.flatMap source.enumStatements ++
      (source.file f).members.messages.values.flatMap source.messageStatements ++
      (source.file f).members.extendBlocks.flatMap source.extendStatements)) :
    ∃ c t' members options, Reads r rd t es c t' ∧
      t'.pool.file rd.cursor.file = { F with members, options } ∧
      t'.pool.declared .asWritten (.file rd.cursor.file) =
        source.declared (.asPrinted source) (.file f) := by
  have hscope : rd.cursor.scope = .file rd.cursor.file := by
    rw [h.cursor]
    rfl
  have hsite : Cursor.Site F.editionOrOldest none rd.cursor t.pool := by
    refine ⟨h.regular.sound.tree, h.hasFile, ?_, ?_, ?_, congrArg File.editionOrOldest h.file, ?_⟩
    · rw [hscope]
      exact h.hasFile
    · rw [hscope]
      rfl
    · rw [h.cursor]
      rfl
    · rw [hscope]
      rfl
  have hempty : t.pool.declared .asWritten rd.cursor.scope = {} := by
    have hcontents : t.pool.contents (.file rd.cursor.file) = {} := by
      simp only [Pool.contents, Pool.attributes, Pool.members, h.file, hmembers, hoptions]
      rfl
    rw [hscope, Pool.declared, hcontents]
    rfl
  have hfresh : Cursor.Fresh (source.declared (.asPrinted source) (.file f)) rd.cursor t.pool := by
    constructor <;> rw [hempty]
    · exact hw.tree.nodup_names _
    · exact hw.tree.nodup_numbers _
  obtain ⟨c, other, hrun, hbuilt⟩ :=
    Cursor.Builds.declarations hw hlabels rd.cursor t.pool es hes hsite hfresh
  obtain ⟨t', hread, rfl⟩ := reads_of_run hrun t rd rfl rfl
  obtain ⟨-, members, options, hfile⟩ := hbuilt.grows.file _ h.hasFile
  refine ⟨c, t', members, options, hread, by rw [hfile, h.file], ?_⟩
  have hdeclared := hbuilt.declared
  rw [hempty, hscope] at hdeclared
  exact hdeclared

end Head

end ProtoSchema.Session

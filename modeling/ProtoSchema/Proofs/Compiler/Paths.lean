import ProtoSchema.Proofs.Compiler.Orders
import ProtoSchema.Proofs.Compiler.Registry
import ProtoSchema.Proofs.Source.Paths

/-! # Paths of files

Over include directories a file is read from the path of its name below one of them, and files are
shared by name (`paths_after`).  Names of opened paths are plain, so opened files of one directory are
shared by path as well; files of two directories are, unless one of these lies below the other.  A name
in an import statement need not be plain: two spellings of it are two files with the same path
(`twoSpellings_sharePath`), and so are the two names of a file below overlapping directories
(`nestedDirectories_sharePath`). -/

namespace ProtoSchema

namespace Resolver

variable {disk : Disk} {dirs : List String} {name path : String} {file : SourceFile}

theorem path_of_readFile (h : readFile disk name path = .ok file) : file.path = some path := by
  unfold readFile at h
  split at h
  · cases h
  · cases h
  · split at h
    · cases h
    · split at h
      · cases h
        rfl
      · cases h

/-- A file comes from the path of its name below one of the directories. -/
theorem path_of_directories (h : (directories disk dirs).openFile name = .ok file) :
    ∃ dir ∈ dirs, file.path = some (Path.join dir name) := by
  have hfirst : openFirst name (dirs.map (directory disk)) = .ok file := h
  clear h
  induction dirs with
  | nil => cases hfirst
  | cons dir dirs ih =>
    rw [List.map_cons, openFirst] at hfirst
    split at hfirst
    · next hopen =>
      cases hfirst
      exact ⟨dir, List.mem_cons_self .., path_of_readFile hopen⟩
    · split at hfirst
      · obtain ⟨dir', hdir, hpath⟩ := ih hfirst
        exact ⟨dir', List.mem_cons_of_mem dir hdir, hpath⟩
      · cases hfirst

/-- A resolver with its texts written out. -/
theorem eq_of_texts {r : Resolver} {texts : List String} (h : r.texts = texts) :
    r = ⟨r.nameOf?, r.openFile, texts, fun hopen => h ▸ r.mem_texts hopen⟩ := by
  subst h
  rfl

end Resolver

namespace Compiler

variable {c c' : Compiler} {disk : Disk} {dirs : List String} {path name : String}

/-- However a path is spelled, the name that is made from it is plain. -/
theorem isPlain_of_nameOf (h : nameOf (.directories disk dirs) path = .ok name) : Path.IsPlain name := by
  unfold nameOf at h
  split at h
  · next hname =>
    cases h
    rw [Option.or_eq_some_iff] at hname
    obtain hname | ⟨-, hname⟩ := hname
    · obtain ⟨resolver, hresolver, hunder⟩ := List.exists_of_findSome?_eq_some hname
      obtain ⟨dir, -, rfl⟩ := List.mem_map.mp hresolver
      exact Path.isPlain_of_nameUnder? hunder
    · exact Path.isPlain_of_fileName? hname
  · cases h

/-! ### Opened files -/

/-- Opened files have plain names. -/
def OpensPlain (c : Compiler) : Prop := ∀ f ∈ c.roots, ∃ name, c.file? name = some f ∧ Path.IsPlain name

theorem roots_of_loadAt_error {e : Error} (h : loadAt path name c = .error e c') : c'.roots = c.roots := by
  cases hold : c.session.registry.find? name with
  | some f =>
    rw [loadAt_of_registered hold] at h
    split at h <;> cases h
    rfl
  | none =>
    rw [loadAt_of_free hold] at h
    split at h
    · cases h
      rfl
    · split at h <;> cases h
      rfl

theorem roots_of_openFile_error {e : Error} (h : openFile path c = .error e c') : c'.roots = c.roots := by
  rw [openFile_eq] at h
  split at h
  · cases h
    rfl
  · split at h <;> cases h
    next hload => exact roots_of_loadAt_error hload

theorem OpensPlain.goes (h : OpensPlain c) (hgoes : Goes c c') (hroots : c'.roots = c.roots) :
    OpensPlain c' := by
  intro f hf
  rw [hroots] at hf
  obtain ⟨name, hname, hplain⟩ := h f hf
  exact ⟨name, file?_of_steps hgoes.steps hname, hplain⟩

theorem OpensPlain.openFile (hc : Lawful c) (hresolver : c.resolver = .directories disk dirs)
    (h : OpensPlain c) (path : String) : Ends (openFile path c) (fun _ => OpensPlain) OpensPlain := by
  have hends := openFile_ends path c
  cases hopen : Compiler.openFile path c with
  | error e c' =>
    rw [hopen] at hends
    exact h.goes hends (roots_of_openFile_error hopen)
  | ok u c' =>
    rw [hopen] at hends
    have hgoes : Goes c c' := hends
    obtain ⟨name, f, hleads, hroots⟩ := leads_of_openFile hc hopen
    intro g hg
    rw [hroots] at hg
    obtain hg | rfl := mem_roots_addRoot.mp hg
    · obtain ⟨name, hname, hplain⟩ := h g hg
      exact ⟨name, file?_of_steps hgoes.steps hname, hplain⟩
    · refine ⟨name, hleads.registered, ?_⟩
      have hnamed := hleads.named
      rw [hgoes.resolver, hresolver] at hnamed
      exact isPlain_of_nameOf hnamed

/-- Opening files, and failing to, leaves the opened files with plain names. -/
theorem opensPlain_after (calls : List Call) : ∀ c : Compiler, Lawful c →
    c.resolver = .directories disk dirs → OpensPlain c → OpensPlain (after c calls) := by
  induction calls with
  | nil => exact fun c _ _ h => h
  | cons call calls ih =>
    intro c hc hresolver h
    refine ih (call.run c) (hc.goes (call.goes c)) ((call.goes c).resolver.trans hresolver) ?_
    have hstate : ∀ {result : EStateM.Result Error Compiler Unit},
        Ends result (fun _ => OpensPlain) OpensPlain → OpensPlain (stateOf result) := by
      intro result hends
      cases result with
      | ok _ _ | error _ _ => exact hends
    cases call with
    | openFile path => exact hstate (h.openFile hc hresolver path)
    | openFiles paths =>
      refine hstate ?_
      have hloop := Ends.forM (f := Compiler.openFile) (p := fun _ c' => Goes c c' ∧ OpensPlain c')
        (q := OpensPlain) paths ?_ [] c ⟨.refl c, h⟩
      · exact hloop.mono (fun _ _ h => h.2) fun _ h => h
      · rintro path - before d ⟨hgoes, hd⟩
        have hopen := hd.openFile (hc.goes hgoes) (hgoes.resolver.trans hresolver) path
        have hends := openFile_ends path d
        cases hresult : Compiler.openFile path d with
        | ok u d' =>
          rw [hresult] at hopen hends
          exact ⟨hgoes.trans hends, hopen⟩
        | error e d' =>
          rw [hresult] at hopen
          exact hopen
    | includeImports yes => exact h

/-! ### Sharing -/

/-- How files are shared over include directories. -/
structure SharedByName (dirs : List String) (c : Compiler) : Prop where
  /-- A file comes from the path of its name below one of the directories. -/
  path : ∀ name f, c.file? name = some f → ∃ dir ∈ dirs, (c.pool.file f).path = some (Path.join dir name)
  /-- There is one file for each name. -/
  name : ∀ name name' f f', c.file? name = some f → c.file? name' = some f' → (f = f' ↔ name = name')
  /-- The name of an opened file is plain, however its path was spelled. -/
  opened : ∀ f ∈ c.roots, ∃ name, c.file? name = some f ∧ Path.IsPlain name
  /-- Files with plain names are the same if the paths of their names below any one directory are. -/
  plain : ∀ dir name name' f f', c.file? name = some f → c.file? name' = some f' →
    Path.IsPlain name → Path.IsPlain name' →
    Path.components (Path.join dir name) = Path.components (Path.join dir name') → f = f'
  /-- Different files with plain names have the same path exactly if the directory of one of them lies
  below that of the other. -/
  overlapping : ∀ name name' f f' p p', c.file? name = some f → c.file? name' = some f' →
    Path.IsPlain name → Path.IsPlain name' → (c.pool.file f).path = some p →
    (c.pool.file f').path = some p' → f ≠ f' →
    ∃ dir ∈ dirs, ∃ dir' ∈ dirs, p = Path.join dir name ∧ p' = Path.join dir' name' ∧
      (Path.components p = Path.components p' ↔
        Path.Overlaps dir dir' name name' ∨ Path.Overlaps dir' dir name' name)

/-- After any calls over include directories, files are shared by name. -/
theorem paths_after (disk : Disk) (dirs : List String) (calls : List Call) :
    SharedByName dirs (after (fresh (.directories disk dirs)) calls) := by
  have hlawful := lawful_after (.directories disk dirs) calls
  have hname : ∀ name name' f f', (after (fresh (.directories disk dirs)) calls).file? name = some f →
      (after (fresh (.directories disk dirs)) calls).file? name' = some f' → (f = f' ↔ name = name') := by
    intro name name' f f' hf hf'
    constructor
    · rintro rfl
      rw [← (hlawful.regular.sound.named name f hf).2, (hlawful.regular.sound.named name' f hf').2]
    · rintro rfl
      exact Option.some.inj (hf.symm.trans hf')
  have hpath : ∀ name f, (after (fresh (.directories disk dirs)) calls).file? name = some f →
      ∃ dir ∈ dirs, ((after (fresh (.directories disk dirs)) calls).pool.file f).path =
        some (Path.join dir name) := by
    intro name f hf
    obtain ⟨file, hopen, hpath⟩ := (hlawful.history.registered name f hf).path
    rw [(goes_after calls _).resolver] at hopen
    obtain ⟨dir, hdir, hjoin⟩ := Resolver.path_of_directories hopen
    exact ⟨dir, hdir, hpath.trans hjoin⟩
  refine ⟨hpath, hname, ?_, ?_, ?_⟩
  · exact opensPlain_after calls _ (lawful_fresh _) rfl fun f hf => nomatch hf
  · intro dir name name' f f' hf hf' hplain hplain' hcomponents
    exact (hname name name' f f' hf hf').mpr (Path.eq_of_components_join hplain hplain' hcomponents)
  · intro name name' f f' p p' hf hf' hplain hplain' hp hp' hne
    obtain ⟨dir, hdir, hjoin⟩ := hpath name f hf
    obtain ⟨dir', hdir', hjoin'⟩ := hpath name' f' hf'
    obtain rfl : p = Path.join dir name := Option.some.inj (hp.symm.trans hjoin)
    obtain rfl : p' = Path.join dir' name' := Option.some.inj (hp'.symm.trans hjoin')
    refine ⟨dir, hdir, dir', hdir', rfl, rfl, Path.components_join_eq_iff hplain hplain' fun heq => ?_⟩
    exact hne ((hname name name' f f' hf hf').mpr heq)

/-- A file that imports another one twice, with different spellings of its name. -/
def twoSpellings : Disk where
  root := .directory [("inc", .directory [
    ("a.proto", .file (.bytes "import \"b.proto\"; import \"./b.proto\";".toUTF8)),
    ("b.proto", .file (.bytes "message B {}".toUTF8))])]

theorem texts_twoSpellings : (Resolver.directories twoSpellings ["inc"]).texts =
    ["import \"b.proto\"; import \"./b.proto\";", "message B {}"] := by
  have hcontents : twoSpellings.contents =
      [.bytes "import \"b.proto\"; import \"./b.proto\";".toUTF8, .bytes "message B {}".toUTF8] := by
    simp only [Disk.contents, twoSpellings, Entry.contents, List.append_nil, List.singleton_append]
  show [Resolver.directory twoSpellings "inc"].flatMap Resolver.texts = _
  simp only [List.flatMap_singleton, Resolver.directory, hcontents]
  decide +kernel

/-- The imported file is registered twice, with the same components in both paths. -/
theorem twoSpellings_sharePath :
    let c := after (fresh (.directories twoSpellings ["inc"])) [.openFile "inc/a.proto"]
    c.file? "b.proto" = some ⟨1⟩ ∧ c.file? "./b.proto" = some ⟨2⟩ ∧
      (c.pool.file ⟨1⟩).path = some "inc/b.proto" ∧ (c.pool.file ⟨2⟩).path = some "inc/./b.proto" ∧
      Path.components "inc/b.proto" = Path.components "inc/./b.proto" := by
  rw [Resolver.eq_of_texts texts_twoSpellings]
  decide +kernel

/-- A file below two directories, imported by both of its names. -/
def nestedDirectories : Disk where
  root := .directory [("inc", .directory [
    ("a.proto", .file (.bytes "import \"b.proto\"; import \"sub/b.proto\";".toUTF8)),
    ("sub", .directory [("b.proto", .file (.bytes "message B {}".toUTF8))])])]

theorem texts_nestedDirectories : (Resolver.directories nestedDirectories ["inc", "inc/sub"]).texts =
    ["import \"b.proto\"; import \"sub/b.proto\";", "message B {}",
      "import \"b.proto\"; import \"sub/b.proto\";", "message B {}"] := by
  have hcontents : nestedDirectories.contents =
      [.bytes "import \"b.proto\"; import \"sub/b.proto\";".toUTF8, .bytes "message B {}".toUTF8] := by
    simp only [Disk.contents, nestedDirectories, Entry.contents, List.append_nil, List.singleton_append]
  show [Resolver.directory nestedDirectories "inc", Resolver.directory nestedDirectories "inc/sub"].flatMap
    Resolver.texts = _
  simp only [List.flatMap_cons, List.flatMap_nil, Resolver.directory, hcontents]
  decide +kernel

/-- The file below both directories is registered twice, with the same path. -/
theorem nestedDirectories_sharePath :
    let c := after (fresh (.directories nestedDirectories ["inc", "inc/sub"])) [.openFile "inc/a.proto"]
    c.file? "b.proto" = some ⟨1⟩ ∧ c.file? "sub/b.proto" = some ⟨2⟩ ∧
      (c.pool.file ⟨1⟩).path = some "inc/sub/b.proto" ∧ (c.pool.file ⟨2⟩).path = some "inc/sub/b.proto" := by
  rw [Resolver.eq_of_texts texts_nestedDirectories]
  decide +kernel

end Compiler

end ProtoSchema

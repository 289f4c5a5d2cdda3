import ProtoSchema.Proofs.Compiler.Paths
import ProtoSchema.Proofs.Source.Endings

/-! # Files in the place of others

The name of an opened path is made below one include directory, and the file of that name may lie below
another one, which stands in front.  Such a file is refused, unless the path of its directory ends in that
of the other (`openFile_below`): a relative directory such as `inc` is the end of the path `x/inc`, and
then the file below `x/inc` is read in place of the one that was asked for (`lookalike_shadows`).  No other
path ends in an absolute one, so below absolute directories it is always the file that was asked for. -/

namespace ProtoSchema

namespace Path

variable {directory name path : String}

/-- The file of the same name below the directory `base` passes for the one at a path exactly if `base`
ends in the directory of the path. -/
theorem checkShadow_join_iff (h : nameUnder? directory path = some name) (base : String) :
    checkShadow name (some (join base name)) path = .ok () ↔
      proper (components directory) <:+ proper (components base) := by
  rw [← endsWith_join_iff h, checkShadow]
  split
  · next hends => exact iff_of_true rfl hends
  · next hends => exact iff_of_false (by simp) hends

/-- Otherwise it is refused. -/
theorem checkShadow_join_of_not (h : nameUnder? directory path = some name) {base : String}
    (hnot : ¬proper (components directory) <:+ proper (components base)) :
    checkShadow name (some (join base name)) path =
      .error (.fileShadowed name path (join base name)) := by
  rw [← endsWith_join_iff h] at hnot
  rw [checkShadow, if_neg hnot]

end Path

namespace Compiler

open ProtoSchema.Path (proper components)

variable {c : Compiler} {disk : Disk} {dirs : List String} {path name own : String} {f : FileId}

/-- The name of a path that lies below a directory. -/
theorem nameOf_of_nameOf? {r : Resolver} (h : r.nameOf? path = some name) : nameOf r path = .ok name := by
  simp only [nameOf, h, Option.some_or]

/-- A file that is not at the path it was opened by is refused, registered or not. -/
theorem openFile_of_shadowed (hc : Lawful c) (named : nameOf c.resolver path = .ok name)
    {file : SourceFile} (opened : c.resolver.openFile name = .ok file) {e : Error}
    (shadowed : checkShadow name file.path path = .error e) : openFile path c = .error e c := by
  have hload : loadAt path name c = .error e c := by
    cases hold : c.session.registry.find? name with
    | some f =>
      obtain ⟨file', opened', hpath⟩ := (hc.history.registered name f hold).path
      obtain rfl : file' = file := Except.ok.inj (opened'.symm.trans opened)
      rw [loadAt_of_registered hold, show (c.pool.file f).path = _ from hpath, shadowed]
    | none =>
      have hopen : openText c.resolver path name = .error e := by
        simp only [openText_eq, opened, shadowed]
      rw [loadAt_of_free hold, hopen]
  simp only [openFile_eq, named, hload]

/-- The file of a path that was opened: its name is made below the directory `own`, and it was read
below the directory `holder`. -/
structure ReadBelow (c : Compiler) (path name own holder : String) (f : FileId) : Prop where
  registered : c.file? name = some f
  found : (c.pool.file f).path = some (Path.join holder name)
  ending : proper (components own) <:+ proper (components holder)
  /-- It is at the path exactly if the two directories are the same. -/
  same : proper (components (Path.join holder name)) = proper (components path) ↔
    proper (components holder) = proper (components own)
  absolute : Path.isAbsolute own = true →
    proper (components (Path.join holder name)) = proper (components path)

/-- The file that a path leads to was read below some include directory. -/
theorem Leads.readBelow (h : Leads c path name f) (hc : Lawful c)
    (hresolver : c.resolver = .directories disk dirs) (hunder : Path.nameUnder? own path = some name) :
    ∃ holder ∈ dirs, ReadBelow c path name own holder f := by
  obtain ⟨file, hopen, hfile⟩ := (hc.history.registered name f h.registered).path
  rw [hresolver] at hopen
  obtain ⟨holder, hholder, hjoin⟩ := Resolver.path_of_directories hopen
  have hpath : (c.pool.file f).path = some (Path.join holder name) := hfile.trans hjoin
  have hending := h.unshadowed
  rw [hpath, Path.checkShadow_join_iff hunder] at hending
  have hsame := Path.proper_join_eq_iff hunder holder
  exact ⟨holder, hholder, h.registered, hpath, hending, hsame,
    fun habsolute => hsame.mpr (Path.eq_of_suffix habsolute hending)⟩

/-- A path whose name is made below an include directory: if it is opened, its file was read below a
directory that ends in that one; and a file of the name below a directory that does not is refused. -/
theorem openFile_below (disk : Disk) (dirs : List String) (calls : List Call)
    (named : (Resolver.directories disk dirs).nameOf? path = some name) :
    let c := after (fresh (.directories disk dirs)) calls
    ∃ own ∈ dirs, Path.nameUnder? own path = some name ∧
      (∀ c', openFile path c = .ok () c' → ∃ f, ∃ holder ∈ dirs, ReadBelow c' path name own holder f) ∧
      ∀ file holder, (Resolver.directories disk dirs).openFile name = .ok file →
        file.path = some (Path.join holder name) →
        ¬proper (components own) <:+ proper (components holder) →
        openFile path c = .error (.fileShadowed name path (Path.join holder name)) c := by
  intro c
  have hlawful : Lawful c := lawful_after _ calls
  have hresolver : c.resolver = .directories disk dirs := (goes_after calls _).resolver
  have hnamed : nameOf c.resolver path = .ok name := hresolver ▸ nameOf_of_nameOf? named
  obtain ⟨resolver, hdir, hunder⟩ := List.exists_of_findSome?_eq_some named
  obtain ⟨own, hown, rfl⟩ := List.mem_map.mp hdir
  refine ⟨own, hown, hunder, fun c' opened => ?_, fun file holder opened hpath hnot => ?_⟩
  · have hends := openFile_ends path c
    rw [opened] at hends
    have hgoes : Goes c c' := hends
    obtain ⟨name', f, hleads, -⟩ := leads_of_openFile hlawful opened
    have hname := hleads.named
    rw [hgoes.resolver, hnamed] at hname
    obtain rfl := Except.ok.inj hname
    exact ⟨f, hleads.readBelow (hlawful.goes hgoes) (hgoes.resolver.trans hresolver) hunder⟩
  · rw [← hresolver] at opened
    exact openFile_of_shadowed hlawful hnamed opened (hpath ▸ Path.checkShadow_join_of_not hunder hnot)

/-- Two include directories with a file of the same name; the path of one ends in that of the other. -/
def lookalikes : Disk where
  root := .directory [
    ("inc", .directory [("a.proto", .file (.bytes "message A {}".toUTF8))]),
    ("x", .directory [("inc", .directory [("a.proto", .file (.bytes "message X {}".toUTF8))])])]

theorem texts_lookalikes (dir dir' : String) : (Resolver.directories lookalikes [dir, dir']).texts =
    ["message A {}", "message X {}", "message A {}", "message X {}"] := by
  have hcontents : lookalikes.contents =
      [.bytes "message A {}".toUTF8, .bytes "message X {}".toUTF8] := by
    simp only [Disk.contents, lookalikes, Entry.contents, List.append_nil, List.singleton_append]
  show [Resolver.directory lookalikes dir, Resolver.directory lookalikes dir'].flatMap Resolver.texts = _
  simp only [List.flatMap_cons, List.flatMap_nil, Resolver.directory, hcontents]
  decide +kernel

/-- A compiler over the two directories that has opened the path below the shorter one. -/
def lookalikesOpened (dir dir' : String) : Compiler :=
  stateOf (openFile "inc/a.proto" (fresh (.directories lookalikes [dir, dir'])))

/-- The file below the first directory was read, and the open did not fail. -/
theorem lookalikesOpened_path :
    (errorOf? (openFile "inc/a.proto" (fresh (.directories lookalikes ["inc", "x/inc"]))) = none ∧
      (lookalikesOpened "inc" "x/inc").file? "a.proto" = some ⟨0⟩ ∧
      ((lookalikesOpened "inc" "x/inc").pool.file ⟨0⟩).path = some "inc/a.proto") ∧
    errorOf? (openFile "inc/a.proto" (fresh (.directories lookalikes ["x/inc", "inc"]))) = none ∧
      (lookalikesOpened "x/inc" "inc").file? "a.proto" = some ⟨0⟩ ∧
      ((lookalikesOpened "x/inc" "inc").pool.file ⟨0⟩).path = some "x/inc/a.proto" := by
  simp only [lookalikesOpened]
  rw [Resolver.eq_of_texts (texts_lookalikes _ _), Resolver.eq_of_texts (texts_lookalikes "x/inc" "inc")]
  decide +kernel

/-- With its own directory in front, the file at the path is read. -/
theorem lookalike_unshadowed :
    (Resolver.directories lookalikes ["inc", "x/inc"]).nameOf? "inc/a.proto" = some "a.proto" ∧
      openFile "inc/a.proto" (fresh (.directories lookalikes ["inc", "x/inc"])) =
        .ok () (lookalikesOpened "inc" "x/inc") ∧
      ∃ own ∈ ["inc", "x/inc"], ∃ f, ∃ holder ∈ ["inc", "x/inc"],
        ReadBelow (lookalikesOpened "inc" "x/inc") "inc/a.proto" "a.proto" own holder f := by
  have named : (Resolver.directories lookalikes ["inc", "x/inc"]).nameOf? "inc/a.proto" =
      some "a.proto" := by decide +kernel
  have opened : openFile "inc/a.proto" (fresh (.directories lookalikes ["inc", "x/inc"])) =
      .ok () (lookalikesOpened "inc" "x/inc") := eq_ok_of_errorOf? lookalikesOpened_path.1.1
  obtain ⟨own, hown, -, hread, -⟩ := openFile_below lookalikes ["inc", "x/inc"] [] named
  exact ⟨named, opened, own, hown, hread _ opened⟩

/-- With the longer directory in front, the file below that one is read in place of the file at the
path, and the open does not fail. -/
theorem lookalike_shadows :
    (Resolver.directories lookalikes ["x/inc", "inc"]).nameOf? "inc/a.proto" = some "a.proto" ∧
      openFile "inc/a.proto" (fresh (.directories lookalikes ["x/inc", "inc"])) =
        .ok () (lookalikesOpened "x/inc" "inc") ∧
      (lookalikesOpened "x/inc" "inc").file? "a.proto" = some ⟨0⟩ ∧
      ((lookalikesOpened "x/inc" "inc").pool.file ⟨0⟩).path = some "x/inc/a.proto" ∧
      proper (components "x/inc/a.proto") ≠ proper (components "inc/a.proto") :=
  ⟨by decide +kernel, eq_ok_of_errorOf? lookalikesOpened_path.2.1, lookalikesOpened_path.2.2.1,
    lookalikesOpened_path.2.2.2, by decide +kernel⟩

end Compiler

end ProtoSchema

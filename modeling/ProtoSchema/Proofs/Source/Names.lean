import ProtoSchema.Proofs.Source.Endings
import ProtoSchema.Source.Resolver

/-! # Names and paths are inverse

Below a directory each path has one name at most, and each plain name one path, if components `.` do not
count: a path has a name exactly if the path of that name below the directory has the same proper
components (`Path.nameUnder?_eq_some_iff`).  So the path of a plain name has this name
(`Path.nameOf?_directory`). -/

namespace ProtoSchema

namespace Path

variable {cs ds : List Component} {directory name path : String}

/-- Only the proper components count for a name. -/
theorem nameOf?_of_proper (h : proper cs = proper ds) : nameOf? cs = nameOf? ds := by
  have hfilter : cs.filter (· ≠ .current) = ds.filter (· ≠ .current) := h
  rw [nameOf?_eq, nameOf?_eq, hfilter]

/-- A path that begins with a directory goes on with what it has more than the directory. -/
theorem exists_after? {front rest : List Component} (h : proper cs = proper front ++ proper rest) :
    ∃ found, after? cs front = some found ∧ proper found = proper rest := by
  have hprefix : proper front <+: proper cs := ⟨_, h.symm⟩
  obtain ⟨found, hfound⟩ := Option.isSome_iff_exists.mp (isSome_after?.mpr hprefix)
  refine ⟨found, hfound, ?_⟩
  rw [proper_of_after? hfound] at h
  exact List.append_cancel_left h

/-- A path has a name below a directory exactly if it is the path of that name, which is plain. -/
theorem nameUnder?_eq_some_iff : nameUnder? directory path = some name ↔
    IsPlain name ∧ proper (components (join directory name)) = proper (components path) := by
  constructor
  · intro h
    obtain ⟨hrelative, hpath⟩ := proper_of_nameUnder? h
    exact ⟨isPlain_of_nameUnder? h, by rw [proper_join hrelative, hpath]⟩
  · rintro ⟨hplain, hpath⟩
    rw [proper_join (isAbsolute_of_fileName? hplain)] at hpath
    obtain ⟨rest, hrest, hproper⟩ := exists_after? hpath.symm
    have hname : nameOf? rest = some name := (nameOf?_of_proper hproper).trans hplain
    exact Option.bind_eq_some_iff.mpr ⟨rest, hrest, hname⟩

/-- Below any include directory, the name that is made from a path is plain, and its path has the same
components as the path that it was made from, apart from `.`; all paths with these components have that
name.  And from the path of a plain name the name itself is made. -/
theorem nameOf?_directory (disk : Disk) (dir : String) :
    (∀ path name, (Resolver.directory disk dir).nameOf? path = some name ↔
      fileName? name = some name ∧ proper (components (join dir name)) = proper (components path)) ∧
    ∀ name, fileName? name = some name → (Resolver.directory disk dir).nameOf? (join dir name) = some name :=
  ⟨fun _ _ => nameUnder?_eq_some_iff, fun _ hplain => nameUnder?_eq_some_iff.mpr ⟨hplain, rfl⟩⟩

/-- A path with several components `.` and slashes below a directory, and the path of its name. -/
theorem nameOf?_directory_dotted :
    let inc := Resolver.directory ({} : Disk) "./inc/."
    inc.nameOf? "inc//./a/./b.proto" = some "a/b.proto" ∧ fileName? "a/b.proto" = some "a/b.proto" ∧
      proper (components "./inc/./a/b.proto") = proper (components "inc//./a/./b.proto") ∧
      inc.nameOf? "./inc/./a/b.proto" = some "a/b.proto" := by
  intro inc
  obtain ⟨hiff, hback⟩ := nameOf?_directory {} "./inc/."
  have hname : (Resolver.directory {} "./inc/.").nameOf? "inc//./a/./b.proto" = some "a/b.proto" := by
    decide +kernel
  have hjoin : join "./inc/." "a/b.proto" = "./inc/./a/b.proto" := by decide +kernel
  obtain ⟨hplain, hproper⟩ := (hiff _ _).mp hname
  have hown := hback _ hplain
  rw [hjoin] at hproper hown
  exact ⟨hname, hplain, hproper, hown⟩

end Path

end ProtoSchema

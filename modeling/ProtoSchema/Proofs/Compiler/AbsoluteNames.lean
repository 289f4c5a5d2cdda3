import ProtoSchema.Proofs.Compiler.Runs
import ProtoSchema.Proofs.Session.Names

/-! # What absolute names denote

An absolute name is looked up in its file and then in the imports of the file.  There it may stand
for a type whose full name begins with a part of the package of the import, just as a relative name
may.  So what it denotes has that name exactly if the file declares it or an import passes it on under
that name (`typeName_of_absolute`), and an import in front may pass on another type instead
(`absolute_name_behind_package`). -/

namespace ProtoSchema.Compiler

/-- In every session, an absolute name in a file denotes a type with that full name, or with that name
behind a front part of the package of an import, not shorter than what the packages of the two files
share.  The full name is the name that is written if and only if the type is found in the file, or
one of its imports passes it on under that name. -/
theorem typeName_of_absolute (resolver : Resolver) {x : Session.State}
    (reached : Session.Steps resolver ({}, []) x) {f : FileId} {s : Scope} {name : DottedName}
    {t : TypeId} (found : x.1.pool.resolve? f s ⟨true, name⟩ = some t) :
    (x.1.pool.typeName t = name ↔ x.1.pool.inFile f name = some t ∨
      ∃ i ∈ (x.1.pool.file f).imports.values, (x.1.pool.file i.file).types.find? name = some t) ∧
    ∃ front, x.1.pool.typeName t = front ++ name ∧ (front = [] ∨
      ∃ i ∈ (x.1.pool.file f).imports.values, front <+: (x.1.pool.file i.file).packageName ∧
        (x.1.pool.file f).packageName.sharedLength (x.1.pool.file i.file).packageName ≤
          front.length) := by
  have hsound := Session.sound_empty.steps reached
  have hnamed := Session.sound_empty.typesNamed Session.typesNamed_empty reached
  have hexact : x.1.pool.inFile f name = some t ∨ (∃ i ∈ (x.1.pool.file f).imports.values,
      (x.1.pool.file i.file).types.find? name = some t) → x.1.pool.typeName t = name := by
    rintro (h | ⟨i, -, h⟩)
    · exact (hsound.tree.of_inFile h).2
    · exact hnamed _ _ _ h
  rcases Option.or_eq_some_iff.mp found with h | ⟨-, h⟩
  · have hname := (hsound.tree.of_inFile h).2
    exact ⟨iff_of_true hname (.inl h), [], hname, .inl rfl⟩
  · obtain ⟨i, hi, front, hname, hfind, hfront⟩ := hnamed.of_inImports h
    refine ⟨⟨fun he => .inr ⟨i, hi, ?_⟩, hexact⟩, front, hname, hfront.imp_right fun hp => ⟨i, hi, hp⟩⟩
    rwa [← hname, he] at hfind

/-- Texts of a file with an absolute name and of its imports; the first import has the text `text`, and
the second declares the message `p.A`. -/
def absoluteTexts (text : String) : List (String × String) :=
  [("a.proto", "package p; import \"x.proto\"; import \"y.proto\"; " ++
      "message M { optional .p.A a = 1; }"),
    ("x.proto", text), ("y.proto", "package p; message A {}")]

/-- A compiler that has opened the file with an absolute name. -/
def absoluteOpened (text : String) : Compiler :=
  after (fresh (.memory (absoluteTexts text))) [.openFile "a.proto"]

theorem steps_absoluteOpened (text : String) : Session.Steps (.memory (absoluteTexts text)) ({}, [])
    ((absoluteOpened text).session, []) :=
  (goes_after [.openFile "a.proto"] (fresh (.memory (absoluteTexts text)))).steps

/-- Nothing in an empty package is in the way of the name. -/
def exactName : Compiler := absoluteOpened "package p;"

/-- A message of the first import has the name of its package. -/
def requalifiedName : Compiler := absoluteOpened "package p; message p { message A {} }"

/-- Where no import in front passes on another type, the name denotes the type of that name. -/
theorem absolute_name_exact :
    exactName.pool.resolve? ⟨0⟩ (.block ⟨1⟩) ⟨true, ["p", "A"]⟩ = some (.message ⟨0⟩) ∧
      (exactName.pool.typeName (.message ⟨0⟩) = ["p", "A"] ↔
        exactName.pool.inFile ⟨0⟩ ["p", "A"] = some (.message ⟨0⟩) ∨
          ∃ i ∈ (exactName.pool.file ⟨0⟩).imports.values,
            (exactName.pool.file i.file).types.find? ["p", "A"] = some (.message ⟨0⟩)) ∧
      exactName.pool.typeName (.message ⟨0⟩) = ["p", "A"] := by
  have hfound : exactName.pool.resolve? ⟨0⟩ (.block ⟨1⟩) ⟨true, ["p", "A"]⟩ =
      some (.message ⟨0⟩) := by decide +kernel
  have hsteps : Session.Steps (.memory (absoluteTexts "package p;")) ({}, [])
      (exactName.session, []) := steps_absoluteOpened "package p;"
  exact ⟨hfound, (typeName_of_absolute _ hsteps hfound).1, by decide +kernel⟩

/-- An import whose package ends in the first segment of the name passes on another type. -/
theorem absolute_name_behind_package :
    requalifiedName.pool.resolve? ⟨0⟩ (.block ⟨3⟩) ⟨true, ["p", "A"]⟩ = some (.message ⟨1⟩) ∧
      requalifiedName.pool.typeName (.message ⟨1⟩) = ["p", "p", "A"] ∧
      requalifiedName.pool.typeName (.message ⟨2⟩) = ["p", "A"] := by
  decide +kernel

end ProtoSchema.Compiler

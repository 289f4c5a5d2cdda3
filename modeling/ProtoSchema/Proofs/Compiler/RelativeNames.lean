import ProtoSchema.Proofs.Compiler.Runs
import ProtoSchema.Proofs.Pool.FlatLookup

/-! # What relative names denote

A relative name is looked up while its file is read, and once more in the sweep at the end of the file.
The pools in which that happens are those of a session (`Session.Meets`): some files are complete, others
are read only in part.  In each of them the lookup finds what a search through the full names of all types
finds (`relative_name_by_full_names`): the name behind the full name of each message around the reference
and behind the package, then the name itself, then the names that imports pass on. -/

namespace ProtoSchema

namespace Session

variable {resolver : Resolver} {x : State} {pool : Pool}

/-- A pool that a session comes to: between two steps, or between two bindings of a sweep. -/
inductive Meets (resolver : Resolver) (x : State) : Pool → Prop
  | reading {y : State} (reached : Steps resolver x y) : Meets resolver x y.1.pool
  | sweeping {s : Session} {rd : Reading} {st : List Reading} {pool : Pool}
      (reached : Steps resolver x (s, rd :: st)) (finished : rd.rest = [])
      (swept : Pool.Swept rd.cursor.file (s.pool.recordTypes rd.cursor.file) pool) :
      Meets resolver x pool

/-- In all pools of a session the tree is well-formed, and files pass types on under their full
names. -/
theorem Sound.meets (hx : Sound x) (hnamed : x.1.pool.TypesNamed) (hm : Meets resolver x pool) :
    pool.WellFormed ∧ pool.TypesNamed := by
  cases hm with
  | reading reached => exact ⟨(hx.steps reached).tree, hx.typesNamed hnamed reached⟩
  | @sweeping s rd st _ reached finished swept =>
    have hs := hx.steps reached
    obtain ⟨hw, htypes, -⟩ := recordTypes_sound hs.tree hs.types rd.cursor.file
    refine ⟨swept.sameTree.wellFormed hw, ?_⟩
    have hrecorded := (hx.typesNamed hnamed reached).recordTypes rd.cursor.file
    exact hrecorded.of_touches htypes (swept.touches hw) fun i => by rw [swept.file_eq]

end Session

namespace Pool

variable {pool : Pool} {s : Scope} {name : DottedName} {t : TypeId}

/-- What a name denotes has that name, maybe behind other segments. -/
theorem TypesNamed.of_byFullName? (hnamed : pool.TypesNamed) (h : pool.byFullName? s name = some t) :
    ∃ front, pool.typeName t = front ++ name := by
  rcases Option.or_eq_some_iff.mp h with h | ⟨-, h⟩
  · obtain ⟨own, hown, hfind⟩ := List.exists_of_findSome?_eq_some h
    rw [(of_ownType? hfind).2.2]
    rcases List.mem_append.mp hown with hown | hown
    · obtain ⟨c, -, rfl⟩ := List.mem_map.mp hown
      exact ⟨_, rfl⟩
    · exact ⟨[], List.mem_singleton.mp hown⟩
  · obtain ⟨i, -, hfind⟩ := List.exists_of_findSome?_eq_some h
    obtain ⟨q, hq, hfind⟩ := List.exists_of_findSome?_eq_some hfind
    rw [hnamed _ _ _ hfind]
    rcases List.mem_cons.mp hq with rfl | hq
    · exact ⟨[], rfl⟩
    · obtain ⟨front, -, rfl⟩ := List.mem_map.mp hq
      exact ⟨front, rfl⟩

end Pool

namespace Compiler

/-- The pool of a compiler is one of those that its session comes to. -/
theorem Goes.meets {c c' : Compiler} (h : Goes c c') :
    Session.Meets c.resolver (c.session, []) c'.pool :=
  .reading h.steps

/-- In every pool of a session, a relative name in a scope of a file denotes what the full names of the
types say: the type of the file that is called by the name behind the full name of a message around the
scope or behind the package, from the innermost one on; else the type of the file with just that name;
else what the imports pass on under that name or behind a front part of their package.  A full name is
that of one type of the file at most, and what is found is called by the name or by a longer one that
ends in it behind a dot. -/
theorem relative_name_by_full_names (resolver : Resolver) {pool : Pool}
    (met : Session.Meets resolver ({}, []) pool) {s : Scope} (there : pool.InRange s)
    {name : DottedName} (written : name ≠ []) :
    pool.resolve? (pool.scopeFile s) s ⟨false, name⟩ = pool.byFullName? s name ∧
      (∀ own t, pool.ownType? (pool.scopeFile s) own = some t ↔
        pool.HasType t ∧ pool.typeFile t = pool.scopeFile s ∧ pool.typeName t = own) ∧
      ∀ t, pool.resolve? (pool.scopeFile s) s ⟨false, name⟩ = some t →
        (pool.typeName t).text = name.text ∨
          ∃ front, (pool.typeName t).text = front ++ "." ++ name.text := by
  obtain ⟨hw, hnamed⟩ := Session.sound_empty.meets Session.typesNamed_empty met
  have hflat := hw.resolve?_relative there written
  refine ⟨hflat, fun own t => hw.ownType?_eq_some_iff, fun t ht => ?_⟩
  obtain ⟨front, hfront⟩ := hnamed.of_byFullName? (hflat.symm.trans ht)
  rw [hfront]
  by_cases hnil : front = []
  · exact .inl (congrArg DottedName.text (by rw [hnil, List.nil_append]))
  · exact .inr ⟨DottedName.text front, String.intercalate_append_of_ne_nil hnil written⟩

/-- A file with an extend block in a message, and the file whose message is extended. -/
def nestedTexts : List (String × String) :=
  [("a.proto", "package p.q; import \"x.proto\"; " ++
      "message M { message N {} extend X { optional N n = 100; } }"),
    ("x.proto", "package p.r; message X { extensions 100 to 200; message N {} }")]

/-- A compiler that has opened both files. -/
def nestedOpened : Compiler := after (fresh (.memory nestedTexts)) [.openFile "a.proto"]

/-- The extend block, its file, and what two names denote there. -/
theorem nestedOpened_names :
    (4 < nestedOpened.pool.blocks.size ∧ nestedOpened.pool.scopeFile (.block ⟨4⟩) = ⟨0⟩) ∧
      nestedOpened.pool.resolve? ⟨0⟩ (.block ⟨4⟩) ⟨false, ["N"]⟩ = some (.message ⟨3⟩) ∧
      nestedOpened.pool.byFullName? (.block ⟨4⟩) ["r", "X", "N"] = some (.message ⟨1⟩) ∧
      (nestedOpened.pool.typeName (.message ⟨1⟩)).text = "p.r.X.N" := by
  decide +kernel

/-- In an extend block, a name of the message around it and a name of an import. -/
theorem relative_names_in_extend :
    nestedOpened.pool.byFullName? (.block ⟨4⟩) ["N"] = some (.message ⟨3⟩) ∧
      nestedOpened.pool.byFullName? (.block ⟨4⟩) ["r", "X", "N"] = some (.message ⟨1⟩) ∧
      (nestedOpened.pool.typeName (.message ⟨1⟩)).text = "p.r.X.N" := by
  have hmet : Session.Meets (.memory nestedTexts) ({}, []) nestedOpened.pool :=
    (goes_after [.openFile "a.proto"] (fresh (.memory nestedTexts))).meets
  obtain ⟨⟨hthere, hfile⟩, hfound, hnames⟩ := nestedOpened_names
  have hflat := (relative_name_by_full_names _ hmet (s := .block ⟨4⟩) hthere
    (List.cons_ne_nil "N" [])).1
  rw [hfile] at hflat
  exact ⟨hflat.symm.trans hfound, hnames⟩

end Compiler

end ProtoSchema

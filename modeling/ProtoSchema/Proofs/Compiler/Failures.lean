import ProtoSchema.Proofs.Compiler.Openings
import ProtoSchema.Proofs.Session.Atomicity

/-! # Opens that fail

A path that cannot be opened leaves behind the imports that were complete, and declarations that no
registered file reaches.  All that was there before is as it was, and the path cannot be opened again:
it fails with the same error (`openFile_atomic`). -/

namespace ProtoSchema

namespace Session

/-- A session is a twin of itself. -/
theorem Twin.refl {x : Session} (hx : Regular (x, [])) : Twin x .id x :=
  ⟨hx, fun _ g hg => ⟨g, hg, rfl, .refl g x.pool⟩⟩

theorem loadOpened_eq {r : Resolver} {name : String} {file : SourceFile} {s : Session}
    (free : s.registry.find? name = none) (opened : r.openFile name = .ok file) :
    loadOpened r name file s = loadUpTo r (importLimit r + 1) [] name s := by
  rw [loadUpTo_succ r _ _ free, if_neg List.not_mem_nil, opened]
  rfl

end Session

namespace Compiler

variable {c c' : Compiler} {path name : String} {e : Error}

/-- What is so when a path could not be opened. -/
structure FailsAtomically (path : String) (e : Error) (c c' : Compiler) : Prop where
  /-- Files that were registered still are, in front of those that are new. -/
  registry : c.session.registry.entries <+: c'.session.registry.entries
  /-- Nothing that was declared has changed. -/
  preserves : c.pool.Preserves c'.pool
  roots : c'.roots = c.roots
  resolver : c'.resolver = c.resolver
  /-- The file that fails is not registered. -/
  failing : ∀ name, nameOf c.resolver path = .ok name → c.file? name = none → c'.file? name = none
  /-- What is new in the registry was read to its end, passed its checks, and passes them again. -/
  complete : ∀ name f, c.file? name = none → c'.file? name = some f →
    Session.Completed c.resolver c'.session name f ∧ Pool.checkFile f c'.pool = .ok () c'.pool
  /-- What is new in the registry is imported by the file that fails. -/
  imported : ∀ name f, c.file? name = none → c'.file? name = some f →
    ∃ opened, nameOf c.resolver path = .ok opened ∧
      Relation.TransGen c.resolver.Imports opened name
  /-- The path fails with the same error again. -/
  again : ∃ c'', openFile path c' = .error e c''

theorem failsAtomically_refl (h : openFile path c = .error e c) : FailsAtomically path e c c where
  registry := List.prefix_refl _
  preserves := .refl _
  roots := rfl
  resolver := rfl
  failing _ _ hnone := hnone
  complete _ _ hnone hsome := absurd hsome (by rw [hnone]; exact nofun)
  imported _ _ hnone hsome := absurd hsome (by rw [hnone]; exact nofun)
  again := ⟨c, h⟩

/-- A file whose text was opened and that is not loaded. -/
theorem failsAtomically_of_loadOpened (hc : Lawful c) (hfilled : Session.Filled (c.session, []))
    (named : nameOf c.resolver path = .ok name) (free : c.session.registry.find? name = none)
    {file : SourceFile} (opened : openText c.resolver path name = .ok file) {x : Session}
    (failed : Session.loadOpened c.resolver name file c.session = .error e x) :
    FailsAtomically path e c { c with session := x } := by
  have hopen := openText_eq_ok opened
  rw [Session.loadOpened_eq free hopen] at failed
  have hsteps : Session.Steps c.resolver (c.session, []) (x, []) := by
    have := Session.steps_loadUpTo (r := c.resolver) (Session.importLimit c.resolver + 1) [] name
      c.session hc.regular.sound.distinct
    rw [show (([] : List Session.Reading).map Session.Reading.name).reverse = [] from rfl, failed] at this
    exact this
  have hadds : Session.Adds c.resolver name c.session x := by
    have := Session.adds_loadUpTo (r := c.resolver) (Session.importLimit c.resolver + 1) [] name
      c.session
    rw [failed] at this
    exact this
  have hfails : Session.Fails c.resolver x _ [] name e :=
    Session.failsSoundly c.resolver _ hc.regular hc.history failed
  have hx : Lawful { c with session := x } := hc.goes ⟨rfl, hsteps⟩
  have hbeyond := Session.Beyond.steps hc.regular.sound hsteps
  refine ⟨hbeyond.registry, hbeyond.preserves, rfl, rfl, fun name' hn _ => ?_,
    fun name' f hnone hsome => ?_, fun name' f hnone hsome => ?_, ?_⟩
  · cases named.symm.trans hn
    exact hfails.free
  · refine ⟨hx.history.registered name' f hsome, ?_⟩
    have hpasses := Session.passes_of_registered (f := f) hx.regular.numbered
      (hfilled.steps hc.regular.sound hsteps) ⟨name', hsome⟩
    exact hpasses.checkFile hx.regular.sound.tree (hx.regular.sound.hasFile ⟨name', hsome⟩)
  · refine ⟨name, named, ?_⟩
    have hreach := hadds name' hnone fun h => Option.some_ne_none _ (hsome.symm.trans h)
    rcases Relation.reflTransGen_iff_eq_or_transGen.mp hreach with rfl | hreach
    · cases hsome.symm.trans hfails.free
    · exact hreach
  · have hnames : Session.names [] = [] := rfl
    obtain ⟨t, ht⟩ := hfails.again hx.regular hnames (.refl hx.regular) hx.regular fun _ => .rfl
    have hagain : Session.loadOpened c.resolver name file x = .error e t :=
      (Session.loadOpened_eq hfails.free hopen).trans ht
    refine ⟨{ c with session := t }, ?_⟩
    rw [openFile_eq]
    simp only [named]
    rw [loadAt_of_free (c := { c with session := x }) hfails.free]
    simp only [opened, hagain]

/-- After any calls, a path that cannot be opened changes nothing that was there.  The files that it
adds to the registry are complete imports, and it cannot be opened again for the same reason. -/
theorem openFile_atomic (resolver : Resolver) (calls : List Call) (path : String) (e : Error)
    (c' : Compiler) (failed : openFile path (after (fresh resolver) calls) = .error e c') :
    FailsAtomically path e (after (fresh resolver) calls) c' := by
  have hc := lawful_after resolver calls
  have hfilled : Session.Filled ((after (fresh resolver) calls).session, []) :=
    Session.filled_empty.steps Session.sound_empty (goes_after calls (fresh resolver)).steps
  generalize after (fresh resolver) calls = c at *
  have hrun := failed
  rw [openFile_eq] at hrun
  cases named : nameOf c.resolver path with
  | error e' =>
    simp only [named] at hrun
    cases hrun
    exact failsAtomically_refl failed
  | ok name =>
    simp only [named] at hrun
    cases free : c.session.registry.find? name with
    | some f =>
      rw [loadAt_of_registered free] at hrun
      cases hshadow : checkShadow name (c.pool.file f).path path with
      | ok u =>
        simp only [hshadow] at hrun
        cases hrun
      | error e' =>
        simp only [hshadow] at hrun
        cases hrun
        exact failsAtomically_refl failed
    | none =>
      rw [loadAt_of_free free] at hrun
      cases opened : openText c.resolver path name with
      | error e' =>
        simp only [opened] at hrun
        cases hrun
        exact failsAtomically_refl failed
      | ok file =>
        simp only [opened] at hrun
        cases hload : Session.loadOpened c.resolver name file c.session with
        | ok id x =>
          simp only [hload] at hrun
          cases hrun
        | error e' x =>
          simp only [hload] at hrun
          cases hrun
          exact failsAtomically_of_loadOpened hc hfilled named free opened hload

/-! ### A file with a complete import -/

/-- The text of a file that names a type which is not there. -/
def faultyText : String :=
  "import \"good.proto\"; extend Good { optional int32 x = 1; } message Bad { optional Missing m = 1; }"

/-- A file that has a fault behind an import, and another one. -/
def faulty : Resolver := .memory [("bad.proto", faultyText),
  ("good.proto", "message Good { extensions 1 to 9; }"), ("other.proto", "message Other {}")]

/-- A compiler that has opened the other file. -/
def beforeFault : Compiler := after (fresh faulty) [.openFile "other.proto"]

/-- The import stays registered, the file with the fault does not get registered. -/
theorem openFile_atomic_faulty :
    let error := Error.source (.typeNotFound "Missing" "m" "bad.proto" ⟨82, 89⟩) "bad.proto" faultyText
    let failed := stateOf (openFile "bad.proto" beforeFault)
    openFile "bad.proto" beforeFault = .error error failed ∧
      failed.session.registry.keys = ["other.proto", "good.proto"] ∧
      FailsAtomically "bad.proto" error beforeFault failed := by
  intro error failed
  have hfailed : openFile "bad.proto" beforeFault = .error error failed :=
    eq_error_of_errorOf? (by decide +kernel)
  exact ⟨hfailed, by decide +kernel, openFile_atomic faulty [.openFile "other.proto"] _ _ _ hfailed⟩

end Compiler

end ProtoSchema

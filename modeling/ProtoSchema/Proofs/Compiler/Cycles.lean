import ProtoSchema.Proofs.Compiler.Diagnostics
import ProtoSchema.Proofs.Compiler.Registry
import ProtoSchema.Proofs.Compiler.Termination

/-! # Cycles of imports

Files that are read within each other form a chain: each of them imports the next one, and no two of them
have the same name (`Session.Task.Follows`).  So a name that is loaded while it is being read closes a
cycle, and the names that the error lists are those of the files on it (`Session.Runs.cycle_of_error`).  A
file that was opened, on the other hand, stands in the registry behind all files that it imports, directly
or through others, and leads to no cycle (`openFile_cycle`). -/

namespace ProtoSchema

/-- The files with the names `cycle` import each other in turn, and the last name is the first one again.
No other name occurs twice. -/
structure Resolver.Cycle (r : Resolver) (name : String) (cycle : List String) : Prop where
  long : 2 ≤ cycle.length
  first : cycle.head? = some name
  last : cycle.getLast? = some name
  distinct : cycle.dropLast.Nodup
  imported : cycle.IsChain r.Imports

namespace Resolver

/-- A resolver over texts in memory knows of no imports. -/
theorem ne_circularImport_memory (files : List (String × String)) (n name : String) (cycle : List String) :
    (memory files).openFile n ≠ .error (.circularImport name cycle) := by
  intro h
  rcases error_of_memory h with h | h <;> cases h

/-- Nor does a search in include directories. -/
theorem ne_circularImport_directories (disk : Disk) (dirs : List String) (n name : String) (cycle : List String) :
    (directories disk dirs).openFile n ≠ .error (.circularImport name cycle) := by
  intro h
  rcases error_of_openFirst h with h | ⟨r, hr, h⟩
  · cases h
  · obtain ⟨dir, -, rfl⟩ := List.mem_map.mp hr
    rcases error_of_directory h with h | h | h | ⟨path, cause, h⟩ <;> cases h

end Resolver

namespace Session

variable {r : Resolver} {reading names : List String} {name : String} {s : Session} {task : Task}
  {result : Outcome FileId}

/-- The files `reading` import each other in turn, and the last of them leads to the task. -/
def Task.Follows (r : Resolver) (reading : List String) : Task → Prop
  | .load name => reading.Nodup ∧ (reading ++ [name]).IsChain r.Imports
  | .read name file => reading.Nodup ∧ (reading ++ [name]).IsChain r.Imports ∧ r.openFile name = .ok file
  | .apply name _ _ es => reading.Nodup ∧ reading.IsChain r.Imports ∧ reading.getLast? = some name ∧
      ∀ kind target, .importFile kind target ∈ es → r.Imports name target.value

/-- A file among those that are being read closes a cycle. -/
theorem cycle_of_mem (hnodup : reading.Nodup) (hchain : (reading ++ [name]).IsChain r.Imports)
    (cyclic : name ∈ reading) : r.Cycle name (reading.dropWhile (· ≠ name) ++ [name]) := by
  have hne : reading.dropWhile (· ≠ name) ≠ [] := by
    intro hnil
    have := List.dropWhile_eq_nil_iff.mp hnil name cyclic
    simp at this
  obtain ⟨first, others, hcycle⟩ := List.exists_cons_of_ne_nil hne
  have hfirst : first = name := by
    have := List.head?_dropWhile_not (· ≠ name) reading
    rw [hcycle] at this
    simpa using this
  subst hfirst
  obtain ⟨front, hfront⟩ := List.dropWhile_suffix (l := reading) (· ≠ first)
  rw [hcycle] at hfront ⊢
  refine ⟨by simp, rfl, List.getLast?_concat, ?_, ?_⟩
  · rw [List.dropLast_concat]
    exact hnodup.sublist (hfront ▸ List.sublist_append_right front _)
  · rw [← hfront, List.append_assoc] at hchain
    exact (List.isChain_append.mp hchain).2.1

theorem follows_begin {file : SourceFile} {es : List Event} {fault? : Option Fault} {c : Cursor}
    (h : (Task.read name file).Follows r reading) (fresh : name ∉ reading)
    (text : Event.TakesText file.text (es, fault?)) :
    (Task.apply name file.text c es).Follows r (reading ++ [name]) := by
  obtain ⟨hnodup, hchain, opened⟩ := h
  refine ⟨?_, hchain, by simp, fun kind target hi => ?_⟩
  · exact List.nodup_append.mpr ⟨hnodup, List.nodup_singleton _, fun a ha b hb => by
      rintro rfl
      exact fresh (List.mem_singleton.mp hb ▸ ha)⟩
  · have hes : es = (Event.ofText file.text).1 := congrArg Prod.fst (Event.takesText_iff.mp text).symm
    exact ⟨file, kind, target, opened, hes ▸ hi, rfl⟩

/-- What is imported next belongs to the chain. -/
theorem follows_load {text : String} {c : Cursor} {kind : ImportKind} {target : Located String}
    {es : List Event} (h : (Task.apply name text c (.importFile kind target :: es)).Follows r reading) :
    (Task.load target.value).Follows r reading := by
  obtain ⟨hnodup, hchain, hlast, himports⟩ := h
  refine ⟨hnodup, List.isChain_append.mpr ⟨hchain, List.isChain_singleton _, ?_⟩⟩
  intro n hn m hm
  obtain rfl := Option.some.inj (hlast.symm.trans hn)
  obtain rfl := Option.some.inj hm
  exact himports kind target (List.mem_cons_self ..)

theorem Task.Follows.tail {text : String} {c c' : Cursor} {e : Event} {es : List Event}
    (h : (Task.apply name text c (e :: es)).Follows r reading) : (Task.apply name text c' es).Follows r reading :=
  ⟨h.1, h.2.1, h.2.2.1, fun kind target hi => h.2.2.2 kind target (List.mem_cons_of_mem _ hi)⟩

/-- A run that ends in an error for a cyclic import has come to a cycle, unless the resolver has handed
out the error. -/
theorem Runs.cycle_of_error (h : Runs r reading task s result names) (hfollows : task.Follows r reading)
    {n : String} {cycle : List String} {s' : Session} (hresult : result = .error (.circularImport n cycle) s')
    (own : ∀ m, r.openFile m ≠ .error (.circularImport n cycle)) : r.Cycle n cycle := by
  induction h with
  | registered | done => cases hresult
  | fault => cases hresult
  | cycle free cyclic =>
    cases hresult
    exact cycle_of_mem hfollows.1 hfollows.2 cyclic
  | unopened free fresh unopened =>
    cases hresult
    exact absurd unopened (own _)
  | opened opened run ih => exact ih ⟨hfollows.1, hfollows.2, opened⟩ hresult
  | failed free fresh text events ih =>
    cases hresult
    exact ih (follows_begin hfollows fresh text) rfl
  | @finished reading name file s es fault? id s' names free fresh text events ih =>
    -- the end of a file is no import
    unfold finishFile at hresult
    split at hresult
    · cases hresult
    · split at hresult <;> cases hresult
  | event noImport applied more ih => exact ih hfollows.tail hresult
  | @unloaded reading name text kind target es c s e s' names load ih =>
    obtain ⟨he, rfl⟩ := EStateM.Result.error.inj hresult
    refine ih (follows_load hfollows) (congrArg (EStateM.Result.error · s') ?_)
    by_cases hmissing : ∃ missing, e = .fileNotFound missing
    · obtain ⟨missing, rfl⟩ := hmissing
      cases he
    · exact (importError_eq name text target fun missing h => hmissing ⟨missing, h⟩).symm.trans he
  | importFile load more ih ih' => exact ih' hfollows.tail hresult

end Session

namespace Compiler

variable {c : Compiler} {path name n : String} {f : FileId}

/-! ### No cycle behind a registered file -/

/-- What a registered file imports is registered in front of it. -/
theorem Lawful.imports (hc : Lawful c) (hf : c.file? name = some f) (hi : c.resolver.Imports name n) :
    ∃ g, c.file? n = some g ∧ c.Imports f g := by
  obtain ⟨file, kind, target, opened, hmem, rfl⟩ := hi
  obtain ⟨i, hi⟩ := (hc.history.registered name f hf).imports opened hmem
  exact ⟨i.file, (registrySound hc.regular.sound).imported name f target.value i hf hi,
    ⟨name, hf⟩, target.value, i, hi, rfl⟩

theorem Lawful.registered_of_imports (hc : Lawful c) (hf : c.file? name = some f)
    (hi : Relation.ReflTransGen c.resolver.Imports name n) : ∃ g, c.file? n = some g := by
  induction hi with
  | refl => exact ⟨f, hf⟩
  | tail _ hi ih =>
    obtain ⟨g, hg⟩ := ih
    obtain ⟨g', hg', -⟩ := hc.imports hg hi
    exact ⟨g', hg'⟩

theorem Lawful.transGen_imports (hc : Lawful c) (hf : c.file? name = some f)
    (hi : Relation.TransGen c.resolver.Imports name n) :
    ∃ g, c.file? n = some g ∧ Relation.TransGen c.Imports f g := by
  induction hi with
  | single hi =>
    obtain ⟨g, hg, himports⟩ := hc.imports hf hi
    exact ⟨g, hg, .single himports⟩
  | tail _ hi ih =>
    obtain ⟨g, hg, hpath⟩ := ih
    obtain ⟨g', hg', himports⟩ := hc.imports hg hi
    exact ⟨g', hg', hpath.tail himports⟩

/-- No cycle of imports is reached from a registered file. -/
theorem Lawful.acyclic (hc : Lawful c) (hf : c.file? name = some f)
    (hi : Relation.ReflTransGen c.resolver.Imports name n) : ¬Relation.TransGen c.resolver.Imports n n := by
  intro hcycle
  obtain ⟨g, hg⟩ := hc.registered_of_imports hf hi
  obtain ⟨g', hg', hpath⟩ := hc.transGen_imports hg hcycle
  obtain rfl := Option.some.inj (hg.symm.trans hg')
  exact (registrySound hc.regular.sound).acyclic g hpath

/-! ### Cycles that are reported -/

/-- An error for a cyclic import that ends the opening of a path is about a cycle, unless the resolver has
handed it out. -/
theorem Opens.cycle_of_error {result : EStateM.Result Error Compiler Unit} {names : List String}
    (h : Opens c path result names) {cycle : List String} {c' : Compiler}
    (hresult : result = .error (.circularImport n cycle) c')
    (own : ∀ m, c.resolver.openFile m ≠ .error (.circularImport n cycle)) : c.resolver.Cycle n cycle := by
  cases h with
  | registered | opened => cases hresult
  | unnamed unnamed =>
    cases hresult
    cases error_of_nameOf unnamed
  | shadowed named found shadowed =>
    cases hresult
    obtain ⟨shadow, he⟩ := error_of_checkShadow shadowed
    cases he
  | unopened named free unopened =>
    cases hresult
    rcases error_of_openText unopened with h | h | ⟨shadow, h⟩
    · exact absurd h (own _)
    · cases h
    · cases h
  | failed named opened run =>
    cases hresult
    exact run.cycle_of_error ⟨List.nodup_nil, List.isChain_singleton _, openText_eq_ok opened⟩ rfl own

/-- After any calls: an error for a cyclic import that ends the opening of a path lists files that import
each other in turn, from the file that the error names to that file again, unless the resolver has handed
the error out itself.  And if the path is opened, no file on a cycle of imports is reached from the file
there. -/
theorem openFile_cycle (resolver : Resolver) (calls : List Call) (path : String) :
    (∀ name cycle c', openFile path (after (fresh resolver) calls) = .error (.circularImport name cycle) c' →
      (∀ n, resolver.openFile n ≠ .error (.circularImport name cycle)) →
      resolver.Cycle name cycle ∧ (Error.circularImport name cycle).message =
        "import cycle detected: " ++ " -> ".intercalate cycle) ∧
    ∀ c', openFile path (after (fresh resolver) calls) = .ok () c' →
      ∃ name, nameOf resolver path = .ok name ∧
        ∀ n, Relation.ReflTransGen resolver.Imports name n → ¬Relation.TransGen resolver.Imports n n := by
  have hc := lawful_after resolver calls
  have hresolver : (after (fresh resolver) calls).resolver = resolver := (goes_after calls _).resolver
  generalize after (fresh resolver) calls = c at *
  subst hresolver
  refine ⟨fun name cycle c' failed own => ?_, fun c' opened => ?_⟩
  · obtain ⟨names, hopens⟩ := opens_iff.mpr failed
    exact ⟨hopens.cycle_of_error rfl own, rfl⟩
  · have hgoes : Goes c c' := by
      have hends := openFile_ends path c
      rwa [opened] at hends
    obtain ⟨name, f, hleads, -⟩ := leads_of_openFile hc opened
    refine ⟨name, hgoes.resolver ▸ hleads.named, fun n hn => ?_⟩
    rw [← hgoes.resolver] at hn ⊢
    exact (hc.goes hgoes).acyclic hleads.registered hn

/-- Two files that import each other, behind a file that imports neither and one that is not on the cycle. -/
def importingInACircle : Resolver :=
  .memory [("a.proto", "import \"d.proto\"; import \"b.proto\";"), ("b.proto", "import \"c.proto\";"),
    ("c.proto", "import \"d.proto\"; import \"b.proto\";"), ("d.proto", "")]

/-- Only the files on the cycle are listed, and the file that is complete can be opened. -/
theorem openFile_cycle_importingInACircle :
    errorOf? (openFile "a.proto" (fresh importingInACircle)) =
        some (.circularImport "b.proto" ["b.proto", "c.proto", "b.proto"]) ∧
      importingInACircle.Cycle "b.proto" ["b.proto", "c.proto", "b.proto"] ∧
      ∃ c', openFile "d.proto" (after (fresh importingInACircle) [.openFile "a.proto"]) = .ok () c' ∧
        ∀ n, Relation.ReflTransGen importingInACircle.Imports "d.proto" n →
          ¬Relation.TransGen importingInACircle.Imports n n := by
  have hfailed : errorOf? (openFile "a.proto" (fresh importingInACircle)) =
      some (.circularImport "b.proto" ["b.proto", "c.proto", "b.proto"]) := by
    decide +kernel
  have hopened : errorOf? (openFile "d.proto" (after (fresh importingInACircle) [.openFile "a.proto"])) =
      none := by
    decide +kernel
  have own n name cycle : importingInACircle.openFile n ≠ .error (.circularImport name cycle) :=
    Resolver.ne_circularImport_memory _ n name cycle
  obtain ⟨name, named, hacyclic⟩ := (openFile_cycle importingInACircle [.openFile "a.proto"] "d.proto").2 _
    (eq_ok_of_errorOf? hopened)
  cases named
  have hcycle := (openFile_cycle importingInACircle [] "a.proto").1 _ _ _ (eq_error_of_errorOf? hfailed)
    fun n => own n _ _
  exact ⟨hfailed, hcycle.1, _, eq_ok_of_errorOf? hopened, hacyclic⟩

end Compiler

end ProtoSchema

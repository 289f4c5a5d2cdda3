import ProtoSchema.Compiler
import ProtoSchema.Proofs.Session.Soundness

/-! # Calls of a compiler

A compiler is used by calls in any order; a call that fails leaves behind what it did.  Each call
takes the session through some steps with nothing left to read (`steps_run`), so the invariant of
sessions holds after every sequence of calls (`sound_after`). -/

namespace ProtoSchema.Compiler

/-- What a compiler can be asked to do. -/
inductive Call where
  | openFile (path : String)
  | openFiles (paths : List String)
  | includeImports (yes : Bool)
deriving DecidableEq, Repr

/-- The state behind a run, whether it ends in an error or not. -/
def stateOf {ε σ α : Type} : EStateM.Result ε σ α → σ
  | .ok _ s | .error _ s => s

theorem eq_error_of_errorOf? {ε σ α : Type} {e : ε} {result : EStateM.Result ε σ α}
    (h : errorOf? result = some e) : result = .error e (stateOf result) := by
  cases result with
  | ok _ _ => cases h
  | error _ _ =>
    cases h
    rfl

theorem eq_ok_of_errorOf? {ε σ : Type} {result : EStateM.Result ε σ Unit}
    (h : errorOf? result = none) : result = .ok () (stateOf result) := by
  cases result with
  | ok _ _ => rfl
  | error _ _ => cases h

namespace Call

/-- The compiler after a call. -/
def run (c : Compiler) : Call → Compiler
  | .openFile path => stateOf (Compiler.openFile path c)
  | .openFiles paths => stateOf (Compiler.openFiles paths c)
  | .includeImports yes => { c with includeImports := yes }

end Call

/-- The compiler after some calls. -/
def after (c : Compiler) (calls : List Call) : Compiler := calls.foldl Call.run c

/-- A compiler that has read nothing. -/
def fresh (resolver : Resolver) : Compiler := { resolver }

/-! ### Calls go by steps -/

/-- A compiler with the resolver of another one, whose session went on. -/
structure Goes (c c' : Compiler) : Prop where
  resolver : c'.resolver = c.resolver
  steps : Session.Steps c.resolver (c.session, []) (c'.session, [])

theorem Goes.refl (c : Compiler) : Goes c c := ⟨rfl, .refl⟩

theorem Goes.trans {a b c : Compiler} (h : Goes a b) (h' : Goes b c) : Goes a c :=
  ⟨h'.resolver.trans h.resolver, h.steps.trans (h.resolver ▸ h'.steps)⟩

theorem goes_addRoot (c : Compiler) (id : FileId) : Goes c (c.addRoot id) := by
  unfold addRoot
  split
  · exact .refl c
  · exact ⟨rfl, .refl⟩

theorem openText_eq_ok {resolver : Resolver} {path name : String} {file : SourceFile}
    (h : openText resolver path name = .ok file) : resolver.openFile name = .ok file := by
  unfold openText at h
  split at h
  · cases h
  · next file' hf =>
    cases hs : checkShadow name file'.path path with
    | error e =>
      rw [hs] at h
      cases h
    | ok u =>
      rw [hs] at h
      cases h
      exact hf

theorem onSession_ends {α : Type} {step : SessionM α} {c : Compiler} {φ : α → Session → Prop}
    (h : Ends (step c.session)
      (fun a s' => Session.Steps c.resolver (c.session, []) (s', []) ∧ φ a s')
      (fun s' => Session.Steps c.resolver (c.session, []) (s', []))) :
    Ends (onSession step c) (fun a c' => Goes c c' ∧ φ a c'.session) (Goes c) := by
  simp only [onSession, bind, EStateM.bind, get_apply]
  cases hs : step c.session with
  | ok a s' =>
    rw [hs] at h
    exact ⟨⟨rfl, h.1⟩, h.2⟩
  | error e s' =>
    rw [hs] at h
    exact ⟨rfl, h⟩

theorem loadAt_ends (path name : String) (c : Compiler) :
    Ends (loadAt path name c)
      (fun id c' => Goes c c' ∧ c'.session.registry.find? name = some id) (Goes c) := by
  simp only [loadAt, bind, EStateM.bind, get_apply]
  cases hreg : c.session.registry.find? name with
  | some id =>
    cases hs : checkShadow name (c.session.pool.file id).path path with
    | error e =>
      simp only [hs]
      exact .refl c
    | ok u =>
      simp only [hs]
      exact ⟨.refl c, hreg⟩
  | none =>
    cases ho : openText c.resolver path name with
    | error e =>
      dsimp only
      exact .refl c
    | ok file =>
      dsimp only
      exact onSession_ends (Session.steps_loadOpened hreg (openText_eq_ok ho))

theorem openFile_ends (path : String) (c : Compiler) :
    Ends (openFile path c) (fun _ c' => Goes c c') (Goes c) := by
  simp only [openFile, bind, EStateM.bind, get_apply]
  cases hn : nameOf c.resolver path with
  | error e =>
    dsimp only
    exact .refl c
  | ok name =>
    dsimp only
    refine Ends.bind ((loadAt_ends path name c).mono ?_ fun _ h => h)
    rintro id c' ⟨h, -⟩
    exact h.trans (goes_addRoot c' id)

theorem openFiles_ends (paths : List String) (c : Compiler) :
    Ends (openFiles paths c) (fun _ c' => Goes c c') (Goes c) := by
  refine Ends.forM (p := fun _ c' => Goes c c') paths (fun path _ _ c' h => ?_) [] c (.refl c)
  exact (openFile_ends path c').mono (fun _ _ h' => h.trans h') fun _ h' => h.trans h'

theorem goes_of_ends {α : Type} {c : Compiler} {result : EStateM.Result Error Compiler α}
    (h : Ends result (fun _ c' => Goes c c') (Goes c)) : Goes c (stateOf result) := by
  cases result with
  | ok a c' => exact h
  | error e c' => exact h

theorem Call.goes (c : Compiler) (call : Call) : Goes c (call.run c) := by
  cases call with
  | openFile path => exact goes_of_ends (openFile_ends path c)
  | openFiles paths => exact goes_of_ends (openFiles_ends paths c)
  | includeImports yes => exact ⟨rfl, .refl⟩

theorem goes_after (calls : List Call) : ∀ c, Goes c (after c calls) := by
  induction calls with
  | nil => exact fun c => .refl c
  | cons call calls ih => exact fun c => (call.goes c).trans (ih (call.run c))

theorem after_append (c : Compiler) (calls more : List Call) :
    after c (calls ++ more) = after (after c calls) more :=
  List.foldl_append ..

/-- The invariant of sessions holds after every sequence of calls. -/
theorem sound_after (resolver : Resolver) (calls : List Call) :
    Session.Sound ((after (fresh resolver) calls).session, []) :=
  Session.sound_empty.steps (goes_after calls (fresh resolver)).steps

end ProtoSchema.Compiler

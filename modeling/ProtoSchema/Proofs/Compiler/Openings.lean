import ProtoSchema.Proofs.Compiler.Runs
import ProtoSchema.Proofs.Session.Depth

/-! # Files that were opened

In every session of a compiler it is known how each file was read (`Lawful`).  A path that was opened
leads to a registered file (`Leads`), at which it will lead in all later sessions.  And where another
compiler has read some of the files of a first one, all paths that lead to a file of the first one can
be opened, and then it has read these files as well (`openFile_again`). -/

namespace ProtoSchema

namespace Session

variable {r : Resolver} {x t : Session} {ρ : Renaming} {f : FileId} {name : String}

/-- A file that was completed has the path that the resolver gives. -/
theorem Completed.path (h : Completed r x name f) :
    ∃ file, r.openFile name = .ok file ∧ (x.pool.file f).path = file.path := by
  cases h with
  | @intro s rd pool traced regular finished noFault checked later =>
    obtain ⟨file, opened, -, hpath⟩ := traced.opened
    refine ⟨file, opened, ?_⟩
    rw [later.kept.file, ← hpath]
    show (pool.file rd.cursor.file).path = _
    rw [(regular.sound.checked checked).1.file_eq, Pool.recordTypes, Pool.file_modifyFile]
    split <;> rfl

/-- Nothing is registered yet, so all that is matches. -/
theorem twin_empty (x : Session) (ρ : Renaming) : Twin x ρ {} :=
  ⟨regular_empty, fun name g hg => by cases hg⟩

end Session

namespace Compiler

variable {c c' d : Compiler} {path name : String} {f : FileId} {ρ : Renaming}

/-! ### Steps of a compiler -/

theorem loadAt_of_registered (h : c.session.registry.find? name = some f) :
    loadAt path name c =
      match checkShadow name (c.pool.file f).path path with
      | .error e => .error e c
      | .ok () => .ok f c := by
  simp only [loadAt, bind, EStateM.bind, get_apply, h, pool]
  cases checkShadow name (c.session.pool.file f).path path <;> rfl

theorem loadAt_of_free (h : c.session.registry.find? name = none) :
    loadAt path name c =
      match openText c.resolver path name with
      | .error e => .error e c
      | .ok file =>
        match Session.loadOpened c.resolver name file c.session with
        | .error e session => .error e { c with session }
        | .ok id session => .ok id { c with session } := by
  simp only [loadAt, bind, EStateM.bind, get_apply, h]
  cases openText c.resolver path name with
  | error e => rfl
  | ok file =>
    simp only [onSession, bind, EStateM.bind, get_apply]
    cases Session.loadOpened c.resolver name file c.session <;> rfl

theorem openFile_eq (path : String) (c : Compiler) :
    openFile path c =
      match nameOf c.resolver path with
      | .error e => .error e c
      | .ok name =>
        match loadAt path name c with
        | .error e c' => .error e c'
        | .ok id c' => .ok () (c'.addRoot id) := by
  simp only [openFile, bind, EStateM.bind, get_apply]
  cases nameOf c.resolver path with
  | error e => rfl
  | ok name =>
    dsimp only
    cases hload : loadAt path name c with
    | ok id c' => exact bind_of_ok hload _
    | error e c' => exact bind_of_error hload _

theorem openText_eq (resolver : Resolver) (path name : String) :
    openText resolver path name =
      match resolver.openFile name with
      | .error e => .error (if e.isFileNotFound then .fileNotIncluded path else e)
      | .ok file =>
        match checkShadow name file.path path with
        | .error e => .error e
        | .ok () => .ok file := by
  unfold openText
  cases resolver.openFile name with
  | error e => rfl
  | ok file =>
    dsimp only
    cases checkShadow name file.path path <;> rfl

/-! ### What is so of every compiler -/

/-- How the files of a compiler were read is known. -/
structure Lawful (c : Compiler) : Prop where
  regular : Session.Regular (c.session, [])
  history : Session.History c.resolver (c.session, [])

theorem Lawful.goes (h : Lawful c) (hg : Goes c c') : Lawful c' :=
  ⟨h.regular.steps hg.steps, hg.resolver ▸ h.history.steps h.regular hg.steps⟩

theorem lawful_fresh (resolver : Resolver) : Lawful (fresh resolver) :=
  ⟨Session.regular_empty, Session.history_empty⟩

theorem lawful_after (resolver : Resolver) (calls : List Call) :
    Lawful (after (fresh resolver) calls) :=
  (lawful_fresh resolver).goes (goes_after calls _)

/-- The path is that of a registered file. -/
structure Leads (c : Compiler) (path name : String) (f : FileId) : Prop where
  named : nameOf c.resolver path = .ok name
  registered : c.file? name = some f
  unshadowed : checkShadow name (c.pool.file f).path path = .ok ()

theorem Leads.goes (h : Leads c path name f) (hc : Lawful c) (hg : Goes c c') :
    Leads c' path name f := by
  have hsince := Session.Since.of_steps hc.regular.sound hg.steps
  refine ⟨hg.resolver ▸ h.named, hsince.registry name f h.registered, ?_⟩
  rw [show c'.pool.file f = c.pool.file f from
    (hsince.registered f ⟨name, h.registered⟩).file]
  exact h.unshadowed

theorem Leads.addRoot (h : Leads c path name f) (id : FileId) : Leads (c.addRoot id) path name f := by
  unfold Compiler.addRoot
  split
  · exact h
  · exact ⟨h.named, h.registered, h.unshadowed⟩

theorem leads_of_loadAt (hc : Lawful c) (named : nameOf c.resolver path = .ok name)
    (h : loadAt path name c = .ok f c') : Leads c' path name f ∧ c'.roots = c.roots := by
  have hends := loadAt_ends path name c
  rw [h] at hends
  obtain ⟨hgoes, hreg⟩ := hends
  have hnamed : nameOf c'.resolver path = .ok name := hgoes.resolver ▸ named
  cases hold : c.session.registry.find? name with
  | some g =>
    rw [loadAt_of_registered hold] at h
    cases hs : checkShadow name (c.pool.file g).path path with
    | error e =>
      rw [hs] at h
      cases h
    | ok u =>
      rw [hs] at h
      cases h
      exact ⟨⟨hnamed, hreg, hs⟩, rfl⟩
  | none =>
    rw [loadAt_of_free hold, openText_eq] at h
    cases hopen : c.resolver.openFile name with
    | error e =>
      rw [hopen] at h
      cases h
    | ok file =>
      rw [hopen] at h
      dsimp only at h
      cases hs : checkShadow name file.path path with
      | error e =>
        rw [hs] at h
        cases h
      | ok u =>
        rw [hs] at h
        dsimp only at h
        obtain ⟨file', hopen', hpath⟩ := ((hc.goes hgoes).history.registered name f hreg).path
        obtain rfl : file' = file := Except.ok.inj (hopen'.symm.trans (hgoes.resolver ▸ hopen))
        refine ⟨⟨hnamed, hreg, by rw [show (c'.pool.file f).path = _ from hpath, hs]⟩, ?_⟩
        split at h <;> cases h
        rfl

/-- A path that was opened leads to a file, which is a root. -/
theorem leads_of_openFile (hc : Lawful c) (h : openFile path c = .ok () c') :
    ∃ name f, Leads c' path name f ∧ c'.roots = (c.addRoot f).roots := by
  rw [openFile_eq] at h
  cases hname : nameOf c.resolver path with
  | error e =>
    rw [hname] at h
    cases h
  | ok name =>
    rw [hname] at h
    dsimp only at h
    cases hload : loadAt path name c with
    | error e d =>
      rw [hload] at h
      cases h
    | ok f d =>
      rw [hload] at h
      cases h
      obtain ⟨hleads, hroots⟩ := leads_of_loadAt hc hname hload
      refine ⟨name, f, hleads.addRoot f, ?_⟩
      unfold addRoot
      rw [hroots]
      split
      · exact hroots
      · rfl

/-! ### Opening again -/

/-- The compiler `d` has read some of the files of `c`. -/
structure Shadows (c d : Compiler) : Prop where
  resolver : d.resolver = c.resolver
  twin : ∃ ρ, Session.Twin c.session ρ d.session

theorem Shadows.addRoot (h : Shadows c d) (id : FileId) : Shadows c (d.addRoot id) := by
  unfold Compiler.addRoot
  split
  · exact h
  · exact ⟨h.resolver, h.twin⟩

/-- A path that leads to a file of the one compiler can be opened by the other one. -/
theorem openFile_again (hc : Lawful c) (hd : Shadows c d) (h : Leads c path name f) :
    ∃ d', openFile path d = .ok () d' ∧ Shadows c d' := by
  have hf : c.session.registry.find? name = some f := h.registered
  obtain ⟨hresolver, ρ, htwin⟩ := hd
  rw [openFile_eq, hresolver, h.named]
  dsimp only
  cases hold : d.session.registry.find? name with
  | some g =>
    obtain ⟨f', hf', rfl, hm⟩ := htwin.files name g hold
    cases hf.symm.trans hf'
    have hpath : (d.pool.file (ρ.file f)).path = (c.pool.file f).path := by
      rw [show d.pool.file (ρ.file f) = _ from hm.file]
      rfl
    rw [loadAt_of_registered hold, hpath, h.unshadowed]
    exact ⟨_, rfl, .addRoot ⟨hresolver, ρ, htwin⟩ _⟩
  | none =>
    obtain ⟨k, hk⟩ := List.getElem?_of_mem (Table.mem_entries_iff.mpr hf)
    have hlimit : Session.importLimit c.resolver + (([] : List Session.Reading).length + 1) =
        Session.importLimit c.resolver + 1 := rfl
    obtain ⟨file, opened, σ, t, id, hrun, -, -, ht, -⟩ := Session.complete_again hc.regular hc.history
      (fun j _ => Session.loadUpTo_again hc.regular hc.history j) hk (.inl rfl)
      (fun rd hrd => by cases hrd) hlimit htwin htwin.regular hold
    obtain ⟨file', opened', hpath⟩ := (hc.history.registered name f hf).path
    cases opened.symm.trans opened'
    have hload : Session.loadOpened c.resolver name file d.session = .ok id t := hrun
    have hs : checkShadow name file.path path = .ok () := hpath ▸ h.unshadowed
    rw [loadAt_of_free hold, openText_eq, hresolver, opened]
    simp only [hs, hload]
    have hnext : Shadows c { d with resolver := c.resolver, session := t } := ⟨rfl, σ, ht⟩
    exact ⟨_, rfl, hnext.addRoot id⟩

end Compiler

end ProtoSchema

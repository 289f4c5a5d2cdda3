import ProtoSchema.Proofs.Session.Loading

/-! # Runs that succeed

A run of a session adds files to the pool in one place only, where a file is begun, and when a run succeeds
each file that was begun on the way is registered at its end (`Runs.finishes`). -/

namespace ProtoSchema

/-! ### What leaves the files of a pool alone -/

/-- No event adds a file or takes one away. -/
theorem Cursor.Effect.hasFile {c c' : Cursor} {pool other : Pool} {e : Event}
    (h : Effect c pool e c' other) : other.HasFile = pool.HasFile := by
  cases h with
  | edition | package | fileOption => exact Pool.hasFile_modifyFile ..
  | importFile | required | strayField | strayValue | closeEnum | closeBlock => rfl
  | blockOption | enumOption => rfl
  | message added =>
    obtain ⟨-, -, rfl⟩ := Pool.addMessage_eq_ok added
    exact Pool.hasFile_modifyMembers ..
  | extend => exact Pool.hasFile_modifyMembers ..
  | enum added =>
    obtain ⟨-, -, rfl⟩ := Pool.addEnum_eq_ok added
    exact Pool.hasFile_modifyMembers ..
  | field scope added =>
    obtain ⟨-, -, rfl⟩ := Pool.addField_eq_ok added
    rfl
  | value inEnum added =>
    obtain ⟨-, -, rfl⟩ := Pool.addValue_eq_ok added
    rfl
  | reservedRanges | reservedNames | extensionRanges =>
    unfold modifyOpen
    split <;> rfl

namespace Pool

variable {pool other : Pool} {f : FileId}

theorem sweepBlock_hasFile (f : FileId) (b : BlockId) (pool : Pool) :
    Ends (sweepBlock f b pool) (fun _ other => other.HasFile = pool.HasFile) fun _ => True := by
  simp only [sweepBlock, bind, EStateM.bind, get_apply]
  cases (pool.block b).heading with
  | message => rfl
  | extend type target =>
    cases target with
    | some => rfl
    | none =>
      dsimp only
      cases pool.resolve? f (pool.block b).parent type with
      | some => rfl
      | none => trivial

theorem sweepField_hasFile (f : FileId) (d : FieldId) (pool : Pool) :
    Ends (sweepField f d pool) (fun _ other => other.HasFile = pool.HasFile) fun _ => True := by
  simp only [sweepField, bind, EStateM.bind, get_apply]
  cases (pool.field d).type with
  | scalar => rfl
  | named name target =>
    cases target with
    | some => rfl
    | none =>
      dsimp only
      cases pool.resolve? f (.block (pool.field d).block) name with
      | some => rfl
      | none => trivial

/-- A loop of steps that leave the files alone leaves them alone. -/
theorem forM_hasFile {α : Type} {step : α → PoolM PUnit} (hstep : ∀ a pool,
      Ends (step a pool) (fun _ other => other.HasFile = pool.HasFile) fun _ => True) (as : List α)
    (pool : Pool) : Ends (as.forM step pool) (fun _ other => other.HasFile = pool.HasFile) fun _ => True :=
  Ends.forM (p := fun _ other => other.HasFile = pool.HasFile) as
    (fun a _ _ other h => (hstep a other).mono (fun _ _ h' => h'.trans h) fun _ h' => h') [] pool rfl

/-- The checks of a file add no file. -/
theorem checkFile_hasFile (f : FileId) (pool : Pool) :
    Ends (checkFile f pool) (fun _ other => other.HasFile = pool.HasFile) fun _ => True := by
  refine Ends.bind ?_
  rw [sweep_eq]
  refine Ends.bind ((forM_hasFile (sweepBlock_hasFile f) _ pool).mono (fun _ swept h => ?_) fun _ h => h)
  refine (forM_hasFile (sweepField_hasFile f) _ swept).mono (fun _ other h' => ?_) fun _ h => h
  simp only [bind, EStateM.bind, get_apply]
  cases (other.blocksOf f).foldlM other.checkBlock Table.empty with
  | error => trivial
  | ok claims => exact h'.trans h

end Pool

namespace Session

variable {r : Resolver} {reading names : List String} {task : Task} {s t u : Session}
  {result : Outcome FileId}

/-- From one session to another, every file that is new is registered, and no file that is being read. -/
structure Finishes (reading : List String) (s t : Session) : Prop where
  registered : ∀ f, s.Registered f → t.Registered f
  files : ∀ f, t.pool.HasFile f → s.pool.HasFile f ∨ t.Registered f
  free : ∀ n ∈ reading, s.registry.find? n = none → t.registry.find? n = none

theorem Finishes.refl (reading : List String) (s : Session) : Finishes reading s s :=
  ⟨fun _ h => h, fun _ h => .inl h, fun _ _ h => h⟩

theorem Finishes.trans (h : Finishes reading s t) (h' : Finishes reading t u) : Finishes reading s u where
  registered f hf := h'.registered f (h.registered f hf)
  files f hf := by
    rcases h'.files f hf with hf | hf
    · exact (h.files f hf).imp_right (h'.registered f)
    · exact .inr hf
  free n hn hfree := h'.free n hn (h.free n hn hfree)

/-- No file is added, and none is registered. -/
theorem finishes_of_eq (files : t.pool.HasFile = s.pool.HasFile) (registry : t.registry = s.registry) :
    Finishes reading s t where
  registered f hf := by rwa [Registered, registry]
  files f hf := .inl (files ▸ hf)
  free n _ hfree := registry ▸ hfree

/-- A run that succeeds has registered all files that it has begun. -/
theorem Runs.finishes (h : Runs r reading task s result names) {id : FileId}
    (hresult : result = .ok id t) : Finishes reading s t := by
  induction h generalizing id t with
  | registered | done =>
    cases hresult
    exact .refl ..
  | cycle | unopened | failed | fault | unloaded => cases hresult
  | opened opened run ih => exact ih hresult
  | @finished reading name file s es fault? i s' names free fresh text events ih =>
    have hevents := ih rfl
    have hfree : s'.registry.find? name = none := hevents.free name (by simp) free
    unfold finishFile at hresult
    split at hresult
    · cases hresult
    · split at hresult
      · cases hresult
      · next pool checked =>
        cases hresult
        have hfiles := Pool.checkFile_hasFile ⟨s.pool.files.size⟩ (s'.pool.recordTypes ⟨s.pool.files.size⟩)
        rw [checked] at hfiles
        have hfiles : pool.HasFile = s'.pool.HasFile := hfiles.trans (Pool.hasFile_modifyFile ..)
        have hregister : ∀ f, (s'.register pool name ⟨s.pool.files.size⟩).Registered f ↔
            s'.Registered f ∨ f = ⟨s.pool.files.size⟩ := fun f => registered_register hfree
        refine ⟨fun f hf => (hregister f).mpr (.inl (hevents.registered f hf)), fun f hf => ?_,
          fun n hn hnfree => ?_⟩
        · -- the file itself is registered now
          rw [hregister f]
          rcases hevents.files f (hfiles ▸ hf) with hf | hf
          · exact (((Pool.fileAdded s.pool name file.path).files f).mp hf).imp_right .inr
          · exact .inr (.inl hf)
        · have hne : n ≠ name := fun h => fresh (h ▸ hn)
          rw [register, Table.find?_insert, hevents.free n (List.mem_append_left _ hn) hnfree, if_neg hne]
          rfl
  | @event reading name text e es c s c' pool notice result names noImport applied more ih =>
    have heff := Cursor.effect_of_apply applied
    exact .trans (t := s.declare name pool notice) (finishes_of_eq heff.hasFile rfl) (ih hresult)
  | @importFile reading name text kind target es c s i s' result names names' load more ih ih' =>
    have hrecord : Finishes reading s' (s'.recordImport c.file target.value ⟨i, kind⟩) :=
      finishes_of_eq (Pool.hasFile_modifyFile ..) rfl
    exact (ih rfl).trans (hrecord.trans (ih' hresult))

end Session

end ProtoSchema

import ProtoSchema.Proofs.Pool.FullNames
import ProtoSchema.Proofs.Session.Grounding

/-! # What registered files list

A registered file lists its own types under their full names, and behind them what its public imports
list: of several types with one name, those of the first import decide (`listings_step`). -/

namespace ProtoSchema

namespace Pool

variable {pool other : Pool} {f g : FileId} {name : DottedName} {t : TypeId}

/-- The type that the public imports of a file list under a name: the first one that lists any
decides. -/
def listedByImports (pool : Pool) (f : FileId) (name : DottedName) : Option TypeId :=
  ((pool.file f).imports.values.filter (·.kind = .publicly)).findSome? fun i =>
    (pool.file i.file).types.find? name

/-- A file lists its own types, and behind them what its public imports list. -/
def ListsTypes (pool : Pool) (f : FileId) : Prop :=
  ∀ name, (pool.file f).types.find? name = (pool.inFile f name).or (pool.listedByImports f name)

/-! ### What is recorded -/

theorem WellFormed.mem_declaredTypes_iff (hw : pool.WellFormed) (hf : pool.HasFile f) :
    (name, t) ∈ pool.declaredTypes f ↔ pool.inFile f name = some t := by
  constructor
  · intro hmem
    have hname : pool.typeName t = name := by
      simp only [declaredTypes, List.mem_map] at hmem
      obtain ⟨t', -, he⟩ := hmem
      cases he
      rfl
    have hfind := hw.inFile_typeName (hw.hasType_of_declared hmem)
    rwa [hw.typeFile_of_declared hf hmem, hname] at hfind
  · intro hfind
    have ht := hw.hasType_of_inFile hfind
    obtain ⟨hfile, hname⟩ := hw.of_inFile hfind
    have hscope : ∀ s, pool.HasScope s → pool.scopeFile s = f →
        s ∈ Scope.file f :: (pool.messagesIn (.file f)).map Scope.block :=
      fun s hs hsf => (hw.mem_scopes_iff hf).mpr ⟨hs, hsf⟩
    simp only [declaredTypes, List.mem_map, List.mem_flatMap, List.mem_append]
    refine ⟨t, ⟨pool.typeScope t, ?_⟩, by rw [hname]⟩
    cases t with
    | message b =>
      obtain ⟨hs, hsf⟩ := hw.block_scope b ht.1
      exact ⟨hscope _ hs (hsf.trans hfile), .inl ⟨b, hw.mem_messages_iff.mpr ⟨ht.1, ht.2, rfl⟩, rfl⟩⟩
    | enum e =>
      obtain ⟨hs, hsf⟩ := hw.enum_scope e ht
      exact ⟨hscope _ hs (hsf.trans hfile), .inr ⟨e, hw.mem_enums_iff.mpr ⟨ht, rfl⟩, rfl⟩⟩

theorem not_mem_of_find?_insertAll {κ α : Type} [DecidableEq κ] {k : κ} {es : List (κ × α)}
    (h : (Table.empty.insertAll es).find? k = none) (a : α) : (k, a) ∉ es := by
  rw [Table.find?_insertAll, Table.find?_empty, Option.none_or] at h
  intro hmem
  have hne := List.lookup_eq_none_iff.mp h _ hmem
  simp at hne

theorem WellFormed.find?_declaredTypes (hw : pool.WellFormed) (hf : pool.HasFile f) :
    (Table.empty.insertAll (pool.declaredTypes f)).find? name = pool.inFile f name := by
  cases hfind : (Table.empty.insertAll (pool.declaredTypes f)).find? name with
  | some t =>
    rcases Table.of_find?_insertAll hfind with h | h
    · cases h
    · exact ((hw.mem_declaredTypes_iff hf).mp h).symm
  | none =>
    refine (Option.eq_none_iff_forall_ne_some.mpr fun t ht => ?_).symm
    exact not_mem_of_find?_insertAll hfind t ((hw.mem_declaredTypes_iff hf).mpr ht)

theorem findSome?_congr {α β : Type} {F G : α → Option β} {as : List α} (h : ∀ a ∈ as, F a = G a) :
    as.findSome? F = as.findSome? G := by
  induction as with
  | nil => rfl
  | cons a as ih =>
    rw [List.forall_mem_cons] at h
    rw [List.findSome?_cons, List.findSome?_cons, h.1, ih h.2]

theorem find?_insertAll_append {κ α : Type} [DecidableEq κ] {k : κ} (es es' : List (κ × α)) :
    (Table.empty.insertAll (es ++ es')).find? k =
      ((Table.empty.insertAll es).find? k).or ((Table.empty.insertAll es').find? k) := by
  simp only [Table.find?_insertAll, Table.find?_empty, Option.none_or, List.lookup_append]

theorem find?_importedTypes :
    (Table.empty.insertAll (pool.importedTypes f)).find? name = pool.listedByImports f name := by
  rw [importedTypes, listedByImports]
  induction (pool.file f).imports.values.filter (·.kind = .publicly) with
  | nil => rfl
  | cons i is ih =>
    have hfirst : (Table.empty.insertAll (pool.file i.file).types.entries).find? name =
        (pool.file i.file).types.find? name := by
      rw [Table.find?_insertAll, Table.find?_empty, Option.none_or]
      rfl
    rw [List.flatMap_cons, find?_insertAll_append, hfirst, ih, List.findSome?_cons]
    cases (pool.file i.file).types.find? name <;> rfl

/-- What is recorded of a file is what it lists. -/
theorem WellFormed.find?_recordTypes (hw : pool.WellFormed) (hf : pool.HasFile f) :
    ((pool.recordTypes f).file f).types.find? name =
      (pool.inFile f name).or (pool.listedByImports f name) := by
  rw [recordTypes, file_modifyFile, if_pos ⟨rfl, hf⟩]
  show (Table.empty.insertAll (pool.declaredTypes f ++ pool.importedTypes f)).find? name = _
  rw [find?_insertAll_append, hw.find?_declaredTypes hf, find?_importedTypes]

/-! ### Changes elsewhere -/

/-- What a file lists depends on its own declarations and on what its imports list. -/
theorem ListsTypes.of_eq (h : pool.ListsTypes f) (hfile : (other.file f).types = (pool.file f).types)
    (himports : (other.file f).imports = (pool.file f).imports)
    (hown : ∀ name, other.inFile f name = pool.inFile f name)
    (htypes : ∀ i ∈ (pool.file f).imports.values,
      (other.file i.file).types = (pool.file i.file).types) : other.ListsTypes f := by
  intro name
  rw [hfile, h name, hown, listedByImports, listedByImports, himports]
  congr 1
  refine findSome?_congr fun i hi => ?_
  rw [htypes i (List.mem_filter.mp hi).1]

theorem SameView.inFile_eq (h : SameView f (fun _ => False) pool other) (hw : pool.WellFormed)
    (hf : pool.HasFile f) (name : DottedName) : other.inFile f name = pool.inFile f name := by
  rcases h.scopes.inFile_agrees hw hf name with he | ⟨_, hn, -⟩
  · exact he
  · cases hn

theorem ListsTypes.of_kept (h : pool.ListsTypes f) (hw : pool.WellFormed) (hf : pool.HasFile f)
    (hk : Kept f pool other) (hi : ∀ i ∈ (pool.file f).imports.values, Kept i.file pool other) :
    other.ListsTypes f :=
  h.of_eq (by rw [hk.file]) (by rw [hk.file]) ((hk.sameView hi).inFile_eq hw hf)
    fun i hmem => by rw [(hi i hmem).file]

theorem ListsTypes.of_sameTree (h : pool.ListsTypes f) (hw : pool.WellFormed) (hf : pool.HasFile f)
    (ht : SameTree pool other) (hfile : other.file = pool.file) : other.ListsTypes f :=
  h.of_eq (by rw [hfile]) (by rw [hfile])
    ((ht.sameView (by rw [hfile]) fun i _ => by rw [hfile]).inFile_eq hw hf) fun i _ => by rw [hfile]

/-- A file lists what is recorded of it, if it does not import itself. -/
theorem listsTypes_recordTypes (hw : pool.WellFormed) (hf : pool.HasFile f)
    (hi : ∀ i ∈ (pool.file f).imports.values, i.file ≠ f) : (pool.recordTypes f).ListsTypes f := by
  have htree : SameTree pool (pool.recordTypes f) := .modifyFile _ _ fun _ => ⟨rfl, rfl⟩
  have hothers : ∀ i ∈ (pool.file f).imports.values,
      ((pool.recordTypes f).file i.file).types = (pool.file i.file).types := fun i hmem => by
    rw [recordTypes, file_modifyFile, if_neg fun h => hi i hmem h.1.symm]
  have himports := imports_recordTypes pool f f
  intro name
  rw [hw.find?_recordTypes hf, (htree.sameView himports hothers).inFile_eq hw hf, listedByImports,
    listedByImports, himports]
  congr 1
  refine findSome?_congr fun i hmem => ?_
  rw [hothers i (List.mem_filter.mp hmem).1]

end Pool

namespace Session

variable {r : Resolver} {x y : State} {s : Session} {st : List Reading} {rd : Reading}

/-- Every registered file lists its own types and what its public imports list. -/
def Listings (x : State) : Prop := ∀ f, x.1.Registered f → x.1.pool.ListsTypes f

/-- What the imports of a registered file are is registered. -/
theorem Sound.registered_import (hx : Sound x) {f : FileId} (hf : x.1.Registered f) {i : Import}
    (hi : i ∈ (x.1.pool.file f).imports.values) : x.1.Registered i.file := by
  obtain ⟨target, htarget⟩ := Table.mem_values_iff.mp hi
  exact ⟨target, hx.imported hf htarget⟩

/-- A file lists what is recorded of it when its checks begin. -/
theorem Reading.Sound.listsTypes (h : rd.Sound s) (hw : s.pool.WellFormed)
    (hnot : ¬s.Registered rd.cursor.file) :
    (s.pool.recordTypes rd.cursor.file).ListsTypes rd.cursor.file := by
  refine Pool.listsTypes_recordTypes hw h.hasFile fun i hi he => hnot ?_
  obtain ⟨target, htarget⟩ := Table.mem_values_iff.mp hi
  exact ⟨target, he ▸ h.imports target i htarget⟩

/-- Every step keeps the invariant. -/
theorem listings_step (hx : Sound x) (h : Listings x) (hs : Step r x y) : Listings y := by
  obtain ⟨g, -, hkept⟩ := hx.kept hs
  have hothers : ∀ f, x.1.Registered f → y.1.pool.ListsTypes f := fun f hf =>
    (h f hf).of_kept hx.tree (hx.hasFile hf) (hkept f hf).2 fun i hi =>
      (hkept _ (hx.registered_import hf hi)).2
  cases hs with
  | begin | event | importFile | reject | abandon => exact hothers
  | @complete s st rd pool finished noFault checked =>
    intro f hf
    rcases (registered_register (hx.distinct.free rd (List.mem_cons_self ..))).mp hf with hf | rfl
    · exact hothers f hf
    · obtain ⟨hc, -⟩ := hx.checked checked
      have hread := hx.reading rd (List.mem_cons_self ..)
      obtain ⟨hw, -, htouches⟩ := recordTypes_sound hx.tree hx.types rd.cursor.file
      have hlists := hread.listsTypes hx.tree (hx.not_registered (List.mem_cons_self ..))
      exact hlists.of_sameTree hw (htouches.file _ hread.hasFile).1 hc.sameTree hc.file_eq

theorem listings_empty : Listings ({}, []) := by
  rintro f ⟨name, h⟩
  cases h

/-- In every session registered files list their types and those of their public imports. -/
theorem Listings.steps (hx : Sound x) (h : Listings x) (hs : Steps r x y) : Listings y := by
  induction hs with
  | refl => exact h
  | tail hsteps hstep ih => exact listings_step (hx.steps hsteps) ih hstep

end Session

end ProtoSchema

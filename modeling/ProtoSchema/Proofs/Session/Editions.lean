import ProtoSchema.Proofs.Event.Labels
import ProtoSchema.Proofs.Session.Soundness

/-! # Required fields and versions

A label `required` is refused in a file that is known to be in the newer version.  So `RequiredFirst`
holds of a file that is being read: a field with this label begins in front of every version statement
for the newer version, of those that are read and of those that are still to be read. -/

namespace ProtoSchema

namespace Pool

variable {pool other : Pool} {f g : FileId} {rest : List Event}

/-- The required fields of a file with the events `rest` still to be read begin in front of its version
statement, if that is one for the newer version. -/
def RequiredFirst (pool : Pool) (f : FileId) (rest : List Event) : Prop :=
  ∀ d v, pool.FieldOf f d → (pool.field d).form = .plain (some .required) →
    (pool.file f).edition = some v ∨ .edition v ∈ rest → v.value = .proto3 →
      (pool.field d).typeSpan.start < v.span.start

theorem RequiredFirst.of_kept (h : pool.RequiredFirst f rest) (hk : Kept f pool other) :
    other.RequiredFirst f rest := by
  intro d v hd hreq hv hnewer
  have hd := (hk.fields d).mp hd
  rw [hk.field d hd] at hreq ⊢
  exact h d v hd hreq (hk.file ▸ hv) hnewer

theorem Touches.of_fieldOf (ht : Touches g pool other) (hw : pool.WellFormed) {d : FieldId}
    (hp : pool.HasField d) (hd : other.FieldOf f d) : pool.FieldOf f d := by
  have hb := hw.field_block d hp
  have hfile := hd.2.2
  rw [ht.field_block hp, (ht.block _ hb).2.1.file] at hfile
  exact ⟨hp, hb, hfile⟩

/-- A change that adds no field, and leaves or makes the version of the file. -/
theorem RequiredFirst.of_touches (h : pool.RequiredFirst f rest) (ht : Touches g pool other)
    (hw : pool.WellFormed) (hfields : other.HasField = pool.HasField) {rest' : List Event}
    (hedition : ∀ v, (other.file f).edition = some v ∨ .edition v ∈ rest' →
      (pool.file f).edition = some v ∨ .edition v ∈ rest) : other.RequiredFirst f rest' := by
  intro d v hd hreq hv hnewer
  have hp : pool.HasField d := hfields ▸ hd.1
  have hsame := (ht.field d hp).2.1.same
  rw [hsame] at hreq ⊢
  exact h d v (ht.of_fieldOf hw hp hd) hreq (hedition v hv) hnewer

end Pool

namespace Cursor

variable {c c' : Cursor} {pool other : Pool} {e : Event} {ks ks' : OpenBlocks}

/-- The version of the file behind an event is the one in front of it, or that of the event. -/
theorem Effect.edition_of_some (h : Effect c pool e c' other) (hn : e.Nests ks ks') (hf : c.Fits pool ks)
    {v : Located Edition} (hv : (other.file c.file).edition = some v) :
    (pool.file c.file).edition = some v ∨ e = .edition v := by
  cases h with
  | edition first =>
    rw [Pool.file_modifyFile, if_pos ⟨rfl, hf.hasFile⟩] at hv
    exact .inr (by rw [Option.some.inj hv])
  | package | fileOption =>
    rw [Pool.file_modifyFile] at hv
    split at hv <;> exact .inl hv
  | importFile | required | strayField | strayValue | closeEnum | closeBlock => exact .inl hv
  | blockOption | enumOption => exact .inl hv
  | message added =>
    cases hn with
    | openMessage hks =>
      rw [(Pool.blockAdded_addMessage added (hf.hasScope hks).1).file] at hv
      exact .inl hv
  | @extend type =>
    cases hn with
    | openExtend hks =>
      rw [(Pool.blockAdded_addExtend c.file type (pool.resolve? c.file c.scope type.value)
        (hf.hasScope hks).1).file] at hv
      exact .inl hv
  | enum added =>
    cases hn with
    | openEnum hks =>
      rw [(Pool.enumAdded_addEnum added (hf.hasScope hks).1).file] at hv
      exact .inl hv
  | field scope added =>
    rw [(Pool.fieldAdded added (hf.scope_block scope).1).file] at hv
    exact .inl hv
  | value inEnum added =>
    obtain ⟨-, -, rfl⟩ := Pool.addValue_eq_ok added
    exact .inl hv
  | reservedRanges | reservedNames | extensionRanges =>
    unfold modifyOpen at hv
    split at hv <;> exact .inl hv

/-- An event adds no field, or it is the declaration of the one that it adds. -/
theorem Effect.hasField (h : Effect c pool e c' other) (hn : e.Nests ks ks') (hf : c.Fits pool ks) :
    other.HasField = pool.HasField ∨ ∃ f block, e = .field f ∧
      Pool.FieldAdded pool other (c.newField pool f block) := by
  cases h with
  | edition | package | fileOption | blockOption | enumOption => exact .inl (by simp)
  | importFile | required | strayField | strayValue | closeEnum | closeBlock => exact .inl rfl
  | message added =>
    cases hn with
    | openMessage hks => exact .inl (Pool.blockAdded_addMessage added (hf.hasScope hks).1).fields
  | @extend type =>
    cases hn with
    | openExtend hks =>
      exact .inl (Pool.blockAdded_addExtend c.file type (pool.resolve? c.file c.scope type.value)
        (hf.hasScope hks).1).fields
  | enum added =>
    cases hn with
    | openEnum hks => exact .inl (Pool.enumAdded_addEnum added (hf.hasScope hks).1).fields
  | @field f block other scope added =>
    exact .inr ⟨f, block, rfl, Pool.fieldAdded added (hf.scope_block scope).1⟩
  | value inEnum added =>
    obtain ⟨-, -, rfl⟩ := Pool.addValue_eq_ok added
    exact .inl (by simp)
  | reservedRanges | reservedNames | extensionRanges =>
    unfold modifyOpen
    split <;> exact .inl (by simp)

/-- A required field of a file that is not in the newer version so far begins in front of the version
statements that follow. -/
theorem Effect.requiredFirst (h : Effect c pool e c' other) (hn : e.Nests ks ks')
    (hf : c.Fits pool ks) (hw : pool.WellFormed) {rest : List Event}
    (hfirst : pool.RequiredFirst c.file (e :: rest))
    (older : e.IsRequired → (pool.file c.file).editionOrOldest ≠ .proto3)
    (before : ∀ f v, e = .field f → .edition v ∈ rest → f.type.span.start < v.span.start) :
    other.RequiredFirst c.file rest := by
  have ht := h.touches hn hf
  have hedition : ∀ v, (other.file c.file).edition = some v ∨ .edition v ∈ rest →
      (pool.file c.file).edition = some v ∨ .edition v ∈ e :: rest := by
    rintro v (hv | hv)
    · rcases h.edition_of_some hn hf hv with hv | rfl
      · exact .inl hv
      · exact .inr (List.mem_cons_self ..)
    · exact .inr (List.mem_cons_of_mem _ hv)
  rcases h.hasField hn hf with hfields | ⟨f, block, rfl, hadded⟩
  · exact hfirst.of_touches ht hw hfields hedition
  · intro d v hd hreq hv hnewer
    rcases (hadded.fields d).mp hd.1 with hp | rfl
    · rw [hadded.field d hp] at hreq ⊢
      exact hfirst d v (ht.of_fieldOf hw hp hd) hreq (hedition v hv) hnewer
    · rw [hadded.field_new] at hreq ⊢
      rcases hv with hv | hv
      · -- the file is known to be in the newer version, and the label was refused
        rw [hadded.file] at hv
        refine absurd ?_ (older ⟨f, rfl, hreq⟩)
        rw [File.editionOrOldest, hv]
        exact hnewer
      · exact before f v rfl hv

end Cursor

namespace Session

variable {r : Resolver} {x y : State} {s s' : Session} {st : List Reading} {rd : Reading}

/-- A file that is being read: if a required field is next, the file is not in the newer version so
far. -/
structure Reading.Editions (s : Session) (rd : Reading) : Prop where
  first : s.pool.RequiredFirst rd.cursor.file rd.rest
  older : ∀ e ∈ rd.rest.head?, e.IsRequired →
    (s.pool.file rd.cursor.file).editionOrOldest ≠ .proto3

/-- In registered files the required fields stand in front of a statement for the newer version. -/
structure Editions (x : State) : Prop where
  registered : ∀ f, x.1.Registered f → x.1.pool.RequiredFirst f []
  reading : ∀ rd ∈ x.2, rd.Editions x.1

/-- The events that are still to be read are the last ones of the text. -/
theorem Reading.Sound.rest_suffix (h : rd.Sound s) : rd.rest <:+ (Event.ofText rd.text).1 :=
  ⟨rd.done, h.text.symm⟩

theorem Editions.cons (h : Editions (s, st)) (hrd : rd.Editions s) : Editions (s, rd :: st) :=
  ⟨h.registered, List.forall_mem_cons.mpr ⟨hrd, h.reading⟩⟩

/-- The invariant while a file is changed that is not registered. -/
theorem Editions.change (h : Editions (s, st)) (hx : Sound (s, st)) {g : FileId}
    {st' : List Reading} (hst : st'.Sublist st) (hg : ¬s.Registered g)
    (hne : ∀ rd ∈ st', rd.cursor.file ≠ g) (ht : Pool.Touches g s.pool s'.pool)
    (hr : s'.registry = s.registry) : Editions (s', st') := by
  refine ⟨fun f hf => ?_, fun rd hrd => ?_⟩
  · obtain ⟨name, hname⟩ := hf
    have hf : s.Registered f := ⟨name, hr ▸ hname⟩
    exact (h.registered f hf).of_kept (ht.kept hx.tree (hx.hasFile hf) fun e => hg (e ▸ hf))
  · have hkept := ht.kept hx.tree (hx.reading rd (hst.mem hrd)).hasFile (hne rd hrd)
    obtain ⟨first, older⟩ := h.reading rd (hst.mem hrd)
    exact ⟨first.of_kept hkept, fun e he hreq => by rw [hkept.file]; exact older e he hreq⟩

/-- The required fields of a file after an event of it. -/
theorem editions_event (hx : Sound (s, rd :: st)) (h : rd.Editions s) {e : Event}
    {rest : List Event} {c : Cursor} {pool : Pool} {notice : Option Notice}
    (next : rd.rest = e :: rest) (applied : rd.cursor.apply s.pool e = .ok (c, pool, notice)) :
    (rd.advance c e rest).Editions (s.declare rd.name pool notice) := by
  have hread := hx.reading rd (List.mem_cons_self ..)
  obtain ⟨ks, ks', hn, hf, heff, -⟩ := reading_event hread next applied
  obtain ⟨hfirst, older⟩ := h
  have hsuffix := hread.rest_suffix
  have hlabels := (Event.labels_ofText rd.text).1.suffix hsuffix
  have hbefore := (Event.fields_before_editions rd.text).sublist hsuffix.sublist
  rw [next] at hfirst older hlabels hbefore
  refine ⟨?_, fun b hb hreq => ?_⟩
  · show pool.RequiredFirst c.file rest
    rw [heff.file_eq]
    refine heff.requiredFirst hn hf hx.tree hfirst (older e rfl) fun f v hef hv => ?_
    exact (List.pairwise_cons.mp hbefore).1 _ hv f v hef rfl
  · -- behind its label a required field is read only if the label was not refused
    obtain ⟨span, rfl⟩ := (List.isChain_cons.mp hlabels).1 b hb hreq
    show (pool.file c.file).editionOrOldest ≠ .proto3
    cases heff with
    | required newer => exact newer

/-- The required fields of a file after an import of it. -/
theorem editions_importFile (hx : Sound (s, rd :: st)) (h : rd.Editions s) {kind : ImportKind}
    {target : Located String} {rest : List Event} {i : Import}
    (next : rd.rest = .importFile kind target :: rest) :
    (rd.advance rd.cursor (.importFile kind target) rest).Editions
      (s.recordImport rd.cursor.file target.value i) := by
  obtain ⟨hfirst, -⟩ := h
  have hlabels := (Event.labels_ofText rd.text).1.suffix
    (hx.reading rd (List.mem_cons_self ..)).rest_suffix
  rw [next] at hfirst hlabels
  refine ⟨?_, fun b hb hreq => ?_⟩
  · have ht : Pool.Touches rd.cursor.file s.pool
        (s.recordImport rd.cursor.file target.value i).pool := .modifyFile _ fun _ => rfl
    refine hfirst.of_touches ht hx.tree rfl ?_
    rintro v (hv | hv)
    · rw [recordImport, Pool.file_modifyFile] at hv
      split at hv <;> exact .inl hv
    · exact .inr (List.mem_cons_of_mem _ hv)
  · obtain ⟨span, hspan⟩ := (List.isChain_cons.mp hlabels).1 b hb hreq
    cases hspan

/-- Every step keeps the invariant. -/
theorem Editions.step (hx : Sound x) (h : Editions x) (hs : Step r x y) : Editions y := by
  have hy := hx.step hs
  cases hs with
  | @begin s st name file free fresh opened =>
    have hadded := Pool.fileAdded s.pool name file.path
    refine Editions.cons
      (h.change hx (.refl _) ?_ ?_ (.of_fileAdded (g := ⟨s.pool.files.size⟩) hadded) rfl)
      ⟨fun d v hd => ?_, fun b hb hreq => absurd hreq ((Event.labels_ofText file.text).2 b hb)⟩
    · exact fun hr => Pool.not_hasFile_size (hx.hasFile hr)
    · exact fun rd hrd e => Pool.not_hasFile_size (e ▸ (hx.reading rd hrd).hasFile)
    · obtain ⟨ks, ks', hf, -⟩ := (hy.reading _ (List.mem_cons_self ..)).fits
      exact absurd hd.2 ((hf.early rfl).1 _)
  | @event s st rd e rest c pool notice next noImport applied =>
    obtain ⟨ks, ks', hn, hf, heff, -⟩ :=
      reading_event (hx.reading rd (List.mem_cons_self ..)) next applied
    exact Editions.cons (h.change hx (List.sublist_cons_self ..)
      (hx.not_registered (List.mem_cons_self ..)) (fun rd' => hx.file_ne) (heff.touches hn hf) rfl)
      (editions_event hx (h.reading rd (List.mem_cons_self ..)) next applied)
  | @importFile s st rd kind target rest id next found =>
    exact Editions.cons (h.change hx (List.sublist_cons_self ..)
      (hx.not_registered (List.mem_cons_self ..)) (fun rd' => hx.file_ne)
      (.modifyFile _ fun _ => rfl) rfl)
      (editions_importFile hx (h.reading rd (List.mem_cons_self ..)) next)
  | @complete s st rd pool finished noFault checked =>
    obtain ⟨hc, ht⟩ := hx.checked checked
    have hothers : Editions ({ s with pool }, st) := h.change hx (List.sublist_cons_self ..)
      (hx.not_registered (List.mem_cons_self ..)) (fun rd' => hx.file_ne) ht rfl
    refine ⟨fun f hf => ?_, fun rd' hrd =>
      ⟨(hothers.reading rd' hrd).first, (hothers.reading rd' hrd).older⟩⟩
    rcases (registered_register (hx.distinct.free rd (List.mem_cons_self ..))).mp hf with hf | rfl
    · exact hothers.registered f hf
    · have hfirst := (h.reading rd (List.mem_cons_self ..)).first
      rw [finished] at hfirst
      refine hfirst.of_touches ht hx.tree hc.sameTree.fields fun v hv => hv.imp_left fun hv => ?_
      change (pool.file rd.cursor.file).edition = some v at hv
      rw [hc.file_eq, Pool.recordTypes, Pool.file_modifyFile] at hv
      split at hv <;> exact hv
  | @reject s st rd fault pool finished checked =>
    exact h.change hx (List.sublist_cons_self ..) (hx.not_registered (List.mem_cons_self ..))
      (fun rd' => hx.file_ne) (hx.swept checked).2 rfl
  | @abandon s st rd =>
    exact h.change hx (List.sublist_cons_self ..) (hx.not_registered (List.mem_cons_self ..))
      (fun rd' => hx.file_ne) (.refl _ _) rfl

theorem editions_empty : Editions ({}, []) where
  registered f hf := by
    obtain ⟨name, h⟩ := hf
    cases h
  reading rd hrd := by cases hrd

theorem Editions.steps (hx : Sound x) (h : Editions x) (hs : Steps r x y) : Editions y := by
  induction hs with
  | refl => exact h
  | tail hsteps hstep ih => exact ih.step (hx.steps hsteps) hstep

end Session

end ProtoSchema

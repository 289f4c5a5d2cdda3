import ProtoSchema.Proofs.Pool.References
import ProtoSchema.Proofs.Session.Soundness

/-! # What references are bound to

A reference may be bound when it is read, while the rest of the file is unknown, or by the sweep over
the complete file.  `BindsWell` says how the type it is bound to relates to what a lookup in the
complete file finds: it is that type, unless that one is declared behind the reference.  While a file
is being read, `ReadsWell` says in addition that no bound type is declared behind its reference, and
that everything declared so far stands in front of what is still to be read. -/

namespace ProtoSchema

namespace Pool

variable {pool other : Pool} {f g : FileId}

/-- Every bound reference of a file denotes what a lookup finds, or that is declared behind it. -/
def BindsWell (pool : Pool) (f : FileId) : Prop :=
  ∀ s name offset t, Refers pool f s name offset (some t) →
    pool.HasType t ∧ ∃ t', pool.resolve? f s name = some t' ∧
      (t = t' ∨ ¬pool.Behind f offset t ∧ pool.Behind f offset t')

/-- The references and types of a file of which the declarations at `anchors` are still to be read. -/
structure ReadsWell (pool : Pool) (f : FileId) (anchors : List Nat) : Prop where
  bound : ∀ {s name offset t}, Refers pool f s name offset (some t) →
    pool.HasType t ∧ ¬pool.Behind f offset t ∧ ∃ t', pool.resolve? f s name = some t' ∧
      (t = t' ∨ pool.Behind f offset t')
  refers : ∀ {s name offset target}, Refers pool f s name offset target →
    ∀ a ∈ anchors, offset < a
  types : ∀ t, pool.HasType t → pool.typeFile t = f → ∀ a ∈ anchors, (pool.typeSpan t).start < a

theorem ReadsWell.bindsWell {anchors : List Nat} (h : ReadsWell pool f anchors) :
    BindsWell pool f := by
  intro s name offset t hr
  obtain ⟨ht, hnot, t', ht', h'⟩ := h.bound hr
  exact ⟨ht, t', ht', h'.imp_right fun hb => ⟨hnot, hb⟩⟩

/-! ### Reading on -/

/-- Where a reference or type is added in front of what is still to be read, all is well. -/
theorem ReadsWell.adds {anchor : Option Nat} {anchors : List Nat}
    (h : ReadsWell pool f (anchor.toList ++ anchors)) (ha : Adds f anchor pool other)
    (hw : pool.WellFormed) (hw' : other.WellFormed) (ht : pool.TypesSound) (hf : pool.HasFile f)
    (hsorted : (anchor.toList ++ anchors).Pairwise (· < ·)) : ReadsWell other f anchors := by
  have hlt : ∀ {a}, anchor = some a → ∀ a' ∈ anchors, a < a' := by
    rintro a rfl
    exact (List.pairwise_cons.mp hsorted).1
  have hmem : ∀ {a}, anchor = some a → a ∈ anchor.toList ++ anchors := by
    rintro a rfl
    exact List.mem_cons_self ..
  refine ⟨?_, ?_, ?_⟩
  · intro s name offset t hr
    rcases ha.refers hr with hold | ⟨hanchor, htarget, hs, hfile, hnone⟩
    · obtain ⟨ht₁, hnot, t', ht', h'⟩ := h.bound hold
      obtain ⟨hs, hfile⟩ := hw.scope_of_refers hold
      refine ⟨ha.touches.hasType ht₁, fun hb => hnot ((ha.touches.behind_iff ht₁).mp hb), ?_⟩
      rcases ha.view.resolve?_agrees hw hw' hs hfile hf name with he | ⟨x, ⟨-, -, hx, hax⟩, he⟩
      · refine ⟨t', he.trans ht', h'.imp_right fun hb => ?_⟩
        exact (ha.touches.behind_iff (hw.resolve?_hasType ht ht')).mpr hb
      · -- the new type stands behind every reference that was there
        exact ⟨x, he, .inr ⟨hx, h.refers hold _ (hmem hax)⟩⟩
    · have ht₁ := hw.resolve?_hasType ht htarget.symm
      refine ⟨ha.touches.hasType ht₁, fun hb => ?_, t, ?_, .inl rfl⟩
      · obtain ⟨hb₁, hb₂⟩ := (ha.touches.behind_iff ht₁).mp hb
        exact Nat.lt_asymm hb₂ (h.types t ht₁ hb₁ offset (hmem hanchor))
      · rcases ha.view.resolve?_agrees hw hw' hs hfile hf name with he | ⟨x, ⟨hx, hnx, -⟩, -⟩
        · exact he.trans htarget.symm
        · exact absurd (hnone x hx) hnx
  · intro s name offset target hr a ha'
    rcases ha.refers hr with hold | ⟨hanchor, -⟩
    · exact h.refers hold a (List.mem_append_right _ ha')
    · exact hlt hanchor a ha'
  · intro t ht' hfile a ha'
    rcases ha.types t ht' hfile with hold | hanchor
    · obtain ⟨h₁, h₂⟩ := ha.touches.type_eq hold
      rw [h₂]
      exact h.types t hold (h₁.symm.trans hfile) a (List.mem_append_right _ ha')
    · exact hlt hanchor a ha'

/-- A file without declarations has no references and no types. -/
theorem readsWell_of_empty {anchors : List Nat} (hb : ∀ b, ¬pool.BlockOf f b)
    (he : ∀ e, ¬pool.EnumOf f e) : ReadsWell pool f anchors := by
  have hnone : ∀ {s name offset target}, ¬Refers pool f s name offset target := by
    intro s name offset target hr
    cases hr with
    | field there => exact hb _ there.2
    | extend there => exact hb _ there
  refine ⟨fun hr => absurd hr hnone, fun hr => absurd hr hnone, fun t ht hf => ?_⟩
  cases t with
  | message b => exact absurd ⟨ht.1, hf⟩ (hb b)
  | enum e => exact absurd ⟨ht, hf⟩ (he e)

/-! ### Changes that add nothing -/

/-- A change to the file `g` after which the file `f` has no new references and no new types, and
every name found from a reference is still found. -/
structure AddsNone (f g : FileId) (pool other : Pool) : Prop where
  touches : Touches g pool other
  refers : ∀ {s name offset target}, Refers other f s name offset target →
    Refers pool f s name offset target
  resolve : ∀ {s name offset target}, Refers pool f s name offset target →
    ∀ t, pool.resolve? f s name = some t → other.resolve? f s name = some t
  types : ∀ t, other.HasType t → other.typeFile t = f → pool.HasType t

theorem ReadsWell.addsNone {anchors : List Nat} (h : ReadsWell pool f anchors)
    (ha : AddsNone f g pool other) (hw : pool.WellFormed) (ht : pool.TypesSound) :
    ReadsWell other f anchors := by
  refine ⟨fun hr => ?_, fun hr => h.refers (ha.refers hr), fun t ho hfile => ?_⟩
  · have hr := ha.refers hr
    obtain ⟨ht₁, hnot, t', ht', h'⟩ := h.bound hr
    refine ⟨ha.touches.hasType ht₁, ?_, t', ha.resolve hr t' ht', ?_⟩
    · rwa [ha.touches.behind_iff ht₁]
    · rwa [ha.touches.behind_iff (hw.resolve?_hasType ht ht')]
  · have hp := ha.types t ho hfile
    obtain ⟨hfile', hspan⟩ := ha.touches.type_eq hp
    rw [hspan]
    exact h.types t hp (hfile'.symm.trans hfile)

theorem BindsWell.addsNone (h : BindsWell pool f) (ha : AddsNone f g pool other)
    (hw : pool.WellFormed) (ht : pool.TypesSound) : BindsWell other f := by
  intro s name offset t hr
  have hr := ha.refers hr
  obtain ⟨ht₁, t', ht', h'⟩ := h _ _ _ _ hr
  refine ⟨ha.touches.hasType ht₁, t', ha.resolve hr t' ht', ?_⟩
  rwa [ha.touches.behind_iff ht₁, ha.touches.behind_iff (hw.resolve?_hasType ht ht')]

/-- Nothing is added to a file that is left alone, as are the files it imports. -/
theorem AddsNone.of_kept (h : Kept f pool other) (ht : Touches g pool other) (hw : pool.WellFormed)
    (hw' : other.WellFormed) (hf : pool.HasFile f)
    (hi : ∀ i ∈ (pool.file f).imports.values, Kept i.file pool other) :
    AddsNone f g pool other where
  touches := ht
  refers := h.refers_iff.mp
  resolve hr t hres := by
    obtain ⟨hs, hfile⟩ := hw.scope_of_refers hr
    exact ((h.sameView hi).resolve?_eq hw hw' hs hfile hf _).trans hres
  types t ho hfile := by
    cases t with
    | message b =>
      have hb := (h.blocks b).mp ⟨ho.1, hfile⟩
      exact ⟨hb.1, (h.block b hb) ▸ ho.2⟩
    | enum e => exact ((h.enums e).mp ⟨ho, hfile⟩).1

/-- A change outside the tree adds nothing. -/
theorem AddsNone.of_sameTree (h : SameTree pool other) (ht : Touches g pool other)
    (hblock : other.block = pool.block) (hfield : other.field = pool.field)
    (hresolve : ∀ {s name offset target}, Refers pool f s name offset target →
      ∀ t, pool.resolve? f s name = some t → other.resolve? f s name = some t) :
    AddsNone f g pool other where
  touches := ht
  refers := h.refers (fun b => ⟨by rw [hblock], by rw [hblock]⟩) hfield
  resolve := hresolve
  types _ ht _ := h.hasType ht

/-! ### The sweep -/

/-- Every bound reference was bound before, or denotes what a lookup finds. -/
theorem Binds.refers (h : Binds f pool other) (hw : pool.WellFormed) {s : Scope} {name : TypeName}
    {offset : Nat} {t : TypeId} (hr : Refers other f s name offset (some t)) :
    Refers pool f s name offset (some t) ∨
      pool.InRange s ∧ pool.scopeFile s = f ∧ pool.resolve? f s name = some t := by
  have hfieldOf := fun d => Swept.fieldOf_iff (.single h) (g := f) (d := d)
  have hblockOf := fun b => Swept.blockOf_iff (.single h) (g := f) (b := b)
  cases h with
  | @block b type t₀ there heading found =>
    cases hr with
    | @field d _ _ there' type' => exact .inl (.field ((hfieldOf d).mp there') type')
    | @extend b' _ _ there' heading' =>
      have there' := (hblockOf b').mp there'
      by_cases he : b = b'
      · subst he
        rw [block_modifyBlock, if_pos ⟨rfl, there.1⟩, Block.bind_of_unbound heading] at heading' ⊢
        cases heading'
        obtain ⟨hs, hfile⟩ := hw.block_scope b there.1
        exact .inr ⟨hs.inRange, hfile.trans there.2, found⟩
      · rw [block_modifyBlock, if_neg fun hb => he hb.1] at heading' ⊢
        exact .inl (.extend there' heading')
  | @field d name' t₀ there type found =>
    cases hr with
    | @field d' _ _ there' type' =>
      have there' := (hfieldOf d').mp there'
      by_cases he : d = d'
      · subst he
        rw [field_modifyField, if_pos ⟨rfl, there.1⟩, Field.bind_of_unbound type] at type' ⊢
        cases type'
        exact .inr ⟨there.2.1, there.2.2, found⟩
      · rw [field_modifyField, if_neg fun hd => he hd.1] at type' ⊢
        exact .inl (.field there' type')
    | @extend b' _ _ there' heading' => exact .inl (.extend ((hblockOf b').mp there') heading')

/-- A name that is bound late denotes just what a lookup finds. -/
theorem BindsWell.binds (h : BindsWell pool f) (hb : Binds f pool other) (hw : pool.WellFormed)
    (ht : pool.TypesSound) (hf : pool.HasFile f) : BindsWell other f := by
  intro s name offset t hr
  have hlookup : ∀ {s}, pool.InRange s → pool.scopeFile s = f →
      other.resolve? f s name = pool.resolve? f s name := fun hs hfile =>
    Swept.resolve?_eq (.single hb) hw hs hfile hf name
  rcases hb.refers hw hr with hr | ⟨hs, hfile, hres⟩
  · obtain ⟨ht₁, t', ht', h'⟩ := h _ _ _ _ hr
    obtain ⟨hs, hfile⟩ := hw.scope_of_refers hr
    refine ⟨hb.touches.hasType ht₁, t', (hlookup hs hfile).trans ht', ?_⟩
    rwa [hb.touches.behind_iff ht₁, hb.touches.behind_iff (hw.resolve?_hasType ht ht')]
  · have ht₁ := hb.touches.hasType (hw.resolve?_hasType ht hres)
    exact ⟨ht₁, t, (hlookup hs hfile).trans hres, .inl rfl⟩

theorem BindsWell.swept (h : BindsWell pool f) (hs : Swept f pool other) (hw : pool.WellFormed)
    (ht : pool.TypesSound) (hf : pool.HasFile f) : BindsWell other f := by
  induction hs with
  | refl => exact h
  | @tail b c hab hbc ih =>
    have hswept : Swept f pool b := hab
    refine ih.binds hbc (hswept.sameTree.wellFormed hw) ?_ (hswept.sameTree.files ▸ hf)
    exact ht.of_touches (hswept.touches hw) fun i => by rw [hswept.file_eq]

end Pool

namespace Session

variable {r : Resolver} {x y : State} {s : Session} {st : List Reading} {rd : Reading}

/-- What is so of the references of a session and of the files that are being read. -/
structure Bindings (x : State) : Prop where
  registered : ∀ f, x.1.Registered f → x.1.pool.BindsWell f
  reading : ∀ rd ∈ x.2, x.1.pool.ReadsWell rd.cursor.file (rd.rest.filterMap Event.anchor?)

/-- A change to a file that is not registered adds nothing to other files. -/
theorem Sound.addsNone (h : Sound (s, st)) {f g : FileId} {pool : Pool}
    (ht : Pool.Touches g s.pool pool) (hw : pool.WellFormed) (hg : ¬s.Registered g)
    (hf : s.pool.HasFile f) (hne : f ≠ g)
    (himports : ∀ target i, (s.pool.file f).imports.find? target = some i →
      s.registry.find? target = some i.file) : Pool.AddsNone f g s.pool pool := by
  refine .of_kept (ht.kept h.tree hf hne) ht h.tree hw hf fun i hi => ?_
  obtain ⟨e, he, rfl⟩ := List.mem_map.mp hi
  have hreg : s.Registered e.2.file := ⟨e.1, himports e.1 e.2 (Table.mem_entries_iff.mp he)⟩
  exact ht.kept h.tree (h.hasFile hreg) fun he => hg (he ▸ hreg)

/-- A change to a file that is not registered, with those files still being read that it leaves
alone. -/
theorem Bindings.change (h : Bindings (s, st)) (hx : Sound (s, st)) {g : FileId}
    {st' : List Reading} {pool : Pool} {warnings : List Warning} (hst : st'.Sublist st)
    (hg : ¬s.Registered g) (hne : ∀ rd ∈ st', rd.cursor.file ≠ g)
    (ht : Pool.Touches g s.pool pool) (hw : pool.WellFormed) :
    Bindings ({ s with pool, warnings }, st') where
  registered f hf := by
    refine (h.registered f hf).addsNone (hx.addsNone ht hw hg (hx.hasFile hf) ?_ ?_) hx.tree hx.types
    · exact fun e => hg (e ▸ hf)
    · exact fun target i => hx.imported hf
  reading rd hrd := by
    have hread := hx.reading rd (hst.mem hrd)
    have hnone := hx.addsNone ht hw hg hread.hasFile (hne rd hrd) hread.imports
    exact (h.reading rd (hst.mem hrd)).addsNone hnone hx.tree hx.types

theorem Bindings.cons (h : Bindings (s, st))
    (hrd : s.pool.ReadsWell rd.cursor.file (rd.rest.filterMap Event.anchor?)) :
    Bindings (s, rd :: st) :=
  ⟨h.registered, List.forall_mem_cons.mpr ⟨hrd, h.reading⟩⟩

/-- The places of the declarations that are still to be read go up. -/
theorem Reading.Sound.anchors (h : rd.Sound s) :
    (rd.rest.filterMap Event.anchor?).Pairwise (· < ·) := by
  have hall := Event.anchors_ofText rd.text
  rw [h.text, List.filterMap_append] at hall
  exact (List.pairwise_append.mp hall).2.1

/-- The references of a file after an event of it. -/
theorem readsWell_event (hx : Sound (s, rd :: st))
    (h : s.pool.ReadsWell rd.cursor.file (rd.rest.filterMap Event.anchor?)) {e : Event}
    {rest : List Event} {c : Cursor} {pool : Pool} {notice : Option Notice}
    (next : rd.rest = e :: rest) (applied : rd.cursor.apply s.pool e = .ok (c, pool, notice))
    (hw' : pool.WellFormed) : pool.ReadsWell c.file (rest.filterMap Event.anchor?) := by
  have hread := hx.reading rd (List.mem_cons_self ..)
  obtain ⟨ks, ks', hn, hf, heff, -⟩ := reading_event hread next applied
  have hsorted := hread.anchors
  rw [heff.file_eq]
  by_cases hp : ∃ name, e = .package name
  · -- nothing is declared yet
    obtain ⟨name, rfl⟩ := hp
    cases heff with
    | package first early =>
      obtain ⟨hb, he⟩ := hf.early early
      exact Pool.readsWell_of_empty hb he
  · have hsplit : rd.rest.filterMap Event.anchor? =
        e.anchor?.toList ++ rest.filterMap Event.anchor? := by
      rw [next, List.filterMap_cons]
      cases e.anchor? <;> rfl
    rw [hsplit] at h hsorted
    have hadds := heff.adds hn hf hx.tree fun name he => hp ⟨name, he⟩
    exact h.adds hadds hx.tree hw' hx.types hread.hasFile hsorted

/-- The references of a file after an import of it. -/
theorem readsWell_importFile (hx : Sound (s, rd :: st)) {target : String} {i : Import}
    {anchors : List Nat} (h : s.pool.ReadsWell rd.cursor.file anchors) :
    (s.recordImport rd.cursor.file target i).pool.ReadsWell rd.cursor.file anchors := by
  have hfile := (hx.reading rd (List.mem_cons_self ..)).hasFile
  refine h.addsNone (.of_sameTree (.modifyFile _ _ ?_) (.modifyFile _ fun _ => rfl) rfl rfl
    fun hr t ht => ?_) hx.tree hx.types
  · exact fun _ => ⟨rfl, rfl⟩
  · obtain ⟨hs, hsf⟩ := hx.tree.scope_of_refers hr
    exact hx.tree.resolve?_insertImport hs hsf hfile ht

/-- The references of a file when its checks begin. -/
theorem bindsWell_recordTypes (hx : Sound (s, rd :: st)) (h : s.pool.BindsWell rd.cursor.file) :
    (s.pool.recordTypes rd.cursor.file).BindsWell rd.cursor.file := by
  have hread := hx.reading rd (List.mem_cons_self ..)
  obtain ⟨hw', -, htouches⟩ := recordTypes_sound hx.tree hx.types rd.cursor.file
  have htree : Pool.SameTree s.pool (s.pool.recordTypes rd.cursor.file) := by
    refine .modifyFile _ _ ?_
    exact fun _ => ⟨rfl, rfl⟩
  refine h.addsNone (.of_sameTree htree htouches rfl rfl fun hr t ht => ?_) hx.tree hx.types
  obtain ⟨hs, hsf⟩ := hx.tree.scope_of_refers hr
  refine ((htree.sameView ?_ fun i hi => ?_).resolve?_eq hx.tree hw' hs hsf hread.hasFile _).trans ht
  · rw [Pool.recordTypes, Pool.file_modifyFile]
    split <;> rfl
  · -- no file imports itself
    obtain ⟨e, he, rfl⟩ := List.mem_map.mp hi
    have hreg := hread.imports e.1 e.2 (Table.mem_entries_iff.mp he)
    have hne : rd.cursor.file ≠ e.2.file := fun heq =>
      hx.not_registered (List.mem_cons_self ..) ⟨e.1, heq ▸ hreg⟩
    rw [Pool.recordTypes, Pool.file_modifyFile, if_neg fun h => hne h.1]

/-- The references of a file that passed its checks. -/
theorem bindsWell_complete (hx : Sound (s, rd :: st)) (h : s.pool.BindsWell rd.cursor.file)
    {pool : Pool} (hc : Pool.Checked rd.cursor.file (s.pool.recordTypes rd.cursor.file) pool) :
    pool.BindsWell rd.cursor.file := by
  obtain ⟨hw', ht', htouches⟩ := recordTypes_sound hx.tree hx.types rd.cursor.file
  have hfile := (htouches.file _ (hx.reading rd (List.mem_cons_self ..)).hasFile).1
  obtain ⟨swept, hswept, he⟩ := hc.swept
  have hb := (bindsWell_recordTypes hx h).swept hswept hw' ht' hfile
  have hw := hswept.sameTree.wellFormed hw'
  have ht := ht'.of_touches (hswept.touches hw') fun i => by rw [hswept.file_eq]
  rw [he]
  have htree : Pool.SameTree swept { swept with extensions := pool.extensions } := .setExtensions _
  have hnone : Pool.AddsNone rd.cursor.file rd.cursor.file swept
      { swept with extensions := pool.extensions } := by
    refine .of_sameTree htree (.setExtensions _) rfl rfl fun hr t ht => ?_
    obtain ⟨hs, hsf⟩ := hw.scope_of_refers hr
    refine ((htree.sameView rfl fun _ _ => rfl).resolve?_eq hw (htree.wellFormed hw) hs hsf ?_ _).trans ht
    exact hswept.sameTree.files ▸ hfile
  exact hb.addsNone hnone hw ht

/-- Every step keeps the invariant of references. -/
theorem Bindings.step (hx : Sound x) (h : Bindings x) (hs : Step r x y) : Bindings y := by
  have hy := hx.step hs
  cases hs with
  | @begin s st name file free fresh opened =>
    have hadded := Pool.fileAdded s.pool name file.path
    have htouches : Pool.Touches ⟨s.pool.files.size⟩ s.pool (s.begin name file).pool :=
      .of_fileAdded hadded
    refine Bindings.cons (h.change hx (.refl _) ?_ ?_ htouches hy.tree) ?_
    · exact fun hr => Pool.not_hasFile_size (hx.hasFile hr)
    · exact fun rd hrd e => Pool.not_hasFile_size (e ▸ (hx.reading rd hrd).hasFile)
    · obtain ⟨ks, ks', hf, -⟩ := (hy.reading _ (List.mem_cons_self ..)).fits
      obtain ⟨hb, he⟩ := hf.early rfl
      exact Pool.readsWell_of_empty hb he
  | @event s st rd e rest c pool notice next noImport applied =>
    have hread := hx.reading rd (List.mem_cons_self ..)
    obtain ⟨ks, ks', hn, hf, heff, -⟩ := reading_event hread next applied
    refine Bindings.cons (h.change hx (List.sublist_cons_self ..)
      (hx.not_registered (List.mem_cons_self ..)) (fun rd' => hx.file_ne) (heff.touches hn hf)
      hy.tree) ?_
    exact readsWell_event hx (h.reading rd (List.mem_cons_self ..)) next applied hy.tree
  | @importFile s st rd kind target rest id next found =>
    have hrd := h.reading rd (List.mem_cons_self ..)
    rw [next] at hrd
    refine Bindings.cons (h.change hx (List.sublist_cons_self ..)
      (hx.not_registered (List.mem_cons_self ..)) (fun rd' => hx.file_ne)
      (.modifyFile _ fun _ => rfl) hy.tree) ?_
    exact readsWell_importFile hx hrd
  | @complete s st rd pool finished noFault checked =>
    obtain ⟨hc, ht⟩ := hx.checked checked
    have hothers : Bindings ({ s with pool }, st) := h.change hx (List.sublist_cons_self ..)
      (hx.not_registered (List.mem_cons_self ..)) (fun rd' => hx.file_ne) ht hy.tree
    refine ⟨fun f hf => ?_, hothers.reading⟩
    rcases (registered_register (hx.distinct.free rd (List.mem_cons_self ..))).mp hf with hf | rfl
    · exact hothers.registered f hf
    · exact bindsWell_complete hx (h.reading rd (List.mem_cons_self ..)).bindsWell hc
  | @reject s st rd fault pool finished checked =>
    exact h.change hx (List.sublist_cons_self ..) (hx.not_registered (List.mem_cons_self ..))
      (fun rd' => hx.file_ne) (hx.swept checked).2 hy.tree
  | @abandon s st rd =>
    exact h.change hx (List.sublist_cons_self ..) (hx.not_registered (List.mem_cons_self ..))
      (fun rd' => hx.file_ne) (.refl _ _) hx.tree

theorem bindings_empty : Bindings ({}, []) where
  registered f hf := by
    obtain ⟨name, h⟩ := hf
    cases h
  reading rd hrd := by cases hrd

theorem Bindings.steps (hx : Sound x) (h : Bindings x) (hs : Steps r x y) : Bindings y := by
  induction hs with
  | refl => exact h
  | tail hsteps hstep ih => exact ih.step (hx.steps hsteps) hstep

end Session

end ProtoSchema

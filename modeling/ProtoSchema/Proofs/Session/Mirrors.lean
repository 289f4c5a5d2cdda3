import ProtoSchema.Proofs.Renaming.Outline
import ProtoSchema.Proofs.Session.Atomicity
import ProtoSchema.Proofs.Session.CopyChecks
import ProtoSchema.Proofs.Session.Listings

/-! # Sessions that mirror others

A session mirrors another one if each of its files writes what a file of the same name shows in print
(`Mirrors`).  Its files are copies then (`Mirrors.copies`).  A file that was read from such a print passes
its checks if the files that it imports are in the session, and the session mirrors the other one with it
as well (`Mirrors.complete`). -/

namespace ProtoSchema.Session

open Pool (Copies BoundCopies Kept Swept)

variable {r : Resolver} {x y : State} {s t : Session} {st : List Reading} {rd : Reading} {f g : FileId}
  {pool : Pool}

/-! ### What is known of files -/

/-- What is known of the registered files of a session. -/
structure Consistent (s : Session) : Prop where
  tree : s.pool.WellFormed
  named : ∀ name f, s.registry.find? name = some f → s.pool.HasFile f ∧ (s.pool.file f).name = name
  imported : ∀ f, s.Registered f → ∀ target i,
    (s.pool.file f).imports.find? target = some i → s.registry.find? target = some i.file
  lists : ∀ f, s.Registered f → s.pool.ListsTypes f
  grounded : ∀ f, s.Registered f → s.pool.Grounded f
  absolutes : ∀ f, s.Registered f → s.pool.BindsAbsolutes f

/-- The invariants of a session and of the files that are being read. -/
structure Established (x : State) : Prop where
  regular : Regular x
  listings : Listings x
  absolutes : Absolutes x
  filled : Filled x

theorem established_empty : Established ({}, []) :=
  ⟨regular_empty, listings_empty, absolutes_empty, filled_empty⟩

theorem Established.steps (h : Established x) (hs : Steps r x y) : Established y where
  regular := h.regular.steps hs
  listings := h.listings.steps h.regular.sound hs
  absolutes := h.absolutes.steps h.regular.sound hs
  filled := h.filled.steps h.regular.sound hs

theorem Established.consistent (h : Established (s, st)) : Consistent s where
  tree := h.regular.sound.tree
  named := h.regular.sound.named
  imported _ hf _ _ hi := h.regular.sound.imported hf hi
  lists := h.listings
  grounded := h.regular.grounds.registered
  absolutes := h.absolutes.registered

/-- Registered files stand behind those that they import. -/
theorem Sound.exists_rank (hx : Sound x) : ∃ rank : FileId → Nat, ∀ f, x.1.Registered f →
    ∀ i ∈ (x.1.pool.file f).imports.values, rank i.file < rank f := by
  refine ⟨fun f => x.1.registry.entries.findIdx fun e => decide (e.2 = f), fun f hf i hi => ?_⟩
  obtain ⟨name, hname⟩ := hf
  obtain ⟨target, htarget⟩ := Table.mem_values_iff.mp hi
  have hlt : x.1.registry.entries.findIdx (fun e => decide (e.2 = f)) < x.1.registry.entries.length :=
    List.findIdx_lt_length_of_exists ⟨_, Table.mem_entries_iff.mpr hname, decide_eq_true rfl⟩
  have hat := of_decide_eq_true (List.findIdx_getElem (w := hlt))
  obtain ⟨j, hj, hfound⟩ := hx.ordered _ _ f
    (List.getElem?_eq_some_iff.mpr ⟨hlt, Prod.ext rfl hat⟩) target i htarget
  obtain ⟨hjlt, hjat⟩ := List.getElem?_eq_some_iff.mp hfound
  refine Nat.lt_of_le_of_lt (Nat.le_of_not_lt fun hbefore => ?_) hj
  have hnot := List.not_of_lt_findIdx hbefore
  rw [hjat] at hnot
  simp at hnot

/-! ### A file behind the others -/

/-- Nothing happens to registered files while the file that is being read is swept. -/
theorem Sound.kept_swept (hx : Sound (t, rd :: st))
    (hs : Swept rd.cursor.file (t.pool.recordTypes rd.cursor.file) pool) :
    Pool.Touches rd.cursor.file t.pool pool ∧ ∀ f, t.Registered f → Kept f t.pool pool := by
  obtain ⟨hw, -, htouches⟩ := recordTypes_sound hx.tree hx.types rd.cursor.file
  have ht := htouches.trans hx.tree (hs.touches hw)
  exact ⟨ht, fun f hf => ht.kept hx.tree (hx.hasFile hf) fun he =>
    hx.not_registered (List.mem_cons_self ..) (he ▸ hf)⟩

/-- What is known of the files when another one is put behind them during its sweep. -/
theorem Established.candidate (h : Established (t, rd :: st))
    (hs : Swept rd.cursor.file (t.pool.recordTypes rd.cursor.file) pool) :
    Consistent (t.register pool rd.name rd.cursor.file) := by
  have hx := h.regular.sound
  have hread := hx.reading rd (List.mem_cons_self ..)
  have hfree := hx.distinct.free rd (List.mem_cons_self ..)
  obtain ⟨hw, htypes, htouches⟩ := recordTypes_sound hx.tree hx.types rd.cursor.file
  have hf := (htouches.file _ hread.hasFile).1
  have hw' := hs.sameTree.wellFormed hw
  obtain ⟨ht, hkept⟩ := hx.kept_swept hs
  have hold : ∀ {f}, t.Registered f → ∀ i ∈ (t.pool.file f).imports.values, Kept i.file t.pool pool :=
    fun hf i hi => hkept _ (hx.registered_import hf hi)
  have himports : Pool.KeepsImports t.pool pool := fun i k hk => by
    rwa [hs.file_eq, Pool.imports_recordTypes]
  obtain ⟨hgrounded, hgrounds⟩ := h.regular.grounds.recordTypes hx
  have hcases : ∀ {P : FileId → Prop}, (∀ f, t.Registered f → P f) → P rd.cursor.file →
      ∀ f, (t.register pool rd.name rd.cursor.file).Registered f → P f := by
    intro P hP hnew f hf
    rcases (registered_register hfree).mp hf with hf | rfl
    · exact hP f hf
    · exact hnew
  constructor
  · exact hw'
  · intro name f hfind
    rw [register, Table.find?_insert, Option.or_eq_some_iff] at hfind
    rcases hfind with hfind | ⟨-, hfind⟩
    · obtain ⟨hthere, hname⟩ := hx.named name f hfind
      exact ⟨(ht.file f hthere).1, (ht.file f hthere).2.1.trans hname⟩
    · split at hfind
      · next he =>
        cases hfind
        obtain ⟨hthere, hname, -⟩ := ht.file _ hread.hasFile
        exact ⟨hthere, hname.trans (hread.name.trans he.symm)⟩
      · cases hfind
  · have hinsert : ∀ {target i}, t.registry.find? target = some i →
        (t.register pool rd.name rd.cursor.file).registry.find? target = some i := fun hfind => by
      rw [register, Table.find?_insert, hfind]
      rfl
    refine hcases (fun f hf target i hi => hinsert ?_) fun target i hi => hinsert ?_
    · rw [register, (hkept f hf).file] at hi
      exact hx.imported hf hi
    · rw [register, hs.file_eq, Pool.imports_recordTypes] at hi
      exact hread.imports target i hi
  · refine hcases (fun f hf => (h.listings f hf).of_kept hx.tree (hx.hasFile hf) (hkept f hf)
      (hold hf)) ?_
    exact (hread.listsTypes hx.tree (hx.not_registered (List.mem_cons_self ..))).of_sameTree hw hf
      hs.sameTree hs.file_eq
  · refine hcases (fun f hf => (h.regular.grounds.registered f hf).of_kept (hkept f hf) ht himports) ?_
    exact hgrounded.swept hs hw htypes hf hgrounds
  · refine hcases (fun f hf => (h.absolutes.registered f hf).of_kept hx.tree hw' (hkept f hf) ht
      (hold hf)) ?_
    exact (h.absolutes.recordTypes hx).swept hs hw

/-! ### Mirrors -/

/-- Every file of the session `t` writes what a file of the same name of `s` shows in print. -/
structure Mirrors (s t : Session) : Prop where
  files : ∀ name g, t.registry.find? name = some g → ∃ f, s.registry.find? name = some f ∧
    s.pool.outline (.asPrinted s.pool) f = t.pool.outline .asWritten g

/-- The files have one name. -/
def Namesakes (s t : Session) (f g : FileId) : Prop :=
  ∃ name, s.registry.find? name = some f ∧ t.registry.find? name = some g

theorem Namesakes.registered (h : Namesakes s t f g) : s.Registered f ∧ t.Registered g := by
  obtain ⟨name, hf, hg⟩ := h
  exact ⟨⟨name, hf⟩, name, hg⟩

theorem mirrors_empty (s : Session) : Mirrors s {} := ⟨fun _ _ h => by cases h⟩

namespace Mirrors

variable (h : Mirrors s t)
include h

theorem outline (hfg : Namesakes s t f g) :
    s.pool.outline (.asPrinted s.pool) f = t.pool.outline .asWritten g := by
  obtain ⟨name, hf, hg⟩ := hfg
  obtain ⟨f', hf', he⟩ := h.files name g hg
  cases hf.symm.trans hf'
  exact he

/-- Registered files with one name import files with one name. -/
theorem imports (hs : Consistent s) (ht : Consistent t) (hfg : Namesakes s t f g) :
    List.Forall₂ (fun i j => i.kind = j.kind ∧ Namesakes s t i.file j.file)
      (s.pool.file f).imports.values (t.pool.file g).imports.values := by
  have hentries := congrArg FileOutline.imports (h.outline hfg)
  rw [Table.values, Table.values, List.forall₂_map_left_iff, List.forall₂_map_right_iff]
  refine forall₂_imp_of_mem (map_eq_map_iff.mp hentries) fun i hi j hj he => ?_
  obtain ⟨n, i⟩ := i
  obtain ⟨n', j⟩ := j
  obtain ⟨rfl, hkind⟩ := Prod.mk.inj he
  exact ⟨hkind, n, hs.imported f hfg.registered.1 n i (Table.mem_entries_iff.mp hi),
    ht.imported g hfg.registered.2 n j (Table.mem_entries_iff.mp hj)⟩

/-- The files of the mirror are copies. -/
theorem copies (hs : Consistent s) (ht : Consistent t) (hrank : ∃ rank : FileId → Nat,
    ∀ f, s.Registered f → ∀ i ∈ (s.pool.file f).imports.values, rank i.file < rank f) :
    Copies (Namesakes s t) s.pool t.pool where
  left := hs.tree
  right := ht.tree
  name := by
    rintro f g ⟨name, hf, hg⟩
    rw [(hs.named name f hf).2, (ht.named name g hg).2]
  unique := by
    rintro f g f' g' ⟨name, hf, hg⟩ ⟨name', hf', hg'⟩ he
    rw [(hs.named name f hf).2, (hs.named name' f' hf').2] at he
    subst he
    exact ⟨Option.some.inj (hf.symm.trans hf'), Option.some.inj (hg.symm.trans hg')⟩
  outline := h.outline
  imports := h.imports hs ht
  lists hfg := ⟨hs.lists _ hfg.registered.1, ht.lists _ hfg.registered.2⟩
  grounded hfg := ⟨hs.grounded _ hfg.registered.1, ht.grounded _ hfg.registered.2⟩
  acyclic := hrank.imp fun _ h _ _ hfg => h _ hfg.registered.1

theorem boundCopies (hs : Established (s, [])) (ht : Consistent t)
    (hbound : ∀ g, t.Registered g → t.pool.AllBound g)
    (hun : ∀ f, s.Registered f → s.pool.Unrivalled f) : BoundCopies (Namesakes s t) s.pool t.pool where
  copies := h.copies hs.consistent ht hs.regular.sound.exists_rank
  unrivalled hfg := hun _ hfg.registered.1
  absolutes hfg := ht.absolutes _ hfg.registered.2
  bound hfg := ⟨hs.regular.numbered.bound _ hfg.registered.1, hbound _ hfg.registered.2⟩

/-- A file that writes what its namesake shows can be put behind the other files. -/
theorem register (ht : t.pool.WellFormed) (hfiles : ∀ g, t.Registered g → t.pool.HasFile g)
    (hw : pool.WellFormed) (hkept : ∀ g, t.Registered g → Kept g t.pool pool) {name : String}
    (hf : s.registry.find? name = some f)
    (houtline : s.pool.outline (.asPrinted s.pool) f = pool.outline .asWritten g) :
    Mirrors s (t.register pool name g) := by
  refine ⟨fun n g' hfind => ?_⟩
  rw [Session.register, Table.find?_insert, Option.or_eq_some_iff] at hfind
  rcases hfind with hfind | ⟨-, hfind⟩
  · obtain ⟨f', hf', he⟩ := h.files n g' hfind
    exact ⟨f', hf', he.trans ((hkept g' ⟨n, hfind⟩).outline ht hw (hfiles g' ⟨n, hfind⟩)).symm⟩
  · split at hfind
    · next he =>
      cases hfind
      exact ⟨f, he ▸ hf, houtline⟩
    · cases hfind

section complete

variable (hs : Established (s, [])) (hun : ∀ f, s.Registered f → s.pool.Unrivalled f)
  (ht : Established (t, rd :: st)) (hf : s.registry.find? rd.name = some f)
  (houtline : s.pool.outline (.asPrinted s.pool) f = t.pool.outline .asWritten rd.cursor.file)
include ht hf

omit h in
theorem namesakes_register (pool : Pool) :
    Namesakes s (t.register pool rd.name rd.cursor.file) f rd.cursor.file := by
  refine ⟨rd.name, hf, ?_⟩
  rw [Session.register, Table.find?_insert, if_pos rfl,
    ht.regular.sound.distinct.free rd (List.mem_cons_self ..)]
  rfl

include houtline

/-- During its sweep a file writes what its namesake shows. -/
theorem candidate (hswept : Swept rd.cursor.file (t.pool.recordTypes rd.cursor.file) pool) :
    Mirrors s (t.register pool rd.name rd.cursor.file) := by
  have hx := ht.regular.sound
  have hthere := (hx.reading rd (List.mem_cons_self ..)).hasFile
  obtain ⟨hw, -, htouches⟩ := recordTypes_sound hx.tree hx.types rd.cursor.file
  refine h.register hx.tree (fun g => hx.hasFile) (hswept.sameTree.wellFormed hw)
    (hx.kept_swept hswept).2 hf ?_
  rw [houtline, hswept.outline hw (htouches.file _ hthere).1, Pool.outline_recordTypes hx.tree hthere]

include hs

/-- The names of a file that writes what its namesake shows denote something. -/
theorem resolves : (t.pool.recordTypes rd.cursor.file).Resolves rd.cursor.file := by
  have hcopies := (h.candidate ht hf houtline .refl).copies hs.consistent (ht.candidate .refl)
    hs.regular.sound.exists_rank
  have hR := namesakes_register ht hf (t.pool.recordTypes rd.cursor.file)
  refine ⟨fun {scope name offset} hr => ?_⟩
  obtain ⟨_, _, _, target, hr', he⟩ := Pool.exists_refers hcopies.left hcopies.right
    (hcopies.outline hR) hr
  obtain ⟨u, rfl⟩ := (hs.regular.numbered.bound f ⟨_, hf⟩).exists_target hr'
  obtain ⟨hu, hv⟩ := (hs.regular.grounds.registered f ⟨_, hf⟩).bound hr'
  obtain ⟨u', hu'⟩ := hcopies.exists_leadsTo hR hu hv
  obtain ⟨v, hfound⟩ := hcopies.exists_resolve? hR hu' (s := scope)
  have he : (⟨true, s.pool.typeName u⟩ : TypeName) = name := he
  exact ⟨v, he ▸ hfound⟩

include hun

/-- Nothing speaks against a file behind its sweep if nothing spoke against its namesake. -/
theorem admissible (hswept : Swept rd.cursor.file (t.pool.recordTypes rd.cursor.file) pool)
    (hbound : pool.AllBound rd.cursor.file) : pool.Admissible rd.cursor.file := by
  have hx := ht.regular.sound
  have hthere := (hx.reading rd (List.mem_cons_self ..)).hasFile
  have hkept := (hx.kept_swept hswept).2
  have hall : ∀ g, (t.register pool rd.name rd.cursor.file).Registered g → pool.AllBound g := by
    intro g hg
    rcases (registered_register (hx.distinct.free rd (List.mem_cons_self ..))).mp hg with hg | rfl
    · exact (hkept g hg).allBound (ht.regular.numbered.bound g hg)
    · exact hbound
  have hcopies := (h.candidate ht hf houtline hswept).boundCopies hs (ht.candidate hswept) hall hun
  refine hcopies.admissible
    (fun hfg => passes_of_registered hs.regular.numbered hs.filled hfg.registered.1)
    (namesakes_register ht hf pool) ((hx.kept_swept hswept).1.file _ hthere).1 fun m n e he => ?_
  -- a number in use belongs to a file that was registered
  have he : t.pool.extensions.find? (m, n) = some e := hswept.extensions_eq ▸ he
  obtain ⟨g, ⟨name, hname⟩, hthere, hext⟩ := (ht.regular.numbered.inUse m n e).mp he
  obtain ⟨f', hf', -⟩ := h.files name g hname
  refine ⟨f', g, ⟨name, hf', ?_⟩, fun heq => ?_, ((hkept g ⟨name, hname⟩).fields e).mpr hthere,
    ((hkept g ⟨name, hname⟩).extends_iff hthere).mpr hext⟩
  · rw [Session.register, Table.find?_insert, hname]
    rfl
  · exact hx.not_registered (List.mem_cons_self ..) ⟨name, heq ▸ hname⟩

/-- A file that writes what its namesake shows passes its checks, and behind them the session mirrors
the other one with it. -/
theorem complete :
    ∃ pool, Pool.checkFile rd.cursor.file (t.pool.recordTypes rd.cursor.file) = .ok () pool ∧
      Mirrors s (t.register pool rd.name rd.cursor.file) := by
  have hx := ht.regular.sound
  have hthere := (hx.reading rd (List.mem_cons_self ..)).hasFile
  obtain ⟨hw, -, htouches⟩ := recordTypes_sound hx.tree hx.types rd.cursor.file
  obtain ⟨pool, checked⟩ := Pool.checkFile_of_admissible hw (htouches.file _ hthere).1
    (h.resolves hs ht hf houtline) fun swept => h.admissible hs hun ht hf houtline
  obtain ⟨hc, htouches'⟩ := hx.checked checked
  have hnot := hx.not_registered (List.mem_cons_self ..)
  refine ⟨pool, checked, h.register hx.tree (fun g => hx.hasFile) (hc.sameTree.wellFormed hw)
    (fun g hg => htouches'.kept hx.tree (hx.hasFile hg) fun he => hnot (he ▸ hg)) hf ?_⟩
  rw [houtline, hc.outline hx.tree hthere]

end complete

end Mirrors

end ProtoSchema.Session

import ProtoSchema.Proofs.Session.Twins

/-! # Reading a file again

A file that was read in one session is read in another one, with its imports served there.  The events
that were applied in the first session are applied in the second one too, one by one, and the file
matches behind each (`Traced.replay`). -/

namespace ProtoSchema

namespace Pool

variable {pool other : Pool} {ρ σ : Renaming} {f : FileId} {c : Cursor} {ks : OpenBlocks}

theorem cursor_congr (h : AgreeOn (· = c.file) pool ρ σ) (hf : c.Fits pool ks) :
    σ.cursor c = ρ.cursor c := by
  have hscope : σ.scope c.scope = ρ.scope c.scope := by
    cases hs : c.scope with
    | file i => exact congrArg Scope.file (h.file i (hf.scope_file hs))
    | block b => exact congrArg Scope.block (h.block b (hf.scope_block hs).1 (hf.scope_block hs).2)
  have henum : c.openEnum.map σ.enum = c.openEnum.map ρ.enum := by
    cases ho : c.openEnum with
    | none => rfl
    | some e => exact congrArg some (h.enum e (hf.enumOf ho).1 (hf.enumOf ho).2)
  simp only [Renaming.cursor, h.file _ rfl, hscope, henum]

end Pool

namespace Session

open Pool (Matches Kept AgreeOn OnlyAt SameOutcome)

variable {r : Resolver} {x s s' t t' t'' : Session} {st : List Reading} {rd : Reading}
  {ρ σ τ : Renaming} {f g i j : FileId} {load : String → SessionM FileId}

/-! ### Sessions that go on -/

/-- The session `t` went on to `t'`: it has read some more files of `x`, and only at these the renaming
has changed. -/
structure Grows (x t t' : Session) (ρ σ : Renaming) : Prop where
  registry : ∀ name g, t.registry.find? name = some g → t'.registry.find? name = some g
  kept : ∀ g, t.pool.HasFile g → t'.pool.HasFile g ∧ Kept g t.pool t'.pool
  agree : AgreeOn (fun i => Known x t' i → Known x t i) x.pool ρ σ

/-- The session `t` went on to `t'` while the file `f` of `x` was read. -/
structure GrowsAt (f : FileId) (x t t' : Session) (ρ σ : Renaming) : Prop where
  registry : ∀ name g, t.registry.find? name = some g → t'.registry.find? name = some g
  kept : ∀ g, t.pool.HasFile g → g ≠ σ.file f → t'.pool.HasFile g ∧ Kept g t.pool t'.pool
  agree : AgreeOn (fun i => i ≠ f ∧ (Known x t' i → Known x t i)) x.pool ρ σ

theorem Known.mono (h : Known x t i)
    (hr : ∀ name g, t.registry.find? name = some g → t'.registry.find? name = some g) :
    Known x t' i := by
  obtain ⟨name, hi, g, hg⟩ := h
  exact ⟨name, hi, g, hr name g hg⟩

theorem Grows.refl (x t : Session) (ρ : Renaming) : Grows x t t ρ ρ :=
  ⟨fun _ _ h => h, fun _ h => ⟨h, .refl _ _⟩, .refl _ _ _⟩

theorem Grows.at (h : Grows x t t' ρ σ) (f : FileId) : GrowsAt f x t t' ρ σ :=
  ⟨h.registry, fun g hg _ => h.kept g hg, h.agree.mono fun _ hi => hi.2⟩

theorem GrowsAt.trans (h : GrowsAt f x t t' ρ σ) (h' : GrowsAt f x t' t'' σ τ)
    (hf : τ.file f = σ.file f) : GrowsAt f x t t'' ρ τ where
  registry name g hg := h'.registry name g (h.registry name g hg)
  kept g hg hne := by
    obtain ⟨hg', hk⟩ := h.kept g hg (hf ▸ hne)
    obtain ⟨hg'', hk'⟩ := h'.kept g hg' hne
    exact ⟨hg'', hk.trans hk'⟩
  agree := by
    refine (h.agree.mono fun i hi => ⟨hi.1, fun hk => ?_⟩).trans
      (h'.agree.mono fun i hi => ⟨hi.1, fun hk => ?_⟩)
    · exact hi.2 (hk.mono h'.registry)
    · exact (hi.2 hk).mono h.registry

/-- Places of a file in an earlier session are places of it. -/
theorem OnlyAt.agreeOn (h : OnlyAt f s.pool ρ σ) (hs : Since s x) :
    AgreeOn (fun i => i ≠ f) x.pool ρ σ where
  file i _ := congrFun h.file i
  block b _ hf := h.block b fun hb => hf (hs.block f b hb).2
  enum e _ hf := h.enum e fun he => hf (hs.enum f e he).2
  field d _ hf := h.field d fun hd => hf (hs.field f d hd).2.2

theorem agreeOn_earlier {K K' : FileId → Prop} (h : AgreeOn K x.pool ρ σ) (hs : Since s x)
    (hw : s.pool.WellFormed) (hK : ∀ i, K' i → K i) : AgreeOn K' s.pool ρ σ where
  file i hi := h.file i (hK i hi)
  block b hb hf := by
    have := hs.block _ b ⟨hb, rfl⟩
    exact h.block b this.1 (this.2 ▸ hK _ hf)
  enum e he hf := by
    have := hs.enum _ e ⟨he, rfl⟩
    exact h.enum e this.1 (this.2 ▸ hK _ hf)
  field d hd hf := by
    have := hs.field _ d ⟨hd, hw.field_block d hd, rfl⟩
    exact h.field d this.1 (this.2.2 ▸ hK _ hf)

namespace Pairs

/-- A file is begun in both sessions. -/
theorem start (hx : Regular (x, [])) (hs : Regular (s, [])) {name : String} {file : SourceFile}
    (free : s.registry.find? name = none) (opened : r.openFile name = .ok file)
    (hsince : Since (s.begin name file) x) (ht : Twin x ρ t) (hr : Regular (t, st))
    (free' : t.registry.find? name = none) (fresh : ∀ rd ∈ st, rd.name ≠ name) :
    ∃ σ, Pairs x (s.begin name file) (t.begin name file) σ
        (.start ⟨s.pool.files.size⟩ name file.text) st ∧
      σ.file ⟨s.pool.files.size⟩ = ⟨t.pool.files.size⟩ ∧
      GrowsAt ⟨s.pool.files.size⟩ x t (t.begin name file) ρ σ := by
  have hadded := Pool.fileAdded s.pool name file.path
  have hadded' := Pool.fileAdded t.pool name file.path
  have hleft := hs.step (.begin free (by simp) opened)
  have hright := hr.step (.begin free' fresh opened)
  let σ : Renaming := { ρ with
    file := fun i => if i = ⟨s.pool.files.size⟩ then ⟨t.pool.files.size⟩ else ρ.file i }
  have hnew : σ.file ⟨s.pool.files.size⟩ = ⟨t.pool.files.size⟩ := if_pos rfl
  have hagree : AgreeOn (fun i => i ≠ ⟨s.pool.files.size⟩) x.pool ρ σ :=
    ⟨fun i hi => if_neg hi, fun _ _ _ => rfl, fun _ _ _ => rfl, fun _ _ _ => rfl⟩
  have hkept : ∀ g, t.pool.HasFile g → Kept g t.pool (t.begin name file).pool := fun g hg =>
    (Pool.Touches.of_fileAdded (g := ⟨t.pool.files.size⟩) hadded').kept hr.sound.tree hg
      fun e => Pool.not_hasFile_size (e ▸ hg)
  have hrename : (Reading.start ⟨s.pool.files.size⟩ name file.text).rename σ =
      .start ⟨t.pool.files.size⟩ name file.text := by
    simp only [Reading.rename, Reading.start, Renaming.cursor, Cursor.start, Renaming.scope, hnew]
    rfl
  have hnotKnown : ¬Known x t ⟨s.pool.files.size⟩ := by
    refine Session.not_known hx ?_ free'
    exact (hsince.file _ ((hadded.files _).mpr (.inr rfl))).2.trans
      (congrArg File.name hadded.file_new)
  refine ⟨σ, ⟨hsince, hrename ▸ hright, ?_, ?_⟩, hnew, ⟨fun _ _ h => h, fun g hg _ => ⟨?_, hkept g hg⟩,
    hagree.mono fun _ hi => hi.1⟩⟩
  · refine ht.change hx (hright.sublist (List.nil_sublist _)) rfl (fun g hg => ?_)
      (hagree.mono fun i hi e => hnotKnown (e ▸ hi))
    exact hkept g (hr.sound.hasFile hg)
  · obtain ⟨ks, ks', hf, -⟩ := (hleft.sound.reading _ (List.mem_cons_self ..)).fits
    obtain ⟨hb, he⟩ := hf.early rfl
    obtain ⟨ks, ks', hf', -⟩ := (hright.sound.reading _ (List.mem_cons_self ..)).fits
    obtain ⟨hb', he'⟩ := hf'.early rfl
    have hfield : ∀ d, ¬(s.begin name file).pool.FieldOf ⟨s.pool.files.size⟩ d := fun d hd =>
      hb _ hd.2
    have hfield' : ∀ d, ¬(t.begin name file).pool.FieldOf ⟨t.pool.files.size⟩ d := fun d hd =>
      hb' _ hd.2
    refine ⟨?_, fun b => ?_, fun e => ?_, fun d => ?_, fun b h => absurd h (hb b),
      fun e h => absurd h (he e), fun d h => absurd h (hfield d), fun b _ h => absurd h (hb b),
      fun e _ h => absurd h (he e), fun d _ h => absurd h (hfield d)⟩
    · show (t.begin name file).pool.file (σ.file ⟨s.pool.files.size⟩) = _
      rw [hnew]
      refine hadded'.file_new.trans ?_
      exact (congrArg σ.onFile hadded.file_new).symm
    · show (t.begin name file).pool.BlockOf (σ.file ⟨s.pool.files.size⟩) b ↔ _
      rw [hnew]
      exact iff_of_false (hb' b) fun h => h.elim fun a ha => hb a ha.1
    · show (t.begin name file).pool.EnumOf (σ.file ⟨s.pool.files.size⟩) e ↔ _
      rw [hnew]
      exact iff_of_false (he' e) fun h => h.elim fun a ha => he a ha.1
    · show (t.begin name file).pool.FieldOf (σ.file ⟨s.pool.files.size⟩) d ↔ _
      rw [hnew]
      exact iff_of_false (hfield' d) fun h => h.elim fun a ha => hfield a ha.1
  · exact (hadded'.files g).mpr (.inl hg)

section

variable (h : Pairs x s t ρ rd st) (hs : Regular (s, [rd])) (hx : Regular (x, []))
include h hs hx

/-- An event is applied in both sessions. -/
theorem event (r : Resolver) {e : Event} {rest : List Event} {c : Cursor} {pool : Pool}
    {notice : Option Notice} (next : rd.rest = e :: rest)
    (noImport : ∀ kind target, e ≠ .importFile kind target)
    (applied : rd.cursor.apply s.pool e = .ok (c, pool, notice))
    (hsince : Since (s.declare rd.name pool notice) x) :
    ∃ σ pool', (ρ.cursor rd.cursor).apply t.pool e = .ok (σ.cursor c, pool', notice) ∧
      Pairs x (s.declare rd.name pool notice) (t.declare rd.name pool' notice) σ
        (rd.advance c e rest) st ∧
      GrowsAt rd.cursor.file x t (t.declare rd.name pool' notice) ρ σ ∧
      σ.file rd.cursor.file = ρ.file rd.cursor.file := by
  have houtcome := h.apply hs next
  rw [applied] at houtcome
  generalize happly : (ρ.cursor rd.cursor).apply t.pool e = result at houtcome
  cases houtcome with
  | @ok σ _ _ pool' _ only matched =>
    have hfile : c.file = rd.cursor.file := (Cursor.effect_of_apply applied).file_eq
    have hright : Regular (t.declare rd.name pool' notice, (rd.advance c e rest).rename σ :: st) :=
      h.right.step (.event (r := r) next noImport happly)
    obtain ⟨ks, ks', hn, hf, heff, -⟩ := reading_event h.reading next happly
    have htouches : Pool.Touches (ρ.file rd.cursor.file) t.pool pool' := heff.touches hn hf
    have hkept : ∀ g, t.pool.HasFile g → g ≠ ρ.file rd.cursor.file →
        pool'.HasFile g ∧ Kept g t.pool pool' :=
      fun g hg hne => ⟨(htouches.file g hg).1, htouches.kept h.right.sound.tree hg hne⟩
    have hσ : σ.file rd.cursor.file = ρ.file rd.cursor.file := congrFun only.file _
    have hagree : AgreeOn (fun i => i ≠ rd.cursor.file) x.pool ρ σ :=
      OnlyAt.agreeOn (s := s.declare rd.name pool notice) only hsince
    refine ⟨σ, pool', rfl, ⟨hsince, hright, ?_, ?_⟩, ⟨fun _ _ h => h, fun g hg hne => ?_,
      hagree.mono fun _ hi => hi.1⟩, hσ⟩
    · refine h.twin.change hx (hright.sublist (List.nil_sublist _)) rfl (fun g hg => ?_)
        (hagree.mono fun i hi e => h.not_known hs hx (e ▸ hi))
      refine (hkept g (h.right.sound.hasFile hg) fun e => ?_).2
      subst e
      exact h.right.sound.not_registered (List.mem_cons_self ..) hg
    · show Matches σ c.file _ _
      rw [hfile]
      exact matched
    · exact hkept g hg (hσ ▸ hne)

/-- An import is recorded in both sessions. -/
theorem importFile (r : Resolver) {kind : ImportKind} {target : Located String}
    {rest : List Event} {id id' : FileId} (next : rd.rest = .importFile kind target :: rest)
    (found : s.registry.find? target.value = some id)
    (found' : t.registry.find? target.value = some id')
    (hsince : Since (s.recordImport rd.cursor.file target.value ⟨id, kind⟩) x) :
    Pairs x (s.recordImport rd.cursor.file target.value ⟨id, kind⟩)
        (t.recordImport (ρ.file rd.cursor.file) target.value ⟨id', kind⟩) ρ
        (rd.advance rd.cursor (.importFile kind target) rest) st ∧
      GrowsAt rd.cursor.file x t
        (t.recordImport (ρ.file rd.cursor.file) target.value ⟨id', kind⟩) ρ ρ := by
  obtain ⟨_, hid, rfl, -⟩ := h.twin.files _ _ found'
  cases (h.since.registry _ _ found).symm.trans hid
  have hright := h.right.step (.importFile (r := r) next found')
  have htouches : Pool.Touches (ρ.file rd.cursor.file) t.pool
      (t.recordImport (ρ.file rd.cursor.file) target.value ⟨ρ.file id, kind⟩).pool :=
    .modifyFile _ fun _ => rfl
  have hkept : ∀ g, t.pool.HasFile g → g ≠ ρ.file rd.cursor.file → _ ∧ Kept g t.pool _ :=
    fun g hg hne => ⟨(htouches.file g hg).1, htouches.kept h.right.sound.tree hg hne⟩
  refine ⟨⟨hsince, hright, ?_, ?_⟩, ⟨fun _ _ h => h, hkept, .refl _ _ _⟩⟩
  · refine h.twin.change hx (hright.sublist (List.nil_sublist _)) rfl (fun g hg => ?_) (.refl _ _ _)
    refine (hkept g (h.right.sound.hasFile hg) fun e => ?_).2
    subst e
    exact h.right.sound.not_registered (List.mem_cons_self ..) hg
  · refine h.matched.modifyFile (hs.sound.reading _ (List.mem_cons_self ..)).hasFile
      h.reading.hasFile ?_
    simp only [Renaming.onFile, Table.map_insert]
    rfl

/-- The second session went on to read other files. -/
theorem grow (ht : Twin x σ t') (hr : Regular (t', rd.rename ρ :: st)) (hg : Grows x t t' ρ σ) :
    Pairs x s t' σ rd st ∧ σ.cursor rd.cursor = ρ.cursor rd.cursor := by
  have hread := hs.sound.reading _ (List.mem_cons_self ..)
  have hunknown : ¬Known x t' rd.cursor.file := by
    refine Session.not_known hx ((h.since.file _ hread.hasFile).2.trans hread.name) ?_
    exact hr.sound.distinct.free (rd.rename ρ) (List.mem_cons_self ..)
  have hagree : AgreeOn (s.pool.Reaches rd.cursor.file) s.pool ρ σ := by
    refine agreeOn_earlier hg.agree h.since hs.sound.tree fun i hi hk => ?_
    rcases h.of_reaches hs hi with rfl | ⟨-, name, hname, hname', -⟩
    · exact absurd hk hunknown
    · exact ⟨name, hname, _, hname'⟩
  obtain ⟨ks, ks', hf, -⟩ := hread.fits
  have hcursor : σ.cursor rd.cursor = ρ.cursor rd.cursor :=
    Pool.cursor_congr (hagree.mono fun i hi => .of_eq hi) hf
  refine ⟨⟨h.since, ?_, ht, ?_⟩, hcursor⟩
  · rw [Reading.rename, hcursor]
    exact hr
  · refine (h.matched.congr hs.sound.tree (hs.grounds.reading _ (List.mem_cons_self ..))
      hagree).of_kept (.refl _ _) ?_
    rw [hagree.file _ (.refl _)]
    exact (hg.kept _ h.reading.hasFile).2

end

/-- The first session went on, and the file is as it was. -/
theorem later (h : Pairs x s t ρ rd st) (hl : Later rd.cursor.file s s') (hs' : Since s' x) :
    Pairs x s' t ρ rd st :=
  ⟨hs', h.right, h.twin, h.matched.of_kept hl.kept (.refl _ _)⟩

end Pairs

/-! ### Files that are served -/

/-- In every session behind `t₀` in which the files of the stack are being read, `load` reads the files
of `x` with the names `K`. -/
def Serves (x t₀ : Session) (K : String → Prop) (load : String → SessionM FileId)
    (st : List Reading) : Prop :=
  ∀ name, K name → ∀ ρ t, (∀ n g, t₀.registry.find? n = some g → t.registry.find? n = some g) →
    Twin x ρ t → Regular (t, st) →
    ∃ σ t' id, load name t = .ok id t' ∧ t'.registry.find? name = some id ∧ Regular (t', st) ∧
      Twin x σ t' ∧ Grows x t t' ρ σ

/-- A file that was read in one session is read in another one, too. -/
theorem Traced.replay (h : Traced r s rd) (hx : Regular (x, [])) (hs : Since s x)
    {K : String → Prop}
    (himports : ∀ kind target, .importFile kind target ∈ rd.done → K target.value)
    (ht : Twin x ρ t) (hr : Regular (t, st)) (free : t.registry.find? rd.name = none)
    (fresh : ∀ rd' ∈ st, rd'.name ≠ rd.name)
    (hload : ∀ rd' : Reading, rd'.name = rd.name → Serves x t K load (rd' :: st)) :
    ∃ file σ t', r.openFile rd.name = .ok file ∧ file.text = rd.text ∧
      rd.done.foldlM (applyEvent load rd.name rd.text) (Cursor.start ⟨t.pool.files.size⟩)
        (t.begin rd.name file) = .ok (σ.cursor rd.cursor) t' ∧
      Pairs x s t' σ rd st ∧ σ.file rd.cursor.file = ⟨t.pool.files.size⟩ ∧
      GrowsAt rd.cursor.file x t t' ρ σ := by
  induction h with
  | @start s name file regular free' opened =>
    obtain ⟨σ, hpairs, hσ, hgrows⟩ :=
      Pairs.start hx regular free' opened hs ht hr free fresh
    refine ⟨file, σ, _, opened, rfl, ?_, hpairs, hσ, hgrows⟩
    show EStateM.Result.ok _ _ = EStateM.Result.ok _ _
    simp only [Reading.start, Renaming.cursor, Cursor.start, Renaming.scope, hσ]
    rfl
  | @event s rd e rest c pool notice traced regular next noImport applied ih =>
    have hstep := Since.of_step regular.sound (.event (r := r) next noImport applied)
    obtain ⟨file, σ, t', opened, htext, hrun, hpairs, hσ, hgrows⟩ := ih (hstep.trans hs)
      (fun kind target hi => himports kind target (List.mem_append_left _ hi)) free fresh hload
    obtain ⟨τ, pool', happly, hpairs', hgrows', hτ⟩ :=
      hpairs.event regular hx r next noImport applied hs
    refine ⟨file, τ, _, opened, htext, ?_, hpairs', ?_, ?_⟩
    · refine (foldlM_of_ok hrun [e]).trans ?_
      rw [List.foldlM_cons]
      refine bind_of_ok ?_ _
      rw [applyEvent_of_ne noImport, happly]
      rfl
    · show τ.file c.file = _
      rw [(Cursor.effect_of_apply applied).file_eq, hτ, hσ]
    · show GrowsAt c.file _ _ _ _ _
      rw [(Cursor.effect_of_apply applied).file_eq]
      exact hgrows.trans hgrows' hτ
  | @importFile s rd kind target rest id traced regular next found ih =>
    have hstep := Since.of_step regular.sound (.importFile (r := r) next found)
    obtain ⟨file, σ, t', opened, htext, hrun, hpairs, hσ, hgrows⟩ := ih (hstep.trans hs)
      (fun kind target hi => himports kind target (List.mem_append_left _ hi)) free fresh hload
    obtain ⟨τ, t'', id', hloaded, hfound, hr', ht', hgrows'⟩ :=
      hload (rd.rename σ) rfl target.value (himports kind target (by simp [Reading.advance])) σ t'
        hgrows.registry hpairs.twin hpairs.right
    obtain ⟨hpairs', hcursor⟩ := hpairs.grow regular hx ht' hr' hgrows'
    have hτ : τ.file rd.cursor.file = σ.file rd.cursor.file := congrArg Cursor.file hcursor
    obtain ⟨hpairs'', hgrows''⟩ := hpairs'.importFile regular hx r next found hfound hs
    refine ⟨file, τ, _, opened, htext, ?_, hpairs'', hτ.trans hσ,
      (hgrows.trans (hgrows'.at _) hτ).trans hgrows'' rfl⟩
    refine (foldlM_of_ok hrun [.importFile kind target]).trans ?_
    rw [List.foldlM_cons]
    refine bind_of_ok ?_ _
    rw [applyEvent_importFile, hloaded, ← hcursor]
    rfl
  | @later s s' rd traced later ih =>
    obtain ⟨file, σ, t', opened, htext, hrun, hpairs, hσ, hgrows⟩ :=
      ih (later.since.trans hs) himports free fresh hload
    exact ⟨file, σ, t', opened, htext, hrun, hpairs.later later hs, hσ, hgrows⟩

end Session

end ProtoSchema

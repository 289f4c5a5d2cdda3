import ProtoSchema.Proofs.Session.Replays

/-! # Completing a file again

When a file was read in two sessions, its sweep and its checks have the same outcome in both, provided
the numbers in use are the same (`Pairs.sameEnd`).  They are if the same files are registered, and if
the file has passed its checks in one session, then no other file uses its numbers in the other one.
So a file that was completed in one session is completed in another one, too (`Completed.replay`). -/

namespace ProtoSchema

namespace Pool

variable {pool other : Pool} {ρ : Renaming} {f : FileId}

theorem sameTree_recordTypes (pool : Pool) (f : FileId) : SameTree pool (pool.recordTypes f) :=
  .modifyFile _ _ fun _ => ⟨rfl, rfl⟩

/-- Pools stay alike when the types of the file are recorded. -/
theorem Alike.recorded (h : Alike ρ f pool other) :
    Alike ρ f (pool.recordTypes f) (other.recordTypes (ρ.file f)) := by
  have hreaches : ∀ {g}, (pool.recordTypes f).Reaches f g → pool.Reaches f g := fun hg =>
    hg.mono fun _ _ => importsFile_recordTypes.mp
  have htouches : Touches f pool (pool.recordTypes f) := .modifyFile _ fun _ => rfl
  have htouches' : Touches (ρ.file f) other (other.recordTypes (ρ.file f)) :=
    .modifyFile _ fun _ => rfl
  have hkept : ∀ {g}, pool.Reaches f g → g ≠ f → Kept g pool (pool.recordTypes f) :=
    fun hg hne => htouches.kept h.left (h.hasFile _ hg).1 hne
  refine ⟨(sameTree_recordTypes pool f).wellFormed h.left,
    (sameTree_recordTypes other _).wellFormed h.right, fun g hg => ?_, fun g hg => ?_,
    fun g hg => ?_, fun g g' hg hg' => h.injective g g' (hreaches hg) (hreaches hg')⟩
  · obtain ⟨hl, hr⟩ := h.hasFile g (hreaches hg)
    exact ⟨(htouches.file g hl).1, (htouches'.file _ hr).1⟩
  · by_cases hne : g = f
    · subst hne
      exact (h.grounded g (.refl g)).recordTypes h.left h.there fun i hi =>
        h.grounded i.file (.single ⟨i, hi, rfl⟩)
    · exact (h.grounded g (hreaches hg)).of_kept (hkept (hreaches hg) hne) htouches
        (keepsImports_recordTypes _ _)
  · by_cases hne : g = f
    · subst hne
      exact h.recordTypes
    · refine (h.matched g (hreaches hg)).of_kept (hkept (hreaches hg) hne) ?_
      refine htouches'.kept h.right (h.hasFile g (hreaches hg)).2 fun e => hne ?_
      exact h.injective g f (hreaches hg) (.refl f) e

/-- The field of a file that matches extends the same message with the same number. -/
theorem Matches.extends_iff (h : Matches ρ f pool other) {d : FieldId} (hd : pool.FieldOf f d)
    {m : BlockId} {n : Nat} :
    other.Extends m n (ρ.field d) ↔ ∃ a, ρ.block a = m ∧ pool.Extends a n d := by
  have hfield := h.field d hd
  have hblock : (other.block (other.field (ρ.field d)).block).heading =
      ρ.heading (pool.block (pool.field d).block).heading := by
    rw [hfield]
    exact congrArg Block.heading (h.block _ hd.2)
  have hnumber : (other.field (ρ.field d)).number = (pool.field d).number := by
    rw [hfield]
    rfl
  rw [Extends, hblock, hnumber]
  constructor
  · rintro ⟨⟨type, htype⟩, hn⟩
    cases hh : (pool.block (pool.field d).block).heading with
    | message name =>
      rw [hh] at htype
      cases htype
    | extend name target =>
      rw [hh] at htype
      obtain ⟨rfl, ht⟩ := Heading.extend.inj htype
      obtain ⟨a, rfl, ha⟩ := Option.map_eq_some_iff.mp ht
      cases a with
      | enum e => cases ha
      | message a =>
        cases ha
        exact ⟨a, rfl, ⟨⟨name, hh⟩, hn⟩⟩
  · rintro ⟨a, rfl, ⟨type, htype⟩, hn⟩
    exact ⟨⟨type, by rw [htype]; rfl⟩, hn⟩

end Pool

namespace Session

open Pool (Matches Kept AgreeOn Alike SameEnd SameNumbers SweptAlike)

variable {r : Resolver} {x s s' t t' : Session} {st : List Reading} {rd : Reading}
  {ρ σ : Renaming} {f g i j : FileId} {m : BlockId} {n : Nat} {load : String → SessionM FileId}

/-! ### Numbers in use -/

theorem Known.registered (h : Known x t i) : x.Registered i := by
  obtain ⟨name, hi, -⟩ := h
  exact ⟨name, hi⟩

/-- Known files are at different places in the second session. -/
theorem Twin.injective (h : Twin x ρ t) (hi : Known x t i) (hj : Known x t j)
    (he : ρ.file i = ρ.file j) : i = j := by
  obtain ⟨name, hi, hi', -⟩ := h.of_known hi
  obtain ⟨name', hj, hj', -⟩ := h.of_known hj
  have hname : name = name' := by
    rw [← (h.regular.sound.named name _ hi').2, ← (h.regular.sound.named name' _ hj').2, he]
  subst hname
  exact Option.some.inj (hi.symm.trans hj)

/-- The numbers of known files are in use in the second session. -/
theorem Twin.claimed (h : Twin x ρ t) (hg : Known x t g) {e : FieldId} (he : x.pool.FieldOf g e)
    (hext : x.pool.Extends m n e) : t.pool.extensions.find? (ρ.block m, n) = some (ρ.field e) := by
  obtain ⟨name, -, hname, hm⟩ := h.of_known hg
  refine (h.regular.numbered.inUse _ _ _).mpr ⟨ρ.file g, ⟨name, hname⟩, hm.fieldOf he, ?_⟩
  exact (hm.extends_iff he).mpr ⟨m, rfl, hext⟩

namespace Pairs

variable (h : Pairs x s t ρ rd st) (hs : Regular (s, [rd])) (hx : Regular (x, []))
include h hs hx

/-- A number of a message that the file reaches is in use in the second session only by known files. -/
theorem of_claimed (hm : s.pool.HasBlock m)
    (hmf : s.pool.Reaches rd.cursor.file (s.pool.block m).file) {d : FieldId}
    (hd : t.pool.extensions.find? (ρ.block m, n) = some d) :
    ∃ g e, Known x t g ∧ x.pool.FieldOf g e ∧ x.pool.Extends m n e := by
  obtain ⟨_, ⟨name, hname'⟩, hd, hext⟩ := (h.right.numbered.inUse _ _ _).mp hd
  obtain ⟨g, hname, rfl, hmatch⟩ := h.twin.files name _ hname'
  obtain ⟨e, he, rfl⟩ := (hmatch.fields _).mp hd
  obtain ⟨a, ha, hext⟩ := (hmatch.extends_iff he).mp hext
  have hg : Known x t g := ⟨name, hname, _, hname'⟩
  obtain ⟨type, htype⟩ := hext.1
  obtain ⟨hatype, haf⟩ := (hx.grounds.registered g ⟨name, hname⟩).refers (.extend he.2 htype)
  obtain ⟨name₁, ha₁, ha₁', hmatch₁⟩ := h.twin.of_known (h.twin.known_of_reaches hx hg haf)
  have hablock := hmatch₁.blockOf ⟨hatype.1, rfl⟩
  have hmx := h.since.block _ m ⟨hm, rfl⟩
  rcases h.of_reaches hs hmf with hf | ⟨-, name₂, hm₂, hm₂', hmatch₂⟩
  · -- the message is not in the file: that file is not registered
    have hmblock := (hf ▸ h.matched : Matches ρ (s.pool.block m).file s.pool t.pool).blockOf
      ⟨hm, rfl⟩
    rw [ha] at hablock
    have hfile := hablock.2.symm.trans hmblock.2
    rw [hf] at hfile
    refine absurd ?_ (h.right.sound.not_registered (List.mem_cons_self ..))
    exact ⟨name₁, ha₁'.trans (congrArg some hfile)⟩
  · have hmblock := hmatch₂.blockOf ⟨hm, rfl⟩
    rw [ha] at hablock
    have hfile := h.twin.injective ⟨name₁, ha₁, _, ha₁'⟩ ⟨name₂, hm₂, _, hm₂'⟩
      (hablock.2.symm.trans hmblock.2)
    have : a = m := (hmatch₁.block_inj ⟨hatype.1, rfl⟩ (hfile ▸ hmx)).mp ha
    exact ⟨g, e, hg, he, this ▸ hext⟩

/-- The numbers in use are the same in both sessions, if those of other files are that the first
session knows. -/
theorem sameNumbers {swept swept' : Pool}
    (hswept : SweptAlike ρ rd.cursor.file (s.pool.recordTypes rd.cursor.file)
      (t.pool.recordTypes (ρ.file rd.cursor.file)) swept swept')
    (hsame : ∀ d m n, swept.FieldOf rd.cursor.file d → swept.Extends m n d →
      (s.pool.extensions.find? (m, n) = none ↔
        ∀ g e, Known x t g → x.pool.FieldOf g e → ¬x.pool.Extends m n e)) :
    SameNumbers ρ rd.cursor.file swept swept' := by
  have htypes := (recordTypes_sound hs.sound.tree hs.sound.types rd.cursor.file).2.1
  have htree : Pool.SameTree s.pool swept :=
    (Pool.sameTree_recordTypes ..).trans hswept.left.sameTree
  have hreaches : ∀ {g}, swept.Reaches rd.cursor.file g → s.pool.Reaches rd.cursor.file g := by
    intro g hg
    refine hg.mono fun i j hij => ?_
    rw [Pool.ImportsFile, hswept.left.file_eq] at hij
    exact Pool.importsFile_recordTypes.mp hij
  refine ⟨fun d m n hd he => ?_, fun k d hk hd => ?_, fun k d hk hd => ?_⟩
  · obtain ⟨type, htype⟩ := he.1
    obtain ⟨hm, hmf⟩ := ((hswept.alike (h.alike hs).recorded htypes).grounded _ (.refl _)).refers
      (.extend hd.2 htype)
    have hm' : s.pool.HasBlock m := htree.blocks ▸ hm.1
    have hmf' : s.pool.Reaches rd.cursor.file (s.pool.block m).file := by
      rw [← (htree.block m).1]
      exact hreaches hmf
    rw [hswept.left.extensions_eq, hswept.right.extensions_eq]
    refine Iff.trans ⟨fun hnone g e hg heg hext => ?_, fun hall => ?_⟩ (hsame d m n hd he).symm
    · exact Option.some_ne_none _ ((h.twin.claimed hg heg hext).symm.trans hnone)
    · refine Option.eq_none_iff_forall_ne_some.mpr fun e' he' => ?_
      obtain ⟨g, e, hg, heg, hext⟩ := h.of_claimed hs hx hm' hmf' he'
      exact hall g e hg heg hext
  · rw [hswept.left.extensions_eq] at hk
    obtain ⟨g, hg, hdg, -⟩ := (hs.numbered.inUse k.1 k.2 d).mp hk
    have hdf : s.pool.FieldOf rd.cursor.file d :=
      hswept.left.fieldOf_iff.mp hd
    obtain rfl : g = rd.cursor.file := hdg.2.2.symm.trans hdf.2.2
    exact hs.sound.not_registered (List.mem_cons_self ..) hg
  · rw [hswept.right.extensions_eq] at hk
    obtain ⟨g, hg, hdg, -⟩ := (h.right.numbered.inUse k.1 k.2 d).mp hk
    have hdf : t.pool.FieldOf (ρ.file rd.cursor.file) d :=
      hswept.right.fieldOf_iff.mp hd
    obtain rfl : g = ρ.file rd.cursor.file := hdg.2.2.symm.trans hdf.2.2
    exact h.right.sound.not_registered (List.mem_cons_self ..) hg

/-- The checks have the same outcome in both sessions if the same files are registered. -/
theorem checkFile_of_names (hnames : ∀ name, t.registry.find? name = none ↔
      s.registry.find? name = none) :
    SameEnd (Matches ρ rd.cursor.file)
      (Pool.checkFile rd.cursor.file (s.pool.recordTypes rd.cursor.file))
      (Pool.checkFile (ρ.file rd.cursor.file) (t.pool.recordTypes (ρ.file rd.cursor.file))) := by
  have htypes := (recordTypes_sound hs.sound.tree hs.sound.types rd.cursor.file).2.1
  refine (h.alike hs).recorded.checkFile htypes fun swept swept' hswept _ => ?_
  refine h.sameNumbers hs hx hswept fun d m n _ _ => ⟨fun hnone g e hg he hext => ?_, fun hall => ?_⟩
  · obtain ⟨name, hname, g', hname'⟩ := hg
    obtain ⟨g'', hg''⟩ := Option.ne_none_iff_exists'.mp fun hnone =>
      Option.some_ne_none _ (hname'.symm.trans ((hnames name).mpr hnone))
    obtain rfl : g'' = g := Option.some.inj ((h.since.registry _ _ hg'').symm.trans hname)
    have hkept := h.since.registered g'' ⟨name, hg''⟩
    have he := (hkept.fields e).mp he
    have hext := (hkept.extends_iff he).mp hext
    exact Option.some_ne_none _
      (((hs.numbered.inUse m n e).mpr ⟨g'', ⟨name, hg''⟩, he, hext⟩).symm.trans hnone)
  · refine Option.eq_none_iff_forall_ne_some.mpr fun e he => ?_
    obtain ⟨g, ⟨name, hname⟩, he, hext⟩ := (hs.numbered.inUse m n e).mp he
    have hkept := h.since.registered g ⟨name, hname⟩
    obtain ⟨g', hg'⟩ := Option.ne_none_iff_exists'.mp fun hnone =>
      Option.some_ne_none _ (hname.symm.trans ((hnames name).mp hnone))
    exact hall g e ⟨name, h.since.registry _ _ hname, g', hg'⟩ ((hkept.fields e).mpr he)
      ((hkept.extends_iff he).mpr hext)

/-- The file passes its checks in the second session if it has passed them in the first one. -/
theorem checkFile_of_ok {pool : Pool}
    (checked : Pool.checkFile rd.cursor.file (s.pool.recordTypes rd.cursor.file) = .ok () pool)
    (hl : Later rd.cursor.file (s.register pool rd.name rd.cursor.file) x) :
    ∃ pool', Pool.checkFile (ρ.file rd.cursor.file) (t.pool.recordTypes (ρ.file rd.cursor.file)) =
      .ok () pool' ∧ Matches ρ rd.cursor.file pool pool' := by
  have htypes := (recordTypes_sound hs.sound.tree hs.sound.types rd.cursor.file).2.1
  have hc := (hs.sound.checked checked).1
  have hown : x.Registered rd.cursor.file := by
    refine hl.since.registered_mono ⟨rd.name, ?_⟩
    rw [register, Table.find?_insert, hs.sound.distinct.free rd (List.mem_cons_self ..), if_pos rfl]
    rfl
  have hend := (h.alike hs).recorded.checkFile htypes fun swept swept' hswept hrun => by
    refine h.sameNumbers hs hx hswept fun d m n hd he => ?_
    -- what the file extends, it extends behind its checks
    have hpool : ∃ extensions, pool = { swept with extensions } := by
      rw [Pool.checkFile_eq, hrun] at checked
      dsimp only at checked
      split at checked <;> cases checked
      exact ⟨_, rfl⟩
    obtain ⟨extensions, hpool⟩ := hpool
    have hdp : pool.FieldOf rd.cursor.file d := hpool ▸ hd
    have hep : pool.Extends m n d := hpool ▸ he
    have hnew := hc.new d m n hdp hep
    refine iff_of_true (Option.eq_none_iff_forall_ne_some.mpr fun e hold => ?_)
      fun g e hg heg hext => ?_
    · obtain rfl : e = d := Option.some.inj ((hc.old m n e hold).symm.trans hnew)
      obtain ⟨g, hg, heg, -⟩ := (hs.numbered.inUse m n e).mp hold
      have hdf : s.pool.FieldOf rd.cursor.file e := hswept.left.fieldOf_iff.mp hd
      obtain rfl : g = rd.cursor.file := heg.2.2.symm.trans hdf.2.2
      exact hs.sound.not_registered (List.mem_cons_self ..) hg
    · have hdx := (hl.kept.fields d).mpr hdp
      have hex := (hl.kept.extends_iff hdp).mpr hep
      have hin := (hx.numbered.inUse m n d).mpr ⟨_, hown, hdx, hex⟩
      obtain rfl : e = d := Option.some.inj
        (((hx.numbered.inUse m n e).mpr ⟨g, hg.registered, heg, hext⟩).symm.trans hin)
      obtain rfl : g = rd.cursor.file := heg.2.2.symm.trans hdx.2.2
      exact h.not_known hs hx hg
  rw [checked] at hend
  generalize hrun : Pool.checkFile (ρ.file rd.cursor.file)
    (t.pool.recordTypes (ρ.file rd.cursor.file)) = result at hend
  cases hend with
  | ok related => exact ⟨_, rfl, related⟩

end Pairs

/-! ### Whole files -/

/-- Behind its text the imports of a file are those that are recorded. -/
theorem Completed.imports {name : String} (h : Completed r x name f) {file : SourceFile}
    (opened : r.openFile name = .ok file) {kind : ImportKind} {target : Located String}
    (hi : .importFile kind target ∈ (Event.ofText file.text).1) :
    ∃ i, (x.pool.file f).imports.find? target.value = some i := by
  cases h with
  | @intro s rd pool traced regular finished noFault checked later =>
    obtain ⟨file', opened', htext, -⟩ := traced.opened
    obtain rfl : file' = file := Except.ok.inj (opened'.symm.trans opened)
    rw [← htext, traced.text, finished, List.append_nil] at hi
    obtain ⟨i, hi⟩ := traced.imports hi
    refine ⟨i, ?_⟩
    rw [later.kept.file]
    show (pool.file rd.cursor.file).imports.find? target.value = some i
    rw [(regular.sound.checked checked).1.file_eq, Pool.recordTypes, Pool.file_modifyFile]
    split <;> exact hi

theorem complete_of_ok {name : String} {file : SourceFile} {c : Cursor} {pool : Pool}
    (hrun : (Event.ofText file.text).1.foldlM (applyEvent load name file.text)
      (Cursor.start ⟨s.pool.files.size⟩) (s.begin name file) = .ok c s')
    (noFault : (Event.ofText file.text).2 = none)
    (checked : Pool.checkFile ⟨s.pool.files.size⟩ (s'.pool.recordTypes ⟨s.pool.files.size⟩) =
      .ok () pool) :
    complete load name file s = .ok ⟨s.pool.files.size⟩ (s'.register pool name ⟨s.pool.files.size⟩) := by
  rw [complete_eq, parse_eq, hrun]
  simp only [noFault, checked]

namespace Pairs

variable (h : Pairs x s t ρ rd st) {pool : Pool}
  (checked : Pool.checkFile (ρ.file rd.cursor.file) (t.pool.recordTypes (ρ.file rd.cursor.file)) =
    .ok () pool)
include h

theorem find?_register (name : String) :
    (t.register pool rd.name (ρ.file rd.cursor.file)).registry.find? name =
      if name = rd.name then some (ρ.file rd.cursor.file) else t.registry.find? name := by
  rw [register, Table.find?_insert]
  split
  · next he => rw [he, h.free, Option.none_or]
  · rw [Option.or_none]

include checked

theorem kept_register {g : FileId} (hg : t.pool.HasFile g) (hne : g ≠ ρ.file rd.cursor.file) :
    pool.HasFile g ∧ Kept g t.pool pool := by
  have htouches := (h.right.sound.checked checked).2
  exact ⟨(htouches.file g hg).1, htouches.kept h.right.sound.tree hg hne⟩

/-- The file is completed in the second session. -/
theorem register (r : Resolver) (hf : x.registry.find? rd.name = some rd.cursor.file)
    (finished : rd.rest = []) (noFault : (Event.ofText rd.text).2 = none)
    (matched : Matches ρ rd.cursor.file x.pool pool) :
    Regular (t.register pool rd.name (ρ.file rd.cursor.file), st) ∧
      Twin x ρ (t.register pool rd.name (ρ.file rd.cursor.file)) := by
  have hright := h.right.step (.complete (r := r) finished noFault checked)
  refine ⟨hright, hright.sublist (List.nil_sublist _), fun name g hg => ?_⟩
  rw [h.find?_register] at hg
  split at hg
  · next he =>
    cases hg
    exact ⟨_, he ▸ hf, rfl, matched⟩
  · obtain ⟨f, hf, rfl, hm⟩ := h.twin.files name g hg
    have hreg : t.Registered (ρ.file f) := ⟨name, hg⟩
    refine ⟨f, hf, rfl, hm.of_kept (.refl _ _) ?_⟩
    refine (h.kept_register checked (h.right.sound.hasFile hreg) fun e => ?_).2
    exact h.right.sound.not_registered (List.mem_cons_self ..)
      (show t.Registered (ρ.file rd.cursor.file) from e ▸ hreg)

/-- The session that the file was begun in has gone on to the one that completes it. -/
theorem grows {t₀ : Session} {ρ₀ : Renaming} (hf : x.registry.find? rd.name = some rd.cursor.file)
    (hg : GrowsAt rd.cursor.file x t₀ t ρ₀ ρ) (hnew : ρ.file rd.cursor.file = ⟨t₀.pool.files.size⟩)
    (hunknown : ¬Known x t₀ rd.cursor.file) :
    Grows x t₀ (t.register pool rd.name (ρ.file rd.cursor.file)) ρ₀ ρ := by
  have hregistry : ∀ name g, t.registry.find? name = some g →
      (t.register pool rd.name (ρ.file rd.cursor.file)).registry.find? name = some g := by
    intro name g hg
    rw [Session.register, Table.find?_insert, hg]
    rfl
  refine ⟨fun name g hname => hregistry name g (hg.registry name g hname), fun g hhas => ?_,
    hg.agree.mono fun i hi => ⟨fun e => ?_, fun hk => hi (hk.mono hregistry)⟩⟩
  · have hne : g ≠ ρ.file rd.cursor.file := fun e => Pool.not_hasFile_size (hnew ▸ e ▸ hhas)
    obtain ⟨hhas, hk⟩ := hg.kept g hhas hne
    obtain ⟨hhas, hk'⟩ := h.kept_register checked hhas hne
    exact ⟨hhas, hk.trans hk'⟩
  · subst e
    exact hunknown (hi ⟨rd.name, hf, _, (h.find?_register _).trans (if_pos rfl)⟩)

end Pairs

/-- A file that was completed in one session is completed in another one, too. -/
theorem Completed.replay {name : String} (h : Completed r x name f) (hx : Regular (x, []))
    (hf : x.registry.find? name = some f) {K : String → Prop}
    (himports : ∀ file, r.openFile name = .ok file → ∀ kind target,
      .importFile kind target ∈ (Event.ofText file.text).1 → K target.value)
    (ht : Twin x ρ t) (hr : Regular (t, st)) (free : t.registry.find? name = none)
    (fresh : ∀ rd' ∈ st, rd'.name ≠ name)
    (hload : ∀ rd' : Reading, rd'.name = name → Serves x t K load (rd' :: st)) :
    ∃ file, r.openFile name = .ok file ∧ ∃ σ t' id, complete load name file t = .ok id t' ∧
      t'.registry.find? name = some id ∧ Regular (t', st) ∧ Twin x σ t' ∧ Grows x t t' ρ σ := by
  cases h with
  | @intro s rd pool traced regular finished noFault checked later =>
    have hstep := Since.of_step regular.sound (.complete (r := r) finished noFault checked)
    obtain ⟨file, σ, t', opened, htext, hrun, hpairs, hσ, hgrows⟩ :=
      traced.replay hx (hstep.trans later.since) (K := K) (fun kind target hi => by
        obtain ⟨file, opened, htext, -⟩ := traced.opened
        refine himports file opened kind target ?_
        rw [← htext, traced.text]
        exact List.mem_append_left _ hi) ht hr free fresh hload
    obtain ⟨pool', hchecked, hmatch⟩ :=
      hpairs.checkFile_of_ok regular hx checked later
    have hread := (hx.sound.named rd.name _ hf).2
    obtain ⟨hright, htwin⟩ := hpairs.register hchecked r hf finished noFault
      (hmatch.of_kept later.kept (.refl _ _))
    refine ⟨file, opened, σ, _, _, ?_, (hpairs.find?_register _).trans (if_pos rfl), hright, htwin,
      hpairs.grows hchecked hf hgrows hσ (not_known hx hread free)⟩
    rw [hσ] at hchecked ⊢
    have hevents : (Event.ofText file.text).1 = rd.done := by
      rw [htext, traced.text, finished, List.append_nil]
    refine complete_of_ok (c := σ.cursor rd.cursor) ?_ (htext ▸ noFault) hchecked
    rw [hevents, htext]
    exact hrun

end Session

end ProtoSchema

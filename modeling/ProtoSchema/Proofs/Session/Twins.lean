import ProtoSchema.Proofs.Renaming.Checks
import ProtoSchema.Proofs.Renaming.Events
import ProtoSchema.Proofs.Session.Traces

/-! # Two sessions with the same files

A session is a `Twin` of another one if each of its registered files is registered in the other under
the same name, and matches.  If a file that is being read matches as well (`Pairs`), then all files do
that it imports, so its next event has the same outcome in both sessions, and so have its checks. -/

namespace ProtoSchema.Session

open Pool (Matches Kept AgreeOn OnlyAt Alike SameOutcome SameEnd)

variable {r : Resolver} {x s s' t t' : Session} {st : List Reading} {rd : Reading} {ρ σ τ : Renaming}
  {f g i j : FileId}

/-- The file `i` of the session `x` is registered in `t` as well. -/
def Known (x t : Session) (i : FileId) : Prop :=
  ∃ name, x.registry.find? name = some i ∧ ∃ g, t.registry.find? name = some g

/-- Every file that is registered in `t` is registered in `x`, and matches. -/
structure Twin (x : Session) (ρ : Renaming) (t : Session) : Prop where
  regular : Regular (t, [])
  files : ∀ name g, t.registry.find? name = some g →
    ∃ f, x.registry.find? name = some f ∧ ρ.file f = g ∧ Matches ρ f x.pool t.pool

/-! ### Known files -/

theorem Twin.of_known (h : Twin x ρ t) (hi : Known x t i) : ∃ name,
    x.registry.find? name = some i ∧ t.registry.find? name = some (ρ.file i) ∧
      Matches ρ i x.pool t.pool := by
  obtain ⟨name, hi, g, hg⟩ := hi
  obtain ⟨f, hf, rfl, hm⟩ := h.files name g hg
  cases hi.symm.trans hf
  exact ⟨name, hi, hg, hm⟩

theorem imports_find? {pool other : Pool} (h : Matches ρ f pool other) {target : String} {k : Import}
    (hk : (pool.file f).imports.find? target = some k) :
    (other.file (ρ.file f)).imports.find? target = some (ρ.imported k) := by
  rw [h.imports, Table.find?_map, hk]
  rfl

theorem Twin.known_of_imports (h : Twin x ρ t) (hx : Regular (x, [])) (hi : Known x t i)
    (hij : x.pool.ImportsFile i j) : Known x t j := by
  obtain ⟨name, hname, hname', hm⟩ := h.of_known hi
  obtain ⟨k, hk, rfl⟩ := hij
  obtain ⟨target, hk⟩ := Table.mem_values_iff.mp hk
  exact ⟨target, hx.sound.imported ⟨name, hname⟩ hk, _,
    h.regular.sound.imported ⟨name, hname'⟩ (imports_find? hm hk)⟩

theorem Twin.known_of_reaches (h : Twin x ρ t) (hx : Regular (x, [])) (hi : Known x t i)
    (hij : x.pool.Reaches i j) : Known x t j := by
  induction hij with
  | refl => exact hi
  | tail _ hjk ih => exact h.known_of_imports hx ih hjk

/-- The renaming may be changed at files that are not known, and the second session may go on. -/
theorem Twin.change (h : Twin x ρ t) (hx : Regular (x, [])) (ht' : Regular (t', []))
    (hr : t'.registry = t.registry) (hk : ∀ g, t.Registered g → Kept g t.pool t'.pool)
    (ha : AgreeOn (Known x t) x.pool ρ σ) : Twin x σ t' := by
  refine ⟨ht', fun name g hg => ?_⟩
  rw [hr] at hg
  obtain ⟨f, hf, rfl, hm⟩ := h.files name g hg
  have hknown : Known x t f := ⟨name, hf, _, hg⟩
  have hσ := ha.file f hknown
  refine ⟨f, hf, hσ, ?_⟩
  have hm := hm.congr hx.sound.tree (hx.grounds.registered f ⟨name, hf⟩)
    (ha.mono fun i hi => h.known_of_reaches hx hknown hi)
  exact hm.of_kept (.refl _ _) (hσ ▸ hk _ ⟨name, hg⟩)

/-- A file whose name is free in the second session is not known. -/
theorem not_known (hx : Regular (x, [])) {name : String} (hf : (x.pool.file f).name = name)
    (free : t.registry.find? name = none) : ¬Known x t f := by
  rintro ⟨name', hname', g, hg⟩
  have := (hx.sound.named name' f hname').2
  rw [hf] at this
  rw [← this, free] at hg
  cases hg

/-! ### Files that are being read -/

namespace Reading

/-- The file at another place. -/
def rename (ρ : Renaming) (rd : Reading) : Reading := { rd with cursor := ρ.cursor rd.cursor }

end Reading

/-- A file that is being read in `s`, in front of `x`, matches one that is being read in `t`. -/
structure Pairs (x s t : Session) (ρ : Renaming) (rd : Reading) (st : List Reading) : Prop where
  since : Since s x
  right : Regular (t, rd.rename ρ :: st)
  twin : Twin x ρ t
  matched : Matches ρ rd.cursor.file s.pool t.pool

namespace Pairs

variable (h : Pairs x s t ρ rd st) (hs : Regular (s, [rd]))

include h in
theorem free : t.registry.find? rd.name = none :=
  h.right.sound.distinct.free (rd.rename ρ) (List.mem_cons_self ..)

include h in
theorem reading : (rd.rename ρ).Sound t := h.right.sound.reading _ (List.mem_cons_self ..)

include h hs

theorem not_known (hx : Regular (x, [])) : ¬Known x t rd.cursor.file := by
  have hread := hs.sound.reading _ (List.mem_cons_self ..)
  exact Session.not_known hx ((h.since.file _ hread.hasFile).2.trans hread.name) h.free

/-- The other files that a file reaches are known, and match. -/
theorem of_reaches (hg : s.pool.Reaches rd.cursor.file g) : g = rd.cursor.file ∨
    s.Registered g ∧ ∃ name, x.registry.find? name = some g ∧
      t.registry.find? name = some (ρ.file g) ∧ Matches ρ g s.pool t.pool := by
  have hread : rd.Sound s := hs.sound.reading _ (List.mem_cons_self ..)
  have hknown : ∀ {target : String} {k : Import}, s.registry.find? target = some k.file →
      t.registry.find? target = some (ρ.file k.file) → s.Registered k.file ∧ ∃ name,
        x.registry.find? name = some k.file ∧ t.registry.find? name = some (ρ.file k.file) ∧
          Matches ρ k.file s.pool t.pool := by
    intro target k hk hk'
    have hkx := h.since.registry _ _ hk
    obtain ⟨name, hname, hname', hm⟩ := h.twin.of_known ⟨target, hkx, _, hk'⟩
    refine ⟨⟨target, hk⟩, name, hname, hname', ?_⟩
    exact hm.of_kept (h.since.registered _ ⟨target, hk⟩).symm (.refl _ _)
  induction hg with
  | refl => exact .inl rfl
  | @tail i j _ hij ih =>
    obtain ⟨k, hk, rfl⟩ := hij
    obtain ⟨target, hk⟩ := Table.mem_values_iff.mp hk
    refine .inr ?_
    rcases ih with rfl | ⟨hreg, name, hname, hname', hm⟩
    · exact hknown (hread.imports target k hk)
        (h.reading.imports target _ (imports_find? h.matched hk))
    · exact hknown (hs.sound.imported hreg hk)
        (h.twin.regular.sound.imported ⟨name, hname'⟩ (imports_find? hm hk))

/-- The two sessions are alike for the file. -/
theorem alike : Alike ρ rd.cursor.file s.pool t.pool := by
  have hread : rd.Sound s := hs.sound.reading _ (List.mem_cons_self ..)
  have hfree : s.registry.find? rd.name = none := hs.sound.distinct.free _ (List.mem_cons_self ..)
  have hname : ∀ {g}, s.pool.Reaches rd.cursor.file g →
      (t.pool.file (ρ.file g)).name = (s.pool.file g).name := by
    intro g hg
    rcases h.of_reaches hs hg with rfl | ⟨-, -, -, -, hm⟩
    · rw [h.matched.file]
      rfl
    · rw [hm.file]
      rfl
  have hregistered : ∀ {g}, s.Registered g → s.registry.find? (s.pool.file g).name = some g := by
    rintro g ⟨name, hg⟩
    rw [(hs.sound.named name g hg).2, hg]
  refine ⟨hs.sound.tree, h.right.sound.tree, fun g hg => ?_, fun g hg => ?_, fun g hg => ?_,
    fun g g' hg hg' he => ?_⟩
  · rcases h.of_reaches hs hg with rfl | ⟨hreg, name, -, hname', -⟩
    · exact ⟨hread.hasFile, h.reading.hasFile⟩
    · exact ⟨hs.sound.hasFile hreg, h.right.sound.hasFile ⟨name, hname'⟩⟩
  · rcases h.of_reaches hs hg with rfl | ⟨hreg, -⟩
    · exact hs.grounds.reading _ (List.mem_cons_self ..)
    · exact hs.grounds.registered g hreg
  · rcases h.of_reaches hs hg with rfl | ⟨-, -, -, -, hm⟩
    · exact h.matched
    · exact hm
  · -- files that are registered or read have different names
    have hn : (s.pool.file g).name = (s.pool.file g').name := by rw [← hname hg, ← hname hg', he]
    rcases h.of_reaches hs hg with rfl | ⟨hreg, -⟩
    · rcases h.of_reaches hs hg' with rfl | ⟨hreg', -⟩
      · rfl
      · have := hregistered hreg'
        rw [← hn, hread.name, hfree] at this
        cases this
    · rcases h.of_reaches hs hg' with rfl | ⟨hreg', -⟩
      · have := hregistered hreg
        rw [hn, hread.name, hfree] at this
        cases this
      · have := hregistered hreg
        rw [hn, hregistered hreg'] at this
        exact (Option.some.inj this).symm

/-- The next event has the same outcome in both sessions. -/
theorem apply {e : Event} {rest : List Event} (next : rd.rest = e :: rest) :
    SameOutcome ρ rd.cursor.file (rd.cursor.apply s.pool e)
      ((ρ.cursor rd.cursor).apply t.pool e) := by
  obtain ⟨ks, ks', hf, hn⟩ := (hs.sound.reading _ (List.mem_cons_self ..)).fits
  rw [next] at hn
  cases hn with
  | cons head tail => exact (h.alike hs).apply hs.sound.types hf head

end Pairs

end ProtoSchema.Session

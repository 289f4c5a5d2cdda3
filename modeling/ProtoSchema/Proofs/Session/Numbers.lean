import ProtoSchema.Proofs.Session.Soundness

/-! # Numbers of registered files

`Numbered` is the invariant of the numbers of a session: every registered file has passed its
checks, and the extension numbers in use are just those of the extensions of registered files.  A
file that is given up claims nothing, since claims enter the pool when the whole file is in order. -/

namespace ProtoSchema.Session

variable {r : Resolver} {x y : State}

/-- What is so of the numbers in the registered files. -/
structure Numbered (s : Session) : Prop where
  bound : ∀ f, s.Registered f → s.pool.AllBound f
  fits : ∀ f b, s.Registered f → s.pool.BlockOf f b → s.pool.BlockFits b
  room : ∀ f d m n, s.Registered f → s.pool.FieldOf f d → s.pool.Extends m n d →
    s.pool.LeavesRoom m n
  inUse : ∀ m n d, s.pool.extensions.find? (m, n) = some d ↔
    ∃ f, s.Registered f ∧ s.pool.FieldOf f d ∧ s.pool.Extends m n d

/-- What is so of registered files stays so while another file is changed and no numbers are
claimed. -/
theorem Numbered.of_kept {s s' : Session} (h : Numbered s) (hw : s.pool.WellFormed) {g : FileId}
    (ht : Pool.Touches g s.pool s'.pool) (hr : ∀ f, s'.Registered f ↔ s.Registered f)
    (hkept : ∀ f, s.Registered f → Pool.Kept f s.pool s'.pool)
    (hext : s'.pool.extensions = s.pool.extensions) : Numbered s' where
  bound f hf := by
    have hf := (hr f).mp hf
    exact (hkept f hf).allBound (h.bound f hf)
  fits f b hf hb := by
    have hf := (hr f).mp hf
    have hb := ((hkept f hf).blocks b).mp hb
    exact (hkept f hf).blockFits hw hb (h.fits f b hf hb)
  room f d m n hf hd he := by
    have hf := (hr f).mp hf
    have hd := ((hkept f hf).fields d).mp hd
    exact (h.room f d m n hf hd (((hkept f hf).extends_iff hd).mp he)).of_touches ht
  inUse m n d := by
    rw [hext, h.inUse]
    constructor
    · rintro ⟨f, hf, hd, he⟩
      exact ⟨f, (hr f).mpr hf, ((hkept f hf).fields d).mpr hd, ((hkept f hf).extends_iff hd).mpr he⟩
    · rintro ⟨f, hf, hd, he⟩
      have hf := (hr f).mp hf
      have hd := ((hkept f hf).fields d).mp hd
      exact ⟨f, hf, hd, ((hkept f hf).extends_iff hd).mp he⟩

/-- Every step keeps the invariant of numbers. -/
theorem Numbered.step (hx : Sound x) (h : Numbered x.1) (hs : Step r x y) : Numbered y.1 := by
  obtain ⟨g, ht, hkept⟩ := hx.kept hs
  cases hs with
  | begin | importFile | abandon =>
    exact h.of_kept hx.tree ht (fun f => .rfl) (fun f hf => (hkept f hf).2) rfl
  | event next noImport applied =>
    obtain ⟨ks, ks', hn, hf, heff, -⟩ :=
      reading_event (hx.reading _ (List.mem_cons_self ..)) next applied
    exact h.of_kept hx.tree ht (fun f => .rfl) (fun f hf => (hkept f hf).2) (heff.tables hn hf).2.1
  | reject finished checked =>
    have hc := (hx.swept checked).1
    exact h.of_kept hx.tree ht (fun f => .rfl) (fun f hf => (hkept f hf).2) hc.extensions_eq
  | @complete s st rd pool finished noFault checked =>
    obtain ⟨hc, ht⟩ := hx.checked checked
    have hreg : ∀ f, (s.register pool rd.name rd.cursor.file).Registered f ↔
        s.Registered f ∨ f = rd.cursor.file := fun f =>
      registered_register (hx.distinct.free rd (List.mem_cons_self ..))
    have hkept : ∀ f, s.Registered f → Pool.Kept f s.pool pool := fun f hf => (hkept f hf).2
    refine ⟨fun f hf => ?_, fun f b hf hb => ?_, fun f d m n hf hd he => ?_, fun m n d => ?_⟩
    · rcases (hreg f).mp hf with hf | rfl
      · exact (hkept f hf).allBound (h.bound f hf)
      · exact hc.bound
    · rcases (hreg f).mp hf with hf | rfl
      · have hb := ((hkept f hf).blocks b).mp hb
        exact (hkept f hf).blockFits hx.tree hb (h.fits f b hf hb)
      · exact hc.fits b hb
    · rcases (hreg f).mp hf with hf | rfl
      · have hd := ((hkept f hf).fields d).mp hd
        exact (h.room f d m n hf hd (((hkept f hf).extends_iff hd).mp he)).of_touches ht
      · exact hc.room d m n hd he
    · constructor
      · intro hfind
        rcases hc.only m n d hfind with hold | ⟨hd, he⟩
        · obtain ⟨f, hf, hd, he⟩ := (h.inUse m n d).mp hold
          exact ⟨f, (hreg f).mpr (.inl hf), ((hkept f hf).fields d).mpr hd,
            ((hkept f hf).extends_iff hd).mpr he⟩
        · exact ⟨_, (hreg _).mpr (.inr rfl), hd, he⟩
      · rintro ⟨f, hf, hd, he⟩
        rcases (hreg f).mp hf with hf | rfl
        · have hd := ((hkept f hf).fields d).mp hd
          exact hc.old m n d ((h.inUse m n d).mpr ⟨f, hf, hd, ((hkept f hf).extends_iff hd).mp he⟩)
        · exact hc.new d m n hd he

theorem numbered_empty : Numbered {} := by
  have hnot : ∀ f, ¬({} : Session).Registered f := by
    rintro f ⟨name, h⟩
    cases h
  refine ⟨fun f hf => absurd hf (hnot f), fun f _ hf => absurd hf (hnot f),
    fun f _ _ _ hf => absurd hf (hnot f), fun m n d => ⟨fun h => ?_, ?_⟩⟩
  · cases h
  · rintro ⟨f, hf, -⟩
    exact absurd hf (hnot f)

theorem Numbered.steps (hx : Sound x) (h : Numbered x.1) (hs : Steps r x y) : Numbered y.1 := by
  induction hs with
  | refl => exact h
  | tail hsteps hstep ih => exact ih.step (hx.steps hsteps) hstep

end ProtoSchema.Session

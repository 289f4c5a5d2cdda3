import ProtoSchema.Proofs.Event.Legibility
import ProtoSchema.Proofs.Pool.Legibility
import ProtoSchema.Proofs.Session.Editions

/-! # Declarations of a session can be written

All declarations of a session come from events of texts, so all of them are legible, and no extend block
has a map (`Legible.step`). -/

namespace ProtoSchema.Session

variable {r : Resolver} {x y : State}

/-- All declarations of a session are legible, and extend blocks have no maps. -/
structure Legible (s : Session) : Prop where
  pool : s.pool.Legible
  plain : s.pool.ExtendsPlain

/-- The types of a file are no part of its text. -/
theorem legible_recordTypes {pool : Pool} (h : pool.Legible) (f : FileId) :
    (pool.recordTypes f).Legible :=
  h.modifyFile _ fun _ hx => ⟨hx.package, hx.options⟩

/-- What is checked stays legible. -/
theorem legible_checked {f : FileId} {pool other : Pool} (h : pool.Legible)
    (hc : Pool.Checked f pool other) : other.Legible := by
  obtain ⟨swept, hswept, he⟩ := hc.swept
  have hlegible := h.swept hswept
  rw [he]
  exact ⟨hlegible.file, hlegible.block, hlegible.enum, hlegible.field⟩

/-- Every step keeps all declarations legible. -/
theorem Legible.step (hx : Sound x) (h : Legible x.1) (hs : Step r x y) : Legible y.1 := by
  cases hs with
  | @begin s st name file free fresh opened =>
    have hadded := Pool.fileAdded s.pool name file.path
    refine ⟨h.pool.of_fileAdded hadded,
      h.plain.of_touches (g := ⟨s.pool.files.size⟩) hx.tree (.of_fileAdded hadded) fun d hd => .inl ?_⟩
    exact hadded.hasField ▸ hd
  | @event s st rd e rest c pool notice next noImport applied =>
    have hread := hx.reading rd (List.mem_cons_self ..)
    obtain ⟨ks, ks', hn, hf, heff, -⟩ := reading_event hread next applied
    have hmem : e ∈ (Event.ofText rd.text).1 := hread.rest_suffix.mem (next ▸ List.mem_cons_self ..)
    exact ⟨heff.legible hn hf h.pool (Event.legible_ofText rd.text e hmem),
      heff.extendsPlain hn hf hx.tree h.plain⟩
  | @importFile s st rd =>
    exact ⟨h.pool.modifyFile _ fun _ hx => ⟨hx.package, hx.options⟩,
      h.plain.of_touches hx.tree (.modifyFile (g := rd.cursor.file) _ fun _ => rfl) fun _ => .inl⟩
  | @complete s st rd pool finished noFault checked =>
    obtain ⟨hc, htouches⟩ := hx.checked checked
    refine ⟨legible_checked (legible_recordTypes h.pool rd.cursor.file) hc,
      h.plain.of_touches hx.tree htouches fun d hd => .inl ?_⟩
    exact hc.sameTree.fields ▸ hd
  | @reject s st rd fault pool finished checked =>
    obtain ⟨hc, htouches⟩ := hx.swept checked
    refine ⟨(legible_recordTypes h.pool rd.cursor.file).swept hc,
      h.plain.of_touches hx.tree htouches fun d hd => .inl ?_⟩
    exact hc.sameTree.fields ▸ hd
  | abandon => exact h

theorem legible_empty : Legible {} :=
  ⟨Pool.legible_empty, fun _ h => absurd h (Nat.not_lt_zero _)⟩

/-- All declarations of a session can be written. -/
theorem Legible.steps (hx : Sound x) (h : Legible x.1) (hs : Steps r x y) : Legible y.1 := by
  induction hs with
  | refl => exact h
  | tail hsteps hstep ih => exact ih.step (hx.steps hsteps) hstep

end ProtoSchema.Session

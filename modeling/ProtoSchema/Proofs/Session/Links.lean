import ProtoSchema.Proofs.Session.Soundness

/-! # Enums with values, extend blocks of extensible messages

`Filled` is the invariant of what a complete file must not leave open: every enum of a registered
file has a value, and every extend block of it that is bound to a message is bound to one with
extension ranges.  An enum without a value is refused where its block is closed, and all blocks of
a file are closed when its text ends without a fault. -/

namespace ProtoSchema

namespace Cursor

variable {c c' : Cursor} {pool other : Pool} {e : Event} {ks ks' : OpenBlocks}

/-- Every enum of the file but the open one has a value. -/
def ClosedFilled (c : Cursor) (pool : Pool) : Prop :=
  ∀ e, pool.EnumOf c.file e → c.openEnum = some e ∨ (pool.enum e).values.values ≠ []

theorem values_of_closeEnum {e : EnumType} {notice : Option Notice} (h : closeEnum e = .ok notice) :
    e.values.values ≠ [] := by
  intro hnone
  unfold closeEnum at h
  rw [hnone] at h
  cases h

/-- Nothing happens to the enums of the file. -/
theorem ClosedFilled.of_eq (h : c.ClosedFilled pool) (hfile : c'.file = c.file)
    (hopen : c'.openEnum = c.openEnum) (henums : ∀ e, other.EnumOf c.file e → pool.EnumOf c.file e)
    (henum : ∀ e, (other.enum e).values = (pool.enum e).values) : c'.ClosedFilled other := by
  intro e he
  rw [hopen, henum]
  exact h e (henums e (hfile ▸ he))

/-- An event leaves no enum without a value but the one that is open behind it. -/
theorem Effect.closedFilled (h : Effect c pool e c' other) (hn : e.Nests ks ks')
    (hf : c.Fits pool ks) (hfilled : c.ClosedFilled pool) : c'.ClosedFilled other := by
  cases h with
  | edition | package | fileOption | importFile | required | strayField | strayValue | closeBlock =>
    exact hfilled.of_eq rfl rfl (fun _ he => he) fun _ => rfl
  | blockOption =>
    exact hfilled.of_eq rfl rfl (fun _ he => he) fun _ => rfl
  | @enumOption o id inEnum =>
    have henum : ∀ e, ((pool.modifyEnum id fun e => { e with options := e.options ++ [o] }).enum e).file =
        (pool.enum e).file ∧
        ((pool.modifyEnum id fun e => { e with options := e.options ++ [o] }).enum e).values =
          (pool.enum e).values := by
      intro e
      rw [Pool.enum_modifyEnum]
      split <;> exact ⟨rfl, rfl⟩
    refine hfilled.of_eq rfl rfl (fun e he => ?_) fun e => (henum e).2
    rw [Pool.EnumOf, Pool.hasEnum_modifyEnum, (henum e).1] at he
    exact he
  | message added =>
    cases hn with
    | openMessage hks =>
      have hadded := Pool.blockAdded_addMessage added (hf.hasScope hks).1
      exact hfilled.of_eq rfl rfl (fun e he => hadded.enumOf_iff.mp he) fun e => by rw [hadded.enum]
  | @extend type =>
    cases hn with
    | openExtend hks =>
      have hadded := Pool.blockAdded_addExtend c.file type
        (pool.resolve? c.file c.scope type.value) (hf.hasScope hks).1
      exact hfilled.of_eq rfl rfl (fun e he => hadded.enumOf_iff.mp he) fun e => by rw [hadded.enum]
  | field scope added =>
    have hadded := Pool.fieldAdded added (hf.scope_block scope).1
    exact hfilled.of_eq rfl rfl (fun e he => hadded.enumOf_iff.mp he) fun e => by rw [hadded.enum]
  | enum added =>
    cases hn with
    | openEnum hks =>
      -- no other enum is open where an enum may be declared
      have hopen := (hf.scopeFits hks).1
      obtain ⟨-, rfl, -⟩ := Pool.addEnum_eq_ok added
      have hadded := Pool.enumAdded_addEnum added (hf.hasScope hks).1
      rintro e ⟨he, hfile⟩
      rcases (hadded.enums e).mp he with hold | rfl
      · rw [hadded.enum e hold] at hfile ⊢
        rcases hfilled e ⟨hold, hfile⟩ with h | h
        · rw [hopen] at h
          cases h
        · exact .inr h
      · exact .inl rfl
  | @value v id other inEnum added =>
    obtain ⟨-, -, rfl⟩ := Pool.addValue_eq_ok added
    rintro e ⟨he, hfile⟩
    by_cases heq : e = id
    · exact .inl (heq ▸ inEnum)
    · rw [Pool.enum_modifyEnum, if_neg fun h => heq h.1.symm] at hfile ⊢
      exact hfilled e ⟨by rwa [Pool.hasEnum_modifyEnum] at he, hfile⟩
  | reservedRanges | reservedNames | extensionRanges =>
    unfold modifyOpen
    split
    · exact hfilled.of_eq rfl rfl (fun _ he => he) fun _ => rfl
    · exact hfilled
  | closeEnum inEnum valid =>
    intro e he
    refine .inr ?_
    rcases hfilled e he with h | h
    · rw [inEnum] at h
      cases h
      exact values_of_closeEnum valid
    · exact h

/-- Where no block is open, no enum is. -/
theorem Fits.openEnum_eq_none (h : c.Fits pool []) : c.openEnum = none := by
  cases h.place with
  | scope noEnum fits => exact noEnum

end Cursor

namespace Pool

variable {pool other : Pool} {f g : FileId}

theorem Swept.enum_eq (h : Swept f pool other) : other.enum = pool.enum := by
  induction h with
  | refl => rfl
  | tail _ hb ih =>
    refine Eq.trans ?_ ih
    cases hb <;> rfl

theorem Checked.enum_eq (h : Checked f pool other) : other.enum = pool.enum := by
  obtain ⟨swept, hs, he⟩ := h.swept
  rw [he]
  exact hs.enum_eq

/-- A message that can be extended stays so. -/
theorem Extensible.of_touches (ht : Touches g pool other) {b : BlockId}
    (heading : (other.block b).heading = (pool.block b).heading) (h : pool.Extensible b) :
    other.Extensible b := by
  intro type m hh
  rw [heading] at hh
  have hne := h type m hh
  have hm : pool.HasBlock m := by
    by_contra hm
    rw [block_of_not_hasBlock hm] at hne
    exact hne rfl
  obtain ⟨range, hrange⟩ := List.exists_mem_of_ne_nil _ hne
  exact List.ne_nil_of_mem ((ht.block m hm).2.1.ranges hrange)

end Pool

namespace Session

variable {r : Resolver} {x y : State} {s s' : Session} {st : List Reading} {rd : Reading}

/-- A file that is being read: its blocks will all be closed if its text has no fault. -/
structure Reading.Filled (s : Session) (rd : Reading) : Prop where
  closes : (Event.ofText rd.text).2 = none → ∃ ks, rd.cursor.Fits s.pool ks ∧
    Event.Nested ks rd.rest []
  enums : rd.cursor.ClosedFilled s.pool

/-- Registered files have values in all enums and extend only messages with extension ranges. -/
structure Filled (x : State) : Prop where
  enums : ∀ f e, x.1.Registered f → x.1.pool.EnumOf f e → (x.1.pool.enum e).values.values ≠ []
  ranges : ∀ f b, x.1.Registered f → x.1.pool.BlockOf f b → x.1.pool.Extensible b
  reading : ∀ rd ∈ x.2, rd.Filled x.1

/-- The files that are being read while another one is changed. -/
theorem Reading.Filled.of_touches (h : rd.Filled s) (hs : rd.Sound s) (hw : s.pool.WellFormed)
    {g : FileId} (ht : Pool.Touches g s.pool s'.pool) (hne : rd.cursor.file ≠ g) : rd.Filled s' := by
  have hkept := ht.kept hw hs.hasFile hne
  refine ⟨fun hfault => ?_, fun e he => ?_⟩
  · obtain ⟨ks, hf, hn⟩ := h.closes hfault
    exact ⟨ks, hf.of_kept ht hkept, hn⟩
  · have he := (hkept.enums e).mp he
    rw [hkept.enum e he]
    exact h.enums e he

/-- The invariant while a file is changed that is not registered. -/
theorem Filled.change (h : Filled (s, st)) (hx : Sound (s, st)) {g : FileId} {st' : List Reading}
    (hst : st'.Sublist st) (hg : ¬s.Registered g) (hne : ∀ rd ∈ st', rd.cursor.file ≠ g)
    (ht : Pool.Touches g s.pool s'.pool) (hr : s'.registry = s.registry) : Filled (s', st') := by
  have hreg : ∀ f, s'.Registered f → s.Registered f := by
    rintro f ⟨name, hf⟩
    exact ⟨name, hr ▸ hf⟩
  have hkept : ∀ f, s.Registered f → Pool.Kept f s.pool s'.pool := fun f hf =>
    ht.kept hx.tree (hx.hasFile hf) fun e => hg (e ▸ hf)
  refine ⟨fun f e hf he => ?_, fun f b hf hb => ?_, fun rd hrd => ?_⟩
  · have hk := hkept f (hreg f hf)
    have he := (hk.enums e).mp he
    show (s'.pool.enum e).values.values ≠ []
    rw [hk.enum e he]
    exact h.enums f e (hreg f hf) he
  · have hk := hkept f (hreg f hf)
    have hb := (hk.blocks b).mp hb
    exact (h.ranges f b (hreg f hf) hb).of_touches ht (by rw [hk.block b hb])
  · exact (h.reading rd (hst.mem hrd)).of_touches (hx.reading rd (hst.mem hrd)) hx.tree ht
      (hne rd hrd)

/-- Every step keeps the invariant. -/
theorem Filled.step (hx : Sound x) (h : Filled x) (hs : Step r x y) : Filled y := by
  have hcons : ∀ {s : Session} {st : List Reading} {rd : Reading}, Filled (s, st) → rd.Filled s →
      Filled (s, rd :: st) := fun h hrd =>
    ⟨h.enums, h.ranges, List.forall_mem_cons.mpr ⟨hrd, h.reading⟩⟩
  have hy := hx.step hs
  cases hs with
  | @begin s st name file free fresh opened =>
    have hadded := Pool.fileAdded s.pool name file.path
    have hnew := (hy.reading _ (List.mem_cons_self ..)).fits
    obtain ⟨ks, ks', hf, -⟩ := hnew
    refine hcons (h.change hx (.refl _) ?_ ?_ (.of_fileAdded (g := ⟨s.pool.files.size⟩) hadded) rfl)
      ⟨fun hfault => ?_, fun e he => absurd he ((hf.early rfl).2 e)⟩
    · exact fun hr => Pool.not_hasFile_size (hx.hasFile hr)
    · exact fun rd hrd e => Pool.not_hasFile_size (e ▸ (hx.reading rd hrd).hasFile)
    · obtain ⟨ks, hnested, hks⟩ := Event.nested_ofText file.text
      obtain ⟨hb, he⟩ := hf.early rfl
      exact ⟨[], Cursor.fits_start hf.hasFile hb he, hks hfault ▸ hnested⟩
  | @event s st rd e rest c pool notice next noImport applied =>
    have hread := hx.reading rd (List.mem_cons_self ..)
    obtain ⟨hcloses, henums⟩ := h.reading rd (List.mem_cons_self ..)
    obtain ⟨ks, ks', hn, hf, heff, -⟩ := reading_event hread next applied
    refine hcons (h.change hx (List.sublist_cons_self ..)
      (hx.not_registered (List.mem_cons_self ..)) (fun rd' => hx.file_ne) (heff.touches hn hf) rfl)
      ⟨fun hfault => ?_, heff.closedFilled hn hf henums⟩
    obtain ⟨ks, hf, hnested⟩ := hcloses hfault
    rw [next] at hnested
    cases hnested with
    | cons head tail => exact ⟨_, heff.fits head hf, tail⟩
  | @importFile s st rd kind target rest id next found =>
    have hread := hx.reading rd (List.mem_cons_self ..)
    obtain ⟨hcloses, henums⟩ := h.reading rd (List.mem_cons_self ..)
    refine hcons (h.change hx (List.sublist_cons_self ..)
      (hx.not_registered (List.mem_cons_self ..)) (fun rd' => hx.file_ne)
      (.modifyFile _ fun _ => rfl) rfl) ⟨fun hfault => ?_, henums⟩
    obtain ⟨ks, hf, hnested⟩ := hcloses hfault
    rw [next] at hnested
    cases hnested with
    | cons head tail =>
      cases head
      exact ⟨_, hf.of_touches (.modifyFile (g := rd.cursor.file) _ fun _ => rfl) rfl rfl, tail⟩
  | @complete s st rd pool finished noFault checked =>
    obtain ⟨hc, ht⟩ := hx.checked checked
    have hothers : Filled ({ s with pool }, st) := h.change hx (List.sublist_cons_self ..)
      (hx.not_registered (List.mem_cons_self ..)) (fun rd' => hx.file_ne) ht rfl
    have hreg : ∀ f, (s.register pool rd.name rd.cursor.file).Registered f ↔
        s.Registered f ∨ f = rd.cursor.file := fun f =>
      registered_register (hx.distinct.free rd (List.mem_cons_self ..))
    refine ⟨fun f e hf he => ?_, fun f b hf hb => ?_, fun rd' hrd =>
      ⟨(hothers.reading rd' hrd).closes, (hothers.reading rd' hrd).enums⟩⟩
    · rcases (hreg f).mp hf with hf | rfl
      · exact hothers.enums f e hf he
      · -- the text has ended without a fault, so no enum is open
        obtain ⟨hcloses, henums⟩ := h.reading rd (List.mem_cons_self ..)
        obtain ⟨ks, hfits, hnested⟩ := hcloses noFault
        rw [finished] at hnested
        cases hnested
        have henum : pool.enum = s.pool.enum := hc.enum_eq
        have he : s.pool.EnumOf rd.cursor.file e := by
          have hhas : pool.HasEnum = s.pool.HasEnum := hc.sameTree.enums
          rwa [Session.register, Pool.EnumOf, hhas, henum] at he
        show (pool.enum e).values.values ≠ []
        rw [henum]
        refine (henums e he).resolve_left fun hopen => ?_
        rw [hfits.openEnum_eq_none] at hopen
        cases hopen
    · rcases (hreg f).mp hf with hf | rfl
      · exact hothers.ranges f b hf hb
      · exact hc.extensible b hb
  | @reject s st rd fault pool finished checked =>
    exact h.change hx (List.sublist_cons_self ..) (hx.not_registered (List.mem_cons_self ..))
      (fun rd' => hx.file_ne) (hx.swept checked).2 rfl
  | @abandon s st rd =>
    exact h.change hx (List.sublist_cons_self ..) (hx.not_registered (List.mem_cons_self ..))
      (fun rd' => hx.file_ne) (.refl _ _) rfl

theorem filled_empty : Filled ({}, []) where
  enums f e hf := by
    obtain ⟨name, h⟩ := hf
    cases h
  ranges f b hf := by
    obtain ⟨name, h⟩ := hf
    cases h
  reading rd hrd := by cases hrd

theorem Filled.steps (hx : Sound x) (h : Filled x) (hs : Steps r x y) : Filled y := by
  induction hs with
  | refl => exact h
  | tail hsteps hstep ih => exact ih.step (hx.steps hsteps) hstep

end Session

end ProtoSchema

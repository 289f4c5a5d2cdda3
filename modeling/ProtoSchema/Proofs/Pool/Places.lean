import ProtoSchema.Proofs.Event.Places
import ProtoSchema.Proofs.Pool.Drafting
import ProtoSchema.Proofs.Pool.Sweep

/-! # Places of declarations

A pool keeps where the declarations of a file are written (`Pool.PlaceOf`).  An event adds places that
it carries itself, and nothing else that is done to a pool adds any (`Pool.AddsPlaces`).  These are the
places that show what is wrong with a file: an event that cannot be applied shows one of them or one of
its own, or one of them in front of one of its own (`Cursor.objects_of_apply`), and a file that does not
pass its checks shows one of them (`Pool.place_of_checkFile`). -/

namespace ProtoSchema

/-! ### Steps that fail -/

theorem map_eq_error {ε α β : Type} {x : Except ε α} {f : α → β} {fault : ε}
    (h : x.map f = .error fault) : x = .error fault := by
  cases x with
  | error fault' =>
    cases h
    rfl
  | ok a => cases h

/-- A fold that fails has a step that fails. -/
theorem exists_of_foldlM_error {ε α β : Type} {step : β → α → Except ε β} {e : ε} (xs : List α) :
    ∀ {b}, xs.foldlM step b = .error e → ∃ x ∈ xs, ∃ b', step b' x = .error e := by
  induction xs with
  | nil => exact fun h => nomatch h
  | cons x xs ih =>
    intro b h
    rw [List.foldlM_cons] at h
    cases hx : step b x with
    | error e' =>
      rw [hx] at h
      cases h
      exact ⟨x, List.mem_cons_self .., b, hx⟩
    | ok b' =>
      rw [hx] at h
      obtain ⟨y, hy, hstep⟩ := ih h
      exact ⟨y, List.mem_cons_of_mem x hy, hstep⟩

/-! ### Places of records -/

/-- Where the edition and the package of the file are written. -/
def File.spans (x : File) : List Span :=
  (x.edition.map Located.span).toList ++ (x.package.map Located.span).toList

theorem File.mem_spans_iff {x : File} {sp : Span} :
    sp ∈ x.spans ↔ (∃ e, x.edition = some e ∧ e.span = sp) ∨
      ∃ name, x.package = some name ∧ name.span = sp := by
  simp only [spans, List.mem_append, Option.mem_toList, Option.map_eq_some_iff]

/-- Where the enum and the names of its values are written. -/
def EnumType.spans (x : EnumType) : List Span := x.span :: x.values.values.map fun v => v.name.span

theorem EnumType.mem_spans_iff {x : EnumType} {sp : Span} :
    sp ∈ x.spans ↔ sp = x.span ∨ ∃ v ∈ x.values.values, v.name.span = sp := by
  simp only [spans, List.mem_cons, List.mem_map]

/-- Where the type, the name and the number of the field are written. -/
def Field.spans (x : Field) : List Span := [x.typeSpan, x.name.span, x.number.span]

namespace Field

theorem typeSpan_mem_spans (x : Field) : x.typeSpan ∈ x.spans := List.mem_cons_self ..

theorem name_mem_spans (x : Field) : x.name.span ∈ x.spans := List.mem_cons_of_mem _ (List.mem_cons_self ..)

theorem number_mem_spans (x : Field) : x.number.span ∈ x.spans :=
  List.mem_cons_of_mem _ (List.mem_cons_of_mem _ (List.mem_cons_self ..))

/-- A field whose type is bound stays where it is. -/
theorem Refines.spans_eq {x y : Field} (h : Refines x y) : y.spans = x.spans := by
  rw [h.same]
  rfl

end Field

namespace Pool

variable {pool other : Pool} {f : FileId} {sp : Span} {more : List Span}

/-- A place where something of the file `f` is declared, or where a type is named. -/
inductive PlaceOf (pool : Pool) (f : FileId) : Span → Prop
  | file {place} (mem : place ∈ (pool.file f).spans) : PlaceOf pool f place
  | block {b} (there : pool.BlockOf f b) : PlaceOf pool f (pool.block b).span
  | enum {e place} (there : pool.EnumOf f e) (mem : place ∈ (pool.enum e).spans) : PlaceOf pool f place
  | field {d place} (there : pool.FieldOf f d) (mem : place ∈ (pool.field d).spans) : PlaceOf pool f place

/-- Where a name is declared in a scope is a place of its file. -/
theorem WellFormed.placeOf_of_placeOf? (hw : pool.WellFormed) {s : Scope} {n : String}
    (h : pool.placeOf? s n = some sp) : pool.PlaceOf (pool.scopeFile s) sp := by
  unfold placeOf? at h
  rw [Option.or_eq_some_iff] at h
  obtain hmessage | ⟨-, h⟩ := h
  · obtain ⟨b, hfind, rfl⟩ := Option.map_eq_some_iff.mp hmessage
    obtain ⟨hb, rfl, -⟩ := (hw.message_iff s n b).mp hfind
    exact .block ⟨hb, (hw.block_scope b hb).2.symm⟩
  rw [Option.or_eq_some_iff] at h
  obtain henum | ⟨-, hfield⟩ := h
  · obtain ⟨e, hfind, rfl⟩ := Option.map_eq_some_iff.mp henum
    obtain ⟨he, rfl, -⟩ := (hw.enum_iff s n e).mp hfind
    exact .enum ⟨he, (hw.enum_scope e he).2.symm⟩ (List.mem_cons_self ..)
  · obtain ⟨F, hfind, rfl⟩ := Option.map_eq_some_iff.mp hfield
    cases s with
    | file i => cases hfind
    | block b =>
      obtain ⟨d, hmem, rfl⟩ := List.mem_map.mp (List.mem_of_find?_eq_some hfind)
      obtain ⟨hd, rfl⟩ := hw.mem_fields_iff.mp hmem
      exact .field ⟨hd, hw.field_block d hd, rfl⟩ (Field.name_mem_spans _)

/-! ### Changes -/

/-- The places of the file `f` in the pool `other` are those in `pool` and some of `more`. -/
def AddsPlaces (f : FileId) (more : List Span) (pool other : Pool) : Prop :=
  ∀ sp, other.PlaceOf f sp → pool.PlaceOf f sp ∨ sp ∈ more

namespace AddsPlaces

protected theorem refl (f : FileId) (more : List Span) (pool : Pool) : AddsPlaces f more pool pool :=
  fun _ h => .inl h

theorem modifyFile {i : FileId} {k : File → File}
    (hk : ∀ x, ∀ sp ∈ (k x).spans, sp ∈ x.spans ∨ sp ∈ more) :
    AddsPlaces f more pool (pool.modifyFile i k) := by
  intro sp h
  cases h with
  | file mem =>
    rw [file_modifyFile] at mem
    split at mem
    · exact (hk _ sp mem).imp_left .file
    · exact .inl (.file mem)
  | block there => exact .inl (.block there)
  | enum there mem => exact .inl (.enum there mem)
  | field there mem => exact .inl (.field there mem)

theorem modifyBlock {i : BlockId} {k : Block → Block}
    (hk : ∀ x, (k x).file = x.file ∧ (k x).span = x.span) :
    AddsPlaces f more pool (pool.modifyBlock i k) := by
  have hsame : ∀ b, ((pool.modifyBlock i k).block b).file = (pool.block b).file ∧
      ((pool.modifyBlock i k).block b).span = (pool.block b).span := by
    intro b
    rw [block_modifyBlock]
    split
    · exact hk _
    · exact ⟨rfl, rfl⟩
  have hblock : ∀ {b}, (pool.modifyBlock i k).BlockOf f b → pool.BlockOf f b := by
    rintro b ⟨hb, hfile⟩
    rw [hasBlock_modifyBlock] at hb
    exact ⟨hb, (hsame b).1.symm.trans hfile⟩
  intro sp h
  cases h with
  | file mem => exact .inl (.file mem)
  | @block b there =>
    rw [(hsame b).2]
    exact .inl (.block (hblock there))
  | enum there mem => exact .inl (.enum there mem)
  | field there mem => exact .inl (.field ⟨there.1, hblock there.2⟩ mem)

theorem modifyEnum {i : EnumId} {k : EnumType → EnumType} (hfile : ∀ x, (k x).file = x.file)
    (hk : ∀ x, ∀ sp ∈ (k x).spans, sp ∈ x.spans ∨ sp ∈ more) :
    AddsPlaces f more pool (pool.modifyEnum i k) := by
  have henum : ∀ {e}, (pool.modifyEnum i k).EnumOf f e → pool.EnumOf f e := by
    rintro e ⟨he, hf⟩
    rw [hasEnum_modifyEnum] at he
    refine ⟨he, ?_⟩
    rw [← hf, enum_modifyEnum]
    split
    · exact (hfile _).symm
    · rfl
  intro sp h
  cases h with
  | file mem => exact .inl (.file mem)
  | block there => exact .inl (.block there)
  | enum there mem =>
    rw [enum_modifyEnum] at mem
    split at mem
    · exact (hk _ sp mem).imp_left (.enum (henum there))
    · exact .inl (.enum (henum there) mem)
  | field there mem => exact .inl (.field there mem)

theorem modifyField {i : FieldId} {k : Field → Field} (hk : ∀ x, Field.Refines x (k x)) :
    AddsPlaces f more pool (pool.modifyField i k) := by
  have hsame : ∀ d, Field.Refines (pool.field d) ((pool.modifyField i k).field d) := by
    intro d
    rw [field_modifyField]
    split
    · exact hk _
    · exact .refl _
  intro sp h
  cases h with
  | file mem => exact .inl (.file mem)
  | block there => exact .inl (.block there)
  | enum there mem => exact .inl (.enum there mem)
  | @field d _ there mem =>
    obtain ⟨hd, hb⟩ := there
    rw [hasField_modifyField] at hd
    rw [(hsame d).same] at hb
    rw [(hsame d).spans_eq] at mem
    exact .inl (.field ⟨hd, hb⟩ mem)

theorem blockAdded {B : Block} {k : Members → Members} (h : BlockAdded pool other B k)
    (hw : pool.WellFormed) (hB : B.file = f) (hspan : B.span ∈ more) : AddsPlaces f more pool other := by
  intro sp hsp
  cases hsp with
  | file mem =>
    rw [h.file] at mem
    exact .inl (.file mem)
  | @block b there =>
    obtain hb | rfl := (h.blockOf_iff hB).mp there
    · rw [h.block_span hb.1]
      exact .inl (.block hb)
    · rw [h.block_new]
      exact .inr hspan
  | enum there mem =>
    rw [h.enum] at mem
    exact .inl (.enum (h.enumOf_iff.mp there) mem)
  | field there mem =>
    rw [h.field] at mem
    exact .inl (.field ((h.fieldOf_iff hw hB).mp there) mem)

theorem enumAdded {E : EnumType} {k : Members → Members} (h : EnumAdded pool other E k)
    (hE : E.file = f) (hspans : ∀ sp ∈ E.spans, sp ∈ more) : AddsPlaces f more pool other := by
  intro sp hsp
  cases hsp with
  | file mem =>
    rw [h.file] at mem
    exact .inl (.file mem)
  | block there =>
    rw [h.block_span]
    exact .inl (.block (h.blockOf_iff.mp there))
  | enum there mem =>
    obtain he | rfl := (h.enumOf_iff hE).mp there
    · rw [h.enum _ he.1] at mem
      exact .inl (.enum he mem)
    · rw [h.enum_new] at mem
      exact .inr (hspans sp mem)
  | field there mem =>
    rw [h.field] at mem
    exact .inl (.field (h.fieldOf_iff.mp there) mem)

theorem fieldAdded {F : Field} (h : FieldAdded pool other F) (hF : pool.BlockOf f F.block)
    (hspans : ∀ sp ∈ F.spans, sp ∈ more) : AddsPlaces f more pool other := by
  intro sp hsp
  cases hsp with
  | file mem =>
    rw [h.file] at mem
    exact .inl (.file mem)
  | block there =>
    rw [h.block_span]
    exact .inl (.block (h.blockOf_iff.mp there))
  | enum there mem =>
    rw [h.enum] at mem
    exact .inl (.enum (h.enumOf_iff.mp there) mem)
  | field there mem =>
    obtain hd | rfl := (h.fieldOf_iff hF).mp there
    · rw [h.field _ hd.1] at mem
      exact .inl (.field hd mem)
    · rw [h.field_new] at mem
      exact .inr (hspans sp mem)

end AddsPlaces

/-- A file that is left alone keeps its places. -/
theorem Kept.placeOf (h : Kept f pool other) (hsp : other.PlaceOf f sp) : pool.PlaceOf f sp := by
  cases hsp with
  | file mem => exact .file (h.file ▸ mem)
  | @block b there =>
    have hb := (h.blocks b).mp there
    rw [h.block b hb]
    exact .block hb
  | @enum e _ there mem =>
    have he := (h.enums e).mp there
    rw [h.enum e he] at mem
    exact .enum he mem
  | @field d _ there mem =>
    have hd := (h.fields d).mp there
    rw [h.field d hd] at mem
    exact .field hd mem

/-- Binding names adds no place. -/
theorem Swept.placeOf {g : FileId} (h : Swept g pool other) (hsp : other.PlaceOf f sp) : pool.PlaceOf f sp := by
  induction h with
  | refl => exact hsp
  | @tail middle last _ hbinds ih =>
    refine ih ?_
    have hadds : AddsPlaces f [] middle last := by
      cases hbinds with
      | block => exact .modifyBlock fun x => ⟨(x.bind_refines _).file, (x.bind_refines _).span⟩
      | field => exact .modifyField fun x => x.bind_refines _
    exact (hadds sp hsp).resolve_right List.not_mem_nil

end Pool

/-! ### Events -/

namespace Cursor

variable {c c' : Cursor} {pool other : Pool} {e : Event} {ks ks' : OpenBlocks}

/-- An event adds no place but those that it carries. -/
theorem Effect.addsPlaces (h : Effect c pool e c' other) (hn : e.Nests ks ks') (hf : c.Fits pool ks)
    (hw : pool.WellFormed) : Pool.AddsPlaces c.file e.spans pool other := by
  cases h with
  | edition =>
    refine .modifyFile fun x sp hsp => ?_
    obtain ⟨e', he, rfl⟩ | hpackage := File.mem_spans_iff.mp hsp
    · cases he
      exact .inr (List.mem_singleton_self _)
    · exact .inl (File.mem_spans_iff.mpr (.inr hpackage))
  | package =>
    refine .modifyFile fun x sp hsp => ?_
    obtain hedition | ⟨name, hname, rfl⟩ := File.mem_spans_iff.mp hsp
    · exact .inl (File.mem_spans_iff.mpr (.inl hedition))
    · cases hname
      exact .inr (List.mem_singleton_self _)
  | importFile | required | strayField | strayValue | closeEnum | closeBlock => exact .refl _ _ _
  | fileOption => exact .modifyFile fun x sp hsp => .inl hsp
  | blockOption => exact .modifyBlock fun x => ⟨rfl, rfl⟩
  | enumOption => exact .modifyEnum (fun x => rfl) fun x sp hsp => .inl hsp
  | message added =>
    cases hn with
    | openMessage hks =>
      obtain ⟨hs, hfile⟩ := hf.hasScope hks
      exact .blockAdded (Pool.blockAdded_addMessage added hs) hw rfl (List.mem_singleton_self _)
  | extend =>
    cases hn with
    | openExtend hks =>
      obtain ⟨hs, hfile⟩ := hf.hasScope hks
      exact .blockAdded (Pool.blockAdded_addExtend c.file _ _ hs) hw rfl (List.mem_singleton_self _)
  | enum added =>
    cases hn with
    | openEnum hks =>
      obtain ⟨hs, hfile⟩ := hf.hasScope hks
      exact .enumAdded (Pool.enumAdded_addEnum added hs) rfl fun sp hsp => hsp
  | field scope added =>
    have hb := hf.scope_block scope
    exact .fieldAdded (Pool.fieldAdded added hb.1) hb fun sp hsp => hsp
  | @value v id _ inEnum added =>
    obtain ⟨-, -, rfl⟩ := Pool.addValue_eq_ok added
    refine .modifyEnum (fun x => rfl) fun x sp hsp => ?_
    obtain rfl | ⟨v', hv', rfl⟩ := EnumType.mem_spans_iff.mp hsp
    · exact .inl (List.mem_cons_self ..)
    obtain ⟨n, hn⟩ := Table.mem_values_iff.mp hv'
    rw [Table.find?_insert, Option.or_eq_some_iff] at hn
    obtain hn | ⟨-, hn⟩ := hn
    · exact .inl (EnumType.mem_spans_iff.mpr (.inr ⟨v', Table.mem_values_iff.mpr ⟨n, hn⟩, rfl⟩))
    · split at hn
      · cases hn
        exact .inr (List.mem_cons_self ..)
      · cases hn
  | reservedRanges | reservedNames | extensionRanges =>
    unfold modifyOpen
    split
    · exact .modifyBlock fun x => ⟨rfl, rfl⟩
    · exact .refl _ _ _

/-- What a fault of an event shows: a place that the event carries or one that was there, or one that was
there and then one that the event carries. -/
inductive Objects (c : Cursor) (pool : Pool) (e : Event) : Fault → Prop
  | one {f sp} (spans : f.spans = [sp]) (place : pool.PlaceOf c.file sp ∨ sp ∈ e.spans) : Objects c pool e f
  | two {f first second} (spans : f.spans = [first, second]) (place : pool.PlaceOf c.file first)
      (mem : second ∈ e.spans) : Objects c pool e f

/-- A name that is declared already. -/
theorem objects_of_checkName {name : Located String} {fault : Fault} (hw : pool.WellFormed)
    (hs : pool.scopeFile c.scope = c.file) (hmem : name.span ∈ e.spans)
    (h : pool.checkName c.scope name = .error fault) : c.Objects pool e fault := by
  unfold Pool.checkName at h
  split at h
  · next first hfirst =>
    cases h
    exact .two rfl (hs ▸ hw.placeOf_of_placeOf? hfirst) hmem
  · cases h

/-- An event that cannot be applied shows places of the file, the last of them its own if there are
two. -/
theorem objects_of_apply {fault : Fault} (hf : c.Fits pool ks) (hw : pool.WellFormed)
    (h : c.apply pool e = .error fault) : c.Objects pool e fault := by
  have hs := hf.scopeFile.2
  cases e with
  | edition e =>
    have h := map_eq_error h
    unfold addEdition at h
    split at h
    · next first hfirst =>
      cases h
      exact .two rfl (.file (File.mem_spans_iff.mpr (.inl ⟨first, hfirst, rfl⟩))) (List.mem_singleton_self _)
    · cases h
  | package name =>
    have h := map_eq_error h
    unfold addPackage at h
    split at h
    · next first hfirst =>
      cases h
      exact .two rfl (.file (File.mem_spans_iff.mpr (.inr ⟨first, hfirst, rfl⟩))) (List.mem_singleton_self _)
    · split at h
      · cases h
        exact .one rfl (.inr (List.mem_singleton_self _))
      · cases h
  | importFile | option | openExtend | reservedRanges | reservedNames | extensionRanges => cases h
  | openMessage name =>
    have h := map_eq_error h
    unfold Pool.addMessage at h
    split at h
    · next hname =>
      cases h
      exact objects_of_checkName hw hs (List.mem_singleton_self _) hname
    · cases h
  | openEnum name =>
    have h := map_eq_error h
    unfold Pool.addEnum at h
    split at h
    · next hname =>
      cases h
      exact objects_of_checkName hw hs (List.mem_singleton_self _) hname
    · cases h
  | required span =>
    simp only [apply] at h
    split at h
    · cases h
      exact .one rfl (.inr (List.mem_singleton_self _))
    · cases h
  | field F =>
    have hname : F.name.span ∈ (Event.field F).spans := List.mem_cons_of_mem _ (List.mem_cons_self ..)
    have hnumber : F.number.span ∈ (Event.field F).spans :=
      List.mem_cons_of_mem _ (List.mem_cons_of_mem _ (List.mem_cons_self ..))
    have h := map_eq_error h
    unfold addField at h
    split at h
    · next block scope =>
      simp only [Pool.addField] at h
      split at h
      · next first hfirst =>
        cases h
        obtain ⟨hd, hblock, -⟩ := (hw.field_iff _ _ _).mp hfirst
        exact .two rfl (.field ⟨hd, hblock ▸ hf.scope_block scope⟩ (Field.number_mem_spans _)) hnumber
      · split at h
        · next hcheck =>
          cases h
          rw [← scope] at hcheck
          exact objects_of_checkName hw hs hname hcheck
        · cases h
    · cases h
  | value v =>
    simp only [apply] at h
    split at h
    · next id inEnum =>
      have h := map_eq_error h
      simp only [Pool.addValue] at h
      split at h
      · next first hfirst =>
        cases h
        have hmem := EnumType.mem_spans_iff.mpr (.inr ⟨first, Table.mem_values_iff.mpr ⟨_, hfirst⟩, rfl⟩)
        exact .two rfl (.enum (hf.enumOf inEnum) hmem) (List.mem_cons_of_mem _ (List.mem_cons_self ..))
      · split at h
        · next first hfirst =>
          cases h
          have hmem := EnumType.mem_spans_iff.mpr (.inr ⟨first, List.mem_of_find?_eq_some hfirst, rfl⟩)
          exact .two rfl (.enum (hf.enumOf inEnum) hmem) (List.mem_cons_self ..)
        · cases h
    · cases h
  | close =>
    simp only [apply] at h
    split at h
    · next id inEnum =>
      have h := map_eq_error h
      unfold closeEnum at h
      split at h
      · cases h
        exact .one rfl (.inl (.enum (hf.enumOf inEnum) (List.mem_cons_self ..)))
      · split at h <;> cases h
    · cases h

end Cursor

/-! ### Complete files -/

namespace Pool

variable {pool : Pool} {f : FileId} {fault : Fault}

/-- The fault shows one place of the file. -/
def ShowsPlaceOf (pool : Pool) (f : FileId) (fault : Fault) : Prop :=
  ∃ sp, fault.spans = [sp] ∧ pool.PlaceOf f sp

theorem place_of_sweepBlock {b : BlockId} {other : Pool} (hb : pool.BlockOf f b)
    (h : sweepBlock f b pool = .error fault other) : pool.ShowsPlaceOf f fault := by
  simp only [sweepBlock, bind, EStateM.bind, get_apply] at h
  cases hheading : (pool.block b).heading with
  | message name =>
    simp only [hheading] at h
    cases h
  | extend type target =>
    cases target with
    | some t =>
      simp only [hheading] at h
      cases h
    | none =>
      cases hresolve : pool.resolve? f (pool.block b).parent type with
      | some t =>
        simp only [hheading, hresolve] at h
        cases h
      | none =>
        simp only [hheading, hresolve] at h
        cases h
        exact ⟨_, rfl, .block hb⟩

theorem place_of_sweepField {d : FieldId} {other : Pool} (hd : pool.FieldOf f d)
    (h : sweepField f d pool = .error fault other) : pool.ShowsPlaceOf f fault := by
  simp only [sweepField, bind, EStateM.bind, get_apply] at h
  cases htype : (pool.field d).type with
  | scalar s =>
    simp only [htype] at h
    cases h
  | named name target =>
    cases target with
    | some t =>
      simp only [htype] at h
      cases h
    | none =>
      cases hresolve : pool.resolve? f (.block (pool.field d).block) name with
      | some t =>
        simp only [htype, hresolve] at h
        cases h
      | none =>
        simp only [htype, hresolve] at h
        cases h
        exact ⟨_, rfl, .field hd (Field.typeSpan_mem_spans _)⟩

/-- A name that the sweep cannot bind is a place of the file. -/
theorem place_of_sweep {other : Pool} (hw : pool.WellFormed) (hf : pool.HasFile f)
    (h : sweep f pool = .error fault other) : pool.ShowsPlaceOf f fault := by
  have hblock : ∀ b ∈ pool.blocksOf f, ∀ s, Swept f pool s → s.BlockOf f b := fun b hb s hs =>
    hs.blockOf_iff.mpr ((hw.mem_blocksOf_iff hf).mp hb)
  have hfield : ∀ d ∈ pool.fieldsOf f, ∀ s, Swept f pool s → s.FieldOf f d := fun d hd s hs =>
    hs.fieldOf_iff.mpr ((hw.mem_fieldsOf_iff hf).mp hd)
  rw [sweep_eq] at h
  replace h : EStateM.bind ((pool.blocksOf f).forM (sweepBlock f))
    (fun _ => (pool.fieldsOf f).forM (sweepField f)) pool = .error fault other := h
  unfold EStateM.bind at h
  have hends := sweepBlocks_ends hw hf
  cases hblocks : (pool.blocksOf f).forM (sweepBlock f) pool with
  | error fault' other' =>
    rw [hblocks] at h
    cases h
    obtain ⟨b, hb, s, hs, hfails⟩ := exists_of_forM_error (p := Swept f pool) _ (fun b hb s hs =>
      (sweepBlock_ends (hblock b hb s hs)).mono (fun _ _ hnext => hs.trans hnext.1) fun _ _ => trivial)
      .refl hblocks
    obtain ⟨sp, hspans, hplace⟩ := place_of_sweepBlock (hblock b hb s hs) hfails
    exact ⟨sp, hspans, hs.placeOf hplace⟩
  | ok u swept =>
    rw [hblocks] at h hends
    obtain ⟨d, hd, s, hs, hfails⟩ := exists_of_forM_error (p := Swept f pool) _ (fun d hd s hs =>
      (sweepField_ends (hfield d hd s hs)).mono (fun _ _ hnext => hs.trans hnext.1) fun _ _ => trivial)
      hends.1 h
    obtain ⟨sp, hspans, hplace⟩ := place_of_sweepField (hfield d hd s hs) hfails
    exact ⟨sp, hspans, hs.placeOf hplace⟩

theorem place_of_fieldFault {block : Block} {d : FieldId} (hd : pool.FieldOf f d)
    (h : fieldFault block (pool.field d) = some fault) : pool.ShowsPlaceOf f fault := by
  simp only [fieldFault] at h
  split at h
  · cases h
    exact ⟨_, rfl, .field hd (Field.number_mem_spans _)⟩
  split at h
  · cases h
    exact ⟨_, rfl, .field hd (Field.name_mem_spans _)⟩
  split at h
  · cases h
    exact ⟨_, rfl, .field hd (Field.number_mem_spans _)⟩
  · cases h

theorem place_of_claimNumber {target : BlockId} {claims : Claims} {d : FieldId} (hd : pool.FieldOf f d)
    (h : pool.claimNumber target claims d = .error fault) : pool.ShowsPlaceOf f fault := by
  simp only [claimNumber] at h
  split at h
  · split at h
    · split at h
      · cases h
      · cases h
        exact ⟨_, rfl, .field hd (Field.number_mem_spans _)⟩
    · cases h
  · cases h
    exact ⟨_, rfl, .field hd (Field.number_mem_spans _)⟩

theorem place_of_checkBlock {claims : Claims} {b : BlockId} (hw : pool.WellFormed) (hb : pool.BlockOf f b)
    (h : pool.checkBlock claims b = .error fault) : pool.ShowsPlaceOf f fault := by
  have hfields : ∀ d ∈ (pool.block b).fields.values, pool.FieldOf f d := by
    intro d hmem
    obtain ⟨hd, hblock⟩ := hw.mem_fields_iff.mp hmem
    exact ⟨hd, hblock ▸ hb⟩
  simp only [checkBlock] at h
  split at h
  · have h := map_eq_error h
    simp only [checkMessage] at h
    split at h
    · next fault' hfault =>
      cases h
      obtain ⟨F, hF, hfault⟩ := List.exists_of_findSome?_eq_some hfault
      obtain ⟨d, hd, rfl⟩ := List.mem_map.mp hF
      exact place_of_fieldFault (hfields d hd) hfault
    · cases h
  · unfold checkExtend at h
    split at h
    · split at h
      · cases h
        exact ⟨_, rfl, .block hb⟩
      · obtain ⟨d, hd, claims', hclaim⟩ := exists_of_foldlM_error _ h
        exact place_of_claimNumber (hfields d hd) hclaim
    · cases h
      exact ⟨_, rfl, .block hb⟩
    · cases h

/-- A file that does not pass its checks shows one of its places. -/
theorem place_of_checkFile {other : Pool} (hw : pool.WellFormed) (hf : pool.HasFile f)
    (h : checkFile f pool = .error fault other) : pool.ShowsPlaceOf f fault := by
  replace h : EStateM.bind (sweep f) _ pool = .error fault other := h
  unfold EStateM.bind at h
  have hends := sweep_ends hw hf
  cases hsweep : sweep f pool with
  | error fault' other' =>
    rw [hsweep] at h
    cases h
    exact place_of_sweep hw hf hsweep
  | ok u swept =>
    rw [hsweep] at h hends
    obtain ⟨hswept, -⟩ := hends
    have hw' := hswept.sameTree.wellFormed hw
    have hf' : swept.HasFile f := hswept.sameTree.files ▸ hf
    simp only [bind, EStateM.bind, get_apply] at h
    cases hcheck : (swept.blocksOf f).foldlM swept.checkBlock Table.empty with
    | ok claims =>
      simp only [hcheck] at h
      cases h
    | error fault' =>
      simp only [hcheck] at h
      cases h
      obtain ⟨b, hb, claims, hfails⟩ := exists_of_foldlM_error _ hcheck
      obtain ⟨sp, hspans, hplace⟩ := place_of_checkBlock hw' ((hw'.mem_blocksOf_iff hf').mp hb) hfails
      exact ⟨sp, hspans, hswept.placeOf hplace⟩

end Pool

end ProtoSchema

import ProtoSchema.Proofs.Pool.Additions
import ProtoSchema.Proofs.Pool.Effects
import ProtoSchema.Proofs.Pool.Printing

/-! # Statements that are read again

A list of statements `Builds` some declarations if, wherever events are read that spell the statements
and no name or number of the declarations is in use, these declarations are added to the scope and
nothing else is.  Statements that stand behind each other build what both build, kind by kind. -/

namespace ProtoSchema

open Located (unplaced)

/-! ### Runs of events -/

namespace Event

/-- Events that are read where others were written. -/
def Rereads (es written : List Event) : Prop := es.map bare = written.map fun e => e.reread.bare

variable {es written written' : List Event} {w : Event}

theorem rereads_nil_iff : Rereads es [] ↔ es = [] := List.map_eq_nil_iff

theorem Rereads.append (h : Rereads es (written ++ written')) :
    ∃ u v, es = u ++ v ∧ Rereads u written ∧ Rereads v written' :=
  List.map_eq_append_iff.mp (h.trans (List.map_append ..))

theorem Rereads.cons (h : Rereads es (w :: written)) :
    ∃ e es', es = e :: es' ∧ e.bare = w.reread.bare ∧ Rereads es' written :=
  List.map_eq_cons_iff.mp (h.trans (List.map_cons ..))

theorem Rereads.single (h : Rereads es [w]) : ∃ e, es = [e] ∧ e.bare = w.reread.bare := by
  obtain ⟨e, es', rfl, he, hes⟩ := h.cons
  rw [rereads_nil_iff.mp hes]
  exact ⟨e, rfl, he⟩

end Event

open Event (Rereads)

namespace Pool

/-- The kind of a scope; a file is no block. -/
def scopeKind (pool : Pool) : Scope → Option BlockKind
  | .file _ => none
  | .block b => some (pool.block b).kind

theorem Grows.scopeKind {pool other : Pool} {s t : Scope} (h : Grows s pool other)
    (ht : pool.InRange t) : other.scopeKind t = pool.scopeKind t := by
  cases t with
  | file i => rfl
  | block b => rw [Pool.scopeKind, Pool.scopeKind, Block.kind, Block.kind, h.isExtend ht]

end Pool

namespace Cursor

/-- Some events, none of them an import, are applied in turn. -/
inductive Run : Cursor → Pool → List Event → Cursor → Pool → Prop
  | nil {c pool} : Run c pool [] c pool
  | cons {c pool e c₁ pool₁ notice es c' other} (noImport : ∀ kind target, e ≠ .importFile kind target)
      (applied : c.apply pool e = .ok (c₁, pool₁, notice)) (tail : Run c₁ pool₁ es c' other) :
      Run c pool (e :: es) c' other

variable {c c₁ c' : Cursor} {pool pool₁ other : Pool} {e : Event} {es es' : List Event}
  {notice : Option Notice} {v : Edition} {k : Option BlockKind}

theorem Run.append (h : Run c pool es c₁ pool₁) (h' : Run c₁ pool₁ es' c' other) :
    Run c pool (es ++ es') c' other := by
  induction h with
  | nil => exact h'
  | cons noImport applied _ ih => exact .cons noImport applied (ih h')

theorem Run.single (noImport : ∀ kind target, e ≠ .importFile kind target)
    (applied : c.apply pool e = .ok (c', other, notice)) : Run c pool [e] c' other :=
  .cons noImport applied .nil

/-! ### Where statements are read -/

/-- A scope of the kind `k` in a file of the version `v`, with nothing open inside it. -/
structure Site (v : Edition) (k : Option BlockKind) (c : Cursor) (pool : Pool) : Prop where
  tree : pool.WellFormed
  hasFile : pool.HasFile c.file
  scope : pool.InRange c.scope
  file : pool.scopeFile c.scope = c.file
  noEnum : c.openEnum = none
  edition : (pool.file c.file).editionOrOldest = v
  kind : pool.scopeKind c.scope = k

/-- No name and no number of the declarations `D` is in use in the scope, and none is used twice. -/
structure Fresh (D : ScopeOutline) (c : Cursor) (pool : Pool) : Prop where
  names : (pool.declared .asWritten c.scope ++ D).names.Nodup
  numbers : (pool.declared .asWritten c.scope ++ D).numbers.Nodup

/-- The declarations `D`, and nothing else, are added to the scope of the cursor. -/
structure Built (c : Cursor) (pool : Pool) (D : ScopeOutline) (c' : Cursor) (other : Pool) : Prop where
  file : c'.file = c.file
  scope : c'.scope = c.scope
  noEnum : c'.openEnum = none
  tree : other.WellFormed
  grows : Pool.Grows c.scope pool other
  declared : other.declared .asWritten c.scope = pool.declared .asWritten c.scope ++ D

variable {D D' : ScopeOutline}

theorem Site.hasScope (h : Site v k c pool) (hk : k ≠ some .extend) : pool.HasScope c.scope := by
  have hscope := h.scope
  have hkind := h.kind
  cases hs : c.scope with
  | file i => rwa [hs] at hscope
  | block b =>
    rw [hs] at hscope hkind
    refine ⟨hscope, Bool.eq_false_iff.mpr fun hx => hk ?_⟩
    rw [← hkind, Pool.scopeKind, Block.kind, if_pos hx]

theorem Site.built (h : Site v k c pool) (hb : Built c pool D c' other) : Site v k c' other where
  tree := hb.tree
  hasFile := hb.file ▸ (hb.grows.file _ h.hasFile).1
  scope := hb.scope ▸ hb.grows.inRange h.scope
  file := by rw [hb.scope, hb.file, hb.grows.scopeFile h.scope, h.file]
  noEnum := hb.noEnum
  edition := by
    obtain ⟨-, members, options, he⟩ := hb.grows.file _ h.hasFile
    rw [hb.file, he]
    exact h.edition
  kind := by rw [hb.scope, hb.grows.scopeKind h.scope, h.kind]

namespace Fresh

theorem left (h : Fresh (D ++ D') c pool) : Fresh D c pool := by
  have hnames := h.names
  have hnumbers := h.numbers
  rw [← Declarations.append_assoc] at hnames hnumbers
  refine ⟨?_, ?_⟩
  · exact (List.nodup_append.mp ((Declarations.names_append _ _).nodup_iff.mp hnames)).1
  · rw [Declarations.numbers_append] at hnumbers
    exact (List.nodup_append.mp hnumbers).1

theorem built (h : Fresh (D ++ D') c pool) (hb : Built c pool D c' other) : Fresh D' c' other := by
  refine ⟨?_, ?_⟩ <;> rw [hb.scope, hb.declared, Declarations.append_assoc]
  · exact h.names
  · exact h.numbers

/-- A name of `D` is free. -/
theorem placeOf? (h : Fresh D c pool) (hw : pool.WellFormed) {n : String} (hn : n ∈ D.names) :
    pool.placeOf? c.scope n = none := by
  have hnames := List.nodup_append.mp ((Declarations.names_append _ _).nodup_iff.mp h.names)
  exact hw.placeOf?_eq_none_iff.mpr fun hm => hnames.2.2 n hm n hn rfl

/-- A number of `D` is free. -/
theorem number (h : Fresh D c pool) (hw : pool.WellFormed) {b : BlockId} (hb : c.scope = .block b)
    {n : Nat} (hn : n ∈ D.numbers) : (pool.block b).fields.find? n = none := by
  have hnumbers := h.numbers
  rw [Declarations.numbers_append, hb] at hnumbers
  exact hw.find?_number_eq_none_iff.mpr fun hm => (List.nodup_append.mp hnumbers).2.2 n hm n hn rfl

end Fresh

theorem Built.trans (h : Built c pool D c₁ pool₁) (h' : Built c₁ pool₁ D' c' other) :
    Built c pool (D ++ D') c' other where
  file := h'.file.trans h.file
  scope := h'.scope.trans h.scope
  noEnum := h'.noEnum
  tree := h'.tree
  grows := h.grows.trans (h.scope ▸ h'.grows)
  declared := by
    have hdeclared := h'.declared
    rw [h.scope] at hdeclared
    rw [hdeclared, h.declared, Declarations.append_assoc]

/-- What is added to the contents of the scope is built. -/
theorem built_of_contents (hw : pool.WellFormed) (hw' : other.WellFormed)
    (hg : Pool.Grows c.scope pool other) {L : Declarations EnumId BlockId FieldId BlockId}
    (hL : other.contents c.scope = pool.contents c.scope ++ L) (hD : other.outlineOf .asWritten L = D)
    (hfile : c'.file = c.file) (hscope : c'.scope = c.scope) (hopen : c'.openEnum = none) :
    Built c pool D c' other :=
  ⟨hfile, hscope, hopen, hw', hg, hD ▸ hg.declared_eq hw hw' hL⟩

/-! ### What statements build -/

/-- Wherever the statements are read again, they add just the declarations `D`. -/
def Builds (v : Edition) (k : Option BlockKind) (written : List Event) (D : ScopeOutline) : Prop :=
  ∀ c pool es, Rereads es written → Site v k c pool → Fresh D c pool →
    ∃ c' other, Run c pool es c' other ∧ Built c pool D c' other

namespace Builds

variable {written written' : List Event}

theorem nil : Builds v k [] {} := by
  intro c pool es hes hs hf
  rw [Event.rereads_nil_iff.mp hes]
  refine ⟨c, pool, .nil, rfl, rfl, hs.noEnum, hs.tree, .refl _ _, ?_⟩
  simp only [Declarations.append_def, List.append_nil]

theorem append (h : Builds v k written D) (h' : Builds v k written' D') :
    Builds v k (written ++ written') (D ++ D') := by
  intro c pool es hes hs hf
  obtain ⟨u, w, rfl, hu, hw⟩ := hes.append
  obtain ⟨c₁, pool₁, hrun, hb⟩ := h c pool u hu hs hf.left
  obtain ⟨c', other, hrun', hb'⟩ := h' c₁ pool₁ w hw (hs.built hb) (hf.built hb)
  exact ⟨c', other, hrun.append hrun', hb.trans hb'⟩

/-- Statements that build one declaration each; `all` puts these together. -/
theorem flatMap {α : Type} {as : List α} {events : α → List Event} {D : α → ScopeOutline}
    (all : List α → ScopeOutline) (hnil : all [] = {}) (hcons : ∀ a as, all (a :: as) = D a ++ all as)
    (h : ∀ a ∈ as, Builds v k (events a) (D a)) : Builds v k (as.flatMap events) (all as) := by
  induction as with
  | nil =>
    rw [hnil]
    exact nil
  | cons a as ih =>
    rw [List.forall_mem_cons] at h
    rw [hcons]
    exact h.1.append (ih h.2)

end Builds

end Cursor

end ProtoSchema

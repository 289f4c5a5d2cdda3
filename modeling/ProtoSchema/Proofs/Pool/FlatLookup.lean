import Mathlib.Data.List.Infix
import ProtoSchema.Proofs.Pool.FullNames

/-! # Lookups by full name

A relative name is looked up by walking down the tree of declarations, from the scopes around the
reference and from the file.  In a well-formed pool a full name tells the way to what it names, so the
tree can be forgotten: all types that are declared are put in one list, and a walk that leads from a
scope down a path finds the type of the file whose full name is that of the scope with the path behind
it (`WellFormed.descend_eq`).  So a relative name denotes the first type that one of a few full names
denotes (`WellFormed.resolve?_relative`), the innermost scope first. -/

namespace ProtoSchema.Pool

variable {pool : Pool} {f : FileId} {s : Scope} {name : DottedName} {t : TypeId}

/-! ### The list of types -/

/-- All messages and enums that are declared so far. -/
def allTypes (pool : Pool) : List TypeId :=
  let messages := ((List.range pool.blocks.size).map BlockId.mk).filter fun b =>
    (pool.block b).isExtend = false
  messages.map .message ++ ((List.range pool.enums.size).map EnumId.mk).map .enum

/-- The type of a file with a full name. -/
def ownType? (pool : Pool) (file : FileId) (name : DottedName) : Option TypeId :=
  pool.allTypes.find? fun t => pool.typeFile t = file ∧ pool.typeName t = name

theorem mem_allTypes_iff : t ∈ pool.allTypes ↔ pool.HasType t := by
  simp only [allTypes, List.mem_append, List.mem_map, List.mem_filter, List.mem_range,
    decide_eq_true_eq]
  constructor
  · rintro (⟨b, ⟨⟨n, hn, rfl⟩, hx⟩, rfl⟩ | ⟨e, ⟨n, hn, rfl⟩, rfl⟩)
    · exact ⟨hn, hx⟩
    · exact hn
  · intro ht
    cases t with
    | message b => exact .inl ⟨b, ⟨⟨b.index, ht.1, rfl⟩, ht.2⟩, rfl⟩
    | enum e => exact .inr ⟨e, ⟨e.index, ht, rfl⟩, rfl⟩

theorem of_ownType? (h : pool.ownType? f name = some t) :
    pool.HasType t ∧ pool.typeFile t = f ∧ pool.typeName t = name := by
  unfold ownType? at h
  have hfits := List.find?_some h
  exact ⟨mem_allTypes_iff.mp (List.mem_of_find?_eq_some h), of_decide_eq_true hfits⟩

/-- There is at most one type of a file with a full name, and the list holds it. -/
theorem WellFormed.ownType?_eq_some_iff (hw : pool.WellFormed) :
    pool.ownType? f name = some t ↔
      pool.HasType t ∧ pool.typeFile t = f ∧ pool.typeName t = name := by
  refine ⟨of_ownType?, fun ⟨ht, hfile, hname⟩ => ?_⟩
  cases hfind : pool.ownType? f name with
  | none =>
    have hnot := List.find?_eq_none.mp hfind t (mem_allTypes_iff.mpr ht)
    exact absurd (decide_eq_true (And.intro hfile hname)) hnot
  | some t' =>
    obtain ⟨ht', hfile', hname'⟩ := of_ownType? hfind
    rw [hw.eq_of_typeName ht' ht (hfile'.trans hfile.symm) (hname'.trans hname.symm)]

/-- A full name that is looked up in a file denotes the type of the file with that name. -/
theorem WellFormed.inFile_eq (hw : pool.WellFormed) (f : FileId) (name : DottedName) :
    pool.inFile f name = pool.ownType? f name := by
  ext t
  rw [hw.ownType?_eq_some_iff]
  constructor
  · exact fun h => ⟨hw.hasType_of_inFile h, hw.of_inFile h⟩
  · rintro ⟨ht, rfl, rfl⟩
    exact hw.inFile_typeName ht

/-! ### Walks down the tree -/

/-- Do declarations stand in a scope, behind its full name?  Nothing is declared in an extend block. -/
def declares (pool : Pool) : Scope → Bool
  | .file _ => true
  | .block b => !(pool.block b).isExtend

theorem hasScope_iff : pool.HasScope s ↔ pool.InRange s ∧ pool.declares s = true := by
  cases s with
  | file i => exact (and_iff_left rfl).symm
  | block b => simp only [HasScope, InRange, declares, Bool.not_eq_true']

/-- A walk begins in a file or a message. -/
theorem WellFormed.hasScope_of_descend (hw : pool.WellFormed)
    (h : pool.descend (pool.members s) name = some t) : pool.HasScope s := by
  match name with
  | [] => cases h
  | [n] =>
    obtain ⟨ht, rfl, -⟩ := hw.member?_eq_some_iff.mp h
    exact hw.hasScope_of_type ht
  | n :: m :: path =>
    simp only [descend] at h
    split at h
    · next b hb =>
      obtain ⟨there, rfl, -⟩ := (hw.message_iff s n b).mp hb
      exact (hw.block_scope b there).1
    · cases h

/-- A walk down from a scope finds what has the full name of the scope with the path behind it. -/
theorem WellFormed.descend_eq (hw : pool.WellFormed) (hs : pool.HasScope s) (hname : name ≠ []) :
    pool.descend (pool.members s) name =
      pool.ownType? (pool.scopeFile s) (pool.scopeName s ++ name) := by
  rw [← hw.inFile_eq, hw.inFile_append hs hname]

/-- The same for every scope: nothing is found from an extend block. -/
theorem WellFormed.descend_eq_ite (hw : pool.WellFormed) (hs : pool.InRange s) (hname : name ≠ []) :
    pool.descend (pool.members s) name =
      if pool.declares s then pool.ownType? (pool.scopeFile s) (pool.scopeName s ++ name)
      else none := by
  split
  · next hd => exact hw.descend_eq (hasScope_iff.mpr ⟨hs, hd⟩) hname
  · next hd =>
    refine Option.eq_none_iff_forall_ne_some.mpr fun t ht => hd ?_
    exact (hasScope_iff.mp (hw.hasScope_of_descend ht)).2

/-! ### A name and its scopes -/

/-- The full names that a name may stand for in the scopes around a reference, innermost first, and at
last the name itself. -/
def ownNames (pool : Pool) (s : Scope) (name : DottedName) : List DottedName :=
  ((pool.enclosing s).filter pool.declares).map (fun c => pool.scopeName c ++ name) ++ [name]

/-- The full names that a name may stand for in an import with package `imported`: the name itself, then
the name behind the front parts of the package that are not shorter than what it shares with the
package `own`, the longest first. -/
def importedNames (own imported name : DottedName) : List DottedName :=
  name :: ((imported.inits.drop (own.sharedLength imported)).reverse.map (· ++ name))

/-- What a relative name denotes, found by full names alone. -/
def byFullName? (pool : Pool) (s : Scope) (name : DottedName) : Option TypeId :=
  let f := pool.file (pool.scopeFile s)
  ((pool.ownNames s name).findSome? (pool.ownType? (pool.scopeFile s))).or <|
    f.imports.values.findSome? fun i =>
      let imported := pool.file i.file
      (importedNames f.packageName imported.packageName name).findSome? imported.types.find?

theorem findSome?_filter {α β : Type} {p : α → Bool} {F G : α → Option β} {as : List α}
    (h : ∀ a ∈ as, F a = if p a then G a else none) :
    as.findSome? F = (as.filter p).findSome? G := by
  induction as with
  | nil => rfl
  | cons a as ih =>
    rw [List.forall_mem_cons] at h
    rw [List.findSome?_cons, List.filter_cons, h.1, ih h.2]
    cases p a <;> rfl

theorem WellFormed.lexical_eq (hw : pool.WellFormed) (hs : pool.InRange s) (hname : name ≠ []) :
    pool.lexical s name = ((pool.enclosing s).filter pool.declares).findSome? fun c =>
      pool.ownType? (pool.scopeFile s) (pool.scopeName c ++ name) := by
  refine findSome?_filter fun c hc => ?_
  obtain ⟨hin, hfile⟩ := hw.scopeFile_of_mem_enclosing hs hc
  rw [hw.descend_eq_ite hin hname, hfile]

/-- The front parts of the package of an import that a name is tried behind. -/
theorem inits_drop (own imported : DottedName) :
    imported.inits.drop (own.sharedLength imported) =
      (List.range' (own.sharedLength imported)
        (imported.length + 1 - own.sharedLength imported)).map imported.take := by
  refine List.ext_getElem (by simp) fun n h _ => ?_
  simp

/-- The names that are tried in an import are those, though one of them may be tried twice. -/
theorem findSome?_qualifications {β : Type} (own imported name : DottedName)
    (k : DottedName → Option β) :
    (qualifications own imported name).findSome? k =
      (importedNames own imported name).findSome? k := by
  unfold qualifications importedNames
  rw [inits_drop]
  split
  · next h =>
    subst h
    cases own <;> cases hk : k name <;> simp [DottedName.sharedLength, hk]
  · simp [List.map_reverse, Function.comp_def]

/-- What a relative name denotes depends on full names alone. -/
theorem WellFormed.resolve?_relative (hw : pool.WellFormed) (hs : pool.InRange s)
    (hname : name ≠ []) :
    pool.resolve? (pool.scopeFile s) s ⟨false, name⟩ = pool.byFullName? s name := by
  simp only [resolve?, Bool.false_eq_true, if_false, inImports, findSome?_qualifications,
    byFullName?, ownNames, List.findSome?_append, List.findSome?_map]
  rw [hw.lexical_eq hs hname, hw.inFile_eq, ← Option.or_assoc, List.findSome?_singleton]
  rfl

end ProtoSchema.Pool

import Mathlib.Data.List.Induction
import ProtoSchema.Proofs.Session.Traces

/-! # Imports as they are recorded

A file may import another one by several statements, and with a different word each time.  What is
recorded of such an import is its first statement (`Traced.importNames_eq`, `mem_firstImports_iff`); the
others have no effect. -/

namespace ProtoSchema

/-- The files that a file imports, and how. -/
def Pool.importNames (pool : Pool) (f : FileId) : List (String × ImportKind) :=
  (pool.file f).imports.entries.map fun i => (i.1, i.2.kind)

namespace Event

variable {es : List Event} {e : Event} {n : String} {kind : ImportKind} {seen : List (String × ImportKind)}

/-- Takes the import of a statement behind others, unless one of them imports the same file. -/
def recordImport (seen : List (String × ImportKind)) : Event → List (String × ImportKind)
  | .importFile kind target =>
    if target.value ∈ seen.map Prod.fst then seen else seen ++ [(target.value, kind)]
  | _ => seen

/-- The files that some statements import, each with the word of the first statement that imports it. -/
def firstImports (es : List Event) : List (String × ImportKind) := es.foldl recordImport []

/-- A statement imports a file. -/
def Imports (e : Event) (n : String) (kind : ImportKind) : Prop :=
  ∃ span, e = .importFile kind ⟨n, span⟩

/-- Among some statements, the first import of a file is of a kind. -/
def ImportsFirst (es : List Event) (n : String) (kind : ImportKind) : Prop :=
  ∃ before e after, es = before ++ e :: after ∧ e.Imports n kind ∧
    ∀ e' ∈ before, ∀ kind', ¬e'.Imports n kind'

theorem firstImports_concat (es : List Event) (e : Event) :
    firstImports (es ++ [e]) = recordImport (firstImports es) e := by
  rw [firstImports, List.foldl_append]
  rfl

theorem recordImport_of_ne (noImport : ∀ kind target, e ≠ .importFile kind target)
    (seen : List (String × ImportKind)) : recordImport seen e = seen := by
  cases e with
  | importFile kind target => exact absurd rfl (noImport kind target)
  | _ => rfl

theorem length_firstImports (es : List Event) : (firstImports es).length ≤ es.length := by
  induction es using List.reverseRecOn with
  | nil => exact Nat.le_refl _
  | append_singleton es e ih =>
    have hstep : (recordImport (firstImports es) e).length ≤ (firstImports es).length + 1 := by
      unfold recordImport
      split
      · split <;> simp
      · exact Nat.le_succ _
    rw [firstImports_concat, List.length_append, List.length_singleton]
    exact Nat.le_trans hstep (Nat.succ_le_succ ih)

theorem mem_recordImport_iff : (n, kind) ∈ recordImport seen e ↔
    (n, kind) ∈ seen ∨ n ∉ seen.map Prod.fst ∧ e.Imports n kind := by
  by_cases himport : ∃ kind target, e = .importFile kind target
  · obtain ⟨kind', ⟨n', span⟩, rfl⟩ := himport
    have hthis : (Event.importFile kind' ⟨n', span⟩).Imports n kind ↔ n = n' ∧ kind = kind' := by
      constructor
      · rintro ⟨span, he⟩
        cases he
        exact ⟨rfl, rfl⟩
      · rintro ⟨rfl, rfl⟩
        exact ⟨span, rfl⟩
    rw [hthis]
    show (n, kind) ∈ (if n' ∈ seen.map Prod.fst then seen else seen ++ [(n', kind')]) ↔ _
    split
    · next hseen =>
      refine (or_iff_left ?_).symm
      rintro ⟨hfree, rfl, -⟩
      exact hfree hseen
    · next hfree =>
      rw [List.mem_append, List.mem_singleton, Prod.mk.injEq]
      refine or_congr_right (iff_and_self.mpr ?_)
      rintro ⟨rfl, -⟩
      exact hfree
  · push Not at himport
    rw [recordImport_of_ne himport]
    refine (or_iff_left ?_).symm
    rintro ⟨-, span, he⟩
    exact himport _ _ he

/-- The names that are taken are those that some statement imports. -/
theorem mem_names_firstImports_iff :
    n ∈ (firstImports es).map Prod.fst ↔ ∃ e ∈ es, ∃ kind, e.Imports n kind := by
  have hmem : ∀ seen : List (String × ImportKind),
      n ∈ seen.map Prod.fst ↔ ∃ kind, (n, kind) ∈ seen := fun seen => by simp
  rw [hmem]
  induction es using List.reverseRecOn with
  | nil => simp [firstImports]
  | append_singleton es e ih =>
    simp only [firstImports_concat, mem_recordImport_iff, exists_or, exists_and_left, hmem, ih,
      List.mem_append, List.mem_singleton, or_and_right, exists_eq_left]
    -- a statement counts unless there was one before, and then there was one
    by_cases hseen : ∃ e ∈ es, ∃ kind, e.Imports n kind
    · exact iff_of_true (.inl hseen) (.inl hseen)
    · exact or_congr_right (and_iff_right hseen)

theorem importsFirst_concat : ImportsFirst (es ++ [e]) n kind ↔
    ImportsFirst es n kind ∨ (∀ e' ∈ es, ∀ kind', ¬e'.Imports n kind') ∧ e.Imports n kind := by
  constructor
  · rintro ⟨before, e', after, he, himports, hfirst⟩
    rcases List.eq_nil_or_concat after with rfl | ⟨after, last, rfl⟩
    · obtain ⟨rfl, hlast⟩ := List.append_inj' he rfl
      cases hlast
      exact .inr ⟨hfirst, himports⟩
    · rw [List.concat_eq_append, ← List.cons_append, ← List.append_assoc] at he
      obtain ⟨rfl, -⟩ := List.append_inj' he rfl
      exact .inl ⟨before, e', after, rfl, himports, hfirst⟩
  · rintro (⟨before, e', after, rfl, himports, hfirst⟩ | ⟨hfirst, himports⟩)
    · exact ⟨before, e', after ++ [e], by simp, himports, hfirst⟩
    · exact ⟨es, e, [], rfl, himports, hfirst⟩

/-- What is taken of an import is its first statement. -/
theorem mem_firstImports_iff : (n, kind) ∈ firstImports es ↔ ImportsFirst es n kind := by
  induction es using List.reverseRecOn with
  | nil => simp [firstImports, ImportsFirst]
  | append_singleton es e ih =>
    rw [firstImports_concat, mem_recordImport_iff, importsFirst_concat, ih, mem_names_firstImports_iff]
    simp only [not_exists, not_and]

end Event

namespace Session

variable {r : Resolver} {x s : Session} {rd : Reading} {name : String} {f : FileId}

theorem importNames_insert {pool other : Pool} {kind : ImportKind} {target : Located String} {i : FileId}
    (h : (other.file f).imports = (pool.file f).imports.insert target.value ⟨i, kind⟩) :
    other.importNames f = Event.recordImport (pool.importNames f) (.importFile kind target) := by
  have hkeys : target.value ∈ (pool.importNames f).map Prod.fst ↔
      (pool.file f).imports.contains target.value = true := by
    rw [Pool.importNames, List.map_map, Table.contains_iff, ← Option.ne_none_iff_exists', ne_eq,
      Table.find?_eq_none_iff, not_not]
    rfl
  rw [Event.recordImport]
  simp only [hkeys]
  rw [Pool.importNames, h, Table.insert]
  split
  · rfl
  · rw [List.map_append]
    rfl

/-- In front of the cursor, the first statement of each import is recorded. -/
theorem Traced.importNames_eq (h : Traced r s rd) :
    s.pool.importNames rd.cursor.file = Event.firstImports rd.done := by
  induction h with
  | @start s name file regular free opened =>
    exact congrArg (fun F : File => F.imports.entries.map fun i => (i.1, i.2.kind))
      (Pool.fileAdded s.pool name file.path).file_new
  | @event s rd e rest c pool notice traced regular next noImport applied ih =>
    obtain ⟨ks, ks', hn, hf, heff, -⟩ :=
      reading_event (regular.sound.reading _ (List.mem_cons_self ..)) next applied
    show pool.importNames c.file = Event.firstImports (rd.done ++ [e])
    rw [Event.firstImports_concat, Event.recordImport_of_ne noImport, ← ih, heff.file_eq,
      Pool.importNames, ((heff.tables hn hf).2.2 _).1]
    rfl
  | @importFile s rd kind target rest id traced regular next found ih =>
    show (s.recordImport _ _ _).pool.importNames rd.cursor.file =
      Event.firstImports (rd.done ++ [.importFile kind target])
    rw [Event.firstImports_concat, ← ih]
    refine importNames_insert (i := id) ?_
    rw [recordImport, Pool.file_modifyFile, if_pos ⟨rfl, traced.hasFile.1⟩]
  | later traced later ih =>
    rw [Pool.importNames, later.kept.file]
    exact ih

/-- A complete file has recorded the first statement of each of its imports, in the order of its text. -/
theorem Completed.importNames_eq (h : Completed r x name f) {file : SourceFile}
    (opened : r.openFile name = .ok file) :
    x.pool.importNames f = Event.firstImports (Event.ofText file.text).1 := by
  cases h with
  | @intro s rd pool traced regular finished noFault checked later =>
    obtain ⟨file', opened', htext, -⟩ := traced.opened
    obtain rfl : file' = file := Except.ok.inj (opened'.symm.trans opened)
    rw [← htext, traced.text, finished, List.append_nil, ← traced.importNames_eq, Pool.importNames,
      later.kept.file]
    show (pool.file rd.cursor.file).imports.entries.map _ = _
    rw [(regular.sound.checked checked).1.file_eq, Pool.imports_recordTypes]
    rfl

/-- A complete file was read from a text that the resolver gives. -/
theorem Completed.exists_file (h : Completed r x name f) : ∃ file, r.openFile name = .ok file := by
  cases h with
  | intro traced regular finished noFault checked later =>
    obtain ⟨file, opened, -⟩ := traced.opened
    exact ⟨file, opened⟩

end Session

end ProtoSchema

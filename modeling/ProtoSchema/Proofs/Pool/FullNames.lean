import ProtoSchema.Proofs.Session.Names

/-! # Full names in one file

A full name consists of the package of a file and of the names on the way down to a declaration of the
file.  So looked up in its own file, the full name of a type denotes just that type
(`inFile_typeName`), and different types of one file have different full names, even where a message
is called like a segment of the package. -/

namespace ProtoSchema.Pool

variable {pool : Pool} {t t' : TypeId}

/-- The name of a scope leads down to it from its file. -/
theorem WellFormed.exists_path (hw : pool.WellFormed) {s : Scope} (hs : pool.HasScope s) :
    ∃ path, pool.scopeName s = (pool.file (pool.scopeFile s)).packageName ++ path ∧
      ∀ rest, rest ≠ [] → pool.descend (pool.file (pool.scopeFile s)).members (path ++ rest) =
        pool.descend (pool.members s) rest := by
  induction hn : scopeRank s using Nat.strongRecOn generalizing s with
  | ind n ih =>
    cases s with
    | file i => exact ⟨[], (List.append_nil _).symm, fun rest _ => rfl⟩
    | block b =>
      obtain ⟨hparent, hfile⟩ := hw.block_scope b hs.1
      have hlt : scopeRank (pool.block b).parent < n := by
        rw [← hn]
        cases hp : (pool.block b).parent with
        | file i => exact Nat.succ_pos _
        | block p => exact Nat.succ_lt_succ (hw.block_later b p hs.1 hp)
      obtain ⟨path, hname, hdown⟩ := ih _ hlt hparent rfl
      have hheading := heading_eq_message_iff.mpr ⟨hs.2, rfl⟩
      obtain ⟨m, hm⟩ := hw.message_name b _ hs.1 hheading
      have hfind : (pool.members (pool.block b).parent).messages.find? m = some b :=
        (hw.message_iff _ m b).mpr ⟨hs.1, rfl, hm ▸ hheading⟩
      rw [hfile] at hname hdown
      refine ⟨path ++ [m], ?_, fun rest hrest => ?_⟩
      · rw [← List.append_assoc]
        exact hm.trans (congrArg (· ++ [m]) hname)
      · -- one step down from the parent
        obtain ⟨r, rest, rfl⟩ := List.exists_cons_of_ne_nil hrest
        rw [List.append_assoc]
        refine (hdown _ (List.cons_ne_nil _ _)).trans ?_
        show pool.descend (pool.members (pool.block b).parent) (m :: r :: rest) = _
        simp only [descend, hfind]
        rfl

/-- A name behind that of a scope, looked up in the file of the scope, leads down from the scope. -/
theorem WellFormed.inFile_append (hw : pool.WellFormed) {s : Scope} (hs : pool.HasScope s)
    {name : DottedName} (hname : name ≠ []) :
    pool.inFile (pool.scopeFile s) (pool.scopeName s ++ name) =
      pool.descend (pool.members s) name := by
  obtain ⟨path, hpath, hdown⟩ := hw.exists_path hs
  have hprefix := List.isPrefixOf_iff_prefix.mpr
    (List.prefix_append (pool.file (pool.scopeFile s)).packageName (path ++ name))
  rw [hpath, List.append_assoc]
  simp only [inFile, hprefix, if_true, List.drop_left]
  exact hdown name hname

theorem WellFormed.hasScope_of_type (hw : pool.WellFormed) (ht : pool.HasType t) :
    pool.HasScope (pool.typeScope t) := by
  cases t with
  | message b => exact (hw.block_scope b ht.1).1
  | enum e => exact (hw.enum_scope e ht).1

/-- Looked up in its file, the full name of a type denotes that type. -/
theorem WellFormed.inFile_typeName (hw : pool.WellFormed) (ht : pool.HasType t) :
    pool.inFile (pool.typeFile t) (pool.typeName t) = some t := by
  have hname : ∃ n, pool.typeName t = pool.scopeName (pool.typeScope t) ++ [n] := by
    cases t with
    | message b => exact hw.message_name b _ ht.1 (heading_eq_message_iff.mpr ⟨ht.2, rfl⟩)
    | enum e => exact hw.enum_name e ht
  obtain ⟨n, hn⟩ := hname
  rw [hw.typeFile_eq ht, hn, hw.inFile_append (hw.hasScope_of_type ht) (List.cons_ne_nil n [])]
  exact hw.member?_eq_some_iff.mpr ⟨ht, rfl, hn⟩

/-- Types of one file that have the same full name are the same. -/
theorem WellFormed.eq_of_typeName (hw : pool.WellFormed) (ht : pool.HasType t) (ht' : pool.HasType t')
    (hfile : pool.typeFile t = pool.typeFile t') (hname : pool.typeName t = pool.typeName t') :
    t = t' := by
  have h := hw.inFile_typeName ht
  rw [hfile, hname, hw.inFile_typeName ht'] at h
  exact (Option.some.inj h).symm

end ProtoSchema.Pool

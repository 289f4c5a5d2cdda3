import ProtoSchema.Proofs.Renaming.Basic

/-! # Lookups in pools that match

Two pools are `Alike` for a file if the file matches, and all files that it imports, directly or
through others.  Then a name that is looked up from a scope of the file denotes the same in both
pools, up to the renaming (`Alike.resolve?`). -/

namespace ProtoSchema.Pool

variable {pool other : Pool} {ρ : Renaming} {f : FileId}

theorem findSome?_map_map {α β γ δ : Type} {r : α → γ} {k : β → δ} {p : α → Option β}
    {q : γ → Option δ} {xs : List α} (h : ∀ x ∈ xs, q (r x) = (p x).map k) :
    (xs.map r).findSome? q = (xs.findSome? p).map k := by
  induction xs with
  | nil => rfl
  | cons x xs ih =>
    rw [List.forall_mem_cons] at h
    rw [List.map_cons, List.findSome?_cons, List.findSome?_cons, h.1]
    cases p x with
    | none => exact ih h.2
    | some b => rfl

theorem map_or {α β : Type} (k : α → β) (a b : Option α) :
    (a.or b).map k = (a.map k).or (b.map k) := by
  cases a <;> rfl

/-! ### In the file -/

theorem member?_members (m : Members) (n : String) :
    member? (ρ.members m) n = (member? m n).map ρ.type := by
  simp only [member?, Renaming.members, Table.find?_map, map_or, Option.map_map]
  rfl

namespace Matches

theorem descend (h : Matches ρ f pool other) (hw : pool.WellFormed) (path : DottedName) :
    ∀ {s : Scope}, pool.InRange s → pool.scopeFile s = f →
      other.descend (ρ.members (pool.members s)) path =
        (pool.descend (pool.members s) path).map ρ.type := by
  induction path with
  | nil => exact fun _ _ => rfl
  | cons n path ih =>
    intro s hs hsf
    cases path with
    | nil => exact member?_members _ _
    | cons m path =>
      simp only [Pool.descend, Renaming.members, Table.find?_map]
      cases hb : (pool.members s).messages.find? n with
      | none => rfl
      | some b =>
        obtain ⟨hhas, hp, -⟩ := (hw.message_iff s n b).mp hb
        have hbo : pool.BlockOf f b := ⟨hhas, (hw.file_of_parent hhas hp).trans hsf⟩
        have hmembers : (other.block (ρ.block b)).members = ρ.members (pool.block b).members := by
          rw [h.block b hbo]
          rfl
        simp only [Option.map_some, hmembers]
        exact ih (s := .block b) hhas hbo.2

theorem enclosing (h : Matches ρ f pool other) (hw : pool.WellFormed) (hw' : other.WellFormed)
    {s : Scope} (hs : pool.InRange s) (hsf : pool.scopeFile s = f) :
    other.enclosing (ρ.scope s) = (pool.enclosing s).map ρ.scope := by
  induction hr : scopeRank s using Nat.strongRecOn generalizing s with
  | _ n ih =>
    cases s with
    | file i =>
      rw [enclosing_file]
      exact enclosing_file _
    | block b =>
      have hbo : pool.BlockOf f b := ⟨hs, hsf⟩
      have hrank : scopeRank (pool.block b).parent < n := by
        rw [← hr]
        cases hparent : (pool.block b).parent with
        | file i => exact Nat.succ_pos _
        | block p => exact Nat.succ_lt_succ (hw.block_later b p hs hparent)
      have hparent : (other.block (ρ.block b)).parent = ρ.scope (pool.block b).parent := by
        rw [h.block b hbo]
        rfl
      show other.enclosing (.block (ρ.block b)) = _
      rw [hw.enclosing_block hs, hw'.enclosing_block (h.blockOf hbo).1, hparent, List.map_cons,
        ih _ hrank (hw.block_scope b hs).1.inRange ((hw.block_scope b hs).2.trans hsf) rfl]
      rfl

theorem lexical (h : Matches ρ f pool other) (hw : pool.WellFormed) (hw' : other.WellFormed)
    {s : Scope} (hs : pool.InRange s) (hsf : pool.scopeFile s = f) (name : DottedName) :
    other.lexical (ρ.scope s) name = (pool.lexical s name).map ρ.type := by
  unfold Pool.lexical
  rw [h.enclosing hw hw' hs hsf]
  refine findSome?_map_map fun t ht => ?_
  obtain ⟨ht, htf⟩ := hw.scopeFile_of_mem_enclosing hs ht
  rw [h.members ht (htf.trans hsf), h.descend hw name ht (htf.trans hsf)]

theorem packageName (h : Matches ρ f pool other) :
    (other.file (ρ.file f)).packageName = (pool.file f).packageName :=
  (congrArg File.packageName h.file).trans (Renaming.packageName_onFile _)

theorem inFile (h : Matches ρ f pool other) (hw : pool.WellFormed) (hf : pool.HasFile f)
    (name : DottedName) : other.inFile (ρ.file f) name = (pool.inFile f name).map ρ.type := by
  have hmembers : (other.file (ρ.file f)).members = ρ.members (pool.file f).members := by
    rw [h.file]
    rfl
  simp only [Pool.inFile, h.packageName, hmembers]
  split
  · exact h.descend hw _ (s := .file f) hf rfl
  · rfl

theorem imports (h : Matches ρ f pool other) :
    (other.file (ρ.file f)).imports = (pool.file f).imports.map ρ.imported := by
  rw [h.file]
  rfl

theorem types (h : Matches ρ f pool other) :
    (other.file (ρ.file f)).types = (pool.file f).types.map ρ.type := by
  rw [h.file]
  rfl

end Matches

/-! ### In the imports -/

/-- The file `f` and all files that it imports, directly or through others, match. -/
structure Alike (ρ : Renaming) (f : FileId) (pool other : Pool) : Prop where
  left : pool.WellFormed
  right : other.WellFormed
  hasFile : ∀ g, pool.Reaches f g → pool.HasFile g ∧ other.HasFile (ρ.file g)
  grounded : ∀ g, pool.Reaches f g → pool.Grounded g
  matched : ∀ g, pool.Reaches f g → Matches ρ g pool other
  injective : ∀ g h, pool.Reaches f g → pool.Reaches f h → ρ.file g = ρ.file h → g = h

namespace Alike

theorem own (h : Alike ρ f pool other) : Matches ρ f pool other := h.matched f (.refl f)

theorem there (h : Alike ρ f pool other) : pool.HasFile f := (h.hasFile f (.refl f)).1

theorem there' (h : Alike ρ f pool other) : other.HasFile (ρ.file f) := (h.hasFile f (.refl f)).2

theorem inImports (h : Alike ρ f pool other) (name : DottedName) :
    other.inImports (ρ.file f) name = (pool.inImports f name).map ρ.type := by
  simp only [Pool.inImports, h.own.packageName, h.own.imports, Table.values_map]
  refine findSome?_map_map fun i hi => ?_
  have hi := h.matched i.file (.single ⟨i, hi, rfl⟩)
  have hpackage : (other.file (ρ.imported i).file).packageName = (pool.file i.file).packageName :=
    hi.packageName
  have htypes : (other.file (ρ.imported i).file).types = (pool.file i.file).types.map ρ.type :=
    hi.types
  rw [hpackage, htypes]
  refine (congrArg (List.findSome? _) (List.map_id _).symm).trans (findSome?_map_map fun q _ => ?_)
  exact Table.find?_map ..

/-- A name denotes the same in pools that are alike. -/
theorem resolve? (h : Alike ρ f pool other) {s : Scope} (hs : pool.InRange s)
    (hsf : pool.scopeFile s = f) (name : TypeName) :
    other.resolve? (ρ.file f) (ρ.scope s) name = (pool.resolve? f s name).map ρ.type := by
  have hlexical := h.own.lexical h.left h.right hs hsf name.segments
  have hinFile := h.own.inFile h.left h.there name.segments
  simp only [Pool.resolve?, hlexical, hinFile, h.inImports]
  split
  · rw [map_or]
  · rw [map_or, map_or]

end Alike

end ProtoSchema.Pool

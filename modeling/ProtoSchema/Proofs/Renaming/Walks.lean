import Mathlib.Data.List.Basic
import ProtoSchema.Proofs.Renaming.Changes

/-! # Walks through pools that match

What is computed by walking through the messages of a file corresponds in pools that match
(`Matches.foldMessage`), and since the renaming keeps the order of declarations, so do the sorted
lists of blocks and fields.  Hence two files that match also match when their types are recorded
(`Alike.recordTypes`). -/

namespace ProtoSchema.Pool

variable {pool other : Pool} {ρ : Renaming} {f : FileId}

/-! ### Nested messages -/

/-- The bound for the depth of a walk does not matter if it is large enough. -/
theorem WellFormed.foldMessageUpTo_eq {β : Type} (hw : pool.WellFormed) (k : BlockId → List β → β)
    (depth : Nat) : ∀ (depth' : Nat) (a : BlockId), pool.blocks.size ≤ a.index + depth + 1 →
      pool.blocks.size ≤ a.index + depth' + 1 →
      pool.foldMessageUpTo k depth a = pool.foldMessageUpTo k depth' a := by
  have hchild : ∀ a, ∀ b ∈ (pool.block a).members.messages.values,
      a.index < b.index ∧ b.index < pool.blocks.size := by
    intro a b hb
    obtain ⟨hb, -, hp⟩ := hw.mem_messages_iff (s := .block a).mp hb
    exact ⟨hw.block_later b a hb hp, hb⟩
  have hleaf : ∀ a : BlockId, pool.blocks.size ≤ a.index + 1 →
      (pool.block a).members.messages.values = [] := by
    intro a ha
    refine List.eq_nil_iff_forall_not_mem.mpr fun b hb => ?_
    have := hchild a b hb
    omega
  induction depth with
  | zero =>
    intro depth' a h h'
    cases depth' with
    | zero => rfl
    | succ depth' => simp only [foldMessageUpTo, hleaf a h, List.map_nil]
  | succ depth ih =>
    intro depth' a h h'
    cases depth' with
    | zero => simp only [foldMessageUpTo, hleaf a h', List.map_nil]
    | succ depth' =>
      simp only [foldMessageUpTo]
      congr 1
      refine List.map_congr_left fun b hb => ih depth' b ?_ ?_
      · have := hchild a b hb
        omega
      · have := hchild a b hb
        omega

theorem WellFormed.foldMessage_eq {β : Type} (hw : pool.WellFormed) (k : BlockId → List β → β)
    (a : BlockId) : pool.foldMessage k a =
      k a ((pool.block a).members.messages.values.map (pool.foldMessage k)) := by
  unfold foldMessage
  rw [hw.foldMessageUpTo_eq k pool.blocks.size (pool.blocks.size + 1) a (by omega) (by omega)]
  rfl

/-- What is so of a message if it is so of those in it is so of all messages. -/
theorem WellFormed.message_induction (hw : pool.WellFormed) {P : BlockId → Prop}
    (step : ∀ b, (∀ a ∈ (pool.block b).members.messages.values, P a) → P b) (b : BlockId) : P b := by
  induction hn : pool.blocks.size - b.index using Nat.strongRecOn generalizing b with
  | ind n ih =>
    refine step b fun a ha => ih _ ?_ a rfl
    obtain ⟨hthere, -, hparent⟩ := hw.mem_messages_iff (s := .block b).mp ha
    have hlater := hw.block_later a b hthere hparent
    have : a.index < pool.blocks.size := hthere
    omega

/-- The messages in a scope of a file are messages of the file. -/
theorem WellFormed.blockOf_of_mem_messages (hw : pool.WellFormed) {s : Scope}
    (hsf : pool.scopeFile s = f) {b : BlockId} (hb : b ∈ (pool.members s).messages.values) :
    pool.BlockOf f b := by
  obtain ⟨hb, -, hp⟩ := hw.mem_messages_iff.mp hb
  exact ⟨hb, (hw.file_of_parent hb hp).trans hsf⟩

theorem WellFormed.enumOf_of_mem_enums (hw : pool.WellFormed) {s : Scope}
    (hsf : pool.scopeFile s = f) {e : EnumId} (he : e ∈ (pool.members s).enums.values) :
    pool.EnumOf f e := by
  obtain ⟨he, hp⟩ := hw.mem_enums_iff.mp he
  exact ⟨he, (hw.enum_scope e he).2.symm.trans (hp ▸ hsf)⟩

theorem WellFormed.blockOf_of_mem_extendBlocks (hw : pool.WellFormed) {s : Scope}
    (hsf : pool.scopeFile s = f) {b : BlockId} (hb : b ∈ (pool.members s).extendBlocks) :
    pool.BlockOf f b := by
  obtain ⟨hb, hp, -⟩ := (hw.extend_iff s b).mp hb
  exact ⟨hb, (hw.file_of_parent hb hp).trans hsf⟩

theorem WellFormed.fieldOf_of_mem_fields (hw : pool.WellFormed) {b : BlockId}
    (hb : pool.BlockOf f b) {d : FieldId} (hd : d ∈ (pool.block b).fields.values) :
    pool.FieldOf f d := by
  obtain ⟨hd, hdb⟩ := hw.mem_fields_iff.mp hd
  exact ⟨hd, hdb ▸ hb⟩

namespace Matches

/-- Walks over a message correspond if their steps do. -/
theorem foldMessage (h : Matches ρ f pool other) (hw : pool.WellFormed) (hw' : other.WellFormed)
    {β γ : Type} {k : BlockId → List β → β} {k' : BlockId → List γ → γ} {c : β → γ}
    (hk : ∀ b, pool.BlockOf f b → ∀ nested, k' (ρ.block b) (nested.map c) = c (k b nested))
    {b : BlockId} (hb : pool.BlockOf f b) :
    other.foldMessage k' (ρ.block b) = c (pool.foldMessage k b) := by
  induction hn : pool.blocks.size - b.index using Nat.strongRecOn generalizing b with
  | _ n ih =>
    have hmessages : (other.block (ρ.block b)).members.messages.values =
        (pool.block b).members.messages.values.map ρ.block := by
      rw [h.block b hb]
      exact Table.values_map ..
    rw [hw.foldMessage_eq, hw'.foldMessage_eq, hmessages, List.map_map, ← hk b hb, List.map_map]
    congr 1
    refine List.map_congr_left fun a ha => ?_
    have hlt := hw.block_later a b (hw.mem_messages_iff (s := .block b).mp ha).1
      (hw.mem_messages_iff (s := .block b).mp ha).2.2
    have hsize : a.index < pool.blocks.size := (hw.mem_messages_iff (s := .block b).mp ha).1
    exact ih _ (by omega) (hw.blockOf_of_mem_messages (s := .block b) hb.2 ha) rfl

theorem withNested (h : Matches ρ f pool other) (hw : pool.WellFormed) (hw' : other.WellFormed)
    {b : BlockId} (hb : pool.BlockOf f b) :
    other.withNested (ρ.block b) = (pool.withNested b).map ρ.block := by
  refine h.foldMessage hw hw' (fun b _ nested => ?_) hb
  rw [List.map_cons, List.map_flatten]

theorem messagesIn (h : Matches ρ f pool other) (hw : pool.WellFormed) (hw' : other.WellFormed)
    {s : Scope} (hs : pool.InRange s) (hsf : pool.scopeFile s = f) :
    other.messagesIn (ρ.scope s) = (pool.messagesIn s).map ρ.block := by
  simp only [Pool.messagesIn, h.members hs hsf, Renaming.members, Table.values_map,
    List.flatMap_map, List.map_flatMap]
  refine List.flatMap_congr fun b hb => ?_
  exact h.withNested hw hw' (hw.blockOf_of_mem_messages hsf hb)

end Matches

/-! ### Sorting -/

section sorting

variable {α β : Type} {key : α → Nat} {key' : β → Nat} {r : α → β}

theorem insertBy_map {x : α} {ys : List α}
    (h : ∀ y ∈ ys, key' (r x) ≤ key' (r y) ↔ key x ≤ key y) :
    insertBy key' (r x) (ys.map r) = (insertBy key x ys).map r := by
  induction ys with
  | nil => rfl
  | cons y ys ih =>
    rw [List.forall_mem_cons] at h
    simp only [List.map_cons, insertBy, h.1, ih h.2]
    split <;> rfl

theorem sortBy_map {xs : List α}
    (h : ∀ x ∈ xs, ∀ y ∈ xs, key' (r x) ≤ key' (r y) ↔ key x ≤ key y) :
    sortBy key' (xs.map r) = (sortBy key xs).map r := by
  induction xs with
  | nil => rfl
  | cons x xs ih =>
    have hxs := ih fun y hy z hz => h y (List.mem_cons_of_mem x hy) z (List.mem_cons_of_mem x hz)
    show insertBy key' (r x) (sortBy key' (xs.map r)) = (insertBy key x (sortBy key xs)).map r
    rw [hxs]
    refine insertBy_map fun y hy => h x (List.mem_cons_self ..) y ?_
    exact List.mem_cons_of_mem x ((mem_sortBy xs).mp hy)

end sorting

/-! ### What a file holds -/

namespace Matches

variable (h : Matches ρ f pool other) (hw : pool.WellFormed) (hw' : other.WellFormed)
  (hf : pool.HasFile f)
include h hw hw' hf

omit hw' hf hw in
theorem block_le {a b : BlockId} (ha : pool.BlockOf f a) (hb : pool.BlockOf f b) :
    (ρ.block a).index ≤ (ρ.block b).index ↔ a.index ≤ b.index := by
  refine ⟨fun hle => Nat.le_of_not_lt fun hlt => ?_, fun hle => ?_⟩
  · exact Nat.lt_irrefl _ (Nat.lt_of_le_of_lt hle (h.block_lt b a hb ha hlt))
  · rcases Nat.lt_or_eq_of_le hle with hlt | heq
    · exact Nat.le_of_lt (h.block_lt a b ha hb hlt)
    · exact Nat.le_of_eq (congrArg (fun c => (ρ.block c).index) (congrArg BlockId.mk heq))

omit hw' hf hw in
theorem field_le {a b : FieldId} (ha : pool.FieldOf f a) (hb : pool.FieldOf f b) :
    (ρ.field a).index ≤ (ρ.field b).index ↔ a.index ≤ b.index := by
  refine ⟨fun hle => Nat.le_of_not_lt fun hlt => ?_, fun hle => ?_⟩
  · exact Nat.lt_irrefl _ (Nat.lt_of_le_of_lt hle (h.field_lt b a hb ha hlt))
  · rcases Nat.lt_or_eq_of_le hle with hlt | heq
    · exact Nat.le_of_lt (h.field_lt a b ha hb hlt)
    · exact Nat.le_of_eq (congrArg (fun c => (ρ.field c).index) (congrArg FieldId.mk heq))

/-- The scopes of a file. -/
theorem scopes : Scope.file (ρ.file f) :: (other.messagesIn (.file (ρ.file f))).map Scope.block =
    (Scope.file f :: (pool.messagesIn (.file f)).map Scope.block).map ρ.scope := by
  rw [show Scope.file (ρ.file f) = ρ.scope (.file f) from rfl,
    h.messagesIn hw hw' (s := .file f) hf rfl, List.map_cons, List.map_map, List.map_map]
  rfl

theorem blocksOf : other.blocksOf (ρ.file f) = (pool.blocksOf f).map ρ.block := by
  have hextends : (Scope.file (ρ.file f) ::
      (other.messagesIn (.file (ρ.file f))).map Scope.block).flatMap
        (fun s => (other.members s).extendBlocks) =
      ((Scope.file f :: (pool.messagesIn (.file f)).map Scope.block).flatMap
        fun s => (pool.members s).extendBlocks).map ρ.block := by
    rw [h.scopes hw hw' hf, List.flatMap_map, List.map_flatMap]
    refine List.flatMap_congr fun s hs => ?_
    obtain ⟨hs, hsf⟩ := (hw.mem_scopes_iff hf).mp hs
    rw [h.members hs.inRange hsf]
    rfl
  simp only [Pool.blocksOf, hextends]
  rw [show Scope.file (ρ.file f) = ρ.scope (.file f) from rfl,
    h.messagesIn hw hw' (s := .file f) hf rfl, ← List.map_append]
  refine sortBy_map fun a ha b hb => h.block_le ?_ ?_
  · exact (hw.mem_blocksOf_iff hf).mp ((mem_sortBy _).mpr ha)
  · exact (hw.mem_blocksOf_iff hf).mp ((mem_sortBy _).mpr hb)

theorem fieldsOf : other.fieldsOf (ρ.file f) = (pool.fieldsOf f).map ρ.field := by
  have hfields : ((pool.blocksOf f).map ρ.block).flatMap
      (fun b => (other.block b).fields.values) =
        ((pool.blocksOf f).flatMap fun b => (pool.block b).fields.values).map ρ.field := by
    rw [List.flatMap_map, List.map_flatMap]
    refine List.flatMap_congr fun b hb => ?_
    rw [h.block b ((hw.mem_blocksOf_iff hf).mp hb)]
    exact Table.values_map ..
  simp only [Pool.fieldsOf, h.blocksOf hw hw' hf, hfields]
  refine sortBy_map fun a ha b hb => h.field_le ?_ ?_
  · exact (hw.mem_fieldsOf_iff hf).mp ((mem_sortBy _).mpr ha)
  · exact (hw.mem_fieldsOf_iff hf).mp ((mem_sortBy _).mpr hb)

theorem declaredTypes : other.declaredTypes (ρ.file f) =
    (pool.declaredTypes f).map fun e => (e.1, ρ.type e.2) := by
  simp only [Pool.declaredTypes, h.scopes hw hw' hf, List.flatMap_map, List.map_flatMap,
    List.map_map]
  refine List.flatMap_congr fun s hs => ?_
  obtain ⟨hs, hsf⟩ := (hw.mem_scopes_iff hf).mp hs
  simp only [h.members hs.inRange hsf, Renaming.members, Table.values_map, List.map_append,
    List.map_map]
  congr 1
  · refine List.map_congr_left fun b hb => ?_
    obtain ⟨hb, hx, hp⟩ := hw.mem_messages_iff.mp hb
    exact congrArg (·, TypeId.message (ρ.block b)) (h.typeName (t := .message b) ⟨hb, hx⟩
      ((hw.file_of_parent hb hp).trans hsf))
  · refine List.map_congr_left fun e he => ?_
    obtain ⟨he, hp⟩ := hw.mem_enums_iff.mp he
    exact congrArg (·, TypeId.enum (ρ.enum e)) (h.typeName (t := .enum e) he
      ((hw.enum_scope e he).2.symm.trans (hp ▸ hsf)))

end Matches

/-! ### Recorded types -/

namespace Alike

theorem importedTypes (h : Alike ρ f pool other) : other.importedTypes (ρ.file f) =
    (pool.importedTypes f).map fun e => (e.1, ρ.type e.2) := by
  simp only [Pool.importedTypes, h.own.imports, Table.values_map, List.filter_map,
    List.flatMap_map, List.map_flatMap]
  refine List.flatMap_congr fun i hi => ?_
  have hi := (h.matched i.file (.single ⟨i, (List.mem_filter.mp hi).1, rfl⟩)).types
  exact congrArg Table.entries hi

/-- Files that match also do when the types that they pass on are recorded. -/
theorem recordTypes (h : Alike ρ f pool other) :
    Matches ρ f (pool.recordTypes f) (other.recordTypes (ρ.file f)) := by
  refine h.own.modifyFile h.there h.there' ?_
  simp only [Renaming.onFile, h.own.declaredTypes h.left h.right h.there, h.importedTypes,
    ← List.map_append, Table.map_insertAll, Table.map_empty]

end Alike

end ProtoSchema.Pool

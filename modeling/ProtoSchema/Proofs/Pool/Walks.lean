import Mathlib.Logic.Relation
import ProtoSchema.Pool.Contents
import ProtoSchema.Proofs.Pool.Frames

/-! # Walking through the tree

The depth of a walk outward or inward is bounded by the number of blocks.  In a well-formed pool
that bound is never reached: `enclosing` lists all scopes around a scope, and `blocksOf`,
`fieldsOf` and `declaredTypes` list all that a file holds. -/

namespace ProtoSchema.Pool

variable {pool : Pool} {f : FileId}

/-! ### Outward -/

/-- A bound for the number of scopes around a scope. -/
def scopeRank : Scope → Nat
  | .file _ => 0
  | .block b => b.index + 1

theorem enclosingUpTo_file (depth : Nat) (i : FileId) :
    pool.enclosingUpTo depth (.file i) = [.file i] := by
  cases depth <;> rfl

/-- The bound does not matter if it is large enough. -/
theorem WellFormed.enclosingUpTo_eq (hw : pool.WellFormed) {depth : Nat} : ∀ (depth' : Nat)
    {s : Scope}, pool.InRange s → scopeRank s ≤ depth → scopeRank s ≤ depth' →
    pool.enclosingUpTo depth s = pool.enclosingUpTo depth' s := by
  induction depth with
  | zero =>
    intro depth' s _ h _
    cases s with
    | file i => rw [enclosingUpTo_file, enclosingUpTo_file]
    | block b => exact absurd h (Nat.not_succ_le_zero _)
  | succ depth ih =>
    intro depth' s hs h h'
    cases s with
    | file i => rw [enclosingUpTo_file, enclosingUpTo_file]
    | block b =>
      cases depth' with
      | zero => exact absurd h' (Nat.not_succ_le_zero _)
      | succ depth' =>
        have hp : scopeRank (pool.block b).parent ≤ b.index := by
          cases hparent : (pool.block b).parent with
          | file i => exact Nat.zero_le _
          | block p => exact hw.block_later b p hs hparent
        simp only [scopeRank] at h h'
        simp only [enclosingUpTo, parent?]
        rw [ih depth' (hw.block_scope b hs).1.inRange (by omega) (by omega)]

theorem enclosing_file (i : FileId) : pool.enclosing (.file i) = [.file i] :=
  enclosingUpTo_file _ _

theorem WellFormed.enclosing_block (hw : pool.WellFormed) {b : BlockId} (hb : pool.HasBlock b) :
    pool.enclosing (.block b) = .block b :: pool.enclosing (pool.block b).parent := by
  have hp : scopeRank (pool.block b).parent ≤ b.index := by
    cases hparent : (pool.block b).parent with
    | file i => exact Nat.zero_le _
    | block p => exact hw.block_later b p hb hparent
  have hsize : b.index < pool.blocks.size := hb
  unfold enclosing
  obtain ⟨n, hn⟩ := Nat.exists_eq_succ_of_ne_zero (Nat.ne_of_gt (Nat.zero_lt_of_lt hsize))
  rw [hn]
  show Scope.block b :: pool.enclosingUpTo n (pool.block b).parent =
    .block b :: pool.enclosingUpTo (n + 1) (pool.block b).parent
  rw [hw.enclosingUpTo_eq (n + 1) (hw.block_scope b hb).1.inRange (by omega) (by omega)]

/-- The scopes around a scope are in its file. -/
theorem WellFormed.scopeFile_of_mem_enclosing (hw : pool.WellFormed) {s t : Scope}
    (hs : pool.InRange s) (ht : t ∈ pool.enclosing s) :
    pool.InRange t ∧ pool.scopeFile t = pool.scopeFile s := by
  induction h : scopeRank s using Nat.strongRecOn generalizing s with
  | _ n ih =>
    cases s with
    | file i =>
      rw [enclosing_file, List.mem_singleton] at ht
      rw [ht]
      exact ⟨hs, rfl⟩
    | block b =>
      rw [hw.enclosing_block hs, List.mem_cons] at ht
      rcases ht with rfl | ht
      · exact ⟨hs, rfl⟩
      · have hp : scopeRank (pool.block b).parent < n := by
          rw [← h]
          cases hparent : (pool.block b).parent with
          | file i => exact Nat.succ_pos _
          | block p => exact Nat.succ_lt_succ (hw.block_later b p hs hparent)
        obtain ⟨h₁, h₂⟩ := ih _ hp (hw.block_scope b hs).1.inRange ht rfl
        exact ⟨h₁, h₂.trans (hw.block_scope b hs).2⟩

/-! ### Inward -/

/-- The message `b` stands directly in the message `a`. -/
def Child (pool : Pool) (a b : BlockId) : Prop :=
  pool.HasBlock b ∧ (pool.block b).isExtend = false ∧ (pool.block b).parent = .block a

theorem WellFormed.mem_messages_iff (hw : pool.WellFormed) {s : Scope} {b : BlockId} :
    b ∈ (pool.members s).messages.values ↔
      pool.HasBlock b ∧ (pool.block b).isExtend = false ∧ (pool.block b).parent = s := by
  rw [Table.mem_values_iff]
  constructor
  · rintro ⟨n, hn⟩
    obtain ⟨hb, hp, hh⟩ := (hw.message_iff s n b).mp hn
    exact ⟨hb, (heading_eq_message_iff.mp hh).1, hp⟩
  · rintro ⟨hb, hx, rfl⟩
    have hh := heading_eq_message_iff.mpr ⟨hx, rfl⟩
    obtain ⟨n, hn⟩ := hw.message_name b _ hb hh
    exact ⟨n, (hw.message_iff _ n b).mpr ⟨hb, rfl, hn ▸ hh⟩⟩

theorem WellFormed.mem_enums_iff (hw : pool.WellFormed) {s : Scope} {e : EnumId} :
    e ∈ (pool.members s).enums.values ↔ pool.HasEnum e ∧ (pool.enum e).parent = s := by
  rw [Table.mem_values_iff]
  constructor
  · rintro ⟨n, hn⟩
    obtain ⟨he, hp, -⟩ := (hw.enum_iff s n e).mp hn
    exact ⟨he, hp⟩
  · rintro ⟨he, rfl⟩
    obtain ⟨n, hn⟩ := hw.enum_name e he
    exact ⟨n, (hw.enum_iff _ n e).mpr ⟨he, rfl, hn⟩⟩

theorem WellFormed.mem_fields_iff (hw : pool.WellFormed) {b : BlockId} {d : FieldId} :
    d ∈ (pool.block b).fields.values ↔ pool.HasField d ∧ (pool.field d).block = b := by
  rw [Table.mem_values_iff]
  constructor
  · rintro ⟨n, hn⟩
    obtain ⟨hd, hb, -⟩ := (hw.field_iff b n d).mp hn
    exact ⟨hd, hb⟩
  · rintro ⟨hd, rfl⟩
    exact ⟨_, (hw.field_iff _ _ d).mpr ⟨hd, rfl, rfl⟩⟩

/-- A message with those nested in it, down to `depth` levels. -/
def nestedUpTo (pool : Pool) (depth : Nat) (id : BlockId) : List BlockId :=
  pool.foldMessageUpTo (fun id nested => id :: nested.flatten) depth id

theorem WellFormed.mem_nestedUpTo_iff (hw : pool.WellFormed) (depth : Nat) : ∀ {a b : BlockId},
    pool.blocks.size ≤ a.index + depth + 1 →
    (b ∈ pool.nestedUpTo depth a ↔ Relation.ReflTransGen pool.Child a b) := by
  induction depth with
  | zero =>
    intro a b hsize
    simp only [nestedUpTo, foldMessageUpTo, List.flatten_nil, List.mem_singleton]
    constructor
    · rintro rfl
      exact .refl
    · intro h
      obtain h | ⟨c, hc, -⟩ := h.cases_head
      · exact h.symm
      · have := hw.block_later c a hc.1 hc.2.2
        have : c.index < pool.blocks.size := hc.1
        omega
  | succ depth ih =>
    intro a b hsize
    have hchild : ∀ c, c ∈ (pool.block a).members.messages.values ↔ pool.Child a c := fun c =>
      hw.mem_messages_iff (s := .block a)
    have hdepth : ∀ c, pool.Child a c → pool.blocks.size ≤ c.index + depth + 1 := by
      intro c hc
      have := hw.block_later c a hc.1 hc.2.2
      omega
    simp only [nestedUpTo, foldMessageUpTo, List.mem_cons, List.mem_flatten, List.mem_map]
    constructor
    · rintro (rfl | ⟨_, ⟨c, hc, rfl⟩, hb⟩)
      · exact .refl
      · have hc := (hchild c).mp hc
        exact .head hc ((ih (hdepth c hc)).mp hb)
    · intro h
      obtain h | ⟨c, hc, hcb⟩ := h.cases_head
      · exact .inl h.symm
      · exact .inr ⟨_, ⟨c, (hchild c).mpr hc, rfl⟩, (ih (hdepth c hc)).mpr hcb⟩

theorem WellFormed.mem_withNested_iff (hw : pool.WellFormed) {a b : BlockId} :
    b ∈ pool.withNested a ↔ Relation.ReflTransGen pool.Child a b :=
  hw.mem_nestedUpTo_iff _ (by omega)

/-- A message or file around a message of a file is of that file too. -/
theorem WellFormed.parent_of_blockOf (hw : pool.WellFormed) {b : BlockId}
    (hb : pool.BlockOf f b) : (pool.block b).parent = .file f ∨
      ∃ p, (pool.block b).parent = .block p ∧ pool.BlockOf f p ∧
        (pool.block p).isExtend = false ∧ p.index < b.index := by
  obtain ⟨hs, hfile⟩ := hw.block_scope b hb.1
  cases hp : (pool.block b).parent with
  | file i =>
    rw [hp] at hfile
    exact .inl (congrArg Scope.file (hfile.trans hb.2))
  | block p =>
    rw [hp] at hs hfile
    exact .inr ⟨p, rfl, ⟨hs.1, hfile.trans hb.2⟩, hs.2, hw.block_later b p hb.1 hp⟩

/-- A block stands in a file that is there. -/
theorem WellFormed.hasFile_of_blockOf (hw : pool.WellFormed) {b : BlockId}
    (hb : pool.BlockOf f b) : pool.HasFile f := by
  induction h : b.index using Nat.strongRecOn generalizing b with
  | _ n ih =>
    obtain hp | ⟨p, -, hpf, -, hlt⟩ := hw.parent_of_blockOf hb
    · have := (hw.block_scope b hb.1).1
      rwa [hp] at this
    · exact ih p.index (h ▸ hlt) hpf rfl

theorem WellFormed.hasFile_of_enumOf (hw : pool.WellFormed) {e : EnumId}
    (he : pool.EnumOf f e) : pool.HasFile f := by
  obtain ⟨hs, hfile⟩ := hw.enum_scope e he.1
  cases hp : (pool.enum e).parent with
  | file i =>
    rw [hp] at hs hfile
    exact (hfile.trans he.2) ▸ hs
  | block p =>
    rw [hp] at hs hfile
    exact hw.hasFile_of_blockOf ⟨hs.1, hfile.trans he.2⟩

/-- The messages in a file are all messages of the file. -/
theorem WellFormed.mem_messagesIn_iff (hw : pool.WellFormed) {b : BlockId} :
    b ∈ pool.messagesIn (.file f) ↔ pool.BlockOf f b ∧ (pool.block b).isExtend = false := by
  simp only [messagesIn, List.mem_flatMap, hw.mem_withNested_iff, hw.mem_messages_iff]
  constructor
  · rintro ⟨a, ⟨ha, hx, hp⟩, hab⟩
    induction hab with
    | refl =>
      have := (hw.block_scope a ha).2
      rw [hp] at this
      exact ⟨⟨ha, this.symm⟩, hx⟩
    | tail _ hc ih =>
      have := (hw.block_scope _ hc.1).2
      rw [hc.2.2] at this
      exact ⟨⟨hc.1, this.symm.trans ih.1.2⟩, hc.2.1⟩
  · rintro ⟨hb, hx⟩
    induction h : b.index using Nat.strongRecOn generalizing b with
    | _ n ih =>
      obtain hp | ⟨p, hp, hpf, hpx, hlt⟩ := hw.parent_of_blockOf hb
      · exact ⟨b, ⟨hb.1, hx, hp⟩, .refl⟩
      · obtain ⟨a, ha, hap⟩ := ih p.index (h ▸ hlt) hpf hpx rfl
        exact ⟨a, ha, hap.tail ⟨hb.1, hx, hp⟩⟩

/-! ### What a file holds -/

/-- The scopes of a file: the file itself and its messages. -/
theorem WellFormed.mem_scopes_iff (hw : pool.WellFormed) (hf : pool.HasFile f) {s : Scope} :
    s ∈ Scope.file f :: (pool.messagesIn (.file f)).map Scope.block ↔
      pool.HasScope s ∧ pool.scopeFile s = f := by
  rw [List.mem_cons, List.mem_map]
  constructor
  · rintro (rfl | ⟨b, hb, rfl⟩)
    · exact ⟨hf, rfl⟩
    · obtain ⟨hb, hx⟩ := hw.mem_messagesIn_iff.mp hb
      exact ⟨⟨hb.1, hx⟩, hb.2⟩
  · rintro ⟨hs, hfile⟩
    cases s with
    | file i => exact .inl (congrArg Scope.file hfile)
    | block b => exact .inr ⟨b, hw.mem_messagesIn_iff.mpr ⟨⟨hs.1, hfile⟩, hs.2⟩, rfl⟩

/-- The blocks that are listed for a file are all blocks of the file. -/
theorem WellFormed.mem_blocksOf_iff (hw : pool.WellFormed) (hf : pool.HasFile f) {b : BlockId} :
    b ∈ pool.blocksOf f ↔ pool.BlockOf f b := by
  simp only [blocksOf, mem_sortBy, List.mem_append, List.mem_flatMap,
    hw.mem_messagesIn_iff, hw.mem_scopes_iff hf, hw.extend_iff]
  constructor
  · rintro (⟨hb, -⟩ | ⟨s, ⟨-, hs⟩, hb, rfl, -⟩)
    · exact hb
    · exact ⟨hb, (hw.block_scope b hb).2.symm.trans hs⟩
  · intro hb
    cases hx : (pool.block b).isExtend with
    | false => exact .inl ⟨hb, rfl⟩
    | true =>
      obtain ⟨hs, hfile⟩ := hw.block_scope b hb.1
      exact .inr ⟨_, ⟨hs, hfile.trans hb.2⟩, hb.1, rfl, rfl⟩

/-- The fields that are listed for a file are all fields of the file. -/
theorem WellFormed.mem_fieldsOf_iff (hw : pool.WellFormed) (hf : pool.HasFile f) {d : FieldId} :
    d ∈ pool.fieldsOf f ↔ pool.FieldOf f d := by
  simp only [fieldsOf, mem_sortBy, List.mem_flatMap, hw.mem_blocksOf_iff hf,
    hw.mem_fields_iff]
  constructor
  · rintro ⟨b, hb, hd, rfl⟩
    exact ⟨hd, hb⟩
  · rintro ⟨hd, hb⟩
    exact ⟨_, hb, hd, rfl⟩

end ProtoSchema.Pool

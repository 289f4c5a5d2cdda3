import Mathlib.Data.List.Nodup
import Mathlib.Data.List.Sort
import ProtoSchema.Proofs.Pool.Outline
import ProtoSchema.Proofs.Pool.Places

/-! # What the walks through a file list

All declarations of a pool lie behind each other in the order in which they were added, those of one file
between those of others.  Picking the blocks of a file from them, and the fields of those blocks, gives
what the walks through the file give (`WellFormed.blocksOf_eq`, `WellFormed.fieldsOf_eq`): a walk comes to
no declaration twice, and the numbers that it sorts by are those of the places in the pool.  A walk that
keeps its scopes on a stack comes to the same blocks in another order (`WellFormed.sortBy_walked`).

Read as statements, the picked declarations are a record of the events that have declared them.  An
event adds to it what it declares, and nothing else that is done to a pool changes it (`Pool.AddsRecord`). -/

namespace ProtoSchema

/-! ### Sorted lists -/

section sorting

variable {α β : Type} {key : α → Nat} {xs ys : List α}

theorem Pool.insertBy_eq_orderedInsert (x : α) (ys : List α) :
    Pool.insertBy key x ys = ys.orderedInsert (fun a b => key a ≤ key b) x := by
  induction ys with
  | nil => rfl
  | cons y ys ih => rw [Pool.insertBy, List.orderedInsert_cons, ih]

theorem Pool.sortBy_eq_insertionSort (xs : List α) :
    Pool.sortBy key xs = xs.insertionSort (fun a b => key a ≤ key b) := by
  induction xs with
  | nil => rfl
  | cons x xs ih =>
    rw [List.insertionSort_cons, ← ih, ← Pool.insertBy_eq_orderedInsert]
    rfl

/-- Values with different keys that stand once each are sorted strictly. -/
theorem Pool.increasing_sortBy (hkey : Function.Injective key) (hxs : xs.Nodup) :
    (Pool.sortBy key xs).Pairwise fun a b => key a < key b := by
  have : Std.Total fun a b => key a ≤ key b := ⟨fun a b => Nat.le_total (key a) (key b)⟩
  have : IsTrans α fun a b => key a ≤ key b := ⟨fun _ _ _ => Nat.le_trans⟩
  rw [Pool.sortBy_eq_insertionSort]
  have hsorted := List.pairwise_insertionSort (fun a b => key a ≤ key b) xs
  have hnodup := (List.perm_insertionSort (fun a b => key a ≤ key b) xs).nodup_iff.mpr hxs
  refine (hsorted.and hnodup).imp fun hab => ?_
  exact Nat.lt_of_le_of_ne hab.1 fun hkeys => hab.2 (hkey hkeys)

/-- Values in the order of their keys are determined by which ones they are. -/
theorem eq_of_increasing (hxs : xs.Pairwise fun a b => key a < key b)
    (hys : ys.Pairwise fun a b => key a < key b) (h : ∀ a, a ∈ xs ↔ a ∈ ys) : xs = ys := by
  have : Std.Irrefl fun a b => key a < key b := ⟨fun a => Nat.lt_irrefl (key a)⟩
  have : Std.Antisymm fun a b => key a < key b := ⟨fun a b hab hba => absurd hba (Nat.lt_asymm hab)⟩
  exact hxs.eq_of_mem_iff hys h

/-- Lists without common values, none of which has a value twice, behind each other. -/
theorem nodup_flatMap_of_disjoint {g : α → List β} (hxs : xs.Nodup) (hg : ∀ x ∈ xs, (g x).Nodup)
    (hdisjoint : ∀ x ∈ xs, ∀ y ∈ xs, ∀ z, z ∈ g x → z ∈ g y → x = y) : (xs.flatMap g).Nodup := by
  refine List.nodup_flatMap.mpr ⟨hg, hxs.pairwise_of_forall_ne fun x hx y hy hne => ?_⟩
  exact fun z hzx hzy => hne (hdisjoint x hx y hy z hzx hzy)

end sorting

/-! ### Statements -/

/-- Does a statement open a message or an extend block? -/
def Event.opensBlock : Event → Bool
  | openMessage _ | openExtend _ => true
  | _ => false

/-- Is a statement that of a field? -/
def Event.isField : Event → Bool
  | field _ => true
  | _ => false

/-- The statement that opens a block. -/
def Block.opening (b : Block) : Event :=
  match b.heading with
  | .message _ => .openMessage ⟨b.name, b.span⟩
  | .extend type _ => .openExtend ⟨type, b.span⟩

/-- The statement of a field. -/
def Field.statement (d : Field) : Event :=
  .field { form := d.form, type := ⟨View.asWritten.fieldType d.type, d.typeSpan⟩, name := d.name
           number := d.number, options := d.options }

theorem Block.Refines.opening {b b' : Block} (h : b.Refines b') : b'.opening = b.opening := by
  have hname : b'.name = b.name := congrArg (fun n : DottedName => n.getLast?.getD "") h.fullName
  unfold Block.opening
  rw [hname, h.span]
  obtain hheading | ⟨type, t, hheading, hheading'⟩ := h.heading
  · rw [hheading]
  · rw [hheading, hheading']

theorem Field.Refines.statement {d d' : Field} (h : d.Refines d') : d'.statement = d.statement := by
  have htype : View.asWritten.fieldType d'.type = View.asWritten.fieldType d.type := by
    obtain htype | ⟨name, t, htype, htype'⟩ := h.type
    · rw [htype]
    · rw [htype, htype']
      rfl
  rw [h.same]
  simp only [Field.statement, htype]

theorem Block.spans_opening (b : Block) : b.opening.spans = [b.span] := by
  unfold Block.opening
  cases b.heading <;> rfl

namespace Pool

variable {pool other : Pool} {f g : FileId}

/-! ### Walks come to nothing twice -/

namespace WellFormed

theorem nodup_messages (hw : pool.WellFormed) (s : Scope) : (pool.members s).messages.values.Nodup :=
  .of_map (fun b => (pool.block b).name)
    (by rw [hw.message_names]; exact (pool.members s).messages.nodup)

theorem index_le_of_nested (hw : pool.WellFormed) {a b : BlockId}
    (h : Relation.ReflTransGen pool.Child a b) : a.index ≤ b.index := by
  induction h with
  | refl => exact Nat.le_refl _
  | tail _ hc ih => exact Nat.le_of_lt (Nat.lt_of_le_of_lt ih (hw.block_later _ _ hc.1 hc.2.2))

/-- A message is nested in one message of each scope at most. -/
theorem eq_of_nested (hw : pool.WellFormed) {s : Scope} {a a' b : BlockId}
    (ha : a ∈ (pool.members s).messages.values) (ha' : a' ∈ (pool.members s).messages.values)
    (h : Relation.ReflTransGen pool.Child a b) (h' : Relation.ReflTransGen pool.Child a' b) : a = a' := by
  -- of two messages around `b` one is around the other; its scope would be the other one or inside it
  have hinside : ∀ {c c' : BlockId}, c ∈ (pool.members s).messages.values →
      c' ∈ (pool.members s).messages.values → Relation.ReflTransGen pool.Child c c' → c = c' := by
    intro c c' hc hc' hcc'
    obtain hsame | ⟨p, hp, hchild⟩ := hcc'.cases_tail
    · exact hsame.symm
    · have hparent := (hw.mem_messages_iff.mp hc').2.2
      rw [hchild.2.2] at hparent
      obtain ⟨hthere, -, hcs⟩ := hw.mem_messages_iff.mp hc
      have hlater := hw.block_later c p hthere (hcs.trans hparent.symm)
      have hle := hw.index_le_of_nested hp
      omega
  have hunique : Relator.RightUnique (Function.swap pool.Child) := fun b p p' hp hp' =>
    Scope.block.inj (hp.2.2.symm.trans hp'.2.2)
  obtain hways | hways := Relation.ReflTransGen.total_of_right_unique hunique h.swap h'.swap
  · exact (hinside ha' ha hways.swap).symm
  · exact hinside ha ha' hways.swap

theorem withNested_eq (hw : pool.WellFormed) (a : BlockId) :
    pool.withNested a = a :: pool.messagesIn (.block a) := by
  rw [messagesIn, List.flatMap_def]
  exact hw.foldMessage_eq _ a

theorem nodup_withNested (hw : pool.WellFormed) (a : BlockId) : (pool.withNested a).Nodup := by
  refine hw.message_induction (P := fun a => (pool.withNested a).Nodup) (fun a ih => ?_) a
  rw [hw.withNested_eq, List.nodup_cons]
  constructor
  · intro hmem
    obtain ⟨c, hc, hac⟩ := List.mem_flatMap.mp hmem
    obtain ⟨hthere, -, hparent⟩ := hw.mem_messages_iff.mp hc
    have hlater := hw.block_later c a hthere hparent
    have hle := hw.index_le_of_nested (hw.mem_withNested_iff.mp hac)
    omega
  · refine nodup_flatMap_of_disjoint (hw.nodup_messages _) ih fun c hc c' hc' b hb hb' => ?_
    exact hw.eq_of_nested hc hc' (hw.mem_withNested_iff.mp hb) (hw.mem_withNested_iff.mp hb')

theorem nodup_messagesIn (hw : pool.WellFormed) (s : Scope) : (pool.messagesIn s).Nodup := by
  refine nodup_flatMap_of_disjoint (hw.nodup_messages s) (fun a _ => hw.nodup_withNested a) ?_
  intro a ha a' ha' b hb hb'
  exact hw.eq_of_nested ha ha' (hw.mem_withNested_iff.mp hb) (hw.mem_withNested_iff.mp hb')

/-- The scopes of a file, each once. -/
theorem nodup_scopes (hw : pool.WellFormed) (f : FileId) :
    (Scope.file f :: (pool.messagesIn (.file f)).map Scope.block).Nodup := by
  refine List.nodup_cons.mpr ⟨fun hmem => ?_, (hw.nodup_messagesIn _).map fun a b => Scope.block.inj⟩
  obtain ⟨b, -, hb⟩ := List.mem_map.mp hmem
  cases hb

theorem not_mem_extendBlocks (hw : pool.WellFormed) {s : Scope} {b : BlockId}
    (hb : (pool.block b).isExtend = false) : b ∉ (pool.members s).extendBlocks := by
  intro hmem
  rw [((hw.extend_iff s b).mp hmem).2.2] at hb
  cases hb

/-- The blocks that are listed for a file stand in the order of the pool, each once. -/
theorem increasing_blocksOf (hw : pool.WellFormed) (f : FileId) :
    (pool.blocksOf f).Pairwise fun a b => a.index < b.index := by
  refine increasing_sortBy (fun a b hab => congrArg BlockId.mk hab) (List.nodup_append'.mpr ⟨?_, ?_, ?_⟩)
  · exact hw.nodup_messagesIn _
  · refine nodup_flatMap_of_disjoint (hw.nodup_scopes f) (fun s _ => hw.extend_nodup s) ?_
    intro s _ s' _ b hb hb'
    exact ((hw.extend_iff s b).mp hb).2.1.symm.trans ((hw.extend_iff s' b).mp hb').2.1
  · intro b hb hb'
    obtain ⟨s, -, hbs⟩ := List.mem_flatMap.mp hb'
    exact hw.not_mem_extendBlocks (hw.mem_messagesIn_iff.mp hb).2 hbs

/-- The fields that are listed for a file stand in the order of the pool, each once. -/
theorem increasing_fieldsOf (hw : pool.WellFormed) (f : FileId) :
    (pool.fieldsOf f).Pairwise fun a b => a.index < b.index := by
  refine increasing_sortBy (fun a b hab => congrArg FieldId.mk hab) ?_
  refine nodup_flatMap_of_disjoint ?_ (fun b _ => hw.nodup_fields b) ?_
  · refine (hw.increasing_blocksOf f).imp fun hab heq => ?_
    rw [heq] at hab
    exact Nat.lt_irrefl _ hab
  · intro b _ b' _ d hd hd'
    exact (hw.mem_fields_iff.mp hd).2.symm.trans (hw.mem_fields_iff.mp hd').2

end WellFormed

/-! ### Picking from the pool -/

/-- The messages and extend blocks whose file is `f`, picked from all that were added to the pool. -/
def pickedBlocks (pool : Pool) (f : FileId) : List BlockId :=
  ((List.range pool.blocks.size).map BlockId.mk).filter fun b => (pool.block b).file = f

/-- The fields of those blocks, picked from all that were added to the pool. -/
def pickedFields (pool : Pool) (f : FileId) : List FieldId :=
  ((List.range pool.fields.size).map FieldId.mk).filter fun d => (pool.field d).block ∈ pool.pickedBlocks f

theorem mem_pickedBlocks_iff {b : BlockId} : b ∈ pool.pickedBlocks f ↔ pool.BlockOf f b := by
  simp only [pickedBlocks, List.mem_filter, List.mem_map, List.mem_range, decide_eq_true_eq]
  refine and_congr_left fun _ => ⟨?_, fun hb => ⟨b.index, hb, rfl⟩⟩
  rintro ⟨n, hn, rfl⟩
  exact hn

theorem mem_pickedFields_iff {d : FieldId} : d ∈ pool.pickedFields f ↔ pool.FieldOf f d := by
  simp only [pickedFields, List.mem_filter, List.mem_map, List.mem_range, decide_eq_true_eq,
    mem_pickedBlocks_iff]
  refine and_congr_left fun _ => ⟨?_, fun hd => ⟨d.index, hd, rfl⟩⟩
  rintro ⟨n, hn, rfl⟩
  exact hn

theorem increasing_pickedBlocks (pool : Pool) (f : FileId) :
    (pool.pickedBlocks f).Pairwise fun a b => a.index < b.index :=
  .filter _ (List.pairwise_map.mpr List.pairwise_lt_range)

theorem increasing_pickedFields (pool : Pool) (f : FileId) :
    (pool.pickedFields f).Pairwise fun a b => a.index < b.index :=
  .filter _ (List.pairwise_map.mpr List.pairwise_lt_range)

/-- The walk through a file lists what is picked from the pool. -/
theorem WellFormed.blocksOf_eq (hw : pool.WellFormed) (hf : pool.HasFile f) :
    pool.blocksOf f = pool.pickedBlocks f := by
  refine eq_of_increasing (hw.increasing_blocksOf f) (pool.increasing_pickedBlocks f) fun b => ?_
  rw [hw.mem_blocksOf_iff hf, mem_pickedBlocks_iff]

theorem WellFormed.fieldsOf_eq (hw : pool.WellFormed) (hf : pool.HasFile f) :
    pool.fieldsOf f = pool.pickedFields f := by
  refine eq_of_increasing (hw.increasing_fieldsOf f) (pool.increasing_pickedFields f) fun d => ?_
  rw [hw.mem_fieldsOf_iff hf, mem_pickedFields_iff]

/-! ### Walking with a stack -/

/-- The messages and extend blocks that stand directly in a scope. -/
def blocksIn (pool : Pool) (s : Scope) : List BlockId :=
  (pool.members s).messages.values ++ (pool.members s).extendBlocks

/-- The scopes that a walk takes from its stack, one in each step: the messages of a scope are put on the
stack, the last one on top. -/
def taken (pool : Pool) : Nat → List Scope → List Scope
  | 0, _ => []
  | _ + 1, [] => []
  | n + 1, s :: stack =>
    s :: pool.taken n (((pool.members s).messages.values.map Scope.block).reverse ++ stack)

/-- The blocks that a walk from the file comes to in `n` steps. -/
def walked (pool : Pool) (n : Nat) (f : FileId) : List BlockId :=
  (pool.taken n [.file f]).flatMap pool.blocksIn

/-- A scope with all those in it. -/
def scopesUnder (pool : Pool) (s : Scope) : List Scope := s :: (pool.messagesIn s).map Scope.block

namespace WellFormed

theorem scopesUnder_eq (hw : pool.WellFormed) (s : Scope) : pool.scopesUnder s =
    s :: ((pool.members s).messages.values.map Scope.block).flatMap pool.scopesUnder := by
  rw [scopesUnder, messagesIn, List.map_flatMap, List.flatMap_map]
  refine congrArg (s :: ·) (List.flatMap_congr fun a _ => ?_)
  rw [hw.withNested_eq]
  rfl

/-- With enough steps the walk takes all scopes from the stack, each once. -/
theorem taken_perm (hw : pool.WellFormed) (n : Nat) : ∀ {stack : List Scope},
    (stack.flatMap pool.scopesUnder).length ≤ n → (pool.taken n stack).Perm (stack.flatMap pool.scopesUnder) := by
  induction n with
  | zero =>
    intro stack h
    rw [List.eq_nil_of_length_eq_zero (Nat.le_zero.mp h)]
    exact .nil
  | succ n ih =>
    intro stack h
    cases stack with
    | nil => exact .nil
    | cons s stack =>
      have hperm : ((s :: stack).flatMap pool.scopesUnder).Perm
          (s :: (((pool.members s).messages.values.map Scope.block).reverse ++ stack).flatMap
            pool.scopesUnder) := by
        rw [List.flatMap_cons, hw.scopesUnder_eq s, List.cons_append, List.flatMap_append]
        exact (((List.reverse_perm _).symm.flatMap_right _).append_right _).cons s
      have hlength := hperm.length_eq
      rw [List.length_cons] at hlength
      exact ((ih (by omega)).cons s).trans hperm.symm

theorem length_messagesIn_le (hw : pool.WellFormed) (f : FileId) :
    (pool.messagesIn (.file f)).length ≤ pool.blocks.size := by
  have hsub : pool.messagesIn (.file f) ⊆ (List.range pool.blocks.size).map BlockId.mk := fun b hb =>
    List.mem_map.mpr ⟨b.index, List.mem_range.mpr (hw.mem_messagesIn_iff.mp hb).1.1, rfl⟩
  have hle := (List.subperm_of_subset (hw.nodup_messagesIn _) hsub).length_le
  rwa [List.length_map, List.length_range] at hle

theorem mem_blocksIn_iff (hw : pool.WellFormed) {s : Scope} {b : BlockId} :
    b ∈ pool.blocksIn s ↔ pool.HasBlock b ∧ (pool.block b).parent = s := by
  rw [blocksIn, List.mem_append, hw.mem_messages_iff, hw.extend_iff]
  cases (pool.block b).isExtend <;> simp

theorem nodup_blocksIn (hw : pool.WellFormed) (s : Scope) : (pool.blocksIn s).Nodup := by
  refine List.nodup_append'.mpr ⟨hw.nodup_messages s, hw.extend_nodup s, fun b hb => ?_⟩
  exact hw.not_mem_extendBlocks (hw.mem_messages_iff.mp hb).2.1

/-- What a walk that goes on until its stack is empty comes to is, sorted, what is listed for the file. -/
theorem sortBy_walked (hw : pool.WellFormed) (hf : pool.HasFile f) {n : Nat} (hn : pool.blocks.size < n) :
    sortBy BlockId.index (pool.walked n f) = pool.blocksOf f := by
  have htaken : (pool.taken n [.file f]).Perm (pool.scopesUnder (.file f)) := by
    have hsingle := List.flatMap_singleton pool.scopesUnder (Scope.file f)
    have hlength := hw.length_messagesIn_le f
    rw [← hsingle]
    refine hw.taken_perm n ?_
    rw [hsingle, scopesUnder, List.length_cons, List.length_map]
    omega
  have hnodup : (pool.walked n f).Nodup := by
    refine nodup_flatMap_of_disjoint (htaken.nodup_iff.mpr (hw.nodup_scopes f))
      (fun s _ => hw.nodup_blocksIn s) fun s _ s' _ b hb hb' => ?_
    exact (hw.mem_blocksIn_iff.mp hb).2.symm.trans (hw.mem_blocksIn_iff.mp hb').2
  refine eq_of_increasing (increasing_sortBy (fun a b hab => congrArg BlockId.mk hab) hnodup)
    (hw.increasing_blocksOf f) fun b => ?_
  rw [mem_sortBy, hw.mem_blocksOf_iff hf, walked, List.mem_flatMap]
  constructor
  · rintro ⟨s, hs, hb⟩
    obtain ⟨hthere, rfl⟩ := hw.mem_blocksIn_iff.mp hb
    have hfile := ((hw.mem_scopes_iff hf).mp (htaken.mem_iff.mp hs)).2
    exact ⟨hthere, (hw.block_scope b hthere).2.symm.trans hfile⟩
  · intro hb
    obtain ⟨hs, hfile⟩ := hw.block_scope b hb.1
    exact ⟨_, htaken.mem_iff.mpr ((hw.mem_scopes_iff hf).mpr ⟨hs, hfile.trans hb.2⟩),
      hw.mem_blocksIn_iff.mpr ⟨hb.1, rfl⟩⟩

end WellFormed

/-! ### Records -/

/-- The statements that open the blocks of a file. -/
def blockEvents (pool : Pool) (f : FileId) : List Event :=
  (pool.pickedBlocks f).map fun b => (pool.block b).opening

/-- The statements of the fields of a file. -/
def fieldEvents (pool : Pool) (f : FileId) : List Event :=
  (pool.pickedFields f).map fun d => (pool.field d).statement

/-- The pool records those of the events that declare blocks and fields of the file, in order. -/
structure Records (pool : Pool) (f : FileId) (es : List Event) : Prop where
  blocks : pool.blockEvents f = es.filter Event.opensBlock
  fields : pool.fieldEvents f = es.filter Event.isField

/-- The change has added what the events declare to the record of the file `f`. -/
structure AddsRecord (f : FileId) (es : List Event) (pool other : Pool) : Prop where
  blocks : other.blockEvents f = pool.blockEvents f ++ es.filter Event.opensBlock
  fields : other.fieldEvents f = pool.fieldEvents f ++ es.filter Event.isField

theorem Records.append {es es' : List Event} (h : pool.Records f es) (hadds : AddsRecord f es' pool other) :
    other.Records f (es ++ es') where
  blocks := by rw [hadds.blocks, h.blocks, List.filter_append]
  fields := by rw [hadds.fields, h.fields, List.filter_append]

/-- Nothing is declared yet. -/
theorem records_nil (h : ∀ b, ¬pool.BlockOf f b) : pool.Records f [] where
  blocks := by
    rw [Pool.blockEvents, List.eq_nil_iff_forall_not_mem.mpr fun b hb => h b (mem_pickedBlocks_iff.mp hb)]
    rfl
  fields := by
    rw [Pool.fieldEvents,
      List.eq_nil_iff_forall_not_mem.mpr fun d hd => h _ (mem_pickedFields_iff.mp hd).2]
    rfl

/-! ### Changes that add nothing -/

theorem blockEvents_eq (hiff : ∀ b, other.BlockOf f b ↔ pool.BlockOf f b)
    (hsame : ∀ b, pool.BlockOf f b → (other.block b).opening = (pool.block b).opening) :
    other.blockEvents f = pool.blockEvents f := by
  have hpicked : other.pickedBlocks f = pool.pickedBlocks f :=
    eq_of_increasing (other.increasing_pickedBlocks f) (pool.increasing_pickedBlocks f) fun b => by
      rw [mem_pickedBlocks_iff, mem_pickedBlocks_iff, hiff]
  rw [blockEvents, blockEvents, hpicked]
  exact List.map_congr_left fun b hb => hsame b (mem_pickedBlocks_iff.mp hb)

theorem fieldEvents_eq (hiff : ∀ d, other.FieldOf f d ↔ pool.FieldOf f d)
    (hsame : ∀ d, pool.FieldOf f d → (other.field d).statement = (pool.field d).statement) :
    other.fieldEvents f = pool.fieldEvents f := by
  have hpicked : other.pickedFields f = pool.pickedFields f :=
    eq_of_increasing (other.increasing_pickedFields f) (pool.increasing_pickedFields f) fun d => by
      rw [mem_pickedFields_iff, mem_pickedFields_iff, hiff]
  rw [fieldEvents, fieldEvents, hpicked]
  exact List.map_congr_left fun d hd => hsame d (mem_pickedFields_iff.mp hd)

/-- The record of a file that is left alone. -/
theorem Kept.records {es : List Event} (h : Kept f pool other) (hr : pool.Records f es) :
    other.Records f es where
  blocks := (blockEvents_eq h.blocks fun b hb => by rw [h.block b hb]).trans hr.blocks
  fields := (fieldEvents_eq h.fields fun d hd => by rw [h.field d hd]).trans hr.fields

theorem Touches.blockEvents_eq (h : Touches g pool other) (hblocks : other.HasBlock = pool.HasBlock) :
    other.blockEvents f = pool.blockEvents f := by
  refine Pool.blockEvents_eq (fun b => ⟨fun hb => ?_, h.blockOf⟩) fun b hb => (h.block b hb.1).2.1.opening
  have hthere : pool.HasBlock b := hblocks ▸ hb.1
  exact ⟨hthere, (h.block b hthere).2.1.file.symm.trans hb.2⟩

theorem Touches.fieldEvents_eq (h : Touches g pool other) (hw : pool.WellFormed)
    (hfields : other.HasField = pool.HasField) : other.fieldEvents f = pool.fieldEvents f := by
  refine Pool.fieldEvents_eq (fun d => ⟨fun hd => ?_, h.fieldOf⟩) fun d hd => (h.field d hd.1).2.1.statement
  have hthere : pool.HasField d := hfields ▸ hd.1
  have hblock := hw.field_block d hthere
  have hfile := hd.2.2
  rw [h.field_block hthere, (h.block _ hblock).2.1.file] at hfile
  exact ⟨hthere, hblock, hfile⟩

namespace AddsRecord

/-- A change that adds neither blocks nor fields. -/
theorem of_touches {es : List Event} (h : Touches g pool other) (hw : pool.WellFormed)
    (hblocks : other.HasBlock = pool.HasBlock) (hfields : other.HasField = pool.HasField)
    (hopens : es.filter Event.opensBlock = []) (hdeclares : es.filter Event.isField = []) :
    AddsRecord f es pool other where
  blocks := by rw [hopens, List.append_nil, h.blockEvents_eq hblocks]
  fields := by rw [hdeclares, List.append_nil, h.fieldEvents_eq hw hfields]

/-- A new block stands behind the others. -/
theorem of_blockAdded {B : Block} {k : Members → Members} (h : BlockAdded pool other B k)
    (hw : pool.WellFormed) (hB : B.file = f) (hp : pool.scopeFile B.parent = f) {e : Event}
    (hopening : B.opening = e) (hopens : e.opensBlock = true) (hdeclares : e.isField = false) :
    AddsRecord f [e] pool other := by
  have htouches : Touches f pool other := .of_blockAdded h hB hp
  have hpicked : other.pickedBlocks f = pool.pickedBlocks f ++ [⟨pool.blocks.size⟩] := by
    refine eq_of_increasing (other.increasing_pickedBlocks f) (List.pairwise_append.mpr
      ⟨pool.increasing_pickedBlocks f, List.pairwise_singleton _ _, fun b hb b' hb' => ?_⟩) fun b => ?_
    · rw [List.mem_singleton.mp hb']
      exact (mem_pickedBlocks_iff.mp hb).1
    · rw [mem_pickedBlocks_iff, h.blockOf_iff hB, List.mem_append, mem_pickedBlocks_iff,
        List.mem_singleton]
  constructor
  · rw [Pool.blockEvents, hpicked, List.map_append, List.map_singleton, h.block_new, hopening,
      List.filter_cons_of_pos hopens, List.filter_nil]
    refine congrArg (· ++ [e]) (List.map_congr_left fun b hb => ?_)
    exact (htouches.block b (mem_pickedBlocks_iff.mp hb).1).2.1.opening
  · rw [htouches.fieldEvents_eq hw h.fields, List.filter_cons_of_neg (by simp [hdeclares]), List.filter_nil,
      List.append_nil]

/-- A new field stands behind the others. -/
theorem of_fieldAdded {F : Field} (h : FieldAdded pool other F) (hb : pool.BlockOf f F.block) {e : Event}
    (hstatement : F.statement = e) (hopens : e.opensBlock = false) (hdeclares : e.isField = true) :
    AddsRecord f [e] pool other := by
  have htouches : Touches f pool other := .of_fieldAdded h hb
  have hpicked : other.pickedFields f = pool.pickedFields f ++ [⟨pool.fields.size⟩] := by
    refine eq_of_increasing (other.increasing_pickedFields f) (List.pairwise_append.mpr
      ⟨pool.increasing_pickedFields f, List.pairwise_singleton _ _, fun d hd d' hd' => ?_⟩) fun d => ?_
    · rw [List.mem_singleton.mp hd']
      exact (mem_pickedFields_iff.mp hd).1
    · rw [mem_pickedFields_iff, h.fieldOf_iff hb, List.mem_append, mem_pickedFields_iff,
        List.mem_singleton]
  constructor
  · rw [htouches.blockEvents_eq h.blocks, List.filter_cons_of_neg (by simp [hopens]), List.filter_nil,
      List.append_nil]
  · rw [Pool.fieldEvents, hpicked, List.map_append, List.map_singleton, h.field_new, hstatement,
      List.filter_cons_of_pos hdeclares, List.filter_nil]
    refine congrArg (· ++ [e]) (List.map_congr_left fun d hd => ?_)
    exact (htouches.field d (mem_pickedFields_iff.mp hd).1).2.1.statement

end AddsRecord

end Pool

/-! ### Events -/

namespace Cursor

variable {c c' : Cursor} {pool other : Pool} {e : Event} {ks ks' : OpenBlocks}

theorem opening_newMessage (pool : Pool) (f : FileId) (s : Scope) (name : Located String) :
    (pool.newMessage f s name).opening = .openMessage name := by
  simp [Block.opening, Pool.newMessage, Block.name, Block.fullName]

theorem statement_newField (c : Cursor) (pool : Pool) (F : FieldDecl) (b : BlockId) :
    (c.newField pool F b).statement = .field F := by
  obtain ⟨form, ⟨type, span⟩, name, number, options⟩ := F
  cases type <;> rfl

/-- An event adds itself to the record of its file if it declares a block or a field. -/
theorem Effect.addsRecord (h : Effect c pool e c' other) (hn : e.Nests ks ks') (hf : c.Fits pool ks)
    (hw : pool.WellFormed) : Pool.AddsRecord c.file [e] pool other := by
  have htouches := h.touches hn hf
  cases h with
  | edition | package | importFile | fileOption | required | strayValue | closeEnum | closeBlock
  | enumOption =>
    exact .of_touches htouches hw rfl rfl rfl rfl
  | blockOption => exact .of_touches htouches hw (Pool.hasBlock_modifyBlock ..) rfl rfl rfl
  | message added =>
    cases hn with
    | openMessage hks =>
      obtain ⟨hs, hfile⟩ := hf.hasScope hks
      exact .of_blockAdded (Pool.blockAdded_addMessage added hs) hw rfl hfile
        (opening_newMessage pool c.file c.scope _) rfl rfl
  | extend =>
    cases hn with
    | openExtend hks =>
      obtain ⟨hs, hfile⟩ := hf.hasScope hks
      exact .of_blockAdded (Pool.blockAdded_addExtend c.file _ _ hs) hw rfl hfile rfl rfl rfl
  | enum added =>
    cases hn with
    | openEnum hks =>
      have hadded := Pool.enumAdded_addEnum added (hf.hasScope hks).1
      exact .of_touches htouches hw hadded.blocks hadded.fields rfl rfl
  | field scope added =>
    have hb := hf.scope_block scope
    exact .of_fieldAdded (Pool.fieldAdded added hb.1) hb (statement_newField c pool _ _) rfl rfl
  | strayField scope =>
    -- a field stands in a message or an extend block
    cases hn with
    | field hk map =>
      obtain ⟨b, hb, -⟩ := hf.block hk rfl
      rw [scope] at hb
      cases hb
  | value inEnum added =>
    obtain ⟨-, -, rfl⟩ := Pool.addValue_eq_ok added
    exact .of_touches htouches hw rfl rfl rfl rfl
  | reservedRanges | reservedNames | extensionRanges =>
    have hblocks : ∀ k, (c.modifyOpen pool k).HasBlock = pool.HasBlock ∧
        (c.modifyOpen pool k).HasField = pool.HasField := by
      intro k
      unfold modifyOpen
      split
      · exact ⟨Pool.hasBlock_modifyBlock .., rfl⟩
      · exact ⟨rfl, rfl⟩
    exact .of_touches htouches hw (hblocks _).1 (hblocks _).2 rfl rfl

end Cursor

end ProtoSchema

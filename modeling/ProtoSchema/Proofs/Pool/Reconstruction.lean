import ProtoSchema.Proofs.Pool.Restatements

/-! # What a file builds

The statements of a message or extend block build it: its header opens an empty block, its body builds
what is declared in it, and behind its end the block is complete (`Built.closed`).  For messages this is an
induction over what is nested in them.  So the statements of a complete file build all that it declares
(`Builds.declarations`). -/

namespace ProtoSchema

open Located (unplaced)
open Event (Rereads)

/-! ### Blocks -/

namespace Cursor

variable {c c₁ c₂ c' : Cursor} {pool pool₁ pool₂ other : Pool} {v : Edition} {k : Option BlockKind}
  {D : ScopeOutline}

/-- A block of which nothing is read but the header. -/
def emptyBlock (c : Cursor) (heading : Heading) (span : Span) : Block :=
  { heading, span, file := c.file, parent := c.scope }

/-- A new block is an empty site for what is declared in it. -/
theorem Site.inside (h : Site v k c pool) {H : Heading} {span : Span}
    {m : Members → Members} (hadded : Pool.BlockAdded pool pool₁ (c.emptyBlock H span) m)
    (hw : pool₁.WellFormed) :
    Site v (some (c.emptyBlock H span).kind) (c.inside ⟨pool.blocks.size⟩) pool₁ ∧
      pool₁.declared .asWritten (.block ⟨pool.blocks.size⟩) = {} := by
  have hg := Pool.Grows.of_blockAdded hadded
  have hmembers : pool₁.members (.block ⟨pool.blocks.size⟩) = {} :=
    congrArg Block.members hadded.block_new
  have hcontents : pool₁.contents (.block ⟨pool.blocks.size⟩) = {} := by
    simp only [Pool.contents, Pool.attributes, hmembers, hadded.block_new, emptyBlock]
    rfl
  refine ⟨⟨hw, (hg.file _ h.hasFile).1, (hadded.blocks _).mpr (.inr rfl), ?_, h.noEnum, ?_, ?_⟩, ?_⟩
  · exact congrArg Block.file hadded.block_new
  · obtain ⟨-, members, options, he⟩ := hg.file _ h.hasFile
    show (pool₁.file c.file).editionOrOldest = v
    rw [he]
    exact h.edition
  · exact congrArg (fun b => some (Block.kind b)) hadded.block_new
  · rw [Pool.declared, hcontents]
    rfl

/-- Behind the end of a new block the cursor is where it was, and nothing else has changed. -/
theorem Built.closed {heading : Heading} {span : Span} {m : Members → Members}
    (hscope : pool.InRange c.scope)
    (hadded : Pool.BlockAdded pool pool₁ (c.emptyBlock heading span) m)
    (h : Built (c.inside ⟨pool.blocks.size⟩) pool₁ D c₂ pool₂) :
    ∃ c', Run c₂ pool₂ [.close] c' pool₂ ∧ c'.file = c.file ∧ c'.scope = c.scope ∧
      c'.openEnum = none ∧ Pool.Grows c.scope pool pool₂ ∧
      pool₂.contents c.scope = pool₁.contents c.scope ∧
      (pool₂.block ⟨pool.blocks.size⟩).heading = heading := by
  have hg := Pool.Grows.of_blockAdded hadded
  have hthere : pool₁.HasBlock ⟨pool.blocks.size⟩ := (hadded.blocks _).mpr (.inr rfl)
  obtain ⟨-, hheading, -, hparent⟩ := h.grows.block _ hthere
  rw [hadded.block_new] at hheading hparent
  have happly : c₂.apply pool₂ .close = .ok ({ c₂ with scope := c.scope }, pool₂, none) := by
    simp only [apply, h.noEnum, h.scope, inside, Pool.parent?, hparent, emptyBlock, Option.getD_some]
  refine ⟨_, .single (by simp) happly, h.file, rfl, h.noEnum, ?_, ?_, hheading⟩
  · exact hg.trans_of h.grows (.inr Pool.not_hasBlock_size)
  · refine h.grows.contents _ (hg.inRange hscope) fun he => ?_
    rw [he] at hscope
    exact Pool.not_hasBlock_size hscope

theorem contents_addMessage {B : Block} {n : String} (h : Pool.BlockAdded pool other B fun m =>
    { m with messages := m.messages.insert n ⟨pool.blocks.size⟩ }) (hs : pool.InRange B.parent)
    (hfree : (pool.members B.parent).messages.find? n = none) :
    other.contents B.parent = pool.contents B.parent ++ { messages := [⟨pool.blocks.size⟩] } := by
  simp only [Pool.contents, h.attributes hs, h.members, if_true, Table.values,
    Table.entries_insert hfree, List.map_append, List.map_cons, List.map_nil, Declarations.append_def,
    List.append_nil]

theorem contents_addExtend {B : Block} (h : Pool.BlockAdded pool other B fun m =>
    { m with extendBlocks := m.extendBlocks ++ [⟨pool.blocks.size⟩] }) (hs : pool.InRange B.parent) :
    other.contents B.parent = pool.contents B.parent ++ { extendBlocks := [⟨pool.blocks.size⟩] } := by
  simp only [Pool.contents, h.attributes hs, h.members, if_true, Declarations.append_def,
    List.append_nil]

namespace Builds

variable {body : List Event}

/-- A header, statements that build what is declared in the block, and its end.  Behind it the scope
around the block holds it, and shows `D` if the block shows `B`. -/
theorem around {H : Heading} {span : Span} {m : Members → Members} {B : ScopeOutline} {x : Event}
    {es : List Event} {L : Declarations EnumId BlockId FieldId BlockId}
    (h : Builds v (some (c.emptyBlock H span).kind) body B) (hs : Site v k c pool)
    (hnames : B.names.Nodup) (hnumbers : B.numbers.Nodup)
    (hadded : Pool.BlockAdded pool pool₁ (c.emptyBlock H span) m) (hw : pool₁.WellFormed)
    (hnoImport : ∀ kind target, x ≠ .importFile kind target)
    (happly : c.apply pool x = .ok (c.inside ⟨pool.blocks.size⟩, pool₁, none))
    (hes : Rereads es (body ++ [.close])) (hL : pool₁.contents c.scope = pool.contents c.scope ++ L)
    (hD : ∀ p : Pool, p.WellFormed → (p.block ⟨pool.blocks.size⟩).heading = H →
      p.declared .asWritten (.block ⟨pool.blocks.size⟩) = B → p.outlineOf .asWritten L = D) :
    ∃ c' other, Run c pool (x :: es) c' other ∧ Built c pool D c' other := by
  obtain ⟨inner, closing, rfl, hinner, hclosing⟩ := hes.append
  obtain ⟨y, rfl, hy⟩ := hclosing.single
  obtain rfl : y = .close := by
    cases y <;> cases hy
    rfl
  have hscope : (c.inside ⟨pool.blocks.size⟩).scope = .block ⟨pool.blocks.size⟩ := rfl
  obtain ⟨hsite, hempty⟩ := hs.inside hadded hw
  have hfresh : Fresh B (c.inside ⟨pool.blocks.size⟩) pool₁ := by
    constructor <;> rw [hscope, hempty]
    · exact hnames
    · exact hnumbers
  obtain ⟨c₂, pool₂, hrun, hb⟩ := h _ pool₁ inner hinner hsite hfresh
  obtain ⟨c', hclose, hfile, hsame, hopen, hgrows, hcontents, hheading⟩ := hb.closed hs.scope hadded
  have hdeclared := hb.declared
  rw [hscope, hempty] at hdeclared
  exact ⟨c', pool₂, .cons hnoImport happly (hrun.append hclose),
    built_of_contents hs.tree hb.tree hgrows (hcontents.trans hL)
      (hD pool₂ hb.tree hheading hdeclared) hfile hsame hopen⟩

/-- A message around statements that build what is declared in it. -/
theorem message (hk : k ≠ some .extend) {name : String} (h : Builds v (some .message) body D)
    (hnames : D.names.Nodup) (hnumbers : D.numbers.Nodup) :
    Builds v k (.openMessage (unplaced name) :: (body ++ [.close])) { messages := [.mk name D] } := by
  intro c pool es hes hs hf
  obtain ⟨x, es', rfl, hx, hrest⟩ := hes.cons
  obtain ⟨name', rfl, rfl⟩ : ∃ name', x = .openMessage name' ∧ name'.value = name := by
    cases x with
    | openMessage name' => exact ⟨name', rfl, congrArg Located.value (Event.openMessage.inj hx)⟩
    | _ => cases hx
  have hscope := hs.hasScope hk
  have hfree := hf.placeOf? hs.tree (List.mem_singleton_self _)
  obtain ⟨pool₁, hadd⟩ := Pool.addMessage_of_free c.file hfree
  have hadded := Pool.blockAdded_addMessage hadd hscope
  have hw := hs.tree.addMessage hadd hscope hs.file
  refine around (H := .message (pool.scopeName c.scope ++ [name'.value])) h hs hnames hnumbers hadded hw
    (by simp) (congrArg (Except.map _) hadd) hrest
    (contents_addMessage hadded hs.scope (Pool.placeOf?_eq_none_iff.mp hfree).1) ?_
  intro p hp hheading hdeclared
  have hblock : (p.block ⟨pool.blocks.size⟩).name = name'.value := by
    rw [Block.name, Block.fullName, hheading]
    simp
  simp only [Pool.outlineOf, Pool.outlineAround, List.map_cons, List.map_nil, hp.messageOutline_eq,
    hblock, hdeclared]

/-- An extend block around statements that build its fields. -/
theorem extendBlock (hk : k ≠ some .extend) {type : TypeName} {fields : List FieldDecl}
    (h : Builds v (some .extend) body { fields }) (hnames : (fields.map fun f => f.name.value).Nodup)
    (hnumbers : (fields.map fun f => f.number.value).Nodup) :
    Builds v k (.openExtend (unplaced type) :: (body ++ [.close])) { extendBlocks := [⟨type, fields⟩] } := by
  intro c pool es hes hs hf
  obtain ⟨x, es', rfl, hx, hrest⟩ := hes.cons
  obtain ⟨type', rfl, rfl⟩ : ∃ type', x = .openExtend type' ∧ type'.value = type := by
    cases x with
    | openExtend type' => exact ⟨type', rfl, congrArg Located.value (Event.openExtend.inj hx)⟩
    | _ => cases hx
  have hscope := hs.hasScope hk
  obtain ⟨pool₁, target, happly, hadded, hw⟩ : ∃ pool₁ target,
      c.apply pool (.openExtend type') = .ok (c.inside ⟨pool.blocks.size⟩, pool₁, none) ∧
      Pool.BlockAdded pool pool₁ (c.emptyBlock (.extend type'.value target) type'.span)
        (fun m => { m with extendBlocks := m.extendBlocks ++ [⟨pool.blocks.size⟩] }) ∧
      pool₁.WellFormed :=
    ⟨_, _, rfl, Pool.blockAdded_addExtend c.file type' _ hscope,
      hs.tree.addExtend type' _ hscope hs.file⟩
  refine around (B := { fields }) h hs hnames hnumbers hadded hw (by simp) happly hrest
    (contents_addExtend hadded hs.scope) ?_
  intro p _ hheading hdeclared
  have hfields : (p.block ⟨pool.blocks.size⟩).fields.values.map (p.fieldOutline .asWritten) = fields :=
    congrArg Declarations.fields hdeclared
  have hextendee : View.asWritten.extendee (p.block ⟨pool.blocks.size⟩) = type'.value := by
    rw [View.extendee, hheading]
    rfl
  simp only [Pool.outlineOf, Pool.outlineAround, List.map_cons, List.map_nil, Pool.extendOutline,
    hextendee, hfields]

/-! ### The declarations of a file -/

variable {source : Pool} {f : FileId}

theorem fieldsStatements {kind : BlockKind} (b : BlockId)
    (hv : ∀ d ∈ (source.block b).fields.values,
      (source.field d).form = .plain (some .required) → v ≠ .proto3) :
    Builds v (some kind) (source.fieldsStatements b)
      { fields := (source.block b).fields.values.map (source.fieldOutline (.asPrinted source)) } :=
  flatMap (fun ds => { fields := ds.map (source.fieldOutline (.asPrinted source)) }) rfl (fun _ _ => rfl)
    fun d hd => fieldStatements source d (hv d hd)

variable (hw : source.Writable f)

include hw

/-- The statements of the enums in a scope. -/
theorem enumsStatements (hk : k ≠ some .extend) {s : Scope} (hs : source.scopeFile s = f) :
    Builds v k ((source.members s).enums.values.flatMap source.enumStatements)
      { enums := (source.members s).enums.values.map (source.enumOutline (.asPrinted source)) } := by
  refine flatMap (D := fun e => { enums := [source.enumOutline (.asPrinted source) e] })
    (fun es => { enums := es.map (source.enumOutline (.asPrinted source)) }) rfl (fun _ _ => rfl)
    fun e he => ?_
  obtain ⟨hthere, hparent⟩ := hw.tree.mem_enums_iff.mp he
  refine enumStatements hk source e (hw.legible.enum e hthere).names (hw.filled e ⟨hthere, ?_⟩)
  rw [← (hw.tree.enum_scope e hthere).2, hparent, hs]

variable (hv : ∀ d, source.FieldOf f d → (source.field d).form = .plain (some .required) → v ≠ .proto3)

include hv

/-- The statements of the extend block `b` of the file. -/
theorem extendStatements (hk : k ≠ some .extend) {b : BlockId} (hb : source.BlockOf f b)
    (hx : (source.block b).isExtend = true) : Builds v k (source.extendStatements b)
      { extendBlocks := [source.extendOutline (.asPrinted source) b] } := by
  unfold Pool.extendStatements
  split
  · next hheading => simp [Block.isExtend, hheading] at hx
  · next type target hheading =>
    have hextendee : (View.asPrinted source).extendee (source.block b) = source.boundName type target := by
      rw [View.extendee, hheading]
      rfl
    rw [Pool.extendOutline, hextendee]
    have hnames := hw.tree.nodup_names (V := .asPrinted source) (.block b)
    refine extendBlock hk (fieldsStatements b fun d hd => ?_) ?_ ?_
    · exact hv d (hw.tree.fieldOf_of_mem hb hd).1
    · exact (List.nodup_append.mp hnames).2.1
    · exact hw.tree.nodup_numbers (V := .asPrinted source) (.block b)

/-- The statements of the extend blocks in a scope. -/
theorem extendBlocksStatements (hk : k ≠ some .extend) {s : Scope} (hs : source.scopeFile s = f) :
    Builds v k ((source.members s).extendBlocks.flatMap source.extendStatements)
      { extendBlocks :=
          (source.members s).extendBlocks.map (source.extendOutline (.asPrinted source)) } := by
  refine flatMap (D := fun b => { extendBlocks := [source.extendOutline (.asPrinted source) b] })
    (fun bs => { extendBlocks := bs.map (source.extendOutline (.asPrinted source)) }) rfl
    (fun _ _ => rfl) fun b hb => ?_
  obtain ⟨hthere, hparent, hx⟩ := (hw.tree.extend_iff s b).mp hb
  exact extendStatements hw hv hk ⟨hthere, (hw.tree.file_of_parent hthere hparent).trans hs⟩ hx

/-- The statements of the message `b` of the file. -/
theorem messageStatements (b : BlockId) : ∀ {k : Option BlockKind}, k ≠ some .extend →
    source.BlockOf f b → (source.block b).isExtend = false → Builds v k (source.messageStatements b)
      { messages := [source.messageOutline (.asPrinted source) b] } := by
  induction b using hw.tree.message_induction with
  | step b ih =>
    intro k hk hb hx
    have hinner : some BlockKind.message ≠ some .extend := by simp
    have hnested : Builds v (some .message)
        ((source.block b).members.messages.values.flatMap source.messageStatements)
        { messages := (source.block b).members.messages.values.map
            (source.messageOutline (.asPrinted source)) } := by
      refine flatMap (fun bs => { messages := bs.map (source.messageOutline (.asPrinted source)) }) rfl
        (fun _ _ => rfl) fun a ha => ih a ha hinner ?_ ?_
      · exact hw.tree.blockOf_of_mem_messages (s := .block b) hb.2 ha
      · exact ((hw.tree.mem_messages_iff (s := .block b)).mp ha).2.1
    have hfields : Builds v (some .message) (source.fieldsStatements b)
        { fields := (source.block b).fields.values.map (source.fieldOutline (.asPrinted source)) } :=
      fieldsStatements b fun d hd => hv d (hw.tree.fieldOf_of_mem hb hd).1
    have hall := (((((options (v := v) (source.block b).options).append (ranges (source.block b))).append
      (enumsStatements hw hinner (s := .block b) hb.2)).append hnested).append hfields).append
      (extendBlocksStatements hw hv hinner (s := .block b) hb.2)
    simp only [Declarations.append_def, List.append_nil, List.nil_append] at hall
    rw [hw.tree.messageStatements_eq, hw.tree.messageOutline_eq, Pool.messageAround, ← List.flatMap_def]
    exact message hk hall (hw.tree.nodup_names _) (hw.tree.nodup_numbers _)

/-- The statements behind the imports of a file build all that it declares. -/
theorem declarations : Builds v none
    ((source.file f).options.map .option ++
      (source.file f).members.enums.values.flatMap source.enumStatements ++
      (source.file f).members.messages.values.flatMap source.messageStatements ++
      (source.file f).members.extendBlocks.flatMap source.extendStatements)
    (source.declared (.asPrinted source) (.file f)) := by
  have hk : none ≠ some BlockKind.extend := by simp
  have hmessages : Builds v none
      ((source.file f).members.messages.values.flatMap source.messageStatements)
      { messages := (source.file f).members.messages.values.map
          (source.messageOutline (.asPrinted source)) } := by
    refine flatMap (fun bs => { messages := bs.map (source.messageOutline (.asPrinted source)) }) rfl
      (fun _ _ => rfl) fun a ha => messageStatements hw hv a hk ?_ ?_
    · exact hw.tree.blockOf_of_mem_messages (s := .file f) rfl ha
    · exact ((hw.tree.mem_messages_iff (s := .file f)).mp ha).2.1
  have hall := (((options (v := v) (source.file f).options).append
    (enumsStatements hw hk (s := .file f) rfl)).append hmessages).append
    (extendBlocksStatements hw hv hk (s := .file f) rfl)
  simp only [Declarations.append_def, List.append_nil, List.nil_append] at hall
  exact hall

end Builds

end Cursor

end ProtoSchema

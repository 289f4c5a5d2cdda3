import ProtoSchema.Proofs.Event.Progress
import ProtoSchema.Proofs.Event.Reading

/-! # Events in their blocks

The events of a text open and close blocks like brackets, and each stands where it may stand
(`nested_ofText`): messages, enums and extend blocks in the file or in a message, fields in a message
or extend block, values in an enum, statements about versions, packages and imports in the file.
A declaration and a reference to a type begin where a token begins, so they follow each other in
the text as their events do (`anchors_ofText`). -/

namespace ProtoSchema

/-- The open blocks, innermost first; there are none in the file itself. -/
abbrev OpenBlocks := List BlockKind

/-- May a message, an enum or an extend block be opened? -/
def OpenBlocks.TakesTypes (ks : OpenBlocks) : Prop := ∀ k, ks.head? = some k → k = .message

namespace Event

/-- Where an event may stand, and which blocks are open behind it. -/
inductive Nests : Event → OpenBlocks → OpenBlocks → Prop
  | edition {e} : Nests (.edition e) [] []
  | package {name} : Nests (.package name) [] []
  | importFile {kind target} : Nests (.importFile kind target) [] []
  | option {o ks} (h : ks.head? ≠ some .extend) : Nests (.option o) ks ks
  | openMessage {name ks} (h : ks.TakesTypes) : Nests (.openMessage name) ks (.message :: ks)
  | openExtend {type ks} (h : ks.TakesTypes) : Nests (.openExtend type) ks (.extend :: ks)
  | openEnum {name ks} (h : ks.TakesTypes) : Nests (.openEnum name) ks (.enum :: ks)
  | required {span k ks} (h : k ≠ .enum) : Nests (.required span) (k :: ks) (k :: ks)
  /-- Maps stand in messages only. -/
  | field {f k ks} (h : k ≠ .enum) (map : k = .extend → ∀ key, f.form ≠ .map key) :
      Nests (.field f) (k :: ks) (k :: ks)
  | value {v ks} : Nests (.value v) (.enum :: ks) (.enum :: ks)
  | reservedRanges {rs ks} : Nests (.reservedRanges rs) (.message :: ks) (.message :: ks)
  | reservedNames {names ks} : Nests (.reservedNames names) (.message :: ks) (.message :: ks)
  | extensionRanges {rs ks} : Nests (.extensionRanges rs) (.message :: ks) (.message :: ks)
  | close {k ks} : Nests .close (k :: ks) ks

/-- Events that each stand where they may stand, with the blocks open before and behind them. -/
inductive Nested : OpenBlocks → List Event → OpenBlocks → Prop
  | nil {ks} : Nested ks [] ks
  | cons {e es ks ks' ks''} (head : Nests e ks ks') (tail : Nested ks' es ks'') :
      Nested ks (e :: es) ks''

/-- The offset of the declaration or reference that an event is, if it is one. -/
def anchor? : Event → Option Nat
  | openMessage name | openEnum name => some name.span.start
  | openExtend type => some type.span.start
  | field f => some f.type.span.start
  | _ => none

end Event

/-! ### Frames -/

namespace Frames

/-- The blocks that are open inside some frames. -/
def blocks (fs : Frames) : OpenBlocks :=
  fs.filterMap fun f =>
    match f with
    | .header b | .body b => some b
    | .required => none

/-- Blocks are opened in files and messages, and a label stands in a message or extend block. -/
def Valid : Frames → Prop
  | [] => True
  | .header _ :: fs | .body _ :: fs => OpenBlocks.TakesTypes (blocks fs) ∧ Valid fs
  | .required :: fs => (∃ b outer, fs = .body b :: outer ∧ b ≠ .enum) ∧ Valid fs

end Frames

namespace Event

open Reader

variable {fs fs' : Frames} {t : Token}

/-- What a step yields inside the frames `fs`, when it takes `used` behind the token `t`. -/
structure Follows (fs : Frames) (t : Token) (used : List Token) (result : Option Event × Frames) :
    Prop where
  frames : fs.Valid → result.2.Valid
  silent : fs.Valid → result.1 = none → result.2.blocks = fs.blocks
  nests : fs.Valid → ∀ e, result.1 = some e → Nests e fs.blocks result.2.blocks
  anchor : ∀ e a, result.1 = some e → e.anchor? = some a → ∃ u ∈ t :: used, a = u.span.start

/-- An event that leaves the frames as they are. -/
theorem follows_of_nests {used : List Token} {e : Event}
    (hn : fs.Valid → Nests e fs.blocks fs.blocks)
    (ha : ∀ a, e.anchor? = some a → ∃ u ∈ t :: used, a = u.span.start) :
    Follows fs t used (some e, fs) where
  frames h := h
  silent _ h := by cases h
  nests hv e' he := by
    cases he
    exact hn hv
  anchor e' a he h := by
    cases he
    exact ha a h

theorem follows_none {used : List Token} : Follows fs t used (none, fs) where
  frames h := h
  silent _ _ := rfl
  nests _ e he := by cases he
  anchor e a he := by cases he

/-- The header of a block. -/
theorem follows_header {used : List Token} {k : BlockKind} {e : Event}
    (hfs : fs.Valid → fs.blocks.TakesTypes) (hn : fs.Valid → Nests e fs.blocks (k :: fs.blocks))
    (ha : ∀ a, e.anchor? = some a → ∃ u ∈ t :: used, a = u.span.start) :
    Follows fs t used (some e, .header k :: fs) where
  frames h := ⟨hfs h, h⟩
  silent _ h := by cases h
  nests hv e' he := by
    cases he
    exact hn hv
  anchor e' a he h := by
    cases he
    exact ha a h

theorem yields_headerFrom (k : BlockKind) (hfs : fs.Valid → fs.blocks.TakesTypes) :
    Yields (headerFrom fs k) (Follows fs t) := by
  cases k with
  | message =>
    refine yields_bind (yields_ident _) fun used name h => yields_pure ?_
    obtain ⟨u, rfl, rfl⟩ := h
    refine follows_header hfs (fun hv => .openMessage (hfs hv)) fun a ha => ⟨u, by simp, ?_⟩
    cases ha
    rfl
  | extend =>
    refine yields_bind (yields_typeName _) fun used type h => yields_pure ?_
    obtain ⟨u, hu, hstart⟩ := h
    refine follows_header hfs (fun hv => .openExtend (hfs hv)) fun a ha => ⟨u, by simp [hu], ?_⟩
    cases ha
    exact hstart
  | enum =>
    refine yields_bind (yields_ident _) fun used name h => yields_pure ?_
    obtain ⟨u, rfl, rfl⟩ := h
    refine follows_header hfs (fun hv => .openEnum (hfs hv)) fun a ha => ⟨u, by simp, ?_⟩
    cases ha
    rfl

/-- A step that reads an event without an anchor and leaves the frames as they are. -/
theorem yields_emit {p : Reader Event} (hp : Yields p fun _ e => e.anchor? = none ∧
    (fs.Valid → Nests e fs.blocks fs.blocks)) : Yields (do emit fs (← p)) (Follows fs t) := by
  refine yields_bind hp fun used e he => yields_pure ?_
  refine follows_of_nests he.2 fun a ha => ?_
  rw [he.1] at ha
  cases ha

/-! ### Statements -/

theorem yields_statement : Yields (statement t) (Follows [] t) := by
  have hfs : Frames.Valid [] → (Frames.blocks []).TakesTypes := by
    intro _ k hk
    cases hk
  unfold statement
  split
  · refine yields_emit (yields_skip fun _ _ => yields_skip fun _ name => yields_skip fun _ _ => ?_)
    split
    · exact yields_pure ⟨rfl, fun _ => .edition⟩
    · exact yields_fail
  · exact yields_emit (yields_skip fun _ _ => yields_skip fun _ _ =>
      yields_pure ⟨rfl, fun _ => .package⟩)
  · exact yields_emit (yields_skip fun _ _ => yields_skip fun _ _ => yields_skip fun _ _ =>
      yields_pure ⟨rfl, fun _ => .importFile⟩)
  · exact yields_emit (yields_skip fun _ _ => yields_skip fun _ _ =>
      yields_pure ⟨rfl, fun _ => .option (by simp [Frames.blocks])⟩)
  · exact yields_headerFrom .message hfs
  · exact yields_headerFrom .enum hfs
  · exact yields_headerFrom .extend hfs
  · exact yields_pure follows_none
  · exact yields_fail

theorem blocks_body (k : BlockKind) (outer : Frames) :
    Frames.blocks (.body k :: outer) = k :: outer.blocks := rfl

theorem yields_fieldFrom (c : Construct) (form : FieldForm) (type : Located WrittenType) :
    Yields (fieldFrom c form type) fun _ e => ∃ f, e = field f ∧ f.form = form ∧ f.type = type :=
  yields_skip fun _ _ => yields_skip fun _ _ => yields_skip fun _ _ => yields_skip fun _ _ =>
    yields_skip fun _ _ => yields_pure ⟨_, rfl, rfl, rfl⟩

/-- A field whose type begins with one of the tokens of the field. -/
theorem follows_field {used : List Token} {f : FieldDecl} {k : BlockKind} {outer : Frames}
    (hk : k ≠ .enum) (hmap : k = .extend → ∀ key, f.form ≠ .map key)
    (ht : ∃ u ∈ t :: used, f.type.span.start = u.span.start) :
    Follows (.body k :: outer) t used (some (field f), .body k :: outer) := by
  refine follows_of_nests (fun _ => ?_) fun a ha => ?_
  · rw [blocks_body]
    exact .field hk hmap
  · cases ha
    exact ht

theorem yields_mapFrom : Yields mapFrom fun used e =>
    ∃ f, e = field f ∧ ∃ u ∈ used, f.type.span.start = u.span.start := by
  refine yields_skip fun _ _ => yields_skip fun _ _ => yields_skip fun _ _ => ?_
  refine yields_bind (yields_fieldType _) fun used type ht => yields_skip fun _ _ => ?_
  refine (yields_fieldFrom _ _ type).mono fun _ e he => ?_
  obtain ⟨f, rfl, -, rfl⟩ := he
  obtain ⟨u, hu, h⟩ := ht
  exact ⟨f, rfl, u, by simp [hu], h⟩

theorem yields_closeFrom (k : BlockKind) (outer : Frames) :
    Yields (closeFrom outer) (Follows (.body k :: outer) t) := by
  refine yields_skip fun _ _ => yields_pure ⟨fun h => h.2, fun _ h => (by cases h), ?_, ?_⟩
  · intro _ e he
    cases he
    exact .close
  · intro e a he ha
    cases he
    cases ha

theorem yields_fieldStarting {k : BlockKind} {outer : Frames} (hk : k ≠ .enum) {step : Step}
    (h : fieldStarting (.body k :: outer) t = some step) :
    Yields step (Follows (.body k :: outer) t) := by
  unfold fieldStarting at h
  split at h
  · cases h
    refine yields_pure ⟨fun hv => ⟨⟨k, outer, rfl, hk⟩, hv⟩, fun _ h => (by cases h), ?_, ?_⟩
    · intro _ e he
      cases he
      exact .required hk
    · intro e a he ha
      cases he
      cases ha
  · cases h
    refine yields_bind (yields_fieldType _) fun used type ht => ?_
    refine yields_bind (yields_fieldFrom _ _ type) fun used' e he => yields_pure ?_
    obtain ⟨f, rfl, hform, rfl⟩ := he
    obtain ⟨u, hu, hstart⟩ := ht
    exact follows_field hk (fun _ key => by simp [hform]) ⟨u, by simp [hu], hstart⟩
  · obtain ⟨start, hs, rfl⟩ := Option.map_eq_some_iff.mp h
    refine yields_bind (yields_fieldTypeFrom _ start) fun used type ht => ?_
    refine yields_bind (yields_fieldFrom _ _ type) fun used' e he => yields_pure ?_
    obtain ⟨f, rfl, hform, rfl⟩ := he
    rw [offset_fieldTypeStart hs] at ht
    exact follows_field hk (fun _ key => by simp [hform]) ⟨t, by simp, ht⟩

theorem yields_getD_fieldStarting {k : BlockKind} {outer : Frames} (hk : k ≠ .enum)
    (c : Construct) (expected : String) :
    Yields ((fieldStarting (.body k :: outer) t).getD (refused c expected t))
      (Follows (.body k :: outer) t) := by
  cases h : fieldStarting (.body k :: outer) t with
  | none => exact yields_fail
  | some step => exact yields_fieldStarting hk h

theorem yields_rangeStatement {p : Reader Event} {ks : OpenBlocks}
    (hp : Yields p fun _ e => (∃ rs, e = reservedRanges rs) ∨ (∃ names, e = reservedNames names) ∨
      ∃ rs, e = extensionRanges rs) :
    Yields p fun _ e => e.anchor? = none ∧ Nests e (.message :: ks) (.message :: ks) := by
  refine hp.mono fun _ e he => ?_
  rcases he with ⟨rs, rfl⟩ | ⟨names, rfl⟩ | ⟨rs, rfl⟩
  · exact ⟨rfl, .reservedRanges⟩
  · exact ⟨rfl, .reservedNames⟩
  · exact ⟨rfl, .extensionRanges⟩

theorem yields_reservedFrom : Yields reservedFrom fun _ e => (∃ rs, e = reservedRanges rs) ∨
    (∃ names, e = reservedNames names) ∨ ∃ rs, e = extensionRanges rs := by
  refine yields_skip fun _ start => ?_
  cases start with
  | name first =>
    exact yields_skip fun _ _ => yields_skip fun _ _ => yields_pure (.inr (.inl ⟨_, rfl⟩))
  | number n => exact yields_skip fun _ _ => yields_skip fun _ _ => yields_pure (.inl ⟨_, rfl⟩)

theorem yields_extensionsFrom : Yields extensionsFrom fun _ e => (∃ rs, e = reservedRanges rs) ∨
    (∃ names, e = reservedNames names) ∨ ∃ rs, e = extensionRanges rs :=
  yields_skip fun _ _ => yields_skip fun _ _ => yields_skip fun _ _ => yields_skip fun _ _ =>
    yields_pure (.inr (.inr ⟨_, rfl⟩))

theorem yields_optionFrom (c : Construct) {ks : OpenBlocks} (h : ks.head? ≠ some .extend) :
    Yields (optionFrom c) fun _ e => e.anchor? = none ∧ Nests e ks ks :=
  yields_skip fun _ _ => yields_skip fun _ _ => yields_pure ⟨rfl, .option h⟩

/-- A step inside a body that reads an event without an anchor. -/
theorem yields_emit_body {p : Reader Event} {k : BlockKind} {outer : Frames}
    (hp : Yields p fun _ e => e.anchor? = none ∧ Nests e (k :: outer.blocks) (k :: outer.blocks)) :
    Yields (do emit (.body k :: outer) (← p)) (Follows (.body k :: outer) t) :=
  yields_emit (hp.mono fun _ _ he => ⟨he.1, fun _ => he.2⟩)

theorem yields_messageItem (outer : Frames) :
    Yields (messageItem outer t) (Follows (.body .message :: outer) t) := by
  have hfs : Frames.Valid (.body .message :: outer) →
      (Frames.blocks (.body .message :: outer)).TakesTypes := by
    intro _ k hk
    rw [blocks_body] at hk
    cases hk
    rfl
  unfold messageItem
  split
  · exact yields_closeFrom .message outer
  · exact yields_pure follows_none
  · exact yields_headerFrom .message hfs
  · exact yields_headerFrom .enum hfs
  · exact yields_headerFrom .extend hfs
  · exact yields_emit_body (yields_rangeStatement yields_reservedFrom)
  · exact yields_emit_body (yields_rangeStatement yields_extensionsFrom)
  · exact yields_emit_body (yields_optionFrom _ (by simp))
  · refine yields_bind yields_mapFrom fun used e he => yields_pure ?_
    obtain ⟨f, rfl, u, hu, hstart⟩ := he
    exact follows_field (by simp) (fun h => (by cases h)) ⟨u, by simp [hu], hstart⟩
  · exact yields_getD_fieldStarting (by simp) _ _

theorem yields_extendItem (outer : Frames) :
    Yields (extendItem outer t) (Follows (.body .extend :: outer) t) := by
  unfold extendItem
  split
  · exact yields_closeFrom .extend outer
  · exact yields_pure follows_none
  all_goals first | exact yields_fail | exact yields_getD_fieldStarting (by simp) _ _

theorem yields_requiredField (fs : Frames) :
    Yields (requiredField fs t) (Follows (.required :: fs) t) := by
  unfold requiredField
  split
  · next start hs =>
    refine yields_bind (yields_fieldTypeFrom _ start) fun used type ht => ?_
    refine yields_bind (yields_fieldFrom _ _ type) fun used' e he => yields_pure ?_
    obtain ⟨f, rfl, hform, rfl⟩ := he
    rw [offset_fieldTypeStart hs] at ht
    refine ⟨fun hv => hv.2, fun _ h => (by cases h), ?_, ?_⟩
    · rintro ⟨⟨k, outer, rfl, hk⟩, -⟩ e he
      cases he
      exact .field hk fun _ key => by simp [hform]
    · intro e a he ha
      cases he
      cases ha
      exact ⟨t, by simp, ht⟩
  · exact yields_fail

theorem yields_valueFrom (name : Located String) {ks : OpenBlocks} :
    Yields (valueFrom name) fun _ e => e.anchor? = none ∧ Nests e (.enum :: ks) (.enum :: ks) := by
  refine yields_skip fun _ _ => yields_skip fun _ negative => yields_skip fun _ magnitude => ?_
  exact yields_ite (yields_skip fun _ _ => yields_skip fun _ _ => yields_pure ⟨rfl, .value⟩)
    yields_fail

theorem yields_enumItem (outer : Frames) :
    Yields (enumItem outer t) (Follows (.body .enum :: outer) t) := by
  unfold enumItem
  split
  · exact yields_closeFrom .enum outer
  · exact yields_pure follows_none
  · exact yields_emit_body (yields_optionFrom _ (by simp))
  · split
    · exact yields_emit_body (yields_valueFrom _)
    · exact yields_fail
    · exact yields_fail

theorem yields_next (fs : Frames) : Yields (next fs t) (Follows fs t) := by
  unfold next
  split
  · exact yields_statement
  · next k outer =>
    split
    · exact yields_pure ⟨fun h => h, fun _ _ => rfl, fun _ e he => (by cases he),
        fun e a he => (by cases he)⟩
    · exact yields_fail
  · exact yields_messageItem _
  · exact yields_extendItem _
  · exact yields_enumItem _
  · exact yields_requiredField _

/-! ### All events -/

theorem endFault_eq_none {e : Ending} (h : endFault e fs = none) : fs = [] := by
  cases fs with
  | nil => rfl
  | cons f fs => cases h

/-- The events of some tokens are nested, and all blocks are closed if there is no fault. -/
theorem nested_ofTokens (e : Ending) (ts : List Token) : ∀ fs : Frames, fs.Valid →
    ∃ ks, Nested fs.blocks (ofTokens e fs ts).1 ks ∧ ((ofTokens e fs ts).2 = none → ks = []) := by
  induction h : ts.length using Nat.strongRecOn generalizing ts with
  | _ n ih =>
    intro fs hv
    unfold ofTokens
    split
    · refine ⟨fs.blocks, .nil, fun hf => ?_⟩
      rw [endFault_eq_none hf]
      rfl
    · next t rest =>
      split
      · exact ⟨fs.blocks, .nil, fun hf => (by cases hf)⟩
      · next event? fs' rest' hr =>
        obtain ⟨used, rfl, hf⟩ := yields_next fs e rest _ rest' hr
        obtain ⟨ks, hks, hend⟩ := ih rest'.length (by simp at h; omega) rest' rfl fs' (hf.frames hv)
        refine ⟨ks, ?_, hend⟩
        cases event? with
        | none =>
          rw [← hf.silent hv rfl]
          exact hks
        | some ev => exact .cons (hf.nests hv ev rfl) hks

/-- The events of a text are nested, and all blocks are closed if there is no fault. -/
theorem nested_ofText (source : String) : ∃ ks, Nested [] (ofText source).1 ks ∧
    ((ofText source).2 = none → ks = []) :=
  nested_ofTokens _ _ [] trivial

/-! ### The order of declarations in the text -/

/-- One token begins in front of another. -/
def Precedes (t u : Token) : Prop := t.span.start < u.span.start

/-- Events have places.  If every step gives its event the place of a token that it takes, then the
events of some tokens go up in place. -/
theorem places_ofTokens {place? : Event → Option Nat} (hplace : ∀ fs t, Yields (next fs t)
      fun used r => fs.Valid → r.2.Valid ∧ ∀ e a, r.1 = some e → place? e = some a →
        ∃ u ∈ t :: used, a = u.span.start)
    (e : Ending) (ts : List Token) (fs : Frames) (hv : fs.Valid) (hts : ts.Pairwise Precedes) :
    ((ofTokens e fs ts).1.filterMap place?).Pairwise (· < ·) ∧
      ∀ a ∈ (ofTokens e fs ts).1.filterMap place?, ∃ t ∈ ts, a = t.span.start := by
  obtain ⟨us, h⟩ := exists_takes e fs ts
  generalize ofTokens e fs ts = read at h
  induction h with
  | stop | fault => exact ⟨.nil, List.forall_mem_nil _⟩
  | @step fs t taken rest event? fs' us read first more ih =>
    obtain ⟨used, hused, hf⟩ := hplace fs t e _ _ rest first
    obtain rfl := List.append_cancel_right hused
    obtain ⟨hv', hf⟩ := hf hv
    rw [← List.cons_append, List.pairwise_append] at hts
    obtain ⟨-, hrest, hlt⟩ := hts
    obtain ⟨hsorted, hmem⟩ := ih hv' hrest
    -- a token of the first event stands in front of all later places
    have hfirst : ∀ a, (∃ u ∈ t :: taken, a = u.span.start) → ∀ a' ∈ read.1.filterMap place?, a < a' := by
      rintro _ ⟨u, hu, rfl⟩ a' ha'
      obtain ⟨v, hv, rfl⟩ := hmem a' ha'
      exact hlt u hu v hv
    have hlater : ∀ a' ∈ read.1.filterMap place?, ∃ v ∈ t :: (taken ++ rest), a' = v.span.start := by
      intro a' ha'
      obtain ⟨v, hv, rfl⟩ := hmem a' ha'
      exact ⟨v, by simp [hv], rfl⟩
    cases event? with
    | none => exact ⟨hsorted, hlater⟩
    | some ev =>
      cases ha : place? ev with
      | none =>
        simp only [Option.toList_some, List.singleton_append, List.filterMap_cons, ha]
        exact ⟨hsorted, hlater⟩
      | some a =>
        simp only [Option.toList_some, List.singleton_append, List.filterMap_cons, ha,
          List.pairwise_cons, List.forall_mem_cons]
        obtain ⟨u, hu, hau⟩ := hf ev a rfl ha
        refine ⟨⟨hfirst a ⟨u, hu, hau⟩, hsorted⟩, ⟨u, ?_, hau⟩, hlater⟩
        rw [← List.cons_append, List.mem_append]
        exact .inl hu

end Event

namespace Scan

theorem byteSize_cons_pos (c : Char) (cs : List Char) : 0 < byteSize (c :: cs) := by
  have := c.utf8Size_pos
  rw [byteSize_cons]
  omega

/-- Tokens begin one behind the other. -/
theorem tokens_ofChars (lines : LineIndex) (offset : Nat) (cs : List Char) :
    (ofChars lines offset cs).tokens.Pairwise Event.Precedes ∧
      ∀ t ∈ (ofChars lines offset cs).tokens, offset ≤ t.span.start := by
  obtain ⟨ps, h⟩ := exists_takes lines offset cs
  generalize ofChars lines offset cs = scan at h
  induction h with
  | stop | fault => exact ⟨.nil, List.forall_mem_nil _⟩
  | skip read more ih => exact ⟨ih.1, fun t ht => Nat.le_trans (Nat.le_add_right ..) (ih.2 t ht)⟩
  | @token offset c cs kind n ps scan read more ih =>
    have hpos := byteSize_cons_pos c (cs.take n)
    refine ⟨.cons (fun t ht => ?_) ih.1, List.forall_mem_cons.mpr ⟨Nat.le_refl _, fun t ht => ?_⟩⟩
    · exact Nat.lt_of_lt_of_le (Nat.lt_add_of_pos_right hpos) (ih.2 t ht)
    · exact Nat.le_trans (Nat.le_add_right ..) (ih.2 t ht)

end Scan

/-- Declarations and references begin one behind the other, in the order of their events. -/
theorem Event.anchors_ofText (source : String) :
    ((ofText source).1.filterMap anchor?).Pairwise (· < ·) :=
  (places_ofTokens (fun fs _ => (yields_next fs).mono fun _ _ hf hv => ⟨hf.frames hv, hf.anchor⟩)
    _ _ [] trivial (Scan.tokens_ofChars _ 0 source.toList).1).1

end ProtoSchema

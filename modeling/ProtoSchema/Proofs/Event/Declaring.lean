import ProtoSchema.Proofs.Pool.Restatements

/-! # What statements declare

Some statements `Declare` the outline of a scope: each of them is one entry under the scope it is written
in, kind by kind in the order of the statements, and the statements between the header of a block and its
end are what is declared in the block.  No two outlines are declared by the same statements
(`Declare.unique`).  The statements of a text without a fault are those that its tokens spell
(`source_ofText`). -/

namespace ProtoSchema

/-- The tokens spell some events from the first to the last, and behind the last one no frame is open. -/
inductive Spelling.Source : Frames → List Token → List Event → Prop
  | done : Source [] [] []
  | step {fs fs' ts us event? es} (first : Spelling.Step fs ts event? fs') (rest : Source fs' us es) :
      Source fs (ts ++ us) (event?.toList ++ es)

namespace Event

/-- A value without the places of its parts. -/
def bareValue (v : ValueDecl) : ValueDecl := { v with name := v.name.bare, number := v.number.bare }

/-- The entry that a statement is by itself; headers and ends of blocks are none, nor are values, which
stand in enums only. -/
def entry? : Event → Option ScopeOutline
  | .edition _ | .package _ | .importFile .. | .required _ => some {}
  | .option o => some { options := [o] }
  | .field f => some { fields := [Cursor.bareField f] }
  | .reservedRanges rs => some { reservedRanges := rs }
  | .reservedNames names => some { reservedNames := names }
  | .extensionRanges rs => some { extensionRanges := rs }
  | .openMessage _ | .openExtend _ | .openEnum _ | .value _ | .close => none

/-- The statements in an enum declare its options and its values. -/
inductive DeclareEnum : List Event → List OptionDecl → List ValueDecl → Prop
  | nil : DeclareEnum [] [] []
  | option {es os vs o} (front : DeclareEnum es os vs) : DeclareEnum (es ++ [.option o]) (os ++ [o]) vs
  | value {es os vs v} (front : DeclareEnum es os vs) :
      DeclareEnum (es ++ [.value v]) os (vs ++ [bareValue v])

/-- The statements in a scope declare what is listed in an outline. -/
inductive Declare : List Event → ScopeOutline → Prop
  | nil : Declare [] {}
  | single {es D e E} (front : Declare es D) (entry : e.entry? = some E) : Declare (es ++ [e]) (D ++ E)
  | message {es D name body B} (front : Declare es D) (inner : Declare body B) :
      Declare (es ++ .openMessage name :: (body ++ [.close])) (D ++ { messages := [.mk name.value B] })
  | extend {es D type body fields} (front : Declare es D) (inner : Declare body { fields }) :
      Declare (es ++ .openExtend type :: (body ++ [.close]))
        (D ++ { extendBlocks := [⟨type.value, fields⟩] })
  | enum {es D name body options values} (front : Declare es D)
      (inner : DeclareEnum body options values) :
      Declare (es ++ .openEnum name :: (body ++ [.close]))
        (D ++ { enums := [⟨name.value, options, values⟩] })

/-! ### Blocks that are closed -/

/-- How many more blocks are open behind an event than in front of it. -/
def weight : Event → Int
  | .openMessage _ | .openExtend _ | .openEnum _ => 1
  | .close => -1
  | _ => 0

/-- How many more blocks are open behind some events than in front of them. -/
def depth (es : List Event) : Int := (es.map weight).sum

variable {es es' body body' v : List Event} {e e' : Event}

theorem depth_cons : depth (e :: es) = e.weight + depth es := by
  rw [depth, List.map_cons, List.sum_cons, depth]

theorem depth_append : depth (es ++ es') = depth es + depth es' := by
  rw [depth, List.map_append, List.sum_append, depth, depth]

theorem depth_block : depth (es ++ e :: body) = depth es + e.weight + depth body := by
  rw [depth_append, depth_cons, add_assoc]

/-- How many blocks are open in front of nested events and behind them. -/
theorem Nested.depth_eq {ks ks' : OpenBlocks} (h : Nested ks es ks') :
    depth es = ks'.length - ks.length := by
  induction h with
  | nil => exact (sub_self _).symm
  | @cons e es ks ks' ks'' head tail ih =>
    have hhead : e.weight = ks'.length - ks.length := by
      cases head <;> simp [weight]
    rw [depth_cons, ih, hhead]
    omega

/-- All blocks that the events open are closed by them, and they close no others. -/
structure Balanced (es : List Event) : Prop where
  whole : depth es = 0
  behind : ∀ u v, es = u ++ v → depth v ≤ 0

theorem balanced_nil : Balanced [] where
  whole := rfl
  behind u v h := by
    rw [(List.append_eq_nil_iff.mp h.symm).2]
    exact le_refl _

theorem Balanced.append (h : Balanced es) (h' : Balanced es') : Balanced (es ++ es') where
  whole := by rw [depth_append, h.whole, h'.whole, add_zero]
  behind u v huv := by
    rcases List.append_eq_append_iff.mp huv with ⟨w, -, hes'⟩ | ⟨w, hes, rfl⟩
    · exact h'.behind w v hes'
    · rw [depth_append, h'.whole, add_zero]
      exact h.behind u w hes

theorem balanced_single (h : e.weight = 0) : Balanced [e] where
  whole := by rw [depth, List.map_singleton, List.sum_singleton, h]
  behind u v huv := by
    rcases List.cons_eq_append_iff.mp huv with ⟨-, rfl⟩ | ⟨w, -, hw⟩
    · rw [depth, List.map_singleton, List.sum_singleton, h]
    · rw [(List.append_eq_nil_iff.mp hw.symm).2]
      exact le_refl _

/-- A block around events that are balanced. -/
theorem Balanced.block (h : Balanced body) (he : e.weight = 1) :
    Balanced (e :: (body ++ [.close])) := by
  have hwhole : depth (e :: (body ++ [.close])) = 0 := by
    rw [depth_cons, depth_append, h.whole, he]
    rfl
  refine ⟨hwhole, fun u v huv => ?_⟩
  rcases List.cons_eq_append_iff.mp huv with ⟨-, rfl⟩ | ⟨w, -, hw⟩
  · exact hwhole.le
  · -- behind the header the end of the block stands
    have hclose : depth [.close] = -1 := rfl
    rcases List.append_eq_append_iff.mp hw with ⟨x, -, hx⟩ | ⟨x, hx, rfl⟩
    · rcases List.cons_eq_append_iff.mp hx with ⟨-, rfl⟩ | ⟨y, -, hy⟩
      · rw [hclose]
        decide
      · rw [(List.append_eq_nil_iff.mp hy.symm).2]
        exact le_refl _
    · have hx := h.behind w x hx
      rw [depth_append, hclose]
      omega

theorem weight_of_entry {E : ScopeOutline} (h : e.entry? = some E) : e.weight = 0 := by
  cases e <;> first | rfl | cases h

theorem DeclareEnum.balanced {os : List OptionDecl} {vs : List ValueDecl} (h : DeclareEnum es os vs) :
    Balanced es := by
  induction h with
  | nil => exact balanced_nil
  | option _ ih => exact ih.append (balanced_single rfl)
  | value _ ih => exact ih.append (balanced_single rfl)

theorem Declare.balanced {D : ScopeOutline} (h : Declare es D) : Balanced es := by
  induction h with
  | nil => exact balanced_nil
  | single _ entry ih => exact ih.append (balanced_single (weight_of_entry entry))
  | message _ _ ih ih' => exact ih.append (ih'.block rfl)
  | extend _ _ ih ih' => exact ih.append (ih'.block rfl)
  | enum _ inner ih => exact ih.append (inner.balanced.block rfl)

/-- The last block of some events begins in one place only. -/
theorem Balanced.split_eq (h : Balanced body) (h' : Balanced body') (he : e.weight = 1)
    (he' : e'.weight = 1) (heq : es ++ e :: (body ++ [.close]) = es' ++ e' :: (body' ++ [.close])) :
    es = es' ∧ e = e' ∧ body = body' := by
  have hfront : es ++ e :: body = es' ++ e' :: body' := by
    simp only [← List.cons_append, ← List.append_assoc] at heq
    exact List.append_cancel_right heq
  -- a header behind the other one would be left open
  have hnot : ∀ {b b' w : List Event} {a a' : Event}, Balanced b → Balanced b' → a'.weight = 1 →
      b ≠ w ++ a' :: b' := by
    intro b b' w a a' hb hb' ha' he
    have hle := hb.behind w _ he
    rw [depth_cons, ha', hb'.whole] at hle
    omega
  rcases List.append_eq_append_iff.mp hfront with ⟨w, rfl, hw⟩ | ⟨w, rfl, hw⟩
  · rcases List.cons_eq_append_iff.mp hw with ⟨rfl, hw⟩ | ⟨x, rfl, hx⟩
    · cases hw
      exact ⟨(List.append_nil _).symm, rfl, rfl⟩
    · exact absurd hx (hnot (a := e) h h' he')
  · rcases List.cons_eq_append_iff.mp hw with ⟨rfl, hw⟩ | ⟨x, rfl, hx⟩
    · cases hw
      exact ⟨List.append_nil _, rfl, rfl⟩
    · exact absurd hx (hnot (a := e') h' h he)

/-! ### One outline -/

theorem DeclareEnum.unique {os os' : List OptionDecl} {vs vs' : List ValueDecl}
    (h : DeclareEnum es os vs) (h' : DeclareEnum es os' vs') : os = os' ∧ vs = vs' := by
  induction h generalizing os' vs' with
  | nil =>
    generalize hes : ([] : List Event) = es at h'
    cases h' with
    | nil => exact ⟨rfl, rfl⟩
    | option | value => simp at hes
  | @option es os vs o front ih =>
    generalize hes : es ++ [Event.option o] = es' at h'
    cases h' with
    | nil => simp at hes
    | option front' =>
      obtain ⟨rfl, ho⟩ := List.append_inj' hes rfl
      cases ho
      obtain ⟨rfl, rfl⟩ := ih front'
      exact ⟨rfl, rfl⟩
    | value front' => exact nomatch (List.append_inj' hes rfl).2
  | @value es os vs v front ih =>
    generalize hes : es ++ [Event.value v] = es' at h'
    cases h' with
    | nil => simp at hes
    | option front' => exact nomatch (List.append_inj' hes rfl).2
    | value front' =>
      obtain ⟨rfl, hv⟩ := List.append_inj' hes rfl
      cases hv
      obtain ⟨rfl, rfl⟩ := ih front'
      exact ⟨rfl, rfl⟩

/-- A single statement is not the end of a block. -/
theorem ne_block_of_entry {E : ScopeOutline} (entry : e.entry? = some E) :
    es ++ [e] ≠ es' ++ e' :: (body ++ [.close]) := by
  intro heq
  simp only [← List.cons_append, ← List.append_assoc] at heq
  obtain ⟨-, hlast⟩ := List.append_inj' heq rfl
  cases hlast
  cases entry

/-- What a block declares in the scope around it, with the statements in it. -/
inductive DeclareBlock : Event → List Event → ScopeOutline → Prop
  | message {name body B} (inner : Declare body B) :
      DeclareBlock (.openMessage name) body { messages := [.mk name.value B] }
  | extend {type body fields} (inner : Declare body { fields }) :
      DeclareBlock (.openExtend type) body { extendBlocks := [⟨type.value, fields⟩] }
  | enum {name body options values} (inner : DeclareEnum body options values) :
      DeclareBlock (.openEnum name) body { enums := [⟨name.value, options, values⟩] }

/-- Statements that end with a block declare what is in front of the block and the block. -/
theorem Declare.of_block {D : ScopeOutline} (h : Declare (es ++ e :: (body ++ [.close])) D)
    (hb : Balanced body) (he : e.weight = 1) :
    ∃ D' E, Declare es D' ∧ DeclareBlock e body E ∧ D = D' ++ E := by
  generalize hall : es ++ e :: (body ++ [.close]) = all at h
  cases h with
  | nil => simp at hall
  | single front entry => exact absurd hall.symm (ne_block_of_entry entry)
  | message front inner =>
    obtain ⟨rfl, rfl, rfl⟩ := hb.split_eq inner.balanced he rfl hall
    exact ⟨_, _, front, .message inner, rfl⟩
  | extend front inner =>
    obtain ⟨rfl, rfl, rfl⟩ := hb.split_eq inner.balanced he rfl hall
    exact ⟨_, _, front, .extend inner, rfl⟩
  | enum front inner =>
    obtain ⟨rfl, rfl, rfl⟩ := hb.split_eq inner.balanced he rfl hall
    exact ⟨_, _, front, .enum inner, rfl⟩

/-- No two outlines are declared by the same statements. -/
theorem Declare.unique {D D' : ScopeOutline} (h : Declare es D) (h' : Declare es D') : D = D' := by
  induction h generalizing D' with
  | nil =>
    generalize hes : ([] : List Event) = es at h'
    cases h' with
    | nil => rfl
    | single | message | extend | enum => simp at hes
  | @single es D e E front entry ih =>
    generalize hes : es ++ [e] = es' at h'
    cases h' with
    | nil => simp at hes
    | single front' entry' =>
      obtain ⟨rfl, he⟩ := List.append_inj' hes rfl
      cases he
      cases entry.symm.trans entry'
      rw [ih front']
    | message | extend | enum => exact absurd hes (ne_block_of_entry entry)
  | message front inner ih ih' =>
    obtain ⟨D', E, front', hblock, rfl⟩ := h'.of_block inner.balanced rfl
    cases hblock with
    | message inner' => rw [ih front', ih' inner']
  | @extend es D type body fields front inner ih ih' =>
    obtain ⟨D', E, front', hblock, rfl⟩ := h'.of_block inner.balanced rfl
    cases hblock with
    | @extend _ _ fields' inner' =>
      obtain rfl : fields = fields' := congrArg Declarations.fields (ih' inner')
      rw [ih front']
  | enum front inner ih =>
    obtain ⟨D', E, front', hblock, rfl⟩ := h'.of_block inner.balanced rfl
    cases hblock with
    | enum inner' =>
      obtain ⟨rfl, rfl⟩ := inner.unique inner'
      rw [ih front']

/-! ### Texts -/

theorem source_ofTokens (e : Ending) (ts : List Token) : ∀ fs : Frames, (ofTokens e fs ts).2 = none →
    (∃ n, e = .endOfText n) ∧ Spelling.Source fs ts (ofTokens e fs ts).1 := by
  induction h : ts.length using Nat.strongRecOn generalizing ts with
  | _ m ih =>
    intro fs
    unfold ofTokens
    split
    · intro hend
      obtain rfl := endFault_eq_none hend
      cases e with
      | endOfText n => exact ⟨⟨n, rfl⟩, .done⟩
      | fault fault => cases hend
    · next t rest =>
      split
      · intro hend
        cases hend
      · next event? fs' rest' hr =>
        intro hend
        obtain ⟨used, rfl, hstep, -⟩ := yields_next_spelling fs _ _ _ _ hr
        obtain ⟨hending, hrest⟩ := ih rest'.length (by simp at h; omega) rest' rfl fs' hend
        rw [← List.cons_append]
        exact ⟨hending, .step hstep hrest⟩

/-- A text without a fault is scanned to its end, and its tokens spell its events. -/
theorem source_ofText {text : String} (h : (ofText text).2 = none) :
    (∃ n, (Scan.ofText text).ending = .endOfText n) ∧
      Spelling.Source [] (Scan.ofText text).tokens (ofText text).1 :=
  source_ofTokens _ _ _ h

end Event

end ProtoSchema

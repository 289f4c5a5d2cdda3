import Mathlib.Data.List.Chain
import ProtoSchema.Proofs.Event.Nesting

/-! # Labels and version statements

A required field stands directly behind the event of its label (`labels_ofText`), and a field that is
read in front of a version statement begins in front of it (`fields_before_editions`).  Both are read
off what a single step may yield (`yields_next_marks`). -/

namespace ProtoSchema

/-- A label waits for its field in the innermost frame, if anywhere. -/
def Frames.Tidy (fs : Frames) : Prop := .required ∉ fs.tail

theorem Frames.Tidy.cons {fs : Frames} (h : fs.Tidy) (hfs : fs.head? ≠ some .required) (f : Frame) :
    Frames.Tidy (f :: fs) := by
  cases fs with
  | nil => exact List.not_mem_nil
  | cons g fs =>
    rw [Tidy, List.tail_cons, List.mem_cons, not_or]
    exact ⟨fun hg => hfs (by rw [hg]; rfl), h⟩

namespace Event

open Reader

variable {fs outer : Frames} {t : Token} {e : Event}

/-- A field with the label `required`. -/
def IsRequired (e : Event) : Prop := ∃ f, e = .field f ∧ f.form = .plain (some .required)

/-- Neither a required field nor a version statement. -/
def IsPlain (e : Event) : Prop := ¬e.IsRequired ∧ ∀ v, e ≠ .edition v

theorem isPlain_field {f : FieldDecl} (h : f.form ≠ .plain (some .required)) :
    IsPlain (.field f) := by
  refine ⟨?_, fun v hv => (by cases hv)⟩
  rintro ⟨f', hf, hform⟩
  cases hf
  exact h hform

theorem isPlain_of_ne (hf : ∀ f, e ≠ .field f) (hv : ∀ v, e ≠ .edition v) : IsPlain e := by
  refine ⟨?_, hv⟩
  rintro ⟨f, rfl, -⟩
  exact hf f rfl

/-- What a step yields inside the frames `fs`, when it begins with the token `t`. -/
structure Marks (fs : Frames) (t : Token) (result : Option Event × Frames) : Prop where
  tidy : fs.Tidy → result.2.Tidy
  required : ∀ e, result.1 = some e → e.IsRequired → fs.head? = some .required
  label : fs.Tidy → result.2.head? = some .required → ∃ span, result.1 = some (.required span)
  edition : ∀ v, result.1 = some (.edition v) → v.span.start = t.span.start

/-! ### Steps with plain events -/

/-- A step that leaves the frames as they are, with no event or a plain one. -/
theorem marks_same (hfs : fs.head? ≠ some .required) {e? : Option Event}
    (he : ∀ e, e? = some e → e.IsPlain) : Marks fs t (e?, fs) where
  tidy h := h
  required e h hr := absurd hr (he e h).1
  label _ h := absurd h hfs
  edition v h := absurd rfl ((he _ h).2 v)

theorem yields_emit_plain (hfs : fs.head? ≠ some .required) {p : Reader Event}
    (hp : Yields p fun _ e => e.IsPlain) :
    Yields (do emit fs (← p)) fun _ r => Marks fs t r := by
  refine yields_bind hp fun _ e he => yields_pure (marks_same hfs fun e' h => ?_)
  cases h
  exact he

theorem marks_header (hfs : fs.head? ≠ some .required) (he : e.IsPlain) (k : BlockKind) :
    Marks fs t (some e, .header k :: fs) where
  tidy h := h.cons hfs _
  required e' h hr := by
    cases h
    exact absurd hr he.1
  label _ h := by cases h
  edition v h := by
    cases h
    exact absurd rfl (he.2 v)

theorem yields_headerFrom_marks (hfs : fs.head? ≠ some .required) (k : BlockKind) :
    Yields (headerFrom fs k) fun _ r => Marks fs t r := by
  cases k <;>
  · refine yields_skip fun _ _ => yields_pure (marks_header hfs ?_ _)
    exact isPlain_of_ne (fun _ h => (by cases h)) fun _ h => (by cases h)

theorem yields_closeFrom_marks (k : BlockKind) :
    Yields (closeFrom outer) fun _ r => Marks (.body k :: outer) t r := by
  refine yields_skip fun _ _ => yields_pure ⟨fun h => ?_, ?_, fun h hr => ?_, ?_⟩
  · exact fun hm => h (List.mem_of_mem_tail hm)
  · rintro e he ⟨f, rfl, -⟩
    cases he
  · exact absurd (List.mem_of_head? hr) h
  · intro v hv
    cases hv

/-! ### Statements -/

theorem yields_optionFrom_plain (c : Construct) : Yields (optionFrom c) fun _ e => e.IsPlain :=
  yields_skip fun _ _ => yields_skip fun _ _ => yields_pure
    (isPlain_of_ne (fun _ h => (by cases h)) fun _ h => (by cases h))

theorem yields_editionFrom (start : Span) : Yields (editionFrom start) fun _ e =>
    ∃ v, e = .edition v ∧ v.span.start = start.start := by
  refine yields_skip fun _ _ => yields_skip fun _ _ => yields_skip fun _ _ => ?_
  split
  · exact yields_pure ⟨_, rfl, rfl⟩
  · exact yields_fail

theorem yields_statement_marks : Yields (statement t) fun _ r => Marks [] t r := by
  have hnone : ([] : Frames).head? ≠ some .required := fun h => (by cases h)
  unfold statement
  split
  · refine yields_bind (yields_editionFrom _) fun _ e he => yields_pure ?_
    obtain ⟨v, rfl, hv⟩ := he
    refine ⟨id, ?_, fun _ h => absurd h hnone, fun v' h => ?_⟩
    · rintro e he ⟨f, rfl, -⟩
      cases he
    · cases h
      exact hv
  · refine yields_emit_plain hnone (yields_skip fun _ _ => yields_skip fun _ _ => yields_pure ?_)
    exact isPlain_of_ne (fun _ h => (by cases h)) fun _ h => (by cases h)
  · refine yields_emit_plain hnone (yields_skip fun _ _ => yields_skip fun _ _ =>
      yields_skip fun _ _ => yields_pure ?_)
    exact isPlain_of_ne (fun _ h => (by cases h)) fun _ h => (by cases h)
  · exact yields_emit_plain hnone (yields_optionFrom_plain _)
  · exact yields_headerFrom_marks hnone .message
  · exact yields_headerFrom_marks hnone .enum
  · exact yields_headerFrom_marks hnone .extend
  · exact yields_pure (marks_same hnone fun _ h => (by cases h))
  · exact yields_fail

/-! ### Fields -/

theorem yields_fieldFrom_plain (c : Construct) {form : FieldForm} (type : Located WrittenType)
    (h : form ≠ .plain (some .required)) : Yields (fieldFrom c form type) fun _ e => e.IsPlain := by
  refine (yields_fieldFrom c form type).mono fun _ e he => ?_
  obtain ⟨f, rfl, rfl, -⟩ := he
  exact isPlain_field h

theorem yields_fieldStarting_marks (hfs : fs.head? ≠ some .required) {step : Step}
    (h : fieldStarting fs t = some step) : Yields step fun _ r => Marks fs t r := by
  unfold fieldStarting at h
  split at h
  · cases h
    refine yields_pure ⟨fun h => h.cons hfs _, ?_, fun _ _ => ⟨_, rfl⟩, fun v hv => (by cases hv)⟩
    rintro e he ⟨f, rfl, -⟩
    cases he
  · next l hl _ =>
    cases h
    refine yields_skip fun _ type => yields_emit_plain hfs (yields_fieldFrom_plain _ type ?_)
    intro hform
    cases hform
    exact hl rfl
  · obtain ⟨start, -, rfl⟩ := Option.map_eq_some_iff.mp h
    refine yields_skip fun _ type => yields_emit_plain hfs (yields_fieldFrom_plain _ type ?_)
    intro hform
    cases hform

theorem yields_getD_fieldStarting_marks (hfs : fs.head? ≠ some .required) (c : Construct)
    (expected : String) : Yields ((fieldStarting fs t).getD (refused c expected t))
      fun _ r => Marks fs t r := by
  cases h : fieldStarting fs t with
  | none => exact yields_fail
  | some step => exact yields_fieldStarting_marks hfs h

theorem yields_requiredField_marks :
    Yields (requiredField outer t) fun _ r => Marks (.required :: outer) t r := by
  unfold requiredField
  split
  · refine yields_skip fun _ type => ?_
    refine yields_bind (yields_fieldFrom _ _ type) fun _ e he => yields_pure ?_
    obtain ⟨f, rfl, -⟩ := he
    refine ⟨fun h hm => h (List.mem_of_mem_tail hm), fun _ _ _ => rfl, fun h hr => ?_, ?_⟩
    · exact absurd (List.mem_of_head? hr) h
    · intro v hv
      cases hv
  · exact yields_fail

/-! ### Steps inside blocks -/

theorem yields_rangeStatement_plain {p : Reader Event}
    (hp : Yields p fun _ e => (∃ rs, e = .reservedRanges rs) ∨ (∃ names, e = .reservedNames names) ∨
      ∃ rs, e = .extensionRanges rs) : Yields p fun _ e => e.IsPlain := by
  refine hp.mono fun _ e he => ?_
  rcases he with ⟨_, rfl⟩ | ⟨_, rfl⟩ | ⟨_, rfl⟩ <;>
    exact isPlain_of_ne (fun _ h => (by cases h)) fun _ h => (by cases h)

theorem yields_next_marks (fs : Frames) (t : Token) :
    Yields (next fs t) fun _ r => Marks fs t r := by
  have hbody : ∀ {k : BlockKind} {outer : Frames},
      List.head? (.body k :: outer) ≠ some .required := fun h => (by cases h)
  have hnone : ∀ {k : BlockKind} {outer : Frames},
      Marks (.body k :: outer) t (none, .body k :: outer) := marks_same hbody fun _ h => (by cases h)
  unfold next
  split
  · exact yields_statement_marks
  · next k outer =>
    split
    · refine yields_pure ⟨id, fun _ h => (by cases h), fun _ h => (by cases h), fun _ h => (by cases h)⟩
    · exact yields_fail
  · unfold messageItem
    split
    · exact yields_closeFrom_marks .message
    · exact yields_pure hnone
    · exact yields_headerFrom_marks hbody .message
    · exact yields_headerFrom_marks hbody .enum
    · exact yields_headerFrom_marks hbody .extend
    · exact yields_emit_plain hbody (yields_rangeStatement_plain yields_reservedFrom)
    · exact yields_emit_plain hbody (yields_rangeStatement_plain yields_extensionsFrom)
    · exact yields_emit_plain hbody (yields_optionFrom_plain _)
    · refine yields_emit_plain hbody (yields_skip fun _ _ => yields_skip fun _ _ =>
        yields_skip fun _ _ => yields_skip fun _ type => yields_skip fun _ _ =>
          yields_fieldFrom_plain _ type fun hform => ?_)
      cases hform
    · exact yields_getD_fieldStarting_marks hbody _ _
  · unfold extendItem
    split
    · exact yields_closeFrom_marks .extend
    · exact yields_pure hnone
    all_goals first | exact yields_fail | exact yields_getD_fieldStarting_marks hbody _ _
  · unfold enumItem
    split
    · exact yields_closeFrom_marks .enum
    · exact yields_pure hnone
    · exact yields_emit_plain hbody (yields_optionFrom_plain _)
    · split
      · refine yields_emit_plain hbody (yields_skip fun _ _ => yields_skip fun _ _ =>
          yields_skip fun _ _ => yields_ite (yields_skip fun _ _ => yields_skip fun _ _ =>
            yields_pure ?_) yields_fail)
        exact isPlain_of_ne (fun _ h => (by cases h)) fun _ h => (by cases h)
      · exact yields_fail
      · exact yields_fail
  · exact yields_requiredField_marks

/-! ### All events -/

/-- A required field stands behind a label. -/
def Labels (a b : Event) : Prop := b.IsRequired → ∃ span, a = .required span

theorem labels_ofTokens (e : Ending) (ts : List Token) (fs : Frames) (hfs : fs.Tidy) :
    (ofTokens e fs ts).1.IsChain Labels ∧
      ∀ b ∈ (ofTokens e fs ts).1.head?, b.IsRequired → fs.head? = some .required := by
  obtain ⟨us, h⟩ := exists_takes e fs ts
  generalize ofTokens e fs ts = read at h
  induction h with
  | stop | fault => exact ⟨.nil, fun b hb => by cases hb⟩
  | @step fs t taken rest event? fs' us read first more ih =>
    obtain ⟨used, -, hm⟩ := yields_next_marks fs t e _ _ _ first
    obtain ⟨hchain, hhead⟩ := ih (hm.tidy hfs)
    cases event? with
    | none =>
      refine ⟨hchain, fun b hb hreq => ?_⟩
      -- no label is left by a step without an event
      obtain ⟨span, hs⟩ := hm.label hfs (hhead b hb hreq)
      cases hs
    | some a =>
      refine ⟨List.isChain_cons.mpr ⟨fun b hb hreq => ?_, hchain⟩, fun b hb hreq => ?_⟩
      · obtain ⟨span, hs⟩ := hm.label hfs (hhead b hb hreq)
        exact ⟨span, Option.some.inj hs⟩
      · cases hb
        exact hm.required _ rfl hreq

/-- In a text every required field stands directly behind its label. -/
theorem labels_ofText (source : String) : (ofText source).1.IsChain Labels ∧
    ∀ b ∈ (ofText source).1.head?, ¬b.IsRequired := by
  obtain ⟨hchain, hhead⟩ := labels_ofTokens (Scan.ofText source).ending (Scan.ofText source).tokens
    [] fun h => (by cases h)
  exact ⟨hchain, fun b hb hreq => by cases hhead b hb hreq⟩

/-- The offset of an anchor or of a version statement. -/
def place? : Event → Option Nat
  | edition v => some v.span.start
  | e => e.anchor?

/-- A field in front of a version statement begins in front of it. -/
theorem fields_before_editions (source : String) : (ofText source).1.Pairwise fun a b =>
    ∀ f v, a = .field f → b = .edition v → f.type.span.start < v.span.start := by
  have hplaces : ((ofText source).1.filterMap place?).Pairwise (· < ·) := by
    refine (places_ofTokens (fun fs t e ts r rest hr => ?_) _ _ [] trivial
      (Scan.tokens_ofChars _ 0 source.toList).1).1
    obtain ⟨used, hts, hf⟩ := yields_next fs e ts r rest hr
    obtain ⟨-, -, hm⟩ := yields_next_marks fs t e ts r rest hr
    refine ⟨used, hts, fun hv => ⟨hf.frames hv, fun ev a he ha => ?_⟩⟩
    cases ev with
    | edition v =>
      cases ha
      exact ⟨t, List.mem_cons_self .., hm.edition v he⟩
    | _ => exact hf.anchor _ a he ha
  refine (List.pairwise_filterMap.mp hplaces).imp ?_
  rintro a b h f v rfl rfl
  exact h _ rfl _ rfl

end Event

end ProtoSchema

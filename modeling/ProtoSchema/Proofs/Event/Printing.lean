import ProtoSchema.Proofs.Event.Legibility
import ProtoSchema.Proofs.Event.Respelling
import ProtoSchema.Proofs.Event.Sentences

/-! # Printed events and what is read of them

`Event.Lines` says that some events may be written one line after the other: each stands where it may
stand, and a label `required` is on the line of its field.  The text of legible events is read as these
events again, with other places and with some constants as names (`Event.ofText_print`). -/

namespace ProtoSchema

open Token.Shape (word mark)

/-! ### Statements -/

namespace Spelling

variable {ts : List Token} {e : Event}

/-- A field behind a label `required`. -/
theorem statement_of_required {f : FieldDecl} (hf : f.Legible) (hform : f.form = .plain (some .required))
    (h : Shaped ts (Event.field f).shapes) : ∃ t u, ts = t :: u ∧
      t.kind = .specifier (.label .required) ∧ Statement u (Event.field f).reread := by
  have h : Shaped ts ([word Label.required.name] ++ (f.type.value.shapes ++ ([word f.name.value] ++
      ([mark .equals] ++ ([.int f.number.value] ++ OptionDecl.listShapes f.options)) ++
        [mark .semicolon]))) := by
    simpa only [Event.shapes, FieldDecl.shapes, hform, FieldForm.shapes, List.append_assoc] using h
  obtain ⟨u, v, rfl, hu, hv⟩ := h.append
  obtain ⟨t, rfl, kind, -⟩ := hu.single
  obtain ⟨front, tail, rfl, hfront, htail⟩ := hv.append
  have hrequired : Front front f.form f.type.value := by
    rw [hform]
    exact .required (fieldType_of_shaped hf.type hfront)
  exact ⟨t, front ++ tail, rfl, kind.trans (Token.Kind.ofWord_label _),
    .field hrequired (fieldTail_of_shaped hf htail)⟩

theorem statement_of_field {f : FieldDecl} (hf : f.Legible) (hform : f.form ≠ .plain (some .required))
    (h : Shaped ts (Event.field f).shapes) : Statement ts (Event.field f).reread := by
  have h : Shaped ts (f.form.shapes f.type.value ++ ([word f.name.value] ++
      ([mark .equals] ++ ([.int f.number.value] ++ OptionDecl.listShapes f.options)) ++
        [mark .semicolon])) := by
    simpa only [Event.shapes, FieldDecl.shapes, List.append_assoc] using h
  obtain ⟨front, tail, rfl, hfront, htail⟩ := h.append
  exact .field (front_of_shaped hf.type hform hfront) (fieldTail_of_shaped hf htail)

theorem statement_of_value {v : ValueDecl} (hv : v.Legible) (h : Shaped ts (Event.value v).shapes) :
    Statement ts (Event.value v).reread := by
  obtain ⟨u, w, rfl, hu, hw⟩ := Shaped.append h
  obtain ⟨semicolon, rfl, stop, -⟩ := hw.single
  obtain ⟨name, u₁, rfl, ident, hname, h₁⟩ := hu.cons
  obtain ⟨equals, u₂, rfl, between, -, h₂⟩ := h₁.cons
  obtain ⟨number, options, rfl, hnumber, hoptions⟩ :=
    Shaped.append (s := (if v.number.value < 0 then [mark .minus] else []) ++ _) h₂
  have hall := Statement.value (w := { v with options := v.options.map OptionDecl.reread })
    (ident.trans hv.name.kind) between (number_of_shaped hnumber) (options_of_shaped hv.options hoptions)
    hname.symm stop
  rw [List.cons_append, List.cons_append, List.append_assoc]
  exact hall

/-- A statement on one line, which is neither the first line of a block nor a required field. -/
theorem statement_of_line (he : e.Legible) (hopens : e.opens = false) (hmark : ∀ span, e ≠ .required span)
    (hfield : ∀ f, e = .field f → f.form ≠ .plain (some .required)) (h : Shaped ts e.shapes) :
    Statement ts e.reread := by
  cases e with
  | edition e =>
    obtain ⟨t, u₁, rfl, kind, -, h₁⟩ := Shaped.cons h
    obtain ⟨equals, u₂, rfl, mark, -, h₂⟩ := h₁.cons
    obtain ⟨name, u₃, rfl, string, -, h₃⟩ := h₂.cons
    obtain ⟨semicolon, rfl, stop, -⟩ := h₃.single
    exact .edition (kind.trans (Token.Kind.ofWord_keyword .edition)) mark string
      (Edition.ofName?_name e.value) stop
  | package name =>
    obtain ⟨t, u, rfl, kind, -, hu⟩ := Shaped.cons h
    obtain ⟨v, w, rfl, hv, hw⟩ := Shaped.append (s := name.value.shapes) hu
    obtain ⟨semicolon, rfl, stop, -⟩ := hw.single
    exact .package (kind.trans (Token.Kind.ofWord_keyword .package)) (dotted_of_shaped he hv) stop
  | importFile way file =>
    obtain ⟨t, u, rfl, kind, -, hu⟩ := Shaped.cons h
    obtain ⟨v, w, rfl, hv, hw⟩ := Shaped.append (s := way.shapes) hu
    obtain ⟨name, w, rfl, string, -, hw⟩ := hw.cons
    obtain ⟨semicolon, rfl, stop, -⟩ := hw.single
    refine .importFile (kind.trans (Token.Kind.ofWord_keyword .importFile)) ?_ string stop
    cases way with
    | plain =>
      rw [Shaped.nil_iff.mp hv]
      exact .plain
    | publicly =>
      obtain ⟨t, rfl, kind, -⟩ := hv.single
      exact .publicly (kind.trans (Token.Kind.ofWord_keyword .publicImport))
    | weakly =>
      obtain ⟨t, rfl, kind, -⟩ := hv.single
      exact .weakly (kind.trans (Token.Kind.ofWord_keyword .weakImport))
  | option o =>
    obtain ⟨t, u, rfl, kind, -, hu⟩ := Shaped.cons h
    obtain ⟨v, w, rfl, hv, hw⟩ := Shaped.append (s := o.shapes) hu
    obtain ⟨semicolon, rfl, stop, -⟩ := hw.single
    exact .option (kind.trans (Token.Kind.ofWord_keyword .option)) (optionBody_of_shaped he hv) stop
  | required span => exact absurd rfl (hmark span)
  | field f => exact statement_of_field he (hfield f rfl) h
  | value v => exact statement_of_value he h
  | reservedRanges rs =>
    obtain ⟨t, u, rfl, kind, -, hu⟩ := Shaped.cons h
    obtain ⟨v, w, rfl, hv, hw⟩ := Shaped.append (s := Token.Shape.joined _ _) hu
    obtain ⟨semicolon, rfl, stop, -⟩ := hw.single
    exact .reservedRanges (kind.trans (Token.Kind.ofWord_keyword .reserved))
      (ranges_of_shaped he.1 hv) stop
  | reservedNames names =>
    obtain ⟨t, u, rfl, kind, -, hu⟩ := Shaped.cons h
    obtain ⟨v, w, rfl, hv, hw⟩ := Shaped.append (s := Token.Shape.joined _ _) hu
    obtain ⟨semicolon, rfl, stop, -⟩ := hw.single
    exact .reservedNames (kind.trans (Token.Kind.ofWord_keyword .reserved))
      (strings_of_shaped he hv) stop
  | extensionRanges rs =>
    obtain ⟨t, u, rfl, kind, -, hu⟩ := Shaped.cons h
    obtain ⟨v, w, rfl, hv, hw⟩ := Shaped.append (s := Token.Shape.joined _ _) hu
    obtain ⟨semicolon, rfl, stop, -⟩ := hw.single
    exact .extensionRanges (v := []) (kind.trans (Token.Kind.ofWord_keyword .extensions))
      (ranges_of_shaped he.1 hv) .none stop
  | close =>
    obtain ⟨t, rfl, kind, -⟩ := Shaped.single h
    exact .close kind
  | openMessage | openExtend | openEnum => cases hopens

/-- The first line of a block. -/
theorem statement_of_opens (he : e.Legible) (hopens : e.opens = true) (h : Shaped ts e.shapes) :
    ∃ u brace, ts = u ++ [brace] ∧ brace.kind = .punct .leftBrace ∧ Statement u e.reread := by
  cases e with
  | openMessage name =>
    obtain ⟨t, u, rfl, kind, -, hu⟩ := Shaped.cons h
    obtain ⟨v, w, rfl, hv, hw⟩ := Shaped.append (s := [word name.value]) hu
    obtain ⟨brace, rfl, hbrace, -⟩ := hw.single
    exact ⟨t :: v, brace, rfl, hbrace, .openMessage (kind.trans (Token.Kind.ofWord_keyword .message))
      (ident_of_shaped he hv)⟩
  | openExtend type =>
    obtain ⟨t, u, rfl, kind, -, hu⟩ := Shaped.cons h
    obtain ⟨v, w, rfl, hv, hw⟩ := Shaped.append (s := type.value.shapes) hu
    obtain ⟨brace, rfl, hbrace, -⟩ := hw.single
    exact ⟨t :: v, brace, rfl, hbrace, .openExtend (kind.trans (Token.Kind.ofWord_keyword .extend))
      (typeName_of_shaped he hv)⟩
  | openEnum name =>
    obtain ⟨t, u, rfl, kind, -, hu⟩ := Shaped.cons h
    obtain ⟨v, w, rfl, hv, hw⟩ := Shaped.append (s := [word name.value]) hu
    obtain ⟨brace, rfl, hbrace, -⟩ := hw.single
    exact ⟨t :: v, brace, rfl, hbrace, .openEnum (kind.trans (Token.Kind.ofWord_keyword .enum))
      (ident_of_shaped he hv)⟩
  | _ => cases hopens

end Spelling

/-! ### Lines -/

namespace Event

open Reader
open Spelling (Statement)

/-- Events that may be written one line after the other, with the frames that are open before and
behind them. -/
inductive Lines : Frames → List Event → Frames → Prop
  | nil {fs} : Lines fs [] fs
  | line {e fs fs' es fs''} (place : e.Stands fs fs') (before : fs.Between) (behind : fs'.Between)
      (tail : Lines fs' es fs'') : Lines fs (e :: es) fs''
  | block {e k fs es fs'} (place : e.Stands fs (.header k :: fs)) (tail : Lines (.body k :: fs) es fs') :
      Lines fs (e :: es) fs'
  | required {f span k fs es fs'} (h : k ≠ .enum) (form : f.form = .plain (some .required))
      (tail : Lines (.body k :: fs) es fs') :
      Lines (.body k :: fs) (.required span :: .field f :: es) fs'

variable {fs fs' fs'' : Frames} {es es' : List Event} {e : Event} {t : Token} {u ts rest : List Token}
  {n : Nat}

theorem Lines.append (h : Lines fs es fs') (h' : Lines fs' es' fs'') : Lines fs (es ++ es') fs'' := by
  induction h with
  | nil => exact h'
  | line place before behind _ ih => exact .line place before behind (ih h')
  | block place _ ih => exact .block place (ih h')
  | required hk form _ ih => exact .required hk form (ih h')

/-- Events that each leave the frames as they are. -/
theorem lines_flatMap {α : Type} {as : List α} {events : α → List Event}
    (h : ∀ a ∈ as, Lines fs (events a) fs) : Lines fs (as.flatMap events) fs := by
  induction as with
  | nil => exact .nil
  | cons a as ih =>
    rw [List.forall_mem_cons] at h
    exact h.1.append (ih h.2)

theorem Stands.reread (h : e.Stands fs fs') : e.reread.Stands fs fs' := by
  cases h with
  | requiredField form => exact .requiredField form
  | field hk form hl => exact .field hk form hl
  | mapField form => exact .mapField form
  | fileOption => exact .fileOption
  | option hk => exact .option hk
  | value => exact .value
  | openMessage hfs => exact .openMessage hfs
  | openExtend hfs => exact .openExtend hfs
  | openEnum hfs => exact .openEnum hfs
  | required hk => exact .required hk
  | edition | package | importFile | reservedRanges | reservedNames | extensionRanges | close =>
    constructor

theorem Legible.inBounds (h : e.Legible) : e.reread.InBounds := by
  cases e with
  | field f =>
    have h : f.Legible := h
    exact ⟨h.form, h.number⟩
  | value v =>
    have h : v.Legible := h
    exact h.number
  | reservedRanges rs | extensionRanges rs => exact h.2
  | _ => trivial

/-- The tokens of a statement that is read off them. -/
theorem ofTokens_of_reads
    (h : Reads (next fs t) u rest (Reading (some e) fs')) :
    ∃ e', e'.bare = e.bare ∧ ofTokens (.endOfText n) fs (t :: (u ++ rest)) =
      (e' :: (ofTokens (.endOfText n) fs' rest).1, (ofTokens (.endOfText n) fs' rest).2) := by
  obtain ⟨⟨event?, gs⟩, hr, hfs, hbare⟩ := h n
  cases hfs
  obtain ⟨e', rfl, he'⟩ := Option.map_eq_some_iff.mp hbare
  refine ⟨e', he', ?_⟩
  conv_lhs => unfold ofTokens
  split
  · next hr' =>
    rw [hr] at hr'
    cases hr'
  · next hr' =>
    rw [hr] at hr'
    cases hr'
    rfl

/-- The brace behind the header of a block. -/
theorem ofTokens_brace {k : BlockKind} (h : t.kind = .punct .leftBrace) :
    ofTokens (.endOfText n) (.header k :: fs) (t :: ts) =
      ofTokens (.endOfText n) (.body k :: fs) ts := by
  have hr : (next (.header k :: fs) t).run (.endOfText n) ts = .ok ((none, .body k :: fs), ts) := by
    rw [next, if_pos h]
    rfl
  conv_lhs => unfold ofTokens
  split
  · next hr' =>
    rw [hr] at hr'
    cases hr'
  · next hr' =>
    rw [hr] at hr'
    cases hr'
    rfl

theorem avoids_append (hu : Avoids (.punct .semicolon) u) (hne : u ≠ []) :
    Avoids (.punct .semicolon) (u ++ rest) := by
  obtain ⟨t, u, rfl⟩ := List.exists_cons_of_ne_nil hne
  exact hu

theorem avoids_statement (h : Statement ts e) : ts ≠ [] ∧ Avoids (.punct .semicolon) ts := by
  obtain ⟨t, u, rfl, hne⟩ := Grammar.exists_cons_of_statement h
  exact ⟨List.cons_ne_nil _ _, avoids_cons.mpr hne⟩

/-- The tokens on some lines are read as the events of these lines. -/
theorem ofTokens_lines (h : Lines fs es fs') (hend : fs' = []) : (∀ e ∈ es, e.Legible) → ∀ ts,
    Shaped ts (es.flatMap shapes) → Avoids (.punct .semicolon) ts ∧
      ∃ es', ofTokens (.endOfText n) fs ts = (es', none) ∧
        es'.map bare = es.map fun e => e.reread.bare := by
  induction h with
  | nil =>
    intro _ ts hts
    rw [Shaped.nil_iff.mp hts, hend]
    exact ⟨avoids_nil, [], by simp [ofTokens, endFault], rfl⟩
  | @line e fs fs₁ es fs₂ place before behind tail ih =>
    intro hl ts hts
    rw [List.forall_mem_cons] at hl
    obtain ⟨u, rest, rfl, hu, hrest⟩ := Shaped.append hts
    obtain ⟨hsemicolon, es', hes, hbare⟩ := ih hend hl.2 rest hrest
    have hwritten : Statement u e.reread := by
      refine Spelling.statement_of_line hl.1 ?_ ?_ ?_ hu
      · cases place <;> cases behind <;> rfl
      · rintro span rfl
        cases place
        cases behind
      · rintro f rfl
        cases place with
        | requiredField => cases before
        | field _ form label =>
          rw [form]
          simpa using label
        | mapField form => simp [form]
    obtain ⟨hne, havoids⟩ := avoids_statement hwritten
    refine ⟨avoids_append havoids hne, ?_⟩
    have hstops : StopsAt u e.reread rest := by
      refine ⟨fun type he => ?_, fun _ _ => hsemicolon⟩
      cases place <;> cases he
      cases behind
    obtain ⟨t, v, rfl, hreads⟩ := reads_statement hwritten place.reread hl.1.inBounds hstops
    obtain ⟨e', he', hall⟩ := ofTokens_of_reads (n := n) hreads
    exact ⟨e' :: es', by rw [List.cons_append, hall, hes], by rw [List.map_cons, he', hbare]; rfl⟩
  | @block e k fs es fs₁ place tail ih =>
    intro hl ts hts
    rw [List.forall_mem_cons] at hl
    obtain ⟨u, rest, rfl, hu, hrest⟩ := Shaped.append hts
    obtain ⟨-, es', hes, hbare⟩ := ih hend hl.2 rest hrest
    obtain ⟨v, brace, rfl, hbrace, hwritten⟩ :=
      Spelling.statement_of_opens hl.1 (by cases place <;> rfl) hu
    obtain ⟨hne, havoids⟩ := avoids_statement hwritten
    rw [List.append_assoc]
    refine ⟨avoids_append havoids hne, ?_⟩
    have hstops : StopsAt v e.reread (brace :: rest) := by
      refine ⟨fun _ _ => avoids_cons.mpr (by simp [hbrace]), fun he _ => ?_⟩
      cases place <;> cases he
    obtain ⟨t, w, rfl, hreads⟩ := reads_statement hwritten place.reread hl.1.inBounds hstops
    obtain ⟨e', he', hall⟩ := ofTokens_of_reads (n := n) hreads
    refine ⟨e' :: es', ?_, by rw [List.map_cons, he', hbare]; rfl⟩
    rw [List.cons_append, List.singleton_append, hall, ofTokens_brace hbrace, hes]
  | @required f span k fs es fs₁ hk form tail ih =>
    intro hl ts hts
    rw [List.forall_mem_cons, List.forall_mem_cons] at hl
    obtain ⟨u, rest, rfl, hu, hrest⟩ := Shaped.append (s := (field f).shapes) hts
    obtain ⟨hsemicolon, es', hes, hbare⟩ := ih hend hl.2.2 rest hrest
    obtain ⟨t, v, rfl, kind, hwritten⟩ := Spelling.statement_of_required hl.2.1 form hu
    have hlabel : Statement [t] (required span) := .required kind
    have hbehind : ∀ ts e, (∀ type, e ≠ openExtend type) → e ≠ .close → ∀ rest, StopsAt ts e rest :=
      fun _ _ h h' _ => ⟨fun type he => absurd he (h type), fun he => absurd he h'⟩
    have hstands : (required span).Stands (.body k :: fs) (.required :: .body k :: fs) := .required hk
    obtain ⟨t', w, hcons, hreads⟩ := reads_statement hlabel hstands trivial
      (hbehind _ _ (by simp) (by simp) (v ++ rest))
    cases hcons
    have hplace : (field f).Stands (.required :: .body k :: fs) (.body k :: fs) := .requiredField form
    obtain ⟨t', w, rfl, hreads'⟩ := reads_statement hwritten hplace.reread hl.2.1.inBounds
      (hbehind _ _ (by simp [reread]) (by simp [reread]) rest)
    obtain ⟨e', he', hall⟩ := ofTokens_of_reads (n := n) hreads
    obtain ⟨e'', he'', hall'⟩ := ofTokens_of_reads (n := n) hreads'
    refine ⟨avoids_cons.mpr (by simp [kind]), e' :: e'' :: es', ?_, ?_⟩
    · rw [List.nil_append, List.cons_append] at hall
      rw [List.cons_append, List.cons_append, hall, hall', hes]
    · rw [List.map_cons, List.map_cons, he', he'', hbare]
      rfl

/-- The text of some lines is read as the events that were written. -/
theorem ofText_print (h : Lines [] es []) (hl : ∀ e ∈ es, e.Legible) :
    ∃ es', ofText (print 0 es) = (es', none) ∧ es'.map bare = es.map fun e => e.reread.bare := by
  obtain ⟨ps, hwritten, hshapes, hstand⟩ := lexes_print (F := Anything) hl 0
  obtain ⟨htokens, n, hending⟩ := Scan.ofText_written hwritten.symm (hstand [] trivial)
  obtain ⟨-, hall⟩ := ofTokens_lines (n := n) h rfl hl _ (htokens.trans hshapes)
  rwa [← hending] at hall

end Event

end ProtoSchema

import ProtoSchema.Proofs.Event.Lines
import ProtoSchema.Proofs.Event.Statements
import ProtoSchema.Proofs.Token.Legibility

/-! # Written values and what they spell

The tokens that a part of a line scans to spell the value that was written, in front of whatever stands
behind them.  Two constants come back as others: an infinite number without a sign and the number without
a value are written as words, and these are read as names (`Constant.reread`). -/

namespace ProtoSchema

open Token.Shape (word mark joined)

/-! ### What is read again -/

/-- A constant as it is read where it was written. -/
def Constant.reread : Constant → Constant
  | float .nan => ident ["nan"]
  | float (.infinite false) => ident ["inf"]
  | c => c

def OptionDecl.reread (o : OptionDecl) : OptionDecl := { o with value := o.value.reread }

/-- An event as it is read where it was written. -/
def Event.reread : Event → Event
  | option o => option o.reread
  | field f => field { f with options := f.options.map OptionDecl.reread }
  | value v => value { v with options := v.options.map OptionDecl.reread }
  | e => e

/-! ### Words -/

namespace Token.Kind

@[simp] theorem ofWord_keyword (k : Keyword) : ofWord k.name = keyword k := by
  cases k <;> decide +kernel

@[simp] theorem ofWord_label (l : Label) : ofWord l.name = specifier (.label l) := by
  cases l <;> decide +kernel

@[simp] theorem ofWord_scalar (s : Scalar) : ofWord s.name = scalar s := by
  cases s <;> decide +kernel

theorem ofWord_map : ofWord "map" = specifier .map := by decide +kernel

end Token.Kind

/-! ### Shapes -/

/-- Tokens with given shapes. -/
def Shaped (ts : List Token) (ss : List Token.Shape) : Prop := ts.map Token.shape = ss

namespace Shaped

variable {ts : List Token} {s s' : List Token.Shape}

theorem nil_iff : Shaped ts [] ↔ ts = [] := List.map_eq_nil_iff

theorem append (h : Shaped ts (s ++ s')) : ∃ u v, ts = u ++ v ∧ Shaped u s ∧ Shaped v s' :=
  List.map_eq_append_iff.mp h

theorem cons {kind : Token.Kind} {text : String} (h : Shaped ts ((kind, text) :: s)) :
    ∃ t u, ts = t :: u ∧ t.kind = kind ∧ t.text = text ∧ Shaped u s := by
  obtain ⟨t, u, hts, ht, hu⟩ := List.map_eq_cons_iff.mp h
  obtain ⟨hkind, htext⟩ := Prod.mk.inj ht
  exact ⟨t, u, hts, hkind, htext, hu⟩

theorem single {kind : Token.Kind} {text : String} (h : Shaped ts [(kind, text)]) :
    ∃ t, ts = [t] ∧ t.kind = kind ∧ t.text = text := by
  obtain ⟨t, u, rfl, hkind, htext, hu⟩ := h.cons
  rw [nil_iff.mp hu]
  exact ⟨t, rfl, hkind, htext⟩

end Shaped

namespace Spelling

open Reader (Repeats)

variable {ts : List Token}

/-- Values with marks in front of them. -/
theorem repeats_of_shaped {α β : Type} {m : Punct} {R : List Token → β → Prop}
    {shapes : α → List Token.Shape} {f : α → β} {as : List α}
    (hR : ∀ a ∈ as, ∀ u, Shaped u (shapes a) → R u (f a)) :
    ∀ ts, Shaped ts (as.flatMap fun a => mark m :: shapes a) → Repeats m R ts (as.map f) := by
  induction as with
  | nil =>
    intro ts h
    rw [Shaped.nil_iff.mp h]
    exact .nil
  | cons a as ih =>
    intro ts h
    rw [List.forall_mem_cons] at hR
    obtain ⟨u, v, rfl, hu, hv⟩ := Shaped.append h
    obtain ⟨t, w, rfl, kind, -, hw⟩ := hu.cons
    exact .cons kind (hR.1 w hw) (ih hR.2 v hv)

theorem flatMap_joined {α : Type} (m : Punct) (shapes : α → List Token.Shape) (as : List α) :
    (as.map shapes).flatMap (mark m :: ·) = as.flatMap fun a => mark m :: shapes a :=
  List.flatMap_map ..

theorem listed_of_shaped {α β : Type} {R : List Token → β → Prop} {shapes : α → List Token.Shape}
    {f : α → β} {as : List α} (hne : as ≠ []) (hR : ∀ a ∈ as, ∀ u, Shaped u (shapes a) → R u (f a))
    (h : Shaped ts (joined .comma (as.map shapes))) : Listed R ts (as.map f) := by
  obtain ⟨a, as, rfl⟩ := List.exists_cons_of_ne_nil hne
  rw [List.forall_mem_cons] at hR
  obtain ⟨u, v, rfl, hu, hv⟩ := Shaped.append h
  rw [flatMap_joined] at hv
  exact .mk (hR.1 u hu) (repeats_of_shaped hR.2 v hv)

/-! ### Names -/

theorem ident_of_shaped {w : String} (hw : IsIdent w) (h : Shaped ts [word w]) : Ident ts w := by
  obtain ⟨t, rfl, kind, rfl⟩ := h.single
  exact .mk (kind.trans hw.kind)

theorem word_of_shaped {w : String} (h : Shaped ts [word w]) : Word ts w := by
  obtain ⟨t, rfl, kind, rfl⟩ := h.single
  exact .mk (by rw [kind]; exact Token.Kind.isWord_ofWord _)

theorem dotted_of_shaped {name : DottedName} (hn : name.Legible) (h : Shaped ts name.shapes) :
    Dotted ts name := by
  obtain ⟨w, ws, rfl⟩ := List.exists_cons_of_ne_nil hn.ne_nil
  have hws := List.forall_mem_cons.mp hn.ident
  obtain ⟨u, v, rfl, hu, hv⟩ := Shaped.append h
  rw [flatMap_joined] at hv
  obtain ⟨t, rfl, kind, rfl⟩ := hu.single
  have htail := repeats_of_shaped (R := Ident) (f := id)
    (fun w hw u hu => ident_of_shaped (hws.2 w hw) hu) v hv
  rw [List.map_id] at htail
  exact .mk (kind.trans hws.1.kind) htail

theorem typeName_of_shaped {name : ProtoSchema.TypeName} (hn : name.segments.Legible)
    (h : Shaped ts name.shapes) : TypeName ts name := by
  obtain ⟨absolute, segments⟩ := name
  obtain ⟨u, v, rfl, hu, hv⟩ := Shaped.append h
  cases absolute with
  | true =>
    obtain ⟨t, rfl, kind, -⟩ := hu.single
    exact .absolute kind (dotted_of_shaped hn hv)
  | false =>
    rw [Shaped.nil_iff.mp hu]
    exact .relative (dotted_of_shaped hn hv)

/-! ### Constants and options -/

/-- A word that is an identifier of its own. -/
theorem constant_of_word {w : String} (hw : Token.Kind.ofWord w = .ident) (h : Shaped ts [word w]) :
    Constant ts (.ident [w]) := by
  obtain ⟨t, rfl, kind, rfl⟩ := h.single
  exact .name (.mk (kind.trans hw) .nil)

/-- A sign and what stands behind it. -/
theorem constant_of_minus {c : ProtoSchema.Constant} {kind : Token.Kind} {text : String}
    (h : Shaped ts [mark .minus, (kind, text)])
    (hc : ∀ t : Token, t.kind = kind → t.text = text → Reader.signed true t = some c) :
    Constant ts c := by
  obtain ⟨m, u, rfl, minus, -, hu⟩ := h.cons
  obtain ⟨t, rfl, hkind, htext⟩ := hu.single
  exact .signed (by rw [Reader.constantStart, minus]) (hc t hkind htext)

theorem constant_of_whole {c : ProtoSchema.Constant} {kind : Token.Kind} {text : String}
    (h : Shaped ts [(kind, text)])
    (hc : ∀ t : Token, t.kind = kind → Reader.constantStart t = some (.whole c)) : Constant ts c := by
  obtain ⟨t, rfl, hkind, -⟩ := h.single
  exact .whole (hc t hkind)

theorem constant_of_binary64 {x : Binary64} (h : Shaped ts x.shapes) :
    Constant ts (ProtoSchema.Constant.float x).reread := by
  match x with
  | .nan => exact constant_of_word (by decide +kernel) h
  | .infinite false => exact constant_of_word (by decide +kernel) h
  | .infinite true =>
    refine constant_of_minus h fun t kind htext => ?_
    have hkind : t.kind = .ident := kind.trans (by decide +kernel)
    simp [Reader.signed, hkind, htext, Binary64.neg, ProtoSchema.Constant.reread]
  | .finite false m q =>
    exact constant_of_whole h fun t kind => by rw [Reader.constantStart, kind]; rfl
  | .finite true m q =>
    refine constant_of_minus h fun t kind _ => ?_
    simp [Reader.signed, kind, Binary64.neg, ProtoSchema.Constant.reread]

theorem constant_of_shaped {c : ProtoSchema.Constant} (hc : c.Legible) (h : Shaped ts c.shapes) :
    Constant ts c.reread := by
  cases c with
  | ident name => exact .name (dotted_of_shaped hc h)
  | int negative n =>
    cases negative with
    | true =>
      refine constant_of_minus h fun t kind _ => ?_
      simp [Reader.signed, kind, ProtoSchema.Constant.reread]
    | false => exact constant_of_whole h fun t kind => by rw [Reader.constantStart, kind]; rfl
  | float x => exact constant_of_binary64 h
  | string s => exact constant_of_whole h fun t kind => by rw [Reader.constantStart, kind]; rfl
  | bool b =>
    refine constant_of_whole h fun t kind => ?_
    rw [Reader.constantStart, kind]
    cases b <;> rfl

theorem root_of_shaped {root : OptionRoot} (hr : root.Legible) (h : Shaped ts root.shapes) :
    Root ts root := by
  cases root with
  | word w => exact .word (word_of_shaped h)
  | extension type =>
    obtain ⟨u, v, rfl, hu, hv⟩ := Shaped.append h
    obtain ⟨left, rfl, hleft, -⟩ := hu.single
    obtain ⟨w, x, rfl, hw, hx⟩ := hv.append
    obtain ⟨right, rfl, hright, -⟩ := hx.single
    exact .extension hleft (typeName_of_shaped hr hw) hright

theorem optionBody_of_shaped {o : OptionDecl} (ho : o.Legible) (h : Shaped ts o.shapes) :
    OptionBody ts o.reread := by
  obtain ⟨u, v, rfl, hu, hv⟩ := Shaped.append h
  obtain ⟨root, parts, rfl, hroot, hparts⟩ := Shaped.append hu
  obtain ⟨equals, value, rfl, hequals, hvalue⟩ := hv.append
  obtain ⟨equals, rfl, mark, -⟩ := hequals.single
  have hmore := repeats_of_shaped (R := Word) (f := id) (fun w _ u hu => word_of_shaped hu) parts hparts
  rw [List.map_id] at hmore
  rw [List.append_assoc]
  exact .mk (root_of_shaped ho.name.root hroot) hmore mark (constant_of_shaped ho.value hvalue)

theorem options_of_shaped {os : List OptionDecl} (ho : ∀ o ∈ os, o.Legible)
    (h : Shaped ts (OptionDecl.listShapes os)) : Options ts (os.map OptionDecl.reread) := by
  unfold OptionDecl.listShapes at h
  split at h
  · next hnil =>
    rw [Shaped.nil_iff.mp h, hnil]
    exact .none
  · next hne =>
    obtain ⟨u, v, rfl, hu, hv⟩ := h.append
    obtain ⟨left, rfl, hleft, -⟩ := hu.single
    obtain ⟨w, x, rfl, hw, hx⟩ := hv.append
    obtain ⟨right, rfl, hright, -⟩ := hx.single
    have hlist := listed_of_shaped (R := OptionBody) hne
      (fun o hmem u hu => optionBody_of_shaped (ho o hmem) hu) hw
    generalize os.map OptionDecl.reread = os' at hlist
    cases hlist with
    | mk head tail =>
      rw [List.append_assoc]
      exact .some hleft head tail hright

/-! ### Ranges, fields and values -/

theorem range_of_shaped {r : NumberRange} (h : Shaped ts r.shapes) : Range ts r := by
  obtain ⟨first, last⟩ := r
  unfold NumberRange.shapes at h
  split at h
  · next heq =>
    obtain ⟨t, rfl, kind, -⟩ := h.single
    cases heq
    exact .single kind
  · obtain ⟨t, u, rfl, kind, -, hu⟩ := h.cons
    obtain ⟨b, v, rfl, between, -, hv⟩ := hu.cons
    have between : b.kind = .keyword .rangeTo := between.trans (by decide +kernel)
    split at hv
    · next heq =>
      obtain ⟨w, rfl, hw, -⟩ := hv.single
      cases heq
      exact .unbounded kind between (hw.trans (by decide +kernel))
    · obtain ⟨w, rfl, hw, -⟩ := hv.single
      exact .bounded kind between hw

theorem ranges_of_shaped {rs : List NumberRange} (hne : rs ≠ [])
    (h : Shaped ts (joined .comma (rs.map NumberRange.shapes))) : Listed Range ts rs := by
  have hlist := listed_of_shaped (R := Range) (f := id) hne (fun r _ u hu => range_of_shaped hu) h
  rwa [List.map_id] at hlist

theorem strings_of_shaped {names : List String} (hne : names ≠ [])
    (h : Shaped ts (joined .comma (names.map fun s => [Token.Shape.string s]))) :
    Listed Str ts names := by
  have hlist := listed_of_shaped (R := Str) (f := id) hne (fun s _ u hu => by
    obtain ⟨t, rfl, kind, -⟩ := hu.single
    exact .mk kind) h
  rwa [List.map_id] at hlist

theorem fieldType_of_shaped {type : WrittenType} (ht : type.Legible) (h : Shaped ts type.shapes) :
    FieldType ts type := by
  cases type with
  | scalar s =>
    obtain ⟨t, rfl, kind, -⟩ := h.single
    exact .scalar (kind.trans (Token.Kind.ofWord_scalar s))
  | named name => exact .named (typeName_of_shaped ht h)

theorem front_of_shaped {form : FieldForm} {type : WrittenType} (ht : type.Legible)
    (hform : form ≠ .plain (some .required)) (h : Shaped ts (form.shapes type)) :
    Front ts form type := by
  match form with
  | .plain none => exact .plain (fieldType_of_shaped ht h)
  | .plain (some l) =>
    obtain ⟨u, v, rfl, hu, hv⟩ := Shaped.append h
    obtain ⟨t, rfl, kind, -⟩ := hu.single
    exact .label (kind.trans (Token.Kind.ofWord_label l)) (by simpa using hform)
      (fieldType_of_shaped ht hv)
  | .map key =>
    obtain ⟨t, u₁, rfl, kind, -, h₁⟩ := Shaped.cons h
    obtain ⟨left, u₂, rfl, opening, -, h₂⟩ := h₁.cons
    obtain ⟨k, u₃, rfl, scalar, -, h₃⟩ := h₂.cons
    obtain ⟨comma, u₄, rfl, between, -, h₄⟩ := h₃.cons
    obtain ⟨v, w, rfl, hv, hright⟩ := Shaped.append (s := type.shapes) h₄
    obtain ⟨right, rfl, closing, -⟩ := hright.single
    exact .map (kind.trans Token.Kind.ofWord_map) opening
      (scalar.trans (Token.Kind.ofWord_scalar key)) between (fieldType_of_shaped ht hv) closing

/-- A field and its semicolon behind the type. -/
theorem fieldTail_of_shaped {f : FieldDecl} (hf : f.Legible)
    (h : Shaped ts ([word f.name.value] ++ ([mark .equals] ++
      ([.int f.number.value] ++ OptionDecl.listShapes f.options)) ++ [mark .semicolon])) :
    FieldTail ts f.name.value f.number.value (f.options.map OptionDecl.reread) := by
  obtain ⟨u, v, rfl, hu, hv⟩ := h.append
  obtain ⟨name, u, rfl, ident, hname, hu⟩ := hu.cons
  obtain ⟨equals, u, rfl, mark, -, hu⟩ := hu.cons
  obtain ⟨number, u, rfl, int, -, hu⟩ := hu.cons
  obtain ⟨semicolon, rfl, stop, -⟩ := hv.single
  rw [← hname]
  exact .mk (ident.trans hf.name.kind) mark int (options_of_shaped hf.options hu) stop

theorem number_of_shaped {n : ℤ}
    (h : Shaped ts ((if n < 0 then [mark .minus] else []) ++ [.int n.natAbs])) : Number ts n := by
  obtain ⟨u, v, rfl, hu, hv⟩ := h.append
  obtain ⟨t, rfl, int, -⟩ := hv.single
  split at hu
  · next hneg =>
    obtain ⟨m, rfl, minus, -⟩ := hu.single
    have hn : n = -(n.natAbs : ℤ) := by omega
    rw [hn]
    exact .negative minus int
  · next hneg =>
    rw [Shaped.nil_iff.mp hu]
    have hn : n = (n.natAbs : ℤ) := by omega
    rw [hn]
    exact .positive int

end Spelling

end ProtoSchema

import ProtoSchema.Proofs.Event.Taking
import ProtoSchema.Proofs.Token.Texts

/-! # Tokens that spell values

For each part of a statement there is a relation between tokens and the value that they spell.  The
reader of the part takes tokens that spell its value, and it reads the value off any tokens that spell
it, if what follows does not go on with it.  A number that is out of bounds is spelled as well, but it is
not read. -/

namespace ProtoSchema

open Reader

namespace Spelling

/-- An identifier. -/
inductive Ident : List Token → String → Prop
  | mk {t} (kind : t.kind = .ident) : Ident [t] t.text

/-- Any word, reserved or not. -/
inductive Word : List Token → String → Prop
  | mk {t} (kind : t.kind.isWord = true) : Word [t] t.text

inductive Str : List Token → String → Prop
  | mk {t s} (kind : t.kind = .string s) : Str [t] s

inductive Dotted : List Token → DottedName → Prop
  | mk {t u more} (head : t.kind = .ident) (tail : Repeats .dot Ident u more) :
      Dotted (t :: u) (t.text :: more)

inductive TypeName : List Token → ProtoSchema.TypeName → Prop
  | absolute {t u name} (dot : t.kind = .punct .dot) (segments : Dotted u name) :
      TypeName (t :: u) ⟨true, name⟩
  | relative {u name} (segments : Dotted u name) : TypeName u ⟨false, name⟩

inductive Constant : List Token → ProtoSchema.Constant → Prop
  | whole {t c} (all : constantStart t = some (.whole c)) : Constant [t] c
  | signed {t u negative c} (sign : constantStart t = some (.sign negative))
      (number : Reader.signed negative u = some c) : Constant [t, u] c
  | name {u name} (segments : Dotted u name) : Constant u (.ident name)

inductive Root : List Token → OptionRoot → Prop
  | extension {t u v name} (left : t.kind = .punct .leftParen) (type : TypeName u name)
      (right : v.kind = .punct .rightParen) : Root (t :: (u ++ [v])) (.extension name)
  | word {u w} (any : Word u w) : Root u (.word w)

inductive OptionBody : List Token → OptionDecl → Prop
  | mk {u v t w root parts c} (first : Root u root) (more : Repeats .dot Word v parts)
      (equals : t.kind = .punct .equals) (value : Constant w c) :
      OptionBody (u ++ (v ++ (t :: w))) ⟨⟨root, parts⟩, c⟩

/-- Options in brackets, or none. -/
inductive Options : List Token → List OptionDecl → Prop
  | none : Options [] []
  | some {t u v w o os} (left : t.kind = .punct .leftBracket) (head : OptionBody u o)
      (tail : Repeats .comma OptionBody v os) (right : w.kind = .punct .rightBracket) :
      Options (t :: (u ++ (v ++ [w]))) (o :: os)

inductive FieldType : List Token → WrittenType → Prop
  | scalar {t s} (kind : t.kind = .scalar s) : FieldType [t] (.scalar s)
  | named {u name} (type : TypeName u name) : FieldType u (.named name)

/-- A range with its ends, which may be out of order or out of bounds. -/
inductive Range : List Token → NumberRange → Prop
  | single {t n} (first : t.kind = .int n) : Range [t] ⟨n, n⟩
  | bounded {t u v n m} (first : t.kind = .int n) (between : u.kind = .keyword .rangeTo)
      (last : v.kind = .int m) : Range [t, u, v] ⟨n, m⟩
  | unbounded {t u v n} (first : t.kind = .int n) (between : u.kind = .keyword .rangeTo)
      (last : v.kind = .keyword .max) : Range [t, u, v] ⟨n, FieldNumber.max⟩

theorem Range.first_eq {t : Token} {u : List Token} {r : NumberRange} (h : Range (t :: u) r) :
    t.kind = .int r.first := by
  cases h <;> assumption

/-- What stands behind the first number of a range. -/
theorem Range.behind {t : Token} {u : List Token} {r : NumberRange} (h : Range (t :: u) r) :
    u = [] ∧ r.last = r.first ∨ ∃ b v, u = [b, v] ∧ b.kind = .keyword .rangeTo ∧
      (v.kind = .int r.last ∨ v.kind = .keyword .max ∧ r.last = FieldNumber.max) := by
  cases h with
  | single => exact .inl ⟨rfl, rfl⟩
  | bounded _ between last => exact .inr ⟨_, _, rfl, between, .inl last⟩
  | unbounded _ between last => exact .inr ⟨_, _, rfl, between, .inr ⟨last, rfl⟩⟩

/-- One or more values with commas between them. -/
inductive Listed {α : Type} (R : List Token → α → Prop) : List Token → List α → Prop
  | mk {u v a as} (head : R u a) (tail : Repeats .comma R v as) : Listed R (u ++ v) (a :: as)

end Spelling

namespace Reader

open Spelling (Ident Word Str Dotted)

variable {u v rest : List Token} {t : Token} {c : Construct}

/-! ### Names -/

theorem yields_ident_spelling (c : Construct) : Yields (ident c) fun u name => Ident u name.value := by
  refine yields_bind yields_refuse fun _ _ hu => ?_
  subst hu
  refine yields_take.mono fun u name h => ?_
  obtain ⟨t, rfl, ht⟩ := h
  obtain ⟨hkind, rfl⟩ := identText_eq_some_iff.mp ht
  exact .mk hkind

theorem reservedFault_eq_none (h : t.kind = .ident) : reservedFault t = none := by
  rw [reservedFault, h]
  rfl

theorem reads_ident (h : t.kind = .ident) : Reads (ident c) [t] rest (· = ⟨t.text, t.span⟩) := by
  refine reads_nil (reads_refuse fun t' ht => ?_) fun _ _ =>
    reads_take (identText_eq_some_iff.mpr ⟨h, rfl⟩)
  cases ht
  exact reservedFault_eq_none h

theorem reads_ident_spelling {w : String} (h : Ident u w) :
    Reads (ident c) u rest fun name => name.value = w := by
  cases h with
  | mk kind => exact (reads_ident kind).mono fun name hname => by rw [hname]

/-- Values that are spelled alike are the same but for their places. -/
theorem map_value_eq_of_forall₂ {α : Type} {values : List α} {as : List (Located α)}
    (h : List.Forall₂ (fun value (a : Located α) => a.value = value) values as) :
    as.map Located.value = values := by
  induction h with
  | nil => rfl
  | cons head _ ih => rw [List.map_cons, head, ih]

theorem Repeats.map {α β : Type} {m : Punct} {R : List Token → α → Prop} {S : List Token → β → Prop}
    {f : α → β} (hf : ∀ u a, R u a → S u (f a)) {as : List α} (h : Repeats m R u as) :
    Repeats m S u (as.map f) := by
  induction h with
  | nil => exact .nil
  | cons between head _ ih => exact .cons between (hf _ _ head) ih

theorem yields_dottedFrom (c : Construct) (first : Located String) :
    Yields (dottedFrom c first) fun u name =>
      ∃ more, Repeats .dot Ident u more ∧ name.value = first.value :: more := by
  refine yields_bind (yields_repeatAfter (yields_ident_spelling c)) fun u more h => yields_pure ?_
  rw [List.append_nil]
  exact ⟨_, h.map (f := Located.value) fun _ _ hu => hu, rfl⟩

theorem reads_dottedFrom {first : Located String} {more : List String}
    (h : Repeats .dot Ident u more) (hrest : Avoids (.punct .dot) rest) :
    Reads (dottedFrom c first) u rest fun name => name.value = first.value :: more := by
  refine reads_map (reads_repeatAfter (F := fun _ => True) (fun _ _ _ hu _ => reads_ident_spelling hu)
    (fun _ _ _ => trivial) trivial hrest h) fun as has => ?_
  rw [map_value_eq_of_forall₂ has]

theorem yields_dotted (c : Construct) : Yields (dotted c) fun u name => Dotted u name.value := by
  refine yields_bind (yields_ident_spelling c) fun u first hu => ?_
  refine (yields_dottedFrom c first).mono fun v name h => ?_
  obtain ⟨more, hv, hname⟩ := h
  rw [hname]
  generalize first.value = w at hu
  cases hu with
  | mk kind => exact .mk kind hv

theorem reads_dotted {name : DottedName} (h : Dotted u name) (hrest : Avoids (.punct .dot) rest) :
    Reads (dotted c) u rest fun a => a.value = name := by
  cases h with
  | mk head tail =>
    refine reads_cons (reads_ident head) fun first hfirst => ?_
    subst hfirst
    exact reads_dottedFrom tail hrest

theorem typeNameStart_of_dot (h : t.kind = .punct .dot) : typeNameStart t = some (.dot t.span) := by
  rw [typeNameStart, isPunct_eq_some h]

theorem typeNameStart_of_ident (h : t.kind = .ident) :
    typeNameStart t = some (.ident ⟨t.text, t.span⟩) := by
  rw [typeNameStart, isPunct_eq_none (by rw [h]; exact Token.Kind.noConfusion),
    identText_eq_some_iff.mpr ⟨h, rfl⟩]
  rfl

/-- The token that a type name begins with. -/
theorem typeNameStart_eq_some {start : TypeNameStart} (h : typeNameStart t = some start) :
    t.kind = .punct .dot ∧ start = .dot t.span ∨ t.kind = .ident ∧ start = .ident ⟨t.text, t.span⟩ := by
  unfold typeNameStart isPunct at h
  split at h
  · next span hs =>
    split at hs
    · next hkind =>
      cases hs
      cases h
      exact .inl ⟨hkind, rfl⟩
    · cases hs
  · obtain ⟨name, hn, rfl⟩ := Option.map_eq_some_iff.mp h
    obtain ⟨hkind, rfl⟩ := identText_eq_some_iff.mp hn
    exact .inr ⟨hkind, rfl⟩

theorem yields_typeNameFrom_spelling (c : Construct) {start : TypeNameStart}
    (h : typeNameStart t = some start) :
    Yields (typeNameFrom c start) fun u name => Spelling.TypeName (t :: u) name.value := by
  rcases typeNameStart_eq_some h with ⟨hkind, rfl⟩ | ⟨hkind, rfl⟩
  · refine yields_bind (yields_dotted c) fun u name hu => yields_pure ?_
    rw [List.append_nil]
    exact .absolute hkind hu
  · refine yields_bind (yields_dottedFrom c _) fun u name hu => yields_pure ?_
    obtain ⟨more, hu, hname⟩ := hu
    rw [List.append_nil, hname]
    exact .relative (.mk hkind hu)

theorem yields_typeName_spelling (c : Construct) :
    Yields (typeName c) fun u name => Spelling.TypeName u name.value := by
  refine yields_bind yields_refuse fun _ _ hu => ?_
  subst hu
  refine yields_bind yields_take fun u start h => ?_
  obtain ⟨t, rfl, ht⟩ := h
  exact yields_typeNameFrom_spelling c ht

/-- The first token of a type name, and what is read behind it. -/
theorem exists_typeNameStart {name : ProtoSchema.TypeName} (h : Spelling.TypeName u name) :
    ∃ t v start, u = t :: v ∧ (t.kind = .punct .dot ∨ t.kind = .ident) ∧
      typeNameStart t = some start ∧ ∀ {c rest}, Avoids (.punct .dot) rest →
        Reads (typeNameFrom c start) v rest fun a => a.value = name := by
  cases h with
  | absolute dot segments =>
    refine ⟨_, _, _, rfl, .inl dot, typeNameStart_of_dot dot, fun hrest => ?_⟩
    exact reads_map (reads_dotted segments hrest) fun a ha => by rw [ha]
  | relative segments =>
    cases segments with
    | mk head tail =>
      refine ⟨_, _, _, rfl, .inr head, typeNameStart_of_ident head, fun hrest => ?_⟩
      exact reads_map (reads_dottedFrom tail hrest) fun a ha => by rw [ha]

theorem reads_typeName {name : ProtoSchema.TypeName} (h : Spelling.TypeName u name)
    (hrest : Avoids (.punct .dot) rest) :
    Reads (typeName c) u rest fun a => a.value = name := by
  obtain ⟨t, v, start, rfl, hkind, hstart, hreads⟩ := exists_typeNameStart h
  refine reads_nil (reads_refuse fun t' ht => ?_) fun _ _ =>
    reads_cons (reads_take hstart) fun a ha => ?_
  · cases ht
    rcases hkind with hkind | hkind <;> rw [reservedFault, hkind] <;> rfl
  · subst ha
    exact hreads hrest

/-! ### Literals -/

theorem yields_string (c : Construct) : Yields (string c) fun u s => Str u s.value := by
  refine yields_take.mono fun u s h => ?_
  obtain ⟨t, rfl, ht⟩ := h
  split at ht
  · next kind =>
    cases ht
    exact .mk kind
  · cases ht

theorem reads_string {s : String} (h : t.kind = .string s) :
    Reads (string c) [t] rest (· = ⟨s, t.span⟩) :=
  reads_take (by rw [h])

theorem yields_int (c : Construct) :
    Yields (int c) fun u n => ∃ t, u = [t] ∧ t.kind = .int n.value := by
  refine yields_take.mono fun u n h => ?_
  obtain ⟨t, rfl, ht⟩ := h
  split at ht
  · next kind =>
    cases ht
    exact ⟨t, rfl, kind⟩
  · cases ht

theorem reads_int {n : Nat} (h : t.kind = .int n) : Reads (int c) [t] rest (· = ⟨n, t.span⟩) :=
  reads_take (by rw [h])

theorem constantStart_eq_ident {first : Located String} :
    constantStart t = some (.ident first) ↔ t.kind = .ident ∧ first = ⟨t.text, t.span⟩ := by
  unfold constantStart
  split <;> simp_all [eq_comm]

theorem yields_constant (c : Construct) : Yields (constant c) Spelling.Constant := by
  refine yields_bind yields_take fun u start h => ?_
  obtain ⟨t, rfl, ht⟩ := h
  cases start with
  | whole value => exact yields_pure (.whole ht)
  | sign negative =>
    refine yields_take.mono fun v value hv => ?_
    obtain ⟨t', rfl, ht'⟩ := hv
    exact .signed ht ht'
  | ident first =>
    obtain ⟨hkind, rfl⟩ := constantStart_eq_ident.mp ht
    refine yields_bind (yields_dottedFrom c _) fun v name hv => yields_pure ?_
    obtain ⟨more, hv, hname⟩ := hv
    rw [List.append_nil, hname]
    exact .name (.mk hkind hv)

theorem reads_constant {value : Constant} (h : Spelling.Constant u value)
    (hrest : Avoids (.punct .dot) rest) : Reads (constant c) u rest (· = value) := by
  cases h with
  | whole all =>
    refine reads_cons (reads_take all) fun start hstart => ?_
    subst hstart
    exact reads_pure rfl
  | signed sign number =>
    refine reads_cons (reads_take sign) fun start hstart => ?_
    subst hstart
    exact reads_take number
  | name segments =>
    cases segments with
    | mk head tail =>
      refine reads_cons (reads_take (constantStart_eq_ident.mpr ⟨head, rfl⟩)) fun start hstart => ?_
      subst hstart
      exact reads_map (reads_dottedFrom tail hrest) fun name hname => by rw [hname]

/-! ### Options -/

theorem yields_optionWord (c : Construct) : Yields (optionWord c) Word := by
  refine yields_take.mono fun u w h => ?_
  obtain ⟨t, rfl, ht⟩ := h
  split at ht
  · next kind =>
    cases ht
    exact .mk kind
  · cases ht

theorem reads_optionWord {w : String} (h : Word u w) : Reads (optionWord c) u rest (· = w) := by
  cases h with
  | mk kind => exact reads_take (if_pos kind)

theorem yields_punct (c : Construct) (p : Punct) :
    Yields (punct c p) fun u _ => ∃ t, u = [t] ∧ t.kind = .punct p := by
  refine yields_take.mono fun u span h => ?_
  obtain ⟨t, rfl, ht⟩ := h
  unfold isPunct at ht
  split at ht
  · next kind => exact ⟨t, rfl, kind⟩
  · cases ht

theorem yields_punct? (p : Punct) : Yields (punct? p) fun u b =>
    u = [] ∧ b = false ∨ ∃ t, u = [t] ∧ t.kind = .punct p ∧ b = true := by
  refine yields_bind yields_take? fun u a h => yields_pure ?_
  rcases h with ⟨rfl, rfl⟩ | ⟨t, b, rfl, ht, rfl⟩
  · exact .inl ⟨rfl, rfl⟩
  · unfold isPunct at ht
    split at ht
    · next kind => exact .inr ⟨t, rfl, kind, rfl⟩
    · cases ht

theorem yields_optionRoot (c : Construct) : Yields (optionRoot c) Spelling.Root := by
  refine yields_bind (yields_punct? _) fun u b h => ?_
  rcases h with ⟨rfl, rfl⟩ | ⟨t, rfl, left, rfl⟩
  · refine yields_bind (yields_optionWord c) fun v w hv => yields_pure ?_
    rw [List.append_nil]
    exact .word hv
  · refine yields_bind (yields_typeName_spelling c) fun v name hv => ?_
    refine yields_bind (yields_punct c _) fun w _ hw => yields_pure ?_
    obtain ⟨t', rfl, right⟩ := hw
    exact .extension left hv right

theorem not_isWord_punct (p : Punct) : (Token.Kind.punct p).isWord = false := rfl

theorem reads_optionRoot {root : OptionRoot} (h : Spelling.Root u root) :
    Reads (optionRoot c) u rest (· = root) := by
  cases h with
  | extension left type right =>
    refine reads_cons (reads_punct?_true left) fun b hb => ?_
    subst hb
    refine reads_bind (reads_typeName type ?_) fun name hname => ?_
    · rw [List.singleton_append, avoids_cons, right]
      exact fun h => by cases h
    · exact reads_cons (v := []) (reads_punct right) fun _ _ => reads_pure (by rw [hname])
  | word any =>
    refine reads_nil (reads_punct?_false ?_) fun b hb => ?_
    · cases any with
      | mk kind =>
        rw [List.singleton_append, avoids_cons]
        intro h
        rw [h, not_isWord_punct] at kind
        cases kind
    · subst hb
      exact reads_map (reads_optionWord any) fun w hw => by rw [hw]

theorem yields_optionDecl (c : Construct) : Yields (optionDecl c) Spelling.OptionBody := by
  refine yields_bind (yields_optionRoot c) fun u root hu => ?_
  refine yields_bind (yields_repeatAfter (yields_optionWord c)) fun v parts hv => ?_
  refine yields_bind (yields_punct c _) fun w _ hw => ?_
  obtain ⟨t, rfl, equals⟩ := hw
  refine yields_bind (yields_constant c) fun w value hw => yields_pure ?_
  rw [List.append_nil]
  exact .mk hu hv equals hw

theorem reads_optionDecl {o : OptionDecl} (h : Spelling.OptionBody u o)
    (hrest : Avoids (.punct .dot) rest) : Reads (optionDecl c) u rest (· = o) := by
  cases h with
  | mk first more equals value =>
    refine reads_bind (reads_optionRoot first) fun root hroot => ?_
    refine reads_bind (reads_repeatAfter_eq (F := fun _ => True) (fun _ _ _ hu _ =>
      reads_optionWord hu) (fun _ _ _ => trivial) trivial ?_ more) fun parts hparts => ?_
    · rw [List.cons_append, avoids_cons, equals]
      exact fun h => by cases h
    · refine reads_cons (reads_punct equals) fun _ _ => ?_
      refine reads_map (reads_constant value hrest) fun c hc => ?_
      rw [hroot, hparts, hc]

theorem yields_options (c : Construct) : Yields (options c) Spelling.Options := by
  refine yields_bind (yields_punct? _) fun u b h => ?_
  rcases h with ⟨rfl, rfl⟩ | ⟨t, rfl, left, rfl⟩
  · exact yields_pure .none
  · refine yields_bind (yields_optionDecl c) fun u o hu => ?_
    refine yields_bind (yields_repeatAfter (yields_optionDecl c)) fun v os hv => ?_
    refine yields_bind (yields_punct c _) fun w _ hw => yields_pure ?_
    obtain ⟨t', rfl, right⟩ := hw
    exact .some left hu hv right

theorem reads_options {os : List OptionDecl} (h : Spelling.Options u os)
    (hrest : Avoids (.punct .leftBracket) rest) : Reads (options c) u rest (· = os) := by
  cases h with
  | none =>
    refine reads_nil (v := []) (reads_punct?_false hrest) fun b hb => ?_
    subst hb
    exact reads_pure rfl
  | @some t u v w o os left head tail right =>
    have hright : ∀ k, k ≠ .punct .rightBracket → Avoids k ([w] ++ rest) := by
      intro k hk
      rw [List.singleton_append, avoids_cons, right]
      exact Ne.symm hk
    refine reads_cons (reads_punct?_true left) fun b hb => ?_
    subst hb
    refine reads_bind (reads_optionDecl head ?_) fun first hfirst => ?_
    · rw [List.append_assoc]
      cases tail with
      | nil => exact hright _ (by simp)
      | cons between =>
        rw [List.cons_append, avoids_cons, between]
        exact fun h => by cases h
    · refine reads_bind (reads_repeatAfter_eq (fun _ _ _ hu hrest => reads_optionDecl hu hrest) ?_
        (hright _ (by simp)) (hright _ (by simp)) tail) fun more hmore => ?_
      · intro t ts ht
        rw [avoids_cons, ht]
        exact fun h => by cases h
      · exact reads_cons (v := []) (reads_punct right) fun _ _ =>
          reads_pure (by rw [hfirst, hmore])

/-! ### Types of fields -/

/-- The first token of the type of a field, and what is read behind it. -/
theorem exists_fieldTypeStart {type : WrittenType} (h : Spelling.FieldType u type) :
    ∃ t v start, u = t :: v ∧ fieldTypeStart t = some start ∧
      ((∃ s, t.kind = .scalar s) ∨ t.kind = .punct .dot ∨ t.kind = .ident) ∧
      ∀ {c rest}, Avoids (.punct .dot) rest →
        Reads (fieldTypeFrom c start) v rest fun a => a.value = type := by
  cases h with
  | @scalar t s kind =>
    have hstart : fieldTypeStart t = some (.scalar ⟨s, t.span⟩) := by rw [fieldTypeStart, kind]
    exact ⟨t, [], _, rfl, hstart, .inl ⟨s, kind⟩, fun _ => reads_pure rfl⟩
  | named type =>
    obtain ⟨t, v, start, rfl, hkind, hstart, hreads⟩ := exists_typeNameStart type
    have hnamed : fieldTypeStart t = some (.named start) := by
      unfold fieldTypeStart
      split
      · next s hs => rcases hkind with hkind | hkind <;> simp [hs] at hkind
      · rw [hstart]
        rfl
    refine ⟨t, v, _, rfl, hnamed, .inr hkind, fun hrest => ?_⟩
    exact reads_map (hreads hrest) fun a ha => by rw [ha]

theorem reads_fieldType {type : WrittenType} (h : Spelling.FieldType u type)
    (hrest : Avoids (.punct .dot) rest) :
    Reads (fieldType c) u rest fun a => a.value = type := by
  obtain ⟨t, v, start, rfl, hstart, -, hreads⟩ := exists_fieldTypeStart h
  refine reads_cons (reads_take hstart) fun a ha => ?_
  subst ha
  exact hreads hrest

theorem yields_fieldTypeFrom_spelling (c : Construct) {start : FieldTypeStart}
    (h : fieldTypeStart t = some start) :
    Yields (fieldTypeFrom c start) fun u type => Spelling.FieldType (t :: u) type.value := by
  unfold fieldTypeStart at h
  split at h
  · next s kind =>
    cases h
    exact yields_pure (.scalar kind)
  · obtain ⟨start, hs, rfl⟩ := Option.map_eq_some_iff.mp h
    refine yields_bind (yields_typeNameFrom_spelling c hs) fun u name hu => yields_pure ?_
    rw [List.append_nil]
    exact .named hu

theorem yields_fieldType_spelling (c : Construct) :
    Yields (fieldType c) fun u type => Spelling.FieldType u type.value := by
  refine yields_bind yields_take fun u start h => ?_
  obtain ⟨t, rfl, ht⟩ := h
  exact yields_fieldTypeFrom_spelling c ht

theorem yields_mapKey :
    Yields mapKey fun u s => ∃ t, u = [t] ∧ t.kind = .scalar s ∧ s.isMapKey = true := by
  refine yields_bind yields_take fun u start h => ?_
  obtain ⟨t, rfl, ht⟩ := h
  refine yields_bind (yields_fieldTypeFrom_spelling _ ht) fun v type hv => ?_
  split
  · next s hs =>
    split
    · next hkey =>
      refine yields_pure ?_
      rw [hs] at hv
      cases hv with
      | scalar kind => exact ⟨t, rfl, kind, hkey⟩
    · exact yields_fail
  · exact yields_fail

theorem reads_mapKey {s : Scalar} (h : t.kind = .scalar s) (hkey : s.isMapKey = true) :
    Reads mapKey [t] rest (· = s) := by
  have hstart : fieldTypeStart t = some (.scalar ⟨s, t.span⟩) := by rw [fieldTypeStart, h]
  refine reads_cons (v := []) (reads_take hstart) fun a ha => ?_
  subst ha
  refine reads_nil (v := []) (reads_pure (φ := (· = (⟨.scalar s, t.span⟩ : Located WrittenType))) rfl)
    fun type htype => ?_
  subst htype
  show Reads (if s.isMapKey then pure s else fail (.invalidMapKey s.name t.span)) [] rest _
  rw [if_pos hkey]
  exact reads_pure rfl

/-! ### Numbers -/

theorem yields_validNumber (n : Located Nat) : Yields (validNumber n) fun u m =>
    u = [] ∧ m = n ∧ FieldNumber.isValid n.value = true := by
  unfold validNumber
  split
  · next h => exact yields_pure ⟨rfl, rfl, h⟩
  · exact yields_fail

theorem reads_validNumber {n : Located Nat} (hvalid : FieldNumber.isValid n.value = true) :
    Reads (validNumber n) [] rest (· = n) := by
  rw [validNumber, if_pos hvalid]
  exact reads_pure rfl

theorem yields_fieldNumber (c : Construct) : Yields (fieldNumber c) fun u n =>
    ∃ t, u = [t] ∧ t.kind = .int n.value ∧ FieldNumber.isValid n.value = true := by
  refine yields_bind (yields_int c) fun u n h => (yields_validNumber n).mono fun v m hm => ?_
  obtain ⟨t, rfl, kind⟩ := h
  obtain ⟨rfl, rfl, hvalid⟩ := hm
  exact ⟨t, rfl, kind, hvalid⟩

theorem reads_fieldNumber {n : Nat} (h : t.kind = .int n)
    (hvalid : FieldNumber.isValid n = true) :
    Reads (fieldNumber c) [t] rest fun a => a.value = n := by
  refine reads_cons (v := []) (reads_int h) fun a ha => ?_
  subst ha
  exact (reads_validNumber hvalid).mono fun m hm => by rw [hm]

theorem isKeyword_eq_some {k : Keyword} (h : t.kind = .keyword k) : isKeyword k t = some t.span :=
  if_pos h

theorem isKeyword_eq_none {k : Keyword} (h : t.kind ≠ .keyword k) : isKeyword k t = none :=
  if_neg h

/-- The last number of a range, in its bounds. -/
theorem yields_rangeEnd (c : Construct) : Yields (rangeEnd c) fun u m =>
    (∃ t, u = [t] ∧ (t.kind = .int m.value ∨ t.kind = .keyword .max ∧ m.value = FieldNumber.max)) ∧
      m.value ≤ FieldNumber.max := by
  refine yields_bind yields_take? fun u max hmax => ?_
  rcases hmax with ⟨rfl, rfl⟩ | ⟨t, span, rfl, ht, rfl⟩
  · refine yields_bind (yields_int c) fun u m hm => ?_
    obtain ⟨t, rfl, kind⟩ := hm
    split
    · next hle => exact yields_pure ⟨⟨t, rfl, .inl kind⟩, hle⟩
    · exact yields_fail
  · unfold isKeyword at ht
    split at ht
    · next kind => exact yields_pure ⟨⟨t, rfl, .inr ⟨kind, rfl⟩⟩, le_refl _⟩
    · cases ht

/-- A range behind its first number. -/
theorem yields_rangeFrom (c : Construct) {n : Located Nat} (h : t.kind = .int n.value) :
    Yields (rangeFrom c n) fun u r => Spelling.Range (t :: u) r ∧ r.Legible := by
  refine yields_bind (yields_validNumber n) fun u first hfirst => ?_
  obtain ⟨rfl, rfl, hvalid⟩ := hfirst
  -- whether its last number is written or not, the range has the right bounds
  have hlast : ∀ (u : List Token) (last : Located Nat),
      Spelling.Range (t :: u) ⟨first.value, last.value⟩ → last.value ≤ FieldNumber.max →
      Yields (if first.value ≤ last.value then pure ⟨first.value, last.value⟩
        else fail (.invalidRange (first.span.join last.span)))
        fun v r => Spelling.Range (t :: (u ++ v)) r ∧ r.Legible := by
    intro u last hr hmax
    split
    · next hle =>
      refine yields_pure ?_
      rw [List.append_nil]
      exact ⟨hr, hvalid, hle, hmax⟩
    · exact yields_fail
  refine yields_bind yields_take? fun u between hbetween => ?_
  rcases hbetween with ⟨rfl, rfl⟩ | ⟨t', span, rfl, ht', rfl⟩
  · exact hlast [] first (.single h) (FieldNumber.le_max_of_isValid hvalid)
  · unfold isKeyword at ht'
    split at ht'
    · next between =>
      refine yields_bind (yields_rangeEnd c) fun u last hu => ?_
      obtain ⟨⟨t'', rfl, hend⟩, hmax⟩ := hu
      refine hlast [t', t''] last ?_ hmax
      rcases hend with kind | ⟨kind, heq⟩
      · exact .bounded h between kind
      · rw [heq]
        exact .unbounded h between kind
    · cases ht'

theorem reads_rangeEnd {m : Nat}
    (h : t.kind = .int m ∨ t.kind = .keyword .max ∧ m = FieldNumber.max)
    (hmax : m ≤ FieldNumber.max) :
    Reads (rangeEnd c) [t] rest fun a => a.value = m := by
  rcases h with kind | ⟨kind, rfl⟩
  · have hnot : ∀ t' ∈ ([t] ++ rest).head?, isKeyword .max t' = none := by
      intro t' ht'
      cases ht'
      exact isKeyword_eq_none (by rw [kind]; exact Token.Kind.noConfusion)
    refine reads_nil (v := [t]) (reads_take?_none hnot) fun a ha => ?_
    subst ha
    refine reads_cons (v := []) (reads_int kind) fun a ha => ?_
    subst ha
    show Reads (if m ≤ FieldNumber.max then pure _ else fail _) [] rest _
    rw [if_pos hmax]
    exact reads_pure rfl
  · refine reads_cons (v := []) (reads_take?_some (isKeyword_eq_some kind)) fun a ha => ?_
    subst ha
    exact reads_pure rfl

theorem reads_rangeFrom {n : Located Nat} {r : NumberRange} (h : Spelling.Range (t :: u) r)
    (hn : n.value = r.first) (hrest : Avoids (.keyword .rangeTo) rest)
    (legible : r.Legible) : Reads (rangeFrom c n) u rest (· = r) := by
  have hvalid : FieldNumber.isValid n.value = true := by
    rw [hn]
    exact legible.first
  have hlast : ∀ last : Located Nat, last.value = r.last →
      Reads (if n.value ≤ last.value then pure (⟨n.value, last.value⟩ : NumberRange)
        else fail (.invalidRange (n.span.join last.span))) [] rest (· = r) := by
    intro last hlast
    rw [hn, hlast, if_pos legible.ordered]
    exact reads_pure rfl
  refine reads_nil (reads_validNumber hvalid) fun first hfirst => ?_
  subst hfirst
  rcases h.behind with ⟨rfl, heq⟩ | ⟨b, v, rfl, between, hv⟩
  · refine reads_nil (v := []) (reads_take?_none fun t' ht' => isKeyword_eq_none (hrest t' ht'))
      fun span? hspan => ?_
    subst hspan
    exact hlast first (hn.trans heq.symm)
  · refine reads_cons (reads_take?_some (isKeyword_eq_some between)) fun span? hspan => ?_
    subst hspan
    exact reads_cons (v := []) (reads_rangeEnd hv legible.last) hlast

theorem yields_range (c : Construct) :
    Yields (range c) fun u r => Spelling.Range u r ∧ r.Legible := by
  refine yields_bind (yields_int c) fun u n h => ?_
  obtain ⟨t, rfl, kind⟩ := h
  exact yields_rangeFrom c kind

theorem reads_range {r : NumberRange} (h : Spelling.Range u r ∧ r.Legible)
    (hrest : Avoids (.keyword .rangeTo) rest) : Reads (range c) u rest (· = r) := by
  obtain ⟨h, legible⟩ := h
  obtain ⟨t, v, rfl⟩ : ∃ t v, u = t :: v := by cases h <;> exact ⟨_, _, rfl⟩
  refine reads_cons (reads_int h.first_eq) fun n hn => ?_
  subst hn
  exact reads_rangeFrom h rfl hrest legible

theorem Repeats.and_iff {α : Type} {m : Punct} {R : List Token → α → Prop} {P : α → Prop}
    {as : List α} : Repeats m (fun u a => R u a ∧ P a) u as ↔ Repeats m R u as ∧ ∀ a ∈ as, P a := by
  constructor
  · intro h
    induction h with
    | nil => exact ⟨.nil, List.forall_mem_nil _⟩
    | cons between head _ ih => exact ⟨.cons between head.1 ih.1, List.forall_mem_cons.mpr ⟨head.2, ih.2⟩⟩
  · rintro ⟨h, hP⟩
    induction h with
    | nil => exact .nil
    | cons between head _ ih =>
      rw [List.forall_mem_cons] at hP
      exact .cons between ⟨head, hP.1⟩ (ih hP.2)

theorem yields_rangesFrom (c : Construct) {n : Located Nat} (h : t.kind = .int n.value) :
    Yields (rangesFrom c n) fun u rs =>
      Spelling.Listed Spelling.Range (t :: u) rs ∧ ∀ r ∈ rs, r.Legible := by
  refine yields_bind (yields_rangeFrom c h) fun u r hu => ?_
  refine yields_bind (yields_repeatAfter (yields_range c)) fun v rs hv => yields_pure ?_
  obtain ⟨hv, hlegible⟩ := Repeats.and_iff.mp hv
  rw [List.append_nil]
  exact ⟨.mk hu.1 hv, List.forall_mem_cons.mpr ⟨hu.2, hlegible⟩⟩

theorem reads_rangesFrom {n : Located Nat} {rs : List NumberRange}
    (h : Spelling.Listed Spelling.Range (t :: u) rs) (ht : t.kind = .int n.value)
    (hcomma : Avoids (.punct .comma) rest) (hto : Avoids (.keyword .rangeTo) rest)
    (legible : ∀ r ∈ rs, r.Legible) : Reads (rangesFrom c n) u rest (· = rs) := by
  generalize hw : t :: u = w at h
  cases h with
  | @mk u₁ v r rs head tail =>
    obtain ⟨u', rfl⟩ : ∃ u', u₁ = t :: u' := by
      cases head <;> cases hw <;> exact ⟨_, rfl⟩
    cases hw
    rw [List.forall_mem_cons] at legible
    have hn : n.value = r.first := by
      rw [head.first_eq] at ht
      exact (Token.Kind.int.inj ht).symm
    have hcomma' : ∀ t' ts, t'.kind = .punct .comma → Avoids (.keyword .rangeTo) (t' :: ts) := by
      intro t' ts ht'
      rw [avoids_cons, ht']
      exact Token.Kind.noConfusion
    have hfollow : Avoids (.keyword .rangeTo) (v ++ rest) := by
      cases tail with
      | nil => exact hto
      | cons between => exact hcomma' _ _ between
    refine reads_bind (reads_rangeFrom head hn hfollow legible.1) fun first hfirst => ?_
    refine reads_map (reads_repeatAfter_eq (fun _ _ _ hu hrest => reads_range hu hrest) hcomma' hto
      hcomma (Repeats.and_iff.mpr ⟨tail, legible.2⟩)) fun more hmore => ?_
    rw [hfirst, hmore]

end Reader

end ProtoSchema

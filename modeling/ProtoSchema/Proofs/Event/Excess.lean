import ProtoSchema.Proofs.Event.Refusing
import ProtoSchema.Proofs.Event.Rereading

/-! # Numbers out of bounds

`Spelling.Excess` lists the tokens of a statement up to a number that is out of its bounds, together with
the fault of that number: of a field, of either end of a range, or of an enum value.  A step that meets such
tokens fails with this fault, whatever follows them and however the tokens end (`refuses_next`). -/

namespace ProtoSchema

/-! ### Statements with a number out of bounds -/

namespace Spelling

/-- The tokens of a range up to a number that is out of bounds, and the fault of that number. -/
inductive BadRange : List Token → Fault → Prop
  | first {t n} (int : t.kind = .int n) (out : FieldNumber.isValid n = false) :
      BadRange [t] (.invalidFieldNumber n t.span)
  | last {t u v n m} (first : t.kind = .int n) (valid : FieldNumber.isValid n = true)
      (between : u.kind = .keyword .rangeTo) (int : v.kind = .int m) (out : FieldNumber.max < m) :
      BadRange [t, u, v] (.invalidFieldNumber m v.span)
  | order {t u v n m} (first : t.kind = .int n) (valid : FieldNumber.isValid n = true)
      (between : u.kind = .keyword .rangeTo) (int : v.kind = .int m) (out : m < n) :
      BadRange [t, u, v] (.invalidRange (t.span.join v.span))

/-- The tokens of a list of ranges up to a number that is out of bounds. -/
inductive BadRanges : List Token → Fault → Prop
  | here {u fault} (bad : BadRange u fault) : BadRanges u fault
  | later {u t v r fault} (good : Range u r) (legible : r.Legible) (between : t.kind = .punct .comma)
      (more : BadRanges v fault) : BadRanges (u ++ t :: v) fault

/-- The tokens of a statement up to a number that is out of bounds, and the fault of that number. -/
inductive Excess : Frames → List Token → Fault → Prop
  | field {fs fs' u name equals t n} {f : FieldDecl} (front : Front u f.form f.type.value)
      (place : (Event.field f).Stands fs fs') (key : f.form.Legible) (ident : name.kind = .ident)
      (mark : equals.kind = .punct .equals) (int : t.kind = .int n)
      (out : FieldNumber.isValid n = false) :
      Excess fs (u ++ [name, equals, t]) (.invalidFieldNumber n t.span)
  | value {fs name equals u t n} (ident : name.kind = .ident) (mark : equals.kind = .punct .equals)
      (number : Number u n) (digits : u.getLast? = some t) (out : Event.isEnumNumber n = false) :
      Excess (.body .enum :: fs) (name :: equals :: u) (.invalidEnumNumber t.span)
  | ranges {fs t u fault} (kind : t.kind = .keyword .reserved ∨ t.kind = .keyword .extensions)
      (bad : BadRanges u fault) : Excess (.body .message :: fs) (t :: u) fault

theorem BadRange.exists_cons {u : List Token} {fault : Fault} (h : BadRange u fault) :
    ∃ t v n, u = t :: v ∧ t.kind = .int n := by
  cases h <;> exact ⟨_, _, _, rfl, by assumption⟩

end Spelling

namespace Reader

open Spelling (BadRange BadRanges)

variable {u : List Token} {t : Token} {fault : Fault} {c : Construct}

/-! ### Single numbers -/

theorem refuses_validNumber {n : Located Nat} (out : FieldNumber.isValid n.value = false) :
    Refuses (validNumber n) u (.invalidFieldNumber n.value n.span) := by
  unfold validNumber
  exact refuses_else (Bool.eq_false_iff.mp out)

theorem refuses_fieldNumber {n : Nat} (int : t.kind = .int n) (out : FieldNumber.isValid n = false) :
    Refuses (fieldNumber c) [t] (.invalidFieldNumber n t.span) :=
  (passes_int int).refuses (v := []) fun _ hm => hm ▸ refuses_validNumber out

/-! ### Ranges -/

/-- An integer is not the word for the largest number. -/
theorem isKeyword_of_int {n : Nat} (int : t.kind = .int n) (k : Keyword) : isKeyword k t = none :=
  isKeyword_eq_none (by rw [int]; exact Token.Kind.noConfusion)

theorem passes_rangeEnd {m : Nat} {v : List Token} (int : t.kind = .int m) (bound : m ≤ FieldNumber.max) :
    Passes (rangeEnd c) [t] v (· = ⟨m, t.span⟩) := by
  refine fun e rest => ⟨_, ?_, rfl⟩
  simp [rangeEnd, take?, isKeyword_of_int int, Reader.int, take, int, bound]

theorem refuses_rangeEnd {m : Nat} (int : t.kind = .int m) (out : FieldNumber.max < m) :
    Refuses (rangeEnd c) [t] (.invalidFieldNumber m t.span) := by
  refine (passes_take?_none (isKeyword_of_int int .max)).refuses (u := []) fun span? hspan => ?_
  subst hspan
  refine (passes_int int).refuses (v := []) fun n hn => ?_
  subst hn
  exact refuses_else (Nat.not_le.mpr out)

/-- Behind a valid number and the word for "to", a range is refused if its end is, or what becomes of it. -/
theorem refuses_rangeTo {first : Located Nat} {between : Token} (valid : FieldNumber.isValid first.value = true)
    (kind : between.kind = .keyword .rangeTo)
    (h : Refuses (do
      let last ← rangeEnd c
      if first.value ≤ last.value then return (⟨first.value, last.value⟩ : NumberRange)
      else fail (.invalidRange (first.span.join last.span))) u fault) :
    Refuses (rangeFrom c first) (between :: u) fault := by
  refine (passes_validNumber valid).refuses (u := []) fun _ hfirst => ?_
  subst hfirst
  refine (passes_take?_some (isKeyword_eq_some kind)).refuses fun _ hspan => ?_
  subst hspan
  exact h

theorem refuses_rangeFrom {n : Nat} (h : BadRange (t :: u) fault) (int : t.kind = .int n) :
    Refuses (rangeFrom c ⟨n, t.span⟩) u fault := by
  cases h with
  | first int' out =>
    cases int.symm.trans int'
    exact (refuses_validNumber out).bind _
  | last first valid between last out =>
    cases int.symm.trans first
    exact refuses_rangeTo valid between ((refuses_rangeEnd last out).bind _)
  | order first valid between last out =>
    cases int.symm.trans first
    have hbound := FieldNumber.le_max_of_isValid valid
    refine refuses_rangeTo valid between ((passes_rangeEnd last (by omega)).refuses (v := []) fun _ hlast => ?_)
    subst hlast
    exact refuses_else (Nat.not_le.mpr out)

theorem refuses_range (h : BadRange u fault) : Refuses (range c) u fault := by
  obtain ⟨t, v, n, rfl, int⟩ := h.exists_cons
  exact (passes_int int).refuses fun _ hn => hn ▸ refuses_rangeFrom h int

/-- A range in its bounds is passed in front of a comma. -/
theorem passes_rangeFrom {r : NumberRange} {n : Nat} (good : Spelling.Range (t :: u) r) (legible : r.Legible)
    (int : t.kind = .int n) {comma : Token} (between : comma.kind = .punct .comma) (v : List Token) :
    Passes (rangeFrom c ⟨n, t.span⟩) u (comma :: v) (· = r) := by
  have hn : n = r.first := Token.Kind.int.inj (int.symm.trans good.first_eq)
  refine (heedless_rangeFrom c _).passes fun rest => reads_rangeFrom good hn ?_ legible
  rw [List.cons_append, avoids_cons, between]
  exact Token.Kind.noConfusion

theorem refuses_moreRanges (h : BadRanges u fault) : ∀ t : Token, t.kind = .punct .comma →
    Refuses (repeatAfter .comma (range c)) (t :: u) fault := by
  induction h with
  | here bad => exact fun t ht => refuses_repeatAfter ht (refuses_range bad)
  | @later u comma v r fault good legible between more ih =>
    intro t ht
    have hpasses : Passes (range c) u (comma :: v) (· = r) :=
      (heedless_range c).passes fun rest => reads_range ⟨good, legible⟩ (by
        rw [List.cons_append, avoids_cons, between]
        exact Token.Kind.noConfusion)
    exact hpasses.refuses_repeatAfter ht (ih comma between)

theorem refuses_rangesFrom {n : Nat} (h : BadRanges (t :: u) fault) (int : t.kind = .int n) :
    Refuses (rangesFrom c ⟨n, t.span⟩) u fault := by
  generalize hw : t :: u = w at h
  cases h with
  | here bad => exact (refuses_rangeFrom (hw ▸ bad) int).bind _
  | @later u' comma v r _ good legible between more =>
    obtain ⟨u', rfl⟩ : ∃ more, u' = t :: more := by
      cases good <;> cases hw <;> exact ⟨_, rfl⟩
    cases hw
    refine (passes_rangeFrom good legible int between v).refuses fun first _ => ?_
    exact (refuses_moreRanges more comma between).bind _

end Reader

namespace Event

open Reader
open Spelling (BadRanges Excess)

variable {fs fs' outer : Frames} {u v : List Token} {t : Token} {fault : Fault} {c : Construct}

/-! ### Statements -/

theorem passes_fieldTypeFrom {start : FieldTypeStart} {type : WrittenType}
    (hreads : ∀ {c rest}, Avoids (.punct .dot) rest →
      Reads (fieldTypeFrom c start) u rest fun a => a.value = type) (other : t.kind ≠ .punct .dot) :
    Passes (fieldTypeFrom c start) u (t :: v) fun a => a.value = type :=
  (heedless_fieldTypeFrom c start).passes fun _ => hreads (avoids_cons.mpr other)

theorem passes_fieldType {type : WrittenType} (written : Spelling.FieldType u type)
    (other : t.kind ≠ .punct .dot) : Passes (fieldType c) u (t :: v) fun a => a.value = type :=
  (heedless_fieldType c).passes fun _ => reads_fieldType written (avoids_cons.mpr other)

theorem passes_mapKey {s : Scalar} (h : t.kind = .scalar s) (hkey : s.isMapKey = true) :
    Passes mapKey [t] v (· = s) :=
  fun _ _ => ⟨s, by simp [mapKey, take, fieldTypeStart, h, fieldTypeFrom, hkey], rfl⟩

theorem refuses_emit {p : Reader Event} (h : Refuses p u fault) : Refuses (do emit fs (← p)) u fault :=
  h.bind _

theorem refuses_valueFrom {name : Located String} {equals : Token} {n : Int}
    (mark : equals.kind = .punct .equals) (number : Spelling.Number u n) (digits : u.getLast? = some t)
    (out : isEnumNumber n = false) :
    Refuses (valueFrom name) (equals :: u) (.invalidEnumNumber t.span) := by
  refine (passes_punct mark).refuses fun _ _ => ?_
  cases number with
  | @positive t' m int =>
    obtain rfl : t' = t := Option.some.inj digits
    have hdigits : t'.kind ≠ .punct .minus := by rw [int]; exact Token.Kind.noConfusion
    refine (passes_punct?_false hdigits).refuses (u := []) fun negative hn => ?_
    subst hn
    refine (passes_int int).refuses (v := []) fun magnitude hm => ?_
    subst hm
    exact refuses_else (Bool.eq_false_iff.mp out)
  | @negative _ t' m minus int =>
    obtain rfl : t' = t := Option.some.inj digits
    refine (passes_punct?_true minus).refuses fun negative hn => ?_
    subst hn
    refine (passes_int int).refuses (v := []) fun magnitude hm => ?_
    subst hm
    exact refuses_else (Bool.eq_false_iff.mp out)

theorem refuses_fieldFrom {form : FieldForm} {type : Located WrittenType} {name equals : Token} {n : Nat}
    (ident : name.kind = .ident) (mark : equals.kind = .punct .equals) (int : t.kind = .int n)
    (out : FieldNumber.isValid n = false) :
    Refuses (fieldFrom c form type) [name, equals, t] (.invalidFieldNumber n t.span) := by
  refine (passes_ident ident).refuses fun _ _ => ?_
  refine (passes_punct mark).refuses fun _ _ => ?_
  exact (refuses_fieldNumber int out).bind _

/-- A field is refused if what stands behind its type is. -/
theorem refuses_front {f : FieldDecl} (front : Spelling.Front u f.form f.type.value)
    (place : (field f).Stands fs fs') (legible : f.form.Legible) {name : Token} (ident : name.kind = .ident)
    (htail : ∀ c type, Refuses (fieldFrom c f.form type) (name :: v) fault) :
    ∃ t w, u = t :: w ∧ Refuses (next fs t) (w ++ name :: v) fault := by
  have hname : name.kind ≠ .punct .dot := by rw [ident]; exact Token.Kind.noConfusion
  generalize hform : f.form = form, htype : f.type.value = type at front
  cases place with
  | requiredField required =>
    have hwritten : Spelling.FieldType u type := by
      rw [← hform, required] at front
      cases front with
      | label _ other => exact absurd rfl other
      | required written => exact written
    obtain ⟨t, w, start, rfl, hstart, -, hreads⟩ := exists_fieldTypeStart hwritten
    refine ⟨t, w, rfl, ?_⟩
    simp only [next, requiredField, hstart, ← required]
    exact (passes_fieldTypeFrom hreads hname).refuses fun type _ => refuses_emit (htail _ type)
  | field hk plain hl =>
    cases front with
    | plain written =>
      obtain ⟨t, w, start, rfl, hstart, hkind, hreads⟩ := exists_fieldTypeStart written
      refine ⟨t, w, rfl, ?_⟩
      rw [next_fieldStarting hk (fieldStarting_of_start hstart hkind), ← hform]
      exact (passes_fieldTypeFrom hreads hname).refuses fun type _ => refuses_emit (htail _ type)
    | @label t u l' _ kind other written =>
      refine ⟨t, u, rfl, ?_⟩
      rw [next_fieldStarting hk (fieldStarting_of_label kind other), ← hform]
      exact (passes_fieldType written hname).refuses fun type _ => refuses_emit (htail _ type)
    | required => exact absurd (plain.symm.trans hform) (by simpa using hl)
    | map => cases plain.symm.trans hform
  | @mapField _ key outer map =>
    rw [map] at hform
    subst hform
    cases front with
    | @map t left word comma u right s type kind opening scalar between written closing =>
      refine ⟨t, left :: word :: comma :: (u ++ [right]), rfl, ?_⟩
      have hnext : next (.body .message :: outer) t = (do emit (.body .message :: outer) (← mapFrom)) := by
        simp only [next_body, messageItem, kind]
      have hkey : key.isMapKey = true := by
        rwa [map] at legible
      have hright : right.kind ≠ .punct .dot := by simp [closing]
      rw [hnext, List.cons_append, List.cons_append, List.cons_append, List.append_assoc]
      refine refuses_emit ((passes_punct opening).refuses fun _ _ => ?_)
      refine (passes_mapKey scalar hkey).refuses fun s' hs => ?_
      refine (passes_punct between).refuses fun _ _ => ?_
      refine (passes_fieldType written hright).refuses fun type _ => ?_
      refine (passes_punct closing).refuses fun _ _ => ?_
      rw [hs, ← map]
      exact htail _ type

theorem BadRanges.exists_cons (h : BadRanges u fault) : ∃ t v n, u = t :: v ∧ t.kind = .int n := by
  cases h with
  | here bad => exact bad.exists_cons
  | later good => cases good <;> exact ⟨_, _, _, rfl, by assumption⟩

theorem refuses_reservedFrom (h : BadRanges u fault) : Refuses reservedFrom u fault := by
  obtain ⟨t, v, n, rfl, int⟩ := BadRanges.exists_cons h
  have hstart : reservedStart t = some (.number ⟨n, t.span⟩) := by rw [reservedStart, int]
  refine (passes_take hstart).refuses fun start hs => ?_
  subst hs
  exact (refuses_rangesFrom h int).bind _

theorem refuses_extensionsFrom (h : BadRanges u fault) : Refuses extensionsFrom u fault := by
  obtain ⟨t, v, n, rfl, int⟩ := BadRanges.exists_cons h
  refine (passes_int int).refuses fun m hm => ?_
  subst hm
  exact (refuses_rangesFrom h int).bind _

/-- A step that meets a number out of bounds fails with its fault. -/
theorem refuses_next (h : Excess fs u fault) : ∃ t w, u = t :: w ∧ Refuses (next fs t) w fault := by
  cases h with
  | @field _ _ u name equals t n f front place key ident mark int out =>
    obtain ⟨t', w, rfl, hrefuses⟩ := refuses_front front place key ident
      fun c type => refuses_fieldFrom ident mark int out
    exact ⟨t', _, rfl, hrefuses⟩
  | @value _ name equals u t n ident mark number digits out =>
    refine ⟨name, _, rfl, ?_⟩
    have hitem : identText name = some ⟨name.text, name.span⟩ := identText_eq_some_iff.mpr ⟨ident, rfl⟩
    simp only [next_body, enumItem, ident, hitem]
    exact refuses_emit (refuses_valueFrom mark number digits out)
  | @ranges _ t u _ kind bad =>
    refine ⟨t, u, rfl, ?_⟩
    rw [next_body]
    rcases kind with kind | kind
    · simp only [messageItem, kind]
      exact refuses_emit (refuses_reservedFrom bad)
    · simp only [messageItem, kind]
      exact refuses_emit (refuses_extensionsFrom bad)

end Event

end ProtoSchema

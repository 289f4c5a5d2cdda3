import ProtoSchema.Proofs.Event.Excess
import ProtoSchema.Proofs.Event.Progress

/-! # Values that do not fit

A statement of the grammar may hold a value that does not fit: a number out of its bounds, a map key of a
type that has no map keys, or a version that is not known.  `Spelling.Misfit` lists the tokens of a statement
up to such a value together with its fault.  Every statement that is not in its bounds begins with such tokens
(`Statement.exists_misfit`), and the first misfit that the reader comes to ends the reading of a text with its
fault (`ofTokens_of_stops`). -/

namespace ProtoSchema

/-! ### Statements with a misfit -/

namespace Spelling

/-- The tokens of a statement up to a value that does not fit, and the fault of that value. -/
inductive Misfit : Frames → List Token → Fault → Prop
  | number {fs ts fault} (excess : Excess fs ts fault) : Misfit fs ts fault
  | mapKey {fs t left key s} (kind : t.kind = .specifier .map) (opening : left.kind = .punct .leftAngle)
      (scalar : key.kind = .scalar s) (other : s.isMapKey = false) :
      Misfit (.body .message :: fs) [t, left, key] (.invalidMapKey s.name key.span)
  | edition {t equals name semicolon s} (kind : t.kind = .keyword .edition)
      (mark : equals.kind = .punct .equals) (string : name.kind = .string s)
      (stop : semicolon.kind = .punct .semicolon) (unknown : Edition.ofName? s = none) :
      Misfit [] [t, equals, name, semicolon] (.unknownEdition s name.span)

variable {u v ts : List Token} {fs fs' : Frames} {rs : List NumberRange} {r : NumberRange} {e : Event}

theorem Range.exists_bad (h : Range u r) (out : ¬r.Legible) :
    ∃ front back fault, u = front ++ back ∧ BadRange front fault := by
  cases h with
  | @single t n int =>
    refine ⟨[t], [], _, rfl, .first int ?_⟩
    by_contra hvalid
    have hvalid := Bool.not_eq_false _ ▸ hvalid
    exact out ⟨hvalid, le_rfl, FieldNumber.le_max_of_isValid hvalid⟩
  | @bounded t b w n m int between last =>
    by_cases hvalid : FieldNumber.isValid n = true
    · by_cases hmax : m ≤ FieldNumber.max
      · have horder : m < n := Nat.lt_of_not_le fun hle => out ⟨hvalid, hle, hmax⟩
        exact ⟨[t, b, w], [], _, rfl, .order int hvalid between last horder⟩
      · exact ⟨[t, b, w], [], _, rfl, .last int hvalid between last (Nat.lt_of_not_le hmax)⟩
    · exact ⟨[t], [b, w], _, rfl, .first int (Bool.eq_false_iff.mpr hvalid)⟩
  | @unbounded t b w n int between last =>
    refine ⟨[t], [b, w], _, rfl, .first int ?_⟩
    by_contra hvalid
    have hvalid := Bool.not_eq_false _ ▸ hvalid
    exact out ⟨hvalid, FieldNumber.le_max_of_isValid hvalid, le_rfl⟩

/-- Among ranges behind commas there is a first one that is bad. -/
theorem exists_bad_of_repeats (h : Reader.Repeats .comma Range u rs) (out : ¬∀ r ∈ rs, r.Legible) :
    ∃ comma front back fault, u = comma :: (front ++ back) ∧ comma.kind = .punct .comma ∧
      BadRanges front fault := by
  induction h with
  | nil => exact absurd (List.forall_mem_nil _) out
  | @cons comma u v r rs between head tail ih =>
    by_cases hr : r.Legible
    · have hrs : ¬∀ r ∈ rs, r.Legible := fun hrs => out (List.forall_mem_cons.mpr ⟨hr, hrs⟩)
      obtain ⟨comma', front, back, fault, rfl, between', bad⟩ := ih hrs
      exact ⟨comma, u ++ comma' :: front, back, fault, by simp, between, .later head hr between' bad⟩
    · obtain ⟨front, back, fault, rfl, bad⟩ := head.exists_bad hr
      exact ⟨comma, front, back ++ v, fault, by simp, between, .here bad⟩

theorem Listed.exists_bad (h : Listed Range u rs) (out : ¬∀ r ∈ rs, r.Legible) :
    ∃ front back fault, u = front ++ back ∧ BadRanges front fault := by
  cases h with
  | @mk u v r rs head tail =>
    by_cases hr : r.Legible
    · have hrs : ¬∀ r ∈ rs, r.Legible := fun hrs => out (List.forall_mem_cons.mpr ⟨hr, hrs⟩)
      obtain ⟨comma, front, back, fault, rfl, between, bad⟩ := exists_bad_of_repeats tail hrs
      exact ⟨u ++ comma :: front, back, fault, by simp, .later head hr between bad⟩
    · obtain ⟨front, back, fault, rfl, bad⟩ := head.exists_bad hr
      exact ⟨front, back ++ v, fault, by simp, .here bad⟩

/-- A map whose keys are of a type that has no map keys. -/
theorem Misfit.of_front {f : FieldDecl} (front : Front u f.form f.type.value)
    (place : (Event.field f).Stands fs fs') (key : ¬f.form.Legible) :
    ∃ us vs fault, u = us ++ vs ∧ Misfit fs us fault := by
  cases hform : f.form with
  | plain label =>
    rw [hform] at key
    exact absurd trivial key
  | map s =>
    rw [hform] at key front
    cases place with
    | requiredField plain | field _ plain => cases hform.symm.trans plain
    | mapField =>
      cases front with
      | map kind opening scalar =>
        exact ⟨[_, _, _], _, _, rfl, .mapKey kind opening scalar (Bool.eq_false_iff.mpr key)⟩

theorem Number.exists_digits {n : Int} (h : Number u n) : ∃ t, u.getLast? = some t := by
  cases h <;> exact ⟨_, rfl⟩

/-- The tokens of a statement that is not in its bounds begin with a misfit. -/
theorem Statement.exists_misfit (written : Statement ts e) (place : e.Stands fs fs') (out : ¬e.InBounds) :
    ∃ us vs fault, ts = us ++ vs ∧ Misfit fs us fault := by
  cases written with
  | @field u v f front tail =>
    by_cases key : f.form.Legible
    · have hnumber : FieldNumber.isValid f.number.value = false :=
        Bool.eq_false_iff.mpr fun hvalid => out ⟨key, hvalid⟩
      generalize f.name.value = name, f.number.value = n, f.options = os at tail hnumber
      cases tail with
      | @mk label equals t v semicolon _ _ ident mark int =>
        exact ⟨u ++ [label, equals, t], v ++ [semicolon], _, by simp,
          .number (.field front place key ident mark int hnumber)⟩
    · obtain ⟨us, vs, fault, rfl, misfit⟩ := Misfit.of_front front place key
      exact ⟨us, vs ++ v, fault, by simp, misfit⟩
  | @value name equals u v w semicolon ident mark number =>
    cases place
    obtain ⟨t, digits⟩ := number.exists_digits
    exact ⟨name :: equals :: u, v ++ [semicolon], _, by simp,
      .number (.value ident mark number digits (Bool.eq_false_iff.mpr out))⟩
  | @reservedRanges t _ _ semicolon kind list =>
    cases place
    obtain ⟨front, back, fault, rfl, bad⟩ := list.exists_bad out
    exact ⟨t :: front, back ++ [semicolon], fault, by simp, .number (.ranges (.inl kind) bad)⟩
  | @extensionRanges t _ v _ _ semicolon kind list =>
    cases place
    obtain ⟨front, back, fault, rfl, bad⟩ := list.exists_bad out
    exact ⟨t :: front, back ++ (v ++ [semicolon]), fault, by simp, .number (.ranges (.inr kind) bad)⟩
  | _ => exact absurd trivial out

end Spelling

namespace Event

open Reader
open Spelling (Excess Misfit)

variable {e : Ending} {fs fs' : Frames} {t : Token} {ts u : List Token} {fault : Fault}

/-! ### Readers that meet a misfit -/

theorem refuses_mapKey {s : Scalar} (scalar : t.kind = .scalar s) (other : s.isMapKey = false) :
    Refuses mapKey [t] (.invalidMapKey s.name t.span) :=
  fun _ _ => by simp [mapKey, take, fieldTypeStart, scalar, fieldTypeFrom, other, fail]

theorem refuses_editionFrom {equals name semicolon : Token} {s : String} {start : Span}
    (mark : equals.kind = .punct .equals) (string : name.kind = .string s)
    (stop : semicolon.kind = .punct .semicolon) (unknown : Edition.ofName? s = none) :
    Refuses (editionFrom start) [equals, name, semicolon] (.unknownEdition s name.span) := by
  have hstring : Passes (Reader.string .edition) [name] [semicolon] (· = ⟨s, name.span⟩) :=
    passes_take (by rw [string])
  refine (passes_punct mark).refuses fun _ _ => hstring.refuses fun a ha => ?_
  refine (passes_punct stop).refuses (v := []) fun _ _ => ?_
  subst ha
  simp only [unknown]
  exact refuses_fail

/-- A step that meets a misfit fails with its fault. -/
theorem refuses_next_of_misfit (h : Misfit fs u fault) :
    ∃ t w, u = t :: w ∧ Refuses (next fs t) w fault := by
  cases h with
  | number excess => exact refuses_next excess
  | @mapKey fs t left key s kind opening scalar other =>
    refine ⟨t, _, rfl, ?_⟩
    rw [next_body]
    simp only [messageItem, kind]
    exact refuses_emit ((passes_punct opening).refuses fun _ _ => (refuses_mapKey scalar other).bind _)
  | @edition t equals name semicolon s kind mark string stop unknown =>
    refine ⟨t, _, rfl, ?_⟩
    have hnext : next [] t = (do emit [] (← editionFrom t.span)) := by
      simp only [next, statement, kind]
    rw [hnext]
    exact refuses_emit (refuses_editionFrom mark string stop unknown)

/-! ### Texts -/

/-- In some tokens the reader comes to a value that does not fit. -/
inductive Stops (e : Ending) : Frames → List Token → Fault → Prop
  | here {fs ts rest fault} (misfit : Misfit fs ts fault) : Stops e fs (ts ++ rest) fault
  | later {fs t rest event? fs' rest' fault} (first : (next fs t).run e rest = .ok ((event?, fs'), rest'))
      (more : Stops e fs' rest' fault) : Stops e fs (t :: rest) fault

/-- The first value that does not fit ends the reading with its fault. -/
theorem ofTokens_of_stops (h : Stops e fs ts fault) : (ofTokens e fs ts).2 = some fault := by
  induction h with
  | here misfit =>
    obtain ⟨t, w, rfl, hrefuses⟩ := refuses_next_of_misfit misfit
    rw [List.cons_append, (Takes.fault (hrefuses e _)).eq_ofTokens]
  | later first more ih =>
    obtain ⟨taken, rfl⟩ := (next _ _).suffix first
    obtain ⟨us, hmore⟩ := exists_takes e _ _
    rw [(Takes.step first hmore).eq_ofTokens]
    exact ih

/-- In some tokens the reader comes to a number that is out of bounds. -/
inductive Meets (e : Ending) : Frames → List Token → Fault → Prop
  | here {fs ts rest fault} (excess : Excess fs ts fault) : Meets e fs (ts ++ rest) fault
  | later {fs t rest event? fs' rest' fault} (first : (next fs t).run e rest = .ok ((event?, fs'), rest'))
      (more : Meets e fs' rest' fault) : Meets e fs (t :: rest) fault

theorem Meets.stops (h : Meets e fs ts fault) : Stops e fs ts fault := by
  induction h with
  | here excess => exact .here (.number excess)
  | later first _ ih => exact .later first ih

/-- The first number that is out of bounds ends the reading with its fault. -/
theorem ofTokens_of_meets (h : Meets e fs ts fault) : (ofTokens e fs ts).2 = some fault :=
  ofTokens_of_stops h.stops

end Event

end ProtoSchema

import Mathlib.Tactic.Common
import ProtoSchema.Event.OfTokens

/-! # What a reader takes and yields

`Yields p φ` says that the reader `p` takes tokens `used` off the front and yields a value `a` with
`φ used a`, whenever it does not fail.  There is one rule for each way to build a reader, and the
readers of statements are put together from them. -/

namespace ProtoSchema.Reader

variable {α β : Type}

/-- Whatever the reader yields, and the tokens that it takes for that, have a property. -/
def Yields (p : Reader α) (φ : List Token → α → Prop) : Prop :=
  ∀ e ts a rest, p.run e ts = .ok (a, rest) → ∃ used, ts = used ++ rest ∧ φ used a

theorem Yields.mono {p : Reader α} {φ ψ : List Token → α → Prop} (h : Yields p φ)
    (hφ : ∀ used a, φ used a → ψ used a) : Yields p ψ := by
  intro e ts a rest hr
  obtain ⟨used, hts, ha⟩ := h e ts a rest hr
  exact ⟨used, hts, hφ used a ha⟩

theorem yields_pure {a : α} {φ : List Token → α → Prop} (h : φ [] a) : Yields (pure a) φ := by
  intro e ts b rest hr
  cases hr
  exact ⟨[], rfl, h⟩

theorem yields_bind {p : Reader α} {f : α → Reader β} {φ : List Token → α → Prop}
    {ψ : List Token → β → Prop} (hp : Yields p φ)
    (hf : ∀ used a, φ used a → Yields (f a) fun used' b => ψ (used ++ used') b) :
    Yields (p >>= f) ψ := by
  intro e ts b rest hr
  rw [run_bind] at hr
  split at hr
  · next a rest' ha =>
    obtain ⟨used, rfl, hφ⟩ := hp e ts a rest' ha
    obtain ⟨used', rfl, hψ⟩ := hf used a hφ e rest' b rest hr
    exact ⟨used ++ used', (List.append_assoc ..).symm, hψ⟩
  · cases hr

theorem yields_fail {fault : Fault} {φ : List Token → α → Prop} :
    Yields (fail fault : Reader α) φ := by
  intro e ts a rest hr
  cases hr

theorem yields_ite {P : Prop} [Decidable P] {p q : Reader α} {φ : List Token → α → Prop}
    (hp : Yields p φ) (hq : Yields q φ) : Yields (if P then p else q) φ := by
  split
  · exact hp
  · exact hq

theorem yields_take {c : Construct} {expected : String} {f : Token → Option α} :
    Yields (take c expected f) fun used a => ∃ t, used = [t] ∧ f t = some a := by
  intro e ts a rest hr
  simp only [take] at hr
  split at hr
  · cases hr
  · next t rest' =>
    split at hr
    · next b hb =>
      cases hr
      exact ⟨[t], rfl, t, rfl, hb⟩
    · cases hr

theorem yields_take? {f : Token → Option α} :
    Yields (take? f) fun used a => (used = [] ∧ a = none) ∨ ∃ t b, used = [t] ∧ f t = some b ∧
      a = some b := by
  intro e ts a rest hr
  simp only [take?] at hr
  split at hr
  · split at hr
    · cases hr
      exact ⟨[], rfl, .inl ⟨rfl, rfl⟩⟩
    · cases hr
  · next t rest' =>
    split at hr
    · next b hb =>
      cases hr
      exact ⟨[t], rfl, .inr ⟨t, b, rfl, hb, rfl⟩⟩
    · cases hr
      exact ⟨[], rfl, .inl ⟨rfl, rfl⟩⟩

theorem yields_refuse {f : Token → Option Fault} : Yields (refuse f) fun used _ => used = [] := by
  intro e ts a rest hr
  simp only [refuse] at hr
  split at hr
  · cases hr
    exact ⟨[], rfl, rfl⟩
  · split at hr
    · cases hr
    · cases hr
      exact ⟨[], rfl, rfl⟩

/-- Every reader takes tokens off the front. -/
theorem yields_true (p : Reader α) : Yields p fun _ _ => True := by
  intro e ts a rest hr
  obtain ⟨used, rfl⟩ := p.suffix hr
  exact ⟨used, rfl, trivial⟩

/-- What comes after a value of which nothing is known. -/
theorem yields_skip {p : Reader α} {f : α → Reader β} {ψ : List Token → β → Prop}
    (hf : ∀ used a, Yields (f a) fun used' b => ψ (used ++ used') b) : Yields (p >>= f) ψ :=
  yields_bind (yields_true p) fun used a _ => hf used a

/-! ### Names and types -/

theorem identText_eq_some_iff {t : Token} {name : Located String} :
    identText t = some name ↔ t.kind = .ident ∧ name = ⟨t.text, t.span⟩ := by
  unfold identText
  split <;> simp_all [eq_comm]

/-- An identifier is the token that is taken. -/
theorem yields_ident (c : Construct) :
    Yields (ident c) fun used name => ∃ t, used = [t] ∧ name = ⟨t.text, t.span⟩ := by
  refine yields_bind yields_refuse fun _ _ hu => ?_
  subst hu
  refine yields_take.mono fun used name h => ?_
  obtain ⟨t, rfl, ht⟩ := h
  exact ⟨t, rfl, (identText_eq_some_iff.mp ht).2⟩

/-- Where the first token of a type name begins. -/
def TypeNameStart.offset : TypeNameStart → Nat
  | .dot span => span.start
  | .ident name => name.span.start

theorem offset_typeNameStart {t : Token} {start : TypeNameStart}
    (h : typeNameStart t = some start) : start.offset = t.span.start := by
  unfold typeNameStart isPunct at h
  split at h
  · next span hs =>
    split at hs
    · cases hs
      cases h
      rfl
    · cases hs
  · obtain ⟨name, hn, rfl⟩ := Option.map_eq_some_iff.mp h
    obtain ⟨-, rfl⟩ := identText_eq_some_iff.mp hn
    rfl

/-- A type name begins where its first token begins. -/
theorem yields_typeNameFrom (c : Construct) (start : TypeNameStart) :
    Yields (typeNameFrom c start) fun _ name => name.span.start = start.offset := by
  cases start with
  | dot span => exact yields_skip fun _ _ => yields_pure rfl
  | ident first =>
    refine yields_bind (φ := fun _ name => name.span.start = first.span.start) ?_ ?_
    · exact yields_skip fun _ _ => yields_pure rfl
    · intro _ name h
      exact yields_pure h

/-- A type name begins with one of the tokens that are taken. -/
theorem yields_typeName (c : Construct) :
    Yields (typeName c) fun used name => ∃ t ∈ used, name.span.start = t.span.start := by
  refine yields_skip fun _ _ => yields_bind yields_take fun used start h => ?_
  obtain ⟨t, rfl, ht⟩ := h
  refine (yields_typeNameFrom c start).mono fun _ name hn => ⟨t, by simp, ?_⟩
  rw [hn, offset_typeNameStart ht]

/-- Where the first token of the type of a field begins. -/
def FieldTypeStart.offset : FieldTypeStart → Nat
  | .scalar s => s.span.start
  | .named start => start.offset

theorem offset_fieldTypeStart {t : Token} {start : FieldTypeStart}
    (h : fieldTypeStart t = some start) : start.offset = t.span.start := by
  unfold fieldTypeStart at h
  split at h
  · cases h
    rfl
  · obtain ⟨start, hs, rfl⟩ := Option.map_eq_some_iff.mp h
    exact offset_typeNameStart hs

theorem yields_fieldTypeFrom (c : Construct) (start : FieldTypeStart) :
    Yields (fieldTypeFrom c start) fun _ type => type.span.start = start.offset := by
  cases start with
  | scalar s => exact yields_pure rfl
  | named start =>
    exact yields_bind (yields_typeNameFrom c start) fun _ name h => yields_pure h

/-- The type of a field begins with one of the tokens that are taken. -/
theorem yields_fieldType (c : Construct) :
    Yields (fieldType c) fun used type => ∃ t ∈ used, type.span.start = t.span.start := by
  refine yields_bind yields_take fun used start h => ?_
  obtain ⟨t, rfl, ht⟩ := h
  refine (yields_fieldTypeFrom c start).mono fun _ type hn => ⟨t, by simp, ?_⟩
  rw [hn, offset_fieldTypeStart ht]

end ProtoSchema.Reader

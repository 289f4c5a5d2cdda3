import Mathlib.Data.List.Forall2
import ProtoSchema.Proofs.Event.Reading

/-! # What a reader does with given tokens

`Reads p used rest φ` says that the reader `p` takes just the tokens `used` in front of `rest`, and
yields a value with `φ`.  There is one rule for each way to build a reader.  A reader that looks at the next token to know whether it goes on needs to know
that it does not. -/

namespace ProtoSchema.Reader

variable {α β γ : Type} {used rest u v : List Token} {t : Token}

def Reads (p : Reader α) (used rest : List Token) (φ : α → Prop) : Prop :=
  ∀ n, ∃ a, p.run (.endOfText n) (used ++ rest) = .ok (a, rest) ∧ φ a

theorem Reads.mono {p : Reader α} {φ ψ : α → Prop} (h : Reads p used rest φ)
    (hφ : ∀ a, φ a → ψ a) : Reads p used rest ψ :=
  fun n => (h n).imp fun a ha => ⟨ha.1, hφ a ha.2⟩

theorem reads_pure {a : α} {φ : α → Prop} (h : φ a) : Reads (pure a) [] rest φ :=
  fun _ => ⟨a, rfl, h⟩

theorem reads_bind {p : Reader α} {f : α → Reader β} {φ : α → Prop} {ψ : β → Prop}
    (hp : Reads p u (v ++ rest) φ) (hf : ∀ a, φ a → Reads (f a) v rest ψ) :
    Reads (p >>= f) (u ++ v) rest ψ := by
  intro n
  obtain ⟨a, hr, ha⟩ := hp n
  rw [run_bind, List.append_assoc, hr]
  exact hf a ha n

/-- The first reader takes one token. -/
theorem reads_cons {p : Reader α} {f : α → Reader β} {φ : α → Prop} {ψ : β → Prop}
    (hp : Reads p [t] (v ++ rest) φ) (hf : ∀ a, φ a → Reads (f a) v rest ψ) :
    Reads (p >>= f) (t :: v) rest ψ :=
  reads_bind hp hf

/-- The first reader takes nothing. -/
theorem reads_nil {p : Reader α} {f : α → Reader β} {φ : α → Prop} {ψ : β → Prop}
    (hp : Reads p [] (v ++ rest) φ) (hf : ∀ a, φ a → Reads (f a) v rest ψ) :
    Reads (p >>= f) v rest ψ :=
  reads_bind hp hf

/-- Nothing is done with the value of the last reader but to put it into another one. -/
theorem reads_map {p : Reader α} {f : α → β} {φ : α → Prop} {ψ : β → Prop}
    (hp : Reads p used rest φ) (hf : ∀ a, φ a → ψ (f a)) :
    Reads (do return f (← p)) used rest ψ := by
  have h : Reads (p >>= fun a => pure (f a)) (used ++ []) rest ψ :=
    reads_bind hp fun a ha => reads_pure (hf a ha)
  rwa [List.append_nil] at h

/-! ### Single tokens -/

/-- The next token, if there is one, is of another kind. -/
def Avoids (k : Token.Kind) (rest : List Token) : Prop := ∀ t ∈ rest.head?, t.kind ≠ k

theorem avoids_cons {k : Token.Kind} : Avoids k (t :: rest) ↔ t.kind ≠ k := by
  simp [Avoids]

theorem avoids_nil {k : Token.Kind} : Avoids k [] := by simp [Avoids]

theorem reads_take {c : Construct} {expected : String} {f : Token → Option α} {a : α}
    (h : f t = some a) : Reads (take c expected f) [t] rest (· = a) :=
  fun _ => ⟨a, by simp [take, h], rfl⟩

theorem reads_refuse {f : Token → Option Fault} (h : ∀ t ∈ rest.head?, f t = none) :
    Reads (refuse f) [] rest fun _ => True := by
  intro n
  refine ⟨(), ?_, trivial⟩
  cases rest with
  | nil => rfl
  | cons t rest => simp [refuse, h t rfl]

theorem reads_take?_some {f : Token → Option α} {a : α} (h : f t = some a) :
    Reads (take? f) [t] rest (· = some a) :=
  fun _ => ⟨some a, by simp [take?, h], rfl⟩

theorem reads_take?_none {f : Token → Option α} (h : ∀ t ∈ rest.head?, f t = none) :
    Reads (take? f) [] rest (· = none) := by
  intro n
  refine ⟨none, ?_, rfl⟩
  cases rest with
  | nil => rfl
  | cons t rest => simp [take?, h t rfl]

theorem isPunct_eq_some {p : Punct} (h : t.kind = .punct p) : isPunct p t = some t.span :=
  if_pos h

theorem isPunct_eq_none {p : Punct} (h : t.kind ≠ .punct p) : isPunct p t = none :=
  if_neg h

theorem reads_punct {c : Construct} {p : Punct} (h : t.kind = .punct p) :
    Reads (punct c p) [t] rest fun _ => True :=
  (reads_take (isPunct_eq_some h)).mono fun _ _ => trivial

theorem reads_punct?_true {p : Punct} (h : t.kind = .punct p) :
    Reads (punct? p) [t] rest (· = true) :=
  reads_map (reads_take?_some (isPunct_eq_some h)) fun a ha => by rw [ha]; rfl

theorem reads_punct?_false {p : Punct} (h : Avoids (.punct p) rest) :
    Reads (punct? p) [] rest (· = false) :=
  reads_map (reads_take?_none fun t ht => isPunct_eq_none (h t ht)) fun a ha => by rw [ha]; rfl

/-! ### Repetition -/

/-- Tokens that spell some values, each behind the mark `m`. -/
inductive Repeats (m : Punct) (R : List Token → β → Prop) : List Token → List β → Prop
  | nil : Repeats m R [] []
  | cons {t u v b bs} (between : t.kind = .punct m) (head : R u b) (tail : Repeats m R v bs) :
      Repeats m R (t :: (u ++ v)) (b :: bs)

theorem repeatRun_stop {m : Punct} {p : Reader α} {n : Nat} (h : Avoids (.punct m) rest) :
    repeatRun m p (.endOfText n) rest = .ok ([], rest) := by
  unfold repeatRun
  cases rest with
  | nil => rfl
  | cons t rest => exact if_neg (avoids_cons.mp h)

theorem repeatRun_cons {m : Punct} {p : Reader α} {e : Ending} (h : t.kind = .punct m) :
    repeatRun m p e (t :: rest) =
      match p.run e rest with
      | .error fault => .error fault
      | .ok (a, rest') =>
        match repeatRun m p e rest' with
        | .error fault => .error fault
        | .ok (as, rest'') => .ok (a :: as, rest'') := by
  conv_lhs => unfold repeatRun
  rw [if_pos h]
  split
  · next fault hr => simp only [hr]
  · next a rest' hr =>
    cases hrs : repeatRun m p e rest' with
    | error fault => simp only [hr, hrs]
    | ok result => simp only [hr, hrs]

/-- A repetition reads as many values as its tokens spell. -/
theorem reads_repeatAfter {m : Punct} {p : Reader α} {R : List Token → β → Prop}
    {E : β → α → Prop} {F : List Token → Prop} {bs : List β}
    (hp : ∀ u b rest, R u b → F rest → Reads p u rest (E b))
    (hm : ∀ t ts, t.kind = .punct m → F (t :: ts)) (hrest : F rest)
    (hstop : Avoids (.punct m) rest) (h : Repeats m R used bs) :
    Reads (repeatAfter m p) used rest (List.Forall₂ E bs) := by
  intro n
  show ∃ as, repeatRun m p (.endOfText n) (used ++ rest) = _ ∧ _
  induction h with
  | nil => exact ⟨[], repeatRun_stop hstop, .nil⟩
  | @cons t u v b bs between head tail ih =>
    have hnext : F (v ++ rest) := by
      cases tail with
      | nil => exact hrest
      | cons between => exact hm _ _ between
    obtain ⟨a, hr, ha⟩ := hp u b (v ++ rest) head hnext n
    obtain ⟨as, hrs, has⟩ := ih
    refine ⟨a :: as, ?_, .cons ha has⟩
    rw [List.cons_append, repeatRun_cons between, List.append_assoc, hr]
    simp only [hrs]

/-- A repetition of a reader that reads just the values that its tokens spell. -/
theorem reads_repeatAfter_eq {m : Punct} {p : Reader α} {R : List Token → α → Prop}
    {F : List Token → Prop} {as : List α}
    (hp : ∀ u a rest, R u a → F rest → Reads p u rest (· = a))
    (hm : ∀ t ts, t.kind = .punct m → F (t :: ts)) (hrest : F rest)
    (hstop : Avoids (.punct m) rest) (h : Repeats m R used as) :
    Reads (repeatAfter m p) used rest (· = as) := by
  have hp : ∀ u a rest, R u a → F rest → Reads p u rest (a = ·) :=
    fun u a rest hu hf => (hp u a rest hu hf).mono fun _ => Eq.symm
  refine (reads_repeatAfter hp hm hrest hstop h).mono fun bs hbs => ?_
  rw [List.forall₂_eq_eq_eq] at hbs
  exact hbs.symm

/-- What a repetition takes spells its values. -/
theorem yields_repeatAfter {m : Punct} {p : Reader α} {R : List Token → α → Prop}
    (hp : Yields p R) : Yields (repeatAfter m p) (Repeats m R) := by
  intro e ts as rest hr
  change repeatRun m p e ts = .ok (as, rest) at hr
  fun_induction repeatRun m p e ts generalizing as rest with
  | case1 => cases hr; exact ⟨[], rfl, .nil⟩
  | case2 => cases hr
  | case3 => cases hr
  | case4 => cases hr
  | case5 t rest₀ between a rest₁ h₁ _ as₁ rest₂ h₂ ih =>
    cases hr
    obtain ⟨u, rfl, hu⟩ := hp e rest₀ a rest₁ h₁
    obtain ⟨v, rfl, hv⟩ := ih _ _ h₂
    exact ⟨t :: (u ++ v), by simp, .cons between hu hv⟩
  | case6 => cases hr; exact ⟨[], rfl, .nil⟩

end ProtoSchema.Reader

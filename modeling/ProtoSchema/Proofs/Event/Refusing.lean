import ProtoSchema.Proofs.Event.Spelling

/-! # Readers that fail, whatever follows

`Reader.Refuses p u fault` says that the reader `p` fails with `fault` on the tokens `u`, whatever follows
them and however the tokens end, and `Reader.Passes` that a reader takes its tokens off the front as
independently, if more tokens stand behind them.  What is known of a reader on tokens that end without a fault
is so however they end, since no reader that leaves a token sees the end (`Heedless.passes`). -/

namespace ProtoSchema

namespace Reader

variable {α β : Type} {p : Reader α} {f : α → Reader β} {u v : List Token} {t : Token} {fault : Fault}
  {c : Construct}

/-! ### Readers that do not see how the tokens end -/

/-- Where the reader leaves a token, it does not matter how the tokens end. -/
def Heedless (p : Reader α) : Prop :=
  ∀ e e' ts a t rest, p.run e ts = .ok (a, t :: rest) → p.run e' ts = .ok (a, t :: rest)

theorem heedless_pure (a : α) : Heedless (pure a) := fun _ _ _ _ _ _ h => h

theorem heedless_fail (fault : Fault) : Heedless (fail fault : Reader α) := fun _ _ _ _ _ _ h => nomatch h

theorem heedless_ite {P : Prop} [Decidable P] {q : Reader α} (hp : Heedless p) (hq : Heedless q) :
    Heedless (if P then p else q) := by
  split
  · exact hp
  · exact hq

theorem heedless_bind (hp : Heedless p) (hf : ∀ a, Heedless (f a)) : Heedless (p >>= f) := by
  intro e e' ts b t rest h
  rw [run_bind] at h ⊢
  split at h
  · next a rest' hr =>
    -- a token that is left behind the second reader was left behind the first one
    obtain ⟨t', rest', rfl⟩ : ∃ t' more, rest' = t' :: more := by
      obtain ⟨front, rfl⟩ := (f a).suffix h
      cases front <;> exact ⟨_, _, rfl⟩
    rw [hp e e' _ _ _ _ hr]
    exact hf a e e' _ _ _ _ h
  · cases h

theorem heedless_take (expected : String) (g : Token → Option α) : Heedless (take c expected g) := by
  intro e e' ts a t rest h
  cases ts with
  | nil => cases h
  | cons => exact h

theorem heedless_take? (g : Token → Option α) : Heedless (take? g) := by
  intro e e' ts a t rest h
  cases ts with
  | nil => cases e <;> cases h
  | cons => exact h

theorem heedless_refuse (g : Token → Option Fault) : Heedless (refuse g) := by
  intro e e' ts a t rest h
  cases ts with
  | nil => cases h
  | cons => exact h

theorem heedless_repeatAfter {m : Punct} (hp : Heedless p) : Heedless (repeatAfter m p) := by
  intro e e' ts as t rest h
  change repeatRun m p e ts = _ at h
  change repeatRun m p e' ts = _
  fun_induction repeatRun m p e ts generalizing as rest with
  | case1 => cases h
  | case2 => cases h
  | case3 => cases h
  | case4 => cases h
  | case5 t₀ rest₀ between a rest₁ h₁ _ as₁ rest₂ h₂ ih =>
    cases h
    obtain ⟨t₁, rest₁, rfl⟩ : ∃ t₁ more, rest₁ = t₁ :: more := by
      obtain ⟨front, rfl⟩ := repeatRun_suffix h₂
      cases front <;> exact ⟨_, _, rfl⟩
    rw [repeatRun_cons between, hp _ e' _ _ _ _ h₁]
    simp only [ih _ _ h₂]
  | case6 _ _ other =>
    cases h
    unfold repeatRun
    exact if_neg other

/-! ### Names, types and ranges -/

theorem heedless_ident (c : Construct) : Heedless (ident c) :=
  heedless_bind (heedless_refuse _) fun _ => heedless_take _ _

theorem heedless_dottedFrom (c : Construct) (first : Located String) : Heedless (dottedFrom c first) :=
  heedless_bind (heedless_repeatAfter (heedless_ident c)) fun _ => heedless_pure _

theorem heedless_typeNameFrom (c : Construct) (start : TypeNameStart) : Heedless (typeNameFrom c start) := by
  cases start with
  | dot span =>
    refine heedless_bind ?_ fun _ => heedless_pure _
    exact heedless_bind (heedless_ident c) fun _ => heedless_dottedFrom c _
  | ident first => exact heedless_bind (heedless_dottedFrom c first) fun _ => heedless_pure _

theorem heedless_fieldTypeFrom (c : Construct) (start : FieldTypeStart) :
    Heedless (fieldTypeFrom c start) := by
  cases start with
  | scalar s => exact heedless_pure _
  | named start => exact heedless_bind (heedless_typeNameFrom c start) fun _ => heedless_pure _

theorem heedless_fieldType (c : Construct) : Heedless (fieldType c) :=
  heedless_bind (heedless_take _ _) fun _ => heedless_fieldTypeFrom c _

theorem heedless_int (c : Construct) : Heedless (int c) := heedless_take _ _

theorem heedless_validNumber (n : Located Nat) : Heedless (validNumber n) :=
  heedless_ite (heedless_pure _) (heedless_fail _)

theorem heedless_rangeEnd (c : Construct) : Heedless (rangeEnd c) := by
  refine heedless_bind (heedless_take? _) fun span? => ?_
  cases span? with
  | some span => exact heedless_pure _
  | none =>
    exact heedless_bind (heedless_int c) fun n => heedless_ite (heedless_pure _) (heedless_fail _)

theorem heedless_rangeFrom (c : Construct) (n : Located Nat) : Heedless (rangeFrom c n) := by
  refine heedless_bind (heedless_validNumber n) fun first => ?_
  have hlast : ∀ last : Located Nat, Heedless (if first.value ≤ last.value
      then pure (⟨first.value, last.value⟩ : NumberRange)
      else fail (.invalidRange (first.span.join last.span))) :=
    fun last => heedless_ite (heedless_pure _) (heedless_fail _)
  refine heedless_bind (heedless_take? _) fun span? => ?_
  cases span? with
  | some span => exact heedless_bind (heedless_rangeEnd c) hlast
  | none => exact heedless_bind (heedless_pure _) hlast

theorem heedless_range (c : Construct) : Heedless (range c) :=
  heedless_bind (heedless_int c) fun n => heedless_rangeFrom c n

/-! ### Tokens that are passed, and tokens that are refused -/

/-- In front of the tokens `v` the reader takes just `u` and yields a value with `φ`, whatever follows and
however the tokens end. -/
def Passes (p : Reader α) (u v : List Token) (φ : α → Prop) : Prop :=
  ∀ e rest, ∃ a, p.run e (u ++ (v ++ rest)) = .ok (a, v ++ rest) ∧ φ a

/-- At the front of the tokens `u` the reader fails with `fault`, whatever follows and however the tokens
end. -/
def Refuses (p : Reader α) (u : List Token) (fault : Fault) : Prop :=
  ∀ e rest, p.run e (u ++ rest) = .error fault

theorem Heedless.passes {φ : α → Prop} (hp : Heedless p)
    (h : ∀ rest, Reads p u (t :: v ++ rest) φ) : Passes p u (t :: v) φ := by
  intro e rest
  obtain ⟨a, hr, ha⟩ := h rest 0
  exact ⟨a, hp _ e _ _ _ _ hr, ha⟩

theorem passes_take {expected : String} {g : Token → Option α} {a : α} (h : g t = some a) :
    Passes (take c expected g) [t] v (· = a) :=
  fun _ _ => ⟨a, by simp [take, h], rfl⟩

theorem passes_punct {m : Punct} (h : t.kind = .punct m) : Passes (punct c m) [t] v fun _ => True :=
  fun e rest => (passes_take (isPunct_eq_some h) e rest).imp fun _ ha => ⟨ha.1, trivial⟩

theorem passes_int {n : Nat} (h : t.kind = .int n) : Passes (int c) [t] v (· = ⟨n, t.span⟩) :=
  passes_take (by rw [h])

theorem passes_ident (h : t.kind = .ident) : Passes (ident c) [t] v (· = ⟨t.text, t.span⟩) := by
  refine fun e rest => ⟨_, ?_, rfl⟩
  simp [ident, refuse, take, reservedFault_eq_none h, identText, h]

theorem passes_validNumber {n : Located Nat} (h : FieldNumber.isValid n.value = true) :
    Passes (validNumber n) [] v (· = n) :=
  fun _ _ => ⟨n, by simp [validNumber, h], rfl⟩

theorem passes_take?_some {g : Token → Option α} {a : α} (h : g t = some a) :
    Passes (take? g) [t] v (· = some a) :=
  fun _ _ => ⟨_, by simp [take?, h], rfl⟩

theorem passes_take?_none {g : Token → Option α} (h : g t = none) :
    Passes (take? g) [] (t :: v) (· = none) :=
  fun _ _ => ⟨_, by simp [take?, h], rfl⟩

theorem passes_punct?_true {m : Punct} (h : t.kind = .punct m) : Passes (punct? m) [t] v (· = true) :=
  fun _ _ => ⟨_, by simp [punct?, take?, isPunct, h], rfl⟩

theorem passes_punct?_false {m : Punct} (h : t.kind ≠ .punct m) :
    Passes (punct? m) [] (t :: v) (· = false) :=
  fun _ _ => ⟨_, by simp [punct?, take?, isPunct, h], rfl⟩

theorem refuses_fail : Refuses (fail fault : Reader α) u fault := fun _ _ => rfl

theorem refuses_else {P : Prop} [Decidable P] (h : ¬P) : Refuses (if P then p else fail fault) u fault := by
  rw [if_neg h]
  exact refuses_fail

theorem Refuses.bind (h : Refuses p u fault) (f : α → Reader β) : Refuses (p >>= f) u fault := by
  intro e rest
  rw [run_bind, h e rest]

theorem Passes.refuses {φ : α → Prop} (hp : Passes p u v φ) (hf : ∀ a, φ a → Refuses (f a) v fault) :
    Refuses (p >>= f) (u ++ v) fault := by
  intro e rest
  obtain ⟨a, hr, ha⟩ := hp e rest
  rw [run_bind, List.append_assoc, hr]
  exact hf a ha e rest

theorem refuses_repeatAfter {m : Punct} (between : t.kind = .punct m) (h : Refuses p u fault) :
    Refuses (repeatAfter m p) (t :: u) fault := by
  intro e rest
  show repeatRun m p e (t :: (u ++ rest)) = _
  rw [repeatRun_cons between, h e rest]

theorem Passes.refuses_repeatAfter {m : Punct} {φ : α → Prop} (between : t.kind = .punct m)
    (hp : Passes p u v φ) (h : Refuses (repeatAfter m p) v fault) :
    Refuses (repeatAfter m p) (t :: (u ++ v)) fault := by
  intro e rest
  have hv : repeatRun m p e (v ++ rest) = .error fault := h e rest
  obtain ⟨a, hr, -⟩ := hp e rest
  show repeatRun m p e (t :: (u ++ v ++ rest)) = _
  rw [repeatRun_cons between, List.append_assoc, hr]
  simp only [hv]

end Reader

end ProtoSchema

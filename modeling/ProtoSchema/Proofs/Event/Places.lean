import ProtoSchema.Proofs.Event.Progress
import ProtoSchema.Proofs.Event.Reading
import ProtoSchema.Proofs.Token.Faults

/-! # Places of events

The spans that an event carries are spans of the tokens that it is read from, and a statement that
cannot be read is blamed on one of its tokens, on the end of the text or on what the scanner met
(`Reader.Points`, with one rule for each way to build a reader).  So the events of a text show
stretches of that text, one behind the other, and so does the fault that ends them
(`Event.placed_ofText`, `Event.fault_ofText`). -/

namespace ProtoSchema

/-! ### Spans of tokens -/

/-- A span of some tokens: that of one of them, or from one of them to a later one. -/
inductive Span.Covers (ts : List Token) : Span → Prop
  | one {t} (mem : t ∈ ts) : Covers ts t.span
  | between {t u} (order : [t, u].Sublist ts) : Covers ts (t.span.join u.span)

namespace Span.Covers

variable {sp sp' : Span} {ts us : List Token}

theorem mono (h : Covers ts sp) (hs : ts.Sublist us) : Covers us sp := by
  cases h with
  | one mem => exact .one (hs.subset mem)
  | between order => exact .between (order.trans hs)

theorem append_left (h : Covers us sp) (ts : List Token) : Covers (ts ++ us) sp :=
  h.mono (List.sublist_append_right ts us)

theorem append_right (h : Covers ts sp) (us : List Token) : Covers (ts ++ us) sp :=
  h.mono (List.sublist_append_left ts us)

/-- The span begins where a token begins. -/
theorem start_eq (h : Covers ts sp) : ∃ t ∈ ts, sp.start = t.span.start := by
  cases h with
  | one mem => exact ⟨_, mem, rfl⟩
  | between order => exact ⟨_, order.subset (List.mem_cons_self ..), rfl⟩

/-- The span ends where a token ends. -/
theorem stop_eq (h : Covers ts sp) : ∃ t ∈ ts, sp.stop = t.span.stop := by
  cases h with
  | one mem => exact ⟨_, mem, rfl⟩
  | between order => exact ⟨_, order.subset (List.mem_cons_of_mem _ (List.mem_cons_self ..)), rfl⟩

theorem join (h : Covers ts sp) (h' : Covers us sp') : Covers (ts ++ us) (sp.join sp') := by
  obtain ⟨t, ht, hstart⟩ := h.start_eq
  obtain ⟨u, hu, hstop⟩ := h'.stop_eq
  have hjoin : sp.join sp' = t.span.join u.span := by
    unfold Span.join
    rw [hstart, hstop]
  rw [hjoin]
  exact .between ((List.singleton_sublist.mpr ht).append (List.singleton_sublist.mpr hu))

/-- A span of tokens that stand in a text one behind the other is a stretch of the text. -/
theorem within {source : String} (h : Covers ts sp) (hts : ∀ t ∈ ts, t.StandsIn source)
    (hpair : ts.Pairwise fun a b => a.span.stop ≤ b.span.start) : sp.Within source := by
  cases h with
  | one mem => exact (hts _ mem).within
  | @between t u order =>
    have ht := (hts t (order.subset (List.mem_cons_self ..))).within
    have hu := (hts u (order.subset (List.mem_cons_of_mem _ (List.mem_cons_self ..)))).within
    have hle := (List.pairwise_pair.mp (hpair.sublist order))
    exact ⟨ht.ordered.trans (hle.trans hu.ordered), hu.inside, ht.start, hu.stop⟩

/-- A span of earlier tokens ends before a span of later ones begins. -/
theorem stop_le_start (h : Covers ts sp) (h' : Covers us sp')
    (hpair : (ts ++ us).Pairwise fun a b => a.span.stop ≤ b.span.start) : sp.stop ≤ sp'.start := by
  obtain ⟨t, ht, hstop⟩ := h.stop_eq
  obtain ⟨u, hu, hstart⟩ := h'.start_eq
  rw [hstop, hstart]
  exact (List.pairwise_append.mp hpair).2.2 t ht u hu

end Span.Covers

/-- The end of a text is a stretch of no characters. -/
theorem Span.within_end (source : String) : Span.Within ⟨source.utf8ByteSize, source.utf8ByteSize⟩ source := by
  have hend : String.Pos.Raw.IsValid source ⟨source.utf8ByteSize⟩ :=
    isValid_iff.mpr ⟨source.toList, List.prefix_refl _, byteSize_toList source⟩
  exact ⟨le_refl _, le_refl _, hend, hend⟩

/-- The places that show a fault. -/
def Fault.spans (f : Fault) : List Span := f.labels.map Prod.snd

/-- What a fault behind the tokens `ts` shows: some of them, the end of the text, or what ended the
scan. -/
inductive Fault.Blames (e : Ending) (ts : List Token) : Fault → Prop
  | tokens {f sp} (spans : f.spans = [sp]) (covers : sp.Covers ts) : Blames e ts f
  | endOfText {f offset} (ending : e = .endOfText offset) (spans : f.spans = [⟨offset, offset⟩]) :
      Blames e ts f
  | scan {f} (ending : e = .fault f) : Blames e ts f

theorem Fault.Blames.mono {e : Ending} {ts us : List Token} {f : Fault} (h : f.Blames e ts)
    (hs : ts.Sublist us) : f.Blames e us := by
  cases h with
  | tokens spans covers => exact .tokens spans (covers.mono hs)
  | endOfText ending spans => exact .endOfText ending spans
  | scan ending => exact .scan ending

namespace Reader

variable {α β : Type} {before front : List Token}

/-- Behind the tokens `before`, whatever the reader yields and takes has a property, and a fault is
blamed on tokens or on their end. -/
structure Points (before : List Token) (p : Reader α) (φ : List Token → α → Prop) : Prop where
  yields : Yields p φ
  blames : ∀ e ts f, p.run e ts = .error f → f.Blames e (before ++ ts)

theorem Points.mono {p : Reader α} {φ ψ : List Token → α → Prop} (h : Points before p φ)
    (hφ : ∀ used a, φ used a → ψ used a) : Points before p ψ :=
  ⟨h.yields.mono hφ, h.blames⟩

theorem points_pure {a : α} {φ : List Token → α → Prop} (h : φ [] a) : Points before (pure a) φ :=
  ⟨yields_pure h, fun _ _ _ hr => nomatch hr⟩

theorem points_bind {p : Reader α} {f : α → Reader β} {φ : List Token → α → Prop}
    {ψ : List Token → β → Prop} (hp : Points before p φ)
    (hf : ∀ used a, φ used a → Points (before ++ used) (f a) fun used' b => ψ (used ++ used') b) :
    Points before (p >>= f) ψ where
  yields := yields_bind hp.yields fun used a h => (hf used a h).yields
  blames e ts fault hr := by
    rw [run_bind] at hr
    split at hr
    · next a rest ha =>
      obtain ⟨used, rfl, hφ⟩ := hp.yields e ts a rest ha
      rw [← List.append_assoc]
      exact (hf used a hφ).blames e rest fault hr
    · next f' ha =>
      cases hr
      exact hp.blames e ts _ ha

theorem points_fail {fault : Fault} {sp : Span} {φ : List Token → α → Prop}
    (hspans : fault.spans = [sp]) (hcovers : sp.Covers before) : Points before (fail fault) φ where
  yields := yields_fail
  blames e ts f hr := by
    cases hr
    exact .tokens hspans (hcovers.append_right ts)

theorem points_ite {P : Prop} [Decidable P] {p q : Reader α} {φ : List Token → α → Prop}
    (hp : Points before p φ) (hq : Points before q φ) : Points before (if P then p else q) φ := by
  split
  · exact hp
  · exact hq

theorem points_take {c : Construct} {expected : String} {f : Token → Option α} :
    Points before (take c expected f) fun used a => ∃ t, used = [t] ∧ f t = some a where
  yields := yields_take
  blames e ts fault hr := by
    simp only [take] at hr
    split at hr
    · cases hr
      cases e with
      | endOfText offset => exact .endOfText rfl rfl
      | fault f => exact .scan rfl
    · next t rest =>
      split at hr
      · cases hr
      · cases hr
        exact .tokens rfl (.one (List.mem_append_right _ (List.mem_cons_self ..)))

theorem points_take? {f : Token → Option α} :
    Points before (take? f) fun used a => (used = [] ∧ a = none) ∨ ∃ t b, used = [t] ∧ f t = some b ∧
      a = some b where
  yields := yields_take?
  blames e ts fault hr := by
    simp only [take?] at hr
    split at hr
    · split at hr
      · cases hr
      · cases hr
        exact .scan rfl
    · split at hr
      · cases hr
      · cases hr

theorem points_refuse {f : Token → Option Fault}
    (hf : ∀ t fault, f t = some fault → fault.spans = [t.span]) :
    Points before (refuse f) fun used _ => used = [] where
  yields := yields_refuse
  blames e ts fault hr := by
    simp only [refuse] at hr
    split at hr
    · cases hr
    · next t rest =>
      split at hr
      · next hfault =>
        cases hr
        exact .tokens (hf t _ hfault) (.one (List.mem_append_right _ (List.mem_cons_self ..)))
      · cases hr

/-- What is repeated has a property, of a stretch of the tokens that are taken. -/
theorem points_repeatAfter {m : Punct} {p : Reader α} {φ : List Token → α → Prop}
    (hp : ∀ before, Points before p φ) : Points before (repeatAfter m p) fun used as =>
      ∀ a ∈ as, ∃ us, us <:+: used ∧ φ us a where
  yields e ts as rest hr := by
    change repeatRun m p e ts = _ at hr
    fun_induction repeatRun m p e ts generalizing as rest with
    | case1 | case6 =>
      cases hr
      exact ⟨[], rfl, List.forall_mem_nil _⟩
    | case2 | case3 | case4 => cases hr
    | case5 t rest₀ _ a rest₁ h₁ _ as₁ rest₂ h₂ ih =>
      cases hr
      obtain ⟨us, rfl, ha⟩ := (hp []).yields e rest₀ a rest₁ h₁
      obtain ⟨used, rfl, has⟩ := ih _ _ h₂
      refine ⟨t :: (us ++ used), by rw [List.cons_append, List.append_assoc], ?_⟩
      refine List.forall_mem_cons.mpr ⟨⟨us, ⟨[t], used, rfl⟩, ha⟩, fun a ha => ?_⟩
      obtain ⟨vs, hvs, hφ⟩ := has a ha
      have hused : used <:+ t :: (us ++ used) := (List.suffix_append us used).trans (List.suffix_cons t _)
      exact ⟨vs, hvs.trans hused.isInfix, hφ⟩
  blames e ts fault hr := by
    change repeatRun m p e ts = _ at hr
    fun_induction repeatRun m p e ts generalizing before with
    | case1 | case5 | case6 => cases hr
    | case2 f he =>
      cases hr
      exact .scan he
    | case3 t rest _ f h₁ =>
      cases hr
      exact ((hp before).blames e rest _ h₁).mono
        ((List.Sublist.refl before).append (List.sublist_cons_self t rest))
    | case4 t rest _ a rest' h₁ _ f h₂ ih =>
      cases hr
      obtain ⟨us, rfl, -⟩ := (hp []).yields e rest a rest' h₁
      refine (ih h₂).mono ((List.Sublist.refl before).append ?_)
      exact (List.sublist_append_right us rest').trans (List.sublist_cons_self t _)

/-! ### Names -/

theorem points_punct (c : Construct) (p : Punct) :
    Points before (punct c p) fun used sp => sp.Covers used := by
  refine points_take.mono fun used sp h => ?_
  obtain ⟨t, rfl, ht⟩ := h
  unfold isPunct at ht
  split at ht
  · cases ht
    exact .one (List.mem_singleton_self t)
  · cases ht

theorem points_punct? (p : Punct) : Points before (punct? p) fun _ _ => True :=
  points_bind points_take? fun _ _ _ => points_pure trivial

theorem spans_reservedFault (t : Token) (fault : Fault) (h : reservedFault t = some fault) :
    fault.spans = [t.span] := by
  obtain ⟨wordClass, -, rfl⟩ := Option.map_eq_some_iff.mp h
  rfl

theorem points_ident (c : Construct) :
    Points before (ident c) fun used name => name.span.Covers used := by
  refine points_bind (points_refuse spans_reservedFault) fun used _ hused => ?_
  subst hused
  refine points_take.mono fun used name h => ?_
  obtain ⟨t, rfl, ht⟩ := h
  rw [(identText_eq_some_iff.mp ht).2]
  exact .one (List.mem_singleton_self t)

/-- The parts of a dotted name behind its first one. -/
theorem covers_spanOf {first : Span} {more : List (Located String)} {used : List Token}
    (hfirst : first.Covers front) (hmore : ∀ name ∈ more, ∃ us, us <:+: used ∧ name.span.Covers us) :
    (spanOf first more).Covers (front ++ used) := by
  unfold spanOf
  cases hlast : more.getLast? with
  | none => exact hfirst.append_right used
  | some name =>
    obtain ⟨us, hus, hname⟩ := hmore name (List.mem_of_getLast? hlast)
    exact hfirst.join (hname.mono hus.sublist)

theorem points_dottedFrom (c : Construct) {first : Located String} (hfirst : first.span.Covers front) :
    Points before (dottedFrom c first) fun used name => name.span.Covers (front ++ used) := by
  refine points_bind (points_repeatAfter fun _ => points_ident c) fun used more hmore => points_pure ?_
  rw [List.append_nil]
  exact covers_spanOf hfirst hmore

theorem points_dotted (c : Construct) :
    Points before (dotted c) fun used name => name.span.Covers used :=
  points_bind (points_ident c) fun _ _ hfirst => points_dottedFrom c hfirst

/-- The place of the first token of a type name. -/
def TypeNameStart.span : TypeNameStart → Span
  | .dot span => span
  | .ident name => name.span

theorem span_typeNameStart {t : Token} {start : TypeNameStart} (h : typeNameStart t = some start) :
    start.span = t.span := by
  unfold typeNameStart isPunct at h
  split at h
  · next span hs =>
    split at hs
    · cases hs
      cases h
      rfl
    · cases hs
  · obtain ⟨name, hn, rfl⟩ := Option.map_eq_some_iff.mp h
    obtain ⟨-, rfl⟩ := identText_eq_some_iff.mp hn
    rfl

theorem points_typeNameFrom (c : Construct) {start : TypeNameStart} (hstart : start.span.Covers front) :
    Points before (typeNameFrom c start) fun used name => name.span.Covers (front ++ used) := by
  cases start with
  | dot span =>
    refine points_bind (points_dotted c) fun used name hname => points_pure ?_
    rw [List.append_nil]
    exact hstart.join hname
  | ident first =>
    refine points_bind (points_dottedFrom c hstart) fun used name hname => points_pure ?_
    rw [List.append_nil]
    exact hname

theorem points_typeName (c : Construct) :
    Points before (typeName c) fun used name => name.span.Covers used := by
  refine points_bind (points_refuse spans_reservedFault) fun used _ hused => ?_
  subst hused
  refine points_bind points_take fun used start h => ?_
  obtain ⟨t, rfl, ht⟩ := h
  refine points_typeNameFrom c ?_
  rw [span_typeNameStart ht]
  exact .one (List.mem_singleton_self t)

/-! ### Literals and numbers -/

theorem points_string (c : Construct) :
    Points before (string c) fun used s => s.span.Covers used := by
  refine points_take.mono fun used s h => ?_
  obtain ⟨t, rfl, ht⟩ := h
  split at ht
  · cases ht
    exact .one (List.mem_singleton_self t)
  · cases ht

theorem points_int (c : Construct) : Points before (int c) fun used n => n.span.Covers used := by
  refine points_take.mono fun used n h => ?_
  obtain ⟨t, rfl, ht⟩ := h
  split at ht
  · cases ht
    exact .one (List.mem_singleton_self t)
  · cases ht

theorem points_constant (c : Construct) : Points before (constant c) fun _ _ => True := by
  refine points_bind points_take fun used start h => ?_
  obtain ⟨t, rfl, ht⟩ := h
  cases start with
  | whole value => exact points_pure trivial
  | sign negative => exact points_take.mono fun _ _ _ => trivial
  | ident first =>
    have hfirst : first.span.Covers [t] := by
      unfold constantStart at ht
      split at ht <;> cases ht
      exact .one (List.mem_singleton_self t)
    exact points_bind (points_dottedFrom c hfirst) fun _ _ _ => points_pure trivial

theorem points_validNumber {n : Located Nat} (hn : n.span.Covers before) :
    Points before (validNumber n) fun used m => used = [] ∧ m = n :=
  points_ite (points_pure ⟨rfl, rfl⟩) (points_fail rfl hn)

theorem points_fieldNumber (c : Construct) :
    Points before (fieldNumber c) fun used n => n.span.Covers used := by
  refine points_bind (points_int c) fun used n hn => ?_
  refine (points_validNumber (hn.append_left before)).mono fun used' m h => ?_
  obtain ⟨rfl, rfl⟩ := h
  rw [List.append_nil]
  exact hn

theorem points_rangeEnd (c : Construct) :
    Points before (rangeEnd c) fun used n => n.span.Covers used := by
  refine points_bind points_take? fun used keyword? h => ?_
  obtain ⟨rfl, rfl⟩ | ⟨t, span, rfl, ht, rfl⟩ := h
  · refine points_bind (points_int c) fun used n hn => points_ite (points_pure ?_) (points_fail rfl ?_)
    · rw [List.append_nil]
      exact hn
    · exact hn.append_left _
  · refine points_pure ?_
    unfold isKeyword at ht
    split at ht
    · cases ht
      exact .one (List.mem_singleton_self t)
    · cases ht

theorem points_rangeFrom (c : Construct) {n : Located Nat} (hn : n.span.Covers before) :
    Points before (rangeFrom c n) fun _ _ => True := by
  refine points_bind (points_validNumber hn) fun used first h => ?_
  obtain ⟨rfl, rfl⟩ := h
  rw [List.append_nil]
  refine points_bind points_take? fun used keyword? h => ?_
  have hpure : Points (before ++ used) (pure first : Reader (Located Nat)) fun used' last =>
      used' = [] ∧ last = first := points_pure ⟨rfl, rfl⟩
  cases keyword? with
  | some span =>
    refine points_bind (points_rangeEnd c) fun used' last hlast => ?_
    exact points_ite (points_pure trivial) (points_fail rfl ((hn.append_right used).join hlast))
  | none =>
    refine points_bind hpure fun used' last h => ?_
    obtain ⟨rfl, rfl⟩ := h
    rw [List.append_nil]
    exact points_ite (points_pure trivial) (points_fail rfl (hn.append_right used))

theorem points_range (c : Construct) : Points before (range c) fun _ _ => True :=
  points_bind (points_int c) fun _ _ hn => points_rangeFrom c (hn.append_left before)

theorem points_rangesFrom (c : Construct) {n : Located Nat} (hn : n.span.Covers before) :
    Points before (rangesFrom c n) fun _ _ => True :=
  points_bind (points_rangeFrom c hn) fun _ _ _ =>
    points_bind (points_repeatAfter fun _ => points_range c) fun _ _ _ => points_pure trivial

/-! ### Options and types of fields -/

theorem points_optionWord (c : Construct) : Points before (optionWord c) fun _ _ => True :=
  points_take.mono fun _ _ _ => trivial

theorem points_optionRoot (c : Construct) : Points before (optionRoot c) fun _ _ => True := by
  refine points_bind (points_punct? .leftParen) fun _ parenthesis _ => points_ite ?_ ?_
  · exact points_bind (points_typeName c) fun _ _ _ => points_bind (points_punct c _) fun _ _ _ =>
      points_pure trivial
  · exact points_bind (points_optionWord c) fun _ _ _ => points_pure trivial

theorem points_optionDecl (c : Construct) : Points before (optionDecl c) fun _ _ => True :=
  points_bind (points_optionRoot c) fun _ _ _ =>
    points_bind (points_repeatAfter fun _ => points_optionWord c) fun _ _ _ =>
      points_bind (points_punct c _) fun _ _ _ => points_bind (points_constant c) fun _ _ _ =>
        points_pure trivial

theorem points_options (c : Construct) : Points before (options c) fun _ _ => True := by
  refine points_bind (points_punct? .leftBracket) fun _ bracket _ => points_ite ?_ (points_pure trivial)
  exact points_bind (points_optionDecl c) fun _ _ _ =>
    points_bind (points_repeatAfter fun _ => points_optionDecl c) fun _ _ _ =>
      points_bind (points_punct c _) fun _ _ _ => points_pure trivial

/-- The place of the first token of the type of a field. -/
def FieldTypeStart.span : FieldTypeStart → Span
  | .scalar s => s.span
  | .named start => start.span

theorem span_fieldTypeStart {t : Token} {start : FieldTypeStart} (h : fieldTypeStart t = some start) :
    start.span = t.span := by
  unfold fieldTypeStart at h
  split at h
  · cases h
    rfl
  · obtain ⟨start, hs, rfl⟩ := Option.map_eq_some_iff.mp h
    exact span_typeNameStart hs

theorem points_fieldTypeFrom (c : Construct) {start : FieldTypeStart} (hstart : start.span.Covers front) :
    Points before (fieldTypeFrom c start) fun used type => type.span.Covers (front ++ used) := by
  cases start with
  | scalar s => exact points_pure (hstart.append_right [])
  | named start =>
    refine points_bind (points_typeNameFrom c hstart) fun used name hname => points_pure ?_
    rw [List.append_nil]
    exact hname

/-- The first token of the type of a field is its place. -/
theorem covers_fieldTypeStart {t : Token} {start : FieldTypeStart} (h : fieldTypeStart t = some start) :
    start.span.Covers [t] := by
  rw [span_fieldTypeStart h]
  exact .one (List.mem_singleton_self t)

theorem points_fieldType (c : Construct) :
    Points before (fieldType c) fun used type => type.span.Covers used := by
  refine points_bind points_take fun used start h => ?_
  obtain ⟨t, rfl, ht⟩ := h
  exact points_fieldTypeFrom c (covers_fieldTypeStart ht)

theorem points_mapKey : Points before mapKey fun _ _ => True := by
  refine points_bind points_take fun used start h => ?_
  obtain ⟨t, rfl, ht⟩ := h
  refine points_bind (points_fieldTypeFrom .mapField (covers_fieldTypeStart ht)) fun used type htype => ?_
  have hbefore : type.span.Covers (before ++ [t] ++ used) := by
    rw [List.append_assoc]
    exact htype.append_left before
  split
  · exact points_ite (points_pure trivial) (points_fail rfl hbefore)
  · exact points_fail rfl hbefore

end Reader

/-! ### Events -/

namespace Event

open Reader

/-- The places that an event carries, in the order of the text. -/
def spans : Event → List Span
  | edition e => [e.span]
  | package name => [name.span]
  | importFile _ file => [file.span]
  | openMessage name | openEnum name => [name.span]
  | openExtend type => [type.span]
  | required span => [span]
  | field f => [f.type.span, f.name.span, f.number.span]
  | value v => [v.name.span, v.number.span]
  | option _ | reservedRanges _ | reservedNames _ | extensionRanges _ | close => []

/-- All places of the event are spans of the tokens. -/
def Covers (e : Event) (ts : List Token) : Prop := ∀ sp ∈ e.spans, sp.Covers ts

theorem covers_of_spans_eq {e : Event} {sp : Span} {ts : List Token} (he : e.spans = [sp])
    (h : sp.Covers ts) : e.Covers ts := by
  intro sp' hsp'
  rw [he] at hsp'
  rw [List.mem_singleton.mp hsp']
  exact h

theorem covers_of_spans_eq_nil {e : Event} {ts : List Token} (he : e.spans = []) : e.Covers ts := by
  intro sp hsp
  rw [he] at hsp
  cases hsp

theorem Covers.mono {e : Event} {ts us : List Token} (h : e.Covers ts) (hs : ts.Sublist us) :
    e.Covers us :=
  fun sp hsp => (h sp hsp).mono hs

/-- The event that a step yields, if any, is read from the tokens. -/
def StepCovers (ts : List Token) (result : Option Event × Frames) : Prop :=
  ∀ e, result.1 = some e → e.Covers ts

variable {before front : List Token} {fs : Frames} {t : Token}

/-- A step without an event. -/
theorem points_silent {ts : List Token} :
    Points before (pure (none, fs) : Step) fun used => StepCovers (ts ++ used) :=
  points_pure fun _ h => nomatch h

theorem points_emit {p : Reader Event} (hp : Points before p fun used e => e.Covers (front ++ used)) :
    Points before (do emit fs (← p)) fun used => StepCovers (front ++ used) := by
  refine points_bind hp fun used e he => points_pure ?_
  rintro e' ⟨⟩
  rw [List.append_nil]
  exact he

theorem points_refused (c : Construct) (expected : String) {φ : List Token → Option Event × Frames → Prop} :
    Points [t] (refused c expected t) φ :=
  points_fail rfl (.one (List.mem_singleton_self t))

/-! ### Statements of a file -/

theorem points_editionFrom {start : Span} (hstart : start.Covers before) :
    Points before (editionFrom start) fun used e => e.Covers (before ++ used) := by
  refine points_bind (points_punct _ _) fun used₁ _ _ => ?_
  refine points_bind (points_string _) fun used₂ name hname => ?_
  refine points_bind (points_punct _ _) fun used₃ stop hstop => ?_
  split
  · refine points_pure (covers_of_spans_eq rfl (hstart.join ?_))
    exact ((hstop.append_right []).append_left used₂).append_left used₁
  · exact points_fail rfl ((hname.append_left _).append_right used₃)

theorem points_packageFrom {start : Span} (hstart : start.Covers before) :
    Points before (packageFrom start) fun used e => e.Covers (before ++ used) := by
  refine points_bind (points_dotted _) fun used₁ name _ => ?_
  refine points_bind (points_punct _ _) fun used₂ stop hstop => ?_
  exact points_pure (covers_of_spans_eq rfl (hstart.join ((hstop.append_right []).append_left used₁)))

theorem points_importFrom : Points before importFrom fun used e => e.Covers (before ++ used) := by
  refine points_bind points_take? fun used₁ kind _ => ?_
  refine points_bind (points_string _) fun used₂ file hfile => ?_
  refine points_bind (points_punct _ _) fun used₃ _ _ => points_pure (covers_of_spans_eq rfl ?_)
  exact ((hfile.append_right _).append_left used₁).append_left before

theorem points_optionFrom (c : Construct) :
    Points before (optionFrom c) fun used e => e.Covers (front ++ used) :=
  points_bind (points_optionDecl c) fun _ _ _ => points_bind (points_punct c _) fun _ _ _ =>
    points_pure (covers_of_spans_eq_nil rfl)

theorem points_headerFrom (k : BlockKind) :
    Points before (headerFrom fs k) fun used => StepCovers (front ++ used) := by
  have hone : ∀ {used : List Token} {e : Event} {sp : Span}, e.spans = [sp] → sp.Covers used →
      ∀ frames : Frames, StepCovers (front ++ (used ++ [])) (some e, frames) := by
    intro used e sp he h frames e' he'
    cases he'
    exact covers_of_spans_eq he ((h.append_right []).append_left front)
  cases k with
  | message => exact points_bind (points_ident _) fun _ _ h => points_pure (hone rfl h _)
  | extend => exact points_bind (points_typeName _) fun _ _ h => points_pure (hone rfl h _)
  | enum => exact points_bind (points_ident _) fun _ _ h => points_pure (hone rfl h _)

theorem points_statement : Points [t] (statement t) fun used => StepCovers ([t] ++ used) := by
  have hstart : t.span.Covers [t] := .one (List.mem_singleton_self t)
  unfold statement
  split
  · exact points_emit (points_editionFrom hstart)
  · exact points_emit (points_packageFrom hstart)
  · exact points_emit points_importFrom
  · exact points_emit (points_optionFrom _)
  · exact points_headerFrom .message
  · exact points_headerFrom .enum
  · exact points_headerFrom .extend
  · exact points_silent
  · exact points_refused _ _

/-! ### Statements of blocks -/

theorem points_fieldFrom (c : Construct) (form : FieldForm) {type : Located WrittenType}
    (htype : type.span.Covers front) :
    Points before (fieldFrom c form type) fun used e => e.Covers (front ++ used) := by
  refine points_bind (points_ident c) fun used₁ name hname => ?_
  refine points_bind (points_punct c _) fun used₂ _ _ => ?_
  refine points_bind (points_fieldNumber c) fun used₃ number hnumber => ?_
  refine points_bind (points_options c) fun used₄ _ _ => ?_
  refine points_bind (points_punct c _) fun used₅ _ _ => points_pure fun sp hsp => ?_
  simp only [spans, List.mem_cons, List.not_mem_nil, or_false] at hsp
  obtain rfl | rfl | rfl := hsp
  · exact htype.append_right _
  · exact (hname.append_right _).append_left front
  · exact (((hnumber.append_right _).append_left used₂).append_left used₁).append_left front

theorem points_mapFrom : Points before mapFrom fun used e => e.Covers (front ++ used) := by
  refine points_bind (points_punct _ _) fun used₁ _ _ => ?_
  refine points_bind points_mapKey fun used₂ key _ => ?_
  refine points_bind (points_punct _ _) fun used₃ _ _ => ?_
  refine points_bind (points_fieldType _) fun used₄ type htype => ?_
  refine points_bind (points_punct _ _) fun used₅ _ _ => ?_
  have hfront : type.span.Covers (front ++ (used₁ ++ (used₂ ++ (used₃ ++ (used₄ ++ used₅))))) :=
    ((((htype.append_right _).append_left used₃).append_left used₂).append_left used₁).append_left front
  refine (points_fieldFrom _ (.map key) hfront).mono fun used e he => ?_
  simpa only [List.append_assoc] using he

theorem points_reservedFrom : Points before reservedFrom fun used e => e.Covers (front ++ used) := by
  refine points_bind points_take fun used start h => ?_
  obtain ⟨t, rfl, ht⟩ := h
  cases start with
  | name first =>
    exact points_bind (points_repeatAfter fun _ => points_string _) fun _ _ _ =>
      points_bind (points_punct _ _) fun _ _ _ => points_pure (covers_of_spans_eq_nil rfl)
  | number n =>
    have hn : n.span.Covers [t] := by
      unfold reservedStart at ht
      split at ht <;> cases ht
      exact .one (List.mem_singleton_self t)
    exact points_bind (points_rangesFrom _ (hn.append_left before)) fun _ _ _ =>
      points_bind (points_punct _ _) fun _ _ _ => points_pure (covers_of_spans_eq_nil rfl)

theorem points_extensionsFrom : Points before extensionsFrom fun used e => e.Covers (front ++ used) :=
  points_bind (points_int _) fun _ _ hn =>
    points_bind (points_rangesFrom _ (hn.append_left before)) fun _ _ _ =>
      points_bind (points_options _) fun _ _ _ => points_bind (points_punct _ _) fun _ _ _ =>
        points_pure (covers_of_spans_eq_nil rfl)

theorem points_closeFrom : Points before (closeFrom fs) fun used => StepCovers (front ++ used) := by
  refine points_bind (points_punct? _) fun used _ _ => points_pure ?_
  rintro e ⟨⟩
  exact covers_of_spans_eq_nil rfl

theorem points_fieldStarting {step : Step} (h : fieldStarting fs t = some step) :
    Points [t] step fun used => StepCovers ([t] ++ used) := by
  unfold fieldStarting at h
  split at h
  · cases h
    refine points_pure ?_
    rintro e ⟨⟩
    exact covers_of_spans_eq rfl (.one (List.mem_singleton_self t))
  · cases h
    exact points_bind (points_fieldType _) fun used type htype =>
      points_emit (points_fieldFrom _ _ (htype.append_left [t]))
  · obtain ⟨start, hs, rfl⟩ := Option.map_eq_some_iff.mp h
    exact points_bind (points_fieldTypeFrom _ (covers_fieldTypeStart hs)) fun used type htype =>
      points_emit (points_fieldFrom _ _ htype)

theorem points_getD_fieldStarting (c : Construct) (expected : String) :
    Points [t] ((fieldStarting fs t).getD (refused c expected t)) fun used => StepCovers ([t] ++ used) := by
  cases h : fieldStarting fs t with
  | none => exact points_refused c expected
  | some step => exact points_fieldStarting h

theorem points_messageItem (outer : Frames) :
    Points [t] (messageItem outer t) fun used => StepCovers ([t] ++ used) := by
  unfold messageItem
  split
  · exact points_closeFrom
  · exact points_silent
  · exact points_headerFrom .message
  · exact points_headerFrom .enum
  · exact points_headerFrom .extend
  · exact points_emit points_reservedFrom
  · exact points_emit points_extensionsFrom
  · exact points_emit (points_optionFrom _)
  · exact points_emit points_mapFrom
  · exact points_getD_fieldStarting _ _

theorem points_extendItem (outer : Frames) :
    Points [t] (extendItem outer t) fun used => StepCovers ([t] ++ used) := by
  have hrefused : ∀ {f : Fault} {φ : List Token → Option Event × Frames → Prop}, f.spans = [t.span] →
      Points [t] (fail f : Step) φ := fun hspans =>
    points_fail hspans (.one (List.mem_singleton_self t))
  unfold extendItem
  split
  · exact points_closeFrom
  · exact points_silent
  all_goals first | exact hrefused rfl | exact points_getD_fieldStarting _ _

theorem points_requiredField : Points [t] (requiredField fs t) fun used => StepCovers ([t] ++ used) := by
  unfold requiredField
  split
  · next start hs =>
    exact points_bind (points_fieldTypeFrom _ (covers_fieldTypeStart hs)) fun used type htype =>
      points_emit (points_fieldFrom _ _ htype)
  · exact points_refused _ _

theorem points_valueFrom {name : Located String} (hname : name.span.Covers front) :
    Points before (valueFrom name) fun used e => e.Covers (front ++ used) := by
  refine points_bind (points_punct _ _) fun used₁ _ _ => ?_
  refine points_bind (points_punct? _) fun used₂ negative _ => ?_
  refine points_bind (points_int _) fun used₃ magnitude hmagnitude => ?_
  refine points_ite ?_ (points_fail rfl (hmagnitude.append_left _))
  refine points_bind (points_options _) fun used₄ _ _ => ?_
  refine points_bind (points_punct _ _) fun used₅ _ _ => points_pure fun sp hsp => ?_
  simp only [spans, List.mem_cons, List.not_mem_nil, or_false] at hsp
  obtain rfl | rfl := hsp
  · exact hname.append_right _
  · exact (((hmagnitude.append_right _).append_left used₂).append_left used₁).append_left front

theorem points_enumItem (outer : Frames) :
    Points [t] (enumItem outer t) fun used => StepCovers ([t] ++ used) := by
  unfold enumItem
  split
  · exact points_closeFrom
  · exact points_silent
  · exact points_emit (points_optionFrom _)
  · split
    · next name hname =>
      refine points_emit (points_valueFrom ?_)
      rw [(identText_eq_some_iff.mp hname).2]
      exact .one (List.mem_singleton_self t)
    · next fault hnone hfault =>
      exact points_fail (spans_reservedFault t fault hfault) (.one (List.mem_singleton_self t))
    · exact points_refused _ _

/-- A step is blamed on its tokens, and its event is read from them. -/
theorem points_next (fs : Frames) (t : Token) :
    Points [t] (next fs t) fun used => StepCovers ([t] ++ used) := by
  unfold next
  split
  · exact points_statement
  · split
    · exact points_silent
    · exact points_refused _ _
  · exact points_messageItem _
  · exact points_extendItem _
  · exact points_enumItem _
  · exact points_requiredField

/-! ### All events -/

/-- The places of one event end before those of another begin. -/
def Before (a b : Event) : Prop := ∀ sp ∈ a.spans, ∀ sp' ∈ b.spans, sp.stop ≤ sp'.start

/-- The events of some tokens and the fault that ends them. -/
structure ReadFrom (e : Ending) (ts : List Token) (read : List Event × Option Fault) : Prop where
  covers : ∀ event ∈ read.1, event.Covers ts
  ordered : read.1.Pairwise Before
  blames : ∀ f, read.2 = some f → f.Blames e ts

theorem blames_endFault {e : Ending} {f : Fault} {ts : List Token} (h : endFault e fs = some f) :
    f.Blames e ts := by
  cases fs with
  | nil =>
    cases e with
    | endOfText offset => cases h
    | fault f =>
      cases h
      exact .scan rfl
  | cons frame fs =>
    cases h
    cases e with
    | endOfText offset => exact .endOfText rfl rfl
    | fault f => exact .scan rfl

/-- Every round reads its event from the tokens that it takes. -/
theorem Takes.readFrom {e : Ending} {ts : List Token} {us : List (List Token)}
    {read : List Event × Option Fault} (h : Takes e fs ts us read)
    (hpair : ts.Pairwise fun a b => a.span.stop ≤ b.span.start) : ReadFrom e ts read := by
  induction h with
  | stop => exact ⟨List.forall_mem_nil _, .nil, fun f hf => blames_endFault hf⟩
  | fault failed =>
    refine ⟨List.forall_mem_nil _, .nil, fun f hf => ?_⟩
    cases hf
    exact (points_next _ _).blames _ _ _ failed
  | @step fs t taken rest event? fs' us read first more ih =>
    obtain ⟨used, hused, hfirst⟩ := (points_next fs t).yields _ _ _ _ first
    obtain rfl := List.append_cancel_right hused
    obtain ⟨hcovers, hordered, hblames⟩ := ih (List.pairwise_append.mp hpair.of_cons).2.1
    have hrest : rest.Sublist (t :: (taken ++ rest)) :=
      (List.sublist_append_right taken rest).trans (List.sublist_cons_self t _)
    refine ⟨?_, ?_, fun f hf => (hblames f hf).mono hrest⟩
    · intro event hevent
      obtain hevent | hevent := List.mem_append.mp hevent
      · exact (hfirst event (Option.mem_toList.mp hevent)).mono (List.sublist_append_left (t :: taken) rest)
      · exact (hcovers event hevent).mono hrest
    · refine List.pairwise_append.mpr ⟨?_, hordered, ?_⟩
      · cases event? with
        | none => exact .nil
        | some event => exact List.pairwise_singleton _ _
      · intro event hevent later hlater sp hsp sp' hsp'
        have hsp := hfirst event (Option.mem_toList.mp hevent) sp hsp
        exact hsp.stop_le_start (hcovers later hlater sp' hsp') hpair

/-- The events of a text carry stretches of the text, one behind the other. -/
structure PlacedIn (source : String) (es : List Event) : Prop where
  within : ∀ e ∈ es, ∀ sp ∈ e.spans, sp.Within source
  ordered : es.Pairwise Before

theorem readFrom_ofText (source : String) :
    ReadFrom (Scan.ofText source).ending (Scan.ofText source).tokens (ofText source) := by
  obtain ⟨us, h⟩ := exists_takes (Scan.ofText source).ending [] (Scan.ofText source).tokens
  exact h.readFrom (Scan.pairwise_ofText source)

theorem placed_ofText (source : String) : PlacedIn source (ofText source).1 := by
  obtain ⟨hcovers, hordered, -⟩ := readFrom_ofText source
  exact ⟨fun e he sp hsp => (hcovers e he sp hsp).within (Scan.standsIn_ofText source)
    (Scan.pairwise_ofText source), hordered⟩

/-- The fault that ends the events of a text shows one stretch of the text. -/
theorem fault_ofText {source : String} {f : Fault} (h : (ofText source).2 = some f) :
    ∃ sp, f.spans = [sp] ∧ sp.Within source := by
  have hends := Scan.endsWithin_ofText source
  cases (readFrom_ofText source).blames f h with
  | tokens spans covers =>
    exact ⟨_, spans, covers.within (Scan.standsIn_ofText source) (Scan.pairwise_ofText source)⟩
  | endOfText ending spans =>
    rw [ending] at hends
    cases hends
    exact ⟨_, spans, Span.within_end source⟩
  | scan ending =>
    rw [ending] at hends
    cases hends with
    | fault lexical within =>
      obtain ⟨caption, hlabels⟩ := Fault.labels_of_isLexical lexical
      refine ⟨f.span, ?_, within⟩
      rw [Fault.spans, hlabels]
      rfl

end Event

end ProtoSchema

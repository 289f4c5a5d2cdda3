import ProtoSchema.Proofs.Event.Misfits
import ProtoSchema.Proofs.Event.Nesting
import ProtoSchema.Proofs.Event.Productions

/-! # Files and the grammar

The frames that are open say what the rest of the tokens has to be (`demand`).  A step takes a phrase off
the front of what is demanded and leaves what the frames behind it demand (`Phrase.append_mem`), and some
step can be made on all tokens that are demanded (`exists_phrase`).  So the events of some tokens come to
their end without a fault only for tokens of the grammar (`mem_demand_of_ofTokens`), and for those there is
a fault exactly if the reader comes to a value that does not fit (`ofTokens_eq_some_iff`). -/

namespace ProtoSchema.Grammar

open Computability
open Event (Stands)
open Spelling (Statement Step)

variable {L : Language Token} {ts u v w : List Token} {t : Token} {fs fs' outer : Frames} {k : BlockKind}

/-! ### What open frames demand -/

/-- The statements of a block. -/
def item : BlockKind → Language Token
  | .message => decl
  | .extend => empty + field
  | .enum => empty + option + value

/-- The rest of a file inside some open frames. -/
def demand : Frames → Language Token
  | [] => file
  | .header k :: fs => block (item k) * demand fs
  | .body k :: fs => (item k)∗ * (mark .rightBrace * (optional (mark .semicolon) * demand fs))
  | .required :: fs => type * fieldTail * demand fs

/-- A repetition that begins with one more phrase. -/
theorem append_mem_kstar (hu : u ∈ L) (hv : v ∈ L∗) : u ++ v ∈ L∗ := by
  rw [← one_add_mul_kstar (a := L), Language.mem_add, Language.mem_mul]
  exact .inr ⟨u, hu, v, hv, rfl⟩

/-- A repetition is over or begins with a phrase. -/
theorem mem_kstar_cases (h : ts ∈ L∗) : ts = [] ∨ ∃ u ∈ L, ∃ v ∈ L∗, ts = u ++ v := by
  rw [← one_add_mul_kstar (a := L), Language.mem_add, Language.mem_one, Language.mem_mul] at h
  rcases h with h | ⟨u, hu, v, hv, rfl⟩
  · exact .inl h
  · exact .inr ⟨u, hu, v, hv, rfl⟩

theorem append_mem_body (hu : u ∈ item k) (hw : w ∈ demand (.body k :: fs)) :
    u ++ w ∈ demand (.body k :: fs) := by
  obtain ⟨x, hx, y, hy, rfl⟩ := Language.mem_mul.mp hw
  rw [← List.append_assoc]
  exact Language.mem_mul.mpr ⟨_, append_mem_kstar hu hx, y, hy, rfl⟩

/-- The opening brace of a block turns its header into its body. -/
theorem demand_header : demand (.header k :: fs) = mark .leftBrace * demand (.body k :: fs) := by
  simp only [demand, block, mul_assoc]

/-! ### Phrases -/

/-- What one step takes in a file of the grammar, whether the version that it states is known or
not. -/
inductive Phrase : Frames → List Token → Frames → Prop
  | step {fs ts e? fs'} (h : Step fs ts e? fs') : Phrase fs ts fs'
  | edition {t equals name semicolon s} (kind : t.kind = .keyword .edition)
      (mark : equals.kind = .punct .equals) (string : name.kind = .string s)
      (stop : semicolon.kind = .punct .semicolon) : Phrase [] [t, equals, name, semicolon] []

theorem Phrase.statement {e : Event} (written : Statement ts e) (place : e.Stands fs fs') :
    Phrase fs ts fs' :=
  .step (.statement written place)

/-! ### Phrases are derived -/

theorem mem_empty (h : t.kind = .punct .semicolon) : [t] ∈ empty := ⟨t, h, rfl⟩

/-- A statement of the file. -/
theorem mem_statement (h : ts ∈ edition ∨ ts ∈ package ∨ ts ∈ importFile ∨ ts ∈ option ∨
    ts ∈ message ∨ ts ∈ enum ∨ ts ∈ extend ∨ ts ∈ empty) : ts ∈ statement := by
  simp only [statement, Language.mem_add]
  tauto

/-- A statement of a message. -/
theorem mem_decl : ts ∈ decl ↔ ts ∈ empty ∨ ts ∈ message ∨ ts ∈ enum ∨ ts ∈ extend ∨
    ts ∈ option ∨ ts ∈ field ∨ ts ∈ mapField ∨ ts ∈ reserved ∨ ts ∈ extensions := by
  simp only [decl, declWith, Language.mem_add]
  tauto

/-- An empty statement may stand between any others. -/
theorem empty_mem_item (k : BlockKind) (h : ts ∈ empty) : ts ∈ item k := by
  cases k with
  | message => exact mem_decl.mpr (.inl h)
  | extend => exact .inl h
  | enum => exact .inl (.inl h)

theorem field_mem_item (hk : k ≠ .enum) (h : ts ∈ field) : ts ∈ item k := by
  cases k with
  | message => exact mem_decl.mpr (by tauto)
  | extend => exact .inr h
  | enum => exact absurd rfl hk

theorem option_mem_item (hk : k ≠ .extend) (h : ts ∈ option) : ts ∈ item k := by
  cases k with
  | message => exact mem_decl.mpr (by tauto)
  | extend => exact absurd rfl hk
  | enum => exact .inl (.inr h)

/-- The header of a block, in front of the block. -/
def header : BlockKind → Language Token
  | .message => keyword .message * ident
  | .extend => keyword .extend * typeName
  | .enum => keyword .enum * ident

/-- A whole message, extend block or enum. -/
def whole (k : BlockKind) : Language Token := header k * block (item k)

theorem whole_eq : whole k = match k with
    | .message => message
    | .extend => extend
    | .enum => enum := by
  cases k with
  | message => exact message_eq.symm
  | extend => rfl
  | enum => rfl

/-- What stands in the place of a type may be put in front of what is demanded there. -/
theorem whole_append_mem (hfs : fs.TakesTypes) (hu : u ∈ whole k) (hw : w ∈ demand fs) :
    u ++ w ∈ demand fs := by
  rw [whole_eq] at hu
  cases hfs with
  | file => exact append_mem_kstar (mem_statement (by cases k <;> tauto)) hw
  | message => exact append_mem_body (mem_decl.mpr (by cases k <;> tauto)) hw

theorem header_append_mem (hfs : fs.TakesTypes) (hu : u ∈ header k)
    (hw : w ∈ demand (.header k :: fs)) : u ++ w ∈ demand fs := by
  obtain ⟨v, hv, x, hx, rfl⟩ := Language.mem_mul.mp hw
  rw [← List.append_assoc]
  exact whole_append_mem hfs (Language.mem_mul.mpr ⟨u, hu, v, hv, rfl⟩) hx

/-- A step takes a phrase off what is demanded. -/
theorem Phrase.append_mem (h : Phrase fs ts fs') (hw : w ∈ demand fs') : ts ++ w ∈ demand fs := by
  cases h with
  | edition kind mark string stop =>
    exact append_mem_kstar (mem_statement (.inl (mem_edition.mpr
      ⟨_, _, _, _, _, kind, mark, string, stop, rfl⟩))) hw
  | step h =>
    cases h with
    | empty kind between =>
      cases between with
      | file => exact append_mem_kstar (mem_statement (by have := mem_empty kind; tauto)) hw
      | block => exact append_mem_body (empty_mem_item _ (mem_empty kind)) hw
    | brace kind =>
      rw [demand_header]
      exact mem_one_mul.mpr ⟨_, w, kind, hw, rfl⟩
    | statement written place =>
      cases place with
      | edition =>
        cases written with
        | edition kind mark string _ stop =>
          exact append_mem_kstar (mem_statement (.inl (mem_edition.mpr
            ⟨_, _, _, _, _, kind, mark, string, stop, rfl⟩))) hw
      | package =>
        exact append_mem_kstar (mem_statement (.inr (.inl (mem_package.mpr ⟨_, written⟩)))) hw
      | importFile =>
        have := mem_importFile.mpr ⟨_, _, written⟩
        exact append_mem_kstar (mem_statement (by tauto)) hw
      | fileOption =>
        have := mem_option.mpr ⟨_, written⟩
        exact append_mem_kstar (mem_statement (by tauto)) hw
      | option hk => exact append_mem_body (option_mem_item hk (mem_option.mpr ⟨_, written⟩)) hw
      | openMessage hfs =>
        cases written with
        | openMessage kind hident =>
          refine header_append_mem hfs (k := .message) (mem_one_mul.mpr ⟨_, _, kind, ?_, rfl⟩) hw
          exact mem_ident.mpr ⟨_, hident⟩
      | openExtend hfs =>
        cases written with
        | openExtend kind type =>
          refine header_append_mem hfs (k := .extend) (mem_one_mul.mpr ⟨_, _, kind, ?_, rfl⟩) hw
          exact mem_typeName.mpr ⟨_, type⟩
      | openEnum hfs =>
        cases written with
        | openEnum kind hident =>
          refine header_append_mem hfs (k := .enum) (mem_one_mul.mpr ⟨_, _, kind, ?_, rfl⟩) hw
          exact mem_ident.mpr ⟨_, hident⟩
      | required hk =>
        cases written with
        | required kind =>
          obtain ⟨u, hu, v, hv, rfl⟩ := Language.mem_mul.mp hw
          have hfield := mem_field.mpr (.inr ⟨_, u, kind, hu, rfl⟩)
          have hall := append_mem_body (field_mem_item hk hfield) hv
          exact hall
      | requiredField hform =>
        exact Language.mem_mul.mpr ⟨_, mem_requiredField.mpr ⟨_, hform, written⟩, w, hw, rfl⟩
      | field hk hform hl =>
        exact append_mem_body (field_mem_item hk (mem_field.mpr (.inl ⟨_, _, hform, hl, written⟩))) hw
      | mapField hform =>
        have := mem_mapField.mpr ⟨_, _, hform, written⟩
        exact append_mem_body (k := .message) (mem_decl.mpr (by tauto)) hw
      | value => exact append_mem_body (k := .enum) (.inr (mem_value.mpr ⟨_, written⟩)) hw
      | reservedRanges =>
        have := mem_reserved.mpr (.inl ⟨_, written⟩)
        exact append_mem_body (k := .message) (mem_decl.mpr (by tauto)) hw
      | reservedNames =>
        have := mem_reserved.mpr (.inr ⟨_, written⟩)
        exact append_mem_body (k := .message) (mem_decl.mpr (by tauto)) hw
      | extensionRanges =>
        have := mem_extensions.mpr ⟨_, written⟩
        exact append_mem_body (k := .message) (mem_decl.mpr (by tauto)) hw
      | close =>
        refine Language.mem_mul.mpr ⟨[], Language.nil_mem_kstar _, ts ++ w, ?_, rfl⟩
        cases written with
        | @close t kind =>
          exact mem_one_mul.mpr ⟨t, w, kind, Language.mem_mul.mpr
            ⟨[], mem_optional.mpr (.inl rfl), w, hw, rfl⟩, rfl⟩
        | @closeBlock t semicolon kind stop =>
          exact mem_one_mul.mpr ⟨t, semicolon :: w, kind, Language.mem_mul.mpr
            ⟨[semicolon], mem_optional.mpr (.inr (mem_empty stop)), w, hw, rfl⟩, rfl⟩

/-! ### What is demanded begins with a phrase -/

/-- Some step can be made on the tokens, and the frames behind it demand the rest. -/
def Proceeds (fs : Frames) (w : List Token) : Prop :=
  ∃ ts rest fs', Phrase fs ts fs' ∧ rest ∈ demand fs' ∧ w = ts ++ rest

theorem Proceeds.statement {e : Event} (written : Statement ts e) (place : e.Stands fs fs')
    (hw : w ∈ demand fs') : Proceeds fs (ts ++ w) :=
  ⟨ts, w, fs', .statement written place, hw, rfl⟩

theorem Proceeds.empty (hfs : fs.Between) (hu : u ∈ empty) (hw : w ∈ demand fs) :
    Proceeds fs (u ++ w) := by
  obtain ⟨t, kind, rfl⟩ := hu
  exact ⟨[t], w, fs, .step (.empty kind hfs), hw, rfl⟩

/-- A message, extend block or enum begins with its header. -/
theorem Proceeds.whole (hfs : fs.TakesTypes) (hu : u ∈ whole k) (hw : w ∈ demand fs) :
    Proceeds fs (u ++ w) := by
  obtain ⟨v, hv, x, hx, rfl⟩ := Language.mem_mul.mp hu
  have hrest : x ++ w ∈ demand (.header k :: fs) := Language.mem_mul.mpr ⟨x, hx, w, hw, rfl⟩
  rw [List.append_assoc]
  cases k with
  | message =>
    obtain ⟨t, y, kind, hy, rfl⟩ := mem_one_mul.mp hv
    obtain ⟨name, hident⟩ := mem_ident.mp hy
    exact .statement (e := .openMessage ⟨name, default⟩) (.openMessage kind hident)
      (.openMessage hfs) hrest
  | extend =>
    obtain ⟨t, y, kind, hy, rfl⟩ := mem_one_mul.mp hv
    obtain ⟨name, type⟩ := mem_typeName.mp hy
    exact .statement (e := .openExtend ⟨name, default⟩) (.openExtend kind type) (.openExtend hfs) hrest
  | enum =>
    obtain ⟨t, y, kind, hy, rfl⟩ := mem_one_mul.mp hv
    obtain ⟨name, hident⟩ := mem_ident.mp hy
    exact .statement (e := .openEnum ⟨name, default⟩) (.openEnum kind hident) (.openEnum hfs) hrest

theorem proceeds_statement (hu : u ∈ statement) (hw : w ∈ file) : Proceeds [] (u ++ w) := by
  simp only [statement, Language.mem_add] at hu
  rcases hu with ((((((hu | hu) | hu) | hu) | hu) | hu) | hu) | hu
  · obtain ⟨t, equals, name, semicolon, s, kind, mark, string, stop, rfl⟩ := mem_edition.mp hu
    exact ⟨_, w, [], .edition kind mark string stop, hw, rfl⟩
  · obtain ⟨name, written⟩ := mem_package.mp hu
    exact .statement written .package hw
  · obtain ⟨way, target, written⟩ := mem_importFile.mp hu
    exact .statement written .importFile hw
  · obtain ⟨o, written⟩ := mem_option.mp hu
    exact .statement written .fileOption hw
  · exact .whole (k := .message) .file (whole_eq ▸ hu) hw
  · exact .whole (k := .enum) .file (whole_eq ▸ hu) hw
  · exact .whole (k := .extend) .file (whole_eq ▸ hu) hw
  · exact .empty .file hu hw

theorem proceeds_field (hk : k ≠ .enum) (hu : u ∈ field) (hw : w ∈ demand (.body k :: outer)) :
    Proceeds (.body k :: outer) (u ++ w) := by
  rcases mem_field.mp hu with ⟨f, l, hform, hl, written⟩ | ⟨t, v, kind, hv, rfl⟩
  · exact .statement written (.field hk hform hl) hw
  · exact ⟨[t], v ++ w, _, .statement (e := .required t.span) (.required kind) (.required hk),
      Language.mem_mul.mpr ⟨v, hv, w, hw, rfl⟩, rfl⟩

theorem proceeds_item (hu : u ∈ item k) (hw : w ∈ demand (.body k :: outer)) :
    Proceeds (.body k :: outer) (u ++ w) := by
  cases k with
  | message =>
    rcases mem_decl.mp hu with hu | hu | hu | hu | hu | hu | hu | hu | hu
    · exact .empty .block hu hw
    · exact .whole (k := .message) .message (whole_eq ▸ hu) hw
    · exact .whole (k := .enum) .message (whole_eq ▸ hu) hw
    · exact .whole (k := .extend) .message (whole_eq ▸ hu) hw
    · obtain ⟨o, written⟩ := mem_option.mp hu
      exact .statement written (.option (by decide)) hw
    · exact proceeds_field (by decide) hu hw
    · obtain ⟨f, key, hform, written⟩ := mem_mapField.mp hu
      exact .statement written (.mapField hform) hw
    · rcases mem_reserved.mp hu with ⟨rs, written⟩ | ⟨names, written⟩
      · exact .statement written .reservedRanges hw
      · exact .statement written .reservedNames hw
    · obtain ⟨rs, written⟩ := mem_extensions.mp hu
      exact .statement written .extensionRanges hw
  | extend =>
    rcases (Language.mem_add _ _ _).mp hu with hu | hu
    · exact .empty .block hu hw
    · exact proceeds_field (by decide) hu hw
  | enum =>
    rcases (Language.mem_add _ _ _).mp hu with hu | hu
    · rcases (Language.mem_add _ _ _).mp hu with hu | hu
      · exact .empty .block hu hw
      · obtain ⟨o, written⟩ := mem_option.mp hu
        exact .statement written (.option (by decide)) hw
    · obtain ⟨v, written⟩ := mem_value.mp hu
      exact .statement written .value hw

/-- A step can be made on all tokens that are demanded, unless a file is over. -/
theorem proceeds_of_mem (h : w ∈ demand fs) : fs = [] ∧ w = [] ∨ Proceeds fs w := by
  cases fs with
  | nil =>
    rcases mem_kstar_cases h with rfl | ⟨u, hu, v, hv, rfl⟩
    · exact .inl ⟨rfl, rfl⟩
    · exact .inr (proceeds_statement hu hv)
  | cons f fs =>
    refine .inr ?_
    cases f with
    | header k =>
      rw [demand_header] at h
      obtain ⟨t, rest, kind, hrest, rfl⟩ := mem_one_mul.mp h
      exact ⟨[t], rest, _, .step (.brace kind), hrest, rfl⟩
    | body k =>
      obtain ⟨x, hx, y, hy, rfl⟩ := Language.mem_mul.mp h
      rcases mem_kstar_cases hx with rfl | ⟨u, hu, v, hv, rfl⟩
      · obtain ⟨t, z, kind, hz, rfl⟩ := mem_one_mul.mp hy
        obtain ⟨s, hs, rest, hrest, rfl⟩ := Language.mem_mul.mp hz
        rcases mem_optional.mp hs with rfl | ⟨semicolon, stop, rfl⟩
        · exact ⟨[t], rest, _, .statement (.close kind) .close, hrest, rfl⟩
        · exact ⟨[t, semicolon], rest, _, .statement (.closeBlock kind stop) .close, hrest, rfl⟩
      · rw [List.append_assoc]
        exact proceeds_item hu (Language.mem_mul.mpr ⟨v, hv, y, hy, rfl⟩)
    | required =>
      obtain ⟨u, hu, rest, hrest, rfl⟩ := Language.mem_mul.mp h
      obtain ⟨f, hform, written⟩ := mem_requiredField.mp hu
      exact .statement written (.requiredField hform) hrest

/-! ### Steps of the reader -/

/-- Around the innermost frame there are only bodies of blocks. -/
def Settled (fs : Frames) : Prop := ∀ f ∈ fs.tail, ∃ k, f = .body k

theorem Settled.between {f : Frame} (h : Settled (f :: fs)) : fs.Between := by
  cases fs with
  | nil => exact .file
  | cons g fs =>
    obtain ⟨k, rfl⟩ := h g (List.mem_cons_self ..)
    exact .block

theorem Settled.tail {f : Frame} (h : Settled (f :: fs)) : Settled fs :=
  fun g hg => h g (List.mem_of_mem_tail hg)

theorem settled_cons (hfs : Settled fs) (hbetween : fs.Between) (f : Frame) : Settled (f :: fs) := by
  cases hbetween with
  | file => exact fun _ h => absurd h List.not_mem_nil
  | @block k fs => exact List.forall_mem_cons.mpr ⟨⟨k, rfl⟩, hfs⟩

theorem Phrase.settled (h : Phrase fs ts fs') (hfs : Settled fs) : Settled fs' := by
  cases h with
  | edition => exact hfs
  | step h =>
    cases h with
    | empty | brace => exact hfs
    | statement written place =>
      cases place with
      | openMessage htypes | openExtend htypes | openEnum htypes =>
        exact settled_cons hfs (by cases htypes <;> constructor) _
      | required => exact settled_cons hfs .block _
      | requiredField | close => exact hfs.tail
      | _ => exact hfs

/-- No statement begins with a semicolon. -/
theorem exists_cons_of_statement {e : Event} (h : Statement ts e) :
    ∃ t u, ts = t :: u ∧ t.kind ≠ .punct .semicolon := by
  cases h with
  | @field _ _ f front tail =>
    generalize f.form = form, f.type.value = type at front
    cases front with
    | plain written | required written =>
      obtain ⟨t, v, start, rfl, -, hkind, -⟩ := Reader.exists_fieldTypeStart written
      refine ⟨t, _, rfl, fun h => ?_⟩
      simp [h] at hkind
    | label kind | map kind => exact ⟨_, _, rfl, by simp [kind]⟩
  | _ => exact ⟨_, _, rfl, by simp [*]⟩

/-- An empty statement may be left out. -/
theorem drop_semicolon (ht : t.kind = .punct .semicolon) (h : t :: w ∈ demand fs)
    (hfs : fs.Between) : w ∈ demand fs := by
  obtain ⟨-, hnil⟩ | ⟨ts, rest, fs', hphrase, hrest, heq⟩ := proceeds_of_mem h
  · cases hnil
  cases hphrase with
  | edition kind =>
    cases heq
    rw [kind] at ht
    cases ht
  | step hstep =>
    cases hstep with
    | empty =>
      cases heq
      exact hrest
    | brace kind =>
      cases heq
      rw [kind] at ht
      cases ht
    | statement written =>
      obtain ⟨t', u, rfl, hne⟩ := exists_cons_of_statement written
      cases heq
      exact absurd ht hne

/-- The reader makes a step on the tokens, and what remains is demanded again. -/
def Advances (fs : Frames) (ts : List Token) : Prop :=
  ∃ t u rest fs', ts = t :: (u ++ rest) ∧ rest ∈ demand fs' ∧ Settled fs' ∧
    Reader.Reads (Event.next fs t) u rest fun r => r.2 = fs'

open Event in
theorem Advances.statement {e : Event} {rest : List Token} (written : Statement ts e)
    (place : e.Stands fs fs') (inBounds : e.InBounds) (hfs : Settled fs) (hrest : rest ∈ demand fs')
    (hends : StopsAt ts e rest) : Advances fs (ts ++ rest) := by
  obtain ⟨t, u, rfl, hreads⟩ := reads_statement written place inBounds hends
  exact ⟨t, u, rest, fs', rfl, hrest, (Phrase.statement written place).settled hfs,
    hreads.mono fun r hr => hr.1⟩

open Reader Event in
/-- On what is demanded the reader makes a step, or it comes to a value that does not fit.  A semicolon that
could be an empty statement behind a block is read as the end of the block. -/
theorem Phrase.advances_or_misfit (h : Phrase fs ts fs') (hfs : Settled fs) {rest : List Token}
    (hrest : rest ∈ demand fs') :
    Advances fs (ts ++ rest) ∨ ∃ us vs fault, ts = us ++ vs ∧ Spelling.Misfit fs us fault := by
  have hfs' := h.settled hfs
  cases h with
  | @edition t equals name semicolon s kind mark string stop =>
    cases hknown : Edition.ofName? s with
    | none => exact .inr ⟨_, [], _, (List.append_nil _).symm, .edition kind mark string stop hknown⟩
    | some v =>
      refine .inl (.statement (e := .edition ⟨v, default⟩) (.edition kind mark string hknown stop) .edition
        trivial hfs hrest ⟨fun _ h => (by cases h), fun h => (by cases h)⟩)
  | step hstep =>
    cases hstep with
    | @empty _ t kind between =>
      refine .inl ⟨t, [], rest, fs, rfl, hrest, hfs', ?_⟩
      rw [next_semicolon kind between]
      exact reads_pure rfl
    | @brace t k fs kind =>
      refine .inl ⟨t, [], rest, _, rfl, hrest, hfs', ?_⟩
      have hnext : next (.header k :: fs) t = pure (none, .body k :: fs) := by
        simp only [next, kind, if_true]
      rw [hnext]
      exact reads_pure rfl
    | @statement _ _ _ e written place =>
      by_cases inBounds : e.InBounds
      · refine .inl ?_
        by_cases hclose : e = .close
        · subst hclose
          by_cases hsemicolon : Avoids (.punct .semicolon) rest
          · exact .statement written place inBounds hfs hrest
              ⟨fun _ h => (by cases h), fun _ _ => hsemicolon⟩
          · cases written with
            | @close t kind =>
              obtain ⟨s, rest, rfl, hs⟩ : ∃ s rest', rest = s :: rest' ∧ s.kind = .punct .semicolon := by
                cases rest with
                | nil => exact absurd avoids_nil hsemicolon
                | cons s rest => exact ⟨s, rest, rfl, not_not.mp (avoids_cons.not.mp hsemicolon)⟩
              cases place with
              | @close k =>
                have hall : Advances _ ([t, s] ++ rest) := .statement (.closeBlock kind hs) .close trivial hfs
                  (drop_semicolon hs hrest hfs.between) ⟨fun _ h => (by cases h), fun _ h => (by cases h)⟩
                exact hall
            | closeBlock kind hs =>
              exact .statement (.closeBlock kind hs) place trivial hfs hrest
                ⟨fun _ h => (by cases h), fun _ h => (by cases h)⟩
        · refine .statement written place inBounds hfs hrest
            ⟨fun type htype => ?_, fun h => absurd h hclose⟩
          subst htype
          cases place with
          | openExtend =>
            rw [demand_header] at hrest
            obtain ⟨t, rest, kind, -, rfl⟩ := mem_one_mul.mp hrest
            rw [avoids_cons, kind]
            simp
      · exact .inr (written.exists_misfit place inBounds)

/-! ### All tokens -/

open Event in
/-- The tokens of a text that is read to its end are what is demanded. -/
theorem mem_demand_of_ofTokens {n : Nat} (h : (ofTokens (.endOfText n) fs ts).2 = none) : ts ∈ demand fs := by
  obtain ⟨us, htakes⟩ := exists_takes (.endOfText n) fs ts
  generalize ofTokens (.endOfText n) fs ts = read at h htakes
  induction htakes with
  | @stop fs =>
    have hend : endFault (.endOfText n) fs = none := h
    rw [endFault_eq_none hend]
    exact Language.nil_mem_kstar _
  | fault => cases h
  | step first more ih =>
    obtain ⟨used, hused, hspells⟩ := yields_next_spelling _ _ _ _ _ first
    obtain rfl := List.append_cancel_right hused
    exact (Phrase.step hspells.1).append_mem (ih h)

open Reader Event in
/-- On what is demanded there is a fault only where the reader comes to a value that does not fit. -/
theorem stops_of_mem_demand {n : Nat} {fault : Fault} (hfs : Settled fs) (hts : ts ∈ demand fs)
    (hfault : (ofTokens (.endOfText n) fs ts).2 = some fault) : Stops (.endOfText n) fs ts fault := by
  induction h : ts.length using Nat.strongRecOn generalizing fs ts with
  | _ m ih =>
    rcases proceeds_of_mem hts with ⟨rfl, rfl⟩ | ⟨us, rest, fs', hphrase, hrest, rfl⟩
    · simp [ofTokens, endFault] at hfault
    · rcases hphrase.advances_or_misfit hfs hrest with
        ⟨t, u, rest', fs'', heq, hrest', hfs'', hreads⟩ | ⟨front, back, fault', rfl, misfit⟩
      · rw [heq] at h hfault ⊢
        obtain ⟨⟨event?, gs⟩, hr, rfl⟩ := hreads n
        obtain ⟨us, hmore⟩ := exists_takes (.endOfText n) gs rest'
        rw [(Takes.step hr hmore).eq_ofTokens] at hfault
        exact .later hr (ih rest'.length (by simp at h; omega) hfs'' hrest' hfault rfl)
      · have hstops : Stops (.endOfText n) fs (front ++ back ++ rest) fault' := by
          rw [List.append_assoc]
          exact .here misfit
        obtain rfl : fault' = fault := Option.some.inj ((ofTokens_of_stops hstops).symm.trans hfault)
        exact hstops

/-- The tokens of a file of the grammar are read to a fault exactly if the reader comes to a value that does
not fit. -/
theorem ofTokens_eq_some_iff {n : Nat} {fault : Fault} (h : ts ∈ file) :
    (Event.ofTokens (.endOfText n) [] ts).2 = some fault ↔ Event.Stops (.endOfText n) [] ts fault :=
  ⟨stops_of_mem_demand (fun _ h => absurd h List.not_mem_nil) h, Event.ofTokens_of_stops⟩

end ProtoSchema.Grammar

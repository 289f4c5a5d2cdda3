import Mathlib.Data.List.Forall2
import ProtoSchema.Proofs.Pool.Enums
import ProtoSchema.Proofs.Session.Links
import ProtoSchema.Proofs.Session.Traces

/-! # Warnings as files are read

Every enum of a file that is being read is written in front of its cursor (`Traced.writes`), and that of a
complete file is written in its text, with its end (`Completed.writes`).  At the end of an enum without a
value numbered zero a warning is given, once and at no other time: in every session each warning is that
of one such enum, no enum has two warnings, and of the files that are complete or being read no such enum
is without one, unless it is still open (`Warned`). -/

namespace ProtoSchema

namespace Pool

variable {pool other : Pool} {e : EnumId} {w : Warning}

/-- The warning about an enum says what it is called, which value comes first, and where it is. -/
def Warns (pool : Pool) (e : EnumId) (w : Warning) : Prop :=
  ∃ first, (pool.enum e).values.values.head? = some first ∧
    w = ⟨.enumMissingZero (pool.enum e).fullName.text first.name.value (pool.enum e).span,
      (pool.file (pool.enum e).file).name⟩

/-- A warning stays right while its enum and the name of its file stay as they are. -/
theorem Warns.of_same (h : pool.Warns e w)
    (same : other.enum e = { pool.enum e with options := (other.enum e).options })
    (file : (other.file (pool.enum e).file).name = (pool.file (pool.enum e).file).name) :
    other.Warns e w := by
  obtain ⟨first, hfirst, rfl⟩ := h
  refine ⟨first, by rw [same]; exact hfirst, ?_⟩
  rw [same, ← file]

end Pool

namespace Session

variable {r : Resolver} {x y : State} {s s' : Session} {st st' : List Reading} {rd : Reading}
  {f : FileId} {e : EnumId} {name : String}

/-! ### Where the enums of a file are written -/

/-- What the next event does to enums. -/
theorem reading_enumEffect (h : rd.Sound s) {ev : Event} {rest : List Event} {c : Cursor} {pool : Pool}
    {notice : Option Notice} (next : rd.rest = ev :: rest)
    (applied : rd.cursor.apply s.pool ev = .ok (c, pool, notice)) :
    rd.cursor.EnumEffect s.pool ev notice c pool ∧ c.file = rd.cursor.file := by
  obtain ⟨ks, ks', hn, hf, heff, -⟩ := reading_event h next applied
  exact ⟨Cursor.enumEffect_of_apply applied hn hf, heff.file_eq⟩

theorem Traced.writes (h : Traced r s rd) (he : s.pool.EnumOf rd.cursor.file e) :
    rd.cursor.Writes s.pool e rd.done := by
  induction h generalizing e with
  | @start s name file regular free opened =>
    exact absurd he ((fits_begin regular.sound.tree name file).early rfl |>.2 e)
  | @event s rd ev rest c pool notice traced regular next noImport applied ih =>
    obtain ⟨heff, hfile⟩ := reading_enumEffect (regular.sound.reading _ (List.mem_cons_self ..)) next applied
    have he : pool.EnumOf rd.cursor.file e := hfile ▸ he
    exact heff.writes (fun e => ih) he
  | @importFile s rd kind target rest id traced regular next found ih =>
    have heff : rd.cursor.EnumEffect s.pool (.importFile kind target) none rd.cursor
        (s.recordImport rd.cursor.file target.value ⟨id, kind⟩).pool :=
      Cursor.enumEffect_of_eq rfl rfl rfl fun _ => ⟨rfl, nofun⟩
    exact heff.writes (fun e => ih) he
  | later traced later ih =>
    have he := (later.kept.enums e).mp he
    exact (ih he).kept (later.kept.enum e he)

/-- Each value in front of the cursor is a value of an enum of the file. -/
theorem Traced.value_mem (h : Traced r s rd) {v : ValueDecl} (hv : .value v ∈ rd.done) :
    ∃ e, s.pool.EnumOf rd.cursor.file e ∧
      (v.number.value, ⟨v.name, v.options⟩) ∈ (s.pool.enum e).values.entries := by
  induction h with
  | start => cases hv
  | @event s rd ev rest c pool notice traced regular next noImport applied ih =>
    obtain ⟨ks, ks', hn, hf, heff, -⟩ :=
      reading_event (regular.sound.reading _ (List.mem_cons_self ..)) next applied
    have henum := Cursor.enumEffect_of_apply applied hn hf
    show ∃ e, pool.EnumOf c.file e ∧ _
    rw [heff.file_eq]
    rcases List.mem_append.mp hv with hold | hnew
    · obtain ⟨e, he, hentry⟩ := ih hold
      exact ⟨e, (henum.keeps he).1, (henum.keeps he).2.subset hentry⟩
    · obtain rfl := List.mem_singleton.mp hnew
      cases hn with
      | value =>
        cases hf.place with
        | scope noEnum fits => exact absurd rfl fits.1
        | enum inEnum there => exact ⟨_, (henum.keeps there).1, henum.value_mem inEnum there.1⟩
  | @importFile s rd kind target rest id traced regular next found ih =>
    rcases List.mem_append.mp hv with hold | hnew
    · exact ih hold
    · cases List.mem_singleton.mp hnew
  | later traced later ih =>
    obtain ⟨e, he, hentry⟩ := ih hv
    exact ⟨e, (later.kept.enums e).mpr he, by rwa [later.kept.enum e he]⟩

/-- When the text has ended without a fault, no enum is open. -/
theorem Traced.openEnum_eq_none (h : Traced r s rd) (hs : rd.Sound s) (finished : rd.rest = [])
    (noFault : (Event.ofText rd.text).2 = none) : rd.cursor.openEnum = none := by
  cases hopen : rd.cursor.openEnum with
  | none => rfl
  | some e =>
    obtain ⟨_, _, hf, -⟩ := hs.fits
    obtain ⟨front, name, body, hdone, -, inside⟩ := (h.writes (hf.enumOf hopen)).of_opened hopen
    obtain ⟨ks, hnested, hks⟩ := Event.nested_ofText rd.text
    rw [h.text, finished, List.append_nil, hdone, hks noFault] at hnested
    exact absurd (hnested.close_mem rfl) inside

/-- At the end of its text, the enums of a complete file were as they are. -/
theorem Completed.exists_traced {t : Session} (h : Completed r t name f) {file : SourceFile}
    (opened : r.openFile name = .ok file) : ∃ s rd, Traced r s rd ∧ rd.cursor.file = f ∧
      rd.done = (Event.ofText file.text).1 ∧ rd.cursor.openEnum = none ∧ ∀ e,
        (t.pool.EnumOf f e ↔ s.pool.EnumOf f e) ∧ (s.pool.EnumOf f e → t.pool.enum e = s.pool.enum e) := by
  cases h with
  | @intro s rd pool traced regular finished noFault checked later =>
    obtain ⟨file', opened', htext, -⟩ := traced.opened
    obtain rfl : file' = file := Except.ok.inj (opened'.symm.trans opened)
    have hread := regular.sound.reading rd (List.mem_cons_self ..)
    refine ⟨s, rd, traced, rfl, ?_, traced.openEnum_eq_none hread finished noFault, fun e => ?_⟩
    · rw [← htext, traced.text, finished, List.append_nil]
    · -- neither the checks nor what was read later changes the enum
      have hchecked := (regular.sound.checked checked).1
      have hsame : pool.EnumOf rd.cursor.file e ↔ s.pool.EnumOf rd.cursor.file e := by
        have hhas : pool.HasEnum = s.pool.HasEnum := hchecked.sameTree.enums
        have henum : pool.enum = s.pool.enum := hchecked.enum_eq
        rw [Pool.EnumOf, hhas, henum]
        rfl
      refine ⟨(later.kept.enums e).trans hsame, fun he => ?_⟩
      rw [later.kept.enum e (hsame.mpr he)]
      exact congrFun hchecked.enum_eq e

/-- An enum of a complete file is written in its text. -/
theorem Completed.writes {t : Session} (h : Completed r t name f) (he : t.pool.EnumOf f e)
    {file : SourceFile} (opened : r.openFile name = .ok file) : ∃ front header body back,
      (Event.ofText file.text).1 = front ++ .openEnum header :: (body ++ .close :: back) ∧
      (t.pool.enum e).WrittenAs header body ∧ .close ∉ body := by
  obtain ⟨s, rd, traced, rfl, hdone, hclosed, hsame⟩ := h.exists_traced opened
  have hthere := (hsame e).1.mp he
  rw [(hsame e).2 hthere, ← hdone]
  exact (traced.writes hthere).of_closed (by rw [hclosed]; nofun)

/-- Each value in the text of a complete file is a value of an enum of the file. -/
theorem Completed.value_mem {t : Session} (h : Completed r t name f) {file : SourceFile}
    (opened : r.openFile name = .ok file) {v : ValueDecl} (hv : .value v ∈ (Event.ofText file.text).1) :
    ∃ e, t.pool.EnumOf f e ∧
      (v.number.value, ⟨v.name, v.options⟩) ∈ (t.pool.enum e).values.entries := by
  obtain ⟨s, rd, traced, rfl, hdone, -, hsame⟩ := h.exists_traced opened
  obtain ⟨e, he, hentry⟩ := traced.value_mem (hdone ▸ hv)
  exact ⟨e, (hsame e).1.mpr he, by rwa [(hsame e).2 he]⟩

/-! ### The warnings of a session -/

/-- The file is complete or it is being read. -/
def Live (x : State) (f : FileId) : Prop :=
  x.1.Registered f ∨ ∃ rd ∈ x.2, rd.cursor.file = f

/-- The enum is open in one of the files. -/
def Open (st : List Reading) (e : EnumId) : Prop := ∃ rd ∈ st, rd.cursor.openEnum = some e

/-- The warnings of a session are those about the enums `es`. -/
structure Warned (x : State) (es : List EnumId) : Prop where
  nodup : es.Nodup
  warns : List.Forall₂ x.1.pool.Warns es x.1.warnings
  sound : ∀ e ∈ es, x.1.pool.HasEnum e ∧ (x.1.pool.enum e).hasZero = false ∧ ¬Open x.2 e
  complete : ∀ f e, Live x f → x.1.pool.EnumOf f e → (x.1.pool.enum e).hasZero = false →
    e ∈ es ∨ Open x.2 e

variable {es : List EnumId}

theorem warned_empty : Warned ({}, []) [] where
  nodup := List.nodup_nil
  warns := .nil
  sound e he := absurd he List.not_mem_nil
  complete f e hf := by
    rcases hf with ⟨name, hf⟩ | ⟨rd, hrd, -⟩
    · cases hf
    · cases hrd

theorem open_cons : Open (rd :: st) e ↔ rd.cursor.openEnum = some e ∨ Open st e := by
  simp [Open]

theorem live_cons : Live (s, rd :: st) f ↔ f = rd.cursor.file ∨ Live (s, st) f := by
  simp only [Live, List.mem_cons, exists_eq_or_imp, eq_comm (a := f)]
  exact or_left_comm

/-- An open enum is in a file that is being read. -/
theorem Sound.enumOf_of_open (h : Sound x) (hrd : rd ∈ x.2) (he : rd.cursor.openEnum = some e) :
    x.1.pool.EnumOf rd.cursor.file e := by
  obtain ⟨_, _, hf, -⟩ := (h.reading rd hrd).fits
  exact hf.enumOf he

/-- An enum of one file is open in no other file. -/
theorem Sound.not_open (h : Sound (s, rd :: st)) (he : s.pool.EnumOf rd.cursor.file e) : ¬Open st e := by
  rintro ⟨rd', hrd', hopen⟩
  have hfile := (h.enumOf_of_open (List.mem_cons_of_mem _ hrd') hopen).2
  exact h.file_ne hrd' (hfile.symm.trans he.2)

/-- A file that is given up is neither complete nor being read. -/
theorem Sound.not_live (h : Sound (s, rd :: st)) : ¬Live (s, st) rd.cursor.file := by
  rintro (hreg | ⟨rd', hrd', hfile⟩)
  · exact h.not_registered (List.mem_cons_self ..) hreg
  · exact h.file_ne hrd' hfile

/-! ### Steps that give no warning -/

/-- Enums that are not open stay as they are, but for their options, and none of them is opened. -/
structure Spares (x y : State) : Prop where
  since : Since x.1 y.1
  same : ∀ e, x.1.pool.HasEnum e → ¬Open x.2 e → y.1.pool.HasEnum e ∧
    y.1.pool.enum e = { x.1.pool.enum e with options := (y.1.pool.enum e).options }
  opens : ∀ e, x.1.pool.HasEnum e → Open y.2 e → Open x.2 e

/-- The warnings that were given stay right. -/
theorem Warned.warns_of (h : Warned x es) (hx : Sound x) (hs : Spares x y) :
    List.Forall₂ y.1.pool.Warns es x.1.warnings := by
  refine ((List.forall₂_and_left _ _).mpr ⟨h.sound, h.warns⟩).imp ?_
  rintro e w ⟨⟨he, -, hopen⟩, hw⟩
  exact hw.of_same (hs.same e he hopen).2 (hs.since.file _ (hx.tree.hasFile_of_enumOf ⟨he, rfl⟩)).2

theorem Warned.sound_of (h : Warned x es) (hs : Spares x y) (he : e ∈ es) :
    y.1.pool.HasEnum e ∧ (y.1.pool.enum e).hasZero = false ∧ ¬Open y.2 e := by
  obtain ⟨hhas, hzero, hopen⟩ := h.sound e he
  obtain ⟨hhas', hsame⟩ := hs.same e hhas hopen
  exact ⟨hhas', by rw [hsame]; exact hzero, fun ho => hopen (hs.opens e hhas ho)⟩

theorem Warned.mem_of (h : Warned x es) (hs : Spares x y) (hf : Live x f) (he : x.1.pool.EnumOf f e)
    (hclosed : ¬Open x.2 e) (hzero : (y.1.pool.enum e).hasZero = false) : e ∈ es := by
  rw [(hs.same e he.1 hclosed).2] at hzero
  exact (h.complete f e hf he hzero).resolve_right hclosed

/-- No warning is missing, if each enum without zero is open or was closed already. -/
theorem Warned.of_spares (h : Warned x es) (hx : Sound x) (hs : Spares x y)
    (warnings : y.1.warnings = x.1.warnings)
    (before : ∀ f e, Live y f → y.1.pool.EnumOf f e → (y.1.pool.enum e).hasZero = false →
      Open y.2 e ∨ Live x f ∧ x.1.pool.EnumOf f e ∧ ¬Open x.2 e) : Warned y es where
  nodup := h.nodup
  warns := warnings ▸ h.warns_of hx hs
  sound _ := h.sound_of hs
  complete f e hf he hzero := by
    rcases before f e hf he hzero with hopen | ⟨hf, he, hclosed⟩
    · exact .inr hopen
    · exact .inl (h.mem_of hs hf he hclosed hzero)

/-- Nothing happens to enums, and an open enum of a file that is not given up stays open. -/
theorem Warned.of_eq (h : Warned x es) (hx : Sound x) (since : Since x.1 y.1)
    (warnings : y.1.warnings = x.1.warnings) (enums : y.1.pool.HasEnum = x.1.pool.HasEnum)
    (enum : y.1.pool.enum = x.1.pool.enum) (opens : ∀ e, Open y.2 e → Open x.2 e)
    (stays : ∀ f e, Live y f → x.1.pool.EnumOf f e → Live x f ∧ (Open x.2 e → Open y.2 e)) :
    Warned y es := by
  refine h.of_spares hx ⟨since, fun e he _ => ⟨enums ▸ he, by rw [enum]⟩, fun e _ => opens e⟩ warnings
    fun f e hf he _ => ?_
  have he : x.1.pool.EnumOf f e := by rwa [Pool.EnumOf, enums, enum] at he
  obtain ⟨hlive, hopen⟩ := stays f e hf he
  by_cases hx : Open x.2 e
  · exact .inl (hopen hx)
  · exact .inr ⟨hlive, he, hx⟩

/-- A file is given up, whatever it has declared. -/
theorem Warned.giveUp (h : Warned (s, rd :: st) es) (hx : Sound (s, rd :: st)) (since : Since s s')
    (registry : s'.registry = s.registry) (warnings : s'.warnings = s.warnings)
    (enums : s'.pool.HasEnum = s.pool.HasEnum) (enum : s'.pool.enum = s.pool.enum) :
    Warned (s', st) es := by
  refine h.of_eq hx since warnings enums enum (fun e ho => open_cons.mpr (.inr ho)) fun f e hf he => ?_
  have hf : Live (s, st) f := by rwa [Live, Registered, registry] at hf
  refine ⟨live_cons.mpr (.inr hf), fun ho => (open_cons.mp ho).resolve_left fun here => ?_⟩
  have hfile := (hx.enumOf_of_open (List.mem_cons_self ..) here).2
  exact hx.not_live (he.2.symm.trans hfile ▸ hf)

/-! ### Events -/

variable {ev : Event} {c : Cursor} {pool : Pool} {notice : Option Notice} {rest : List Event}

theorem spares_event (since : Since s (s.declare rd.name pool notice))
    (heff : rd.cursor.EnumEffect s.pool ev notice c pool) :
    Spares (s, rd :: st) (s.declare rd.name pool notice, rd.advance c ev rest :: st) where
  since := since
  same _ he hclosed := heff.same he fun ho => hclosed (open_cons.mpr (.inl ho))
  opens _ he ho := open_cons.mpr ((open_cons.mp ho).imp_left (heff.openEnum he))

theorem Live.of_event {rd' : Reading} (h : Live (s.declare rd.name pool notice, rd' :: st) f)
    (hfile : rd'.cursor.file = rd.cursor.file) : Live (s, rd :: st) f := by
  rw [live_cons] at h ⊢
  exact h.imp_left fun h => h.trans hfile

/-- An event that gives no warning leaves no enum without one. -/
theorem Warned.event_silent (h : Warned (s, rd :: st) es) (hx : Sound (s, rd :: st))
    (hspares : Spares (s, rd :: st) (s.declare rd.name pool none, rd.advance c ev rest :: st))
    (hfile : c.file = rd.cursor.file) (heff : rd.cursor.EnumEffect s.pool ev none c pool) :
    Warned (s.declare rd.name pool none, rd.advance c ev rest :: st) es := by
  refine h.of_spares hx hspares (List.append_nil _) fun f e hf he hzero => ?_
  rcases heff.before he.1 with hopen | ⟨hhas, hsame, hclosed⟩
  · exact .inl (open_cons.mpr (.inl hopen))
  · by_cases hopen : Open (rd :: st) e
    · refine .inl (open_cons.mpr (.inr ((open_cons.mp hopen).resolve_left fun here => ?_)))
      -- an enum that is closed without a warning has a value numbered zero
      obtain ⟨rfl, valid⟩ := hclosed here
      obtain ⟨first, -, hnone⟩ := Cursor.closeEnum_eq_ok_iff.mp valid
      rw [show (s.pool.enum e).hasZero = false from hzero] at hnone
      cases hnone
    · exact .inr ⟨hf.of_event hfile, ⟨hhas, hsame.symm.trans he.2⟩, hopen⟩

/-- Where an enum without zero is closed, its warning is added to the others. -/
theorem Warned.event_told (h : Warned (s, rd :: st) es) (hx : Sound (s, rd :: st))
    {rd' : Reading} {n : Notice} (hspares : Spares (s, rd :: st) (s.declare rd.name s.pool (some n), rd' :: st))
    (hfile : rd'.cursor.file = rd.cursor.file) (hclosed : rd'.cursor.openEnum = none)
    (inEnum : rd.cursor.openEnum = some e) (valid : Cursor.closeEnum (s.pool.enum e) = .ok (some n)) :
    Warned (s.declare rd.name s.pool (some n), rd' :: st) (es ++ [e]) := by
  obtain ⟨first, hfirst, hnotice⟩ := Cursor.closeEnum_eq_ok_iff.mp valid
  obtain ⟨hzero, hn⟩ := Option.ite_none_left_eq_some.mp hnotice.symm
  have hopen : Open (rd :: st) e := open_cons.mpr (.inl inEnum)
  have he : s.pool.EnumOf rd.cursor.file e := hx.enumOf_of_open (List.mem_cons_self ..) inEnum
  have hname : (s.pool.file (s.pool.enum e).file).name = rd.name :=
    he.2 ▸ (hx.reading rd (List.mem_cons_self ..)).name
  have hnew : e ∉ es := fun hm => (h.sound e hm).2.2 hopen
  have hother : ¬Open (rd' :: st) e := fun ho =>
    hx.not_open he ((open_cons.mp ho).resolve_left (by simp [hclosed]))
  refine ⟨h.nodup.append (List.nodup_singleton _) (by simpa using hnew),
    List.rel_append (h.warns_of hx hspares) (.cons ⟨first, hfirst, ?_⟩ .nil), fun e' he' => ?_,
    fun f e' hf he' hz => ?_⟩
  · rw [← Option.some.inj hn]
    exact congrArg _ hname.symm
  · rcases List.mem_append.mp he' with he' | he'
    · exact h.sound_of hspares he'
    · cases List.mem_singleton.mp he'
      exact ⟨he.1, Bool.eq_false_iff.mpr hzero, hother⟩
  · rw [List.mem_append, List.mem_singleton]
    by_cases hopen : Open (rd :: st) e'
    · rcases open_cons.mp hopen with here | there
      · exact .inl (.inr (Option.some.inj (here.symm.trans inEnum)))
      · exact .inr (open_cons.mpr (.inr there))
    · exact .inl (.inl (h.mem_of hspares (hf.of_event hfile) he' hopen hz))

/-- Behind an event the warnings are those from before it and that of the enum that was closed. -/
theorem Warned.event (h : Warned (s, rd :: st) es) (hx : Sound (s, rd :: st))
    (since : Since s (s.declare rd.name pool notice)) (hfile : c.file = rd.cursor.file)
    (heff : rd.cursor.EnumEffect s.pool ev notice c pool) :
    ∃ es', Warned (s.declare rd.name pool notice, rd.advance c ev rest :: st) es' := by
  have hspares : Spares (s, rd :: st) (s.declare rd.name pool notice, rd.advance c ev rest :: st) :=
    spares_event since heff
  cases notice with
  | none => exact ⟨es, h.event_silent hx hspares hfile heff⟩
  | some n =>
    cases heff with
    | closed inEnum valid => exact ⟨_, h.event_told hx hspares hfile rfl inEnum valid⟩

/-! ### Every step -/

/-- Behind each step the warnings are those about some enums. -/
theorem Warned.step (hx : Regular x) (hh : History r x) (h : Warned x es) (hs : Step r x y) :
    ∃ es', Warned y es' := by
  have hsound := hx.sound
  have since := Since.of_step hsound hs
  cases hs with
  | @begin s st name file free fresh opened =>
    have hadded := Pool.fileAdded s.pool name file.path
    refine ⟨es, h.of_eq hsound since rfl hadded.hasEnum hadded.enum (fun e ho => ?_) fun f e hf he => ?_⟩
    · exact (open_cons.mp ho).resolve_left nofun
    · refine ⟨(live_cons.mp hf).resolve_left fun hnew => ?_, fun ho => open_cons.mpr (.inr ho)⟩
      exact Pool.not_hasFile_size (hnew ▸ hsound.tree.hasFile_of_enumOf he)
  | event next noImport applied =>
    obtain ⟨heff, hfile⟩ := reading_enumEffect (hsound.reading _ (List.mem_cons_self ..)) next applied
    exact h.event hsound since hfile heff
  | @importFile s st rd kind target rest id next found =>
    have hopen : ∀ e, Open (rd.advance rd.cursor (.importFile kind target) rest :: st) e ↔
        Open (rd :: st) e := fun e => open_cons.trans (Iff.symm open_cons)
    have hlive : ∀ f, Live (s.recordImport rd.cursor.file target.value ⟨id, kind⟩,
        rd.advance rd.cursor (.importFile kind target) rest :: st) f ↔ Live (s, rd :: st) f := fun f =>
      live_cons.trans (Iff.symm live_cons)
    exact ⟨es, h.of_eq hsound since rfl rfl rfl (fun e => (hopen e).mp)
      fun f e hf he => ⟨(hlive f).mp hf, (hopen e).mpr⟩⟩
  | @complete s st rd pool finished noFault checked =>
    have hread := hsound.reading rd (List.mem_cons_self ..)
    have hchecked := (hsound.checked checked).1
    have hclosed := (hh.reading rd (List.mem_cons_self ..)).openEnum_eq_none hread finished noFault
    refine ⟨es, h.of_eq hsound since rfl hchecked.sameTree.enums hchecked.enum_eq
      (fun e ho => open_cons.mpr (.inr ho)) fun f e hf he => ⟨?_, fun ho => ?_⟩⟩
    · rcases hf with hf | hf
      · rcases (registered_register (hsound.distinct.free rd (List.mem_cons_self ..))).mp hf with hf | rfl
        · exact .inl hf
        · exact live_cons.mpr (.inl rfl)
      · exact live_cons.mpr (.inr (.inr hf))
    · exact (open_cons.mp ho).resolve_left (by simp [hclosed])
  | reject finished checked =>
    have hswept := (hsound.swept checked).1
    exact ⟨es, h.giveUp hsound since rfl rfl hswept.sameTree.enums hswept.enum_eq⟩
  | abandon => exact ⟨es, h.giveUp hsound since rfl rfl rfl rfl⟩

/-- The warnings of every session are those about some enums. -/
theorem Warned.steps (hx : Regular x) (hh : History r x) (h : Warned x es) (hs : Steps r x y) :
    ∃ es', Warned y es' := by
  induction hs with
  | refl => exact ⟨es, h⟩
  | tail hsteps hstep ih =>
    obtain ⟨es', h'⟩ := ih
    exact h'.step (hx.steps hsteps) (hh.steps hx hsteps) hstep

end Session

end ProtoSchema

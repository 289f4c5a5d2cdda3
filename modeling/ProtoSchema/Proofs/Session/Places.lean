import ProtoSchema.Proofs.Pool.Places
import ProtoSchema.Proofs.Session.Atomicity

/-! # Where errors are shown

While a file is read, every place that the pool keeps of it is carried by an event in front of the cursor
(`Traced.places`).  An error inside a text was met while some file was read, at an event, at the end of
the text, in the checks or at an import that is missing (`Reading.Meets`), or the resolver has handed it
out (`Fails.origin`).  Where it was met, all that it shows is a stretch of the text of that file, and what
it shows first stands before what it shows last (`Reading.Meets.shownIn`). -/

namespace ProtoSchema

/-- The place that an error reports, if it is an error inside a text. -/
def Error.span? : Error → Option Span
  | source fault _ _ => some fault.span
  | importNotFound _ _ _ span => some span
  | _ => none

/-- All that the error shows is in the text of the file, one place behind the other, and its line and
column are those of the place `span` that it reports. -/
structure Error.ShownIn (e : Error) (name text : String) (span : Span) : Prop where
  file : e.file? = some name
  within : ∀ label ∈ e.labels, label.2.Within text
  ordered : e.labels.Pairwise fun a b => a.2.stop ≤ b.2.start
  position : ∃ front back, text = front ++ back ∧ front.utf8ByteSize = span.start ∧
    e.line = Error.located name
      ⟨1 + front.toList.count '\n', 1 + byteSize (front.toList.rtakeWhile (· ≠ '\n'))⟩ e.message ∧
    ∀ fault, e = .source fault name text → e.location? = some
      (name, ⟨1 + front.toList.count '\n', 1 + byteSize (front.toList.rtakeWhile (· ≠ '\n'))⟩)

/-- The text in front of a stretch of a text ends in the position at which the stretch begins. -/
theorem Span.Within.exists_front {sp : Span} {text : String} (h : sp.Within text) :
    ∃ front back : String, text = front ++ back ∧ front.utf8ByteSize = sp.start ∧
      Position.inText text sp.start = .behind front.toList := by
  obtain ⟨front, ⟨back, htext⟩, hsize⟩ := isValid_iff.mp h.start
  refine ⟨String.ofList front, String.ofList back, ?_, ?_, ?_⟩
  · rw [← String.ofList_append, htext, String.ofList_toList]
  · rw [← byteSize_toList, String.toList_ofList, hsize]
  · rw [String.toList_ofList, ← Position.inText_eq htext.symm, hsize]

/-- The fault shows stretches of a text, one behind the other. -/
structure Fault.FitsIn (f : Fault) (text : String) : Prop where
  within : ∀ sp ∈ f.spans, sp.Within text
  ordered : f.spans.Pairwise fun a b => a.stop ≤ b.start

namespace Fault

variable {f : Fault} {text name : String} {sp first second : Span}

theorem fitsIn_of_one (hspans : f.spans = [sp]) (h : sp.Within text) : f.FitsIn text := by
  constructor
  · rw [hspans]
    exact (List.forall_mem_singleton ..).mpr h
  · rw [hspans]
    exact List.pairwise_singleton _ sp

theorem fitsIn_of_two (hspans : f.spans = [first, second]) (hfirst : first.Within text)
    (hsecond : second.Within text) (hle : first.stop ≤ second.start) : f.FitsIn text := by
  constructor
  · rw [hspans]
    exact List.forall_mem_cons.mpr ⟨hfirst, (List.forall_mem_singleton ..).mpr hsecond⟩
  · rw [hspans]
    exact List.pairwise_pair.mpr hle

/-- The place that is reported is one of those that are shown. -/
theorem span_mem_spans (f : Fault) : f.span ∈ f.spans := by
  obtain ⟨label, hlabel, hspan⟩ := Option.map_eq_some_iff.mp f.getLast?_labels
  rw [← hspan]
  exact List.mem_map_of_mem (List.mem_of_getLast? hlabel)

theorem FitsIn.shownIn (h : f.FitsIn text) (name : String) :
    (Error.source f name text).ShownIn name text f.span where
  file := rfl
  within label hlabel := h.within label.2 (List.mem_map_of_mem hlabel)
  ordered := List.pairwise_map.mp h.ordered
  position := by
    obtain ⟨front, back, htext, hsize, hposition⟩ := (h.within _ f.span_mem_spans).exists_front
    refine ⟨front, back, htext, hsize, ?_, ?_⟩
    · show Error.located name (Position.inText text f.span.start) _ = _
      rw [hposition]
      rfl
    · rintro fault ⟨⟩
      show some (name, Position.inText text f.span.start) = _
      rw [hposition]
      rfl

end Fault

/-- An import statement shows the name of the file that is missing. -/
theorem Span.Within.shownIn {sp : Span} {text : String} (h : sp.Within text) (target name : String) :
    (Error.importNotFound target name text sp).ShownIn name text sp where
  file := rfl
  within := (List.forall_mem_singleton ..).mpr h
  ordered := List.pairwise_singleton _ _
  position := by
    obtain ⟨front, back, htext, hsize, hposition⟩ := h.exists_front
    refine ⟨front, back, htext, hsize, ?_, fun _ h => nomatch h⟩
    show Error.located name (Position.inText text sp.start) _ = _
    rw [hposition]
    rfl

namespace Session

variable {r : Resolver} {x s : Session} {rd : Reading} {limit : Nat} {reading : List String} {name : String}
  {e : Error}

/-! ### Places of a file that is being read -/

/-- The places of a file are carried by the events that were applied. -/
theorem Traced.places (h : Traced r s rd) :
    ∀ sp, s.pool.PlaceOf rd.cursor.file sp → ∃ event ∈ rd.done, sp ∈ event.spans := by
  induction h with
  | @start s name file regular free opened =>
    -- nothing is declared yet
    obtain ⟨hblock, henum⟩ := (fits_begin regular.sound.tree name file).early rfl
    have hnew := (Pool.fileAdded s.pool name file.path).file_new
    intro sp hsp
    cases hsp with
    | file mem =>
      have hmem := (congrArg File.spans hnew) ▸ mem
      cases hmem
    | block there => exact absurd there (hblock _)
    | enum there mem => exact absurd there (henum _)
    | field there mem => exact absurd there.2 (hblock _)
  | @event s rd e rest c pool notice traced regular next noImport applied ih =>
    obtain ⟨ks, ks', hn, hf, heff, -⟩ :=
      reading_event (regular.sound.reading _ (List.mem_cons_self ..)) next applied
    intro sp hsp
    have hsp : pool.PlaceOf c.file sp := hsp
    rw [heff.file_eq] at hsp
    obtain hold | hnew := heff.addsPlaces hn hf regular.sound.tree sp hsp
    · obtain ⟨event, hevent, hmem⟩ := ih sp hold
      exact ⟨event, List.mem_append_left _ hevent, hmem⟩
    · exact ⟨e, List.mem_append_right _ (List.mem_singleton_self e), hnew⟩
  | @importFile s rd kind target rest id traced regular next found ih =>
    intro sp hsp
    have hadds : Pool.AddsPlaces rd.cursor.file [] s.pool
        (s.recordImport rd.cursor.file target.value ⟨id, kind⟩).pool :=
      .modifyFile fun _ _ h => .inl h
    obtain ⟨event, hevent, hmem⟩ := ih sp ((hadds sp hsp).resolve_right List.not_mem_nil)
    exact ⟨event, List.mem_append_left _ hevent, hmem⟩
  | later traced later ih => exact fun sp hsp => ih sp (later.kept.placeOf hsp)

/-! ### What an error shows -/

/-- What stops the reading of a file, and the error for it. -/
inductive Reading.Meets (r : Resolver) (s : Session) (rd : Reading) : Error → Prop
  | event {event rest fault} (next : rd.rest = event :: rest)
      (failed : rd.cursor.apply s.pool event = .error fault) : Meets r s rd (.source fault rd.name rd.text)
  | importFile {kind target rest n} (next : rd.rest = .importFile kind target :: rest)
      (missing : r.openFile target.value = .error (.fileNotFound n)) :
      Meets r s rd (.importNotFound target.value rd.name rd.text target.span)
  | text {fault} (finished : rd.rest = []) (failed : (Event.ofText rd.text).2 = some fault) :
      Meets r s rd (.source fault rd.name rd.text)
  | check {fault pool} (finished : rd.rest = []) (noFault : (Event.ofText rd.text).2 = none)
      (failed : Pool.checkFile rd.cursor.file (s.pool.recordTypes rd.cursor.file) = .error fault pool) :
      Meets r s rd (.source fault rd.name rd.text)

/-- The places of events that are read stand in the text. -/
theorem Traced.within (h : Traced r s rd) {event : Event} (hevent : event ∈ rd.done ∨ event ∈ rd.rest)
    {sp : Span} (hsp : sp ∈ event.spans) : sp.Within rd.text := by
  refine (Event.placed_ofText rd.text).within event ?_ sp hsp
  rw [h.text]
  exact List.mem_append.mpr hevent

/-- The places that the pool keeps of a file stand in its text. -/
theorem Traced.placeOf_within (h : Traced r s rd) {sp : Span} (hsp : s.pool.PlaceOf rd.cursor.file sp) :
    sp.Within rd.text := by
  obtain ⟨event, hevent, hmem⟩ := h.places sp hsp
  exact h.within (.inl hevent) hmem

/-- An event that cannot be applied is shown in the text, behind what is in its way. -/
theorem Traced.fitsIn_of_apply (h : Traced r s rd) (hr : Regular (s, [rd])) {event : Event} {rest : List Event}
    {fault : Fault} (next : rd.rest = event :: rest) (failed : rd.cursor.apply s.pool event = .error fault) :
    fault.FitsIn rd.text := by
  obtain ⟨ks, -, hf, -⟩ := (hr.sound.reading rd (List.mem_cons_self ..)).fits
  have hevent : event ∈ rd.rest := next ▸ List.mem_cons_self ..
  cases Cursor.objects_of_apply hf hr.sound.tree failed with
  | one spans place =>
    obtain hplace | hmem := place
    · exact Fault.fitsIn_of_one spans (h.placeOf_within hplace)
    · exact Fault.fitsIn_of_one spans (h.within (.inr hevent) hmem)
  | two spans place mem =>
    obtain ⟨earlier, hearlier, hfirst⟩ := h.places _ place
    have hordered := (Event.placed_ofText rd.text).ordered
    rw [h.text, List.pairwise_append] at hordered
    exact Fault.fitsIn_of_two spans (h.placeOf_within place) (h.within (.inr hevent) mem)
      (hordered.2.2 earlier hearlier event hevent _ hfirst _ mem)

/-- A file that does not pass its checks shows a declaration in its text. -/
theorem Traced.fitsIn_of_checkFile (h : Traced r s rd) (hr : Regular (s, [rd])) {fault : Fault} {pool : Pool}
    (failed : Pool.checkFile rd.cursor.file (s.pool.recordTypes rd.cursor.file) = .error fault pool) :
    fault.FitsIn rd.text := by
  have hsame := Pool.sameTree_recordTypes s.pool rd.cursor.file
  have hw := hsame.wellFormed hr.sound.tree
  have hfile : (s.pool.recordTypes rd.cursor.file).HasFile rd.cursor.file := hsame.files ▸ h.hasFile.1
  obtain ⟨sp, spans, place⟩ := Pool.place_of_checkFile hw hfile failed
  have hadds : Pool.AddsPlaces rd.cursor.file [] s.pool (s.pool.recordTypes rd.cursor.file) :=
    .modifyFile fun _ _ h => .inl h
  exact Fault.fitsIn_of_one spans (h.placeOf_within ((hadds sp place).resolve_right List.not_mem_nil))

/-- What stops the reading of a file is shown in its text. -/
theorem Reading.Meets.shownIn (h : rd.Meets r s e) (ht : Traced r s rd) (hr : Regular (s, [rd])) {span : Span}
    (hspan : e.span? = some span) : e.ShownIn rd.name rd.text span := by
  cases h with
  | event next failed =>
    cases hspan
    exact (ht.fitsIn_of_apply hr next failed).shownIn rd.name
  | importFile next missing =>
    cases hspan
    have hwithin := ht.within (.inr (next ▸ List.mem_cons_self ..)) (List.mem_singleton_self _)
    exact hwithin.shownIn _ rd.name
  | text finished failed =>
    cases hspan
    obtain ⟨sp, spans, within⟩ := Event.fault_ofText failed
    exact (Fault.fitsIn_of_one spans within).shownIn rd.name
  | check finished noFault failed =>
    cases hspan
    exact (ht.fitsIn_of_checkFile hr failed).shownIn rd.name

/-! ### Where an error comes from -/

/-- A file that is being read imports what its text says. -/
theorem Traced.imports_of_rest (h : Traced r s rd) {kind : ImportKind} {target : Located String}
    {rest : List Event} (next : rd.rest = .importFile kind target :: rest) : r.Imports rd.name target.value := by
  obtain ⟨file, opened, htext, -⟩ := h.opened
  refine ⟨file, kind, target, opened, ?_, rfl⟩
  rw [← htext, h.text, next]
  exact List.mem_append_right _ (List.mem_cons_self ..)

/-- The error comes from a file that `name` is, or that it imports directly or through others: the
resolver has handed it out for that file, or it was met while that file was read. -/
inductive ComesFrom (r : Resolver) (x : Session) (name : String) (e : Error) : Prop
  | resolver {n : String} (imported : Relation.ReflTransGen r.Imports name n)
      (unopened : r.openFile n = .error e) : ComesFrom r x name e
  | reading {s : Session} {rd : Reading} (imported : Relation.ReflTransGen r.Imports name rd.name)
      (underway : Underway r x s rd) (met : rd.Meets r s e) : ComesFrom r x name e

theorem ComesFrom.imported {target : String} (h : ComesFrom r x target e) (hi : r.Imports name target) :
    ComesFrom r x name e := by
  cases h with
  | resolver imported unopened => exact .resolver (.head hi imported) unopened
  | reading imported underway met => exact .reading (.head hi imported) underway met

theorem importError_eq (n text : String) (target : Located String) {e : Error}
    (h : ∀ missing, e ≠ .fileNotFound missing) : importError n text target e = e := by
  cases e with
  | fileNotFound missing => exact absurd rfl (h missing)
  | _ => rfl

/-- A missing file is only reported by the resolver. -/
theorem Fails.unopened_of_fileNotFound {n : String} (h : Fails r x limit reading name (.fileNotFound n)) :
    r.openFile name = .error (.fileNotFound n) := by
  generalize he : Error.fileNotFound n = e at h
  cases h with
  | limit | cycle | event | text | check => cases he
  | unopened free fresh unopened => exact unopened
  | @importFile _ _ _ _ _ _ _ e' underway fresh next failed =>
    cases e' <;> cases he

/-- An error inside a text is met in a file, or handed out by the resolver. -/
theorem Fails.comesFrom (h : Fails r x limit reading name e) {span : Span} (hspan : e.span? = some span) :
    ComesFrom r x name e := by
  induction h with
  | limit | cycle => cases hspan
  | unopened free fresh unopened => exact .resolver .refl unopened
  | event underway fresh next noImport failed => exact .reading .refl underway (.event next failed)
  | @importFile limit reading s rd kind target rest e underway fresh next failed ih =>
    by_cases hmissing : ∃ n, e = .fileNotFound n
    · obtain ⟨n, rfl⟩ := hmissing
      exact .reading .refl underway (.importFile next failed.unopened_of_fileNotFound)
    · have hsame := importError_eq rd.name rd.text target (e := e) fun n he => hmissing ⟨n, he⟩
      rw [hsame] at hspan ⊢
      exact (ih hspan).imported (underway.traced.imports_of_rest next)
  | text underway fresh finished failed => exact .reading .refl underway (.text finished failed)
  | check underway fresh finished noFault names failed =>
    exact .reading .refl underway (.check finished noFault failed)

end Session

end ProtoSchema

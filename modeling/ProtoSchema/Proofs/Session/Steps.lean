import Mathlib.Logic.Relation
import ProtoSchema.Proofs.Ends
import ProtoSchema.Proofs.Pool.Effects
import ProtoSchema.Session

/-! # Sessions step by step

`Session.load` and its helpers run through a stack of files that are being read, innermost first.
`Step` lists all that can happen to a session and that stack: a file is begun, an event is applied,
an import is recorded, a file is completed, or it is given up.  Every run of a session is a
sequence of such steps (`steps_loadUpTo`, `steps_openFile`), whether it ends in an error or not, so
what each step preserves holds after every run. -/

namespace ProtoSchema.Session

/-- A file that is being read: the events in front of the cursor and those behind it. -/
structure Reading where
  name : String
  text : String
  cursor : Cursor
  done : List Event
  rest : List Event

/-- A session with the files that are being read, innermost first. -/
abbrev State := Session × List Reading

/-- The session after a file was put behind the others. -/
def begin (s : Session) (name : String) (file : SourceFile) : Session :=
  { s with pool := (s.pool.addFile name file.path).1 }

/-- A file that no event of is read yet. -/
def Reading.start (id : FileId) (name text : String) : Reading :=
  ⟨name, text, Cursor.start id, [], (Event.ofText text).1⟩

/-- The file after one more event. -/
def Reading.advance (rd : Reading) (c : Cursor) (e : Event) (rest : List Event) : Reading :=
  { rd with cursor := c, done := rd.done ++ [e], rest }

/-- The session after an event of the file `name` that has changed the pool. -/
def declare (s : Session) (name : String) (pool : Pool) (notice : Option Notice) : Session :=
  { s with pool, warnings := s.warnings ++ notice.toList.map (Warning.mk · name) }

/-- The session after an import of the file `id` was recorded. -/
def recordImport (s : Session) (id : FileId) (target : String) (i : Import) : Session :=
  { s with
    pool := s.pool.modifyFile id fun f => { f with imports := f.imports.insert target i } }

/-- The session after a file was completed. -/
def register (s : Session) (pool : Pool) (name : String) (id : FileId) : Session :=
  { s with pool, registry := s.registry.insert name id }

/-- What can happen to a session. -/
inductive Step (r : Resolver) : State → State → Prop
  | begin {s st name file} (free : s.registry.find? name = none)
      (fresh : ∀ rd ∈ st, rd.name ≠ name) (opened : r.openFile name = .ok file) :
      Step r (s, st) (s.begin name file, .start ⟨s.pool.files.size⟩ name file.text :: st)
  | event {s st} {rd : Reading} {e rest c pool notice} (next : rd.rest = e :: rest)
      (noImport : ∀ kind target, e ≠ .importFile kind target)
      (applied : rd.cursor.apply s.pool e = .ok (c, pool, notice)) :
      Step r (s, rd :: st) (s.declare rd.name pool notice, rd.advance c e rest :: st)
  | importFile {s st} {rd : Reading} {kind target rest id}
      (next : rd.rest = .importFile kind target :: rest)
      (found : s.registry.find? target.value = some id) :
      Step r (s, rd :: st) (s.recordImport rd.cursor.file target.value ⟨id, kind⟩,
        rd.advance rd.cursor (.importFile kind target) rest :: st)
  | complete {s st} {rd : Reading} {pool} (finished : rd.rest = [])
      (noFault : (Event.ofText rd.text).2 = none)
      (checked : Pool.checkFile rd.cursor.file (s.pool.recordTypes rd.cursor.file) = .ok () pool) :
      Step r (s, rd :: st) (s.register pool rd.name rd.cursor.file, st)
  | reject {s st} {rd : Reading} {fault pool} (finished : rd.rest = [])
      (checked : Pool.checkFile rd.cursor.file (s.pool.recordTypes rd.cursor.file) =
        .error fault pool) :
      Step r (s, rd :: st) ({ s with pool }, st)
  | abandon {s st} {rd : Reading} : Step r (s, rd :: st) (s, st)

/-- Some steps after each other. -/
abbrev Steps (r : Resolver) : State → State → Prop := Relation.ReflTransGen (Step r)

variable {r : Resolver}

/-! ### Names -/

/-- The files that are being read have different names, and none of them is registered. -/
structure Distinct (x : State) : Prop where
  nodup : (x.2.map Reading.name).Nodup
  free : ∀ rd ∈ x.2, x.1.registry.find? rd.name = none

theorem Distinct.step {x y : State} (h : Distinct x) (hs : Step r x y) : Distinct y := by
  obtain ⟨nodup, free⟩ := h
  cases hs with
  | begin free' fresh opened =>
    refine ⟨List.nodup_cons.mpr ⟨fun hm => ?_, nodup⟩, List.forall_mem_cons.mpr ⟨free', free⟩⟩
    obtain ⟨rd, hrd, hn⟩ := List.mem_map.mp hm
    exact fresh rd hrd hn
  | event | importFile =>
    rw [List.forall_mem_cons] at free
    exact ⟨nodup, List.forall_mem_cons.mpr free⟩
  | @complete s st rd pool finished noFault checked =>
    rw [List.map_cons, List.nodup_cons] at nodup
    rw [List.forall_mem_cons] at free
    refine ⟨nodup.2, fun rd' hrd' => ?_⟩
    have hne : rd'.name ≠ rd.name := fun e => nodup.1 (e ▸ List.mem_map_of_mem hrd')
    simp only [register, Table.find?_insert, if_neg hne, Option.or_none]
    exact free.2 rd' hrd'
  | reject | abandon =>
    rw [List.map_cons, List.nodup_cons] at nodup
    rw [List.forall_mem_cons] at free
    exact ⟨nodup.2, free.2⟩

theorem Distinct.steps {x y : State} (h : Distinct x) (hs : Steps r x y) : Distinct y := by
  induction hs with
  | refl => exact h
  | tail _ hstep ih => exact ih.step hstep

/-! ### Every run goes by steps -/

/-- With the files of the stack being read, `load` goes by steps to a registered file. -/
def Loads (r : Resolver) (load : String → SessionM FileId) (st : List Reading) : Prop :=
  ∀ name s, Distinct (s, st) → Ends (load name s)
    (fun id s' => Steps r (s, st) (s', st) ∧ s'.registry.find? name = some id)
    (fun s' => Steps r (s, st) (s', st))

/-- What a file reports of an import that failed. -/
def importError (name text : String) (target : Located String) : Error → Error
  | .fileNotFound _ => .importNotFound target.value name text target.span
  | e => e

theorem applyEvent_importFile (load : String → SessionM FileId) (name text : String) (c : Cursor)
    (kind : ImportKind) (target : Located String) (s : Session) :
    applyEvent load name text c (.importFile kind target) s =
      match load target.value s with
      | .ok id s' => .ok c (s'.recordImport c.file target.value ⟨id, kind⟩)
      | .error e s' => .error (importError name text target e) s' := by
  simp only [applyEvent, Bind.bind, EStateM.bind, EStateM.adaptExcept]
  cases load target.value s with
  | ok id s' => rfl
  | error e s' => cases e <;> rfl

theorem applyEvent_of_ne {load : String → SessionM FileId} {name text : String} {c : Cursor}
    {e : Event} (he : ∀ kind target, e ≠ .importFile kind target) (s : Session) :
    applyEvent load name text c e s =
      match c.apply s.pool e with
      | .error fault => .error (.source fault name text) s
      | .ok (c', pool, notice) => .ok c' (s.declare name pool notice) := by
  cases e with
  | importFile kind target => exact absurd rfl (he kind target)
  | _ =>
    simp only [applyEvent, bind, EStateM.bind, get_apply]
    cases c.apply s.pool _ <;> rfl

theorem steps_applyEvent {load : String → SessionM FileId} {rd : Reading} {st : List Reading}
    (hl : Loads r load (rd :: st)) {e : Event} {rest : List Event} (hrest : rd.rest = e :: rest)
    {s : Session} (hd : Distinct (s, rd :: st)) :
    Ends (applyEvent load rd.name rd.text rd.cursor e s)
      (fun c s' => Steps r (s, rd :: st) (s', rd.advance c e rest :: st) ∧
        c.file = rd.cursor.file)
      (fun s' => Steps r (s, rd :: st) (s', st)) := by
  by_cases hi : ∃ kind target, e = .importFile kind target
  · obtain ⟨kind, target, rfl⟩ := hi
    have h := hl target.value s hd
    rw [applyEvent_importFile]
    cases hload : load target.value s with
    | ok id s' =>
      rw [hload] at h
      exact ⟨h.1.tail (.importFile hrest h.2), rfl⟩
    | error e s' =>
      rw [hload] at h
      exact h.tail .abandon
  · have hi : ∀ kind target, e ≠ .importFile kind target := fun k t he => hi ⟨k, t, he⟩
    rw [applyEvent_of_ne hi]
    cases hc : rd.cursor.apply s.pool e with
    | error fault => exact .single .abandon
    | ok result =>
      obtain ⟨c, pool, notice⟩ := result
      exact ⟨.single (.event hrest hi hc), (Cursor.effect_of_apply hc).file_eq⟩

/-- The file after the events `es`. -/
def Reading.advanceAll (rd : Reading) (c : Cursor) (es : List Event) : Reading :=
  { rd with cursor := c, done := rd.done ++ es, rest := [] }

theorem steps_events {load : String → SessionM FileId} {st : List Reading} (es : List Event) :
    ∀ (rd : Reading), rd.rest = es →
      (∀ rd' : Reading, rd'.name = rd.name → Loads r load (rd' :: st)) →
      ∀ s, Distinct (s, rd :: st) →
      Ends (es.foldlM (applyEvent load rd.name rd.text) rd.cursor s)
        (fun c s' => Steps r (s, rd :: st) (s', rd.advanceAll c es :: st) ∧
          c.file = rd.cursor.file)
        (fun s' => Steps r (s, rd :: st) (s', st)) := by
  induction es with
  | nil =>
    intro rd hrest _ s _
    have : rd.advanceAll rd.cursor [] = rd := by
      obtain ⟨name, text, c, done, rest⟩ := rd
      subst hrest
      simp [Reading.advanceAll]
    show Steps r _ (s, rd.advanceAll rd.cursor [] :: st) ∧ _
    rw [this]
    exact ⟨.refl, rfl⟩
  | cons e es ih =>
    intro rd hrest hl s hd
    rw [List.foldlM_cons]
    refine Ends.bind ((steps_applyEvent (hl rd rfl) hrest hd).mono ?_ fun _ h => h)
    rintro c s' ⟨h, hc⟩
    refine (ih (rd.advance c e es) rfl (fun rd' hn => hl rd' hn) s' (hd.steps h)).mono ?_
      fun _ h' => h.trans h'
    rintro c' s'' ⟨h', hc'⟩
    have : (rd.advance c e es).advanceAll c' es = rd.advanceAll c' (e :: es) := by
      simp [Reading.advanceAll, Reading.advance]
    rw [← this]
    exact ⟨h.trans h', hc'.trans hc⟩

/-! ### Whole files -/

theorem parse_eq (load : String → SessionM FileId) (name : String) (file : SourceFile)
    (s : Session) :
    parse load name file s =
      match (Event.ofText file.text).1.foldlM (applyEvent load name file.text)
        (Cursor.start ⟨s.pool.files.size⟩) (s.begin name file) with
      | .error e s' => .error e s'
      | .ok _ s' =>
        match (Event.ofText file.text).2 with
        | some fault => .error (.source fault name file.text) s'
        | none => .ok ⟨s.pool.files.size⟩ s' := by
  simp only [parse, bind, EStateM.bind, get_apply, set_apply]
  cases h : (Event.ofText file.text).1.foldlM (applyEvent load name file.text)
      (Cursor.start ⟨s.pool.files.size⟩) (s.begin name file) with
  | error e s' =>
    simp only [begin, Pool.addFile] at h ⊢
    rw [h]
  | ok c s' =>
    simp only [begin, Pool.addFile] at h ⊢
    rw [h]
    cases (Event.ofText file.text).2 <;> rfl

theorem steps_parse {load : String → SessionM FileId} {name : String} {file : SourceFile}
    {st : List Reading} {s : Session} (hd : Distinct (s, st))
    (free : s.registry.find? name = none) (fresh : ∀ rd ∈ st, rd.name ≠ name)
    (opened : r.openFile name = .ok file)
    (hl : ∀ rd : Reading, rd.name = name → Loads r load (rd :: st)) :
    Ends (parse load name file s)
      (fun id s' => ∃ rd : Reading, rd.name = name ∧ rd.text = file.text ∧ rd.rest = [] ∧
        rd.cursor.file = id ∧ (Event.ofText file.text).2 = none ∧ Steps r (s, st) (s', rd :: st))
      (fun s' => Steps r (s, st) (s', st)) := by
  have hstart : Steps r (s, st)
      (s.begin name file, .start ⟨s.pool.files.size⟩ name file.text :: st) :=
    .single (.begin free fresh opened)
  have hevents := steps_events (Event.ofText file.text).1
    (.start ⟨s.pool.files.size⟩ name file.text) rfl (fun rd hn => hl rd hn) (s.begin name file)
    (hd.steps hstart)
  simp only [Reading.start] at hevents
  rw [parse_eq]
  cases hfold : (Event.ofText file.text).1.foldlM (applyEvent load name file.text)
      (Cursor.start ⟨s.pool.files.size⟩) (s.begin name file) with
  | error e s' =>
    rw [hfold] at hevents
    exact hstart.trans hevents
  | ok c s' =>
    rw [hfold] at hevents
    obtain ⟨hsteps, hc⟩ := hevents
    cases hfault : (Event.ofText file.text).2 with
    | some fault => exact (hstart.trans hsteps).tail .abandon
    | none => exact ⟨_, rfl, rfl, rfl, hc, rfl, hstart.trans hsteps⟩

theorem complete_eq (load : String → SessionM FileId) (name : String) (file : SourceFile)
    (s : Session) :
    complete load name file s =
      match parse load name file s with
      | .error e s' => .error e s'
      | .ok id s' =>
        match Pool.checkFile id (s'.pool.recordTypes id) with
        | .error fault pool => .error (.source fault name file.text) { s' with pool }
        | .ok _ pool => .ok id (s'.register pool name id) := by
  simp only [complete, bind, EStateM.bind]
  cases parse load name file s with
  | error e s' => rfl
  | ok id s' =>
    simp only [onPool, modify_apply, bind, EStateM.bind, get_apply]
    cases Pool.checkFile id (s'.pool.recordTypes id) <;> rfl

theorem steps_complete {load : String → SessionM FileId} {name : String} {file : SourceFile}
    {st : List Reading} {s : Session} (hd : Distinct (s, st))
    (free : s.registry.find? name = none) (fresh : ∀ rd ∈ st, rd.name ≠ name)
    (opened : r.openFile name = .ok file)
    (hl : ∀ rd : Reading, rd.name = name → Loads r load (rd :: st)) :
    Ends (complete load name file s)
      (fun id s' => Steps r (s, st) (s', st) ∧ s'.registry.find? name = some id)
      (fun s' => Steps r (s, st) (s', st)) := by
  have hparse := steps_parse hd free fresh opened hl
  rw [complete_eq]
  cases hp : parse load name file s with
  | error e s' =>
    rw [hp] at hparse
    exact hparse
  | ok id s' =>
    rw [hp] at hparse
    obtain ⟨rd, rfl, htext, hrest, rfl, hfault, hsteps⟩ := hparse
    have hfree := (hd.steps hsteps).free rd (List.mem_cons_self ..)
    cases hc : Pool.checkFile rd.cursor.file (s'.pool.recordTypes rd.cursor.file) with
    | error fault pool =>
      simp only [hc]
      exact hsteps.tail (.reject hrest hc)
    | ok u pool =>
      simp only [hc]
      refine ⟨hsteps.tail (.complete hrest (htext ▸ hfault) hc), ?_⟩
      simp [register, Table.find?_insert, show s'.registry.find? rd.name = none from hfree]

theorem loadUpTo_of_registered {limit : Nat} {reading : List String} {name : String} {s : Session}
    {id : FileId} (h : s.registry.find? name = some id) :
    loadUpTo r limit reading name s = .ok id s := by
  cases limit <;>
    simp only [loadUpTo, bind, EStateM.bind, get_apply, h] <;> rfl

theorem loadUpTo_zero (r : Resolver) (reading : List String) {name : String} {s : Session}
    (h : s.registry.find? name = none) : loadUpTo r 0 reading name s =
      .error (.circularImport name (reading.dropWhile (· ≠ name) ++ [name])) s := by
  simp only [loadUpTo, bind, EStateM.bind, get_apply, h]
  rfl

theorem loadUpTo_succ (r : Resolver) (limit : Nat) (reading : List String) {name : String}
    {s : Session} (h : s.registry.find? name = none) : loadUpTo r (limit + 1) reading name s =
      if name ∈ reading then
        .error (.circularImport name (reading.dropWhile (· ≠ name) ++ [name])) s
      else
        match r.openFile name with
        | .error e => .error e s
        | .ok file => complete (loadUpTo r limit (reading ++ [name])) name file s := by
  simp only [loadUpTo, bind, EStateM.bind, get_apply, h]
  split
  · rfl
  · cases r.openFile name <;> rfl

/-- The names of the files that are being read are those of the stack, outermost first. -/
theorem steps_loadUpTo (limit : Nat) : ∀ st : List Reading,
    Loads r (loadUpTo r limit (st.map Reading.name).reverse) st := by
  induction limit using Nat.strongRecOn with
  | _ limit ih =>
    intro st name s hd
    cases hreg : s.registry.find? name with
    | some id =>
      rw [loadUpTo_of_registered hreg]
      exact ⟨.refl, hreg⟩
    | none =>
      cases limit with
      | zero =>
        rw [loadUpTo_zero r _ hreg]
        exact .refl
      | succ limit =>
        rw [loadUpTo_succ r limit _ hreg]
        split
        · exact .refl
        · next hn =>
          cases hf : r.openFile name with
          | error e => exact .refl
          | ok file =>
            refine steps_complete hd hreg (fun rd hrd e => hn ?_) hf fun rd hrd => ?_
            · rw [List.mem_reverse, ← e]
              exact List.mem_map_of_mem hrd
            · have := ih limit (Nat.lt_succ_self _) (rd :: st)
              rwa [List.map_cons, List.reverse_cons, hrd] at this

/-- Reading an open file and its imports goes by steps. -/
theorem steps_loadOpened {name : String} {file : SourceFile} {s : Session}
    (free : s.registry.find? name = none) (opened : r.openFile name = .ok file) :
    Ends (loadOpened r name file s)
      (fun id s' => Steps r (s, []) (s', []) ∧ s'.registry.find? name = some id)
      (fun s' => Steps r (s, []) (s', [])) := by
  refine steps_complete ⟨List.nodup_nil, by simp⟩ free (by simp) opened fun rd hrd => ?_
  have := steps_loadUpTo (r := r) (importLimit r) [rd]
  rwa [List.map_singleton, List.reverse_singleton, hrd] at this

end ProtoSchema.Session

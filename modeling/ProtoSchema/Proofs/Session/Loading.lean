import Mathlib.Data.List.Nodup
import ProtoSchema.Proofs.Event.Progress
import ProtoSchema.Proofs.Session.Depth

/-! # Loading without a bound

`Runs` says how a session loads, reads and applies, with no bound for how deep files are read within each
other.  A file that is read within others has a name that is none of theirs (`Runs.failed`,
`Runs.finished`), and all names but the outermost one are imported by texts that the resolver serves, so
each run comes to an end (`runs_iff`).  It reads each file once (`Runs.once`), and no more files than there
are names that can be imported (`Runs.length_le`). -/

namespace ProtoSchema.Session

/-- What a run of a session ends in. -/
abbrev Outcome (α : Type) := EStateM.Result Error Session α

/-- What a session can have to do. -/
inductive Task where
  /-- To find the file with a name. -/
  | load (name : String)
  /-- To read, check and register a file that is open. -/
  | read (name : String) (file : SourceFile)
  /-- To apply the events of a file where a cursor is. -/
  | apply (name text : String) (c : Cursor) (es : List Event)

/-- The end of a file, all events of which were applied. -/
def finishFile (name text : String) (id : FileId) (fault? : Option Fault) (s : Session) : Outcome FileId :=
  match fault? with
  | some fault => .error (.source fault name text) s
  | none =>
    match Pool.checkFile id (s.pool.recordTypes id) with
    | .error fault pool => .error (.source fault name text) { s with pool }
    | .ok _ pool => .ok id (s.register pool name id)

/-- While the files `reading` are being read, a task leads from a session to an outcome, and the files
`names` are read on the way. -/
inductive Runs (r : Resolver) : List String → Task → Session → Outcome FileId → List String → Prop
  | registered {reading name s id} (found : s.registry.find? name = some id) :
      Runs r reading (.load name) s (.ok id s) []
  | cycle {reading name s} (free : s.registry.find? name = none) (cyclic : name ∈ reading) :
      Runs r reading (.load name) s
        (.error (.circularImport name (reading.dropWhile (· ≠ name) ++ [name])) s) []
  | unopened {reading name s e} (free : s.registry.find? name = none) (fresh : name ∉ reading)
      (unopened : r.openFile name = .error e) : Runs r reading (.load name) s (.error e s) []
  | opened {reading name s file result names} (opened : r.openFile name = .ok file)
      (run : Runs r reading (.read name file) s result names) :
      Runs r reading (.load name) s result names
  | failed {reading name file s es fault? e s' names} (free : s.registry.find? name = none)
      (fresh : name ∉ reading) (text : Event.TakesText file.text (es, fault?))
      (events : Runs r (reading ++ [name]) (.apply name file.text (.start ⟨s.pool.files.size⟩) es)
        (s.begin name file) (.error e s') names) :
      Runs r reading (.read name file) s (.error e s') (name :: names)
  | finished {reading name file s es fault? id s' names} (free : s.registry.find? name = none)
      (fresh : name ∉ reading) (text : Event.TakesText file.text (es, fault?))
      (events : Runs r (reading ++ [name]) (.apply name file.text (.start ⟨s.pool.files.size⟩) es)
        (s.begin name file) (.ok id s') names) :
      Runs r reading (.read name file) s (finishFile name file.text ⟨s.pool.files.size⟩ fault? s')
        (name :: names)
  | done {reading name text c s} : Runs r reading (.apply name text c []) s (.ok c.file s) []
  | fault {reading name text e es c s fault} (noImport : ∀ kind target, e ≠ .importFile kind target)
      (failed : c.apply s.pool e = .error fault) :
      Runs r reading (.apply name text c (e :: es)) s (.error (.source fault name text) s) []
  | event {reading name text e es c s c' pool notice result names}
      (noImport : ∀ kind target, e ≠ .importFile kind target)
      (applied : c.apply s.pool e = .ok (c', pool, notice))
      (more : Runs r reading (.apply name text c' es) (s.declare name pool notice) result names) :
      Runs r reading (.apply name text c (e :: es)) s result names
  | unloaded {reading name text kind target es c s e s' names}
      (load : Runs r reading (.load target.value) s (.error e s') names) :
      Runs r reading (.apply name text c (.importFile kind target :: es)) s
        (.error (importError name text target e) s') names
  | importFile {reading name text kind target es c s id s' result names names'}
      (load : Runs r reading (.load target.value) s (.ok id s') names)
      (more : Runs r reading (.apply name text c es) (s'.recordImport c.file target.value ⟨id, kind⟩)
        result names') :
      Runs r reading (.apply name text c (.importFile kind target :: es)) s result (names ++ names')

/-- A task with a bound for how many files are read within each other. -/
def Task.perform (r : Resolver) (limit : Nat) (reading : List String) : Task → SessionM FileId
  | .load name => loadUpTo r limit reading name
  | .read name file => complete (loadUpTo r limit (reading ++ [name])) name file
  | .apply name text c es =>
    Cursor.file <$> es.foldlM (applyEvent (loadUpTo r limit reading) name text) c

variable {r : Resolver} {reading names : List String} {name : String} {s : Session} {task : Task}
  {result : Outcome FileId} {limit : Nat}

/-! ### Every run is what is performed -/

theorem perform_apply (name text : String) (c : Cursor) (es : List Event) :
    (Task.apply name text c es).perform r limit reading s =
      match es.foldlM (applyEvent (loadUpTo r limit reading) name text) c s with
      | .ok c' s' => .ok c'.file s'
      | .error e s' => .error e s' := by
  simp only [Task.perform, Functor.map, EStateM.map]
  cases es.foldlM (applyEvent (loadUpTo r limit reading) name text) c s <;> rfl

theorem perform_read (name : String) (file : SourceFile) :
    (Task.read name file).perform r limit reading s =
      match (Task.apply name file.text (.start ⟨s.pool.files.size⟩) (Event.ofText file.text).1).perform r
        limit (reading ++ [name]) (s.begin name file) with
      | .error e s' => .error e s'
      | .ok _ s' => finishFile name file.text ⟨s.pool.files.size⟩ (Event.ofText file.text).2 s' := by
  rw [perform_apply, Task.perform, complete_eq, parse_eq]
  cases (Event.ofText file.text).1.foldlM (applyEvent (loadUpTo r limit (reading ++ [name])) name file.text)
      (.start ⟨s.pool.files.size⟩) (s.begin name file) with
  | error e s' => rfl
  | ok c s' => cases (Event.ofText file.text).2 <;> rfl

theorem perform_cons {name text : String} {c : Cursor} {e : Event} {es : List Event} :
    (Task.apply name text c (e :: es)).perform r limit reading s =
      match applyEvent (loadUpTo r limit reading) name text c e s with
      | .ok c' s' => (Task.apply name text c' es).perform r limit reading s'
      | .error e s' => .error e s' := by
  rw [perform_apply, List.foldlM_cons]
  cases h : applyEvent (loadUpTo r limit reading) name text c e s with
  | ok c' s' =>
    rw [bind_of_ok h]
    exact (perform_apply name text c' es).symm
  | error e s' => rw [bind_of_error h]

/-- A file that is read is not registered, nor is it being read. -/
theorem Runs.fresh {file : SourceFile} (h : Runs r reading (.read name file) s result names) :
    s.registry.find? name = none ∧ name ∉ reading := by
  cases h with
  | failed free fresh => exact ⟨free, fresh⟩
  | finished free fresh => exact ⟨free, fresh⟩

/-- What is performed with a bound that is large enough is the outcome of the run. -/
theorem Runs.perform_eq (h : Runs r reading task s result names) :
    ∃ n, ∀ limit ≥ n, task.perform r limit reading s = result := by
  induction h with
  | registered found => exact ⟨0, fun limit _ => loadUpTo_of_registered found⟩
  | @cycle reading name s free cyclic =>
    refine ⟨0, fun limit _ => ?_⟩
    cases limit with
    | zero => exact loadUpTo_zero r reading free
    | succ limit => exact (loadUpTo_succ r limit reading free).trans (if_pos cyclic)
  | @unopened reading name s e free fresh unopened =>
    refine ⟨1, fun limit hlimit => ?_⟩
    obtain ⟨limit, rfl⟩ := Nat.exists_eq_add_of_le' hlimit
    show loadUpTo r (limit + 1) reading name s = _
    rw [loadUpTo_succ r limit reading free, if_neg fresh, unopened]
  | @opened reading name s file result names opened run ih =>
    obtain ⟨n, ih⟩ := ih
    refine ⟨n + 1, fun limit hlimit => ?_⟩
    obtain ⟨limit, rfl⟩ := Nat.exists_eq_add_of_le' (Nat.le_of_add_left_le hlimit)
    have hrun := ih limit (by omega)
    obtain ⟨free, fresh⟩ := run.fresh
    show loadUpTo r (limit + 1) reading name s = _
    rw [loadUpTo_succ r limit reading free, if_neg fresh, opened]
    exact hrun
  | failed free fresh text events ih =>
    obtain ⟨n, ih⟩ := ih
    refine ⟨n, fun limit hlimit => ?_⟩
    rw [perform_read, Event.takesText_iff.mp text, ih limit hlimit]
  | finished free fresh text events ih =>
    obtain ⟨n, ih⟩ := ih
    refine ⟨n, fun limit hlimit => ?_⟩
    rw [perform_read, Event.takesText_iff.mp text, ih limit hlimit]
  | done => exact ⟨0, fun limit _ => rfl⟩
  | fault noImport failed =>
    refine ⟨0, fun limit _ => ?_⟩
    rw [perform_cons, applyEvent_of_ne noImport, failed]
  | event noImport applied more ih =>
    obtain ⟨n, ih⟩ := ih
    refine ⟨n, fun limit hlimit => ?_⟩
    rw [perform_cons, applyEvent_of_ne noImport, applied]
    exact ih limit hlimit
  | @unloaded reading name text kind target es c s e s' names load ih =>
    obtain ⟨n, ih⟩ := ih
    refine ⟨n, fun limit hlimit => ?_⟩
    have hload : loadUpTo r limit reading target.value s = .error e s' := ih limit hlimit
    rw [perform_cons, applyEvent_importFile, hload]
  | @importFile reading name text kind target es c s id s' result names names' load more ih ih' =>
    obtain ⟨n, ih⟩ := ih
    obtain ⟨n', ih'⟩ := ih'
    refine ⟨max n n', fun limit hlimit => ?_⟩
    have hload : loadUpTo r limit reading target.value s = .ok id s' := ih limit (le_of_max_le_left hlimit)
    rw [perform_cons, applyEvent_importFile, hload]
    exact ih' limit (le_of_max_le_right hlimit)

/-- A task has one outcome. -/
theorem Runs.unique {result' : Outcome FileId} {names' : List String}
    (h : Runs r reading task s result names) (h' : Runs r reading task s result' names') :
    result = result' := by
  obtain ⟨n, h⟩ := h.perform_eq
  obtain ⟨n', h'⟩ := h'.perform_eq
  rw [← h (max n n') (le_max_left n n'), ← h' (max n n') (le_max_right n n')]

/-! ### Everything that is performed is a run -/

/-- What is performed with a bound is a run. -/
def Task.Terminates (r : Resolver) (limit : Nat) (reading : List String) (task : Task) (s : Session) :
    Prop :=
  ∃ names, Runs r reading task s (task.perform r limit reading s) names

theorem terminates_apply (hload : ∀ target ∈ r.targets, ∀ s,
      (Task.load target).Terminates r limit reading s) (name text : String) (es : List Event) :
    ∀ (c : Cursor) (s : Session), (∀ kind target, .importFile kind target ∈ es → target.value ∈ r.targets) →
      (Task.apply name text c es).Terminates r limit reading s := by
  induction es with
  | nil => exact fun c s _ => ⟨[], .done⟩
  | cons e es ih =>
    intro c s himports
    have hmore : ∀ c s, (Task.apply name text c es).Terminates r limit reading s := fun c s =>
      ih c s fun kind target hi => himports kind target (List.mem_cons_of_mem _ hi)
    rw [Task.Terminates, perform_cons]
    by_cases hi : ∃ kind target, e = .importFile kind target
    · obtain ⟨kind, target, rfl⟩ := hi
      obtain ⟨names, hrun⟩ := hload target.value (himports kind target (List.mem_cons_self ..)) s
      have hloaded : (Task.load target.value).perform r limit reading s =
        loadUpTo r limit reading target.value s := rfl
      rw [applyEvent_importFile]
      rw [hloaded] at hrun
      cases hcase : loadUpTo r limit reading target.value s with
      | error e s' =>
        rw [hcase] at hrun
        exact ⟨names, .unloaded hrun⟩
      | ok id s' =>
        rw [hcase] at hrun
        obtain ⟨names', hmore⟩ := hmore c (s'.recordImport c.file target.value ⟨id, kind⟩)
        exact ⟨_, .importFile hrun hmore⟩
    · have noImport : ∀ kind target, e ≠ .importFile kind target := fun k t he => hi ⟨k, t, he⟩
      rw [applyEvent_of_ne noImport]
      cases hc : c.apply s.pool e with
      | error fault => exact ⟨[], .fault noImport hc⟩
      | ok next =>
        obtain ⟨c', pool, notice⟩ := next
        obtain ⟨names, hmore⟩ := hmore c' (s.declare name pool notice)
        exact ⟨names, .event noImport hc hmore⟩

theorem terminates_read {name : String} (hload : ∀ target ∈ r.targets, ∀ s,
      (Task.load target).Terminates r limit (reading ++ [name]) s) {file : SourceFile}
    (opened : r.openFile name = .ok file) (free : s.registry.find? name = none)
    (fresh : name ∉ reading) : (Task.read name file).Terminates r limit reading s := by
  have htext : Event.TakesText file.text (Event.ofText file.text) := Event.takesText_iff.mpr rfl
  obtain ⟨names, hrun⟩ := terminates_apply hload name file.text (Event.ofText file.text).1
    (.start ⟨s.pool.files.size⟩) (s.begin name file) fun kind target hi => Resolver.mem_targets opened hi
  rw [Task.Terminates, perform_read]
  cases hevents : (Task.apply name file.text (.start ⟨s.pool.files.size⟩)
      (Event.ofText file.text).1).perform r limit (reading ++ [name]) (s.begin name file) with
  | error e s' =>
    rw [hevents] at hrun
    exact ⟨_, .failed free fresh htext hrun⟩
  | ok id s' =>
    rw [hevents] at hrun
    exact ⟨_, .finished free fresh htext hrun⟩

/-- The files that are being read within the outermost one, and the next one, are as many as the bound
leaves room for at most, as all of them are imported by texts that are served. -/
theorem terminates_load (limit : Nat) : ∀ {outer name : String} {inner : List String},
    (outer :: inner).Nodup → (∀ n ∈ name :: inner, n ∈ r.targets) →
    importLimit r ≤ limit + (inner.length + 1) →
    ∀ s, (Task.load name).Terminates r limit (outer :: inner) s := by
  induction limit with
  | zero =>
    intro outer name inner hnodup htargets hlimit s
    show ∃ names, Runs r (outer :: inner) (.load name) s (loadUpTo r 0 (outer :: inner) name s) names
    cases hfound : s.registry.find? name with
    | some id =>
      rw [loadUpTo_of_registered hfound]
      exact ⟨[], .registered hfound⟩
    | none =>
      rw [loadUpTo_zero r _ hfound]
      refine ⟨[], .cycle hfound ?_⟩
      by_contra fresh
      have hnames : (name :: inner).Nodup := List.nodup_cons.mpr
        ⟨fun hm => fresh (List.mem_cons_of_mem _ hm), (List.nodup_cons.mp hnodup).2⟩
      have hlen := (List.subperm_of_subset hnames htargets).length_le
      have htotal := r.length_targets
      rw [List.length_cons] at hlen
      omega
  | succ limit ih =>
    intro outer name inner hnodup htargets hlimit s
    show ∃ names, Runs r (outer :: inner) (.load name) s
      (loadUpTo r (limit + 1) (outer :: inner) name s) names
    cases hfound : s.registry.find? name with
    | some id =>
      rw [loadUpTo_of_registered hfound]
      exact ⟨[], .registered hfound⟩
    | none =>
      rw [loadUpTo_succ r limit _ hfound]
      split
      · next cyclic => exact ⟨[], .cycle hfound cyclic⟩
      · next fresh =>
        cases hopen : r.openFile name with
        | error e => exact ⟨[], .unopened hfound fresh hopen⟩
        | ok file =>
          have hload : ∀ target ∈ r.targets, ∀ s,
              (Task.load target).Terminates r limit ((outer :: inner) ++ [name]) s := by
            intro target htarget
            have hconcat : (outer :: (inner ++ [name])).Nodup := by
              rw [← List.cons_append, ← List.concat_eq_append]
              exact hnodup.concat fresh
            refine ih hconcat (List.forall_mem_cons.mpr ⟨htarget, fun n hn => ?_⟩) ?_
            · rcases List.mem_append.mp hn with hn | hn
              · exact htargets n (List.mem_cons_of_mem _ hn)
              · exact htargets n (List.mem_cons.mpr (.inl (List.mem_singleton.mp hn)))
            · show importLimit r ≤ limit + ((inner ++ [name]).length + 1)
              rw [List.length_append, List.length_singleton]
              omega
          obtain ⟨names, hrun⟩ := terminates_read hload hopen hfound fresh
          exact ⟨names, .opened hopen hrun⟩

/-- A file that is open and not registered is read to an end, and that is what a session does with it. -/
theorem runs_iff {file : SourceFile} (opened : r.openFile name = .ok file)
    (free : s.registry.find? name = none) :
    (∃ names, Runs r [] (.read name file) s result names) ↔ loadOpened r name file s = result := by
  have hload : ∀ target ∈ r.targets, ∀ s,
      (Task.load target).Terminates r (importLimit r) ([] ++ [name]) s := fun target htarget =>
    terminates_load (importLimit r) (List.nodup_singleton _) (List.forall_mem_singleton.mpr htarget)
      (Nat.le_add_right _ _)
  obtain ⟨names, hrun⟩ := terminates_read hload opened free List.not_mem_nil
  constructor
  · rintro ⟨names', hrun'⟩
    exact hrun.unique hrun'
  · rintro rfl
    exact ⟨names, hrun⟩

/-! ### What is read -/

/-- A run that ends well keeps what is registered, and registers what it reads. -/
structure Registers (s : Session) (names : List String) (result : Outcome FileId) : Prop where
  kept : ∀ id s', result = .ok id s' → ∀ n i, s.registry.find? n = some i →
    s'.registry.find? n = some i
  added : ∀ id s', result = .ok id s' → ∀ n ∈ names, ∃ i, s'.registry.find? n = some i

/-- Each file is read once, unless it is registered or is being read. -/
structure ReadsOnce (reading : List String) (s : Session) (names : List String) : Prop where
  nodup : names.Nodup
  new : ∀ n ∈ names, n ∉ reading ∧ s.registry.find? n = none

theorem readsOnce_nil : ReadsOnce reading s [] := ⟨List.nodup_nil, List.forall_mem_nil _⟩

theorem ReadsOnce.begin {file : SourceFile} (h : ReadsOnce (reading ++ [name]) (s.begin name file) names)
    (free : s.registry.find? name = none) (fresh : name ∉ reading) : ReadsOnce reading s (name :: names) where
  nodup := List.nodup_cons.mpr ⟨fun hm => (h.new name hm).1 (List.mem_append_right _ (List.mem_singleton_self _)), h.nodup⟩
  new := by
    refine List.forall_mem_cons.mpr ⟨⟨fresh, free⟩, fun n hn => ?_⟩
    obtain ⟨hout, hfree⟩ := h.new n hn
    exact ⟨fun hm => hout (List.mem_append_left _ hm), hfree⟩

theorem registry_finishFile {name text : String} {id id' : FileId} {fault? : Option Fault} {s s' : Session}
    (h : finishFile name text id fault? s = .ok id' s') :
    (∀ n i, s.registry.find? n = some i → s'.registry.find? n = some i) ∧
      ∃ i, s'.registry.find? name = some i := by
  unfold finishFile at h
  split at h
  · cases h
  · split at h
    · cases h
    · cases h
      refine ⟨fun n i hn => ?_, ?_⟩
      · rw [register, Table.find?_insert, hn]
        rfl
      · rw [register, Table.find?_insert, if_pos rfl]
        cases s.registry.find? name with
        | none => exact ⟨_, rfl⟩
        | some i => exact ⟨i, rfl⟩

theorem Runs.once (h : Runs r reading task s result names) :
    ReadsOnce reading s names ∧ Registers s names result := by
  induction h with
  | registered found =>
    refine ⟨readsOnce_nil, ?_, fun _ _ _ => List.forall_mem_nil _⟩
    rintro _ _ ⟨⟩ n i hn
    exact hn
  | cycle | unopened | fault => exact ⟨readsOnce_nil, nofun, nofun⟩
  | opened opened run ih => exact ih
  | failed free fresh text events ih => exact ⟨ih.1.begin free fresh, nofun, nofun⟩
  | @finished reading name file s es fault? id s' names free fresh text events ih =>
    obtain ⟨honce, hkept, hadded⟩ := ih
    refine ⟨honce.begin free fresh, fun id' s'' he n i hn => ?_, fun id' s'' he => ?_⟩
    · exact (registry_finishFile he).1 n i (hkept id s' rfl n i hn)
    · obtain ⟨hfinish, hname⟩ := registry_finishFile he
      refine List.forall_mem_cons.mpr ⟨hname, fun n hn => ?_⟩
      obtain ⟨i, hi⟩ := hadded id s' rfl n hn
      exact ⟨i, hfinish n i hi⟩
  | done =>
    refine ⟨readsOnce_nil, ?_, fun _ _ _ => List.forall_mem_nil _⟩
    rintro _ _ ⟨⟩ n i hn
    exact hn
  | event noImport applied more ih => exact ⟨⟨ih.1.nodup, ih.1.new⟩, ih.2.kept, ih.2.added⟩
  | unloaded load ih => exact ⟨ih.1, nofun, nofun⟩
  | @importFile reading name text kind target es c s id s' result names names' load more ih ih' =>
    obtain ⟨honce, hkept, hadded⟩ := ih
    obtain ⟨honce', hkept', hadded'⟩ := ih'
    have hnew : ∀ n ∈ names', n ∉ reading ∧ s'.registry.find? n = none := honce'.new
    refine ⟨⟨?_, fun n hn => ?_⟩, fun id' s'' he n i hn => ?_, fun id' s'' he n hn => ?_⟩
    · -- what the import has read is registered when the other events are applied
      refine List.nodup_append.mpr ⟨honce.nodup, honce'.nodup, ?_⟩
      rintro n hn _ hn' rfl
      obtain ⟨i, hi⟩ := hadded id s' rfl n hn
      exact Option.some_ne_none i (hi.symm.trans (hnew n hn').2)
    · rcases List.mem_append.mp hn with hn | hn
      · exact honce.new n hn
      · obtain ⟨hout, hfree⟩ := hnew n hn
        refine ⟨hout, ?_⟩
        by_contra hne
        obtain ⟨i, hi⟩ := Option.ne_none_iff_exists'.mp hne
        exact Option.some_ne_none i ((hkept id s' rfl n i hi).symm.trans hfree)
    · exact hkept' id' s'' he n i (hkept id s' rfl n i hn)
    · rcases List.mem_append.mp hn with hn | hn
      · obtain ⟨i, hi⟩ := hadded id s' rfl n hn
        exact ⟨i, hkept' id' s'' he n i hi⟩
      · exact hadded' id' s'' he n hn

/-- The files that a resolver can have a task read. -/
def Task.reach (r : Resolver) : Task → List String
  | .load _ | .apply .. => r.targets
  | .read name _ => name :: r.targets

/-- The texts that a resolver serves lead to a task. -/
def Task.Served (r : Resolver) : Task → Prop
  | .load name => name ∈ r.targets
  | .read name file => r.openFile name = .ok file
  | .apply _ _ _ es => ∀ kind target, .importFile kind target ∈ es → target.value ∈ r.targets

theorem served_apply {file : SourceFile} {es : List Event} {fault? : Option Fault} {c : Cursor}
    (opened : r.openFile name = .ok file) (text : Event.TakesText file.text (es, fault?)) :
    (Task.apply name file.text c es).Served r := by
  intro kind target hi
  have hes : es = (Event.ofText file.text).1 := congrArg Prod.fst (Event.takesText_iff.mp text).symm
  exact Resolver.mem_targets opened (hes ▸ hi)

/-- All files that are read are imported by texts that the resolver serves, but for the file of the task. -/
theorem Runs.subset_reach (h : Runs r reading task s result names) (hserved : task.Served r) :
    names ⊆ task.reach r := by
  induction h with
  | registered | cycle | unopened | done | fault => exact List.nil_subset _
  | @opened reading name s file result names opened run ih =>
    have hnames : names ⊆ name :: r.targets := ih opened
    exact fun n hn => (List.mem_cons.mp (hnames hn)).elim (fun he => he ▸ hserved) id
  | failed free fresh text events ih =>
    exact List.cons_subset_cons _ (ih (served_apply hserved text))
  | finished free fresh text events ih =>
    exact List.cons_subset_cons _ (ih (served_apply hserved text))
  | event noImport applied more ih =>
    exact ih fun kind target hi => hserved kind target (List.mem_cons_of_mem _ hi)
  | unloaded load ih => exact ih (hserved _ _ (List.mem_cons_self ..))
  | importFile load more ih ih' =>
    refine List.append_subset.mpr ⟨ih (hserved _ _ (List.mem_cons_self ..)), ih' fun kind target hi => ?_⟩
    exact hserved kind target (List.mem_cons_of_mem _ hi)

/-- A file is read with no more files than there are import targets. -/
theorem Runs.length_le {file : SourceFile} (h : Runs r reading (.read name file) s result names)
    (opened : r.openFile name = .ok file) : names.length ≤ r.targets.length + 1 :=
  (List.subperm_of_subset h.once.1.nodup (h.subset_reach opened)).length_le

end ProtoSchema.Session

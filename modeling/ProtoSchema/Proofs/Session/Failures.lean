import ProtoSchema.Proofs.Session.Depth

/-! # Files that are not loaded

When a file is not loaded, all its imports are complete but the one that failed, if one did, and then
that file was not loaded for a reason of its own (`Fails`).  In a later session with the same files the
imports are found at once, the events have the same outcomes up to the one that failed, and so the file
fails with the same error again (`Fails.again`). -/

namespace ProtoSchema.Session

open Pool (Kept SameEnd SameOutcome)

variable {r : Resolver} {x s s' t t' : Session} {st : List Reading} {rd : Reading} {ρ σ : Renaming}
  {limit : Nat} {reading : List String} {name : String} {e : Error}

/-- The file was being read in the session `s`, in front of `x`, where it is not registered. -/
structure Underway (r : Resolver) (x s : Session) (rd : Reading) : Prop where
  traced : Traced r s rd
  regular : Regular (s, [rd])
  since : Since s x
  free : x.registry.find? rd.name = none

/-- Why the file `name` is not loaded, as it is seen from the session `x` that is left. -/
inductive Fails (r : Resolver) (x : Session) : Nat → List String → String → Error → Prop
  | limit {reading : List String} {name : String} (free : x.registry.find? name = none) :
      Fails r x 0 reading name (.circularImport name (reading.dropWhile (· ≠ name) ++ [name]))
  | cycle {limit : Nat} {reading : List String} {name : String}
      (free : x.registry.find? name = none) (cyclic : name ∈ reading) :
      Fails r x (limit + 1) reading name
        (.circularImport name (reading.dropWhile (· ≠ name) ++ [name]))
  | unopened {limit : Nat} {reading : List String} {name : String} {e : Error}
      (free : x.registry.find? name = none) (fresh : name ∉ reading)
      (unopened : r.openFile name = .error e) : Fails r x (limit + 1) reading name e
  | event {limit : Nat} {reading : List String} {s : Session} {rd : Reading} {event rest fault}
      (underway : Underway r x s rd) (fresh : rd.name ∉ reading) (next : rd.rest = event :: rest)
      (noImport : ∀ kind target, event ≠ .importFile kind target)
      (failed : rd.cursor.apply s.pool event = .error fault) :
      Fails r x (limit + 1) reading rd.name (.source fault rd.name rd.text)
  | importFile {limit : Nat} {reading : List String} {s : Session} {rd : Reading}
      {kind target rest} {e : Error} (underway : Underway r x s rd) (fresh : rd.name ∉ reading)
      (next : rd.rest = .importFile kind target :: rest)
      (failed : Fails r x limit (reading ++ [rd.name]) target.value e) :
      Fails r x (limit + 1) reading rd.name (importError rd.name rd.text target e)
  | text {limit : Nat} {reading : List String} {s : Session} {rd : Reading} {fault}
      (underway : Underway r x s rd) (fresh : rd.name ∉ reading) (finished : rd.rest = [])
      (failed : (Event.ofText rd.text).2 = some fault) :
      Fails r x (limit + 1) reading rd.name (.source fault rd.name rd.text)
  | check {limit : Nat} {reading : List String} {s : Session} {rd : Reading} {fault pool}
      (underway : Underway r x s rd) (fresh : rd.name ∉ reading) (finished : rd.rest = [])
      (noFault : (Event.ofText rd.text).2 = none) (names : x.registry = s.registry)
      (failed : Pool.checkFile rd.cursor.file (s.pool.recordTypes rd.cursor.file) =
        .error fault pool) :
      Fails r x (limit + 1) reading rd.name (.source fault rd.name rd.text)

/-- The file that fails is not registered. -/
theorem Fails.free (h : Fails r x limit reading name e) : x.registry.find? name = none := by
  cases h with
  | limit free | cycle free | unopened free => exact free
  | event underway | importFile underway | text underway | check underway => exact underway.free

/-! ### Runs that fail -/

/-- The names of the files that are being read, outermost first. -/
def names (st : List Reading) : List String := (st.map Reading.name).reverse

theorem names_cons (rd : Reading) (st : List Reading) : names (rd :: st) = names st ++ [rd.name] := by
  simp only [names, List.map_cons, List.reverse_cons]

theorem not_mem_names (h : Regular (s, rd :: st)) : rd.name ∉ names st := by
  intro hm
  have hnodup := h.sound.distinct.nodup
  rw [List.map_cons, List.nodup_cons] at hnodup
  exact hnodup.1 (List.mem_reverse.mp hm)

theorem Regular.head (h : Regular (s, rd :: st)) : Regular (s, [rd]) :=
  h.sublist (List.singleton_sublist.mpr (List.mem_cons_self ..))

/-- The innermost file is underway as long as it is being read. -/
theorem underway (hr : Regular (s, rd :: st)) (hh : History r (s, rd :: st)) {rd' : Reading}
    (hs : Steps r (s, rd :: st) (x, rd' :: st)) (hn : rd'.name = rd.name) : Underway r x s rd :=
  ⟨hh.reading rd (List.mem_cons_self ..), hr.head, Since.of_steps hr.sound hs,
    hn ▸ (hr.steps hs).sound.distinct.free rd' (List.mem_cons_self ..)⟩

/-- Every load that fails has one of the reasons. -/
def FailsSoundly (r : Resolver) (limit : Nat) : Prop :=
  ∀ {st : List Reading} {name : String} {s x : Session} {e : Error}, Regular (s, st) →
    History r (s, st) → loadUpTo r limit (names st) name s = .error e x →
    Fails r x limit (names st) name e

theorem fails_of_events (ih : FailsSoundly r limit) (es : List Event) :
    ∀ {rd : Reading}, rd.rest = es → ∀ {s : Session}, Regular (s, rd :: st) →
      History r (s, rd :: st) →
      es.foldlM (applyEvent (loadUpTo r limit (names st ++ [rd.name])) rd.name rd.text) rd.cursor s =
        .error e x →
      Fails r x (limit + 1) (names st) rd.name e := by
  induction es with
  | nil =>
    intro rd _ s _ _ h
    cases h
  | cons event es ihes =>
    intro rd hrest s hr hh h
    have hloads := steps_loadUpTo (r := r) limit (rd :: st)
    have hfresh := not_mem_names hr
    have hself := underway hr hh .refl rfl
    rw [List.foldlM_cons] at h
    cases happly : applyEvent (loadUpTo r limit (names st ++ [rd.name])) rd.name rd.text rd.cursor
        event s with
    | ok c s' =>
      have hstep := steps_applyEvent hloads hrest hr.sound.distinct
      rw [show ((rd :: st).map Reading.name).reverse = names st ++ [rd.name] from names_cons rd st,
        happly] at hstep
      have hnext := @ihes (rd.advance c event es) rfl s' (hr.steps hstep.1) (hh.steps hr hstep.1)
      exact hnext ((bind_of_ok happly _).symm.trans h)
    | error e' x' =>
      cases (bind_of_error happly _).symm.trans h
      by_cases hi : ∃ kind target, event = .importFile kind target
      · obtain ⟨kind, target, rfl⟩ := hi
        rw [applyEvent_importFile] at happly
        cases hload : loadUpTo r limit (names st ++ [rd.name]) target.value s with
        | ok id s' =>
          rw [hload] at happly
          cases happly
        | error e'' s' =>
          rw [hload] at happly
          cases happly
          rw [← names_cons] at hload
          have hsteps := hloads target.value s hr.sound.distinct
          rw [show ((rd :: st).map Reading.name).reverse = names (rd :: st) from rfl, hload] at hsteps
          have hinner := ih hr hh hload
          rw [names_cons] at hinner
          exact .importFile (underway hr hh hsteps rfl) hfresh hrest hinner
      · have hi : ∀ kind target, event ≠ .importFile kind target := fun k t he => hi ⟨k, t, he⟩
        rw [applyEvent_of_ne hi] at happly
        cases hc : rd.cursor.apply s.pool event with
        | ok result =>
          rw [hc] at happly
          cases happly
        | error fault =>
          rw [hc] at happly
          cases happly
          exact .event hself hfresh hrest hi hc

theorem fails_of_complete (ih : FailsSoundly r limit) (hr : Regular (s, st)) (hh : History r (s, st))
    {file : SourceFile} (free : s.registry.find? name = none) (fresh : name ∉ names st)
    (opened : r.openFile name = .ok file)
    (h : complete (loadUpTo r limit (names st ++ [name])) name file s = .error e x) :
    Fails r x (limit + 1) (names st) name e := by
  have fresh' : ∀ rd ∈ st, rd.name ≠ name := fun rd hrd he =>
    fresh (List.mem_reverse.mpr (List.mem_map.mpr ⟨rd, hrd, he⟩))
  have hstart : Steps r (s, st)
      (s.begin name file, .start ⟨s.pool.files.size⟩ name file.text :: st) :=
    .single (.begin free fresh' opened)
  have hr' := hr.steps hstart
  have hh' := hh.steps hr hstart
  have hloads : ∀ rd : Reading, rd.name = name →
      Loads r (loadUpTo r limit (names st ++ [name])) (rd :: st) := by
    rintro rd rfl
    rw [← names_cons]
    exact steps_loadUpTo limit (rd :: st)
  rw [complete_eq, parse_eq] at h
  cases hrun : (Event.ofText file.text).1.foldlM (applyEvent
      (loadUpTo r limit (names st ++ [name])) name file.text) (Cursor.start ⟨s.pool.files.size⟩)
      (s.begin name file) with
  | error e' x' =>
    rw [hrun] at h
    cases h
    have hrest : (Reading.start ⟨s.pool.files.size⟩ name file.text).rest =
        (Event.ofText file.text).1 := rfl
    exact fails_of_events ih _ hrest hr' hh' hrun
  | ok c s' =>
    have hevents := steps_events (Event.ofText file.text).1
      (.start ⟨s.pool.files.size⟩ name file.text) rfl hloads (s.begin name file) hr'.sound.distinct
    simp only [Reading.start] at hevents
    rw [hrun] at hevents
    obtain ⟨hsteps, hfile⟩ := hevents
    have hfile : c.file = ⟨s.pool.files.size⟩ := hfile
    have hend := hr'.steps hsteps
    have hself := underway hend (hh'.steps hr' hsteps) .refl rfl
    rw [hrun] at h
    cases hfault : (Event.ofText file.text).2 with
    | some fault =>
      simp only [hfault] at h
      cases h
      exact .text hself fresh rfl hfault
    | none =>
      simp only [hfault] at h
      rw [← hfile] at h
      cases hcheck : Pool.checkFile c.file (s'.pool.recordTypes c.file) with
      | ok u pool =>
        simp only [hcheck] at h
        cases h
      | error fault pool =>
        simp only [hcheck] at h
        cases h
        have hsince := Since.of_step hend.sound (.reject (r := r) rfl hcheck)
        exact .check ⟨hself.traced, hself.regular, hsince, hself.free⟩ fresh rfl hfault rfl hcheck

/-- A load that fails has a reason. -/
theorem failsSoundly (r : Resolver) (limit : Nat) : FailsSoundly r limit := by
  induction limit with
  | zero =>
    intro st name s x e hr hh h
    cases hfree : s.registry.find? name with
    | some id => cases (loadUpTo_of_registered hfree).symm.trans h
    | none =>
      cases (loadUpTo_zero r _ hfree).symm.trans h
      exact .limit hfree
  | succ limit ih =>
    intro st name s x e hr hh h
    cases hfree : s.registry.find? name with
    | some id => cases (loadUpTo_of_registered hfree).symm.trans h
    | none =>
      rw [loadUpTo_succ r limit _ hfree] at h
      split at h
      · next hmem =>
        cases h
        exact .cycle hfree hmem
      · next hmem =>
        cases hopen : r.openFile name with
        | error e' =>
          rw [hopen] at h
          cases h
          exact .unopened hfree hmem hopen
        | ok file =>
          rw [hopen] at h
          exact fails_of_complete ih hr hh hfree hmem hopen h

/-! ### Failing again -/

/-- Files with the same names are registered. -/
def SameNames (x t : Session) : Prop :=
  ∀ n, t.registry.find? n = none ↔ x.registry.find? n = none

/-- Where all files of `x` are registered, each is loaded at once. -/
theorem serves_of_sameNames (hn : SameNames x t) (load : List String) (st : List Reading) :
    Serves x t (fun n => x.registry.find? n ≠ none) (loadUpTo r limit load) st := by
  intro n hreg ρ t' hmono ht' hr'
  obtain ⟨g, hg⟩ := Option.ne_none_iff_exists'.mp fun hnone => hreg ((hn n).mp hnone)
  have hg' := hmono n g hg
  exact ⟨ρ, t', g, loadUpTo_of_registered hg', hg', hr', ht', .refl x t' ρ⟩

theorem SameNames.grows (hn : SameNames x t) (ht' : Twin x σ t')
    (hg : ∀ n g, t.registry.find? n = some g → t'.registry.find? n = some g) : SameNames x t' := by
  intro n
  constructor
  · intro hnone
    refine (hn n).mp (Option.eq_none_iff_forall_ne_some.mpr fun g hfind => ?_)
    exact Option.some_ne_none _ ((hg n g hfind).symm.trans hnone)
  · intro hnone
    refine Option.eq_none_iff_forall_ne_some.mpr fun g hfind => ?_
    obtain ⟨f, hf, -⟩ := ht'.files n g hfind
    exact Option.some_ne_none _ (hf.symm.trans hnone)

/-- A file that was underway is read as far again, and then it goes on. -/
theorem Underway.load (h : Underway r x s rd) (hx : Regular (x, [])) (ht : Twin x ρ t)
    (hr : Regular (t, st)) (hn : SameNames x t) (fresh : rd.name ∉ names st) (limit : Nat) :
    ∃ σ t', Pairs x s t' σ rd st ∧ SameNames x t' ∧
      loadUpTo r (limit + 1) (names st) rd.name t =
        match rd.rest.foldlM (applyEvent (loadUpTo r limit (names st ++ [rd.name])) rd.name rd.text)
          (σ.cursor rd.cursor) t' with
        | .error e t'' => .error e t''
        | .ok _ t'' =>
          match (Event.ofText rd.text).2 with
          | some fault => .error (.source fault rd.name rd.text) t''
          | none =>
            match Pool.checkFile (σ.file rd.cursor.file)
              (t''.pool.recordTypes (σ.file rd.cursor.file)) with
            | .error fault pool => .error (.source fault rd.name rd.text) { t'' with pool }
            | .ok _ pool => .ok (σ.file rd.cursor.file)
              (t''.register pool rd.name (σ.file rd.cursor.file)) := by
  have free : t.registry.find? rd.name = none := (hn rd.name).mpr h.free
  have fresh' : ∀ rd' ∈ st, rd'.name ≠ rd.name := fun rd' hrd he =>
    fresh (List.mem_reverse.mpr (List.mem_map.mpr ⟨rd', hrd, he⟩))
  have himports : ∀ kind target, .importFile kind target ∈ rd.done →
      x.registry.find? target.value ≠ none := by
    intro kind target hi
    obtain ⟨i, hi⟩ := h.traced.imports hi
    have hreg := (h.regular.sound.reading rd (List.mem_cons_self ..)).imports _ i hi
    rw [h.since.registry _ _ hreg]
    exact Option.some_ne_none _
  obtain ⟨file, σ, t', opened, htext, hrun, hpairs, hσ, hgrows⟩ :=
    h.traced.replay hx h.since (K := fun n => x.registry.find? n ≠ none) himports ht hr free fresh'
      fun rd' _ => serves_of_sameNames (r := r) hn (names st ++ [rd.name]) (rd' :: st)
  refine ⟨σ, t', hpairs, hn.grows hpairs.twin hgrows.registry, ?_⟩
  have hevents : (Event.ofText file.text).1 = rd.done ++ rd.rest := by
    rw [htext, h.traced.text]
  rw [loadUpTo_succ r limit _ free, if_neg fresh, opened]
  dsimp only
  rw [complete_eq, parse_eq, hevents, htext, foldlM_of_ok hrun rd.rest, ← hσ]
  cases rd.rest.foldlM (applyEvent (loadUpTo r limit (names st ++ [rd.name])) rd.name rd.text)
    (σ.cursor rd.cursor) t' with
  | error e t'' => rfl
  | ok c t'' =>
    dsimp only
    cases (Event.ofText rd.text).2 <;> rfl

/-- The next event fails again. -/
theorem Pairs.apply_error (h : Pairs x s t ρ rd st) (hs : Regular (s, [rd])) {event : Event}
    {rest : List Event} (next : rd.rest = event :: rest) {fault : Fault}
    (failed : rd.cursor.apply s.pool event = .error fault) :
    (ρ.cursor rd.cursor).apply t.pool event = .error fault := by
  have houtcome := h.apply hs next
  rw [failed] at houtcome
  generalize (ρ.cursor rd.cursor).apply t.pool event = result at houtcome
  cases houtcome
  rfl

/-- With the same files registered, a file fails with the same error again. -/
theorem Fails.again (h : Fails r x limit reading name e) (hx : Regular (x, [])) :
    ∀ {st : List Reading} {t : Session} {ρ : Renaming}, names st = reading → Twin x ρ t →
      Regular (t, st) → SameNames x t → ∃ t', loadUpTo r limit reading name t = .error e t' := by
  induction h with
  | @limit reading name free =>
    intro st t ρ _ _ _ hn
    exact ⟨t, loadUpTo_zero r _ ((hn name).mpr free)⟩
  | @cycle limit reading name free cyclic =>
    intro st t ρ _ _ _ hn
    refine ⟨t, ?_⟩
    rw [loadUpTo_succ r limit _ ((hn name).mpr free), if_pos cyclic]
  | @unopened limit reading name e free fresh unopened =>
    intro st t ρ _ _ _ hn
    refine ⟨t, ?_⟩
    rw [loadUpTo_succ r limit _ ((hn name).mpr free), if_neg fresh, unopened]
  | @event limit reading s rd event rest fault underway fresh next noImport failed =>
    rintro st t ρ rfl ht hr hn
    obtain ⟨σ, t', hpairs, -, hload⟩ := underway.load hx ht hr hn fresh limit
    have hfailed := hpairs.apply_error underway.regular next failed
    rw [hload, next, List.foldlM_cons, bind_of_error (by rw [applyEvent_of_ne noImport, hfailed])]
    exact ⟨_, rfl⟩
  | @importFile limit reading s rd kind target rest e underway fresh next failed ih =>
    rintro st t ρ rfl ht hr hn
    obtain ⟨σ, t', hpairs, hn', hload⟩ := underway.load hx ht hr hn fresh limit
    obtain ⟨t'', hfailed⟩ := ih (names_cons (rd.rename σ) st) hpairs.twin hpairs.right hn'
    rw [hload, next, List.foldlM_cons, bind_of_error (by rw [applyEvent_importFile, hfailed])]
    exact ⟨_, rfl⟩
  | @text limit reading s rd fault underway fresh finished failed =>
    rintro st t ρ rfl ht hr hn
    obtain ⟨σ, t', hpairs, -, hload⟩ := underway.load hx ht hr hn fresh limit
    rw [hload, finished]
    simp only [failed]
    exact ⟨_, rfl⟩
  | @check limit reading s rd fault pool underway fresh finished noFault names failed =>
    rintro st t ρ rfl ht hr hn
    obtain ⟨σ, t', hpairs, hn', hload⟩ := underway.load hx ht hr hn fresh limit
    have hend := hpairs.checkFile_of_names underway.regular hx fun n => names ▸ hn' n
    rw [failed] at hend
    generalize hcheck : Pool.checkFile (σ.file rd.cursor.file)
      (t'.pool.recordTypes (σ.file rd.cursor.file)) = result at hend
    cases hend
    have hrun : ([] : List Event).foldlM (applyEvent (loadUpTo r limit
        (Session.names st ++ [rd.name])) rd.name rd.text) (σ.cursor rd.cursor) t' =
      .ok (σ.cursor rd.cursor) t' := rfl
    rw [hload, finished, hrun]
    simp only [noFault, hcheck]
    exact ⟨_, rfl⟩

end ProtoSchema.Session

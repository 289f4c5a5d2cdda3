import ProtoSchema.Proofs.Compiler.Openings
import ProtoSchema.Proofs.Compiler.Visibility
import ProtoSchema.Proofs.Session.Loading

/-! # Opening comes to an end

For every resolver and every path, opening the file at the path comes to an end, whatever its texts are
(`openFile_terminates`).  A text is scanned piece by piece and read statement by statement, a file is read
within others only if it is none of them, and a name is looked up from a scope outward to the file.  In
one call, no file is read twice. -/

namespace ProtoSchema

namespace Pool

variable {pool : Pool} {s : Scope} {name : DottedName} {found? : Option TypeId}

/-- A name is looked up in a scope and, if it is not found there, in the scope around it, which has been
added earlier and is in the same file.  Around a file there is nothing. -/
inductive Outward (pool : Pool) (name : DottedName) : Scope → Option TypeId → Prop
  | found {s t} (here : pool.descend (pool.members s) name = some t) : Outward pool name s (some t)
  | file {i} (missing : pool.descend (pool.members (.file i)) name = none) :
      Outward pool name (.file i) none
  | block {b found?} (missing : pool.descend (pool.members (.block b)) name = none)
      (earlier : ∀ p, (pool.block b).parent = .block p → p.index < b.index)
      (same : pool.scopeFile (pool.block b).parent = pool.scopeFile (.block b))
      (outer : Outward pool name (pool.block b).parent found?) : Outward pool name (.block b) found?

theorem lexical_file (i : FileId) (name : DottedName) :
    pool.lexical (.file i) name = pool.descend (pool.members (.file i)) name := by
  rw [lexical, enclosing_file, List.findSome?_singleton]

theorem WellFormed.lexical_block (hw : pool.WellFormed) {b : BlockId} (hb : pool.HasBlock b)
    (name : DottedName) : pool.lexical (.block b) name =
      (pool.descend (pool.members (.block b)) name).or (pool.lexical (pool.block b).parent name) := by
  rw [lexical, hw.enclosing_block hb, List.findSome?_cons, lexical]
  cases pool.descend (pool.members (.block b)) name <;> rfl

theorem Outward.lexical_eq (h : pool.Outward name s found?) (hw : pool.WellFormed)
    (hs : pool.InRange s) : pool.lexical s name = found? := by
  induction h with
  | @found s t here =>
    cases s with
    | file i => rw [lexical_file, here]
    | block b => rw [hw.lexical_block hs, here, Option.some_or]
  | file missing => rw [lexical_file, missing]
  | block missing earlier same outer ih =>
    rw [hw.lexical_block hs, missing, Option.none_or]
    exact ih (hw.block_scope _ hs).1.inRange

/-- In a well-formed pool the walk outward comes to an end, and it is what lexical lookup does. -/
theorem WellFormed.outward_iff (hw : pool.WellFormed) (hs : pool.InRange s) :
    pool.Outward name s found? ↔ pool.lexical s name = found? := by
  refine ⟨fun h => h.lexical_eq hw hs, ?_⟩
  rintro rfl
  induction h : scopeRank s using Nat.strongRecOn generalizing s with
  | _ n ih =>
    cases s with
    | file i =>
      rw [lexical_file]
      cases hhere : pool.descend (pool.members (.file i)) name with
      | some t => exact .found hhere
      | none => exact .file hhere
    | block b =>
      rw [hw.lexical_block hs]
      cases hhere : pool.descend (pool.members (.block b)) name with
      | some t => exact .found hhere
      | none =>
        have hearlier := hw.block_later b
        obtain ⟨hparent, hfile⟩ := hw.block_scope b hs
        refine .block hhere (fun p hp => hearlier p hs hp) hfile (ih _ ?_ hparent.inRange rfl)
        rw [← h]
        cases hp : (pool.block b).parent with
        | file i => exact Nat.succ_pos _
        | block p => exact Nat.succ_lt_succ (hearlier p hs hp)

end Pool

namespace Compiler

variable {c : Compiler} {path : String} {result : EStateM.Result Error Compiler Unit}

/-- Opening the file at a path leads to an outcome, and the files `names` are read on the way. -/
inductive Opens (c : Compiler) (path : String) :
    EStateM.Result Error Compiler Unit → List String → Prop
  | unnamed {e} (unnamed : nameOf c.resolver path = .error e) : Opens c path (.error e c) []
  | shadowed {name id e} (named : nameOf c.resolver path = .ok name)
      (found : c.session.registry.find? name = some id)
      (shadowed : checkShadow name (c.pool.file id).path path = .error e) : Opens c path (.error e c) []
  | registered {name id} (named : nameOf c.resolver path = .ok name)
      (found : c.session.registry.find? name = some id)
      (unshadowed : checkShadow name (c.pool.file id).path path = .ok ()) :
      Opens c path (.ok () (c.addRoot id)) []
  | unopened {name e} (named : nameOf c.resolver path = .ok name)
      (free : c.session.registry.find? name = none)
      (unopened : openText c.resolver path name = .error e) : Opens c path (.error e c) []
  | failed {name file e session names} (named : nameOf c.resolver path = .ok name)
      (opened : openText c.resolver path name = .ok file)
      (run : Session.Runs c.resolver [] (.read name file) c.session (.error e session) names) :
      Opens c path (.error e { c with session }) names
  | opened {name file id session names} (named : nameOf c.resolver path = .ok name)
      (opened : openText c.resolver path name = .ok file)
      (run : Session.Runs c.resolver [] (.read name file) c.session (.ok id session) names) :
      Opens c path (.ok () (addRoot { c with session } id)) names

/-- Opening comes to an end in every state, and in the outcome of the run. -/
theorem opens_iff : (∃ names, Opens c path result names) ↔ openFile path c = result := by
  constructor
  · rintro ⟨names, h⟩
    rw [openFile_eq]
    cases h with
    | unnamed unnamed => rw [unnamed]
    | shadowed named found shadowed =>
      rw [named]
      simp only [loadAt_of_registered found, shadowed]
    | registered named found unshadowed =>
      rw [named]
      simp only [loadAt_of_registered found, unshadowed]
    | unopened named free unopened =>
      rw [named]
      simp only [loadAt_of_free free, unopened]
    | failed named opened run =>
      have hload := (Session.runs_iff (openText_eq_ok opened) run.fresh.1).mp ⟨names, run⟩
      rw [named]
      simp only [loadAt_of_free run.fresh.1, opened, hload]
    | opened named opened run =>
      have hload := (Session.runs_iff (openText_eq_ok opened) run.fresh.1).mp ⟨names, run⟩
      rw [named]
      simp only [loadAt_of_free run.fresh.1, opened, hload]
  · rintro rfl
    rw [openFile_eq]
    cases named : nameOf c.resolver path with
    | error e => exact ⟨[], .unnamed named⟩
    | ok name =>
      cases found : c.session.registry.find? name with
      | some id =>
        simp only [loadAt_of_registered found]
        cases hshadow : checkShadow name (c.pool.file id).path path with
        | error e => exact ⟨[], .shadowed named found hshadow⟩
        | ok => exact ⟨[], .registered named found hshadow⟩
      | none =>
        simp only [loadAt_of_free found]
        cases opened : openText c.resolver path name with
        | error e => exact ⟨[], .unopened named found opened⟩
        | ok file =>
          dsimp only
          obtain ⟨names, run⟩ := (Session.runs_iff (openText_eq_ok opened) found).mpr rfl
          cases hload : Session.loadOpened c.resolver name file c.session with
          | error e session =>
            rw [hload] at run
            exact ⟨names, .failed named opened run⟩
          | ok id session =>
            rw [hload] at run
            exact ⟨names, .opened named opened run⟩

/-- In one call no file is read twice, and there are no more files than import targets. -/
theorem Opens.once {names : List String} (h : Opens c path result names) :
    names.Nodup ∧ names.length ≤ c.resolver.targets.length + 1 := by
  cases h with
  | unnamed | shadowed | registered | unopened => exact ⟨List.nodup_nil, Nat.zero_le _⟩
  | failed named opened run => exact ⟨run.once.1.nodup, run.length_le (openText_eq_ok opened)⟩
  | opened named opened run => exact ⟨run.once.1.nodup, run.length_le (openText_eq_ok opened)⟩

/-- After any calls, opening the file at any path comes to an end, whatever texts the resolver serves: what
the compiler does is a run without a bound.  On the way no file is read twice; scanner and reader come to
an end on every text, as each piece that is scanned has a character and each step of the reader takes a
token; and in all pools that are gone through, a name is looked up from each scope outward to the file. -/
theorem openFile_terminates (resolver : Resolver) (calls : List Call) (path : String) :
    (∀ result, (∃ names, Opens (after (fresh resolver) calls) path result names) ↔
      openFile path (after (fresh resolver) calls) = result) ∧
    (∀ result names, Opens (after (fresh resolver) calls) path result names →
      names.Nodup ∧ names.length ≤ resolver.targets.length + 1) ∧
    (∀ lines offset cs scan, ((∃ ps, Scan.Takes lines offset cs ps scan) ↔ Scan.ofChars lines offset cs = scan) ∧
      ∀ ps, Scan.Takes lines offset cs ps scan →
        ps.flatten <+: cs ∧ (∀ p ∈ ps, p ≠ []) ∧ ps.length ≤ byteSize cs) ∧
    (∀ ending fs ts read,
      ((∃ us, Event.Takes ending fs ts us read) ↔ Event.ofTokens ending fs ts = read) ∧
      ∀ us, Event.Takes ending fs ts us read →
        us.flatten <+: ts ∧ (∀ u ∈ us, u ≠ []) ∧ us.length ≤ ts.length) ∧
    ∀ x other, Session.Steps resolver ((after (fresh resolver) calls).session, []) x →
      Pool.SameTree x.1.pool other → ∀ s, other.InRange s → ∀ name found?,
        other.Outward name s found? ↔ other.lexical s name = found? := by
  have hresolver : (after (fresh resolver) calls).resolver = resolver :=
    (goes_after calls (fresh resolver)).resolver
  refine ⟨fun result => opens_iff, fun result names h => ?_,
    fun lines offset cs scan => ⟨Scan.exists_takes_iff, fun ps h => ?_⟩,
    fun ending fs ts read => ⟨Event.exists_takes_iff, fun us h => ?_⟩,
    fun x other hsteps htree s hs name found? => ?_⟩
  · exact hresolver ▸ h.once
  · exact ⟨h.pieces.1, h.pieces.2, h.length_le⟩
  · exact ⟨h.rounds.1, h.rounds.2, h.length_le⟩
  · have hw := ((lawful_after resolver calls).regular.steps hsteps).sound.tree
    exact (htree.wellFormed hw).outward_iff hs

/-- Two files that import each other. -/
def importingEachOther : Resolver :=
  .memory [("a.proto", "import \"b.proto\";"), ("b.proto", "import \"a.proto\";")]

/-- Opening one of them comes to an end: the other file is read, and its own import closes the cycle. -/
theorem terminates_importingEachOther :
    ∃ c names, Opens (fresh importingEachOther) "a.proto"
        (.error (.circularImport "a.proto" ["a.proto", "b.proto", "a.proto"]) c) names ∧
      names.Nodup ∧ names.length ≤ 3 := by
  have hfailed : errorOf? (openFile "a.proto" (fresh importingEachOther)) =
      some (.circularImport "a.proto" ["a.proto", "b.proto", "a.proto"]) ∧
        importingEachOther.targets.length = 2 := by
    decide +kernel
  obtain ⟨hopens, honce, -⟩ := openFile_terminates importingEachOther [] "a.proto"
  obtain ⟨names, hrun⟩ := (hopens _).mpr (eq_error_of_errorOf? hfailed.1)
  have hnames := honce _ names hrun
  rw [hfailed.2] at hnames
  exact ⟨_, names, hrun, hnames⟩

end Compiler

end ProtoSchema

import Mathlib.Tactic.Lemma
import Decompiler.Proofs.FilePlaces
import Decompiler.Proofs.FileScripts

/-!
# Units that take turns

The units of a run may be dealt with at the same time.  Their scripts then take turns at one store, and
every order of turns is possible (`Interleaves`).  Each of them has the exchanges it would have alone, if
it were given the same answers (`Interleaves.plays`), and all exchanges together lead from store to store
(`Replays`).

A file that has been written stands where it was written until another is written to that place
(`Replays.stands`).  A run that deals with its units one after the other is one of the parallel ones
(`exists_parallelRun`).
-/

namespace Decompiler.Batch

open Bytecode
open Script

variable {α β : Type}

/-! ### Taking turns -/

/-- Scripts take turns at a store until all of them are done.  The trace has each exchange with the
number of the script that had it. -/
inductive Interleaves :
    List (Script α) → FileStore → List (Nat × Exchange) → List α → FileStore → Prop where
  | done (values : List α) (store : FileStore) :
      Interleaves (values.map Script.done) store [] values store
  | turn {scripts : List (Script α)} {i : Nat} {request : Request}
      {next : request.Answer → Script α} {store last : FileStore} {rest : List (Nat × Exchange)}
      {values : List α} (hturn : scripts[i]? = some (.ask request next))
      (hrest : Interleaves (scripts.set i (next (request.perform store).1))
        (request.perform store).2 rest values last) :
      Interleaves scripts store ((i, ⟨request, (request.perform store).1⟩) :: rest) values last

/-- Exchanges that lead from a store to another. -/
inductive Replays : FileStore → List Exchange → FileStore → Prop where
  | nil {store : FileStore} : Replays store [] store
  | cons {request : Request} {store last : FileStore} {rest : List Exchange}
      (hrest : Replays (request.perform store).2 rest last) :
      Replays store (⟨request, (request.perform store).1⟩ :: rest) last

/-- The exchanges of one script. -/
def exchangesOf (trace : List (Nat × Exchange)) (i : Nat) : List Exchange :=
  trace.filterMap fun turn => if turn.1 = i then some turn.2 else none

lemma mem_exchangesOf {trace : List (Nat × Exchange)} {i : Nat} {e : Exchange} :
    e ∈ exchangesOf trace i ↔ (i, e) ∈ trace := by
  simp only [exchangesOf, List.mem_filterMap, Option.ite_none_right_eq_some, Option.some.injEq]
  constructor
  · rintro ⟨⟨j, e⟩, hmem, rfl, rfl⟩
    exact hmem
  · exact fun hmem => ⟨_, hmem, rfl, rfl⟩

namespace Interleaves

variable {scripts : List (Script α)} {store last : FileStore} {trace : List (Nat × Exchange)}
  {values : List α}

/-- Each script does what it would do alone with its answers. -/
lemma plays (h : Interleaves scripts store trace values last) {i : Nat} {script : Script α}
    (hi : scripts[i]? = some script) :
    ∃ value, values[i]? = some value ∧ script.Plays (exchangesOf trace i) value := by
  induction h generalizing script with
  | done values store =>
    rw [List.getElem?_map] at hi
    obtain ⟨value, hvalue, rfl⟩ := Option.map_eq_some_iff.mp hi
    exact ⟨value, hvalue, .done⟩
  | @turn scripts j request next store last rest values hturn hrest ih =>
    by_cases hj : j = i
    · subst hj
      obtain rfl := Option.some.inj (hturn.symm.trans hi)
      have hlt : j < scripts.length := (List.getElem?_eq_some_iff.mp hturn).1
      obtain ⟨value, hvalue, hplays⟩ := ih (List.getElem?_set_self hlt)
      refine ⟨value, hvalue, ?_⟩
      simpa only [exchangesOf, List.filterMap_cons, if_true] using hplays.ask
    · obtain ⟨value, hvalue, hplays⟩ := ih ((List.getElem?_set_ne hj).trans hi)
      refine ⟨value, hvalue, ?_⟩
      simpa only [exchangesOf, List.filterMap_cons, if_neg hj] using hplays

/-- Each turn is taken by a script. -/
lemma lt_length (h : Interleaves scripts store trace values last) :
    ∀ turn ∈ trace, turn.1 < scripts.length := by
  induction h with
  | done => exact List.forall_mem_nil _
  | turn hturn _ ih =>
    refine List.forall_mem_cons.mpr ⟨(List.getElem?_eq_some_iff.mp hturn).1, ?_⟩
    simpa only [List.length_set] using ih

lemma replays (h : Interleaves scripts store trace values last) :
    Replays store (trace.map Prod.snd) last := by
  induction h with
  | done => exact .nil
  | turn _ _ ih => exact .cons ih

/-- A script may take all its turns first. -/
lemma of_onStore {front back : List (Script α)} (x : Script α)
    (h : Interleaves (front ++ .done (x.onStore store).1 :: back) (x.onStore store).2 trace values
      last) :
    ∃ trace, Interleaves (front ++ x :: back) store trace values last := by
  induction x generalizing store with
  | done a => exact ⟨trace, h⟩
  | ask request next ih =>
    obtain ⟨rest, hrest⟩ := @ih (request.perform store).1 (request.perform store).2 h
    have hturn : (front ++ ask request next :: back)[front.length]? = some (ask request next) := by
      simp
    have hset : ∀ y, (front ++ ask request next :: back).set front.length y = front ++ y :: back := by
      simp
    rw [← hset] at hrest
    exact ⟨_, .turn hturn hrest⟩

end Interleaves

/-- Scripts may take their turns one after the other. -/
lemma exists_interleaves_mapM {f : β → Script α} {g : β → StateM FileStore α}
    (hfg : ∀ b store, (f b).onStore store = (g b).run store) (list : List β) (store : FileStore) :
    ∃ trace, Interleaves (list.map f) store trace ((list.mapM g).run store).1
      ((list.mapM g).run store).2 := by
  suffices hsuffices : ∀ front : List α, ∃ trace,
      Interleaves (front.map Script.done ++ list.map f) store trace
        (front ++ ((list.mapM g).run store).1) ((list.mapM g).run store).2 from hsuffices []
  induction list generalizing store with
  | nil =>
    intro front
    refine ⟨[], ?_⟩
    rw [List.map_nil, List.append_nil, List.mapM_nil]
    change Interleaves _ store [] (front ++ []) store
    rw [List.append_nil]
    exact .done front store
  | cons b rest ih =>
    intro front
    obtain ⟨trace, htrace⟩ := ih ((g b).run store).2 (front ++ [((g b).run store).1])
    rw [← hfg b store, List.map_append, List.append_assoc] at htrace
    obtain ⟨trace, htrace⟩ := htrace.of_onStore (f b)
    rw [List.append_assoc] at htrace
    rw [List.mapM_cons, run_bind_state, run_bind_state, ← hfg b store]
    exact ⟨trace, htrace⟩

/-! ### What becomes of a store -/

namespace Request

variable {store : FileStore} {place : List String} {bytes : List UInt8}

/-- The answer to a change. -/
lemma change_cases (action : FileStore → Except FileError FileStore) (store : FileStore) :
    (∃ later, action store = .ok later ∧
        (FileStore.change action).run.run store = (.ok (), later)) ∨
      ∃ e, action store = .error e ∧
        (FileStore.change action).run.run store = (.error e, store) := by
  cases h : action store with
  | error e => exact .inr ⟨e, rfl, by simp [FileStore.change, ExceptT.run, StateT.run, h]⟩
  | ok later => exact .inl ⟨later, rfl, by simp [FileStore.change, ExceptT.run, StateT.run, h]⟩

/-- No request takes a directory away. -/
lemma keeps (request : Request) (store : FileStore) : store.Keeps (request.perform store).2 := by
  have hchange : ∀ action : FileStore → Except FileError FileStore,
      (∀ later, action store = .ok later → store.Keeps later) →
        store.Keeps ((FileStore.change action).run.run store).2 := by
    intro action haction
    obtain ⟨later, hlater, hrun⟩ | ⟨e, _, hrun⟩ := change_cases action store
    · rw [hrun]
      exact haction later hlater
    · rw [hrun]
      exact .refl store
  cases request with
  | isDirectory p => exact .refl store
  | isPresent p => exact .refl store
  | read p => exact .refl store
  | filesBelow p => exact .refl store
  | createDir p =>
    refine hchange _ fun later hlater => ?_
    obtain ⟨place, hplace, rfl⟩ := FileStore.createDir_eq_ok hlater
    exact .put _ (by rw [hplace]; exact nofun)
  | write p text =>
    refine hchange _ fun later hlater => ?_
    obtain ⟨place, _, hplace, rfl⟩ := FileStore.write_eq_ok hlater
    exact .put _ hplace
  | remove p =>
    refine hchange _ fun later hlater => ?_
    obtain ⟨place, bytes, _, hplace, rfl⟩ := FileStore.remove_eq_ok hlater
    exact .erase (by rw [hplace]; exact nofun)
  | now => exact .refl store

/-- A file that is not removed stands where it stood, unless another is written to its place. -/
lemma get?_perform (request : Request) (h : store.get? place = some (.file bytes))
    (hremove : ∀ p, request ≠ .remove p) :
    (request.perform store).2.get? place = some (.file bytes) ∨
      ∃ file, (⟨request, (request.perform store).1⟩ : Exchange) = .written file ∧
        store.locate file.1 = .ok place ∧
        (request.perform store).2.get? place = some (.file file.2.toUTF8.toList) := by
  cases request with
  | isDirectory p => exact .inl h
  | isPresent p => exact .inl h
  | read p => exact .inl h
  | filesBelow p => exact .inl h
  | now => exact .inl h
  | remove p => exact absurd rfl (hremove p)
  | createDir p =>
    left
    obtain ⟨later, hlater, hrun⟩ | ⟨e, _, hrun⟩ := change_cases (·.createDir p) store
    · obtain ⟨made, hmade, rfl⟩ := FileStore.createDir_eq_ok hlater
      have hne : place ≠ made := by
        rintro rfl
        rw [hmade] at h
        cases h
      exact (congrArg (fun result => result.2.get? place) hrun).trans
        ((FileStore.get?_put_of_ne store _ hne).trans h)
    · exact (congrArg (fun result => result.2.get? place) hrun).trans h
  | write p text =>
    obtain ⟨later, hlater, hrun⟩ | ⟨e, _, hrun⟩ :=
      change_cases (·.write p text.toUTF8.toList) store
    · obtain ⟨written, hlocate, hplace, rfl⟩ := FileStore.write_eq_ok hlater
      have hperform : (Request.write p text).perform store = (.ok (), store.put written _) := hrun
      rw [hperform]
      by_cases hne : place = written
      · subst hne
        exact .inr ⟨(p, text), rfl, hlocate, FileStore.get?_put_of_ne_directory _ hplace⟩
      · exact .inl ((FileStore.get?_put_of_ne store _ hne).trans h)
    · exact .inl ((congrArg (fun result => result.2.get? place) hrun).trans h)

/-- A file that has just been written stands at its place. -/
lemma of_written {request : Request} {file : Path × String}
    (h : Exchange.written file = ⟨request, (request.perform store).1⟩) :
    ∃ place, store.locate file.1 = .ok place ∧
      (request.perform store).2.get? place = some (.file file.2.toUTF8.toList) := by
  obtain rfl : Request.write file.1 file.2 = request := congrArg Exchange.request h
  obtain ⟨later, hlater, hrun⟩ | ⟨e, _, hrun⟩ :=
    change_cases (·.write file.1 file.2.toUTF8.toList) store
  · obtain ⟨place, hlocate, hplace, rfl⟩ := FileStore.write_eq_ok hlater
    refine ⟨place, hlocate, ?_⟩
    exact (congrArg (fun result => result.2.get? place) hrun).trans
      (FileStore.get?_put_of_ne_directory _ hplace)
  · have hanswer : Except.ok () = ((FileStore.ops.write file.1 file.2).run.run store).1 :=
      eq_of_heq (Exchange.mk.inj h).2
    cases hanswer.trans (congrArg Prod.fst hrun)

end Request

namespace Replays

variable {store last : FileStore} {events : List Exchange}

/-- No exchange takes a directory away. -/
lemma keeps (h : Replays store events last) : store.Keeps last := by
  induction h with
  | nil => exact .refl _
  | cons _ ih => exact (Request.keeps _ _).trans ih

/-- Where no file is removed, a file stands to the end or the last that was written to its place
does. -/
lemma stands_from (h : Replays store events last)
    (hremove : ∀ e ∈ events, ∀ p, e.request ≠ .remove p) {place : List String} {bytes : List UInt8}
    (hplace : store.get? place = some (.file bytes)) :
    last.get? place = some (.file bytes) ∨
      ∃ file, Exchange.written file ∈ events ∧ last.locate file.1 = .ok place ∧
        last.get? place = some (.file file.2.toUTF8.toList) := by
  induction h generalizing bytes with
  | nil => exact .inl hplace
  | @cons request store last rest hrest ih =>
    obtain ⟨hfirst, hremove⟩ := List.forall_mem_cons.mp hremove
    obtain hstays | ⟨file, hfile, hlocate, hnew⟩ := request.get?_perform hplace hfirst
    · obtain hstands | ⟨file, hmem, hfile⟩ := ih hremove hstays
      · exact .inl hstands
      · exact .inr ⟨file, List.mem_cons_of_mem _ hmem, hfile⟩
    · right
      obtain hstands | ⟨other, hmem, hother⟩ := ih hremove hnew
      · have hkeeps := (request.keeps store).trans hrest.keeps
        exact ⟨file, List.mem_cons.mpr (.inl hfile.symm), hkeeps.locate hlocate, hstands⟩
      · exact ⟨other, List.mem_cons_of_mem _ hmem, hother⟩

/-- Where no file is removed, a file that was written stands to the end or another that was written to
its place does. -/
lemma stands (h : Replays store events last)
    (hremove : ∀ e ∈ events, ∀ p, e.request ≠ .remove p) {file : Path × String}
    (hfile : Exchange.written file ∈ events) :
    ∃ place other, last.locate file.1 = .ok place ∧ Exchange.written other ∈ events ∧
      last.locate other.1 = .ok place ∧
      last.get? place = some (.file other.2.toUTF8.toList) := by
  induction h with
  | nil => cases hfile
  | @cons request store last rest hrest ih =>
    obtain ⟨_, hremove⟩ := List.forall_mem_cons.mp hremove
    obtain hfirst | hfile := List.mem_cons.mp hfile
    · obtain ⟨place, hlocate, hplace⟩ := Request.of_written hfirst
      have hlocate := ((request.keeps store).trans hrest.keeps).locate hlocate
      obtain hstands | ⟨other, hmem, hother⟩ := hrest.stands_from hremove hplace
      · exact ⟨place, file, hlocate, List.mem_cons.mpr (.inl hfirst), hlocate, hstands⟩
      · exact ⟨place, other, hlocate, List.mem_cons_of_mem _ hmem, hother⟩
    · obtain ⟨place, other, hlocate, hmem, hother⟩ := ih hremove hfile
      exact ⟨place, other, hlocate, List.mem_cons_of_mem _ hmem, hother⟩

/-- Where no file is removed, a file is read as it was before, unless another is written to its place. -/
lemma read_eq (h : Replays store events last)
    (hremove : ∀ e ∈ events, ∀ p, e.request ≠ .remove p) {p : Path} {bytes answer : List UInt8}
    (hread : store.read p = .ok bytes) (hanswer : ⟨.read p, .ok answer⟩ ∈ events) :
    answer = bytes ∨ ∃ file place, Exchange.written file ∈ events ∧
      last.locate p = .ok place ∧ last.locate file.1 = .ok place := by
  induction h with
  | nil => cases hanswer
  | @cons request store last rest hrest ih =>
    obtain ⟨hfirst, hremove⟩ := List.forall_mem_cons.mp hremove
    obtain hhead | hanswer := List.mem_cons.mp hanswer
    · left
      obtain rfl : Request.read p = request := congrArg Exchange.request hhead
      have hanswer : Except.ok answer = store.read p := eq_of_heq (Exchange.mk.inj hhead).2
      exact Except.ok.inj (hanswer.trans hread)
    · obtain ⟨place, hlocate, hplace⟩ := FileStore.read_eq_ok hread
      have hkeeps := request.keeps store
      obtain hstays | ⟨file, hfile, hwritten, -⟩ := request.get?_perform hplace hfirst
      · obtain heq | ⟨file, place, hmem, hfile⟩ :=
          ih hremove (FileStore.read_of_get? (hkeeps.locate hlocate) hstays) hanswer
        · exact .inl heq
        · exact .inr ⟨file, place, List.mem_cons_of_mem _ hmem, hfile⟩
      · have hkeeps := hkeeps.trans hrest.keeps
        exact .inr ⟨file, place, List.mem_cons.mpr (.inl hfile.symm), hkeeps.locate hlocate,
          hkeeps.locate hwritten⟩

end Replays

/-! ### Parallel runs -/

/-- What is known of a unit, whether or not its files could be read and written. -/
def reportOf (unit : SourceUnit) : Except RunError UnitReport → UnitReport
  | .ok report => report
  | .error e => { name := unit.name, failure := some e.message }

section

variable {m : Type → Type} [Monad m] [LawfulMonad m]

lemma reportUnit_eq (ops : FileOps m) (formatter : String → Option String) (args : Arguments)
    (names : Names) (unit : SourceUnit) :
    reportUnit ops formatter args names unit =
      reportOf unit <$> (processUnit ops formatter args names unit).run := by
  rw [reportUnit, map_eq_pure_bind]
  congr 1
  funext outcome
  cases outcome <;> rfl

/-- Reports are made of what has come of the units. -/
lemma mapM_reportUnit (ops : FileOps m) (formatter : String → Option String) (args : Arguments)
    (names : Names) (units : List SourceUnit) :
    units.mapM (reportUnit ops formatter args names) = List.zipWith reportOf units <$>
      units.mapM fun unit => (processUnit ops formatter args names unit).run := by
  induction units with
  | nil => simp
  | cons unit rest ih => simp [List.mapM_cons, ih, reportUnit_eq]

/-- A run up to its units: it reads the names, finds the units and makes the output directory. -/
def beginRun (ops : FileOps m) (args : Arguments) : RunStep m (Names × List SourceUnit) := do
  let names ← readNames ops args
  let units ← findUnits ops args.inputs
  prepareOutput ops args
  return (names, units)

/-- A run with an output directory. -/
lemma run_eq_beginRun (ops : FileOps m) (formatter : String → Option String) {args : Arguments}
    {dir : String} (hdir : args.outputDir = some dir) :
    run ops formatter args = do
      let (names, units) ← beginRun ops args
      let outcomes ← (units.mapM fun unit => (processUnit ops formatter args names unit).run : m _)
      let reports := List.zipWith reportOf units outcomes
      updateLog ops (.ofText dir) (failedUnits reports)
      return reports := by
  simp [run, beginRun, hdir, mapM_reportUnit]

end

/-- A run with an output directory in which the units take turns.  Their texts are left as they are
printed: either they are not in Lua, or the formatter is not to be used. -/
structure ParallelRun (args : Arguments) (store : FileStore) where
  formatter : String → Option String
  /-- The output directory. -/
  dir : String
  names : Names
  units : List SourceUnit
  /-- The store when the units are begun. -/
  before : FileStore
  /-- The exchanges of the units, each with the number of its unit. -/
  trace : List (Nat × Exchange)
  /-- What comes of each unit. -/
  outcomes : List (Except RunError UnitReport)
  /-- The store when all units are done. -/
  after : FileStore
  /-- The store at the end. -/
  last : FileStore
  outputDir : args.outputDir = some dir
  plain : args.dialect = .lua → args.noFormat = true
  begins : (beginRun FileStore.ops args).run.run store = (.ok (names, units), before)
  interleaves : Interleaves
    (units.map fun unit => (processUnit Script.files formatter args names unit).run)
    before trace outcomes after
  ends : (updateLog FileStore.ops (.ofText dir) (failedUnits
    (List.zipWith reportOf units outcomes))).run.run after = (.ok (), last)

/-- What comes of units that are dealt with one after the other, and the store after them. -/
def oneByOne (formatter : String → Option String) (args : Arguments) (names : Names)
    (units : List SourceUnit) (store : FileStore) :
    List (Except RunError UnitReport) × FileStore :=
  (units.mapM fun unit => (processUnit FileStore.ops formatter args names unit).run).run store

lemma run_bind_eq_ok {x : RunStep (StateM FileStore) α} {f : α → RunStep (StateM FileStore) β} {b : β}
    {store last : FileStore} (h : (x >>= f).run.run store = (.ok b, last)) :
    ∃ a middle, x.run.run store = (.ok a, middle) ∧ (f a).run.run middle = (.ok b, last) := by
  rw [ExceptT.run_bind, run_bind_state] at h
  cases hx : x.run.run store with
  | mk result middle =>
    rw [hx] at h
    cases result with
    | error e => cases h
    | ok a => exact ⟨a, middle, rfl, h⟩

lemma run_lift_eq_ok {x : StateM FileStore α} {a : α} {store last : FileStore}
    (h : (liftM x : RunStep (StateM FileStore) α).run.run store = (.ok a, last)) :
    x.run store = (a, last) := by
  change (x >>= fun a => pure (Except.ok a)).run store = _ at h
  rw [run_bind_state] at h
  cases hx : x.run store with
  | mk value later =>
    rw [hx] at h
    cases h
    rfl

/-- A run that deals with its units one after the other is a parallel run. -/
theorem exists_parallelRun {args : Arguments} {dir : String} {store last : FileStore}
    {formatter : String → Option String} {reports : List UnitReport}
    (hdir : args.outputDir = some dir) (hplain : args.dialect = .lua → args.noFormat = true)
    (h : runOnStore args store formatter = (.ok reports, last)) :
    ∃ run : ParallelRun args store, run.formatter = formatter ∧ run.last = last ∧
      (run.outcomes, run.after) = oneByOne formatter args run.names run.units run.before ∧
      reports = List.zipWith reportOf run.units run.outcomes := by
  rw [runOnStore, run_eq_beginRun _ _ hdir] at h
  obtain ⟨⟨names, units⟩, before, hbegins, h⟩ := run_bind_eq_ok h
  obtain ⟨outcomes, after, houtcomes, h⟩ := run_bind_eq_ok h
  obtain ⟨_, middle, hends, h⟩ := run_bind_eq_ok h
  cases h
  have houtcomes : oneByOne formatter args names units before = (outcomes, after) :=
    run_lift_eq_ok houtcomes
  obtain ⟨trace, htrace⟩ :=
    exists_interleaves_mapM (fun unit => Follows.processUnit formatter args names unit) units before
  rw [← oneByOne, houtcomes] at htrace
  exact ⟨⟨formatter, dir, names, units, before, trace, outcomes, after, last, hdir, hplain, hbegins,
    htrace, hends⟩, rfl, rfl, houtcomes.symm, rfl⟩

/-- The same where the files of all units can be read and written. -/
lemma exists_parallelRun_of_isOk {args : Arguments} {dir : String} {store : FileStore}
    {formatter : String → Option String} {names : Names} {units : List SourceUnit}
    (hdir : args.outputDir = some dir) (hplain : args.dialect = .lua → args.noFormat = true)
    (hbegins : ((beginRun FileStore.ops args).run.run store).1 = .ok (names, units))
    (hunits : (oneByOne formatter args names units
      ((beginRun FileStore.ops args).run.run store).2).1.all (·.isOk) = true)
    (hrun : (runOnStore args store formatter).1.isOk = true) :
    ∃ run : ParallelRun args store, run.last = (runOnStore args store formatter).2 ∧
      run.names = names ∧ run.units = units ∧ ∀ outcome ∈ run.outcomes, outcome.isOk = true := by
  cases h : runOnStore args store formatter with
  | mk result last =>
    rw [h] at hrun
    cases result with
    | error e => cases hrun
    | ok reports =>
      obtain ⟨run, -, hlast, houtcomes, -⟩ := exists_parallelRun hdir hplain h
      have hbegun := run.begins
      rw [hbegun] at hbegins hunits
      cases hbegins
      refine ⟨run, hlast, rfl, rfl, ?_⟩
      rw [← houtcomes] at hunits
      exact List.all_eq_true.mp hunits

end Decompiler.Batch

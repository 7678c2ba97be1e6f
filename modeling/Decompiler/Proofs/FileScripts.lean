import Mathlib.Tactic.Lemma
import Decompiler.Batch.Run

/-!
# Units as scripts

A run asks its file system for one thing after the other and goes on with the answers.  A `Script` is
such a course of action before there is a file system to answer, and `Script.files` makes any step of a
run into one, as the functions of a run can be used with any monad.  What a script asks and what it is
told make up its `Exchange`s; a script that is given the same answers does the same (`Script.Plays`).

A unit that succeeds has read its file, made directories and written the files that come of its bytes
(`Script.exchanges_of_processUnit`).  On a store its script does what the unit itself does
(`Script.Follows.processUnit`).
-/

namespace Decompiler.Batch

open Bytecode

/-! ### Requests -/

/-- What a run asks of a file system. -/
inductive Request where
  | isDirectory (p : Path)
  | isPresent (p : Path)
  | read (p : Path)
  | filesBelow (p : Path)
  | createDir (p : Path)
  | write (p : Path) (text : String)
  | remove (p : Path)
  | now

namespace Request

/-- What is answered. -/
def Answer : Request → Type
  | .isDirectory _ | .isPresent _ => Bool
  | .read _ => Except FileError (List UInt8)
  | .filesBelow _ => Except FileError (List (List String))
  | .createDir _ | .write _ _ | .remove _ => Except FileError Unit
  | .now => Nat

/-- The answer of a store, and the store after it. -/
def perform : (request : Request) → FileStore → request.Answer × FileStore
  | .isDirectory p, store => (FileStore.ops.isDirectory p).run store
  | .isPresent p, store => (FileStore.ops.isPresent p).run store
  | .read p, store => (FileStore.ops.read p).run.run store
  | .filesBelow p, store => (FileStore.ops.filesBelow p).run.run store
  | .createDir p, store => (FileStore.ops.createDir p).run.run store
  | .write p text, store => (FileStore.ops.write p text).run.run store
  | .remove p, store => (FileStore.ops.remove p).run.run store
  | .now, store => FileStore.ops.now.run store

end Request

/-- A request and what was answered. -/
structure Exchange where
  request : Request
  answer : request.Answer

/-! ### Scripts -/

/-- A course of action that depends on the answers of a file system. -/
inductive Script (α : Type) : Type where
  | done (value : α)
  | ask (request : Request) (next : request.Answer → Script α)

namespace Script

variable {α β ε ε' : Type}

/-- One script after the other. -/
def bind : Script α → (α → Script β) → Script β
  | .done a, f => f a
  | .ask request next, f => .ask request fun answer => (next answer).bind f

instance : Monad Script where
  pure := .done
  bind := bind

instance : LawfulMonad Script := LawfulMonad.mk' Script
  (by
    intro α x
    induction x with
    | done a => rfl
    | ask request next ih => exact congrArg (ask request) (funext ih))
  (fun _ _ => rfl)
  (by
    intro α β γ x f g
    induction x with
    | done a => rfl
    | ask request next ih => exact congrArg (ask request) (funext ih))

/-- A single request. -/
def request (request : Request) : Script request.Answer :=
  .ask request .done

/-- File operations that only note what is asked. -/
def files : FileOps Script where
  isDirectory p := request (.isDirectory p)
  isPresent p := request (.isPresent p)
  read p := ExceptT.mk (request (.read p))
  filesBelow p := ExceptT.mk (request (.filesBelow p))
  createDir p := ExceptT.mk (request (.createDir p))
  write p text := ExceptT.mk (request (.write p text))
  remove p := ExceptT.mk (request (.remove p))
  now := request .now

/-- Runs a script on a store. -/
def onStore : Script α → FileStore → α × FileStore
  | .done a, store => (a, store)
  | .ask request next, store =>
    let (answer, store) := request.perform store
    (next answer).onStore store

/-- The script ends with a value when it is given the answers of some exchanges, and has just these. -/
inductive Plays : Script α → List Exchange → α → Prop where
  | done {a : α} : Plays (.done a) [] a
  | ask {request : Request} {next : request.Answer → Script α} {answer : request.Answer}
      {rest : List Exchange} {a : α} (hnext : Plays (next answer) rest a) :
      Plays (.ask request next) (⟨request, answer⟩ :: rest) a

/-- Everything that the script asks has a property, whatever it is answered. -/
def Asks (P : Request → Prop) : Script α → Prop
  | .done _ => True
  | .ask request next => P request ∧ ∀ answer, (next answer).Asks P

/-! ### What scripts ask -/

section Asks

variable {P : Request → Prop}

lemma Asks.bind {x : Script α} {f : α → Script β} (hx : x.Asks P) (hf : ∀ a, (f a).Asks P) :
    (x >>= f).Asks P := by
  induction x with
  | done a => exact hf a
  | ask request next ih => exact ⟨hx.1, fun answer => ih answer (hx.2 answer)⟩

lemma asks_request {request : Request} (h : P request) : (Script.request request).Asks P :=
  ⟨h, fun _ => trivial⟩

/-- What a script has asked is something that it asks. -/
lemma Asks.of_plays {x : Script α} (hx : x.Asks P) {events : List Exchange} {a : α}
    (h : x.Plays events a) : ∀ e ∈ events, P e.request := by
  induction h with
  | done => exact List.forall_mem_nil _
  | ask _ ih => exact List.forall_mem_cons.mpr ⟨hx.1, ih (hx.2 _)⟩

/-- A step and what is done when it fails. -/
lemma asks_tryCatch {x : ExceptT ε Script α} {handle : ε → ExceptT ε Script α} (hx : x.run.Asks P)
    (hhandle : ∀ e, (handle e).run.Asks P) : (tryCatch x handle).run.Asks P := by
  refine Asks.bind hx fun result => ?_
  cases result with
  | ok a => trivial
  | error e => exact hhandle e

/-- One step after the other. -/
lemma asks_bind {x : ExceptT ε Script α} {f : α → ExceptT ε Script β} (hx : x.run.Asks P)
    (hf : ∀ a, (f a).run.Asks P) : (x >>= f).run.Asks P := by
  rw [ExceptT.run_bind]
  refine Asks.bind hx fun result => ?_
  cases result with
  | ok a => exact hf a
  | error e => trivial

/-- A step for each element of a list. -/
lemma asks_forM {f : α → ExceptT ε Script PUnit} {list : List α} (hf : ∀ a, (f a).run.Asks P) :
    (list.forM f).run.Asks P := by
  induction list with
  | nil => trivial
  | cons a rest ih =>
    exact asks_bind (f := fun _ => rest.forM f) (hf a) fun _ => ih

/-- Making a directory asks for nothing but directories. -/
lemma asks_createDirs (hcheck : ∀ p, P (.isDirectory p)) (hcreate : ∀ p, P (.createDir p)) (p : Path) :
    (files.createDirs p).run.Asks P := by
  have hunless : ∀ p failure, (files.unlessThere p failure).run.Asks P := by
    intro p failure
    refine asks_bind (Asks.bind (asks_request (hcheck p)) fun _ => trivial) fun found => ?_
    split <;> trivial
  unfold FileOps.createDirs
  split
  · trivial
  · refine asks_tryCatch (asks_request (hcreate p)) fun failure => ?_
    split
    · exact asks_forM fun q => asks_tryCatch (asks_request (hcreate q)) (hunless q)
    · exact hunless p failure

end Asks

/-! ### Exchanges of scripts that succeed -/

lemma plays_pure_iff {a b : α} {events : List Exchange} :
    (pure a : Script α).Plays events b ↔ events = [] ∧ b = a := by
  constructor
  · intro h
    cases h
    exact ⟨rfl, rfl⟩
  · rintro ⟨rfl, rfl⟩
    exact .done

/-- A single request makes a single exchange. -/
lemma Plays.of_request {request : Request} {events : List Exchange} {answer : request.Answer}
    (h : (Script.request request).Plays events answer) : events = [⟨request, answer⟩] := by
  cases h with
  | ask hnext =>
    cases hnext
    rfl

/-- The exchanges of one script after the other. -/
lemma Plays.of_bind {x : Script α} {f : α → Script β} {events : List Exchange} {b : β}
    (h : (x >>= f).Plays events b) :
    ∃ first second a, events = first ++ second ∧ x.Plays first a ∧ (f a).Plays second b := by
  induction x generalizing events with
  | done a => exact ⟨[], events, a, rfl, .done, h⟩
  | ask request next ih =>
    cases h with
    | ask hnext =>
      obtain ⟨first, second, a, rfl, hx, hf⟩ := ih _ hnext
      exact ⟨_ :: first, second, a, rfl, .ask hx, hf⟩

/-- The step succeeds with a value when it has had some exchanges. -/
def Succeeds (x : ExceptT ε Script α) (events : List Exchange) (a : α) : Prop :=
  x.run.Plays events (.ok a)

namespace Succeeds

variable {events : List Exchange}

lemma of_pure {a b : α} (h : Succeeds (pure a : ExceptT ε Script α) events b) :
    events = [] ∧ b = a := by
  obtain ⟨hevents, hb⟩ := plays_pure_iff.mp h
  exact ⟨hevents, Except.ok.inj hb⟩

lemma of_bind {x : ExceptT ε Script α} {f : α → ExceptT ε Script β} {b : β}
    (h : Succeeds (x >>= f) events b) :
    ∃ first second a, events = first ++ second ∧ Succeeds x first a ∧ Succeeds (f a) second b := by
  rw [Succeeds, ExceptT.run_bind] at h
  obtain ⟨first, second, result, rfl, hx, hf⟩ := Plays.of_bind h
  cases result with
  | error e => cases hf
  | ok a => exact ⟨first, second, a, rfl, hx, hf⟩

lemma of_lift {x : Script α} {a : α} (h : Succeeds (liftM x : ExceptT ε Script α) events a) :
    x.Plays events a := by
  obtain ⟨first, second, b, rfl, hx, hb⟩ := Plays.of_bind (f := fun a => pure (Except.ok a)) h
  obtain ⟨rfl, hvalue⟩ := plays_pure_iff.mp hb
  cases hvalue
  rw [List.append_nil]
  exact hx

/-- Saying what was done does not change what was done. -/
lemma of_adapt {f : ε → ε'} {x : ExceptT ε Script α} {a : α}
    (h : Succeeds (ExceptT.adapt f x) events a) : Succeeds x events a := by
  obtain ⟨first, second, result, rfl, hx, hresult⟩ := Plays.of_bind (x := x.run) h
  obtain ⟨rfl, hresult⟩ := plays_pure_iff.mp hresult
  cases result with
  | error e => cases hresult
  | ok b =>
    cases hresult
    rw [List.append_nil]
    exact hx

end Succeeds

/-! ### Units -/

end Script

/-- A request that makes a directory or looks whether there is one. -/
def Request.IsForDirectory : Request → Prop
  | .isDirectory _ | .createDir _ => True
  | _ => False

/-- Where the source of a unit is written. -/
def outputPath (args : Arguments) (dir : String) (unit : SourceUnit) : Path :=
  ((Path.ofText dir).join unit.relative).withExtension args.dialect.extension

/-- Laying a text out leaves the name of the unit as it is. -/
lemma name_laidOut (formatter : String → Option String) (args : Arguments) (result : UnitResult) :
    (laidOut formatter args result).name = result.name := by
  unfold laidOut
  split <;> rfl

/-- Laying a text out does not bear on whether the unit failed. -/
lemma failed_laidOut (formatter : String → Option String) (args : Arguments) (result : UnitResult) :
    (laidOut formatter args result).failed = result.failed := by
  unfold laidOut
  split <;> rfl

/-- Text that is not in Lua, or is to be left as it is printed, is not laid out anew. -/
lemma laidOut_of_plain {args : Arguments} (h : args.dialect = .lua → args.noFormat = true)
    (formatter : String → Option String) (result : UnitResult) :
    laidOut formatter args result = result := by
  refine if_neg ?_
  rintro ⟨hdialect, hformat, -⟩
  rw [h hdialect] at hformat
  cases hformat

/-- What a file that has been written was asked for with. -/
def Exchange.written (file : Path × String) : Exchange :=
  ⟨.write file.1 file.2, .ok ()⟩

namespace Script

/-- Writing files makes an exchange for each of them. -/
lemma exchanges_of_writeFiles {list : List (Path × String)} {events : List Exchange}
    (h : Succeeds (writeFiles files list) events ()) : events = list.map Exchange.written := by
  induction list generalizing events with
  | nil => exact (Succeeds.of_pure h).1
  | cons file rest ih =>
    obtain ⟨first, second, _, rfl, hfirst, hrest⟩ :=
      Succeeds.of_bind (f := fun _ => writeFiles files rest) h
    rw [Plays.of_request hfirst.of_adapt, ih hrest]
    rfl

/-- What a unit that succeeds has exchanged: it has read its file, made directories and written the files
that come of its bytes. -/
lemma exchanges_of_processUnit {formatter : String → Option String} {args : Arguments} {dir : String}
    {names : Names} {unit : SourceUnit} (hdir : args.outputDir = some dir) {events : List Exchange}
    {report : UnitReport} (h : Succeeds (processUnit files formatter args names unit) events report) :
    ∃ bytes start stop made,
      events = ⟨.read unit.path, .ok bytes⟩ :: ⟨.now, start⟩ :: made ++
        (outputFiles args (disassemble names bytes) ((Path.ofText dir).join unit.relative)
          (laidOut formatter args (decompile names args.options unit.name bytes))).map
            Exchange.written ++ [⟨.now, stop⟩] ∧
      (∀ e ∈ made, e.request.IsForDirectory) ∧
      report.name = (decompile names args.options unit.name bytes).name ∧
      report.failure.isSome = (decompile names args.options unit.name bytes).failed := by
  unfold processUnit at h
  obtain ⟨reading, afterReading, bytes, hread, hreading, hrest⟩ := h.of_bind
  obtain ⟨starting, afterStart, start, hstart, hstarting, hrest⟩ := hrest.of_bind
  rw [hread, hstart, Plays.of_request hreading.of_adapt, Plays.of_request hstarting.of_lift]
  simp only [hdir] at hrest
  refine ⟨bytes, start, ?_⟩
  rw [← name_laidOut formatter args, ← failed_laidOut formatter args]
  generalize laidOut formatter args (decompile names args.options unit.name bytes) = result at hrest ⊢
  generalize outputFiles args (disassemble names bytes) ((Path.ofText dir).join unit.relative)
    result = list at hrest ⊢
  -- The files are written at the end, whether or not there is a directory to be made.
  have hwriting : ∀ {events : List Exchange},
      Succeeds (do
          writeFiles files list
          let stop ← (files.now : Script Nat)
          return { name := result.name, failure := result.error.map Error.message,
                   nanoseconds := stop - start } : RunStep Script UnitReport) events report →
      ∃ stop, events = list.map Exchange.written ++ [⟨.now, stop⟩] ∧ report.name = result.name ∧
        report.failure.isSome = result.failed := by
    intro events h
    obtain ⟨writing, afterWriting, _, rfl, hwrite, hstopping⟩ := h.of_bind
    obtain ⟨stopping, last, stop, rfl, hstop, hlast⟩ := hstopping.of_bind
    obtain ⟨rfl, rfl⟩ := hlast.of_pure
    rw [exchanges_of_writeFiles hwrite, Plays.of_request hstop.of_lift]
    exact ⟨stop, rfl, rfl, by simp [UnitResult.failed]⟩
  split at hrest
  · rename_i parent _
    obtain ⟨making, afterMaking, _, rfl, hmaking, hrest⟩ := hrest.of_bind
    obtain ⟨stop, rfl, hname, hfailure⟩ := hwriting hrest
    refine ⟨stop, making, by simp, ?_, hname, hfailure⟩
    exact (asks_createDirs (fun _ => trivial) (fun _ => trivial) parent).of_plays hmaking.of_adapt
  · obtain ⟨stop, rfl, hname, hfailure⟩ := hwriting hrest
    exact ⟨stop, [], by simp, List.forall_mem_nil _, hname, hfailure⟩

/-! ### Scripts on a store -/

lemma onStore_bind (x : Script α) (f : α → Script β) (store : FileStore) :
    (x >>= f).onStore store = (f (x.onStore store).1).onStore (x.onStore store).2 := by
  induction x generalizing store with
  | done a => rfl
  | ask request next ih => exact ih _ _

lemma run_bind_state (x : StateM FileStore α) (f : α → StateM FileStore β) (store : FileStore) :
    (x >>= f).run store = (f (x.run store).1).run (x.run store).2 :=
  rfl

/-- The script of a step does to a store what the step does. -/
def Follows (x : ExceptT ε Script α) (y : ExceptT ε (StateM FileStore) α) : Prop :=
  ∀ store, x.run.onStore store = y.run.run store

namespace Follows

lemma pure (a : α) :
    Follows (Pure.pure a : ExceptT ε Script α) (Pure.pure a : ExceptT ε (StateM FileStore) α) :=
  fun _ => rfl

lemma throw (e : ε) : Follows (MonadExcept.throw e : ExceptT ε Script α)
    (MonadExcept.throw e : ExceptT ε (StateM FileStore) α) :=
  fun _ => rfl

lemma lift {x : Script α} {y : StateM FileStore α} (h : ∀ store, x.onStore store = y.run store) :
    Follows (liftM x : ExceptT ε Script α) (liftM y : ExceptT ε (StateM FileStore) α) := by
  intro store
  change ((x >>= fun a => Pure.pure (Except.ok a)).onStore store) = _
  rw [onStore_bind, h]
  rfl

/-- One step after the other. -/
lemma bind {x : ExceptT ε Script α} {y : ExceptT ε (StateM FileStore) α}
    {f : α → ExceptT ε Script β} {g : α → ExceptT ε (StateM FileStore) β} (hx : Follows x y)
    (hf : ∀ a, Follows (f a) (g a)) : Follows (x >>= f) (y >>= g) := by
  intro store
  rw [ExceptT.run_bind, ExceptT.run_bind, onStore_bind, run_bind_state, hx store]
  cases (y.run.run store).1 with
  | error e => rfl
  | ok a => exact hf a _

/-- A step and what is done when it fails. -/
lemma tryCatch {x : ExceptT ε Script α} {y : ExceptT ε (StateM FileStore) α}
    {f : ε → ExceptT ε Script α} {g : ε → ExceptT ε (StateM FileStore) α} (hx : Follows x y)
    (hf : ∀ e, Follows (f e) (g e)) :
    Follows (MonadExcept.tryCatch x f) (MonadExcept.tryCatch y g) := by
  intro store
  rw [ExceptT.run_tryCatch, ExceptT.run_tryCatch, onStore_bind, run_bind_state, hx store]
  cases (y.run.run store).1 with
  | error e => exact hf e _
  | ok a => rfl

lemma adapt {x : ExceptT ε Script α} {y : ExceptT ε (StateM FileStore) α} (f : ε → ε')
    (hx : Follows x y) : Follows (ExceptT.adapt f x) (ExceptT.adapt f y) := by
  intro store
  refine (onStore_bind x.run _ store).trans ?_
  rw [hx store]
  rfl

/-- A step for each element of a list. -/
lemma forM {f : α → ExceptT ε Script PUnit} {g : α → ExceptT ε (StateM FileStore) PUnit}
    (hf : ∀ a, Follows (f a) (g a)) (list : List α) : Follows (list.forM f) (list.forM g) := by
  induction list with
  | nil => exact pure _
  | cons a rest ih => exact (hf a).bind fun _ => ih

/-- Making a directory. -/
lemma createDirs (p : Path) : Follows (files.createDirs p) (FileStore.ops.createDirs p) := by
  have hunless : ∀ p failure,
      Follows (files.unlessThere p failure) (FileStore.ops.unlessThere p failure) := by
    intro p failure
    refine (lift fun _ => rfl).bind fun found => ?_
    cases found with
    | false => exact throw failure
    | true => exact pure ()
  unfold FileOps.createDirs
  split
  · exact pure ()
  · refine tryCatch (fun _ => rfl) fun failure => ?_
    split
    · exact forM (fun q => tryCatch (fun _ => rfl) (hunless q)) _
    · exact hunless p failure

/-- Dealing with a unit. -/
lemma processUnit (formatter : String → Option String) (args : Arguments) (names : Names)
    (unit : SourceUnit) : Follows (processUnit files formatter args names unit)
      (processUnit FileStore.ops formatter args names unit) := by
  have hwriting : ∀ list, Follows (writeFiles files list) (writeFiles FileStore.ops list) :=
    forM fun _ => adapt _ fun _ => rfl
  have hnow : Follows (liftM files.now : RunStep Script Nat)
      (liftM FileStore.ops.now : RunStep (StateM FileStore) Nat) :=
    lift fun _ => rfl
  unfold Batch.processUnit
  refine (adapt _ fun _ => rfl).bind fun bytes => hnow.bind fun start => ?_
  split
  · dsimp only
    split
    · refine (adapt _ (createDirs _)).bind fun _ => (hwriting _).bind fun _ => hnow.bind fun _ => ?_
      exact pure _
    · exact (hwriting _).bind fun _ => hnow.bind fun _ => pure _
  · exact hnow.bind fun _ => pure _

end Follows

end Script

end Decompiler.Batch

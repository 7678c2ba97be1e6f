import Decompiler.Proofs.DecodedCode
import Decompiler.Proofs.ParallelRuns

/-!
# What a batch leaves behind

After a run each unit should find its own text at its output path.  Units of the same name from
different inputs have the same output path, though, and the last that is written stays: what stands
there is the text of one of the units that share the path, and each unit has its own text just when those
that share a path agree on it (`ParallelRun.outputs_kept_iff`).  Other files of the batch, the log
included, are never in the way.  The log is right in any case.
-/

namespace Decompiler.Batch

open Bytecode
open Script

/-! ### Files and their kinds -/

lemma byteArray_toList_loop (bytes : ByteArray) (i : Nat) (seen : List UInt8) :
    ByteArray.toList.loop bytes i seen = seen.reverse ++ bytes.data.toList.drop i := by
  fun_induction ByteArray.toList.loop bytes i seen with
  | case1 i seen hi ih =>
    have hdrop := List.drop_eq_getElem_cons (l := bytes.data.toList) (i := i) hi
    have hget : bytes.get! i = bytes.data.toList[i] := getElem!_pos bytes.data i hi
    rw [ih, List.reverse_cons, List.append_assoc, hdrop, hget]
    rfl
  | case2 i seen hi =>
    rw [List.drop_eq_nil_of_le (Nat.le_of_not_lt hi), List.append_nil]

/-- Different texts have different bytes. -/
lemma toList_toUTF8_inj {a b : String} : a.toUTF8.toList = b.toUTF8.toList ↔ a = b := by
  refine ⟨fun h => String.toByteArray_inj.mp (ByteArray.ext ?_), fun h => by rw [h]⟩
  unfold ByteArray.toList at h
  rw [byteArray_toList_loop, byteArray_toList_loop] at h
  exact Array.toList_inj.mp h

namespace FileStore

/-- A text can be read at the end of a path. -/
def Holds (store : FileStore) (p : Path) (text : String) : Prop :=
  store.read p = .ok text.toUTF8.toList

lemma holds_iff {store : FileStore} {p : Path} {place : List String} {text other : String}
    (hlocate : store.locate p = .ok place)
    (hplace : store.get? place = some (.file other.toUTF8.toList)) :
    store.Holds p text ↔ text = other := by
  rw [Holds, read_of_get? hlocate hplace, Except.ok.injEq, toList_toUTF8_inj, eq_comm]

end FileStore

/-- The extension of sources is a word. -/
lemma isWord_extension (dialect : Dialect) : IsWord dialect.extension := by
  cases dialect
  · exact ⟨'g', by decide, by decide⟩
  · exact ⟨'l', by decide, by decide⟩

/-- The endings of other files: code, listings, snapshots and logs. -/
def otherEndings : List String := [".gmc", ".asm", ".txt", ".log"]

/-- What ends like a source does not end like another file. -/
lemma not_endsIn_of_extension {names : List String} {dialect : Dialect} {ending : String}
    (h : EndsIn names ("." ++ dialect.extension)) (hending : ending ∈ otherEndings) :
    ¬ EndsIn names ending := by
  intro hends
  have hlengths : ∀ ending ∈ otherEndings, ending.length = 4 := by decide
  have hlength : ("." ++ dialect.extension).length = 4 := by
    rw [String.length_append]
    cases dialect <;> rfl
  have hother : ("." ++ dialect.extension).toList ∉ otherEndings.map String.toList := by
    rw [String.toList_append]
    cases dialect <;> decide
  rw [h.unique hends (hlength.trans (hlengths ending hending).symm)] at hother
  exact hother (List.mem_map_of_mem hending)

/-- The files of a unit are named as what they are. -/
lemma ending_of_outputFiles {args : Arguments} {listing : Except DecodeError String} {base : Path}
    {result : UnitResult} {file : Path × String} (hfile : file ∈ outputFiles args listing base result)
    {store : FileStore} {place : List String} (hlocate : store.locate file.1 = .ok place)
    (hplace : store.get? place ≠ some .directory) :
    (file = (base.withExtension args.dialect.extension, result.text) ∧
        EndsIn place ("." ++ args.dialect.extension)) ∨
      EndsIn place ".asm" ∨ EndsIn place ".txt" := by
  unfold outputFiles at hfile
  obtain rfl | hfile := List.mem_cons.mp hfile
  · exact .inl ⟨rfl, FileStore.endsIn_of_withExtension (isWord_extension _) hlocate hplace⟩
  · obtain hlisting | hsnapshot := List.mem_append.mp hfile
    · split at hlisting
      · obtain rfl := List.mem_singleton.mp hlisting
        have hword : IsWord "asm" := ⟨'a', by decide, by decide⟩
        have hasm : "." ++ "asm" = ".asm" :=
          String.toList_injective (by rw [String.toList_append]; rfl)
        have hends := FileStore.endsIn_of_withExtension hword hlocate hplace
        rw [hasm] at hends
        exact .inr (.inl hends)
      · cases hlisting
    · obtain ⟨i, hi, rfl⟩ := List.mem_mapIdx.mp hsnapshot
      have hword : IsWord ".txt" := ⟨'t', by decide, by decide⟩
      refine .inr (.inr (FileStore.endsIn_of_locate hword ⟨_, List.getLast?_concat, ?_⟩ hlocate))
      simp only [String.toList_append]
      exact (List.suffix_append _ _).trans (List.suffix_append _ _)

/-! ### The log -/

/-- The log of an output directory. -/
def logPath (dir : String) : Path :=
  (Path.ofText dir).join (.ofNames ["errors.log"])

lemma endsIn_logPath (dir : String) : EndsIn (logPath dir).segments ".log" :=
  ⟨"errors.log", List.getLast?_concat, "errors".toList, by decide⟩

/-- The text of a log. -/
def logText (failed : List String) : String :=
  Text.joinWith "\n" failed ++ "\n"

lemma updateLog_eq (dir : String) (failed : List String) :
    updateLog FileStore.ops (.ofText dir) failed =
      if failed.isEmpty then do
        if ← (FileStore.ops.isPresent (logPath dir) : StateM FileStore Bool) then
          doing .removing (logPath dir) (FileStore.ops.remove (logPath dir))
      else doing .writing (logPath dir) (FileStore.ops.write (logPath dir) (logText failed)) := by
  unfold updateLog logPath logText
  rfl

lemma run_doing_eq_ok {α : Type} {activity : Activity} {p : Path}
    {action : ExceptT FileError (StateM FileStore) α} {a : α} {store last : FileStore}
    (h : (doing activity p action).run.run store = (.ok a, last)) :
    action.run.run store = (.ok a, last) := by
  rw [doing, ExceptT.run_adapt, map_eq_pure_bind, run_bind_state] at h
  cases haction : action.run.run store with
  | mk result later =>
    rw [haction] at h
    cases result with
    | error e => cases h
    | ok a =>
      cases h
      rfl

lemma change_eq_ok {action : FileStore → Except FileError FileStore} {store last : FileStore}
    (h : (FileStore.change action).run.run store = (.ok (), last)) : action store = .ok last := by
  obtain ⟨later, hlater, hrun⟩ | ⟨e, _, hrun⟩ := Request.change_cases action store
  · cases hrun.symm.trans h
    exact hlater
  · cases hrun.symm.trans h

lemma remove_eq_ok {p : Path} {store last : FileStore}
    (h : (FileStore.ops.remove p).run.run store = (.ok (), last)) : store.remove p = .ok last :=
  change_eq_ok h

lemma write_eq_ok {p : Path} {text : String} {store last : FileStore}
    (h : (FileStore.ops.write p text).run.run store = (.ok (), last)) :
    store.write p text.toUTF8.toList = .ok last :=
  change_eq_ok h

/-- A log that can be written or removed is right, and other files are as they were. -/
lemma updateLog_eq_ok {dir : String} {failed : List String} {after last : FileStore}
    (h : (updateLog FileStore.ops (.ofText dir) failed).run.run after = (.ok (), last)) :
    after.Keeps last ∧
      (∀ place, ¬ EndsIn place ".log" → last.get? place = after.get? place) ∧
      if failed = [] then last.isPresent (logPath dir) = false
      else last.Holds (logPath dir) (logText failed) := by
  have hword : IsWord ".log" := ⟨'l', by decide, by decide⟩
  have hother : ∀ {place}, after.locate (logPath dir) = .ok place →
      ∀ other, ¬ EndsIn other ".log" → other ≠ place := by
    rintro place hlocate other hends rfl
    exact hends (FileStore.endsIn_of_locate hword (endsIn_logPath dir) hlocate)
  rw [updateLog_eq] at h
  split at h
  · rename_i hfailed
    rw [if_pos (List.isEmpty_iff.mp hfailed)]
    obtain ⟨found, middle, hfound, h⟩ := run_bind_eq_ok h
    cases run_lift_eq_ok hfound
    split at h
    · obtain ⟨place, bytes, hlocate, hplace, rfl⟩ :=
        FileStore.remove_eq_ok (remove_eq_ok (run_doing_eq_ok h))
      have hdirectory : after.get? place ≠ some .directory := by
        rw [hplace]
        exact nofun
      have hkeeps := FileStore.Keeps.erase hdirectory
      refine ⟨hkeeps, fun other hends => after.get?_erase_of_ne (hother hlocate other hends), ?_⟩
      have hnone := after.get?_erase_self (FileStore.isUpward_of_ne_directory hdirectory)
      simp [FileStore.isPresent, FileStore.lookup, hkeeps.locate hlocate, hnone]
    · rename_i habsent
      cases h
      exact ⟨.refl after, fun _ _ => rfl, by simpa using habsent⟩
  · rename_i hfailed
    rw [if_neg (fun hnil => hfailed (List.isEmpty_iff.mpr hnil))]
    obtain ⟨place, hlocate, hplace, rfl⟩ :=
      FileStore.write_eq_ok (write_eq_ok (run_doing_eq_ok h))
    have hput := fun entry other hends =>
      FileStore.get?_put_of_ne after entry (hother hlocate other hends)
    refine ⟨.put _ hplace, hput _, ?_⟩
    exact FileStore.read_of_get? ((FileStore.Keeps.put _ hplace).locate hlocate)
      (FileStore.get?_put_of_ne_directory _ hplace)

/-! ### Runs in which nothing fails -/

/-- A unit and the bytes of its file. -/
structure ReadUnit where
  unit : SourceUnit
  bytes : List UInt8

namespace ParallelRun

variable {args : Arguments} {store : FileStore}

/-- Where the source of a unit is written. -/
def output (run : ParallelRun args store) (read : ReadUnit) : Path :=
  outputPath args run.dir read.unit

/-- What a unit is decompiled to. -/
def result (run : ParallelRun args store) (read : ReadUnit) : UnitResult :=
  decompile run.names args.options read.unit.name read.bytes

/-- The files of a unit. -/
def files (run : ParallelRun args store) (read : ReadUnit) : List (Path × String) :=
  outputFiles args (disassemble run.names read.bytes) ((Path.ofText run.dir).join read.unit.relative)
    (run.result read)

lemma source_mem_files (run : ParallelRun args store) (read : ReadUnit) :
    (run.output read, (run.result read).text) ∈ run.files read :=
  List.mem_cons_self

/-- The unit with a number was read, its files were written, and it has its report. -/
structure Handled (run : ParallelRun args store) (i : Nat) (read : ReadUnit) : Prop where
  unit : run.units[i]? = some read.unit
  bytes : (i, ⟨.read read.unit.path, .ok read.bytes⟩) ∈ run.trace
  written : ∀ file, (i, .written file) ∈ run.trace ↔ file ∈ run.files read
  noRemoval : ∀ e, (i, e) ∈ run.trace → ∀ p, e.request ≠ .remove p
  report : ∃ report, run.outcomes[i]? = some (.ok report) ∧ report.name = read.unit.name ∧
    report.failure.isSome = (run.result read).failed

lemma name_decompile (names : Names) (options : Options) (name : String) (bytes : List UInt8) :
    (decompile names options name bytes).name = name := by
  unfold decompile
  dsimp only
  split
  split <;> rfl

lemma exists_handled (run : ParallelRun args store)
    (hok : ∀ outcome ∈ run.outcomes, outcome.isOk = true) {i : Nat} {unit : SourceUnit}
    (hi : run.units[i]? = some unit) : ∃ bytes, run.Handled i ⟨unit, bytes⟩ := by
  have hscript : (run.units.map fun unit =>
      (processUnit Script.files run.formatter args run.names unit).run)[i]? =
        some (processUnit Script.files run.formatter args run.names unit).run := by
    rw [List.getElem?_map, hi]
    rfl
  obtain ⟨outcome, houtcome, hplays⟩ := run.interleaves.plays hscript
  cases outcome with
  | error e => cases hok _ (List.mem_of_getElem? houtcome)
  | ok report =>
    obtain ⟨bytes, start, stop, made, hevents, hmade, hname, hfailure⟩ :=
      exchanges_of_processUnit run.outputDir hplays
    rw [laidOut_of_plain run.plain] at hevents
    have hname := hname.trans (name_decompile run.names args.options unit.name bytes)
    have hmem : ∀ e, (i, e) ∈ run.trace ↔ e = ⟨.read unit.path, .ok bytes⟩ ∨ e = ⟨.now, start⟩ ∨
        e ∈ made ∨ (∃ file ∈ run.files ⟨unit, bytes⟩, .written file = e) ∨ e = ⟨.now, stop⟩ := by
      intro e
      rw [← mem_exchangesOf, hevents]
      simp only [List.cons_append, List.append_assoc, List.mem_cons, List.mem_append, List.mem_map,
        List.not_mem_nil, or_false]
      rfl
    refine ⟨bytes, hi, (hmem _).mpr (.inl rfl), fun file => ⟨fun h => ?_, fun h => ?_⟩,
      fun e he p hremove => ?_, report, houtcome, hname, hfailure⟩
    · obtain h | h | h | ⟨other, hother, h⟩ | h := (hmem _).mp h
      · cases congrArg Exchange.request h
      · cases congrArg Exchange.request h
      · exact (hmade _ h).elim
      · obtain ⟨hp, htext⟩ := Request.write.inj (congrArg Exchange.request h)
        rwa [← Prod.ext hp htext]
      · cases congrArg Exchange.request h
    · exact (hmem _).mpr (.inr (.inr (.inr (.inl ⟨file, h, rfl⟩))))
    · obtain rfl | rfl | h | ⟨other, _, rfl⟩ | rfl := (hmem e).mp he
      · cases hremove
      · cases hremove
      · have hdirectory := hmade e h
        rw [hremove] at hdirectory
        exact hdirectory
      · cases hremove
      · cases hremove

/-- The bytes of all units. -/
lemma exists_read (run : ParallelRun args store)
    (hok : ∀ outcome ∈ run.outcomes, outcome.isOk = true) :
    ∃ read : List ReadUnit, read.map ReadUnit.unit = run.units ∧
      ∀ i u, read[i]? = some u → run.Handled i u := by
  have hexists := fun i unit (hi : run.units[i]? = some unit) => run.exists_handled hok hi
  choose! bytes hbytes using hexists
  refine ⟨run.units.mapIdx fun i unit => ⟨unit, bytes i unit⟩, ?_, fun i u hi => ?_⟩
  · refine List.ext_getElem? fun i => ?_
    rw [List.getElem?_map, List.getElem?_mapIdx, Option.map_map]
    exact congrFun Option.map_id _
  · rw [List.getElem?_mapIdx] at hi
    obtain ⟨unit, hunit, rfl⟩ := Option.map_eq_some_iff.mp hi
    exact hbytes i unit hunit

section

variable {run : ParallelRun args store} {read : List ReadUnit}

lemma exists_owner (hunits : read.map ReadUnit.unit = run.units) {i : Nat} {e : Exchange}
    (he : (i, e) ∈ run.trace) : ∃ u, read[i]? = some u := by
  have hlt := run.interleaves.lt_length _ he
  rw [List.length_map, ← hunits, List.length_map] at hlt
  exact ⟨_, List.getElem?_eq_getElem hlt⟩

lemma noRemoval (hunits : read.map ReadUnit.unit = run.units)
    (hread : ∀ i u, read[i]? = some u → run.Handled i u) :
    ∀ e ∈ run.trace.map Prod.snd, ∀ p, e.request ≠ .remove p := by
  intro e he
  obtain ⟨⟨i, e⟩, hmem, rfl⟩ := List.mem_map.mp he
  obtain ⟨u, hu⟩ := exists_owner hunits hmem
  exact (hread i u hu).noRemoval e hmem

/-- At the place of a written file there is a file of some unit, and it is named as what it is. -/
lemma exists_standing_file (hunits : read.map ReadUnit.unit = run.units)
    (hread : ∀ i u, read[i]? = some u → run.Handled i u) {file : Path × String}
    (hfile : .written file ∈ run.trace.map Prod.snd) :
    ∃ place text, run.after.locate file.1 = .ok place ∧
      run.after.get? place = some (.file text.toUTF8.toList) ∧
      ((∃ v ∈ read, run.after.locate (run.output v) = .ok place ∧ text = (run.result v).text ∧
          EndsIn place ("." ++ args.dialect.extension)) ∨
        EndsIn place ".asm" ∨ EndsIn place ".txt") := by
  obtain ⟨place, ⟨p, text⟩, hlocate, hmem, hp, hplace⟩ :=
    run.interleaves.replays.stands (noRemoval hunits hread) hfile
  obtain ⟨⟨i, _⟩, hmem, rfl⟩ := List.mem_map.mp hmem
  obtain ⟨v, hv⟩ := exists_owner hunits hmem
  have hdirectory : run.after.get? place ≠ some .directory := by
    rw [hplace]
    exact nofun
  refine ⟨place, text, hlocate, hplace, ?_⟩
  obtain ⟨heq, hends⟩ | hother :=
    ending_of_outputFiles (((hread i v hv).written _).mp hmem) hp hdirectory
  · cases heq
    exact .inl ⟨v, List.mem_of_getElem? hv, hp, rfl, hends⟩
  · exact .inr hother

/-- What stands at an output path is the source of a unit. -/
lemma exists_standing (hunits : read.map ReadUnit.unit = run.units)
    (hread : ∀ i u, read[i]? = some u → run.Handled i u) {u : ReadUnit} (hu : u ∈ read) :
    ∃ v ∈ read, ∃ place, run.last.locate (run.output u) = .ok place ∧
      run.last.locate (run.output v) = .ok place ∧
      run.last.get? place = some (.file (run.result v).text.toUTF8.toList) := by
  obtain ⟨i, hi⟩ := List.getElem?_of_mem hu
  have hwritten : .written (run.output u, (run.result u).text) ∈ run.trace.map Prod.snd :=
    List.mem_map.mpr ⟨(i, _), ((hread i u hi).written _).mpr (run.source_mem_files u), rfl⟩
  obtain ⟨place, text, hlocate, hplace, hkind⟩ := exists_standing_file hunits hread hwritten
  have hdirectory : run.after.get? place ≠ some .directory := by
    rw [hplace]
    exact nofun
  have hends := FileStore.endsIn_of_withExtension (isWord_extension _) hlocate hdirectory
  obtain ⟨hkeeps, hstays, -⟩ := updateLog_eq_ok run.ends
  obtain ⟨v, hv, hp, rfl, -⟩ | hasm | htxt := hkind
  · refine ⟨v, hv, place, hkeeps.locate hlocate, hkeeps.locate hp, ?_⟩
    rw [hstays place (not_endsIn_of_extension hends (by decide)), hplace]
  · exact absurd hasm (not_endsIn_of_extension hends (by decide))
  · exact absurd htxt (not_endsIn_of_extension hends (by decide))

/-- The code of a unit is read as it was before, since no unit leaves code. -/
lemma bytes_eq (hunits : read.map ReadUnit.unit = run.units)
    (hread : ∀ i u, read[i]? = some u → run.Handled i u) {u : ReadUnit} (hu : u ∈ read)
    (hcode : EndsIn u.unit.path.segments ".gmc") {bytes : List UInt8}
    (hbytes : run.before.read u.unit.path = .ok bytes) : u.bytes = bytes := by
  obtain ⟨i, hi⟩ := List.getElem?_of_mem hu
  have hanswer : ⟨.read u.unit.path, .ok u.bytes⟩ ∈ run.trace.map Prod.snd :=
    List.mem_map.mpr ⟨(i, _), (hread i u hi).bytes, rfl⟩
  obtain heq | ⟨file, place, hfile, hpath, hlocate⟩ :=
    run.interleaves.replays.read_eq (noRemoval hunits hread) hbytes hanswer
  · exact heq
  · obtain ⟨place', text, hlocate', -, hkind⟩ := exists_standing_file hunits hread hfile
    cases hlocate.symm.trans hlocate'
    have hword : IsWord ".gmc" := ⟨'g', by decide, by decide⟩
    have hends := FileStore.endsIn_of_locate hword hcode hpath
    obtain ⟨_, _, _, _, hsource⟩ | hasm | htxt := hkind
    · exact absurd hends (not_endsIn_of_extension hsource (by decide))
    · exact absurd (hends.unique hasm (by decide)) (by decide)
    · exact absurd (hends.unique htxt (by decide)) (by decide)

/-- The log names the units that failed. -/
lemma failedUnits_reports (hunits : read.map ReadUnit.unit = run.units)
    (hread : ∀ i u, read[i]? = some u → run.Handled i u) :
    failedUnits (List.zipWith reportOf run.units run.outcomes) =
      (read.filter fun u => (run.result u).failed).map fun u => u.unit.name := by
  have hreports : (List.zipWith reportOf run.units run.outcomes).map
        (fun report => (report.name, report.failure.isSome)) =
      read.map fun u => (u.unit.name, (run.result u).failed) := by
    refine List.ext_getElem? fun i => ?_
    rw [List.getElem?_map, List.getElem?_map, List.getElem?_zipWith]
    cases hi : read[i]? with
    | none =>
      rw [← hunits, List.getElem?_map, hi]
      rfl
    | some u =>
      obtain ⟨report, houtcome, hname, hfailure⟩ := (hread i u hi).report
      rw [(hread i u hi).unit, houtcome]
      simp [reportOf, hname, hfailure]
  have hfailed := congrArg (fun list => (list.filter Prod.snd).map Prod.fst) hreports
  simp only [List.filter_map, List.map_map] at hfailed
  exact hfailed

end

/-- Where nothing fails, the code of each unit is read as it was before the units were begun, and what
stands at an output path is the text of one of the units that share it.  All units find their own text just
when those that share a path agree on it.  The log has the names of the units that failed, in their order,
or is not there. -/
theorem outputs_kept_iff (run : ParallelRun args store)
    (hok : ∀ outcome ∈ run.outcomes, outcome.isOk = true) :
    ∃ read : List ReadUnit, read.map ReadUnit.unit = run.units ∧
      (∀ i u, read[i]? = some u → (i, ⟨.read u.unit.path, .ok u.bytes⟩) ∈ run.trace) ∧
      (∀ u ∈ read, EndsIn u.unit.path.segments ".gmc" →
        ∀ bytes, run.before.read u.unit.path = .ok bytes → u.bytes = bytes) ∧
      (∀ u ∈ read, ∃ v ∈ read, run.last.locate (run.output v) = run.last.locate (run.output u) ∧
        run.last.Holds (run.output u) (run.result v).text) ∧
      ((∀ u ∈ read, run.last.Holds (run.output u) (run.result u).text) ↔
        ∀ u ∈ read, ∀ v ∈ read, run.last.locate (run.output u) = run.last.locate (run.output v) →
          (run.result u).text = (run.result v).text) ∧
      let failed := (read.filter fun u => (run.result u).failed).map fun u => u.unit.name
      if failed = [] then run.last.isPresent (logPath run.dir) = false
      else run.last.Holds (logPath run.dir) (logText failed) := by
  obtain ⟨read, hunits, hread⟩ := run.exists_read hok
  have hstanding := fun u (hu : u ∈ read) => exists_standing hunits hread hu
  refine ⟨read, hunits, fun i u hi => (hread i u hi).bytes,
    fun u hu hcode bytes hbytes => bytes_eq hunits hread hu hcode hbytes, fun u hu => ?_,
    ⟨fun h => ?_, fun h => ?_⟩, ?_⟩
  · obtain ⟨v, hv, place, hu, hlocate, hplace⟩ := hstanding u hu
    exact ⟨v, hv, hlocate.trans hu.symm, (FileStore.holds_iff hu hplace).mpr rfl⟩
  · intro u hu v hv hsame
    obtain ⟨w, _, place, hlocate, _, hplace⟩ := hstanding u hu
    have hholds := h v hv
    rw [FileStore.holds_iff (hsame.symm.trans hlocate) hplace] at hholds
    exact ((FileStore.holds_iff hlocate hplace).mp (h u hu)).trans hholds.symm
  · intro u hu
    obtain ⟨v, hv, place, hlocate, hsame, hplace⟩ := hstanding u hu
    rw [FileStore.holds_iff hlocate hplace]
    exact h u hu v hv (hlocate.trans hsame.symm)
  · have hends := run.ends
    rw [failedUnits_reports hunits hread] at hends
    exact (updateLog_eq_ok hends).2.2

end ParallelRun

/-- Code that returns a number. -/
def returning (n : UInt8) : List UInt8 :=
  [0, 0, 0x02, 0xc0, n, 0, 0, 0, 0, 0, 0x02, 0x9d]

/-- A unit in a directory that is searched, and a unit that is given by its file. -/
def goodAndBadArgs : Arguments := { inputs := ["nested", "bad.gmc"], outputDir := some "out" }

/-- The code of `bad.gmc` ends too soon. -/
def goodAndBadStore : FileStore :=
  { entries := [(["bad.gmc"], .file [0]), (["nested"], .directory),
      (["nested", "deep"], .directory), (["nested", "deep", "good.gmc"], .file (returning 1))] }

/-- The units of `goodAndBadArgs`. -/
def goodAndBadUnits : List SourceUnit :=
  [⟨⟨false, ["nested", "deep", "good.gmc"]⟩, ⟨false, ["deep", "good.gmc"]⟩⟩,
    ⟨⟨false, ["bad.gmc"]⟩, ⟨false, ["bad.gmc"]⟩⟩]

/-- Both units find their own text, and there is a log. -/
theorem goodAndBad_kept :
    ∃ (run : ParallelRun goodAndBadArgs goodAndBadStore) (read : List ReadUnit),
      (∀ outcome ∈ run.outcomes, outcome.isOk = true) ∧
      read.map ReadUnit.unit = goodAndBadUnits ∧
      (∀ u ∈ read, run.last.Holds (run.output u) (run.result u).text) ∧
      run.last.Holds (logPath run.dir)
        (logText ((read.filter fun u => (run.result u).failed).map fun u => u.unit.name)) := by
  obtain ⟨run, hlast, hnames, hunits, hok⟩ :=
      @exists_parallelRun_of_isOk goodAndBadArgs "out" goodAndBadStore (fun _ => none) {} goodAndBadUnits
        rfl nofun rfl
        (by
          unfold oneByOne processUnit decompile recoverTree disassemble
          simp only [decode_eq_decodeBounded]
          decide +kernel)
        (by
          unfold runOnStore Batch.run reportUnit processUnit decompile recoverTree disassemble
          simp only [decode_eq_decodeBounded]
          decide +kernel)
  obtain ⟨read, hread, -, -, -, hiff, hlog⟩ := run.outputs_kept_iff hok
  have hdir : run.dir = "out" := (Option.some.inj run.outputDir).symm
  have hlast : (run.last.locate ⟨false, ["out", "deep", "good.gml"]⟩).toOption ≠
      (run.last.locate ⟨false, ["out", "bad.gml"]⟩).toOption ∧
      run.last.isPresent (logPath "out") = true := by
    rw [hlast]
    unfold runOnStore Batch.run reportUnit processUnit decompile recoverTree disassemble
    simp only [decode_eq_decodeBounded]
    decide +kernel
  rw [hunits] at hread
  refine ⟨run, read, hok, hread, hiff.mpr ?_, ?_⟩
  · obtain ⟨u, _, rfl, hu, hrest⟩ := List.map_eq_cons_iff.mp hread
    obtain ⟨v, _, rfl, hv, hrest⟩ := List.map_eq_cons_iff.mp hrest
    obtain rfl := List.map_eq_nil_iff.mp hrest
    have hgood : run.output u = ⟨false, ["out", "deep", "good.gml"]⟩ := by
      rw [ParallelRun.output, hdir, hu]
      decide +kernel
    have hbad : run.output v = ⟨false, ["out", "bad.gml"]⟩ := by
      rw [ParallelRun.output, hdir, hv]
      decide +kernel
    have hne : run.last.locate (run.output u) ≠ run.last.locate (run.output v) := by
      intro heq
      rw [hgood, hbad] at heq
      exact hlast.1 (congrArg _ heq)
    intro a ha b hb heq
    obtain rfl | rfl := List.mem_pair.mp ha <;> obtain rfl | rfl := List.mem_pair.mp hb
    · rfl
    · exact absurd heq hne
    · exact absurd heq.symm hne
    · rfl
  · dsimp only at hlog
    split at hlog
    · rw [hdir, hlast.2] at hlog
      cases hlog
    · exact hlog

/-- Two units of one name. -/
def sameNameArgs : Arguments := { inputs := ["x/a.gmc", "y/a.gmc"], outputDir := some "out" }

/-- The two units return different numbers. -/
def sameNameStore : FileStore :=
  { entries := [(["x"], .directory), (["x", "a.gmc"], .file (returning 1)), (["y"], .directory),
      (["y", "a.gmc"], .file (returning 2))] }

/-- The units of `sameNameArgs`. -/
def sameNameUnits : List SourceUnit :=
  [⟨⟨false, ["x", "a.gmc"]⟩, ⟨false, ["a.gmc"]⟩⟩, ⟨⟨false, ["y", "a.gmc"]⟩, ⟨false, ["a.gmc"]⟩⟩]

/-- Nothing fails, but what the first unit returns is found nowhere. -/
theorem sameName_lost :
    ∃ run : ParallelRun sameNameArgs sameNameStore,
      (∀ outcome ∈ run.outcomes, outcome.isOk = true) ∧
      ∃ u : ReadUnit, run.units[0]? = some u.unit ∧
        (0, ⟨.read u.unit.path, .ok u.bytes⟩) ∈ run.trace ∧
        ¬ run.last.Holds (run.output u) (run.result u).text := by
  obtain ⟨run, hlast, hnames, hunits, hok⟩ :=
    @exists_parallelRun_of_isOk sameNameArgs "out" sameNameStore (fun _ => none) {} sameNameUnits
      rfl nofun rfl
      (by
        unfold oneByOne processUnit decompile recoverTree disassemble
        simp only [decode_eq_decodeBounded]
        decide +kernel)
      (by
        unfold runOnStore Batch.run reportUnit processUnit decompile recoverTree disassemble
        simp only [decode_eq_decodeBounded]
        decide +kernel)
  have hdir : run.dir = "out" := (Option.some.inj run.outputDir).symm
  obtain ⟨read, hread, hhandled⟩ := run.exists_read hok
  rw [hunits] at hread
  obtain ⟨u, rest, rfl, hu, hrest⟩ := List.map_eq_cons_iff.mp hread
  have hfirst := hhandled 0 u rfl
  have hbytes : u.bytes = returning 1 := by
    have hbefore : ((beginRun FileStore.ops sameNameArgs).run.run sameNameStore).2 = run.before :=
      congrArg Prod.snd run.begins
    refine ParallelRun.bytes_eq (hread.trans hunits.symm) hhandled List.mem_cons_self ?_ ?_
    · rw [hu]
      exact ⟨"a.gmc", rfl, "a".toList, by decide⟩
    · rw [hu, ← hbefore]
      rfl
  have htext : (run.result u).text = "return 1;\n" := by
    rw [ParallelRun.result, hnames, hu, hbytes]
    unfold decompile recoverTree
    rw [decode_eq_decodeBounded]
    decide +kernel
  have houtput : run.output u = ⟨false, ["out", "a.gml"]⟩ := by
    rw [ParallelRun.output, hdir, hu]
    decide +kernel
  have hread : (run.last.read ⟨false, ["out", "a.gml"]⟩).toOption =
      some "return 2;\n".toUTF8.toList := by
    rw [hlast]
    unfold runOnStore Batch.run reportUnit processUnit decompile recoverTree disassemble
    simp only [decode_eq_decodeBounded]
    decide +kernel
  refine ⟨run, hok, u, hfirst.unit, hfirst.bytes, fun hholds => ?_⟩
  rw [FileStore.Holds, htext, houtput] at hholds
  rw [hholds] at hread
  exact absurd (toList_toUTF8_inj.mp (Option.some.inj hread)) (by decide)

end Decompiler.Batch

import Mathlib.Data.List.TakeWhile
import Mathlib.Tactic.SplitIfs
import Decompiler.Batch.Run
import Decompiler.Proofs.BlockLists

/-!
# Where files stand

A path leads to a place over directories, from the root or from the directory of the run.  Where it ends
in no name it leads to a directory, so a file that is written is written to a name, and the extension of
that name shows at its place (`endsIn_of_withExtension`).  The sources, the listings and the snapshots of
units and the log therefore never meet.

Directories stay (`Keeps`), so a path that led to a place goes on to lead there.
-/

namespace Decompiler.Batch

/-! ### The ends of names -/

/-- The last of some names ends in a text. -/
def EndsIn (names : List String) (ending : String) : Prop :=
  ∃ name, names.getLast? = some name ∧ ending.toList <:+ name.toList

/-- Two endings of one name that are as long are the same. -/
lemma EndsIn.unique {names : List String} {a b : String} (ha : EndsIn names a)
    (hb : EndsIn names b) (h : a.length = b.length) : a = b := by
  obtain ⟨name, hname, ha⟩ := ha
  obtain ⟨other, hother, hb⟩ := hb
  obtain rfl := Option.some.inj (hname.symm.trans hother)
  have hlength : a.toList.length = b.toList.length := by
    rw [String.length_toList, String.length_toList, h]
  exact String.toList_injective
    ((List.suffix_of_suffix_length_le ha hb (Nat.le_of_eq hlength)).eq_of_length hlength)

/-- An ending that is more than dots. -/
def IsWord (ending : String) : Prop :=
  ∃ c ∈ ending.toList, c ≠ '.'

/-- A name with such an ending counts, and leads down. -/
lemma IsWord.leads_down {ending name : String} (h : IsWord ending)
    (hname : ending.toList <:+ name.toList) : Path.stays name = false ∧ name ≠ ".." := by
  obtain ⟨c, hc, hdot⟩ := h
  have hmem : c ∈ name.toList := hname.subset hc
  constructor
  · simp only [Path.stays, Bool.or_eq_false_iff, beq_eq_false_iff_ne]
    constructor <;> rintro rfl
    · exact absurd hmem (by simp)
    · exact hdot (by simpa using hmem)
  · rintro rfl
    exact hdot (by simpa using hmem)

namespace Path

/-- Parts at the end that stay, and what is before them. -/
lemma eq_dropWhile_stays (segments : List String) :
    ∃ back, segments = (segments.reverse.dropWhile stays).reverse ++ back ∧
      (∀ s ∈ back, stays s = true) ∧
      ∀ s, (segments.reverse.dropWhile stays).reverse.getLast? = some s → stays s = false := by
  refine ⟨(segments.reverse.takeWhile stays).reverse, ?_, fun s hs => ?_, fun s hs => ?_⟩
  · rw [← List.reverse_append, List.takeWhile_append_dropWhile, List.reverse_reverse]
  · exact List.mem_takeWhile_imp (List.mem_reverse.mp hs)
  · rw [List.getLast?_reverse] at hs
    have hfirst := List.head?_dropWhile_not stays segments.reverse
    rw [hs] at hfirst
    exact hfirst

/-- What a path has behind the part that counts stays there. -/
lemma segments_trimmed (p : Path) :
    ∃ back, p.segments = p.trimmed.segments ++ back ∧ (∀ s ∈ back, stays s = true) ∧
      ∀ s, p.trimmed.segments.getLast? = some s → stays s = true → p.trimmed.segments = ["."] := by
  obtain ⟨absolute, segments⟩ := p
  unfold trimmed
  split
  · rename_i rest hrelative hsegments
    obtain rfl : segments = "." :: rest := hsegments
    obtain ⟨back, hrest, hback, hlast⟩ := eq_dropWhile_stays rest
    refine ⟨back, congrArg _ hrest, hback, fun s hs hstays => ?_⟩
    cases hfront : (rest.reverse.dropWhile stays).reverse with
    | nil => rfl
    | cons first others =>
      dsimp only at hs
      rw [hfront, List.getLast?_cons_cons] at hs
      rw [hlast s (by rw [hfront, hs])] at hstays
      cases hstays
  · obtain ⟨back, hsegments, hback, hlast⟩ := eq_dropWhile_stays segments
    refine ⟨back, hsegments, hback, fun s hs hstays => ?_⟩
    rw [hlast s hs] at hstays
    cases hstays

/-- A path that ends in no name ends where it starts, or with a step up. -/
lemma segments_of_fileName?_eq_none {p : Path} (h : p.fileName? = none) :
    ∃ front back, p.segments = front ++ back ∧ (∀ s ∈ back, stays s = true) ∧
      (front = [] ∨ ∃ before, front = before ++ [".."]) := by
  obtain ⟨back, hsegments, hback, hlast⟩ := p.segments_trimmed
  unfold fileName? at h
  split at h
  · rename_i hnone
    exact ⟨_, back, hsegments, hback, .inl (List.getLast?_eq_none_iff.mp hnone)⟩
  · rename_i hdot
    rw [hlast "." hdot rfl] at hsegments
    exact ⟨[], "." :: back, hsegments, List.forall_mem_cons.mpr ⟨rfl, hback⟩, .inl rfl⟩
  · rename_i hup
    exact ⟨_, back, hsegments, hback, .inr (List.getLast?_eq_some_iff.mp hup)⟩
  · cases h

/-- A path with an extension ends in it, unless it ends in no name. -/
lemma endsIn_withExtension (p : Path) {extension : String} (h : extension ≠ "") :
    (p.withExtension extension).fileName? = none ∨
      EndsIn (p.withExtension extension).segments ("." ++ extension) := by
  have hempty : extension.isEmpty = false := by simpa using h
  unfold withExtension
  split
  · rename_i hname
    exact .inl hname
  · unfold setExtension
    split
    · rename_i hname
      exact .inl hname
    · rename_i name _
      right
      refine ⟨(splitExtension name).1 ++ "." ++ extension, ?_, ?_⟩
      · simp [withFileName, hempty]
      · simp [List.suffix_append]

end Path

namespace FileStore

variable {store later : FileStore} {place q : List String} {segments : List String} {p : Path}

/-! ### The way to a place -/

lemma get?_of_isUpward (h : store.isUpward place = true) : store.get? place = some .directory := by
  simp [get?, h]

lemma isUpward_of_ne_directory (h : store.get? place ≠ some .directory) :
    store.isUpward place = false := by
  cases hup : store.isUpward place with
  | false => rfl
  | true => exact absurd (get?_of_isUpward hup) h

lemma get?_put_of_ne_directory (entry : Entry) (h : store.get? place ≠ some .directory) :
    (store.put place entry).get? place = some entry :=
  get?_put_self store entry (isUpward_of_ne_directory h)

/-- Everything on the way to a place is a directory. -/
def Grounded (store : FileStore) (place : List String) : Prop :=
  ∀ n < place.length, store.get? (place.take n) = some .directory

lemma grounded_of_isUpward (h : store.isUpward place = true) : store.Grounded place := by
  intro n _
  refine get?_of_isUpward (List.isPrefixOf_iff_prefix.mpr ?_)
  exact (List.take_prefix n place).trans (List.isPrefixOf_iff_prefix.mp h)

/-- A path starts at the working directory or above it. -/
lemma isUpward_origin (store : FileStore) (p : Path) : store.isUpward (store.origin p) = true := by
  refine List.isPrefixOf_iff_prefix.mpr ?_
  unfold origin
  split
  · exact List.nil_prefix
  · exact List.prefix_rfl

/-- A step up leads to a directory. -/
lemma Grounded.up (h : store.Grounded place) :
    store.Grounded (up place) ∧ store.get? (up place) = some .directory := by
  obtain rfl | hne := eq_or_ne place []
  · exact ⟨h, get?_of_isUpward (List.isPrefixOf_iff_prefix.mpr List.nil_prefix)⟩
  · have hpos := List.length_pos_iff.mpr hne
    rw [FileStore.up, List.dropLast_eq_take]
    refine ⟨fun n hn => ?_, h _ (by omega)⟩
    rw [List.length_take] at hn
    rw [List.take_take, Nat.min_eq_left (by omega)]
    exact h n (by omega)

/-- What a walk has reached so far. -/
lemma walk_append (store : FileStore) (place first second : List String) :
    store.walk place (first ++ second) =
      (store.walk place first).bind fun place => store.walk place second := by
  induction first generalizing place with
  | nil => rfl
  | cons segment rest ih =>
    simp only [List.cons_append, walk]
    split
    · rfl
    · rfl
    · split_ifs
      · exact ih _
      · exact ih _
      · rfl
      · exact ih _

/-- A step leads from a directory. -/
lemma walk_cons {segment : String} (h : store.walk place (segment :: segments) = .ok q) :
    store.get? place = some .directory ∧
      ((Path.stays segment = true ∧ store.walk place segments = .ok q) ∨
        (Path.stays segment = false ∧ segment = ".." ∧ store.walk (up place) segments = .ok q) ∨
        (Path.stays segment = false ∧ segment ≠ ".." ∧
          store.walk (place ++ [segment]) segments = .ok q)) := by
  rw [walk] at h
  split at h
  · cases h
  · cases h
  · rename_i hplace
    refine ⟨hplace, ?_⟩
    split_ifs at h with hstays hup hlong
    · exact .inl ⟨hstays, h⟩
    · exact .inr (.inl ⟨by simpa using hstays, hup, h⟩)
    · exact .inr (.inr ⟨by simpa using hstays, hup, h⟩)

lemma Grounded.walk (h : store.Grounded place) (hwalk : store.walk place segments = .ok q) :
    store.Grounded q := by
  induction segments generalizing place with
  | nil =>
    cases hwalk
    exact h
  | cons segment rest ih =>
    obtain ⟨hplace, ⟨_, hrest⟩ | ⟨_, _, hrest⟩ | ⟨_, _, hrest⟩⟩ := walk_cons hwalk
    · exact ih h hrest
    · exact ih h.up.1 hrest
    · refine ih (fun n hn => ?_) hrest
      rw [List.length_append, List.length_singleton] at hn
      rw [List.take_append_of_le_length (by omega)]
      obtain hlt | rfl := Nat.lt_or_eq_of_le (Nat.le_of_lt_succ hn)
      · exact h n hlt
      · rw [List.take_length]
        exact hplace

/-- Parts that stay lead nowhere else. -/
lemma eq_of_walk_stays (hstays : ∀ s ∈ segments, Path.stays s = true)
    (hwalk : store.walk place segments = .ok q) : q = place := by
  induction segments with
  | nil =>
    cases hwalk
    rfl
  | cons segment rest ih =>
    have hsegment := hstays segment List.mem_cons_self
    obtain ⟨_, ⟨_, hrest⟩ | ⟨hmoves, _⟩ | ⟨hmoves, _⟩⟩ := walk_cons hwalk
    · exact ih (fun s hs => hstays s (List.mem_cons_of_mem _ hs)) hrest
    · rw [hmoves] at hsegment
      cases hsegment
    · rw [hmoves] at hsegment
      cases hsegment

/-- What leads to a place is walked from where the path starts. -/
lemma walk_of_locate (h : store.locate p = .ok q) :
    store.walk (store.origin p) p.segments = .ok q := by
  unfold locate at h
  split at h
  · cases h
  · split_ifs at h
    exact h

/-- A path that ends in no name leads to a directory. -/
lemma directory_of_fileName? (hname : p.fileName? = none) (h : store.locate p = .ok q) :
    store.get? q = some .directory := by
  obtain ⟨front, back, hsegments, hstays, hfront⟩ := Path.segments_of_fileName?_eq_none hname
  have hwalk := walk_of_locate h
  rw [hsegments, walk_append] at hwalk
  cases hreached : store.walk (store.origin p) front with
  | error e =>
    rw [hreached] at hwalk
    cases hwalk
  | ok reached =>
    rw [hreached] at hwalk
    rw [eq_of_walk_stays hstays hwalk]
    obtain rfl | ⟨before, rfl⟩ := hfront
    · cases hreached
      exact get?_of_isUpward (store.isUpward_origin p)
    · rw [walk_append] at hreached
      cases hbefore : store.walk (store.origin p) before with
      | error e =>
        rw [hbefore] at hreached
        cases hreached
      | ok here =>
        rw [hbefore] at hreached
        have hgrounded : store.Grounded here :=
          (grounded_of_isUpward (store.isUpward_origin p)).walk hbefore
        obtain ⟨_, ⟨hstep, _⟩ | ⟨_, _, hup⟩ | ⟨_, hdown, _⟩⟩ := walk_cons hreached
        · exact absurd hstep (by decide)
        · cases hup
          exact hgrounded.up.2
        · exact absurd rfl hdown

/-- A place is named as the path that leads there. -/
lemma endsIn_of_locate {ending : String} (hword : IsWord ending) (hends : EndsIn p.segments ending)
    (h : store.locate p = .ok q) : EndsIn q ending := by
  obtain ⟨name, hlast, hname⟩ := hends
  obtain ⟨hstays, hup⟩ := hword.leads_down hname
  have hwalk := walk_of_locate h
  obtain ⟨before, hsegments⟩ := List.getLast?_eq_some_iff.mp hlast
  rw [hsegments, walk_append] at hwalk
  cases hbefore : store.walk (store.origin p) before with
  | error e =>
    rw [hbefore] at hwalk
    cases hwalk
  | ok here =>
    rw [hbefore] at hwalk
    obtain ⟨_, ⟨hstep, _⟩ | ⟨_, hstep, _⟩ | ⟨_, _, hdown⟩⟩ := walk_cons hwalk
    · rw [hstays] at hstep
      cases hstep
    · exact absurd hstep hup
    · cases hdown
      exact ⟨name, by simp, hname⟩

/-- What is not a directory and is reached by a path with an extension is named so. -/
lemma endsIn_of_withExtension {extension : String} (hword : IsWord extension)
    (h : store.locate (p.withExtension extension) = .ok q)
    (hfile : store.get? q ≠ some .directory) : EndsIn q ("." ++ extension) := by
  obtain ⟨c, hc, hdot⟩ := hword
  have hne : extension ≠ "" := by
    rintro rfl
    exact absurd hc (by simp)
  have hword : IsWord ("." ++ extension) := ⟨c, by simp [hc], hdot⟩
  obtain hname | hends := p.endsIn_withExtension hne
  · exact absurd (directory_of_fileName? hname h) hfile
  · exact endsIn_of_locate hword hends h

/-! ### Stores that keep their directories -/

/-- Where there was a directory there is still one, and the working directory is the same. -/
structure Keeps (store later : FileStore) : Prop where
  workDir : later.workDir = store.workDir
  directories : ∀ place, store.get? place = some .directory → later.get? place = some .directory

namespace Keeps

lemma refl (store : FileStore) : store.Keeps store := ⟨rfl, fun _ h => h⟩

lemma trans {last : FileStore} (h : store.Keeps later) (hlast : later.Keeps last) :
    store.Keeps last :=
  ⟨hlast.workDir.trans h.workDir,
    fun place hplace => hlast.directories place (h.directories place hplace)⟩

lemma put (entry : Entry) (h : store.get? place ≠ some .directory) :
    store.Keeps (store.put place entry) := by
  refine ⟨rfl, fun other hother => ?_⟩
  rwa [get?_put_of_ne store entry]
  rintro rfl
  exact h hother

lemma erase (h : store.get? place ≠ some .directory) : store.Keeps (store.erase place) := by
  refine ⟨rfl, fun other hother => ?_⟩
  rwa [get?_erase_of_ne store]
  rintro rfl
  exact h hother

lemma walk (h : store.Keeps later) (hwalk : store.walk place segments = .ok q) :
    later.walk place segments = .ok q := by
  induction segments generalizing place with
  | nil => exact hwalk
  | cons segment rest ih =>
    rw [FileStore.walk] at hwalk ⊢
    split at hwalk
    · cases hwalk
    · cases hwalk
    · rename_i hplace
      rw [h.directories place hplace]
      split_ifs at hwalk ⊢
      · exact ih hwalk
      · exact ih hwalk
      · exact ih hwalk

/-- A path goes on to lead to the same place. -/
lemma locate (h : store.Keeps later) (hlocate : store.locate p = .ok q) :
    later.locate p = .ok q := by
  have horigin : later.origin p = store.origin p := by rw [origin, origin, h.workDir]
  unfold FileStore.locate at hlocate ⊢
  split at hlocate
  · cases hlocate
  · split_ifs at hlocate ⊢
    rw [horigin]
    exact h.walk hlocate

end Keeps

/-! ### What operations do to places -/

lemma write_eq_ok {bytes : List UInt8} (h : store.write p bytes = .ok later) :
    ∃ place, store.locate p = .ok place ∧ store.get? place ≠ some .directory ∧
      later = store.put place (.file bytes) := by
  unfold write at h
  split at h
  · cases h
  · rename_i place hlocate
    split at h
    · cases h
    · rename_i hplace
      cases h
      exact ⟨place, hlocate, hplace, rfl⟩

lemma remove_eq_ok (h : store.remove p = .ok later) :
    ∃ place bytes, store.locate p = .ok place ∧ store.get? place = some (.file bytes) ∧
      later = store.erase place := by
  unfold remove at h
  split at h
  · cases h
  · rename_i place hlocate
    split at h
    · cases h
    · cases h
    · rename_i bytes hplace
      cases h
      exact ⟨place, bytes, hlocate, hplace, rfl⟩

lemma createDir_eq_ok (h : store.createDir p = .ok later) :
    ∃ place, store.get? place = none ∧ later = store.put place .directory := by
  unfold createDir at h
  obtain ⟨_, _, h⟩ := Except.bind_eq_ok_iff.mp h
  obtain ⟨place, _, h⟩ := Except.bind_eq_ok_iff.mp h
  split at h
  · cases h
  · rename_i hplace
    cases h
    exact ⟨place, hplace, rfl⟩

lemma read_eq_ok {bytes : List UInt8} (h : store.read p = .ok bytes) :
    ∃ place, store.locate p = .ok place ∧ store.get? place = some (.file bytes) := by
  unfold read lookup at h
  split at h
  · cases h
  · cases h
  · rename_i hlookup
    cases h
    split at hlookup
    · cases hlookup
    · rename_i place hlocate
      split at hlookup
      · cases hlookup
      · rename_i hplace
        cases hlookup
        exact ⟨place, hlocate, hplace⟩

/-- What stands at the end of a path can be read. -/
lemma read_of_get? {bytes : List UInt8} (hlocate : store.locate p = .ok q)
    (h : store.get? q = some (.file bytes)) : store.read p = .ok bytes := by
  simp [read, lookup, hlocate, h]

end FileStore

end Decompiler.Batch

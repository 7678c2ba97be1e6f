import Decompiler.Proofs.JumpFreeTrees

/-!
# Removing jumps keeps the runs

A jump is dropped or turned into a `break` or `continue` because of labels to which control comes
without running anything.  Where such a set has the target of a jump, control comes to the place of the
target through silent steps (`Removable.arrives_of_fallthrough`).  Those steps may pass other jumps that
have been dropped or turned themselves; the frames around a place get fewer with every one of them, or
what is left of the list gets shorter, so that the sets are right for all jumps at once
(`Removable.leads_of_framed`).

Two conditions are needed for it.  An endless loop may not start with a jump that leads away, as the
labels from where its body starts are read off without what comes after (`RestartsWell`).  And only
jumps inside of a scope may lead to its stop label: the set of labels behind the scope may have it as
well otherwise, and a jump that ends the round would leave the scope (`strayStop_differs`).
-/

namespace Decompiler

namespace Jumps

open Execution

variable {flow : Flow} {preceding : List LabelId} {list rest : List Stmt} {target : LabelId}
  {unit : Block} {frames frames' : List Frame} {oracle : Oracle} {history : List Event}

/-! ### Where jumps arrive -/

/-- Control comes from a place of the unit without jumps to where a jump of the unit leads, and nothing
can be observed on the way. -/
def Arrives (oracle : Oracle) (unit : Block) (target : LabelId) (frames : List Frame) (q : Place) :
    Prop :=
  ∀ history, match land? unit.body frames target with
    | some p => ∃ k q', (machine oracle (removeGotos unit).1).run k (.at history q) = .at history q' ∧
        Follows unit p q'
    | none => ∃ k, (machine oracle (removeGotos unit).1).run k (.at history q) =
        .ended history (.lost target)

lemma Arrives.congr {around : List Frame} {q : Place} (h : Arrives oracle unit target around q)
    (hland : land? unit.body frames target = land? unit.body around target) :
    Arrives oracle unit target frames q := by
  unfold Arrives
  rw [hland]
  exact h

lemma Arrives.step {p q : Place} (h : Arrives oracle unit target frames q)
    (hstep : ∀ history, machine oracle (removeGotos unit).1 history p = .go [] q) :
    Arrives oracle unit target frames p := by
  intro history
  have hq := h history
  split
  · rename_i place hland
    rw [hland] at hq
    obtain ⟨k, q', hrun, hfollows⟩ := hq
    refine ⟨1 + k, q', ?_, hfollows⟩
    rw [Trace.Machine.run_add, run_silent (hstep history), hrun]
  · rename_i hland
    rw [hland] at hq
    obtain ⟨k, hrun⟩ := hq
    refine ⟨1 + k, ?_⟩
    rw [Trace.Machine.run_add, run_silent (hstep history), hrun]

lemma arrives_of_follows {p q : Place} (hland : land? unit.body frames target = some p)
    (h : Follows unit p q) : Arrives oracle unit target frames q := by
  intro history
  rw [hland]
  exact ⟨0, q, rfl, h⟩

/-- A label at the front is where a jump to it leads, or it is passed. -/
lemma Removable.arrives_label (h : Removable unit) {id : LabelId}
    (hplace : IsPlace unit (.label id :: rest) frames) (hframed : Framed unit frames flow frames')
    (hpreceding : Precedes unit preceding (.label id :: rest) frames)
    (hrest : target ≠ id →
      Arrives oracle unit target frames ⟨newList flow (id :: preceding) rest, frames'⟩) :
    Arrives oracle unit target frames ⟨newList flow preceding (.label id :: rest), frames'⟩ := by
  by_cases hid : target = id
  · subst hid
    exact arrives_of_follows (land?_of_find (hplace.find_label h.labels) frames)
      (.same hframed hpreceding)
  · rw [newList_label]
    exact (hrest hid).step fun _ => rfl

/-- Control comes to the labels at the front of a list. -/
lemma Removable.arrives_of_leading (h : Removable unit) (hplace : IsPlace unit list frames)
    (hframed : Framed unit frames flow frames') (hpreceding : Precedes unit preceding list frames)
    (htarget : target ∈ leading list) :
    Arrives oracle unit target frames ⟨newList flow preceding list, frames'⟩ := by
  induction list generalizing preceding with
  | nil => cases htarget
  | cons s rest ih =>
    cases s with
    | label id =>
      rw [leading] at htarget
      refine h.arrives_label hplace hframed hpreceding fun hne => ?_
      refine ih hplace.tail (hpreceding.label h.labels hplace) ?_
      exact (List.mem_cons.mp htarget).resolve_left hne
    | _ => cases htarget

/-- Control comes to the labels from where the body of an endless loop starts. -/
lemma Removable.arrives_of_restart (h : Removable unit) (hplace : IsPlace unit list frames)
    (hframed : Framed unit frames flow frames') (hpreceding : Precedes unit preceding list frames)
    (hrestarts : RestartsWell list) (htarget : target ∈ fallthrough [] list) :
    Arrives oracle unit target frames ⟨newList flow preceding list, frames'⟩ := by
  induction list generalizing preceding with
  | nil => cases htarget
  | cons s rest ih =>
    cases s with
    | label id =>
      rw [fallthrough] at htarget
      rw [RestartsWell] at hrestarts
      refine h.arrives_label hplace hframed hpreceding fun hne => ?_
      refine ih hplace.tail (hpreceding.label h.labels hplace) hrestarts ?_
      exact (List.mem_cons.mp htarget).resolve_left hne
    | goto id =>
      rw [fallthrough, List.mem_singleton] at htarget
      subst htarget
      rw [RestartsWell] at hrestarts
      have hdropped : (jump flow target rest).1 = [] := by
        rw [jump, if_pos (List.contains_iff_mem.mpr (fallthrough_mono hrestarts))]
      rw [newList_goto, hdropped, List.nil_append]
      exact h.arrives_of_leading hplace.tail hframed precedes_nil hrestarts
    | _ => simp [fallthrough] at htarget

/-- What the labels inside of some frames stand for: control comes to them from the end of a list, by a
`break` and by a `continue`. -/
structure Leads (oracle : Oracle) (unit : Block) (frames : List Frame) (flow : Flow)
    (frames' : List Frame) (target : LabelId) : Prop where
  after : target ∈ flow.after → Arrives oracle unit target frames ⟨[], frames'⟩
  breakTo : ∀ labels ∈ flow.breakTo, target ∈ labels →
    ∃ q, leave? frames' = some q ∧ Arrives oracle unit target frames q
  continueTo : ∀ labels ∈ flow.continueTo, target ∈ labels →
    ∃ q, nextRound? frames' = some q ∧ Arrives oracle unit target frames q

/-- Control comes to the labels of a list. -/
lemma Removable.arrives_of_fallthrough (h : Removable unit)
    (hleads : Leads oracle unit frames flow frames' target) (hplace : IsPlace unit list frames)
    (hframed : Framed unit frames flow frames') (hpreceding : Precedes unit preceding list frames)
    (htarget : target ∈ fallthrough flow.after list) :
    Arrives oracle unit target frames ⟨newList flow preceding list, frames'⟩ := by
  induction list generalizing preceding with
  | nil =>
    rw [newList_nil]
    exact hleads.after htarget
  | cons s rest ih =>
    cases s with
    | label id =>
      rw [fallthrough] at htarget
      refine h.arrives_label hplace hframed hpreceding fun hne => ?_
      refine ih hplace.tail (hpreceding.label h.labels hplace) ?_
      exact (List.mem_cons.mp htarget).resolve_left hne
    | goto id =>
      rw [fallthrough, List.mem_singleton] at htarget
      subst htarget
      rw [newList_goto]
      rcases jump_cases flow target rest with ⟨hmem, hjump⟩ | ⟨labels, hlabels, hmem, hjump⟩ |
        ⟨labels, hlabels, hmem, hjump⟩ | hjump <;> rw [hjump]
      · exact ih hplace.tail precedes_nil hmem
      · obtain ⟨q, hq, harrives⟩ := hleads.breakTo labels hlabels hmem
        exact harrives.step fun history => by simp [machine, stmtStep, leafStep, hq, goOr]
      · obtain ⟨q, hq, harrives⟩ := hleads.continueTo labels hlabels hmem
        exact harrives.step fun history => by simp [machine, stmtStep, leafStep, hq, goOr]
      · intro history
        have hstep : machine oracle (removeGotos unit).1 history
            ⟨[.goto target] ++ newList flow [] rest, frames'⟩ =
            goOr (.lost target) [] (land? (removeGotos unit).1.body frames' target) := rfl
        have hland : Option.Rel (Follows unit) (land? unit.body frames target)
            (land? (removeGotos unit).1.body frames' target) := h.land_rel hframed
        cases hp : land? unit.body frames target with
        | none =>
          rw [hp] at hland
          cases hq : land? (removeGotos unit).1.body frames' target with
          | none =>
            rw [hq] at hstep
            refine ⟨1, ?_⟩
            rw [Trace.Machine.run_succ, Trace.Machine.advance_stop hstep, List.append_nil]
            rfl
          | some q =>
            rw [hq] at hland
            cases hland
        | some p =>
          rw [hp] at hland
          cases hq : land? (removeGotos unit).1.body frames' target with
          | none =>
            rw [hq] at hland
            cases hland
          | some q =>
            rw [hq] at hland hstep
            cases hland with
            | some hfollows => exact ⟨1, q, run_silent hstep, hfollows⟩
    | _ => simp [fallthrough] at htarget

/-! ### Stop labels among the labels to which control comes -/

/-- A stop label to which control comes from a list belongs to a scope around the list, or control
comes to it from the end of the list. -/
lemma Removable.stop_of_fallthrough (h : Removable unit) (hplace : IsPlace unit list frames)
    {after : List LabelId} (hstop : target ∈ Stmt.stopsOfList unit.body)
    (htarget : target ∈ fallthrough after list) :
    target ∈ stopsOfFrames frames ∨ target ∈ after := by
  rcases mem_fallthrough htarget with hlabel | hgoto | hafter
  · exact absurd (hplace.labels.subset hlabel) (h.disjoint target hstop)
  · rcases h.freeGotos_place hplace hgoto with hfree | hframes
    · exact absurd hstop (h.inside target hfree)
    · exact .inl hframes
  · exact .inr hafter

lemma mem_restart {test : Option Expr} {body : List Stmt} (h : target ∈ restart preceding test body) :
    target ∈ preceding ∨ test = none ∧ target ∈ fallthrough [] body := by
  cases test with
  | some test => exact .inl h
  | none => exact (List.mem_append.mp h).imp_right fun h => ⟨rfl, h⟩

/-- A stop label to which control comes from the end of a list belongs to a scope around the list. -/
lemma Removable.stop_of_after (h : Removable unit) (hframed : Framed unit frames flow frames')
    (hplace : IsPlace unit [] frames) (hstop : target ∈ Stmt.stopsOfList unit.body)
    (htarget : target ∈ flow.after) : target ∈ stopsOfFrames frames := by
  induction hframed with
  | nil => cases htarget
  | @after rest flow frames frames' hframed ih =>
    have hrest : IsPlace unit rest frames := hplace.resumes
    exact (h.stop_of_fallthrough hrest hstop htarget).elim id (ih hplace.pop)
  | @loop test body rest preceding flow frames frames' hframed hpreceding ih =>
    rcases mem_restart htarget with hmem | ⟨-, hmem⟩
    · obtain ⟨between, hfind⟩ := hpreceding target hmem
      have hnone := (findInList_eq_none_iff target [] unit.body).mpr (h.disjoint target hstop)
      rw [hnone] at hfind
      cases hfind
    · have hbody : IsPlace unit body (.loop test body rest :: frames) := hplace.resumes.1
      exact (h.stop_of_fallthrough hbody hstop hmem).elim id fun hnil => by cases hnil
  | @scope env body rest stop flow frames frames' hframed ih =>
    exact List.mem_append_left _ htarget
  | case hframed hflat ih => cases htarget

/-- Outside of a scope nothing leads to its stop label. -/
lemma Removable.stop_ne (h : Removable unit) {env : Expr} {body : List Stmt} {stop : Option LabelId}
    (hframed : Framed unit frames flow frames')
    (hplace : IsPlace unit [] (.scope env body stop rest :: frames))
    (htarget : target ∈ fallthrough flow.after rest) : stop ≠ some target := by
  rintro rfl
  have hsub := stops_place hplace
  have hframes : stopsOfFrames (.scope env body (some target) rest :: frames) =
      target :: stopsOfFrames frames := rfl
  rw [Stmt.stopsOfList, List.nil_append, hframes] at hsub
  have hstop : target ∈ Stmt.stopsOfList unit.body := hsub.subset List.mem_cons_self
  have hrest : IsPlace unit rest frames := hplace.resumes.2
  have haround : target ∈ stopsOfFrames frames :=
    (h.stop_of_fallthrough hrest hstop htarget).elim id (h.stop_of_after hframed hplace.pop hstop)
  obtain ⟨known, hperm, hsublist⟩ := hsub
  exact (List.nodup_cons.mp (hperm.nodup_iff.mp (hsublist.nodup h.stops))).1 haround

/-! ### The labels of frames -/

/-- The body of an endless loop around a place starts as it has to. -/
lemma Removable.restartsWell (h : Removable unit) {body : List Stmt}
    (hplace : IsPlace unit list (.loop none body rest :: frames)) : RestartsWell body := by
  obtain ⟨s, rest', list', hstmt, hin⟩ := hplace.exists_stmt
  have hflat := h.everyIn hstmt
  have hloops : EveryIn Jumps.restartsWell (s :: rest') :=
    hstmt.everyIn (everyIn_code (fun _ _ => trivial) h.loops)
  rw [EveryIn] at hflat hloops
  cases s with
  | loop test block =>
    obtain ⟨entry, body'⟩ := block
    rw [Every] at hflat
    obtain rfl : entry = none := entry_eq_none hflat.1.2.1
    simp only [innerLists, List.mem_cons, Prod.mk.injEq, List.not_mem_nil, or_false, Frame.loop.injEq]
      at hin
    obtain ⟨-, rfl, rfl, -⟩ := hin
    exact hloops.1.self ⟨none, _⟩ rfl
  | switch value cases =>
    obtain ⟨_, _, _, _, _, hframe⟩ := mem_innerCases hin
    cases hframe
  | _ => simp [innerLists] at hin

/-- Control comes from the end of a round to the labels where a loop goes on. -/
lemma Removable.arrives_of_again (h : Removable unit) {test : Option Expr} {body : List Stmt}
    (hframed : Framed unit frames flow frames')
    (hpreceding : Precedes unit preceding (.loop test ⟨none, body⟩ :: rest) frames)
    (hplace : IsPlace unit [] (.loop test body rest :: frames))
    (htarget : target ∈ restart preceding test body) :
    Arrives oracle unit target (.loop test body rest :: frames)
      ⟨[], .loop test
        (newList (.round (fallthrough flow.after rest) (restart preceding test body)) [] body)
        (newList flow [] rest) :: frames'⟩ := by
  have hloop := hframed.loop hpreceding
  rcases mem_restart htarget with hmem | ⟨rfl, hmem⟩
  · obtain ⟨between, hfind⟩ := hpreceding target hmem
    have hahead : Follows unit
        ⟨(target :: between).map .label ++ .loop test ⟨none, body⟩ :: rest, frames⟩ ⟨[], _⟩ :=
      .ahead hloop
    exact arrives_of_follows (land?_of_find hfind _) hahead
  · have hbody : IsPlace unit body (.loop none body rest :: frames) := hplace.resumes.1
    have harrives : Arrives oracle unit target (.loop none body rest :: frames) ⟨newList _ [] body, _⟩ :=
      h.arrives_of_restart hbody hloop precedes_nil (h.restartsWell hplace) hmem
    exact harrives.step fun _ => rfl

/-- Control comes from the end of a round to the stop label of the scope. -/
lemma Removable.arrives_of_stop (h : Removable unit) {env : Expr} {body : List Stmt}
    {stop : Option LabelId} (hscope : Framed unit (.scope env body stop rest :: frames) flow frames')
    (hplace : IsPlace unit [] (.scope env body stop rest :: frames)) (htarget : target ∈ stop.toList) :
    Arrives oracle unit target (.scope env body stop rest :: frames) ⟨[], frames'⟩ := by
  have hstop : target ∈ Stmt.stopsOfList unit.body :=
    (stops_place hplace).subset (List.mem_append_right _ (List.mem_append_left _ htarget))
  refine arrives_of_follows ?_ hscope.follows_nil
  rw [land?, (findInList_eq_none_iff target [] unit.body).mpr (h.disjoint target hstop),
    Option.none_or, stopOf?, if_pos (Option.mem_toList.mp htarget)]

/-- The labels inside of frames lead where they have to. -/
lemma Removable.leads_of_framed (h : Removable unit) (oracle : Oracle) (target : LabelId)
    (hframed : Framed unit frames flow frames') (hplace : IsPlace unit [] frames) :
    Leads oracle unit frames flow frames' target := by
  -- by induction on the frames: what leads out of a frame uses the labels of the frames around it
  induction hframed with
  | nil =>
    exact ⟨fun hmem => absurd hmem List.not_mem_nil, fun _ hlabels => absurd hlabels (by simp),
      fun _ hlabels => absurd hlabels (by simp)⟩
  | @after rest flow frames frames' hframed ih =>
    have hleads := ih hplace.pop
    have hland : land? unit.body (.after rest :: frames) target = land? unit.body frames target := rfl
    refine ⟨fun hmem => ?_, fun labels hlabels hmem => ?_, fun labels hlabels hmem => ?_⟩
    · have hrest : IsPlace unit rest frames := hplace.resumes
      have harrives := h.arrives_of_fallthrough hleads hrest hframed precedes_nil hmem
      exact (harrives.step fun _ => rfl).congr hland
    · obtain ⟨q, hq, harrives⟩ := hleads.breakTo labels hlabels hmem
      exact ⟨q, hq, harrives.congr hland⟩
    · obtain ⟨q, hq, harrives⟩ := hleads.continueTo labels hlabels hmem
      exact ⟨q, hq, harrives.congr hland⟩
  | @loop test body rest preceding flow frames frames' hframed hpreceding ih =>
    have hleads := ih hplace.pop
    have hland : land? unit.body (.loop test body rest :: frames) target =
        land? unit.body frames target := rfl
    refine ⟨h.arrives_of_again hframed hpreceding hplace, fun labels hlabels hmem => ?_,
      fun labels hlabels hmem => ?_⟩
    · obtain rfl := Option.some.inj hlabels
      have hrest : IsPlace unit rest frames := hplace.resumes.2
      have harrives := h.arrives_of_fallthrough hleads hrest hframed precedes_nil hmem
      exact ⟨_, rfl, harrives.congr hland⟩
    · obtain rfl := Option.some.inj hlabels
      exact ⟨_, rfl, h.arrives_of_again hframed hpreceding hplace hmem⟩
  | @scope env body rest stop flow frames frames' hframed ih =>
    have hleads := ih hplace.pop
    refine ⟨h.arrives_of_stop hframed.scope hplace, fun labels hlabels hmem => ?_,
      fun labels hlabels hmem => ?_⟩
    · obtain rfl := Option.some.inj hlabels
      have hrest : IsPlace unit rest frames := hplace.resumes.2
      have harrives := h.arrives_of_fallthrough hleads hrest hframed precedes_nil hmem
      refine ⟨_, rfl, harrives.congr ?_⟩
      rw [land?, land?, stopOf?, if_neg (h.stop_ne hframed hplace hmem)]
    · obtain rfl := Option.some.inj hlabels
      exact ⟨_, rfl, h.arrives_of_stop hframed.scope hplace hmem⟩
  | @case later rest flow frames frames' hframed hflat ih =>
    have hleads := ih hplace.pop
    have hland : land? unit.body (.case later rest :: frames) target =
        land? unit.body frames target := rfl
    refine ⟨fun hmem => absurd hmem List.not_mem_nil, fun labels hlabels hmem => ?_,
      fun labels hlabels hmem => ?_⟩
    · obtain rfl := Option.some.inj hlabels
      have hrest : IsPlace unit rest frames := hplace.resumes.2
      have harrives := h.arrives_of_fallthrough hleads hrest hframed precedes_nil hmem
      exact ⟨_, rfl, harrives.congr hland⟩
    · obtain ⟨q, hq, harrives⟩ := hleads.continueTo labels hlabels hmem
      exact ⟨q, hq, harrives.congr hland⟩

/-- Control comes from the place of a jump to where the jump leads. -/
lemma Removable.arrives_of_goto (h : Removable unit) (oracle : Oracle)
    (hplace : IsPlace unit (.goto target :: rest) frames) (hframed : Framed unit frames flow frames')
    (hpreceding : Precedes unit preceding (.goto target :: rest) frames) :
    Arrives oracle unit target frames
      ⟨newList flow preceding (.goto target :: rest), frames'⟩ :=
  h.arrives_of_fallthrough (h.leads_of_framed oracle target hframed hplace.nil) hplace hframed
    hpreceding (by simp [fallthrough])

/-! ### Runs -/

/-- The number of steps that pass labels and enter a loop. -/
def lead : List Stmt → Nat
  | .label _ :: rest => lead rest + 1
  | .loop _ _ :: _ => 1
  | _ => 0

/-- A bound for the number of steps that the unit without jumps does not follow: it may be where a jump
leads to already, and before a loop it may be at the start of a round. -/
def rank (unit : Block) (place : Place) : Nat :=
  match place.code with
  | .goto _ :: _ => (Stmt.labelsOfList unit.body).length + 2
  | list => lead list

lemma lead_le (list : List Stmt) : lead list ≤ (Stmt.labelsOfList list).length + 1 := by
  induction list with
  | nil => exact Nat.zero_le _
  | cons s rest ih =>
    cases s with
    | label id =>
      rw [lead, Stmt.labelsOfList, Stmt.labels, List.length_append]
      simp
      omega
    | _ => simp [lead]

/-- Where a jump leads there is less left to do than at the jump. -/
lemma Removable.rank_land_lt (h : Removable unit) {place : Place}
    (hland : land? unit.body frames target = some place) :
    rank unit place < (Stmt.labelsOfList unit.body).length + 2 := by
  by_cases htarget : target ∈ Stmt.labelsOfList unit.body
  · obtain ⟨rest, around, hplace⟩ := exists_isPlace_label htarget
    rw [land?_of_find (hplace.find_label h.labels)] at hland
    cases hland
    have hlead := lead_le (.label target :: rest)
    have hlength := hplace.labels.length_le
    change lead (.label target :: rest) < _
    omega
  · rw [land?, (findInList_eq_none_iff target [] unit.body).mpr htarget, Option.none_or] at hland
    have hcode : place.code = [] := by
      induction frames with
      | nil => cases hland
      | cons frame frames ih =>
        cases frame with
        | scope env body stop rest =>
          rw [stopOf?] at hland
          split at hland
          · cases hland
            rfl
          · exact ih hland
        | _ => exact ih hland
    rw [rank, hcode]
    exact Nat.zero_lt_succ _

/-- At a jump the unit without jumps follows the unit. -/
lemma Removable.follow_goto (h : Removable unit) (oracle : Oracle) (history : List Event)
    (hplace : IsPlace unit (.goto target :: rest) frames)
    (hframed : Framed unit frames flow frames')
    (hpreceding : Precedes unit preceding (.goto target :: rest) frames)
    {p : Place} (hland : land? unit.body frames target = some p) :
    (Follows unit p ⟨newList flow preceding (.goto target :: rest), frames'⟩ ∧
      rank unit p < rank unit ⟨.goto target :: rest, frames⟩) ∨
    ∃ k q, (machine oracle (removeGotos unit).1).run (k + 1)
        (.at history ⟨newList flow preceding (.goto target :: rest), frames'⟩) = .at history q ∧
      Follows unit p q := by
  have harrives := h.arrives_of_goto oracle hplace hframed hpreceding history
  rw [hland] at harrives
  obtain ⟨k, q, hrun, hfollows⟩ := harrives
  cases k with
  | zero =>
    cases hrun
    exact .inl ⟨hfollows, h.rank_land_lt hland⟩
  | succ k => exact .inr ⟨k, q, hrun, hfollows⟩

/-- The unit without jumps follows the unit. -/
theorem Removable.simulation (h : Removable unit) (oracle : Oracle) :
    Trace.Simulation (machine oracle unit) (machine oracle (removeGotos unit).1)
      (fun p q => IsPlace unit p.code p.frames ∧ Follows unit p q) (rank unit) := by
  refine ⟨?_, ?_⟩
  · rintro history p q events next ⟨hplace, hfollows⟩ hstep
    have hnext := isPlace_machine h.labels hplace hstep
    cases hfollows with
    | @same list preceding flow frames frames' hframed hpreceding =>
      by_cases hgoto : ∃ target rest, list = .goto target :: rest
      · obtain ⟨target, rest, rfl⟩ := hgoto
        obtain ⟨hland, rfl⟩ : land? unit.body frames target = some next ∧ events = [] := by
          simp only [machine, stmtStep, leafStep] at hstep
          refine ⟨goOr_eq_go hstep, ?_⟩
          cases hp : land? unit.body frames target <;> rw [hp] at hstep <;> cases hstep
          rfl
        rw [List.append_nil]
        rcases h.follow_goto oracle history hplace hframed hpreceding hland with
          ⟨hfollows, hrank⟩ | ⟨k, q, hrun, hfollows⟩
        · exact .inl ⟨rfl, ⟨hnext, hfollows⟩, hrank⟩
        · exact .inr ⟨k, q, hrun, hnext, hfollows⟩
      · have halike := h.alike_machine oracle history hplace hframed hpreceding
          fun target rest heq => hgoto ⟨target, rest, heq⟩
        rw [hstep] at halike
        generalize hstep' : machine oracle (removeGotos unit).1 history _ = step at halike
        cases halike with
        | go hfollows => exact .inr ⟨0, _, run_one hstep', hnext, hfollows⟩
    | @ahead labels test body rest flow frames frames' hframed =>
      -- labels before the loop and the step into it are passed while the other unit waits
      cases labels with
      | nil =>
        cases hstep
        exact .inl ⟨rfl, ⟨hnext, hframed.follows_nil⟩, Nat.zero_lt_one⟩
      | cons id labels =>
        cases hstep
        refine .inl ⟨rfl, ⟨hnext, .ahead hframed⟩, ?_⟩
        cases labels <;> exact Nat.lt_succ_self _
  · rintro history p q events ending ⟨hplace, hfollows⟩ hstep
    cases hfollows with
    | @same list preceding flow frames frames' hframed hpreceding =>
      by_cases hgoto : ∃ target rest, list = .goto target :: rest
      · obtain ⟨target, rest, rfl⟩ := hgoto
        have harrives := h.arrives_of_goto oracle hplace hframed hpreceding history
        simp only [machine, stmtStep, leafStep] at hstep
        cases hp : land? unit.body frames target with
        | none =>
          rw [hp] at hstep harrives
          cases hstep
          rw [List.append_nil]
          exact harrives
        | some p =>
          rw [hp] at hstep
          cases hstep
      · have halike := h.alike_machine oracle history hplace hframed hpreceding
          fun target rest heq => hgoto ⟨target, rest, heq⟩
        rw [hstep] at halike
        generalize hstep' : machine oracle (removeGotos unit).1 history _ = step at halike
        cases halike with
        | stop =>
          refine ⟨1, ?_⟩
          rw [Trace.Machine.run_succ, Trace.Machine.run_zero, Trace.Machine.advance_stop hstep']
    | @ahead labels test body rest flow frames frames' hframed =>
      cases labels with
      | nil => cases hstep
      | cons id labels => cases hstep

/-- Removing the jumps of a flat unit keeps all its traces, when its labels and the stop labels of its
scopes are all different, jumps to a stop label stand inside of the scope, and the bodies of endless loops
do not start with a jump that leads away. -/
theorem removeGotos_runAlike (unit : Block) (h : Removable unit) :
    RunAlike unit (removeGotos unit).1 := by
  intro oracle
  refine (h.simulation oracle).sameTraces ⟨.start, ?_⟩
  have hstart : Follows unit ⟨unit.body, []⟩ ⟨newList {} [] unit.body, []⟩ := .same .nil precedes_nil
  have hentry : (removeGotos unit).1.entry = none := h.flat.entry
  rw [start, start, code, code, h.flat.entry, hentry]
  exact hstart

/-- A scope in an endless loop, with jumps to its stop label, out of the loop and back to its start. -/
def scopeInLoop : Block where
  body := [.label 0,
    .loop none { body := [.label 1,
      .scope (.incoming 0)
        { body := [.cond (.incoming 1) { body := [.goto 9] } {}, .call "f" [], .goto 9] } (some 9),
      .cond (.incoming 2) { body := [.goto 2] } { body := [.goto 0] }] },
    .label 2, .exit]

/-- All of its jumps are removed, and it runs as before. -/
theorem scopeInLoop_runAlike :
    Removable scopeInLoop ∧ RunAlike scopeInLoop (removeGotos scopeInLoop).1 ∧
      Stmt.freeGotosOfList (removeGotos scopeInLoop).1.body = [] := by
  have h : Removable scopeInLoop := by
    refine ⟨⟨rfl, ?_⟩, by decide, by decide, by decide, by decide, ?_⟩
    · simp [scopeInLoop, EveryIn, Every, isFlat]
    · simp [scopeInLoop, EveryIn, Every, Jumps.restartsWell, RestartsWell]
  exact ⟨h, removeGotos_runAlike scopeInLoop h, by decide⟩

/-- A scope in front of a jump to its stop label. -/
def strayStop : Block where
  body := [.scope (.incoming 0) { body := [.cond (.incoming 1) { body := [.goto 0] } {}, .call "f" []] }
    (some 0), .goto 0]

/-- The jump that ends a round of the scope becomes a jump that leaves the scope, so that no other
instance is asked for. -/
theorem strayStop_differs :
    FlatUnit strayStop ∧ (Stmt.labelsOfList strayStop.body).Nodup ∧
      (Stmt.stopsOfList strayStop.body).Nodup ∧
      (∀ id ∈ Stmt.stopsOfList strayStop.body, id ∉ Stmt.labelsOfList strayStop.body) ∧
      EveryIn restartsWell strayStop.body ∧ ¬ RunAlike strayStop (removeGotos strayStop).1 := by
  refine ⟨⟨rfl, ?_⟩, by decide, by decide, by decide, ?_, ?_⟩
  · simp [strayStop, EveryIn, Every, isFlat]
  · simp [strayStop, EveryIn, Every, Jumps.restartsWell]
  · intro h
    let oracle : Oracle :=
      ⟨fun _ _ => true, fun history _ => history.isEmpty, fun _ _ _ => 0, fun _ _ => 0, true⟩
    let events : List Event :=
      [.asked (.incoming 0) true, .tested (.incoming 1) true, .asked (.incoming 0) false]
    have hends := ((h oracle).ends events (.lost 0)).mp ⟨6, rfl⟩
    obtain ⟨n, hn⟩ := hends
    -- what is left of the unit ends after two events
    have hshort : (machine oracle (removeGotos strayStop).1).run 6
        (.at [] (start (removeGotos strayStop).1)) = .ended (events.take 2) (.lost 0) := rfl
    have hlong := congrArg ((machine oracle (removeGotos strayStop).1).run 6) hn
    rw [← Trace.Machine.run_add, Nat.add_comm, Trace.Machine.run_add, hshort,
      Trace.Machine.run_ended, Trace.Machine.run_ended] at hlong
    simp [events] at hlong

end Jumps

end Decompiler

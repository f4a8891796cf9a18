import RegisterColoring.Proofs.InPlace
import RegisterColoring.Run

/-! What the log says about the passes of the analysis. Main statement: for each position the sets in the log grow from
record to record up to those of the liveness, and a position without a record has empty sets. -/
namespace RegisterColoring

/-- A set that is part of another one lacks some of its members, or is the same. -/
theorem TempSet.exists_further {a b : TempSet} (h : ∀ t, t ∈ a → t ∈ b) (hne : a ≠ b) : ∃ t, t ∈ b ∧ t ∉ a := by
  apply Classical.byContradiction
  intro hnone
  apply hne
  apply Std.ExtTreeSet.ext_mem
  intro t
  exact ⟨h t, fun ht => Decidable.byContradiction fun hn => hnone ⟨t, ht, hn⟩⟩

namespace LiveSets
variable {a b c : LiveSets} {as bs : List LiveSets} {n : Nat}

/-- Both sets contain the sets before, and one of them has a further member. -/
structure Grows (a b : LiveSets) : Prop where
  within : a.Within b
  more : (∃ t, t ∈ b.liveIn ∧ t ∉ a.liveIn) ∨ ∃ t, t ∈ b.liveOut ∧ t ∉ a.liveOut

theorem Within.trans (hab : a.Within b) (hbc : b.Within c) : a.Within c :=
  ⟨fun t ht => hbc.1 t (hab.1 t ht), fun t ht => hbc.2 t (hab.2 t ht)⟩

theorem Within.grows (h : a.Within b) (hne : a ≠ b) : a.Grows b := by
  refine ⟨h, ?_⟩
  by_cases hin : a.liveIn = b.liveIn
  · right
    apply TempSet.exists_further h.2
    intro hout
    cases a
    cases b
    exact hne (congr (congrArg mk hin) hout)
  · left
    exact TempSet.exists_further h.1 hin

theorem Grows.trans (hab : a.Grows b) (hbc : b.Grows c) : a.Grows c := by
  refine ⟨hab.within.trans hbc.within, ?_⟩
  rcases hbc.more with ⟨t, ht, hn⟩ | ⟨t, ht, hn⟩
  · exact .inl ⟨t, ht, fun ha => hn (hab.within.1 t ha)⟩
  · exact .inr ⟨t, ht, fun ha => hn (hab.within.2 t ha)⟩

theorem Grows.ne_empty (h : a.Grows b) : b ≠ .empty := by
  rintro rfl
  rcases h.more with ⟨t, ht, _⟩ | ⟨t, ht, _⟩
  · exact Std.ExtTreeSet.not_mem_empty ht
  · exact Std.ExtTreeSet.not_mem_empty ht

theorem AllWithin.exists_within (h : AllWithin as bs) (ha : as[n]? = some a) : ∃ b, bs[n]? = some b ∧ a.Within b := by
  induction as generalizing bs n with
  | nil => cases ha
  | cons x as ih =>
    cases bs with
    | nil => exact h.elim
    | cons y bs =>
      cases n with
      | zero =>
        cases ha
        exact ⟨y, rfl, h.1⟩
      | succ n =>
        obtain ⟨b, hb, hwithin⟩ := ih h.2 ha
        exact ⟨b, hb, hwithin⟩

theorem AllWithin.length_eq (h : AllWithin as bs) : as.length = bs.length := by
  induction as generalizing bs with
  | nil =>
    cases bs with
    | nil => rfl
    | cons y bs => exact h.elim
  | cons x as ih =>
    cases bs with
    | nil => exact h.elim
    | cons y bs => exact congrArg (· + 1) (ih h.2)

end LiveSets

theorem FlowNode.Rising.length_sets {nodes : List FlowNode} (state : Rising nodes) : state.sets.length = nodes.length :=
  state.rises.length_eq.trans (length_sweepFrom _ _ _)

namespace Liveness
open LiveSets
variable {before after : List LiveSets} {n : Nat}

/-- The sets that a log of changes gives for a position. -/
def recordsAt (n : Nat) (log : List (Nat × LiveSets)) : List LiveSets :=
  log.filterMap fun change => if change.1 = n then some change.2 else none

theorem recordsAt_append (n : Nat) (log rest : List (Nat × LiveSets)) :
    recordsAt n (log ++ rest) = recordsAt n log ++ recordsAt n rest := List.filterMap_append

private theorem filterMap_zipIdx {α β : Type} (f : α → Option β) (xs : List α) (k n : Nat) :
    ((xs.zipIdx k).filterMap fun x => if x.2 = k + n then f x.1 else none) = (xs[n]?.bind f).toList := by
  induction xs generalizing k n with
  | nil => rfl
  | cons x xs ih =>
    rw [List.zipIdx_cons, List.filterMap_cons]
    cases n with
    | zero =>
      -- all positions behind the first one are too large
      have hrest : ((xs.zipIdx (k + 1)).filterMap fun x => if x.2 = k + 0 then f x.1 else none) = [] := by
        rw [List.filterMap_eq_nil_iff]
        intro y hy
        have hle : k + 1 ≤ y.2 := List.le_snd_of_mem_zipIdx hy
        exact if_neg (by omega)
      rw [hrest]
      simp only [Nat.add_zero, if_pos, List.getElem?_cons_zero, Option.bind_some]
      cases f x <;> rfl
    | succ n =>
      have hne : k ≠ k + (n + 1) := by omega
      simp only [if_neg hne, List.getElem?_cons_succ, ← ih (k + 1) n, Nat.add_right_comm k 1 n, Nat.add_assoc]

/-- A pass has one record for a position whose sets differ, and none for the others. -/
theorem recordsAt_changes {a b : LiveSets} (ha : before[n]? = some a) (hb : after[n]? = some b) :
    recordsAt n (changes before after) = if a = b then [] else [b] := by
  have hzip : (before.zip after)[n]? = some (a, b) := List.getElem?_zip_eq_some.mpr ⟨ha, hb⟩
  have hat := filterMap_zipIdx (fun pair => if pair.1 = pair.2 then none else some pair.2) (before.zip after) 0 n
  rw [hzip, Nat.zero_add] at hat
  rw [recordsAt, changes, List.filterMap_reverse, List.filterMap_filterMap]
  refine (congrArg List.reverse ((congrArg (List.filterMap · _) (funext fun x => ?_)).trans hat)).trans ?_
  · obtain ⟨⟨old, new⟩, position⟩ := x
    by_cases hsame : old = new
    · simp [hsame]
    · simp [hsame]
  · by_cases hsame : a = b
    · simp [hsame]
    · simp [hsame]

/-- A pass without changes leaves the sets as they are. -/
theorem changes_eq_nil_iff (hlen : before.length = after.length) : changes before after = [] ↔ before = after := by
  rw [changes, List.reverse_eq_nil_iff, List.filterMap_eq_nil_iff]
  constructor
  · intro hnone
    apply List.ext_getElem hlen
    intro n hb ha
    have hzip : (before.zip after)[n]? = some (before[n], after[n]) :=
      List.getElem?_zip_eq_some.mpr ⟨List.getElem?_eq_getElem hb, List.getElem?_eq_getElem ha⟩
    have hsame := hnone ((before[n], after[n]), n) (List.mem_zipIdx_iff_getElem?.mpr hzip)
    simpa using hsame
  · rintro rfl ⟨⟨a, b⟩, n⟩ hmem
    have hzip : (before.zip before)[n]? = some (a, b) := List.mem_zipIdx_iff_getElem?.mp hmem
    obtain ⟨ha, hb⟩ := List.getElem?_zip_eq_some.mp hzip
    exact if_pos (Option.some.inj (ha.symm.trans hb))

/-- The changes from pass to pass. -/
def changesAlong (start : List LiveSets) (history : List (List LiveSets)) : List (Nat × LiveSets) :=
  ((start :: history).zip history).flatMap fun (before, after) => changes before after

theorem changesAlong_cons (start after : List LiveSets) (history : List (List LiveSets)) :
    changesAlong start (after :: history) = changes start after ++ changesAlong after history := by
  rw [changesAlong, List.zip_cons_cons, List.flatMap_cons]
  rfl

end Liveness

namespace Sweeping
open FlowNode

/-- Passes in place from some sets on, up to and with the first one that changes nothing: how many there are, what they
log, and the sets they leave. -/
inductive Settles (nodes : List FlowNode) : List LiveSets → Nat → List (Nat × LiveSets) → List LiveSets → Prop where
  | last {sets final : List LiveSets} {log : List (Nat × LiveSets)} :
    pass? nodes sets = some ⟨final, log, false⟩ → Settles nodes sets 1 log final
  | more {sets next final : List LiveSets} {passes : Nat} {log rest : List (Nat × LiveSets)} :
    pass? nodes sets = some ⟨next, log, true⟩ → Settles nodes next passes rest final →
      Settles nodes sets (passes + 1) (log ++ rest) final

variable {nodes : List FlowNode}

/-- The passes of the analysis are those in place. -/
theorem settles_passes (hclosed : Closed nodes) (state : Rising nodes) :
    Settles nodes state.sets (state.passes.length + 1) (Liveness.changesAlong state.sets state.passes)
      (state.passes.getLastD state.sets) := by
  fun_induction Rising.passes state with
  | case1 state next hsame =>
    have hpass := pass?_eq_some hclosed (state.length_sets)
    have hsweep : sweep nodes state.sets = state.sets := hsame
    rw [hsweep, (Liveness.changes_eq_nil_iff rfl).mpr rfl] at hpass
    exact .last hpass
  | case2 state next hmore ih =>
    have hpass := pass?_eq_some hclosed (state.length_sets)
    have hchanged : Liveness.changes state.sets (sweep nodes state.sets) ≠ [] := by
      rw [ne_eq, Liveness.changes_eq_nil_iff state.rises.length_eq]
      exact Ne.symm hmore
    rw [List.isEmpty_eq_false_iff.mpr hchanged, Bool.not_false] at hpass
    rw [Liveness.changesAlong_cons, List.getLastD_cons, List.length_cons]
    exact .more hpass ih

end Sweeping

namespace FlowNode.Rising
open LiveSets Liveness
variable {nodes : List FlowNode} {n : Nat} {current : LiveSets}

/-- From some state on, the records of a position grow above its current sets, and the last of them is what it keeps. -/
theorem records_grow (state : Rising nodes) : ∀ current, state.sets[n]? = some current →
    (current :: recordsAt n (changesAlong state.sets state.passes)).Pairwise Grows ∧
      (state.passes.getLastD state.sets)[n]? =
        (current :: recordsAt n (changesAlong state.sets state.passes)).getLast? := by
  fun_induction passes state with
  | case1 state next hsame =>
    intro current hcurrent
    exact ⟨List.pairwise_singleton _ _, hcurrent⟩
  | case2 state next hmore ih =>
    intro current hcurrent
    obtain ⟨new, hnew, hwithin⟩ : ∃ new, next.sets[n]? = some new ∧ current.Within new :=
      state.rises.exists_within hcurrent
    obtain ⟨hgrow, hlast⟩ := ih new hnew
    rw [List.getLastD_cons, hlast, changesAlong_cons, recordsAt_append, recordsAt_changes hcurrent hnew]
    by_cases hsame : current = new
    · rw [if_pos hsame, hsame]
      exact ⟨hgrow, rfl⟩
    · rw [if_neg hsame]
      have hstep : current.Grows new := hwithin.grows hsame
      refine ⟨List.pairwise_cons.mpr ⟨fun r hr => ?_, hgrow⟩, List.getLast?_cons_cons.symm⟩
      rcases List.mem_cons.mp hr with rfl | hr
      · exact hstep
      · exact hstep.trans ((List.pairwise_cons.mp hgrow).1 r hr)

end FlowNode.Rising

namespace Liveness
open FlowNode LiveSets
variable {commands : List Command} {l : Liveness} {n : Nat} {sets : LiveSets}

/-- What the changes of all passes say about a position. -/
theorem recordsAt_history (h : ofCommands commands = .ok l) (hsets : l.sets[n]? = some sets) :
    (recordsAt n (changesAlong (unswept l.nodes) l.history)).Pairwise Grows ∧
      (∀ last, (recordsAt n (changesAlong (unswept l.nodes) l.history)).getLast? = some last → last = sets) ∧
      (recordsAt n (changesAlong (unswept l.nodes) l.history) = [] ↔ sets = .empty) := by
  obtain ⟨_, _, _, hl⟩ := ofCommands_eq_ok h
  have hhistory : (Rising.initial l.nodes).passes = l.history := (congrArg history hl).symm
  have hstart : (unswept l.nodes)[n]? = some .empty := by
    have hlt : n < l.sets.length := (List.getElem?_eq_some_iff.mp hsets).1
    rw [length_sets h, ← size_eq h] at hlt
    rw [unswept, List.getElem?_map, List.getElem?_eq_getElem hlt]
    rfl
  have hrecords := (Rising.initial l.nodes).records_grow .empty hstart
  rw [hhistory] at hrecords
  obtain ⟨hgrow, hlast⟩ : (LiveSets.empty :: recordsAt n (changesAlong (unswept l.nodes) l.history)).Pairwise Grows ∧
    l.sets[n]? = (LiveSets.empty :: recordsAt n (changesAlong (unswept l.nodes) l.history)).getLast? := hrecords
  obtain ⟨hfirst, hgrow⟩ := List.pairwise_cons.mp hgrow
  rw [hsets] at hlast
  refine ⟨hgrow, ?_⟩
  cases hrecords : recordsAt n (changesAlong (unswept l.nodes) l.history) with
  | nil =>
    rw [hrecords] at hlast
    refine ⟨fun last hlast => ?_, fun _ => Option.some.inj hlast, fun _ => rfl⟩
    cases hlast
  | cons r rs =>
    rw [hrecords, List.getLast?_cons_cons] at hlast
    have hmem : sets ∈ r :: rs := List.mem_of_getLast? hlast.symm
    have hne : sets ≠ .empty := (hfirst sets (hrecords ▸ hmem)).ne_empty
    exact ⟨fun last hl => Option.some.inj (hl.symm.trans hlast.symm),
      fun hnone => absurd hnone (List.cons_ne_nil r rs), fun hnone => absurd hnone hne⟩

end Liveness

/-- The position and its new sets, if the record tells of a change. -/
def Event.change? : Event → Option (Nat × LiveSets)
  | setsChanged position liveIn liveOut => some (position, ⟨liveIn, liveOut⟩)
  | _ => none

namespace Progress
variable {g : InterferenceGraph} {pool : RegisterPool} {p next : Progress}

private theorem change?_of_onward {told : Event} (h : p.step g pool = .onward told next) : told.change? = none := by
  rcases step_eq_onward h with ⟨_, _, _, _, rfl, _⟩ | ⟨_, _, _, rfl, _⟩
  · rfl
  · rfl

private theorem change?_of_failed {told : Option Event} {fault : Fault} (h : p.step g pool = .failed told fault) :
    told.toList.filterMap Event.change? = [] := by
  rcases step_eq_failed h with ⟨_, _, rfl, _⟩ | ⟨_, _, rfl, _⟩
  · rfl
  · rfl

/-- Coloring has nothing to say about live sets. -/
private theorem filterMap_change?_run (g : InterferenceGraph) (pool : RegisterPool) (p : Progress) :
    ((run g pool p).moves.map Prod.fst).filterMap Event.change? = [] ∧
      ∀ told fault, (run g pool p).last = .failed told fault → told.toList.filterMap Event.change? = [] := by
  fun_induction run g pool p with
  | case1 p told next hstep rest ih =>
    rw [List.map_cons, List.filterMap_cons, change?_of_onward hstep]
    exact ih
  | case2 p hlast => exact ⟨rfl, fun told fault => change?_of_failed⟩

end Progress

namespace Run
open FlowNode Liveness
variable {commands : List Command} {l : Liveness} {pool : RegisterPool}

/-- The changes that the log of a run tells of. -/
def loggedChanges (commands : List Command) (pool : RegisterPool) : List (Nat × LiveSets) :=
  (events commands pool).filterMap Event.change?

private theorem filterMap_change?_colorEvents (g : InterferenceGraph) (pool : RegisterPool) :
    (colorEvents g pool).filterMap Event.change? = [] := by
  unfold colorEvents
  split
  · rfl
  · next start _ =>
    obtain ⟨hmoves, hfailed⟩ := Progress.filterMap_change?_run g pool start
    rw [List.filterMap_append, hmoves]
    split
    · rfl
    · rfl
    · next told fault hlast => exact hfailed told fault hlast
    · rfl

/-- The log has the changes of all passes, in order. -/
theorem loggedChanges_eq (h : Liveness.ofCommands commands = .ok l) :
    loggedChanges commands pool = changesAlong (unswept l.nodes) l.history := by
  obtain ⟨labels, hlabels, hnodes, hl⟩ := ofCommands_eq_ok h
  have hliveness : (livenessEvents l).filterMap Event.change? = l.allChanges := by
    rw [livenessEvents, List.filterMap_append, List.filterMap_map]
    exact (List.append_nil _).trans List.filterMap_some
  simp only [loggedChanges, events, hlabels, hnodes, ← hl]
  rw [List.filterMap_cons, List.filterMap_append, hliveness, List.filterMap_cons]
  simp only [Event.change?, filterMap_change?_colorEvents, List.append_nil]
  rfl

/-- The log of a run tells the truth about the passes of the analysis. It has what passes in place log that start from
empty sets and end with the first pass that changes nothing. For each position of the listing, each record has all of the
records before it and more, and the last one has the live sets of the position; there is no record exactly if those are
empty. A further pass changes nothing, and says so. -/
theorem log_grows_to_liveness (h : Liveness.ofCommands commands = .ok l) (pool : RegisterPool) :
    Sweeping.Settles l.nodes (unswept l.nodes) l.iterations (loggedChanges commands pool) l.sets ∧
    (∀ n < commands.length, ∃ before after, l.liveIn n = .ok before ∧ l.liveOut n = .ok after ∧
      (recordsAt n (loggedChanges commands pool)).Pairwise LiveSets.Grows ∧
      (∀ last, (recordsAt n (loggedChanges commands pool)).getLast? = some last → last = ⟨before, after⟩) ∧
      (recordsAt n (loggedChanges commands pool) = [] ↔ before = ∅ ∧ after = ∅)) ∧
    Sweeping.pass? l.nodes l.sets = some ⟨l.sets, [], false⟩ := by
  have hclosed := closed_nodes h
  rw [loggedChanges_eq h]
  refine ⟨?_, fun n hn => ?_, ?_⟩
  · obtain ⟨_, _, _, hl⟩ := ofCommands_eq_ok h
    have hsettles := Sweeping.settles_passes hclosed (Rising.initial l.nodes)
    have hhistory : (Rising.initial l.nodes).passes = l.history := (congrArg history hl).symm
    rw [hhistory] at hsettles
    exact hsettles
  · obtain ⟨sets, hsets⟩ : ∃ sets, l.sets[n]? = some sets := ⟨_, List.getElem?_eq_getElem (length_sets h ▸ hn)⟩
    obtain ⟨hgrow, hlast, hnone⟩ := recordsAt_history h hsets
    refine ⟨sets.liveIn, sets.liveOut, map_item_eq_ok hsets, map_item_eq_ok hsets, hgrow, hlast, ?_⟩
    rw [hnone, LiveSets.empty, LiveSets.mk.injEq]
  · have hpass := Sweeping.pass?_eq_some hclosed ((length_sets h).trans (size_eq h).symm)
    rw [sweep_sets h, (changes_eq_nil_iff rfl).mpr rfl] at hpass
    exact hpass

/-- A return behind a loop that waits for a temporary to be other than zero. -/
def waitingToReturn : List Command := [.label "wait", .jumpIfZero ⟨0⟩ "wait", .ret none]

/-- The log has something to say about the test, but nothing about the return. -/
theorem waitingToReturn_log : ∃ l, Liveness.ofCommands waitingToReturn = .ok l ∧
    recordsAt 1 (loggedChanges waitingToReturn .standard) ≠ [] ∧
    recordsAt 2 (loggedChanges waitingToReturn .standard) = [] ∧
    Sweeping.pass? l.nodes l.sets = some ⟨l.sets, [], false⟩ := by
  have hok : ∃ l ∈ (Liveness.ofCommands waitingToReturn).toOption, l.size = 3 := by decide +kernel
  obtain ⟨l, hl, _⟩ := exists_ok_of_toOption hok
  obtain ⟨_, hlog, hpass⟩ := log_grows_to_liveness hl .standard
  obtain ⟨test, _, htest, _, _, _, hsome⟩ := hlog 1 (by decide)
  obtain ⟨before, after, hbefore, hafter, _, _, hnone⟩ := hlog 2 (by decide)
  refine ⟨l, hl, ?_, ?_, hpass⟩
  · rw [ne_eq, hsome]
    rintro ⟨rfl, _⟩
    obtain ⟨_, hin, hmem⟩ : l.LiveBefore 1 ⟨0⟩ := liveBefore_of_mem_uses hl rfl (by decide)
    cases htest.symm.trans hin
    exact Std.ExtTreeSet.not_mem_empty hmem
  · have hend (t : Temp) : ¬ l.LiveAfter 2 t := by
      rw [liveAfter_iff_follows hl]
      rintro ⟨s, hs, _⟩
      rw [follows_iff_flow hl rfl] at hs
      simp [Command.fallsThrough, Command.target?] at hs
    have hstart (t : Temp) : ¬ l.LiveBefore 2 t := by
      rw [liveBefore_iff_reads hl, reads_iff_uses hl rfl]
      simp [Command.uses, hend]
    rw [hnone]
    constructor
    · exact Std.ExtTreeSet.eq_empty_iff_forall_not_mem.mpr fun t ht => hstart t ⟨before, hbefore, ht⟩
    · exact Std.ExtTreeSet.eq_empty_iff_forall_not_mem.mpr fun t ht => hend t ⟨after, hafter, ht⟩

end Run
end RegisterColoring

import RegisterColoring.Proofs.Core
import RegisterColoring.Proofs.FaithfulSpans
import RegisterColoring.Proofs.SharedRegisters
import RegisterColoring.Report

/-! Reports of failed runs. Main statement: whenever a listing that was read gets no registers, a report points into
its source, and marks exactly the instructions that the failure is about. -/
namespace RegisterColoring
open InterferenceGraph

namespace Fault

/-- The instruction at a position has to do with the failure: it is one of the two that define the label, the jump
without a target, or one that writes a temporary without a register. -/
def Blames : Fault → Nat → Command → Prop
  | duplicateLabel name first second, n, c => (n = first ∨ n = second) ∧ c = .label name
  | unknownLabel name position, n, c => n = position ∧ c.target? = some name
  | tooFewRegisters _ uncolorable, _, c => ∃ t ∈ uncolorable, c.def? = some t
  | _, _, _ => False

/-- The failures that instructions of the listing bear out. -/
inductive Shown (commands : List Command) : Fault → Prop
  | duplicateLabel {name : String} {first second : Nat} : first < second →
      commands[first]? = some (.label name) → commands[second]? = some (.label name) →
      Shown commands (.duplicateLabel name first second)
  | unknownLabel {name : String} {position : Nat} {c : Command} :
      commands[position]? = some c → c.target? = some name → Shown commands (.unknownLabel name position)
  | tooFewRegisters {registers n : Nat} {uncolorable : List Temp} {c : Command} {t : Temp} :
      commands[n]? = some c → c.def? = some t → t ∈ uncolorable →
        Shown commands (.tooFewRegisters registers uncolorable)

end Fault

/-! ### Failures and instructions -/

variable {commands : List Command} {pool : RegisterPool} {fault : Fault} {l : Liveness} {k : Nat} {s : TempSet}
  {t : Temp}

theorem RegisterPool.size_pos (pool : RegisterPool) : 0 < pool.size := List.length_pos_iff.mpr pool.nonempty

/-- Some of any crowded vertices of a listing are written in it, because every edge has an end that is. -/
theorem InterferenceGraph.Crowded.exists_writes (h : (ofLiveness l).Crowded k s) (hk : 0 < k) (ht : t ∈ s) :
    ∃ u n, u ∈ s ∧ l.Writes n u := by
  have hne : (ofLiveness l).neighbors t ∩ s ≠ ∅ := by
    have hsize := h.neighbors t ht
    rw [ne_eq, Std.ExtTreeSet.eq_empty_iff_size_eq_zero]
    omega
  obtain ⟨u, hu⟩ : ∃ u, u ∈ (ofLiveness l).neighbors t ∩ s := by
    rwa [ne_eq, Std.ExtTreeSet.eq_empty_iff_forall_not_mem, not_forall_not] at hne
  obtain ⟨hneighbor, hus⟩ := Std.ExtTreeSet.mem_inter_iff.mp hu
  obtain ⟨_, n, ⟨hw, _⟩ | ⟨hw, _⟩⟩ := mem_neighbors_ofLiveness.mp hneighbor
  · exact ⟨t, n, ht, hw⟩
  · exact ⟨u, n, hus, hw⟩

/-- If the graph of a listing cannot be colored, the complaint names a temporary that the listing writes. -/
theorem Allocation.color_ofLiveness_eq_error (h : color (ofLiveness l) pool = .error fault) :
    ∃ uncolorable, fault = .tooFewRegisters pool.size uncolorable ∧ ∃ t ∈ uncolorable, ∃ n, l.Writes n t := by
  have hg := simple_ofLiveness l
  obtain ⟨elimination, helimination⟩ := Elimination.exists_ofGraph (ofLiveness l) pool.size
  rcases color_eq hg helimination with ⟨_, a, ha⟩ | ⟨hstuck, herror⟩
  · cases h.symm.trans ha
  · cases h.symm.trans herror
    obtain ⟨e, he⟩ := List.exists_mem_of_ne_nil _ hstuck
    have hcrowded := (Elimination.isCore_stuck hg helimination).crowded
    have hmem : e.temp ∈ Elimination.remaining elimination.stuck :=
      TempSet.mem_ofTemps.mpr (List.mem_map_of_mem he)
    obtain ⟨u, n, hu, hw⟩ := hcrowded.exists_writes pool.size_pos hmem
    exact ⟨_, rfl, u, TempSet.mem_ofTemps.mp hu, n, hw⟩

/-- A run fails for no other reasons than these. -/
theorem Run.shown_of_ofCommands (h : ofCommands commands pool = .error fault) : fault.Shown commands := by
  rcases ofCommands_eq_error h with hl | ⟨l, hl, hcolor⟩
  · rcases Liveness.ofCommands_eq_error hl with hlabels | ⟨labels, _, hnodes⟩
    · obtain ⟨name, first, second, rfl, hlt, hfirst, hsecond⟩ := LabelIndex.ofCommands_eq_error hlabels
      exact .duplicateLabel hlt hfirst hsecond
    · obtain ⟨name, position, c, rfl, hc, htarget⟩ := FlowNode.ofCommands_eq_error hnodes
      exact .unknownLabel hc htarget
  · obtain ⟨uncolorable, rfl, t, ht, n, hw⟩ := Allocation.color_ofLiveness_eq_error hcolor
    obtain ⟨c, hc, hd⟩ := hw.exists_command hl
    exact .tooFewRegisters hc hd ht

/-! ### Reports and instructions -/

namespace Report
variable {listing : Listing} {temps : List Temp} {n : Nat} {c : Command}

/-- The report marks the instructions at the given positions, in order, and is about one of them. -/
structure PointsAt (report : Report) (listing : Listing) (positions : List Nat) : Prop where
  ascending : positions.Pairwise (· < ·)
  marks : report.marks.map (some ·.span) = positions.map (listing.spans[·]?)
  span : ∃ n ∈ positions, listing.spans[n]? = some report.span

theorem getElem?_commands_eq_some :
    listing.commands[n]? = some c ↔ ∃ line, listing.lines[n]? = some line ∧ line.command = c := by
  rw [Listing.commands, List.getElem?_map, Option.map_eq_some_iff]

theorem getElem?_spans {line : Line} (h : listing.lines[n]? = some line) : listing.spans[n]? = some line.span := by
  rw [Listing.spans, List.getElem?_map, h, Option.map_some]

/-- The positions of the instructions that write one of the temporaries. -/
def writers (listing : Listing) (temps : List Temp) : List Nat :=
  (listing.lines.zipIdx.filter fun (line, _) => line.command.def?.any (· ∈ temps)).map Prod.snd

theorem ascending_writers (listing : Listing) (temps : List Temp) : (writers listing temps).Pairwise (· < ·) := by
  have hsub : (writers listing temps).Sublist (listing.lines.zipIdx.map Prod.snd) := List.filter_sublist.map _
  rw [List.zipIdx_map_snd] at hsub
  exact List.Pairwise.sublist hsub (List.pairwise_lt_range' 1)

theorem mem_writers :
    n ∈ writers listing temps ↔ ∃ c, listing.commands[n]? = some c ∧ ∃ t ∈ temps, c.def? = some t := by
  simp only [writers, List.mem_map, List.mem_filter, Prod.exists, List.mem_zipIdx_iff_getElem?,
    getElem?_commands_eq_some, Option.any_eq_true, decide_eq_true_eq]
  constructor
  · rintro ⟨line, _, ⟨hline, t, hdef, ht⟩, rfl⟩
    exact ⟨line.command, ⟨line, hline, rfl⟩, t, ht, hdef⟩
  · rintro ⟨_, ⟨line, hline, rfl⟩, t, ht, hdef⟩
    exact ⟨line, n, ⟨hline, t, hdef, ht⟩, rfl⟩

/-- The definitions that a report shows stand at those positions. -/
theorem map_definitions (listing : Listing) (temps : List Temp) :
    (definitions listing temps).map some = (writers listing temps).map (listing.spans[·]?) := by
  have hlines : listing.lines.filter (fun line => line.command.def?.any (· ∈ temps)) =
      (listing.lines.zipIdx.filter fun (line, _) => line.command.def?.any (· ∈ temps)).map Prod.fst := by
    conv_lhs => rw [← List.zipIdx_map_fst 0 listing.lines]
    exact List.filter_map
  rw [definitions, hlines, writers, List.map_map, List.map_map, List.map_map]
  apply List.map_congr_left
  rintro ⟨line, n⟩ hmem
  have hline := List.mem_zipIdx_iff_getElem?.mp (List.mem_filter.mp hmem).1
  exact (getElem?_spans hline).symm

/-- A failure that the listing bears out has a report, with marks at the instructions that it is about. -/
theorem exists_ofFault? (h : fault.Shown listing.commands) :
    ∃ report positions, ofFault? listing fault = some report ∧ report.PointsAt listing positions ∧
      ∀ n, n ∈ positions ↔ ∃ c, listing.commands[n]? = some c ∧ fault.Blames n c := by
  cases h with
  | @duplicateLabel name first second hlt hfirst hsecond =>
    obtain ⟨a, ha, _⟩ := getElem?_commands_eq_some.mp hfirst
    obtain ⟨b, hb, _⟩ := getElem?_commands_eq_some.mp hsecond
    refine ⟨_, [first, second], by rw [ofFault?, getElem?_spans ha, getElem?_spans hb]; rfl, ?_, fun n => ?_⟩
    · exact ⟨by simpa using hlt, by simp [getElem?_spans ha, getElem?_spans hb],
        second, by simp, getElem?_spans hb⟩
    · constructor
      · intro hn
        obtain rfl | rfl : n = first ∨ n = second := by simpa using hn
        · exact ⟨_, hfirst, .inl rfl, rfl⟩
        · exact ⟨_, hsecond, .inr rfl, rfl⟩
      · rintro ⟨c, _, hn, _⟩
        simpa using hn
  | @unknownLabel name position c hc htarget =>
    obtain ⟨a, ha, _⟩ := getElem?_commands_eq_some.mp hc
    refine ⟨_, [position], by rw [ofFault?, getElem?_spans ha]; rfl, ?_, fun n => ?_⟩
    · exact ⟨List.pairwise_singleton _ _, by simp [getElem?_spans ha], position, by simp, getElem?_spans ha⟩
    · constructor
      · intro hn
        obtain rfl := List.mem_singleton.mp hn
        exact ⟨c, hc, rfl, htarget⟩
      · rintro ⟨c, _, hn, _⟩
        exact List.mem_singleton.mpr hn
  | @tooFewRegisters registers n uncolorable c t hc hdef ht =>
    have hspans := map_definitions listing uncolorable
    -- the definition that the listing shows keeps the list of marks from being empty
    have hn : n ∈ writers listing uncolorable := mem_writers.mpr ⟨c, hc, t, ht, hdef⟩
    cases hdefs : definitions listing uncolorable with
    | nil =>
      rw [hdefs, List.map_nil, eq_comm, List.map_eq_nil_iff] at hspans
      rw [hspans] at hn
      cases hn
    | cons span spans =>
      refine ⟨_, writers listing uncolorable, by simp only [ofFault?, hdefs]; rfl, ?_, fun n => mem_writers⟩
      refine ⟨ascending_writers listing uncolorable, ?_, ?_⟩
      · rw [← hspans, hdefs, List.map_map]
        rfl
      · have hfirst : some span ∈ (writers listing uncolorable).map (listing.spans[·]?) := by
          rw [← hspans, hdefs]
          exact List.mem_cons_self
        exact List.mem_map.mp hfirst

/-- What the report marks in the source is read as the instructions at its positions. -/
theorem PointsAt.exists_part {source : String} {report : Report} {positions : List Nat} {mark : Mark}
    (h : report.PointsAt listing positions) (hread : Listing.read source = .ok listing) (hm : mark ∈ report.marks) :
    ∃ n ∈ positions, ∃ c part alone, listing.commands[n]? = some c ∧ mark.span.Covers source part ∧
      Listing.read part = .ok alone ∧ alone.commands = [c] := by
  have hspan : some mark.span ∈ positions.map (listing.spans[·]?) := h.marks ▸ List.mem_map_of_mem hm
  obtain ⟨n, hn, hspan⟩ := List.mem_map.mp hspan
  rw [Listing.spans, List.getElem?_map, Option.map_eq_some_iff] at hspan
  obtain ⟨line, hline, hspan⟩ := hspan
  have hstands := (Listing.stands_and_apart hread).1 line (List.mem_of_getElem? hline)
  obtain ⟨part, alone, hcovers, halone, hcommands, _⟩ := hstands.exists_part
  exact ⟨n, hn, line.command, part, alone, getElem?_commands_eq_some.mpr ⟨line, hline, rfl⟩, hspan ▸ hcovers, halone,
    hcommands⟩

/-- Whatever the source and the registers, a run that fails on a listing that was read has a report. The report marks
exactly the instructions that the failure is about, and the parts of the source with a mark are read as these. -/
theorem exists_of_failed_run {source : String} (hread : Listing.read source = .ok listing)
    (hrun : Run.ofCommands listing.commands pool = .error fault) :
    ∃ report positions, ofFault? listing fault = some report ∧ report.PointsAt listing positions ∧
      (∀ n, n ∈ positions ↔ ∃ c, listing.commands[n]? = some c ∧ fault.Blames n c) ∧
      ∀ mark ∈ report.marks, ∃ n ∈ positions, ∃ c part alone, listing.commands[n]? = some c ∧
        mark.span.Covers source part ∧ Listing.read part = .ok alone ∧ alone.commands = [c] := by
  obtain ⟨report, positions, hreport, hpoints, hblames⟩ := exists_ofFault? (Run.shown_of_ofCommands hrun)
  exact ⟨report, positions, hreport, hpoints, hblames, fun mark hm => hpoints.exists_part hread hm⟩

/-- One register does not do for a sum of two temporaries. The report marks both of them, and not the sum. -/
theorem sum_is_reported : ∃ listing, Listing.read "t0 = 1\nt1 = 2 # held\n\nt2 = add t0, t1" = .ok listing ∧
    Run.ofCommands listing.commands ⟨["a"], by decide, by decide⟩ = .error (.tooFewRegisters 1 [⟨0⟩, ⟨1⟩]) ∧
    ∃ report positions, ofFault? listing (.tooFewRegisters 1 [⟨0⟩, ⟨1⟩]) = some report ∧
      report.PointsAt listing positions ∧ 0 ∈ positions ∧ 1 ∈ positions ∧ 2 ∉ positions := by
  have hok : ∃ listing ∈ (Listing.read "t0 = 1\nt1 = 2 # held\n\nt2 = add t0, t1").toOption,
      listing.commands = [.const ⟨0⟩ 1, .const ⟨1⟩ 2, .compute .add ⟨2⟩ ⟨0⟩ ⟨1⟩] := by decide +kernel
  obtain ⟨listing, hread, hcommands⟩ := exists_ok_of_toOption hok
  have hrun : Run.ofCommands listing.commands ⟨["a"], by decide, by decide⟩ =
      .error (.tooFewRegisters 1 [⟨0⟩, ⟨1⟩]) := by
    rw [hcommands]
    decide +kernel
  obtain ⟨report, positions, hreport, hpoints, hblames, _⟩ := exists_of_failed_run hread hrun
  refine ⟨listing, hread, hrun, report, positions, hreport, hpoints, ?_⟩
  simp [hblames, hcommands, Fault.Blames, Command.def?]

end Report
end RegisterColoring

import RegisterColoring.Proofs.FirstOffence
import RegisterColoring.Proofs.Interference
import RegisterColoring.Run

/-! A label that no jump goes to. Main statement: put in anywhere, it changes no live set of the other instructions, and
so neither the interference graph nor the registers. -/
namespace RegisterColoring

/-! ### Positions -/

/-- Where the instruction at a position stands after another one was put in at `i`. -/
def moved (i n : Nat) : Nat := if n < i then n else n + 1

/-- Where a position of the longer listing was before. The new instruction leads on to the one that stood there. -/
def origin (i p : Nat) : Nat := if p ≤ i then p else p - 1

@[simp] theorem origin_moved (i n : Nat) : origin i (moved i n) = n := by
  grind [origin, moved]

@[simp] theorem origin_self (i : Nat) : origin i i = i := if_pos (Nat.le_refl i)

theorem origin_moved_succ (i n : Nat) : origin i (moved i n + 1) = n + 1 := by
  grind [origin, moved]

theorem moved_self (i : Nat) : moved i i = i + 1 := if_neg (Nat.lt_irrefl i)

theorem moved_lt_iff {i m n : Nat} : moved i m < moved i n ↔ m < n := by
  grind [moved]

/-- A position is the new one, or that of an instruction that was there before. -/
theorem eq_or_moved (i p : Nat) : p = i ∨ p = moved i (origin i p) := by
  grind [origin, moved]

theorem getElem?_insertIdx_moved {commands : List Command} {i : Nat} (c : Command) (n : Nat) :
    (commands.insertIdx i c)[moved i n]? = commands[n]? := by
  rw [List.getElem?_insertIdx]
  grind [moved]

theorem getElem?_insertIdx_new {commands : List Command} {i : Nat} (h : i ≤ commands.length) (c : Command) :
    (commands.insertIdx i c)[i]? = some c := by
  rw [List.getElem?_insertIdx_self, if_pos h]

namespace Liveness
open LabelIndex FlowNode InterferenceGraph
variable {commands : List Command} {i n p s : Nat} {name : String} {l l' : Liveness} {t : Temp}

theorem exists_ofCommands_insertIdx (h : ofCommands commands = .ok l) (hi : i ≤ commands.length)
    (hname : .label name ∉ commands) : ∃ l', ofCommands (commands.insertIdx i (.label name)) = .ok l' := by
  obtain ⟨hrepeats, hdangles⟩ := exists_ofCommands_iff.mp ⟨l, h⟩
  have hold {q : Nat} {other : String} (hq : (commands.insertIdx i (.label name))[q]? = some (.label other)) :
      q = i ∧ other = name ∨ q = moved i (origin i q) ∧ commands[origin i q]? = some (.label other) := by
    rcases eq_or_moved i q with rfl | hmoved
    · rw [getElem?_insertIdx_new hi] at hq
      cases hq
      exact .inl ⟨rfl, rfl⟩
    · rw [hmoved, getElem?_insertIdx_moved] at hq
      exact .inr ⟨hmoved, hq⟩
  apply exists_ofCommands_iff.mpr
  constructor
  · rintro q ⟨other, p, hlt, hp, hq⟩
    rcases hold hp with ⟨rfl, rfl⟩ | ⟨hp', hp⟩ <;> rcases hold hq with ⟨rfl, hq'⟩ | ⟨hq', hq⟩
    · omega
    · exact hname (List.mem_of_getElem? hq)
    · exact hname (hq' ▸ List.mem_of_getElem? hp)
    · rw [hp', hq', moved_lt_iff] at hlt
      exact hrepeats _ ⟨other, _, hlt, hp, hq⟩
  · rintro target q ⟨c, hc, htarget, hnowhere⟩
    rcases eq_or_moved i q with rfl | hmoved
    · rw [getElem?_insertIdx_new hi] at hc
      cases hc
      cases htarget
    · rw [hmoved, getElem?_insertIdx_moved] at hc
      refine hdangles target _ ⟨c, hc, htarget, fun hmem => hnowhere ?_⟩
      exact (List.mem_insertIdx hi).mpr (.inr hmem)

/-- The second analysis is that of the first listing with a new label put in at a position. -/
structure Labeled (commands : List Command) (i : Nat) (name : String) (l l' : Liveness) : Prop where
  le : i ≤ commands.length
  fresh : .label name ∉ commands
  before : ofCommands commands = .ok l
  after : ofCommands (commands.insertIdx i (.label name)) = .ok l'

namespace Labeled

theorem reads_moved (h : Labeled commands i name l l') : l'.Reads (moved i n) t ↔ l.Reads n t := by
  rw [reads_iff_command h.after, reads_iff_command h.before, getElem?_insertIdx_moved]

theorem writes_moved (h : Labeled commands i name l l') : l'.Writes (moved i n) t ↔ l.Writes n t := by
  rw [writes_iff_command h.after, writes_iff_command h.before, getElem?_insertIdx_moved]

theorem not_reads (h : Labeled commands i name l l') : ¬ l'.Reads i t := by
  rw [reads_iff_uses h.after (getElem?_insertIdx_new h.le _)]
  exact List.not_mem_nil

theorem not_writes (h : Labeled commands i name l l') : ¬ l'.Writes i t := by
  rw [writes_iff_def h.after (getElem?_insertIdx_new h.le _)]
  exact nofun

/-- Control goes on from the new label to the instruction behind it, if there is one. -/
theorem follows_self (h : Labeled commands i name l l') : l'.Follows i s ↔ s = i + 1 ∧ i < commands.length := by
  rw [follows_iff_flow h.after (getElem?_insertIdx_new h.le _), List.length_insertIdx_of_le_length h.le]
  simp only [Command.fallsThrough, Command.target?, reduceCtorEq, false_and, exists_false, or_false, true_and]
  omega

/-- Control goes on as before, over the new label or not, except where it went past the end. -/
theorem follows_origin (h : Labeled commands i name l l') (hf : l'.Follows (moved i n) p) :
    l.Follows n (origin i p) ∨ commands.length ≤ origin i p := by
  obtain ⟨c, hc, hflow⟩ := (follows_iff_command h.after).mp hf
  rw [getElem?_insertIdx_moved] at hc
  rcases hflow with ⟨hfalls, rfl, _⟩ | ⟨target, htarget, hlabel⟩
  · rw [origin_moved_succ]
    rcases Nat.lt_or_ge (n + 1) commands.length with hlt | hge
    · exact .inl ((follows_iff_flow h.before hc).mpr (.inl ⟨hfalls, rfl, hlt⟩))
    · exact .inr hge
  · left
    rcases eq_or_moved i p with rfl | hmoved
    · -- a jump to the new label would have gone nowhere before
      rw [getElem?_insertIdx_new h.le] at hlabel
      cases hlabel
      exact absurd ⟨c, hc, htarget, h.fresh⟩ ((exists_ofCommands_iff.mp ⟨l, h.before⟩).2 name n)
    · rw [hmoved, getElem?_insertIdx_moved] at hlabel
      exact (follows_iff_flow h.before hc).mpr (.inr ⟨target, htarget, hlabel⟩)

/-- Control still goes on to the same instruction, or to the new label in front of it. -/
theorem follows_moved (h : Labeled commands i name l l') (hf : l.Follows n s) :
    l'.Follows (moved i n) (moved i s) ∨ s = i ∧ l'.Follows (moved i n) i := by
  obtain ⟨c, hc, hflow⟩ := (follows_iff_command h.before).mp hf
  have hc' : (commands.insertIdx i (.label name))[moved i n]? = some c := (getElem?_insertIdx_moved _ n).trans hc
  simp only [follows_iff_flow h.after hc', List.length_insertIdx_of_le_length h.le]
  rcases hflow with ⟨hfalls, rfl, hlt⟩ | ⟨target, htarget, hlabel⟩
  · by_cases hi : n + 1 = i
    · have hmoved : moved i n = n := if_pos (by omega)
      exact .inr ⟨hi, .inl ⟨hfalls, by omega, by omega⟩⟩
    · have hmoved : moved i (n + 1) = moved i n + 1 := by grind [moved]
      have hle : moved i n ≤ n + 1 := by grind [moved]
      exact .inl (.inl ⟨hfalls, hmoved, by omega⟩)
  · exact .inl (.inr ⟨target, htarget, (getElem?_insertIdx_moved _ s).trans hlabel⟩)

/-! ### Live sets -/

/-- What the new label needs is what the instruction behind it needs. -/
theorem liveBefore_self (h : Labeled commands i name l l') : l'.LiveBefore i t ↔ l'.LiveBefore (i + 1) t := by
  rw [liveBefore_iff_reads h.after, liveAfter_iff_follows h.after]
  simp only [h.not_reads, h.not_writes, h.follows_self, false_or, not_false_eq_true, and_true]
  constructor
  · rintro ⟨_, ⟨rfl, _⟩, live⟩
    exact live
  · intro live
    have hlt := live.lt_length h.after
    rw [List.length_insertIdx_of_le_length h.le] at hlt
    exact ⟨i + 1, ⟨rfl, by omega⟩, live⟩

theorem liveBefore_origin (h : Labeled commands i name l l') (live : l'.LiveBefore p t) :
    l.LiveBefore (origin i p) t := by
  apply LiveBefore.induction h.after (P := fun p t => l.LiveBefore (origin i p) t) ?_ ?_ live
  · intro p t hr
    rcases eq_or_moved i p with rfl | hmoved
    · exact absurd hr h.not_reads
    · rw [hmoved, h.reads_moved] at hr
      exact (liveBefore_iff_reads h.before).mpr (.inl hr)
  · intro p s t hf live hw
    rcases eq_or_moved i p with rfl | hmoved
    · obtain ⟨rfl, _⟩ := h.follows_self.mp hf
      rw [← moved_self, origin_moved] at live
      rwa [origin_self]
    · rw [hmoved] at hf hw
      rw [h.writes_moved] at hw
      rcases h.follows_origin hf with hf | hpast
      · exact liveBefore_of_follows h.before hf hw live
      · have hlt := live.lt_length h.before
        omega

theorem liveBefore_moved (h : Labeled commands i name l l') : l'.LiveBefore (moved i n) t ↔ l.LiveBefore n t := by
  refine ⟨fun live => by simpa using h.liveBefore_origin live, fun live => ?_⟩
  apply LiveBefore.induction h.before (P := fun n t => l'.LiveBefore (moved i n) t) ?_ ?_ live
  · intro n t hr
    exact (liveBefore_iff_reads h.after).mpr (.inl (h.reads_moved.mpr hr))
  · intro n s t hf live hw
    rw [← h.writes_moved] at hw
    rcases h.follows_moved hf with hf | ⟨rfl, hf⟩
    · exact liveBefore_of_follows h.after hf hw live
    · rw [moved_self, ← h.liveBefore_self] at live
      exact liveBefore_of_follows h.after hf hw live

theorem liveBefore_new (h : Labeled commands i name l l') : l'.LiveBefore i t ↔ l.LiveBefore i t := by
  rw [h.liveBefore_self, ← moved_self, h.liveBefore_moved]

theorem liveAfter_new (h : Labeled commands i name l l') : l'.LiveAfter i t ↔ l.LiveBefore i t := by
  rw [← h.liveBefore_new, liveBefore_iff_reads h.after]
  simp [h.not_reads, h.not_writes]

theorem liveAfter_moved (h : Labeled commands i name l l') : l'.LiveAfter (moved i n) t ↔ l.LiveAfter n t := by
  rw [liveAfter_iff_follows h.after, liveAfter_iff_follows h.before]
  constructor
  · rintro ⟨p, hf, live⟩
    have live := h.liveBefore_origin live
    rcases h.follows_origin hf with hf | hpast
    · exact ⟨_, hf, live⟩
    · have hlt := live.lt_length h.before
      omega
  · rintro ⟨s, hf, live⟩
    rcases h.follows_moved hf with hf | ⟨rfl, hf⟩
    · exact ⟨_, hf, h.liveBefore_moved.mpr live⟩
    · exact ⟨_, hf, h.liveBefore_new.mpr live⟩

/-! ### Graphs and registers -/

/-- Some position has a property of the new listing exactly if one had it before, if the new label has it not. -/
theorem exists_position_iff {P Q : Nat → Prop} (hmoved : ∀ n, P (moved i n) ↔ Q n) (hnew : ¬ P i) :
    (∃ p, P p) ↔ ∃ n, Q n := by
  constructor
  · rintro ⟨p, hp⟩
    rcases eq_or_moved i p with rfl | hp'
    · exact absurd hp hnew
    · rw [hp', hmoved] at hp
      exact ⟨_, hp⟩
  · rintro ⟨n, hn⟩
    exact ⟨moved i n, (hmoved n).mpr hn⟩

theorem ofLiveness_eq (h : Labeled commands i name l l') : ofLiveness l' = ofLiveness l := by
  apply ext_mem
  · intro t
    rw [mem_vertices_ofLiveness h.after, mem_vertices_ofLiveness h.before]
    apply exists_position_iff (i := i)
    · intro n
      rw [h.reads_moved, h.writes_moved]
    · simp [h.not_reads, h.not_writes]
  · intro a b
    rw [mem_neighbors_ofLiveness, mem_neighbors_ofLiveness]
    apply and_congr_right
    intro _
    apply exists_position_iff (i := i)
    · intro n
      simp only [h.writes_moved, h.liveAfter_moved]
    · simp [h.not_writes]

end Labeled

/-- A set that is kept for a position is known by its members. -/
theorem exists_item_set {α : Type} {items : List α} (f : α → TempSet) (hn : n < items.length) :
    ∃ set, (item items n).map f = .ok set ∧ ∀ t, t ∈ set ↔ ∃ found, (item items n).map f = .ok found ∧ t ∈ found := by
  refine ⟨f items[n], ?_, fun t => ?_⟩ <;> simp [item, List.getElem?_eq_getElem hn, Except.map]

theorem map_item_congr {α : Type} {items items' : List α} {f : α → TempSet} (hn : n < items.length)
    (hp : p < items'.length)
    (h : ∀ t, (∃ set, (item items' p).map f = .ok set ∧ t ∈ set) ↔ ∃ set, (item items n).map f = .ok set ∧ t ∈ set) :
    (item items' p).map f = (item items n).map f := by
  obtain ⟨set, hset, hmem⟩ := exists_item_set f hn
  obtain ⟨set', hset', hmem'⟩ := exists_item_set f hp
  have hsame : set' = set := Std.ExtTreeSet.ext_mem fun t => by rw [hmem', hmem, h]
  rw [hset, hset', hsame]

namespace Labeled

theorem sets_moved (h : Labeled commands i name l l') (hn : n < commands.length) :
    l'.liveIn (moved i n) = l.liveIn n ∧ l'.liveOut (moved i n) = l.liveOut n ∧
      l'.defs (moved i n) = l.defs n ∧ l'.uses (moved i n) = l.uses n := by
  have hp : moved i n < (commands.insertIdx i (.label name)).length := by
    rw [List.length_insertIdx_of_le_length h.le]
    grind [moved]
  have hsets : n < l.sets.length ∧ moved i n < l'.sets.length := by
    rw [length_sets h.before, length_sets h.after]
    exact ⟨hn, hp⟩
  have hnodes : n < l.size ∧ moved i n < l'.size := by
    rw [size_eq h.before, size_eq h.after]
    exact ⟨hn, hp⟩
  exact ⟨map_item_congr hsets.1 hsets.2 fun t => h.liveBefore_moved,
    map_item_congr hsets.1 hsets.2 fun t => h.liveAfter_moved,
    map_item_congr hnodes.1 hnodes.2 fun t => h.writes_moved,
    map_item_congr hnodes.1 hnodes.2 fun t => h.reads_moved⟩

theorem sets_new (h : Labeled commands i name l l') :
    ∃ live, l'.liveIn i = .ok live ∧ l'.liveOut i = .ok live ∧
      (i < commands.length → l.liveIn i = .ok live) ∧ (i = commands.length → live = ∅) := by
  have hp : i < l'.sets.length := by
    rw [length_sets h.after, List.length_insertIdx_of_le_length h.le]
    exact Nat.lt_succ_of_le h.le
  obtain ⟨live, hin, hmem⟩ := exists_item_set LiveSets.liveIn hp
  obtain ⟨live', hout, hmem'⟩ := exists_item_set LiveSets.liveOut hp
  have hlive : ∀ t, t ∈ live ↔ l.LiveBefore i t := fun t => (hmem t).trans h.liveBefore_new
  have hsame : live' = live := Std.ExtTreeSet.ext_mem fun t => by
    rw [hlive]
    exact (hmem' t).trans h.liveAfter_new
  refine ⟨live, hin, hsame ▸ hout, fun hi => ?_, fun hi => ?_⟩
  · rw [← length_sets h.before] at hi
    exact (map_item_congr hi hp fun t => h.liveBefore_new).symm.trans hin
  · apply Std.ExtTreeSet.ext_mem
    intro t
    rw [hlive]
    refine ⟨fun hbefore => ?_, fun ht => absurd ht Std.ExtTreeSet.not_mem_empty⟩
    have hlt := hbefore.lt_length h.before
    omega

end Labeled
end Liveness

namespace Run
open Liveness InterferenceGraph
variable {commands : List Command} {l : Liveness}

/-- The registers depend on the graph of a listing only. -/
theorem allocation_eq_of_graph_eq {commands' : List Command} {l' : Liveness} (h : Liveness.ofCommands commands = .ok l)
    (h' : Liveness.ofCommands commands' = .ok l') (hgraph : ofLiveness l' = ofLiveness l) (pool : RegisterPool) :
    (ofCommands commands' pool).map allocation = (ofCommands commands pool).map allocation := by
  simp only [ofCommands, h, h', hgraph, bind, Except.bind, pure, Except.pure]
  cases Allocation.color (ofLiveness l) pool <;> rfl

/-- A label that the listing does not define can be put in anywhere. All other instructions keep what they write and
read and what is live around them. At the label itself is live what was live on entry to its position, or nothing at the
end of the listing. The interference graph is the same, and with every pool the registers are, or the failure. -/
theorem unaffected_by_label (h : Liveness.ofCommands commands = .ok l) (i : Nat) (hi : i ≤ commands.length)
    (name : String) (hname : .label name ∉ commands) :
    ∃ l', Liveness.ofCommands (commands.insertIdx i (.label name)) = .ok l' ∧
      (∀ n < commands.length, l'.liveIn (moved i n) = l.liveIn n ∧ l'.liveOut (moved i n) = l.liveOut n ∧
        l'.defs (moved i n) = l.defs n ∧ l'.uses (moved i n) = l.uses n) ∧
      (∃ live, l'.liveIn i = .ok live ∧ l'.liveOut i = .ok live ∧
        (i < commands.length → l.liveIn i = .ok live) ∧ (i = commands.length → live = ∅)) ∧
      ofLiveness l' = ofLiveness l ∧
      ∀ pool, (ofCommands (commands.insertIdx i (.label name)) pool).map allocation =
        (ofCommands commands pool).map allocation := by
  obtain ⟨l', h'⟩ := exists_ofCommands_insertIdx h hi hname
  have hl : Labeled commands i name l l' := ⟨hi, hname, h, h'⟩
  have hgraph := hl.ofLiveness_eq
  exact ⟨l', h', fun n hn => hl.sets_moved hn, hl.sets_new, hgraph, allocation_eq_of_graph_eq h h' hgraph⟩

/-- Doubles a temporary until it is zero. -/
def doublingLoop : List Command :=
  [.label "again", .compute .add ⟨0⟩ ⟨0⟩ ⟨0⟩, .jumpIfZero ⟨0⟩ "end", .jump "again", .label "end", .print ⟨1⟩]

/-- A label between a test and the jump behind it moves the jump and the target of the test. -/
theorem doublingLoop_with_label : ∃ l l', Liveness.ofCommands doublingLoop = .ok l ∧
    Liveness.ofCommands [.label "again", .compute .add ⟨0⟩ ⟨0⟩ ⟨0⟩, .jumpIfZero ⟨0⟩ "end", .label "more", .jump "again",
      .label "end", .print ⟨1⟩] = .ok l' ∧
    l'.liveOut 2 = l.liveOut 2 ∧ l'.liveIn 3 = l.liveIn 3 ∧ l'.liveIn 4 = l.liveIn 3 ∧ l'.liveIn 6 = l.liveIn 5 ∧
    ofLiveness l' = ofLiveness l := by
  have hok : ∃ l ∈ (Liveness.ofCommands doublingLoop).toOption, l.size = 6 := by decide +kernel
  obtain ⟨l, hl, _⟩ := exists_ok_of_toOption hok
  obtain ⟨l', hl', hmoved, ⟨live, hlabel, _, hjump, _⟩, hgraph, _⟩ :=
    unaffected_by_label hl 3 (by decide) "more" (by decide)
  refine ⟨l, l', hl, hl', (hmoved 2 (by decide)).2.1, ?_, (hmoved 3 (by decide)).1, (hmoved 5 (by decide)).1, hgraph⟩
  rw [hlabel, hjump (by decide)]

end Run
end RegisterColoring

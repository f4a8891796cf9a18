import RegisterColoring.Liveness
import RegisterColoring.Proofs.Flow

/-! What the analysis knows at each position of a listing. Main statements: the live sets solve both flow
equations, and are part of every other solution. -/
namespace RegisterColoring

namespace FlowNode
open LiveSets

private theorem getElem?_sweepFrom (old : List LiveSets) (nodes : List FlowNode) (position i : Nat) :
    (sweepFrom old position nodes)[i]? = nodes[i]?.map (·.transfer fun s =>
      if position + i < s then liveInAt (sweepFrom old position nodes) (s - position)
      else liveInAt old s) := by
  induction nodes generalizing position i with
  | nil => simp [sweepFrom]
  | cons node rest ih =>
    -- later positions count from one further on, and have the head of the sets in front of them
    have hshift : ∀ s, position < s → liveInAt (sweepFrom old (position + 1) rest) (s - (position + 1)) =
        liveInAt (sweepFrom old position (node :: rest)) (s - position) := by
      intro s hs
      rw [show s - position = s - (position + 1) + 1 by omega, sweepFrom, liveInAt_cons_succ]
    cases i with
    | zero =>
      refine congrArg (some ∘ node.transfer) (funext fun s => ?_)
      change _ = if position < s then _ else _
      split
      · next hs => exact hshift s hs
      · rfl
    | succ i =>
      refine (ih (position + 1) i).trans ?_
      rw [List.getElem?_cons_succ, show position + 1 + i = position + (i + 1) by omega]
      refine Option.map_congr fun later _ => congrArg later.transfer (funext fun s => ?_)
      split
      · next hs => exact hshift s (by omega)
      · rfl

/-- A pass computes a position from what it has found for later ones, and from the old sets of the rest. -/
theorem getElem?_sweep (nodes : List FlowNode) (old : List LiveSets) (n : Nat) :
    (sweep nodes old)[n]? = nodes[n]?.map (·.transfer fun s =>
      if n < s then liveInAt (sweep nodes old) s else liveInAt old s) := by
  simpa [sweep] using getElem?_sweepFrom old nodes 0 n

/-- Every temporary that the sets keep alive satisfies a property of its position. -/
def Justified (P : Nat → Temp → Prop) (sets : List LiveSets) : Prop :=
  ∀ n t, t ∈ liveInAt sets n → P n t

/-- A property that reading gives and that goes back from a position to one before it, unless the temporary
is written there. -/
structure Backward (nodes : List FlowNode) (P : Nat → Temp → Prop) : Prop where
  read : ∀ (n : Nat) node t, nodes[n]? = some node → t ∈ node.uses → P n t
  pass : ∀ (n : Nat) node s t, nodes[n]? = some node → s ∈ node.successors → P s t → t ∉ node.defs → P n t

private theorem sweep_justified {nodes : List FlowNode} {P : Nat → Temp → Prop} (hP : Backward nodes P)
    {old : List LiveSets} (h : Justified P old) : Justified P (sweep nodes old) := by
  intro n t
  -- the pass goes from the last position to the first
  induction hk : nodes.length - n using Nat.strongRecOn generalizing n with
  | _ k ih =>
    intro ht
    rw [liveInAt, getElem?_sweep] at ht
    cases hn : nodes[n]? with
    | none => simp [hn] at ht
    | some node =>
      simp only [hn, Option.map_some, Option.getD_some] at ht
      rcases mem_liveIn_transfer.mp ht with hread | ⟨hout, hdef⟩
      · exact hP.read n node t hn hread
      · obtain ⟨s, hs, hm⟩ := mem_liveOut_transfer.mp hout
        have hlt : n < nodes.length := (List.getElem?_eq_some_iff.mp hn).1
        refine hP.pass n node s t hn hs ?_ hdef
        split at hm
        · exact ih (nodes.length - s) (by omega) s rfl hm
        · exact h s t hm

private theorem passes_justified {nodes : List FlowNode} {P : Nat → Temp → Prop} (hP : Backward nodes P)
    (state : Rising nodes) (h : Justified P state.sets) :
    Justified P (state.passes.getLastD state.sets) := by
  fun_induction Rising.passes state with
  | case1 state next hsame => exact h
  | case2 state next hmore ih =>
    rw [List.getLastD_cons]
    exact ih (sweep_justified hP h)

private theorem unswept_justified (nodes : List FlowNode) (P : Nat → Temp → Prop) :
    Justified P (unswept nodes) := by
  intro n t ht
  rw [liveInAt, unswept, List.getElem?_map] at ht
  cases hn : nodes[n]? with
  | none => simp [hn] at ht
  | some node => simp [hn, LiveSets.empty] at ht

end FlowNode

namespace Liveness
open FlowNode LiveSets
variable {l : Liveness} {n s : Nat} {t : Temp}

/-- The instruction at a position reads the temporary. -/
def Reads (l : Liveness) (n : Nat) (t : Temp) : Prop := ∃ set, l.uses n = .ok set ∧ t ∈ set

/-- The instruction at a position writes the temporary. -/
def Writes (l : Liveness) (n : Nat) (t : Temp) : Prop := ∃ set, l.defs n = .ok set ∧ t ∈ set

/-- Control can go from the first position to the second. -/
def Follows (l : Liveness) (n s : Nat) : Prop := ∃ positions, l.successors n = .ok positions ∧ s ∈ positions

/-- The temporary is live on entry to the position. -/
def LiveBefore (l : Liveness) (n : Nat) (t : Temp) : Prop := ∃ set, l.liveIn n = .ok set ∧ t ∈ set

/-- The temporary is live on exit from the position. -/
def LiveAfter (l : Liveness) (n : Nat) (t : Temp) : Prop := ∃ set, l.liveOut n = .ok set ∧ t ∈ set

private theorem exists_item {α β : Type} {items : List α} {f : α → β} {p : β → Prop} :
    (∃ y, (item items n).map f = .ok y ∧ p y) ↔ ∃ x, items[n]? = some x ∧ p (f x) := by
  unfold item
  cases items[n]? <;> simp [Except.map]

theorem map_item_eq_ok {α β : Type} {items : List α} {f : α → β} {x : α} (hx : items[n]? = some x) :
    (item items n).map f = .ok (f x) := by
  simp [item, hx, Except.map]

theorem reads_iff : l.Reads n t ↔ ∃ node, l.nodes[n]? = some node ∧ t ∈ node.uses := exists_item

theorem writes_iff : l.Writes n t ↔ ∃ node, l.nodes[n]? = some node ∧ t ∈ node.defs := exists_item

theorem follows_iff : l.Follows n s ↔ ∃ node, l.nodes[n]? = some node ∧ s ∈ node.successors := exists_item

theorem liveAfter_iff : l.LiveAfter n t ↔ ∃ sets, l.sets[n]? = some sets ∧ t ∈ sets.liveOut := exists_item

theorem liveBefore_iff : l.LiveBefore n t ↔ t ∈ liveInAt l.sets n := by
  refine exists_item.trans ?_
  unfold liveInAt
  cases l.sets[n]? <;> simp

theorem mem_temps : t ∈ l.temps ↔ ∃ n, l.Reads n t ∨ l.Writes n t := by
  simp only [temps, FlowNode.mem_temps, reads_iff, writes_iff, List.mem_iff_getElem?]
  constructor
  · rintro ⟨node, ⟨n, hn⟩, hmention⟩
    exact ⟨n, hmention.symm.imp (fun hr => ⟨node, hn, hr⟩) fun hw => ⟨node, hn, hw⟩⟩
  · rintro ⟨n, ⟨node, hn, hr⟩ | ⟨node, hn, hw⟩⟩
    · exact ⟨node, ⟨n, hn⟩, .inr hr⟩
    · exact ⟨node, ⟨n, hn⟩, .inl hw⟩

variable {commands : List Command}

theorem ofCommands_eq_ok (h : ofCommands commands = .ok l) :
    ∃ labels, LabelIndex.ofCommands commands = .ok labels ∧
      FlowNode.ofCommands labels commands = .ok l.nodes ∧ l = ofNodes l.nodes := by
  obtain ⟨labels, hl, h⟩ := bind_eq_ok.mp h
  obtain ⟨nodes, hn, h⟩ := bind_eq_ok.mp h
  cases h
  exact ⟨labels, hl, hn, rfl⟩

theorem ofCommands_eq_error {fault : Fault} (h : ofCommands commands = .error fault) :
    LabelIndex.ofCommands commands = .error fault ∨
      ∃ labels, LabelIndex.ofCommands commands = .ok labels ∧ FlowNode.ofCommands labels commands = .error fault := by
  rcases bind_eq_error.mp h with hl | ⟨labels, hl, h⟩
  · exact .inl hl
  · rcases bind_eq_error.mp h with hn | ⟨nodes, _, h⟩
    · exact .inr ⟨labels, hl, hn⟩
    · cases h

/-- A further pass would find the same. -/
theorem sweep_sets (h : ofCommands commands = .ok l) : sweep l.nodes l.sets = l.sets := by
  obtain ⟨_, _, _, hl⟩ := ofCommands_eq_ok h
  rw [hl]
  exact Rising.sweep_last (Rising.initial l.nodes)

/-- After all passes every position has the sets that its successors call for. -/
theorem getElem?_sets (h : ofCommands commands = .ok l) (n : Nat) :
    l.sets[n]? = l.nodes[n]?.map (·.transfer (liveInAt l.sets)) := by
  -- for a further pass it would not matter which positions it has been to
  have hn := getElem?_sweep l.nodes l.sets n
  simpa only [sweep_sets h, ite_self] using hn

variable {c : Command}

theorem reads_iff_uses (h : ofCommands commands = .ok l) (hc : commands[n]? = some c) :
    l.Reads n t ↔ t ∈ c.uses := by
  obtain ⟨_, hl, hn, _⟩ := ofCommands_eq_ok h
  obtain ⟨node, hnode, _, huses, _⟩ := getElem?_ofCommands hl hn hc
  simp [reads_iff, hnode, huses]

theorem writes_iff_def (h : ofCommands commands = .ok l) (hc : commands[n]? = some c) :
    l.Writes n t ↔ c.def? = some t := by
  obtain ⟨_, hl, hn, _⟩ := ofCommands_eq_ok h
  obtain ⟨node, hnode, hdefs, _, _⟩ := getElem?_ofCommands hl hn hc
  simp [writes_iff, hnode, hdefs]

private theorem exists_command_of_node (h : ofCommands commands = .ok l) {node : FlowNode}
    (hnode : l.nodes[n]? = some node) : ∃ c, commands[n]? = some c := by
  obtain ⟨_, _, hn, _⟩ := ofCommands_eq_ok h
  have hlt : n < commands.length := length_ofCommands hn ▸ (List.getElem?_eq_some_iff.mp hnode).1
  exact ⟨commands[n], List.getElem?_eq_getElem hlt⟩

theorem Writes.exists_command (h : ofCommands commands = .ok l) (hw : l.Writes n t) :
    ∃ c, commands[n]? = some c ∧ c.def? = some t := by
  obtain ⟨node, hnode, _⟩ := writes_iff.mp hw
  obtain ⟨c, hc⟩ := exists_command_of_node h hnode
  exact ⟨c, hc, (writes_iff_def h hc).mp hw⟩

theorem Reads.exists_command (h : ofCommands commands = .ok l) (hr : l.Reads n t) :
    ∃ c, commands[n]? = some c ∧ t ∈ c.uses := by
  obtain ⟨node, hnode, _⟩ := reads_iff.mp hr
  obtain ⟨c, hc⟩ := exists_command_of_node h hnode
  exact ⟨c, hc, (reads_iff_uses h hc).mp hr⟩

theorem reads_iff_command (h : ofCommands commands = .ok l) :
    l.Reads n t ↔ ∃ c, commands[n]? = some c ∧ t ∈ c.uses :=
  ⟨fun hr => hr.exists_command h, fun ⟨_, hc, ht⟩ => (reads_iff_uses h hc).mpr ht⟩

theorem writes_iff_command (h : ofCommands commands = .ok l) :
    l.Writes n t ↔ ∃ c, commands[n]? = some c ∧ c.def? = some t :=
  ⟨fun hw => hw.exists_command h, fun ⟨_, hc, ht⟩ => (writes_iff_def h hc).mpr ht⟩

/-- The temporaries that the analysis meets are those of the instructions. -/
theorem mem_temps_iff (h : ofCommands commands = .ok l) : t ∈ l.temps ↔ ∃ c ∈ commands, t ∈ c.temps := by
  rw [mem_temps]
  constructor
  · rintro ⟨n, hr | hw⟩
    · obtain ⟨c, hc, ht⟩ := hr.exists_command h
      exact ⟨c, List.mem_of_getElem? hc, List.mem_append_right _ ht⟩
    · obtain ⟨c, hc, ht⟩ := hw.exists_command h
      exact ⟨c, List.mem_of_getElem? hc, List.mem_append_left _ (Option.mem_toList.mpr ht)⟩
  · rintro ⟨c, hc, ht⟩
    obtain ⟨n, hn⟩ := List.mem_iff_getElem?.mp hc
    refine ⟨n, (List.mem_append.mp ht).symm.imp (fun hu => ?_) fun hd => ?_⟩
    · exact (reads_iff_uses h hn).mpr hu
    · exact (writes_iff_def h hn).mpr (Option.mem_toList.mp hd)

theorem follows_iff_flow (h : ofCommands commands = .ok l) (hc : commands[n]? = some c) :
    l.Follows n s ↔ (c.fallsThrough = true ∧ s = n + 1 ∧ s < commands.length) ∨
      ∃ name, c.target? = some name ∧ commands[s]? = some (.label name) := by
  obtain ⟨_, hl, hn, _⟩ := ofCommands_eq_ok h
  obtain ⟨node, hnode, _, _, hsuccessors⟩ := getElem?_ofCommands hl hn hc
  simp [follows_iff, hnode, hsuccessors]

theorem follows_iff_command (h : ofCommands commands = .ok l) :
    l.Follows n s ↔ ∃ c, commands[n]? = some c ∧ ((c.fallsThrough = true ∧ s = n + 1 ∧ s < commands.length) ∨
      ∃ name, c.target? = some name ∧ commands[s]? = some (.label name)) := by
  constructor
  · intro hf
    obtain ⟨node, hnode, _⟩ := follows_iff.mp hf
    obtain ⟨c, hc⟩ := exists_command_of_node h hnode
    exact ⟨c, hc, (follows_iff_flow h hc).mp hf⟩
  · rintro ⟨c, hc, hflow⟩
    exact (follows_iff_flow h hc).mpr hflow

theorem size_eq (h : ofCommands commands = .ok l) : l.size = commands.length := by
  obtain ⟨_, _, hn, _⟩ := ofCommands_eq_ok h
  exact length_ofCommands hn

/-- There are sets for exactly the positions of the listing. -/
theorem length_sets (h : ofCommands commands = .ok l) : l.sets.length = commands.length := by
  obtain ⟨_, _, hn, _⟩ := ofCommands_eq_ok h
  rw [← length_ofCommands hn, ← sweep_sets h]
  exact length_sweepFrom _ _ _

theorem LiveBefore.lt_length (h : ofCommands commands = .ok l) (live : l.LiveBefore n t) :
    n < commands.length := by
  rw [← length_sets h]
  apply Nat.lt_of_not_le
  intro hle
  rw [liveBefore_iff, LiveSets.liveInAt, List.getElem?_eq_none hle] at live
  simp at live

/-- A temporary is live on exit exactly if it is live on entry to a position that can follow. -/
theorem liveAfter_iff_follows (h : ofCommands commands = .ok l) :
    l.LiveAfter n t ↔ ∃ s, l.Follows n s ∧ l.LiveBefore s t := by
  simp only [liveAfter_iff, follows_iff, liveBefore_iff, getElem?_sets h n]
  cases l.nodes[n]? with
  | none => simp
  | some node => simp [mem_liveOut_transfer]

/-- A temporary is live on entry exactly if it is read, or live on exit and not written. -/
theorem liveBefore_iff_reads (h : ofCommands commands = .ok l) :
    l.LiveBefore n t ↔ l.Reads n t ∨ l.LiveAfter n t ∧ ¬ l.Writes n t := by
  simp only [liveAfter_iff, reads_iff, writes_iff, liveBefore_iff]
  rw [liveInAt, getElem?_sets h n]
  cases l.nodes[n]? with
  | none => simp
  | some node => simp [mem_liveIn_transfer]

theorem liveBefore_of_mem_uses (h : ofCommands commands = .ok l) (hc : commands[n]? = some c)
    (ht : t ∈ c.uses) : l.LiveBefore n t :=
  (liveBefore_iff_reads h).mpr (.inl ((reads_iff_uses h hc).mpr ht))

theorem liveBefore_of_follows (h : ofCommands commands = .ok l) (hf : l.Follows n s) (hw : ¬ l.Writes n t)
    (live : l.LiveBefore s t) : l.LiveBefore n t :=
  (liveBefore_iff_reads h).mpr (.inr ⟨(liveAfter_iff_follows h).mpr ⟨s, hf, live⟩, hw⟩)

/-- Whatever reading gives and control passes back, up to a write, holds of all that is live on entry. -/
theorem LiveBefore.induction (h : ofCommands commands = .ok l) {P : Nat → Temp → Prop}
    (read : ∀ n t, l.Reads n t → P n t)
    (pass : ∀ n s t, l.Follows n s → P s t → ¬ l.Writes n t → P n t)
    (live : l.LiveBefore n t) : P n t := by
  obtain ⟨_, _, _, hl⟩ := ofCommands_eq_ok h
  have hP : Backward l.nodes P := {
    read := fun n node t hn ht => read n t (reads_iff.mpr ⟨node, hn, ht⟩)
    pass := fun n node s t hn hs hp hd => pass n s t (follows_iff.mpr ⟨node, hn, hs⟩) hp fun hw => by
      obtain ⟨other, hother, hm⟩ := writes_iff.mp hw
      cases hn.symm.trans hother
      exact hd hm }
  have hlast : Justified P (ofNodes l.nodes).sets :=
    passes_justified hP (Rising.initial l.nodes) (unswept_justified l.nodes P)
  rw [← hl] at hlast
  exact hlast n t (liveBefore_iff.mp live)

/-- What is live somewhere is read somewhere. -/
theorem LiveBefore.exists_reads (h : ofCommands commands = .ok l) (live : l.LiveBefore n t) :
    ∃ p, l.Reads p t :=
  LiveBefore.induction h (P := fun _ t => ∃ p, l.Reads p t) (fun n _ hr => ⟨n, hr⟩)
    (fun _ _ _ _ hs _ => hs) live

theorem LiveAfter.exists_reads (h : ofCommands commands = .ok l) (live : l.LiveAfter n t) : ∃ p, l.Reads p t := by
  obtain ⟨_, _, hs⟩ := (liveAfter_iff_follows h).mp live
  exact hs.exists_reads h

end Liveness
end RegisterColoring

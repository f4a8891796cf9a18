import Mathlib.Data.Finset.Max
import Mathlib.Order.Lattice.Nat
import RegisterColoring.Proofs.Core
import RegisterColoring.Proofs.SharedRegisters

/-! Register pressure. Main statement: a listing that writes each temporary once, and before any use, gets its
registers exactly if at no position more temporaries are needed at once than there are registers. -/
namespace RegisterColoring
open Relation InterferenceGraph

namespace Liveness
variable {l : Liveness} {n m p k : Nat} {t u : Temp} {commands : List Command}

/-- Every position can be reached from the first, no temporary is written at two positions, and none is needed
from outside. -/
structure SingleAssignment (l : Liveness) : Prop where
  reached : ∀ n < l.size, ReflTransGen l.Follows 0 n
  once : ∀ {n m t}, l.Writes n t → l.Writes m t → n = m
  closed : ∀ t, ¬ l.LiveBefore 0 t

theorem Writes.lt_size (hw : l.Writes n t) : n < l.size := by
  obtain ⟨node, hnode, _⟩ := writes_iff.mp hw
  exact (List.getElem?_eq_some_iff.mp hnode).1

theorem Writes.unique (h : ofCommands commands = .ok l) (ht : l.Writes n t) (hu : l.Writes n u) : t = u := by
  obtain ⟨c, hc, hd⟩ := ht.exists_command h
  rw [writes_iff_def h hc, hd] at hu
  exact Option.some.inj hu

/-- Control comes from the first position to another in exactly so many steps. -/
inductive ReachedIn (l : Liveness) : Nat → Nat → Prop
  | entry : l.ReachedIn 0 0
  | step {k n s : Nat} : l.ReachedIn k n → l.Follows n s → l.ReachedIn (k + 1) s

theorem exists_reachedIn (h : ReflTransGen l.Follows 0 n) : ∃ k, l.ReachedIn k n := by
  induction h with
  | refl => exact ⟨0, .entry⟩
  | tail _ hstep ih =>
    obtain ⟨k, hk⟩ := ih
    exact ⟨k + 1, hk.step hstep⟩

/-- What is live at the end of a way into the listing was written on that way. -/
theorem ReachedIn.exists_writes (h : ofCommands commands = .ok l) (hclosed : ∀ t, ¬ l.LiveBefore 0 t)
    (hk : l.ReachedIn k n) (live : l.LiveBefore n t) : ∃ i p, i < k ∧ l.ReachedIn i p ∧ l.Writes p t := by
  induction hk with
  | entry => exact absurd live (hclosed t)
  | @step k n s hk hstep ih =>
    by_cases hw : l.Writes n t
    · exact ⟨k, n, Nat.lt_succ_self k, hk, hw⟩
    · have hafter : l.LiveAfter n t := (liveAfter_iff_follows h).mpr ⟨s, hstep, live⟩
      obtain ⟨i, p, hi, hp⟩ := ih ((liveBefore_iff_reads h).mpr (.inr ⟨hafter, hw⟩))
      exact ⟨i, p, Nat.lt_succ_of_lt hi, hp⟩

/-- The number of steps of a shortest way to a position. -/
noncomputable def depth (l : Liveness) (n : Nat) : Nat := sInf {k | l.ReachedIn k n}

namespace SingleAssignment

theorem reachedIn_depth (hs : l.SingleAssignment) (hn : n < l.size) : l.ReachedIn (l.depth n) n :=
  Nat.sInf_mem (exists_reachedIn (hs.reached n hn))

/-- Where a temporary is live, its one write lies less deep. -/
theorem depth_lt (h : ofCommands commands = .ok l) (hs : l.SingleAssignment) (hn : n < l.size)
    (live : l.LiveBefore n t) (hw : l.Writes p t) : l.depth p < l.depth n := by
  obtain ⟨i, q, hi, hq, hwq⟩ := (hs.reachedIn_depth hn).exists_writes h hs.closed live
  rw [hs.once hw hwq]
  exact Nat.lt_of_le_of_lt (Nat.sInf_le hq) hi

theorem exists_writes (h : ofCommands commands = .ok l) (hs : l.SingleAssignment) (hr : l.Reads n t) :
    ∃ p, l.Writes p t := by
  obtain ⟨node, hnode, _⟩ := reads_iff.mp hr
  have hn : n < l.size := (List.getElem?_eq_some_iff.mp hnode).1
  obtain ⟨_, p, _, _, hw⟩ := (hs.reachedIn_depth hn).exists_writes h hs.closed
    ((liveBefore_iff_reads h).mpr (.inl hr))
  exact ⟨p, hw⟩

/-- Temporaries that are needed after a position, or written there, interfere. -/
theorem interfere (h : ofCommands commands = .ok l) (hs : l.SingleAssignment) (hn : n < l.size) (htu : t ≠ u)
    (ht : l.LiveAfter n t ∨ l.Writes n t) (hu : l.LiveAfter n u ∨ l.Writes n u) :
    u ∈ (ofLiveness l).neighbors t := by
  rcases ht with ht | ht <;> rcases hu with hu | hu
  · rcases interfere_or_liveBefore h htu ht hu with hi | ⟨_, htb, hub⟩
    · exact hi
    · rcases interfere_or_liveBefore_back h htu htb hub (hs.reached n hn) with hi | ⟨hentry, _⟩
      · exact hi
      · exact absurd hentry (hs.closed t)
  · exact mem_neighbors_ofLiveness.mpr ⟨htu, n, .inr ⟨hu, ht⟩⟩
  · exact mem_neighbors_ofLiveness.mpr ⟨htu, n, .inl ⟨ht, hu⟩⟩
  · exact absurd (ht.unique h hu) htu

end SingleAssignment
end Liveness

namespace Allocation
variable {g : InterferenceGraph} {a : Allocation} {s : TempSet}

/-- Vertices that all interfere with each other need a register each. -/
theorem Valid.size_le_of_clique (hv : a.Valid g) (hvertices : ∀ t, t ∈ s → t ∈ g.vertices)
    (hclique : ∀ t u, t ∈ s → u ∈ s → t ≠ u → u ∈ g.neighbors t) : s.size ≤ a.pool.size := by
  have hcolored (t : Temp) (ht : t ∈ s) : ∃ index, a.assignment[t]? = some index := by
    have hsome := (hv.mem_iff t).mpr (hvertices t ht)
    rw [Std.ExtTreeMap.mem_iff_isSome_getElem?] at hsome
    exact Option.isSome_iff_exists.mp hsome
  choose! index hindex using hcolored
  have hnodup : (s.toList.map index).Nodup := by
    rw [List.Nodup, List.pairwise_map]
    apply s.ordered_toList.imp_of_mem
    intro t u ht hu hlt hsame
    rw [Std.ExtTreeSet.mem_toList] at ht hu
    have htu : t ≠ u := Temp.ne_of_lt (Temp.compare_eq_lt.mp hlt)
    exact hv.proper.differ (hclique t u ht hu htu) (hindex t ht) (hsame ▸ hindex u hu)
  have hbelow : s.toList.map index ⊆ List.range a.pool.size := by
    intro i hi
    obtain ⟨t, ht, rfl⟩ := List.mem_map.mp hi
    exact List.mem_range.mpr (hv.proper.below (hindex t (Std.ExtTreeSet.mem_toList.mp ht)))
  have hlen := (List.subperm_of_subset hnodup hbelow).length_le
  simpa using hlen

end Allocation

namespace Liveness
variable {l : Liveness} {n p k : Nat} {t u : Temp} {commands : List Command}

/-- At every position at most `k` temporaries are needed after it or written there. -/
def PressureWithin (l : Liveness) (k : Nat) : Prop :=
  ∀ n < l.size, ∃ after written, l.liveOut n = .ok after ∧ l.defs n = .ok written ∧ (after ∪ written).size ≤ k

theorem exists_sets (h : ofCommands commands = .ok l) (hn : n < l.size) :
    ∃ after written, l.liveOut n = .ok after ∧ l.defs n = .ok written ∧
      ∀ t, t ∈ after ∪ written ↔ l.LiveAfter n t ∨ l.Writes n t := by
  obtain ⟨node, hnode⟩ : ∃ node, l.nodes[n]? = some node := ⟨_, List.getElem?_eq_getElem hn⟩
  obtain ⟨sets, hsets⟩ : ∃ sets, l.sets[n]? = some sets :=
    ⟨_, List.getElem?_eq_getElem (by rwa [length_sets h, ← size_eq h])⟩
  refine ⟨sets.liveOut, node.defs, ?_, ?_, fun t => ?_⟩
  · simp [liveOut, item, hsets, Except.map]
  · simp [defs, item, hnode, Except.map]
  · rw [Std.ExtTreeSet.mem_union_iff, liveAfter_iff, writes_iff, hsets, hnode]
    simp

namespace SingleAssignment
variable {s : TempSet}

/-- Of any temporaries, one is written deepest. -/
theorem exists_deepest (h : ofCommands commands = .ok l) (hs : l.SingleAssignment) (hne : s ≠ ∅)
    (hvertices : ∀ t, t ∈ s → t ∈ (ofLiveness l).vertices) :
    ∃ t p, t ∈ s ∧ l.Writes p t ∧ ∀ u q, u ∈ s → l.Writes q u → l.depth q ≤ l.depth p := by
  have hwritten (t : Temp) (ht : t ∈ s) : ∃ p, l.Writes p t := by
    obtain ⟨n, hr | hw⟩ := (mem_vertices_ofLiveness h).mp (hvertices t ht)
    · exact hs.exists_writes h hr
    · exact ⟨n, hw⟩
  choose! site hsite using hwritten
  have hnonempty : s.toList.toFinset.Nonempty := by
    rw [List.toFinset_nonempty_iff]
    exact mt Std.ExtTreeSet.toList_eq_nil_iff.mp hne
  obtain ⟨t, ht, hmost⟩ := Finset.exists_max_image _ (fun t => l.depth (site t)) hnonempty
  simp only [List.mem_toFinset, Std.ExtTreeSet.mem_toList] at ht hmost
  refine ⟨t, site t, ht, hsite t ht, fun u q hu hw => ?_⟩
  rw [hs.once hw (hsite u hu)]
  exact hmost u hu

/-- A neighbour that is written no deeper is live where the temporary is written: the other way round, the
temporary would be live where its neighbour is written, and so its own write would lie less deep. -/
theorem liveAfter_of_depth_le (h : ofCommands commands = .ok l) (hs : l.SingleAssignment) (hw : l.Writes p t)
    (hu : u ∈ (ofLiveness l).neighbors t) (hdepth : ∀ q, l.Writes q u → l.depth q ≤ l.depth p) :
    l.LiveAfter p u := by
  obtain ⟨htu, n, ⟨hwt, hlive⟩ | ⟨hwu, hlive⟩⟩ := mem_neighbors_ofLiveness.mp hu
  · rwa [hs.once hw hwt]
  · have hbefore : l.LiveBefore n t :=
      (liveBefore_iff_reads h).mpr (.inr ⟨hlive, fun hwt => htu (hwt.unique h hwu)⟩)
    have hless := hs.depth_lt h hwu.lt_size hbefore hw
    have hmost := hdepth n hwu
    omega

/-- Where the pressure is low, no vertices are crowded: the one of them that is written deepest would have all
its neighbours live at its write. -/
theorem eq_empty_of_crowded (h : ofCommands commands = .ok l) (hs : l.SingleAssignment)
    (hk : l.PressureWithin k) (hcrowd : (ofLiveness l).Crowded k s) : s = ∅ := by
  by_contra hne
  obtain ⟨t, p, ht, hw, hdeepest⟩ := hs.exists_deepest h hne hcrowd.vertices
  obtain ⟨after, written, hafter, hwritten, hsize⟩ := hk p hw.lt_size
  obtain ⟨after', written', hafter', hwritten', hmem⟩ := exists_sets h hw.lt_size
  cases hafter.symm.trans hafter'
  cases hwritten.symm.trans hwritten'
  have hlive : ∀ u, u ∈ (ofLiveness l).neighbors t ∩ s → u ∈ after ∪ written := by
    intro u hu
    obtain ⟨hneighbor, hus⟩ := Std.ExtTreeSet.mem_inter_iff.mp hu
    exact (hmem u).mpr (.inl (hs.liveAfter_of_depth_le h hw hneighbor fun q => hdeepest u q hus))
  have hself : t ∉ (ofLiveness l).neighbors t ∩ s := fun hm =>
    (simple_ofLiveness l).irrefl (Std.ExtTreeSet.mem_inter_iff.mp hm).1
  have hfewer := TempSet.size_lt_of_subset hlive ((hmem t).mpr (.inr hw)) hself
  have hmany := hcrowd.neighbors t ht
  omega

end SingleAssignment
end Liveness

namespace Run
variable {commands : List Command} {pool : RegisterPool} {l : Liveness}

theorem exists_run_iff_color (h : Liveness.ofCommands commands = .ok l) :
    (∃ run, ofCommands commands pool = .ok run) ↔ ∃ a, Allocation.color (ofLiveness l) pool = .ok a := by
  unfold ofCommands
  rw [h]
  cases hc : Allocation.color (ofLiveness l) pool <;> simp [hc, bind, Except.bind, pure, Except.pure]

/-- If each temporary is written once, and nothing comes from outside, then a listing gets registers of a pool
exactly if the pressure at no position is higher than the number of registers. -/
theorem exists_run_iff_pressure (h : Liveness.ofCommands commands = .ok l) (hs : l.SingleAssignment)
    (pool : RegisterPool) :
    (∃ run, ofCommands commands pool = .ok run) ↔ l.PressureWithin pool.size := by
  rw [exists_run_iff_color h]
  constructor
  · rintro ⟨a, ha⟩ n hn
    obtain ⟨rfl, hv⟩ := Allocation.valid_of_color (simple_ofLiveness l) ha
    obtain ⟨after, written, hafter, hwritten, hmem⟩ := Liveness.exists_sets h hn
    refine ⟨after, written, hafter, hwritten, hv.size_le_of_clique (fun t ht => ?_) fun t u ht hu htu => ?_⟩
    · rw [mem_vertices_ofLiveness h]
      rcases (hmem t).mp ht with hlive | hw
      · obtain ⟨s, _, hs⟩ := (Liveness.liveAfter_iff_follows h).mp hlive
        obtain ⟨p, hr⟩ := hs.exists_reads h
        exact ⟨p, .inl hr⟩
      · exact ⟨n, .inr hw⟩
    · exact hs.interfere h hn htu ((hmem t).mp ht) ((hmem u).mp hu)
  · intro hpressure
    rw [Allocation.exists_color_iff (simple_ofLiveness l)]
    exact fun s => hs.eq_empty_of_crowded h hpressure

/-- A loop that waits for a number in memory to differ from the one in `t0`. -/
def polling : List Command :=
  [.const ⟨0⟩ 5, .label "loop", .load ⟨1⟩ (.global "n"), .compute .sub ⟨2⟩ ⟨1⟩ ⟨0⟩, .jumpIfZero ⟨2⟩ "loop",
    .ret (some ⟨0⟩)]

private theorem polling_singleAssignment (h : Liveness.ofCommands polling = .ok l)
    (hentry : (l.liveIn 0).toOption = some ∅) : l.SingleAssignment := by
  have hsize : l.size = 6 := Liveness.size_eq h
  constructor
  · intro n hn
    induction n with
    | zero => exact .refl
    | succ n ih =>
      have hfalls : ∀ n < 5, ∃ c ∈ polling[n]?, c.fallsThrough = true := by decide
      obtain ⟨c, hc, hfall⟩ := hfalls n (by omega)
      apply (ih (by omega)).tail
      exact (Liveness.follows_iff_flow h hc).mpr (.inl ⟨hfall, rfl, by rwa [← Liveness.size_eq h]⟩)
  · intro n m t hn hm
    have honce : ∀ n < 6, ∀ m < 6, ∀ t ∈ polling[n]?.bind Command.def?,
        polling[m]?.bind Command.def? = some t → n = m := by decide
    have hwrite {p : Nat} (hw : l.Writes p t) : p < 6 ∧ polling[p]?.bind Command.def? = some t := by
      obtain ⟨c, hc, hd⟩ := hw.exists_command h
      rw [hc, Option.bind_some]
      exact ⟨(List.getElem?_eq_some_iff.mp hc).1, hd⟩
    exact honce n (hwrite hn).1 m (hwrite hm).1 t (hwrite hn).2 (hwrite hm).2
  · rintro t ⟨live, hlive, ht⟩
    rw [hlive] at hentry
    cases hentry
    exact Std.ExtTreeSet.not_mem_empty ht

/-- Two registers do for its three temporaries, because no more than two are needed at once. -/
theorem polling_in_two_registers : ∃ l, Liveness.ofCommands polling = .ok l ∧ l.SingleAssignment ∧
    ∃ run, ofCommands polling ⟨["a", "b"], by decide, by decide⟩ = .ok run := by
  have hok : ∃ l ∈ (Liveness.ofCommands polling).toOption, (l.liveIn 0).toOption = some ∅ ∧
      ∀ n < l.size, ∃ after ∈ (l.liveOut n).toOption, ∃ written ∈ (l.defs n).toOption,
        (after ∪ written).size ≤ 2 := by decide +kernel
  obtain ⟨l, hl, hentry, hpressure⟩ := exists_ok_of_toOption hok
  have hs := polling_singleAssignment hl hentry
  refine ⟨l, hl, hs, (exists_run_iff_pressure hl hs _).mpr fun n hn => ?_⟩
  obtain ⟨after, hafter, hrest⟩ := exists_ok_of_toOption (hpressure n hn)
  obtain ⟨written, hwritten, hsize⟩ := exists_ok_of_toOption hrest
  exact ⟨after, written, hafter, hwritten, hsize⟩

end Run
end RegisterColoring

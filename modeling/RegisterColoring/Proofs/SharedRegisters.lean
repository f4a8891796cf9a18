import Mathlib.Logic.Relation
import RegisterColoring.Proofs.Coloring
import RegisterColoring.Run

/-! Which temporaries may share a register. Main statements: two that are live at the same point share one
only if both hold values from outside the listing there, and where control can come, two that do not interfere
were live at the start already. -/
namespace RegisterColoring
open Relation InterferenceGraph

namespace Liveness
variable {l : Liveness} {n p : Nat} {a b t : Temp} {commands : List Command}

/-- Two temporaries live on exit interfere, or come in with the position that leaves them alone. -/
theorem interfere_or_liveBefore (h : ofCommands commands = .ok l) (hab : a ≠ b)
    (ha : l.LiveAfter n a) (hb : l.LiveAfter n b) :
    b ∈ (ofLiveness l).neighbors a ∨
      (¬ l.Writes n a ∧ ¬ l.Writes n b) ∧ l.LiveBefore n a ∧ l.LiveBefore n b := by
  by_cases hwa : l.Writes n a
  · exact .inl (mem_neighbors_ofLiveness.mpr ⟨hab, n, .inl ⟨hwa, hb⟩⟩)
  · by_cases hwb : l.Writes n b
    · exact .inl (mem_neighbors_ofLiveness.mpr ⟨hab, n, .inr ⟨hwb, ha⟩⟩)
    · exact .inr ⟨⟨hwa, hwb⟩, (liveBefore_iff_reads h).mpr (.inr ⟨ha, hwa⟩),
        (liveBefore_iff_reads h).mpr (.inr ⟨hb, hwb⟩)⟩

/-- Two temporaries live on entry interfere, or are live on entry to every position that leads there. -/
theorem interfere_or_liveBefore_back (h : ofCommands commands = .ok l) (hab : a ≠ b)
    (ha : l.LiveBefore n a) (hb : l.LiveBefore n b) (path : ReflTransGen l.Follows p n) :
    b ∈ (ofLiveness l).neighbors a ∨ l.LiveBefore p a ∧ l.LiveBefore p b := by
  -- from the end of the path to its start: what is live where a step leads is live on exit before it
  induction path using ReflTransGen.head_induction_on with
  | refl => exact .inr ⟨ha, hb⟩
  | head hstep _ ih =>
    rcases ih with hi | ⟨hsa, hsb⟩
    · exact .inl hi
    · have hafter := interfere_or_liveBefore h hab ((liveAfter_iff_follows h).mpr ⟨_, hstep, hsa⟩)
        ((liveAfter_iff_follows h).mpr ⟨_, hstep, hsb⟩)
      exact hafter.imp id And.right

/-- On entry to a position both temporaries hold what they held outside the listing: they are live on every
way to it, and no position on the way writes either. Nor does any position anywhere write one of them while
the other is live on exit from it. -/
structure FromOutside (l : Liveness) (a b : Temp) (n : Nat) : Prop where
  live : ∀ p, ReflTransGen l.Follows p n → l.LiveBefore p a ∧ l.LiveBefore p b
  unwritten : ∀ p, TransGen l.Follows p n → ¬ l.Writes p a ∧ ¬ l.Writes p b
  apart : ∀ p, ¬ (l.Writes p a ∧ l.LiveAfter p b) ∧ ¬ (l.Writes p b ∧ l.LiveAfter p a)

/-- Two temporaries live on entry that do not interfere come from outside. -/
theorem fromOutside_of_not_interfere (h : ofCommands commands = .ok l) (hab : a ≠ b)
    (ha : l.LiveBefore n a) (hb : l.LiveBefore n b) (hi : b ∉ (ofLiveness l).neighbors a) :
    l.FromOutside a b n := by
  have hback (p : Nat) (path : ReflTransGen l.Follows p n) : l.LiveBefore p a ∧ l.LiveBefore p b :=
    (interfere_or_liveBefore_back h hab ha hb path).resolve_left hi
  refine ⟨hback, fun p path => ?_, fun p => ⟨fun hw => ?_, fun hw => ?_⟩⟩
  · obtain ⟨s, hstep, path⟩ := TransGen.head'_iff.mp path
    obtain ⟨hsa, hsb⟩ := hback s path
    have hafter := interfere_or_liveBefore h hab ((liveAfter_iff_follows h).mpr ⟨s, hstep, hsa⟩)
      ((liveAfter_iff_follows h).mpr ⟨s, hstep, hsb⟩)
    exact (hafter.resolve_left hi).1
  · exact hi (mem_neighbors_ofLiveness.mpr ⟨hab, p, .inl hw⟩)
  · exact hi (mem_neighbors_ofLiveness.mpr ⟨hab, p, .inr hw⟩)

/-- Two temporaries that are live together at a position control can reach, be it on entry or on exit, interfere
or came into the listing together. -/
theorem interferes_or_live_at_start (h : ofCommands commands = .ok l) (reached : ReflTransGen l.Follows 0 n)
    (hab : a ≠ b) (live : l.LiveBefore n a ∧ l.LiveBefore n b ∨ l.LiveAfter n a ∧ l.LiveAfter n b) :
    (ofLiveness l).interferes a b = true ∨ l.LiveBefore 0 a ∧ l.LiveBefore 0 b := by
  rcases live with ⟨ha, hb⟩ | ⟨ha, hb⟩
  · exact interfere_or_liveBefore_back h hab ha hb reached
  · rcases interfere_or_liveBefore h hab ha hb with hi | ⟨_, hsa, hsb⟩
    · exact .inl hi
    · exact interfere_or_liveBefore_back h hab hsa hsb reached

/-- A loop that takes a step from memory and subtracts it from `t0`, which comes from outside. -/
def descent : List Command :=
  [.load ⟨1⟩ (.global "step"), .label "loop", .compute .sub ⟨0⟩ ⟨0⟩ ⟨1⟩, .jumpIfZero ⟨0⟩ "loop", .ret none]

/-- Both are live at the jump back, and interfere: the step does not come from outside. -/
theorem descent_interferes : ∃ l, ofCommands descent = .ok l ∧ ReflTransGen l.Follows 0 3 ∧
    (l.LiveAfter 3 ⟨0⟩ ∧ l.LiveAfter 3 ⟨1⟩) ∧ (ofLiveness l).interferes ⟨0⟩ ⟨1⟩ = true := by
  have hok : ∃ l ∈ (ofCommands descent).toOption, l.size = 5 := by decide +kernel
  obtain ⟨l, hl, _⟩ := exists_ok_of_toOption hok
  have hnext (n : Nat) (c : Command) (hc : descent[n]? = some c) (hn : c.fallsThrough = true ∧ n + 1 < 5) :
      l.Follows n (n + 1) := (follows_iff_flow hl hc).mpr (.inl ⟨hn.1, rfl, hn.2⟩)
  have hback : l.Follows 3 1 := (follows_iff_flow hl rfl).mpr (.inr ⟨"loop", rfl, rfl⟩)
  have hreached : ReflTransGen l.Follows 0 3 :=
    ((ReflTransGen.single (hnext 0 _ rfl (by decide))).tail (hnext 1 _ rfl (by decide))).tail
      (hnext 2 _ rfl (by decide))
  -- the subtraction reads both, and the head of the loop leaves them alone
  have hlive (t : Temp) (ht : t = ⟨0⟩ ∨ t = ⟨1⟩) : l.LiveAfter 3 t := by
    have hread : l.LiveBefore 2 t := liveBefore_of_mem_uses hl rfl (by simpa [Command.uses])
    have hafter : l.LiveAfter 1 t := (liveAfter_iff_follows hl).mpr ⟨2, hnext 1 _ rfl (by decide), hread⟩
    have hkept : ¬ l.Writes 1 t := fun hw => by cases (writes_iff_def hl rfl).mp hw
    exact (liveAfter_iff_follows hl).mpr ⟨1, hback, (liveBefore_iff_reads hl).mpr (.inr ⟨hafter, hkept⟩)⟩
  have hfresh : ¬ l.LiveBefore 0 ⟨1⟩ := by
    intro hstart
    rcases (liveBefore_iff_reads hl).mp hstart with hr | ⟨_, hw⟩
    · cases (reads_iff_uses hl rfl).mp hr
    · exact hw ((writes_iff_def hl rfl).mpr rfl)
  have hboth := And.intro (hlive ⟨0⟩ (.inl rfl)) (hlive ⟨1⟩ (.inr rfl))
  have hpair := interferes_or_live_at_start hl hreached (by decide) (.inr hboth)
  exact ⟨l, hl, hreached, hboth, hpair.resolve_right fun hstart => hfresh hstart.2⟩

end Liveness

/-- Both temporaries have registers, and not the same. -/
def Allocation.Separates (alloc : Allocation) (a b : Temp) : Prop :=
  ∃ x y, alloc.register? a = some x ∧ alloc.register? b = some y ∧ x ≠ y

namespace Run
variable {commands : List Command} {pool : RegisterPool} {run : Run} {n : Nat} {a b t : Temp}

theorem ofCommands_eq_ok (h : ofCommands commands pool = .ok run) :
    Liveness.ofCommands commands = .ok run.liveness ∧ run.graph = ofLiveness run.liveness ∧
      Allocation.color run.graph pool = .ok run.allocation := by
  obtain ⟨l, hl, h⟩ := bind_eq_ok.mp h
  obtain ⟨allocation, hc, h⟩ := bind_eq_ok.mp h
  cases h
  exact ⟨hl, rfl, hc⟩

theorem ofCommands_eq_error {fault : Fault} (h : ofCommands commands pool = .error fault) :
    Liveness.ofCommands commands = .error fault ∨
      ∃ l, Liveness.ofCommands commands = .ok l ∧ Allocation.color (ofLiveness l) pool = .error fault := by
  rcases bind_eq_error.mp h with hl | ⟨l, hl, h⟩
  · exact .inl hl
  · rcases bind_eq_error.mp h with hc | ⟨allocation, _, h⟩
    · exact .inr ⟨l, hl, hc⟩
    · cases h

theorem valid_allocation (h : ofCommands commands pool = .ok run) :
    run.allocation.pool = pool ∧ run.allocation.Valid (ofLiveness run.liveness) := by
  obtain ⟨_, hgraph, hcolor⟩ := ofCommands_eq_ok h
  rw [hgraph] at hcolor
  exact Allocation.valid_of_color (simple_ofLiveness run.liveness) hcolor

/-- Every temporary of the listing has a register of the pool. -/
theorem exists_register (h : ofCommands commands pool = .ok run)
    (ht : run.liveness.Reads n t ∨ run.liveness.Writes n t) :
    ∃ name ∈ pool.names, run.allocation.register? t = some name := by
  obtain ⟨rfl, hv⟩ := valid_allocation h
  exact hv.exists_register (mem_vertices_ofLiveness_of_mentioned ht)

theorem separates_of_interfere (h : ofCommands commands pool = .ok run)
    (hi : b ∈ (ofLiveness run.liveness).neighbors a) : run.allocation.Separates a b := by
  obtain ⟨_, hv⟩ := valid_allocation h
  have hsimple := simple_ofLiveness run.liveness
  obtain ⟨x, _, hx⟩ := hv.exists_register (hsimple.mem_vertices (hsimple.symm hi))
  obtain ⟨y, _, hy⟩ := hv.exists_register (hsimple.mem_vertices hi)
  refine ⟨x, y, hx, hy, fun hxy => ?_⟩
  subst y
  exact hv.register?_ne hi hx hy

/-- Two temporaries that are live together get different registers, unless both come from outside to where
they are. Those two may share one: on no way there is either of them written. -/
theorem separates_of_live_together (h : ofCommands commands pool = .ok run) (hab : a ≠ b) :
    (run.liveness.LiveBefore n a → run.liveness.LiveBefore n b →
      run.allocation.Separates a b ∨ run.liveness.FromOutside a b n) ∧
    (run.liveness.LiveAfter n a → run.liveness.LiveAfter n b →
      run.allocation.Separates a b ∨
        (¬ run.liveness.Writes n a ∧ ¬ run.liveness.Writes n b) ∧ run.liveness.FromOutside a b n) := by
  have hl := (ofCommands_eq_ok h).1
  by_cases hi : b ∈ (ofLiveness run.liveness).neighbors a
  · have hs := separates_of_interfere h hi
    exact ⟨fun _ _ => .inl hs, fun _ _ => .inl hs⟩
  · refine ⟨fun ha hb => .inr (Liveness.fromOutside_of_not_interfere hl hab ha hb hi), fun ha hb => .inr ?_⟩
    obtain ⟨hw, hsa, hsb⟩ := (Liveness.interfere_or_liveBefore hl hab ha hb).resolve_left hi
    exact ⟨hw, Liveness.fromOutside_of_not_interfere hl hab hsa hsb hi⟩

/-- A sum that the listing goes on to need, next to one of its terms. -/
theorem separates_sum_from_term : ∃ run,
    ofCommands [.compute .add ⟨1⟩ ⟨0⟩ ⟨0⟩, .compute .add ⟨0⟩ ⟨0⟩ ⟨1⟩] .standard = .ok run ∧
      run.allocation.Separates ⟨0⟩ ⟨1⟩ := by
  have hok : ∃ run ∈ (ofCommands [.compute .add ⟨1⟩ ⟨0⟩ ⟨0⟩, .compute .add ⟨0⟩ ⟨0⟩ ⟨1⟩]
      .standard).toOption, run.allocation.size = 2 := by decide +kernel
  obtain ⟨run, hrun, _⟩ := exists_ok_of_toOption hok
  have hl := (ofCommands_eq_ok hrun).1
  have hread (t : Temp) (ht : t = ⟨0⟩ ∨ t = ⟨1⟩) : run.liveness.LiveBefore 1 t :=
    Liveness.liveBefore_of_mem_uses hl rfl (by simpa [Command.uses])
  have hwrite : run.liveness.Writes 0 ⟨1⟩ := (Liveness.writes_iff_def hl rfl).mpr rfl
  have hnext : run.liveness.Follows 0 1 := (Liveness.follows_iff_flow hl rfl).mpr (.inl (by decide))
  have hs := (separates_of_live_together hrun (by decide)).1 (hread ⟨0⟩ (.inl rfl)) (hread ⟨1⟩ (.inr rfl))
  exact ⟨run, hrun, hs.resolve_right fun ho => (ho.unwritten 0 (.single hnext)).2 hwrite⟩

/-- Two terms from outside, live on entry to the sum that reads them, get the same register. -/
theorem not_separates_of_live_together : ¬ ∀ commands pool run, ofCommands commands pool = .ok run →
    ∀ n a b, a ≠ b → run.liveness.LiveBefore n a ∧ run.liveness.LiveBefore n b ∨
      run.liveness.LiveAfter n a ∧ run.liveness.LiveAfter n b → run.allocation.Separates a b := by
  intro hall
  have hok : ∃ run ∈ (ofCommands [.compute .add ⟨2⟩ ⟨0⟩ ⟨1⟩] .standard).toOption,
      run.allocation.register? ⟨0⟩ = run.allocation.register? ⟨1⟩ := by decide +kernel
  obtain ⟨run, hrun, hsame⟩ := exists_ok_of_toOption hok
  have hl := (ofCommands_eq_ok hrun).1
  have hread (t : Temp) (ht : t = ⟨0⟩ ∨ t = ⟨1⟩) : run.liveness.LiveBefore 0 t :=
    Liveness.liveBefore_of_mem_uses hl rfl (by simpa [Command.uses])
  obtain ⟨x, y, hx, hy, hne⟩ := hall _ _ run hrun 0 ⟨0⟩ ⟨1⟩ (by decide)
    (.inl ⟨hread ⟨0⟩ (.inl rfl), hread ⟨1⟩ (.inr rfl)⟩)
  exact hne (Option.some.inj (hx.symm.trans (hsame.trans hy)))

end Run
end RegisterColoring

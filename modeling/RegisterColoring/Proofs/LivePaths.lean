import RegisterColoring.Proofs.LiveEquations

/-! Liveness by paths through the control flow. Main statement: a temporary is live on entry to a position
exactly if some path from there reads it before any write, so the live sets are the least solution. -/
namespace RegisterColoring.Liveness
variable {l : Liveness} {n s k : Nat} {t : Temp} {path : Nat → Nat} {commands : List Command}

/-- A path of `k` steps from a position to one that reads the temporary. No position before the last one
writes it; the last one may. -/
structure UsePath (l : Liveness) (t : Temp) (n k : Nat) (path : Nat → Nat) : Prop where
  start : path 0 = n
  follows : ∀ i < k, l.Follows (path i) (path (i + 1))
  reads : l.Reads (path k) t
  unwritten : ∀ i < k, ¬ l.Writes (path i) t

private theorem UsePath.here (h : l.Reads n t) : l.UsePath t n 0 fun _ => n :=
  ⟨rfl, fun _ hi => absurd hi (Nat.not_lt_zero _), h, fun _ hi => absurd hi (Nat.not_lt_zero _)⟩

private theorem UsePath.back (h : l.UsePath t s k path) (hf : l.Follows n s) (hw : ¬ l.Writes n t) :
    l.UsePath t n (k + 1) fun | 0 => n | i + 1 => path i := by
  refine ⟨rfl, fun i hi => ?_, h.reads, fun i hi => ?_⟩
  · cases i with
    | zero =>
      change l.Follows n (path 0)
      rw [h.start]
      exact hf
    | succ i => exact h.follows i (by omega)
  · cases i with
    | zero => exact hw
    | succ i => exact h.unwritten i (by omega)

private theorem UsePath.tail (h : l.UsePath t n (k + 1) path) :
    l.UsePath t (path 1) k fun i => path (i + 1) :=
  ⟨rfl, fun i hi => h.follows (i + 1) (by omega), h.reads, fun i hi => h.unwritten (i + 1) (by omega)⟩

private theorem UsePath.liveBefore (h : ofCommands commands = .ok l) (hp : l.UsePath t n k path) :
    l.LiveBefore n t := by
  rw [liveBefore_iff_reads h]
  induction k generalizing n path with
  | zero =>
    have hread := hp.reads
    rw [hp.start] at hread
    exact .inl hread
  | succ k ih =>
    have hfollows := hp.follows 0 (by omega)
    have hwrites := hp.unwritten 0 (by omega)
    rw [hp.start] at hfollows hwrites
    have hnext : l.LiveBefore (path 1) t := (liveBefore_iff_reads h).mpr (ih hp.tail)
    exact .inr ⟨(liveAfter_iff_follows h).mpr ⟨path 1, hfollows, hnext⟩, hwrites⟩

private theorem LiveBefore.usePath (h : ofCommands commands = .ok l) (live : l.LiveBefore n t) :
    ∃ k path, l.UsePath t n k path := by
  refine LiveBefore.induction h (P := fun n t => ∃ k path, l.UsePath t n k path) ?_ ?_ live
  · intro n t hread
    exact ⟨0, _, .here hread⟩
  · rintro n s t hf ⟨k, path, hp⟩ hw
    exact ⟨k + 1, _, hp.back hf hw⟩

/-- Temporaries for each position, before and after it, that satisfy both flow equations. -/
structure FlowSolution (l : Liveness) (before after : Nat → Temp → Prop) : Prop where
  before_iff : ∀ n t, before n t ↔ l.Reads n t ∨ after n t ∧ ¬ l.Writes n t
  after_iff : ∀ n t, after n t ↔ ∃ s, l.Follows n s ∧ before s t

private theorem FlowSolution.above (h : ofCommands commands = .ok l) {before after : Nat → Temp → Prop}
    (hsol : l.FlowSolution before after) (live : l.LiveBefore n t) : before n t := by
  refine LiveBefore.induction h ?_ ?_ live
  · intro n t hread
    exact (hsol.before_iff n t).mpr (.inl hread)
  · intro n s t hf hs hw
    exact (hsol.before_iff n t).mpr (.inr ⟨(hsol.after_iff n t).mpr ⟨s, hf, hs⟩, hw⟩)

/-- Liveness is path liveness, at every position of every listing that has one. Nothing else is kept alive
around loops: the sets solve the flow equations and lie within every other solution. -/
theorem liveIn_iff_usePath (h : ofCommands commands = .ok l) :
    (∀ n < commands.length, ∃ before after, l.liveIn n = .ok before ∧ l.liveOut n = .ok after ∧
      (∀ t, t ∈ before ↔ ∃ k path, l.UsePath t n k path) ∧
      ∀ t, t ∈ after ↔ ∃ s, l.Follows n s ∧ l.LiveBefore s t) ∧
    l.FlowSolution l.LiveBefore l.LiveAfter ∧
    ∀ before after, l.FlowSolution before after → ∀ n t,
      (l.LiveBefore n t → before n t) ∧ (l.LiveAfter n t → after n t) := by
  refine ⟨fun n hn => ?_, ⟨fun n t => liveBefore_iff_reads h, fun n t => liveAfter_iff_follows h⟩, ?_⟩
  · obtain ⟨sets, hsets⟩ : ∃ sets, l.sets[n]? = some sets :=
      ⟨_, List.getElem?_eq_getElem (length_sets h ▸ hn)⟩
    have hin : l.liveIn n = .ok sets.liveIn := by simp [liveIn, item, hsets, Except.map]
    have hout : l.liveOut n = .ok sets.liveOut := by simp [liveOut, item, hsets, Except.map]
    refine ⟨sets.liveIn, sets.liveOut, hin, hout, fun t => ?_, fun t => ?_⟩
    · constructor
      · intro ht
        exact LiveBefore.usePath h ⟨_, hin, ht⟩
      · rintro ⟨k, path, hp⟩
        obtain ⟨set, hset, ht⟩ := hp.liveBefore h
        cases hin.symm.trans hset
        exact ht
    · rw [← liveAfter_iff_follows h, liveAfter_iff]
      simp [hsets]
  · intro before after hsol n t
    refine ⟨hsol.above h, fun live => ?_⟩
    obtain ⟨s, hf, hs⟩ := (liveAfter_iff_follows h).mp live
    exact (hsol.after_iff n t).mpr ⟨s, hf, hsol.above h hs⟩

/-- A loop that counts `t0` down by `t1`. -/
def countdown : List Command :=
  [.label "loop", .compute .sub ⟨0⟩ ⟨0⟩ ⟨1⟩, .jumpIfZero ⟨0⟩ "done", .jump "loop", .label "done", .ret none]

/-- The step of the countdown is live at the jump back, because the path through the head of the loop
reads it. -/
theorem countdown_liveIn : ∃ l, ofCommands countdown = .ok l ∧
    (∃ path, l.UsePath ⟨1⟩ 3 2 path) ∧ ∃ before, l.liveIn 3 = .ok before ∧ ⟨1⟩ ∈ before := by
  have hok : ∃ l ∈ (ofCommands countdown).toOption, l.size = 6 := by decide +kernel
  obtain ⟨l, hl, _⟩ := exists_ok_of_toOption hok
  have hread : l.Reads 1 ⟨1⟩ := (reads_iff_uses hl rfl).mpr (by decide)
  have hhead : l.Follows 0 1 := (follows_iff_flow hl rfl).mpr (.inl (by decide))
  have hback : l.Follows 3 0 := (follows_iff_flow hl rfl).mpr (.inr ⟨"loop", rfl, rfl⟩)
  have hkept (n : Nat) (c : Command) (hc : countdown[n]? = some c) (hd : c.def? = none) :
      ¬ l.Writes n ⟨1⟩ := by simp [writes_iff_def hl hc, hd]
  have hpath := ((UsePath.here hread).back hhead (hkept 0 _ rfl rfl)).back hback (hkept 3 _ rfl rfl)
  obtain ⟨before, _, hb, _, hlive, _⟩ := (liveIn_iff_usePath hl).1 3 (by decide)
  exact ⟨l, hl, ⟨_, hpath⟩, before, hb, (hlive ⟨1⟩).mpr ⟨2, _, hpath⟩⟩

end RegisterColoring.Liveness

import RegisterColoring.Proofs.Execution
import RegisterColoring.Proofs.SharedRegisters

/-! The same listing on temporaries and on the registers allocated to them. Main statement: the two runs go
in lockstep for any meaning of the instructions, and nothing that can be seen tells them apart. -/
namespace RegisterColoring
open InterferenceGraph

namespace Liveness
variable {l : Liveness} {commands : List Command} {c : Command} {n s : Nat} {t : Temp}

/-- The label of a jump is at one position, and control goes there. -/
theorem getElem?_eq_label_iff (h : ofCommands commands = .ok l) (hc : commands[n]? = some c) {name : String}
    (ht : c.target? = some name) :
    commands[s]? = some (.label name) ↔ s = commands.findIdx (·.label? = some name) := by
  obtain ⟨_, hl, hn, _⟩ := ofCommands_eq_ok h
  obtain ⟨target, htarget⟩ := FlowNode.exists_label_iff hl hn hc ht
  have hfound := Command.getElem?_findIdx_label ((htarget target).mpr rfl)
  rw [htarget] at hfound ⊢
  rw [hfound]

/-- What is live where control goes on was live on exit. -/
theorem liveAfter_of_step (h : ofCommands commands = .ok l) (hc : commands[n]? = some c)
    (hs : (c.fallsThrough = true ∧ s = n + 1) ∨
      ∃ name, c.target? = some name ∧ s = commands.findIdx (·.label? = some name))
    (live : l.LiveBefore s t) : l.LiveAfter n t := by
  refine (liveAfter_iff_follows h).mpr ⟨s, (follows_iff_flow h hc).mpr ?_, live⟩
  rcases hs with ⟨hf, hs⟩ | ⟨name, ht, hs⟩
  · exact .inl ⟨hf, hs, live.lt_length h⟩
  · exact .inr ⟨name, ht, (getElem?_eq_label_iff h hc ht).mpr hs⟩

end Liveness

namespace Run
variable {commands : List Command} {pool : RegisterPool} {result : Run} {Value Memory : Type}

/-- The register of the temporary holds its value. -/
def Holds (result : Run) (values : Temp → Value) (registers : String → Value) (t : Temp) : Prop :=
  ∃ name, result.allocation.register? t = some name ∧ registers name = values t

/-- Nothing visible tells the machines apart, and while they run, the registers hold what is live. -/
structure Matches (result : Run) (s : Machine Temp Value Memory) (r : Machine String Value Memory) : Prop where
  visible : r.visible = s.visible
  holds : s.visible.ending = none → ∀ t, result.liveness.LiveBefore s.visible.position t →
    result.Holds s.cells r.cells t

variable {values : Temp → Value} {registers : String → Value} {n : Nat} {c : Command} {d t : Temp}

theorem Holds.read (h : result.Holds values registers t) :
    (result.allocation.register? t).map registers = some (values t) := by
  obtain ⟨name, hname, hvalue⟩ := h
  rw [hname, Option.map_some, hvalue]

/-- A write to one register leaves those of the other temporaries alone that are live after it. -/
theorem Holds.write (h : ofCommands commands pool = .ok result) (hc : commands[n]? = some c)
    (hd : c.def? = some d) {x : String} (hx : result.allocation.register? d = some x) (value : Value)
    (live : result.liveness.LiveAfter n t) (hold : t ≠ d → result.Holds values registers t) :
    result.Holds (Function.update values d value) (Function.update registers x value) t := by
  by_cases htd : t = d
  · subst t
    exact ⟨x, hx, by rw [Function.update_self, Function.update_self]⟩
  · obtain ⟨y, hy, hvalue⟩ := hold htd
    have hw : result.liveness.Writes n d := (Liveness.writes_iff_def (ofCommands_eq_ok h).1 hc).mpr hd
    -- `t` is live on exit where `d` is written, so they interfere, even if `d` is never read
    have hi : t ∈ (ofLiveness result.liveness).neighbors d :=
      mem_neighbors_ofLiveness.mpr ⟨Ne.symm htd, n, .inl ⟨hw, live⟩⟩
    have hne : y ≠ x := by
      rintro rfl
      exact (valid_allocation h).2.register?_ne hi hx hy
    exact ⟨y, hy, by rw [Function.update_of_ne hne, Function.update_of_ne htd, hvalue]⟩

variable {m : Meaning Value Memory} {s : Machine Temp Value Memory} {r : Machine String Value Memory}

/-- An instruction has the same effect on both sides, and after it the registers hold what is live. -/
theorem Matches.step_command (h : ofCommands commands pool = .ok result) (hm : result.Matches s r)
    (hend : s.visible.ending = none) (hc : commands[s.visible.position]? = some c) :
    ∃ s' r', s.step m commands some = some s' ∧
      r.step m commands result.allocation.register? = some r' ∧ result.Matches s' r' := by
  have hl := (ofCommands_eq_ok h).1
  have hend' : r.visible.ending = none := hm.visible ▸ hend
  have hc' : commands[r.visible.position]? = some c := hm.visible ▸ hc
  have hold := hm.holds hend
  have hread (t : Temp) (ht : t ∈ c.uses) :
      (result.allocation.register? t).map r.cells = some (s.cells t) :=
    (hold t (Liveness.liveBefore_of_mem_uses hl hc ht)).read
  obtain ⟨written, after, he, hdef, hnext⟩ := c.effect_eq_some m commands s.cells s.visible
  have he' : c.effect m commands (fun t => (result.allocation.register? t).map r.cells) r.visible =
      some (written, after) := by
    rw [c.effect_congr hread, hm.visible, he]
  -- what is live where control goes on is live on exit, and was live on entry unless it is written here
  have hafter (hgo : after.ending = none) (t : Temp) (live : result.liveness.LiveBefore after.position t) :
      result.liveness.LiveAfter s.visible.position t := Liveness.liveAfter_of_step hl hc (hnext hgo) live
  have hkept (hgo : after.ending = none) (t : Temp) (live : result.liveness.LiveBefore after.position t)
      (ht : c.def? ≠ some t) : result.Holds s.cells r.cells t :=
    hold t ((Liveness.liveBefore_iff_reads hl).mpr
      (.inr ⟨hafter hgo t live, fun hw => ht ((Liveness.writes_iff_def hl hc).mp hw)⟩))
  cases written with
  | none =>
    have hd : c.def? = none := hdef.symm
    refine ⟨_, _, Machine.step_of_silent hend hc he, Machine.step_of_silent hend' hc' he', rfl, ?_⟩
    intro hgo t live
    exact hkept hgo t live (by simp [hd])
  | some w =>
    obtain ⟨d, value⟩ := w
    have hd : c.def? = some d := hdef.symm
    obtain ⟨x, _, hx⟩ := exists_register h (.inr ((Liveness.writes_iff_def hl hc).mpr hd))
    refine ⟨_, _, Machine.step_of_write hend hc rfl he, Machine.step_of_write hend' hc' hx he', rfl, ?_⟩
    intro hgo t live
    refine Holds.write h hc hd hx value (hafter hgo t live) fun htd => hkept hgo t live ?_
    rw [hd]
    exact fun hdt => htd (Option.some.inj hdt).symm

/-- Machines that match take a step together and match again. -/
theorem Matches.step (h : ofCommands commands pool = .ok result) (hm : result.Matches s r) :
    ∃ s' r', s.step m commands some = some s' ∧
      r.step m commands result.allocation.register? = some r' ∧ result.Matches s' r' := by
  cases hend : s.visible.ending with
  | some ending =>
    exact ⟨s, r, Machine.step_of_ended hend, Machine.step_of_ended (hm.visible ▸ hend), hm⟩
  | none =>
    cases hc : commands[s.visible.position]? with
    | some c => exact hm.step_command h hend hc
    | none =>
      have hend' : r.visible.ending = none := hm.visible ▸ hend
      have hc' : commands[r.visible.position]? = none := hm.visible ▸ hc
      refine ⟨_, _, Machine.step_of_pastEnd hend hc, Machine.step_of_pastEnd hend' hc', ?_, nofun⟩
      rw [hm.visible]

/-- Machines that match stay together for any number of steps. -/
theorem Matches.run (h : ofCommands commands pool = .ok result) (hm : result.Matches s r) (n : Nat) :
    ∃ s' r', s.run m commands some n = some s' ∧
      r.run m commands result.allocation.register? n = some r' ∧ result.Matches s' r' := by
  induction n generalizing s r with
  | zero => exact ⟨s, r, rfl, rfl, hm⟩
  | succ n ih =>
    obtain ⟨s₁, r₁, hs₁, hr₁, hm₁⟩ := hm.step (m := m) h
    obtain ⟨s₂, r₂, hs₂, hr₂, hm₂⟩ := ih hm₁
    exact ⟨s₂, r₂, by simp [Machine.run, hs₁, hs₂], by simp [Machine.run, hr₁, hr₂], hm₂⟩

/-- A listing runs on its registers as it runs on its temporaries: after any number of steps, from registers
that hold what is live at the start, both runs are at the same position, with the same memory, the same
printed values, the same decisions at conditional jumps and the same ending. What other registers hold at
the start does not matter, nor what the operators and the memory do. -/
theorem runs_in_lockstep (h : ofCommands commands pool = .ok result) (m : Meaning Value Memory)
    (memory : Memory) (values : Temp → Value) (registers : String → Value)
    (hstart : ∀ live, result.liveness.liveIn 0 = .ok live → ∀ t ∈ live, ∀ name,
      result.allocation.register? t = some name → registers name = values t) (n : Nat) :
    ∃ s r, Machine.run m commands some n ⟨values, .initial memory⟩ = some s ∧
      Machine.run m commands result.allocation.register? n ⟨registers, .initial memory⟩ = some r ∧
      r.visible = s.visible := by
  have hl := (ofCommands_eq_ok h).1
  have hm : result.Matches (⟨values, .initial memory⟩ : Machine Temp Value Memory)
      ⟨registers, .initial memory⟩ := by
    refine ⟨rfl, fun _ t live => ?_⟩
    obtain ⟨p, hread⟩ := live.exists_reads hl
    obtain ⟨name, _, hname⟩ := exists_register h (.inl hread)
    obtain ⟨set, hset, ht⟩ := live
    exact ⟨name, hname, hstart set hset t ht name hname⟩
  obtain ⟨s, r, hs, hr, hmatch⟩ := hm.run (m := m) h n
  exact ⟨s, r, hs, hr, hmatch.visible⟩

/-- Twice a number from outside, which is printed in between. -/
def doubling : List Command := [.compute .add ⟨1⟩ ⟨0⟩ ⟨0⟩, .print ⟨0⟩, .ret (some ⟨1⟩)]

/-- With the number in its register, the run on registers prints the number. -/
theorem doubling_in_lockstep : ∃ result, ofCommands doubling .standard = .ok result ∧
    ∃ s r, Machine.run .words doubling some 3 ⟨fun _ => 21, .initial fun _ => 0⟩ = some s ∧
      Machine.run .words doubling result.allocation.register? 3
        ⟨fun name => if name = "$t1" then 21 else 0, .initial fun _ => 0⟩ = some r ∧
      r.visible = s.visible ∧ r.visible.printed = [21] := by
  have hok : ∃ result ∈ (ofCommands doubling .standard).toOption,
      result.allocation.register? ⟨0⟩ = some "$t1" ∧
        (result.liveness.liveIn 0).toOption = some (.ofTemps [⟨0⟩]) := by decide +kernel
  obtain ⟨result, hresult, hregister, hlive⟩ := exists_ok_of_toOption hok
  obtain ⟨s, r, hs, hr, hv⟩ := runs_in_lockstep hresult .words (fun _ => 0) (fun _ => 21)
    (fun name => if name = "$t1" then 21 else 0) (by
      intro live hl t ht name hname
      rw [hl] at hlive
      obtain rfl : live = .ofTemps [⟨0⟩] := Option.some.inj hlive
      obtain rfl : t = ⟨0⟩ := by simpa using ht
      obtain rfl : "$t1" = name := Option.some.inj (hregister.symm.trans hname)
      rfl) 3
  have hprinted : s.visible.printed = [21] := by
    obtain rfl := Option.some.inj hs
    rfl
  exact ⟨result, hresult, s, r, hs, hr, hv, hv ▸ hprinted⟩

end Run
end RegisterColoring

import RegisterColoring.Proofs.InPlace

/-! Where control can go in a listing, by the kinds of its instructions. Main statement: the successors of a position are
exactly the positions where control can go from it, each listed once and the next position first. -/
namespace RegisterColoring

/-- Control can go on to the next instruction: this one neither returns nor always jumps. -/
def Command.GoesOn (c : Command) : Prop := (∀ value, c ≠ .ret value) ∧ ∀ name, c ≠ .jump name

/-- Control can go from one position of a listing to another. -/
inductive Leads (commands : List Command) : Nat → Nat → Prop where
  | next {n : Nat} {c : Command} : commands[n]? = some c → c.GoesOn → n + 1 < commands.length → Leads commands n (n + 1)
  | jump {n s : Nat} {name : String} :
    commands[n]? = some (.jump name) → commands[s]? = some (.label name) → Leads commands n s
  | branch {n s : Nat} {cond : Temp} {name : String} :
    commands[n]? = some (.jumpIfZero cond name) → commands[s]? = some (.label name) → Leads commands n s

namespace Command
variable {c : Command} {name : String}

theorem fallsThrough_iff_goesOn : c.fallsThrough = true ↔ c.GoesOn := by
  cases c <;> simp [fallsThrough, GoesOn]

theorem target?_eq_some : c.target? = some name ↔ c = .jump name ∨ ∃ cond, c = .jumpIfZero cond name := by
  cases c <;> simp [target?]

end Command

variable {commands : List Command} {n s : Nat}

/-- Control can go where the instruction falls through to, and to the label of its jump. -/
theorem leads_iff {c : Command} (hc : commands[n]? = some c) :
    Leads commands n s ↔ (c.fallsThrough = true ∧ s = n + 1 ∧ s < commands.length) ∨
      ∃ name, c.target? = some name ∧ commands[s]? = some (.label name) := by
  simp only [Command.fallsThrough_iff_goesOn, Command.target?_eq_some]
  constructor
  · intro h
    cases h with
    | next hc' hgoes hlt =>
      cases hc.symm.trans hc'
      exact .inl ⟨hgoes, rfl, hlt⟩
    | jump hc' hlabel =>
      cases hc.symm.trans hc'
      exact .inr ⟨_, .inl rfl, hlabel⟩
    | branch hc' hlabel =>
      cases hc.symm.trans hc'
      exact .inr ⟨_, .inr ⟨_, rfl⟩, hlabel⟩
  · rintro (⟨hgoes, rfl, hlt⟩ | ⟨name, rfl | ⟨cond, rfl⟩, hlabel⟩)
    · exact .next hc hgoes hlt
    · exact .jump hc hlabel
    · exact .branch hc hlabel

namespace FlowNode
variable {labels : LabelIndex} {size position : Nat} {c : Command} {successors : List Nat}

/-- The target of a jump comes behind the next position, unless it is the same. -/
private theorem eq_or_append_of_successorsOf (h : successorsOf labels size position c = .ok successors) :
    let next := if c.fallsThrough && position + 1 < size then [position + 1] else []
    successors = next ∨ ∃ target, target ∉ next ∧ successors = next ++ [target] := by
  intro next
  unfold successorsOf at h
  cases ht : c.target? with
  | none =>
    simp only [ht, Except.ok.injEq] at h
    exact .inl h.symm
  | some name =>
    cases hl : labels.lookup name with
    | none => simp [ht, hl] at h
    | some target =>
      simp only [ht, hl, Except.ok.injEq] at h
      by_cases hmem : target ∈ next
      · rw [if_pos hmem] at h
        exact .inl h.symm
      · rw [if_neg hmem] at h
        exact .inr ⟨target, hmem, h.symm⟩

theorem nodup_successorsOf (h : successorsOf labels size position c = .ok successors) : successors.Nodup := by
  have hnext : (if c.fallsThrough && position + 1 < size then [position + 1] else []).Nodup := by
    split <;> simp
  rcases eq_or_append_of_successorsOf h with rfl | ⟨target, hnew, rfl⟩
  · exact hnext
  · rw [(List.perm_append_singleton target _).nodup_iff, List.nodup_cons]
    exact ⟨hnew, hnext⟩

theorem head?_successorsOf (h : successorsOf labels size position c = .ok successors) (hfalls : c.fallsThrough = true)
    (hlt : position + 1 < size) : successors.head? = some (position + 1) := by
  have hnext : (if c.fallsThrough && position + 1 < size then [position + 1] else []) = [position + 1] := by
    simp [hfalls, hlt]
  rcases eq_or_append_of_successorsOf h with rfl | ⟨target, _, rfl⟩
  · rw [hnext]
    rfl
  · rw [hnext]
    rfl

end FlowNode

namespace Liveness
open FlowNode
variable {l : Liveness}

/-- The successors are exactly the control flow of the listing. Those of a position are the positions where control can
go from it, and they are listed without repetition, the next position first if control can go on to it. All lie within
the listing, so a pass over sets for its positions finds sets wherever it looks. -/
theorem successors_exact (h : ofCommands commands = .ok l) :
    (∀ n < commands.length, ∃ positions, l.successors n = .ok positions ∧
      (∀ s, s ∈ positions ↔ Leads commands n s) ∧ positions.Nodup ∧
      (∀ c, commands[n]? = some c → c.GoesOn → n + 1 < commands.length → positions.head? = some (n + 1)) ∧
      ∀ s ∈ positions, s < commands.length) ∧
    ∀ sets : List LiveSets, sets.length = commands.length →
      ∃ p, Sweeping.pass? l.nodes sets = some p ∧ p.sets.length = commands.length := by
  have hsize : l.nodes.length = commands.length := size_eq h
  have hclosed := closed_nodes h
  obtain ⟨_, hl, hnodes, _⟩ := ofCommands_eq_ok h
  refine ⟨fun n hn => ?_, fun sets hsets => ?_⟩
  · have hc : commands[n]? = some commands[n] := List.getElem?_eq_getElem hn
    obtain ⟨positions, hpositions, hnode⟩ := getElem?_ofCommand hnodes hc
    have hok : l.successors n = .ok positions := map_item_eq_ok hnode
    refine ⟨positions, hok, fun s => ?_, nodup_successorsOf hpositions, fun c hc' hgoes hlt => ?_, fun s hs => ?_⟩
    · rw [leads_iff hc, ← follows_iff_flow h hc, Follows, hok]
      simp
    · cases hc.symm.trans hc'
      exact head?_successorsOf hpositions (Command.fallsThrough_iff_goesOn.mpr hgoes) hlt
    · exact hsize ▸ hclosed _ (List.mem_of_getElem? hnode) s hs
  · refine ⟨_, Sweeping.pass?_eq_some hclosed (hsets.trans hsize.symm), ?_⟩
    exact (length_sweepFrom sets 0 l.nodes).trans hsize

/-- A conditional jump to the very next instruction, and a jump back to it at the end. -/
def spinning : List Command := [.jumpIfZero ⟨0⟩ "on", .label "on", .jump "on"]

/-- Both ways out of the first instruction lead to the second, which is listed once. From the last one control goes back
only, and there is no position behind it. -/
theorem spinning_successors : ∃ l, ofCommands spinning = .ok l ∧ l.successors 0 = .ok [1] ∧ l.successors 2 = .ok [1] ∧
    (∀ s, Leads spinning 0 s ↔ s = 1) ∧ (∀ s, Leads spinning 2 s ↔ s = 1) ∧
    ∃ p, Sweeping.pass? l.nodes l.sets = some p ∧ p.sets.length = 3 := by
  have hok : ∃ l ∈ (ofCommands spinning).toOption, (l.successors 0).toOption = some [1] ∧
      (l.successors 2).toOption = some [1] := by decide +kernel
  obtain ⟨l, hl, hfirst, hlast⟩ := exists_ok_of_toOption hok
  obtain ⟨hexact, hpass⟩ := successors_exact hl
  obtain ⟨first, hf, hleads, _⟩ := hexact 0 (by decide)
  obtain ⟨last, hb, hleads', _⟩ := hexact 2 (by decide)
  rw [hf] at hfirst
  rw [hb] at hlast
  obtain rfl : first = [1] := Option.some.inj hfirst
  obtain rfl : last = [1] := Option.some.inj hlast
  refine ⟨l, hl, hf, hb, fun s => ?_, fun s => ?_, hpass l.sets (length_sets hl)⟩
  · rw [← hleads s, List.mem_singleton]
  · rw [← hleads' s, List.mem_singleton]

end Liveness
end RegisterColoring

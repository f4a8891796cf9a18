import RegisterColoring.Flow

/-! The control flow of a listing, told by its instructions alone. Main statements: the label index finds
exactly the instruction that defines a label, and a node follows another exactly if control can go there. -/
namespace RegisterColoring

/-- A computation whose result passes a check has a result. -/
theorem exists_ok_of_toOption {ε α : Type} {e : Except ε α} {p : α → Prop}
    (h : ∃ x ∈ e.toOption, p x) : ∃ x, e = .ok x ∧ p x := by
  cases e with
  | error e => simp [Except.toOption] at h
  | ok x => simpa [Except.toOption] using h

theorem map_eq_ok {ε α β : Type} {x : Except ε α} {f : α → β} {b : β} :
    x.map f = .ok b ↔ ∃ a, x = .ok a ∧ f a = b := by
  cases x <;> simp [Except.map]

theorem bind_eq_ok {ε α β : Type} {x : Except ε α} {f : α → Except ε β} {b : β} :
    x >>= f = .ok b ↔ ∃ a, x = .ok a ∧ f a = .ok b := by
  cases x <;> simp [bind, Except.bind]

/-- A computation of two parts fails with the first, or with the second on the result of the first. -/
theorem bind_eq_error {ε α β : Type} {x : Except ε α} {f : α → Except ε β} {e : ε} :
    x >>= f = .error e ↔ x = .error e ∨ ∃ a, x = .ok a ∧ f a = .error e := by
  cases x <;> simp [bind, Except.bind]

theorem Command.label?_eq_some {c : Command} {name : String} :
    c.label? = some name ↔ c = .label name := by
  cases c <;> simp [Command.label?]

namespace LabelIndex

/-- For each label the index has the one position that defines it, and no other labels. -/
def Locates (labels : LabelIndex) (commands : List Command) : Prop :=
  ∀ name position, labels.lookup name = some position ↔ commands[position]? = some (.label name)

variable {labels result : LabelIndex} {before rest : List Command}

private theorem Locates.skip (h : Locates labels before) {c : Command} (hc : c.label? = none) :
    Locates labels (before ++ [c]) := by
  intro name position
  rw [h name position]
  have hne : c ≠ .label name := fun he => by simp [he, Command.label?] at hc
  grind

private theorem Locates.define (h : Locates labels before) {name : String}
    (hn : labels.lookup name = none) :
    Locates ((name, before.length) :: labels) (before ++ [.label name]) := by
  intro other position
  rw [List.lookup_cons]
  by_cases he : other = name
  · subst other
    have hnot : before[position]? ≠ some (.label name) := fun hp => by
      rw [← h name position, hn] at hp
      cases hp
    grind
  · have hb : (other == name) = false := by simpa using he
    have hne : Command.label name ≠ .label other := by simpa using Ne.symm he
    rw [hb, h other position]
    grind

private theorem extend_locates (h : Locates labels before)
    (hr : extend labels before.length rest = .ok result) : Locates result (before ++ rest) := by
  induction rest generalizing labels before with
  | nil =>
    cases hr
    simpa using h
  | cons c rest ih =>
    rw [extend] at hr
    rw [List.append_cons]
    cases hc : c.label? with
    | none =>
      simp only [hc] at hr
      exact ih (h.skip hc) (by simpa using hr)
    | some name =>
      cases hn : labels.lookup name with
      | some first => simp [hc, hn] at hr
      | none =>
        simp only [hc, hn] at hr
        rw [Command.label?_eq_some.mp hc]
        exact ih (h.define hn) (by simpa using hr)

/-- The labels of a listing are where the index says, each at one position only. -/
theorem locates_of_ofCommands {commands : List Command} (h : ofCommands commands = .ok labels) :
    Locates labels commands := by
  have hnone : Locates [] [] := fun _ _ => by simp
  exact extend_locates hnone h

private theorem extend_eq_error {fault : Fault} (h : Locates labels before)
    (hr : extend labels before.length rest = .error fault) :
    ∃ name first second, fault = .duplicateLabel name first second ∧ first < second ∧
      (before ++ rest)[first]? = some (.label name) ∧ (before ++ rest)[second]? = some (.label name) := by
  induction rest generalizing labels before with
  | nil => cases hr
  | cons c rest ih =>
    rw [extend] at hr
    cases hc : c.label? with
    | none =>
      simp only [hc] at hr
      rw [List.append_cons]
      exact ih (h.skip hc) (by simpa using hr)
    | some name =>
      obtain rfl := Command.label?_eq_some.mp hc
      cases hn : labels.lookup name with
      | none =>
        simp only [hc, hn] at hr
        rw [List.append_cons]
        exact ih (h.define hn) (by simpa using hr)
      | some first =>
        simp only [hc, hn, Except.error.injEq] at hr
        have hfirst := (h name first).mp hn
        have hlt := (List.getElem?_eq_some_iff.mp hfirst).1
        refine ⟨name, first, before.length, hr.symm, hlt, ?_, by simp⟩
        rwa [List.getElem?_append_left hlt]

/-- Labels are refused only if a name is defined at both positions of the complaint. -/
theorem ofCommands_eq_error {commands : List Command} {fault : Fault} (h : ofCommands commands = .error fault) :
    ∃ name first second, fault = .duplicateLabel name first second ∧ first < second ∧
      commands[first]? = some (.label name) ∧ commands[second]? = some (.label name) := by
  have hnone : Locates [] [] := fun _ _ => by simp
  exact extend_eq_error hnone h

end LabelIndex

namespace FlowNode
variable {labels : LabelIndex} {commands : List Command} {nodes : List FlowNode}

private theorem mem_successorsOf {size position : Nat} {c : Command} {successors : List Nat}
    (h : successorsOf labels size position c = .ok successors) (s : Nat) :
    s ∈ successors ↔ (c.fallsThrough = true ∧ s = position + 1 ∧ s < size) ∨
      ∃ name, c.target? = some name ∧ labels.lookup name = some s := by
  have hnext : s ∈ (if c.fallsThrough && position + 1 < size then [position + 1] else []) ↔
      c.fallsThrough = true ∧ s = position + 1 ∧ s < size := by
    split <;> rename_i hc <;> simp at hc <;> grind
  unfold successorsOf at h
  cases ht : c.target? with
  | none =>
    simp only [ht, Except.ok.injEq] at h
    subst successors
    simpa using hnext
  | some name =>
    cases hl : labels.lookup name with
    | none => simp [ht, hl] at h
    | some target =>
      simp only [ht, hl, Except.ok.injEq] at h
      rw [← hnext]
      grind

private theorem mapM_ok_getElem? {α β ε : Type} {f : α → Except ε β} {xs : List α} {ys : List β}
    (h : xs.mapM f = .ok ys) :
    ys.length = xs.length ∧
      ∀ (i : Nat) x, xs[i]? = some x → ∃ y, ys[i]? = some y ∧ f x = .ok y := by
  induction xs generalizing ys with
  | nil =>
    cases h
    simp
  | cons x xs ih =>
    rw [List.mapM_cons, bind_eq_ok] at h
    obtain ⟨y, hx, h⟩ := h
    obtain ⟨rest, hxs, h⟩ := bind_eq_ok.mp h
    cases h
    obtain ⟨hlen, hget⟩ := ih hxs
    refine ⟨by simp [hlen], fun i z hz => ?_⟩
    cases i with
    | zero =>
      cases hz
      exact ⟨y, rfl, hx⟩
    | succ i => exact hget i z hz

/-- A list is refused for the first of its items that is. -/
theorem mapM_eq_error {α β ε : Type} {f : α → Except ε β} {xs : List α} {e : ε} :
    xs.mapM f = .error e ↔ ∃ (i : Nat) (x : α), xs[i]? = some x ∧ f x = .error e ∧
      ∀ j < i, ∀ y, xs[j]? = some y → ∃ z, f y = .ok z := by
  induction xs with
  | nil => simp [pure, Except.pure]
  | cons x xs ih =>
    rw [List.mapM_cons, bind_eq_error]
    constructor
    · rintro (hx | ⟨z, hx, h⟩)
      · exact ⟨0, x, rfl, hx, fun j hj => absurd hj (Nat.not_lt_zero j)⟩
      · rcases bind_eq_error.mp h with hxs | ⟨_, _, h⟩
        · obtain ⟨i, y, hy, hfy, hbefore⟩ := ih.mp hxs
          refine ⟨i + 1, y, hy, hfy, fun j hj w hw => ?_⟩
          cases j with
          | zero =>
            cases hw
            exact ⟨z, hx⟩
          | succ j => exact hbefore j (by omega) w hw
        · cases h
    · rintro ⟨i, y, hy, hfy, hbefore⟩
      cases i with
      | zero =>
        cases hy
        exact .inl hfy
      | succ i =>
        obtain ⟨z, hz⟩ := hbefore 0 (Nat.succ_pos i) x rfl
        have hxs := ih.mpr ⟨i, y, hy, hfy, fun j hj => hbefore (j + 1) (by omega)⟩
        exact .inr ⟨z, hz, bind_eq_error.mpr (.inl hxs)⟩

/-- An instruction is refused exactly if it jumps to a label that the index does not have. -/
theorem ofCommand_eq_error {size position : Nat} {c : Command} {fault : Fault} :
    ofCommand labels size position c = .error fault ↔
      ∃ name, c.target? = some name ∧ labels.lookup name = none ∧ fault = .unknownLabel name position := by
  unfold ofCommand successorsOf
  cases c.target? with
  | none => simp [Except.map]
  | some name =>
    simp only [Option.some.injEq, exists_eq_left']
    cases labels.lookup name <;> simp [Except.map, @eq_comm _ fault]

/-- Nodes are refused only if the instruction at the position of the complaint jumps to its name. -/
theorem ofCommands_eq_error {fault : Fault} (h : ofCommands labels commands = .error fault) :
    ∃ name position c, fault = .unknownLabel name position ∧ commands[position]? = some c ∧
      c.target? = some name := by
  obtain ⟨_, ⟨c, position⟩, hget, hof, _⟩ := mapM_eq_error.mp h
  obtain ⟨name, htarget, _, hfault⟩ := ofCommand_eq_error.mp hof
  have hc : commands[position]? = some c := List.mem_zipIdx_iff_getElem?.mp (List.mem_of_getElem? hget)
  exact ⟨name, position, c, hfault, hc, htarget⟩

theorem length_ofCommands (h : ofCommands labels commands = .ok nodes) :
    nodes.length = commands.length := by
  simpa using (mapM_ok_getElem? h).1

/-- The node at a position has what was found for the instruction there. -/
theorem getElem?_ofCommand (h : ofCommands labels commands = .ok nodes) {n : Nat} {c : Command}
    (hc : commands[n]? = some c) : ∃ successors, successorsOf labels commands.length n c = .ok successors ∧
      nodes[n]? = some ⟨.ofTemps c.def?.toList, .ofTemps c.uses, successors⟩ := by
  have hz : commands.zipIdx[n]? = some (c, n) := by simp [List.getElem?_zipIdx, hc]
  obtain ⟨node, hnode, hof⟩ := (mapM_ok_getElem? h).2 n (c, n) hz
  cases hs : successorsOf labels commands.length n c with
  | error e => simp [ofCommand, hs, Except.map] at hof
  | ok successors =>
    simp only [ofCommand, hs, Except.map, Except.ok.injEq] at hof
    subst node
    exact ⟨successors, rfl, hnode⟩

/-- The label of a jump is defined at exactly one position. -/
theorem exists_label_iff (hl : LabelIndex.ofCommands commands = .ok labels)
    (hn : ofCommands labels commands = .ok nodes) {n : Nat} {c : Command} (hc : commands[n]? = some c)
    {name : String} (ht : c.target? = some name) :
    ∃ target, ∀ p : Nat, commands[p]? = some (.label name) ↔ p = target := by
  obtain ⟨successors, hs, _⟩ := getElem?_ofCommand hn hc
  cases hlookup : labels.lookup name with
  | none => simp [successorsOf, ht, hlookup] at hs
  | some target =>
    refine ⟨target, fun p => ?_⟩
    rw [← LabelIndex.locates_of_ofCommands hl name p, hlookup, Option.some.injEq, eq_comm]

/-- The node at a position writes and reads what the instruction there does. What can follow it are the next
position, if control falls through to it, and the position that defines the label of its jump. -/
theorem getElem?_ofCommands (hl : LabelIndex.ofCommands commands = .ok labels)
    (hn : ofCommands labels commands = .ok nodes) {n : Nat} {c : Command} (hc : commands[n]? = some c) :
    ∃ node, nodes[n]? = some node ∧ (∀ t, t ∈ node.defs ↔ c.def? = some t) ∧
      (∀ t, t ∈ node.uses ↔ t ∈ c.uses) ∧
      ∀ s, s ∈ node.successors ↔ (c.fallsThrough = true ∧ s = n + 1 ∧ s < commands.length) ∨
        ∃ name, c.target? = some name ∧ commands[s]? = some (.label name) := by
  obtain ⟨successors, hs, hnode⟩ := getElem?_ofCommand hn hc
  refine ⟨_, hnode, fun t => by simp [eq_comm], fun t => by simp, fun s => ?_⟩
  rw [mem_successorsOf hs s]
  simp only [LabelIndex.locates_of_ofCommands hl _ s]

end FlowNode
end RegisterColoring

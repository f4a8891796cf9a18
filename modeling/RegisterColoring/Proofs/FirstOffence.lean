import RegisterColoring.Proofs.LiveEquations

/-! Listings without a control flow. Main statement: a listing is refused for the first label that is defined again, or,
if there is none, for the first jump to a label that is nowhere defined; any other listing has a liveness. -/
namespace RegisterColoring

namespace LabelIndex

/-- The instruction at the position defines a label that is already defined before it. -/
def Repeats (commands : List Command) (n : Nat) : Prop :=
  ∃ name, ∃ m < n, commands[m]? = some (.label name) ∧ commands[n]? = some (.label name)

/-- The label is defined at two positions. No label is defined again before the second one, so that the first one is the
only position before it that defines the label. -/
structure FirstRepeat (commands : List Command) (name : String) (first second : Nat) : Prop where
  lt : first < second
  label_first : commands[first]? = some (.label name)
  label_second : commands[second]? = some (.label name)
  least : ∀ n < second, ¬ Repeats commands n
  unique : ∀ n < second, commands[n]? = some (.label name) → n = first

variable {commands : List Command} {labels : LabelIndex} {name : String} {first second n : Nat}

private theorem FirstRepeat.of_least (hlt : first < second) (hfirst : commands[first]? = some (.label name))
    (hsecond : commands[second]? = some (.label name)) (hleast : ∀ n < second, ¬ Repeats commands n) :
    FirstRepeat commands name first second := by
  refine ⟨hlt, hfirst, hsecond, hleast, fun n hn hlabel => ?_⟩
  rcases Nat.lt_trichotomy n first with hbefore | rfl | hafter
  · exact absurd ⟨name, n, hbefore, hlabel, hfirst⟩ (hleast first hlt)
  · rfl
  · exact absurd ⟨name, first, hafter, hfirst, hlabel⟩ (hleast n hn)

theorem FirstRepeat.repeats (h : FirstRepeat commands name first second) : Repeats commands second :=
  ⟨name, first, h.lt, h.label_first, h.label_second⟩

/-- If a label is defined again, there is a first position where one is. -/
theorem exists_firstRepeat_iff :
    (∃ name first second, FirstRepeat commands name first second) ↔ ∃ n, Repeats commands n := by
  refine ⟨fun ⟨_, _, second, h⟩ => ⟨second, h.repeats⟩, fun ⟨n, hn⟩ => ?_⟩
  induction n using Nat.strongRecOn with
  | _ n ih =>
    by_cases hearlier : ∃ m < n, Repeats commands m
    · obtain ⟨m, hm, hrepeats⟩ := hearlier
      exact ih m hm hrepeats
    · obtain ⟨name, first, hlt, hfirst, hsecond⟩ := hn
      exact ⟨name, first, n, .of_least hlt hfirst hsecond fun m hm hrepeats => hearlier ⟨m, hm, hrepeats⟩⟩

/-- Labels are indexed part by part. -/
private theorem extend_append (labels : LabelIndex) (position : Nat) (before rest : List Command) :
    extend labels position (before ++ rest) =
      extend labels position before >>= fun found => extend found (position + before.length) rest := by
  induction before generalizing labels position with
  | nil => rfl
  | cons c before ih =>
    have hlength : position + (c :: before).length = position + 1 + before.length := by
      rw [List.length_cons]
      omega
    rw [List.cons_append, extend, extend, hlength]
    cases c.label? with
    | none => exact ih labels (position + 1)
    | some name =>
      cases hn : labels.lookup name with
      | none =>
        simp only [hn]
        exact ih ((name, position) :: labels) (position + 1)
      | some first =>
        simp only [hn]
        rfl

/-- Labels have an index exactly if none is defined again. -/
theorem exists_ofCommands_iff : (∃ labels, ofCommands commands = .ok labels) ↔ ∀ n, ¬ Repeats commands n := by
  constructor
  · rintro ⟨labels, hlabels⟩ n ⟨name, m, hlt, hm, hn⟩
    have hlocates := locates_of_ofCommands hlabels
    rw [← hlocates name m] at hm
    rw [← hlocates name n, hm] at hn
    cases hn
    exact Nat.lt_irrefl _ hlt
  · intro h
    cases hlabels : ofCommands commands with
    | ok labels => exact ⟨labels, rfl⟩
    | error fault =>
      obtain ⟨name, first, second, _, hlt, hfirst, hsecond⟩ := ofCommands_eq_error hlabels
      exact absurd ⟨name, first, hlt, hfirst, hsecond⟩ (h second)

private theorem FirstRepeat.ofCommands_eq (h : FirstRepeat commands name first second) :
    ofCommands commands = .error (.duplicateLabel name first second) := by
  obtain ⟨hsize, hget⟩ := List.getElem?_eq_some_iff.mp h.label_second
  have hbefore (m : Nat) (hm : m < second) : (commands.take second)[m]? = commands[m]? := List.getElem?_take_of_lt hm
  -- the labels before the second position have an index, and it knows the first position
  obtain ⟨labels, hlabels⟩ : ∃ labels, ofCommands (commands.take second) = .ok labels := by
    rw [exists_ofCommands_iff]
    rintro n ⟨other, m, hlt, hm, hn⟩
    have hn' : n < second := by
      have hlen := (List.getElem?_eq_some_iff.mp hn).1
      rw [List.length_take] at hlen
      omega
    rw [hbefore m (by omega)] at hm
    rw [hbefore n hn'] at hn
    exact h.least n hn' ⟨other, m, hlt, hm, hn⟩
  have hlookup : labels.lookup name = some first := by
    rw [locates_of_ofCommands hlabels, hbefore first h.lt]
    exact h.label_first
  have hcut : commands = commands.take second ++ .label name :: commands.drop (second + 1) := by
    rw [← hget, ← List.drop_eq_getElem_cons hsize, List.take_append_drop]
  unfold ofCommands at hlabels ⊢
  rw [hcut, extend_append, hlabels, List.length_take, Nat.min_eq_left (Nat.le_of_lt hsize), Nat.zero_add]
  change extend labels second (.label name :: _) = _
  rw [extend]
  simp only [Command.label?, hlookup]

/-- Labels are refused exactly for the first one that is defined again. -/
theorem ofCommands_eq_error_iff {fault : Fault} : ofCommands commands = .error fault ↔
    ∃ name first second, fault = .duplicateLabel name first second ∧ FirstRepeat commands name first second := by
  constructor
  · intro h
    obtain ⟨name, first, second, _, hlt, hfirst, hsecond⟩ := ofCommands_eq_error h
    obtain ⟨name, first, second, hrepeat⟩ :=
      exists_firstRepeat_iff.mpr ⟨second, name, first, hlt, hfirst, hsecond⟩
    cases h.symm.trans hrepeat.ofCommands_eq
    exact ⟨name, first, second, rfl, hrepeat⟩
  · rintro ⟨name, first, second, rfl, hrepeat⟩
    exact hrepeat.ofCommands_eq

end LabelIndex

namespace FlowNode

/-- The instruction at the position jumps to a label that is nowhere defined. -/
def DanglesTo (commands : List Command) (name : String) (n : Nat) : Prop :=
  ∃ c, commands[n]? = some c ∧ c.target? = some name ∧ .label name ∉ commands

/-- No instruction before the position jumps to nowhere, but the one there does. -/
structure FirstDangling (commands : List Command) (name : String) (n : Nat) : Prop where
  dangles : DanglesTo commands name n
  least : ∀ m < n, ∀ other, ¬ DanglesTo commands other m

variable {commands : List Command} {labels : LabelIndex} {name : String} {n : Nat} {c : Command}

private theorem danglesTo_iff_error (hl : LabelIndex.ofCommands commands = .ok labels) (hc : commands[n]? = some c) :
    DanglesTo commands name n ↔ ofCommand labels commands.length n c = .error (.unknownLabel name n) := by
  have hlookup : labels.lookup name = none ↔ Command.label name ∉ commands := by
    rw [List.mem_iff_getElem?]
    simp only [← LabelIndex.locates_of_ofCommands hl name]
    cases labels.lookup name <;> simp
  rw [DanglesTo, hc, ofCommand_eq_error, ← hlookup]
  simp

/-- Nodes are refused exactly for the first jump to nowhere. -/
theorem ofCommands_eq_error_iff {fault : Fault} (hl : LabelIndex.ofCommands commands = .ok labels) :
    ofCommands labels commands = .error fault ↔
      ∃ name n, fault = .unknownLabel name n ∧ FirstDangling commands name n := by
  have hindexed (n : Nat) (pair : Command × Nat) :
      commands.zipIdx[n]? = some pair ↔ ∃ c, commands[n]? = some c ∧ (c, n) = pair := by
    simp [List.getElem?_zipIdx]
  unfold ofCommands
  simp only [mapM_eq_error, hindexed]
  constructor
  · rintro ⟨n, _, ⟨c, hc, rfl⟩, herror, hbefore⟩
    obtain ⟨name, _, _, rfl⟩ := ofCommand_eq_error.mp herror
    refine ⟨name, n, rfl, (danglesTo_iff_error hl hc).mpr herror, fun m hm other hdangles => ?_⟩
    obtain ⟨d, hd, _⟩ := id hdangles
    obtain ⟨node, hnode⟩ := hbefore m hm (d, m) ⟨d, hd, rfl⟩
    rw [danglesTo_iff_error hl hd] at hdangles
    cases hnode.symm.trans hdangles
  · rintro ⟨name, n, rfl, hfirst⟩
    obtain ⟨c, hc, _⟩ := id hfirst.dangles
    refine ⟨n, (c, n), ⟨c, hc, rfl⟩, (danglesTo_iff_error hl hc).mp hfirst.dangles, ?_⟩
    rintro m hm _ ⟨d, hd, rfl⟩
    cases hnode : ofCommand labels commands.length m d with
    | ok node => exact ⟨node, rfl⟩
    | error fault =>
      obtain ⟨other, _, _, rfl⟩ := ofCommand_eq_error.mp hnode
      exact absurd ((danglesTo_iff_error hl hd).mpr hnode) (hfirst.least m hm other)

end FlowNode

namespace Liveness
open LabelIndex FlowNode
variable {commands : List Command}

/-- A listing is refused for a label that is defined again; or, if there is none, for a jump to nowhere. -/
theorem ofCommands_eq_error_iff {fault : Fault} : ofCommands commands = .error fault ↔
    (∃ name first second, fault = .duplicateLabel name first second ∧ FirstRepeat commands name first second) ∨
    (∀ n, ¬ Repeats commands n) ∧ ∃ name n, fault = .unknownLabel name n ∧ FirstDangling commands name n := by
  rw [← LabelIndex.ofCommands_eq_error_iff, ← LabelIndex.exists_ofCommands_iff]
  cases hlabels : LabelIndex.ofCommands commands with
  | error other => simp [ofCommands, hlabels, bind, Except.bind]
  | ok labels =>
    have hnodes := @FlowNode.ofCommands_eq_error_iff _ _ fault hlabels
    simp only [← hnodes, ofCommands, hlabels, bind_eq_error]
    simp [pure, Except.pure]

private theorem ofCommands_eq_duplicateLabel_iff {name : String} {first second : Nat} :
    ofCommands commands = .error (.duplicateLabel name first second) ↔ FirstRepeat commands name first second := by
  rw [ofCommands_eq_error_iff]
  constructor
  · rintro (⟨_, _, _, hfault, hrepeat⟩ | ⟨_, _, _, hfault, _⟩)
    · cases hfault
      exact hrepeat
    · cases hfault
  · intro hrepeat
    exact .inl ⟨name, first, second, rfl, hrepeat⟩

private theorem ofCommands_eq_unknownLabel_iff {name : String} {n : Nat} :
    ofCommands commands = .error (.unknownLabel name n) ↔
      (∀ m, ¬ Repeats commands m) ∧ FirstDangling commands name n := by
  rw [ofCommands_eq_error_iff]
  constructor
  · rintro (⟨_, _, _, hfault, _⟩ | ⟨hlabels, _, _, hfault, hdangling⟩)
    · cases hfault
    · cases hfault
      exact ⟨hlabels, hdangling⟩
  · rintro ⟨hlabels, hdangling⟩
    exact .inr ⟨hlabels, name, n, rfl, hdangling⟩

/-- A listing has a liveness exactly if no label is defined again and no jump goes nowhere. -/
theorem exists_ofCommands_iff : (∃ l, ofCommands commands = .ok l) ↔
    (∀ n, ¬ Repeats commands n) ∧ ∀ name n, ¬ DanglesTo commands name n := by
  constructor
  · rintro ⟨l, hl⟩
    obtain ⟨labels, hlabels, hnodes, _⟩ := ofCommands_eq_ok hl
    refine ⟨LabelIndex.exists_ofCommands_iff.mp ⟨labels, hlabels⟩, ?_⟩
    rintro name n ⟨c, hc, htarget, hnowhere⟩
    obtain ⟨target, hlabel⟩ := exists_label_iff hlabels hnodes hc htarget
    exact hnowhere (List.mem_of_getElem? ((hlabel target).mpr rfl))
  · rintro ⟨hlabels, htargets⟩
    cases hl : ofCommands commands with
    | ok l => exact ⟨l, rfl⟩
    | error fault =>
      rcases ofCommands_eq_error_iff.mp hl with ⟨name, first, second, _, hrepeat⟩ | ⟨_, name, n, _, hdangling⟩
      · exact absurd hrepeat.repeats (hlabels second)
      · exact absurd hdangling.dangles (htargets name n)

/-- A listing is refused exactly for its first offence, and repeated labels come before jumps to nowhere. If a label is
defined again, the complaint names the first position where one is, and the position that defined it before. Otherwise,
if a jump goes nowhere, the complaint names the first such position and its label. Otherwise there is a liveness. -/
theorem refused_for_first_offence (commands : List Command) :
    (∀ name first second, ofCommands commands = .error (.duplicateLabel name first second) ↔
      FirstRepeat commands name first second) ∧
    ((∃ name first second, ofCommands commands = .error (.duplicateLabel name first second)) ↔
      ∃ n, Repeats commands n) ∧
    (∀ name n, ofCommands commands = .error (.unknownLabel name n) ↔
      (∀ m, ¬ Repeats commands m) ∧ FirstDangling commands name n) ∧
    ((∃ name n, ofCommands commands = .error (.unknownLabel name n)) ↔
      (∀ m, ¬ Repeats commands m) ∧ ∃ name n, DanglesTo commands name n) ∧
    ((∃ l, ofCommands commands = .ok l) ↔
      (∀ m, ¬ Repeats commands m) ∧ ∀ name n, ¬ DanglesTo commands name n) := by
  refine ⟨fun _ _ _ => ofCommands_eq_duplicateLabel_iff, ?_, fun _ _ => ofCommands_eq_unknownLabel_iff, ?_,
    exists_ofCommands_iff⟩
  · simp only [ofCommands_eq_duplicateLabel_iff]
    exact exists_firstRepeat_iff
  · simp only [ofCommands_eq_unknownLabel_iff]
    constructor
    · rintro ⟨name, n, hlabels, hdangling⟩
      exact ⟨hlabels, name, n, hdangling.dangles⟩
    · rintro ⟨hlabels, name, n, hdangles⟩
      -- there is no liveness, and no repeated label to blame
      cases hl : ofCommands commands with
      | ok l => exact absurd hdangles ((exists_ofCommands_iff.mp ⟨l, hl⟩).2 name n)
      | error fault =>
        rcases ofCommands_eq_error_iff.mp hl with ⟨name, first, second, _, hrepeat⟩ | ⟨_, name, n, _, hdangling⟩
        · exact absurd hrepeat.repeats (hlabels second)
        · exact ⟨name, n, hlabels, hdangling⟩

/-- A jump to nowhere, and after it two labels that are each defined twice. -/
def tangled : List Command :=
  [.jump "nowhere", .label "outer", .label "inner", .ret none, .label "inner", .label "outer"]

/-- The jump stands before them, but the label that is defined again first is to blame. -/
theorem tangled_refused : DanglesTo tangled "nowhere" 0 ∧
    ofCommands tangled = .error (.duplicateLabel "inner" 2 4) := by
  have hdistinct : ∀ n < 4, ∀ m < n, tangled[m]? ≠ tangled[n]? := by decide
  have hrepeat : FirstRepeat tangled "inner" 2 4 := {
    lt := by decide
    label_first := rfl
    label_second := rfl
    least := fun n hn ⟨_, m, hm, hlabel, hagain⟩ => hdistinct n hn m hm (hlabel.trans hagain.symm)
    unique := by decide }
  exact ⟨⟨_, rfl, rfl, by decide⟩, ((refused_for_first_offence tangled).1 "inner" 2 4).mpr hrepeat⟩

end Liveness
end RegisterColoring

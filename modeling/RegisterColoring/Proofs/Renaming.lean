import Mathlib.Data.List.Forall2
import RegisterColoring.Proofs.Core

/-! Listings of the same shape: with other labels, and with other temporaries in the same order. Main statement: the
liveness of such a listing is that of the other with its temporaries renamed, pass by pass. -/
namespace RegisterColoring

/-- Two computations that come out alike: both have results, which are related, or both fail, the second one with the
failure of the first under other names. -/
inductive Mirrors {ε α β : Type} (R : α → β → Prop) (rename : ε → ε) : Except ε α → Except ε β → Prop
  | ok {a : α} {b : β} : R a b → Mirrors R rename (.ok a) (.ok b)
  | error (e : ε) : Mirrors R rename (.error e) (.error (rename e))

namespace Mirrors
variable {ε α β γ δ : Type} {R : α → β → Prop} {S : γ → δ → Prop} {rename : ε → ε}

theorem exists_ok {x : Except ε α} {y : Except ε β} {a : α} (h : Mirrors R rename x y) (hx : x = .ok a) :
    ∃ b, y = .ok b ∧ R a b := by
  cases h with
  | ok hab =>
    cases hx
    exact ⟨_, rfl, hab⟩
  | error e => cases hx

theorem eq_error {x : Except ε α} {y : Except ε β} {e : ε} (h : Mirrors R rename x y) (hx : x = .error e) :
    y = .error (rename e) := by
  cases h with
  | ok hab => cases hx
  | error e =>
    cases hx
    rfl

theorem bind {x : Except ε α} {y : Except ε β} {f : α → Except ε γ} {g : β → Except ε δ} (h : Mirrors R rename x y)
    (hfg : ∀ a b, x = .ok a → y = .ok b → R a b → Mirrors S rename (f a) (g b)) :
    Mirrors S rename (x >>= f) (y >>= g) := by
  cases h with
  | ok hab => exact hfg _ _ rfl rfl hab
  | error e => exact .error e

theorem map {x : Except ε α} {y : Except ε β} {f : α → γ} {g : β → δ} (h : Mirrors R rename x y)
    (hfg : ∀ a b, R a b → S (f a) (g b)) : Mirrors S rename (x.map f) (y.map g) := by
  cases h with
  | ok hab => exact .ok (hfg _ _ hab)
  | error e => exact .error e

/-- Working through related items in order fails at the same one, or gives results that are renamed one by one. -/
theorem mapM {f : α → Except ε γ} {g : β → Except ε δ} {ρ : γ → δ} {xs : List α} {ys : List β}
    (h : List.Forall₂ R xs ys) (hfg : ∀ x y, R x y → Mirrors (fun a b => b = ρ a) rename (f x) (g y)) :
    Mirrors (fun as bs => bs = as.map ρ) rename (xs.mapM f) (ys.mapM g) := by
  induction h with
  | nil => exact .ok rfl
  | cons hxy _ ih =>
    rw [List.mapM_cons, List.mapM_cons]
    refine (hfg _ _ hxy).bind fun a b _ _ hab => ih.bind fun as bs _ _ habs => .ok ?_
    rw [hab, habs, List.map_cons]

end Mirrors

/-! ### Temporaries under other names -/

namespace Temp
variable {f : Temp → Temp} {support : List Temp} {a b : Temp}

/-- The function keeps the order of some temporaries. Of all temporaries only the identity does. -/
def AscendingOn (f : Temp → Temp) (support : List Temp) : Prop :=
  ∀ a ∈ support, ∀ b ∈ support, a < b → f a < f b

theorem AscendingOn.inj (hf : AscendingOn f support) (ha : a ∈ support) (hb : b ∈ support) (h : f a = f b) :
    a = b := by
  rcases Nat.lt_trichotomy a.serial.toNat b.serial.toNat with hlt | heq | hgt
  · exact absurd h (ne_of_lt (hf a ha b hb hlt))
  · cases a; cases b
    exact congrArg Temp.mk (UInt32.toNat_inj.mp heq)
  · exact absurd h.symm (ne_of_lt (hf b hb a ha hgt))

theorem AscendingOn.pairwise_map {ts : List Temp} (hf : AscendingOn f support) (hts : ∀ t ∈ ts, t ∈ support)
    (h : ts.Pairwise (· < ·)) : (ts.map f).Pairwise (· < ·) := by
  rw [List.pairwise_map]
  exact h.imp_of_mem fun ha hb hlt => hf _ (hts _ ha) _ (hts _ hb) hlt

end Temp

namespace TempSet
open Temp
variable {f : Temp → Temp} {support : List Temp} {r s : TempSet} {t : Temp}

def rename (f : Temp → Temp) (s : TempSet) : TempSet := ofTemps (s.toList.map f)

@[simp] theorem mem_rename : t ∈ rename f s ↔ ∃ u, u ∈ s ∧ f u = t := by
  simp [rename]

@[simp] theorem rename_empty (f : Temp → Temp) : rename f ∅ = ∅ := by
  simp [rename, ofTemps]

theorem rename_ofTemps (f : Temp → Temp) (ts : List Temp) : rename f (ofTemps ts) = ofTemps (ts.map f) :=
  Std.ExtTreeSet.ext_mem fun t => by simp

theorem rename_union (f : Temp → Temp) (r s : TempSet) : rename f (r ∪ s) = rename f r ∪ rename f s :=
  Std.ExtTreeSet.ext_mem fun t => by simp [or_and_right, exists_or]

theorem rename_unionMap {α : Type} (f : Temp → Temp) (sets : α → TempSet) (xs : List α) :
    rename f (unionMap sets xs) = unionMap (fun x => rename f (sets x)) xs :=
  Std.ExtTreeSet.ext_mem fun t => by
    simp only [mem_rename, mem_unionMap]
    grind

/-- All members are among the temporaries whose order is kept. -/
def Inside (s : TempSet) (support : List Temp) : Prop := ∀ t, t ∈ s → t ∈ support

theorem apply_mem_rename (hf : AscendingOn f support) (hs : Inside s support) (ht : t ∈ support) :
    f t ∈ rename f s ↔ t ∈ s := by
  rw [mem_rename]
  constructor
  · rintro ⟨u, hu, hut⟩
    exact hf.inj (hs u hu) ht hut ▸ hu
  · intro h
    exact ⟨t, h, rfl⟩

theorem rename_diff (hf : AscendingOn f support) (hr : Inside r support) (hs : Inside s support) :
    rename f (r \ s) = rename f r \ rename f s := by
  apply Std.ExtTreeSet.ext_mem
  intro t
  rw [Std.ExtTreeSet.mem_diff_iff, mem_rename, mem_rename]
  constructor
  · rintro ⟨u, hu, rfl⟩
    obtain ⟨hur, hus⟩ := Std.ExtTreeSet.mem_diff_iff.mp hu
    exact ⟨⟨u, hur, rfl⟩, mt (apply_mem_rename hf hs (hr u hur)).mp hus⟩
  · rintro ⟨⟨u, hur, rfl⟩, hus⟩
    exact ⟨u, Std.ExtTreeSet.mem_diff_iff.mpr ⟨hur, mt (apply_mem_rename hf hs (hr u hur)).mpr hus⟩, rfl⟩

theorem rename_inj (hf : AscendingOn f support) (hr : Inside r support) (hs : Inside s support)
    (h : rename f r = rename f s) : r = s := by
  apply Std.ExtTreeSet.ext_mem
  intro t
  constructor
  · intro ht
    exact (apply_mem_rename hf hs (hr t ht)).mp (h ▸ mem_rename.mpr ⟨t, ht, rfl⟩)
  · intro ht
    exact (apply_mem_rename hf hr (hs t ht)).mp (h ▸ mem_rename.mpr ⟨t, ht, rfl⟩)

/-- The members keep their order. -/
theorem toList_rename (hf : AscendingOn f support) (hs : Inside s support) :
    (rename f s).toList = s.toList.map f :=
  toList_ofTemps (hf.pairwise_map (fun t ht => hs t (Std.ExtTreeSet.mem_toList.mp ht)) (pairwise_toList s))

theorem size_rename (hf : AscendingOn f support) (hs : Inside s support) : (rename f s).size = s.size := by
  rw [← Std.ExtTreeSet.length_toList, toList_rename hf hs, List.length_map, Std.ExtTreeSet.length_toList]

end TempSet

/-! ### Instructions of the same shape -/

/-- The instruction is of the same kind and has other names. Its operator, constant or address may be any. -/
inductive Command.Renamed (f : Temp → Temp) (g : String → String) : Command → Command → Prop
  | compute (op op' : Operator) (dst lhs rhs : Temp) :
      Renamed f g (.compute op dst lhs rhs) (.compute op' (f dst) (f lhs) (f rhs))
  | const (dst : Temp) (value value' : Int64) : Renamed f g (.const dst value) (.const (f dst) value')
  | load (dst : Temp) (addr addr' : Address) : Renamed f g (.load dst addr) (.load (f dst) addr')
  | store (src : Temp) (addr addr' : Address) : Renamed f g (.store src addr) (.store (f src) addr')
  | print (src : Temp) : Renamed f g (.print src) (.print (f src))
  | ret (value : Option Temp) : Renamed f g (.ret value) (.ret (value.map f))
  | jumpIfZero (cond : Temp) (target : String) : Renamed f g (.jumpIfZero cond target) (.jumpIfZero (f cond) (g target))
  | jump (target : String) : Renamed f g (.jump target) (.jump (g target))
  | label (name : String) : Renamed f g (.label name) (.label (g name))

/-- The same failure under other names. Positions and numbers of registers stay. -/
def Fault.rename (f : Temp → Temp) (g : String → String) : Fault → Fault
  | duplicateLabel name first second => .duplicateLabel (g name) first second
  | unknownLabel name position => .unknownLabel (g name) position
  | tooFewRegisters registers uncolorable => .tooFewRegisters registers (uncolorable.map f)
  | positionOutOfRange position size => .positionOutOfRange position size
  | notInGraph temp => .notInGraph (f temp)
  | invalidPool reason => .invalidPool reason

variable {f : Temp → Temp} {g : String → String} {support : List Temp} {commands commands' : List Command}

namespace Command.Renamed
variable {c c' : Command}

theorem def?_eq (h : Renamed f g c c') : c'.def? = c.def?.map f := by
  cases h <;> rfl

theorem uses_eq (h : Renamed f g c c') : c'.uses = c.uses.map f := by
  cases h with
  | ret value => cases value <;> rfl
  | _ => rfl

theorem fallsThrough_eq (h : Renamed f g c c') : c'.fallsThrough = c.fallsThrough := by
  cases h <;> rfl

theorem target?_eq (h : Renamed f g c c') : c'.target? = c.target?.map g := by
  cases h <;> rfl

theorem label?_eq (h : Renamed f g c c') : c'.label? = c.label?.map g := by
  cases h <;> rfl

end Command.Renamed

namespace LabelIndex

def rename (g : String → String) (labels : LabelIndex) : LabelIndex := labels.map (Prod.map g id)

theorem lookup_rename (hg : Function.Injective g) (labels : LabelIndex) (name : String) :
    (rename g labels).lookup (g name) = labels.lookup name := by
  induction labels with
  | nil => rfl
  | cons entry labels ih =>
    obtain ⟨key, position⟩ := entry
    have hkey : (g name == g key) = (name == key) := by
      rw [Bool.eq_iff_iff, beq_iff_eq, beq_iff_eq, hg.eq_iff]
    rw [rename, List.map_cons, Prod.map_apply, List.lookup_cons, List.lookup_cons, hkey, ← rename, ih]
    rfl

private theorem mirrors_extend (hg : Function.Injective g) (h : List.Forall₂ (Command.Renamed f g) commands commands')
    (labels : LabelIndex) (position : Nat) :
    Mirrors (fun found found' => found' = rename g found) (Fault.rename f g) (extend labels position commands)
      (extend (rename g labels) position commands') := by
  induction h generalizing labels position with
  | nil => exact .ok rfl
  | @cons c c' rest rest' hc _ ih =>
    rw [extend, extend, hc.label?_eq]
    cases c.label? with
    | none => exact ih labels (position + 1)
    | some name =>
      simp only [Option.map_some, lookup_rename hg]
      cases labels.lookup name with
      | none => exact ih ((name, position) :: labels) (position + 1)
      | some first => exact .error (Fault.duplicateLabel name first position)

/-- Labels under other names stand at the same positions. -/
theorem mirrors_ofCommands (hg : Function.Injective g) (h : List.Forall₂ (Command.Renamed f g) commands commands') :
    Mirrors (fun labels labels' => labels' = rename g labels) (Fault.rename f g) (ofCommands commands)
      (ofCommands commands') :=
  mirrors_extend hg h [] 0

end LabelIndex

namespace FlowNode

def rename (f : Temp → Temp) (node : FlowNode) : FlowNode :=
  ⟨TempSet.rename f node.defs, TempSet.rename f node.uses, node.successors⟩

variable {c c' : Command} {labels : LabelIndex}

private theorem mirrors_successorsOf (hg : Function.Injective g) (h : Command.Renamed f g c c') (size position : Nat) :
    Mirrors (fun successors successors' => successors' = successors) (Fault.rename f g)
      (successorsOf labels size position c) (successorsOf (labels.rename g) size position c') := by
  unfold successorsOf
  rw [h.fallsThrough_eq, h.target?_eq]
  cases c.target? with
  | none => exact .ok rfl
  | some name =>
    simp only [Option.map_some, LabelIndex.lookup_rename hg]
    cases labels.lookup name with
    | none => exact .error (Fault.unknownLabel name position)
    | some target => exact .ok rfl

private theorem mirrors_ofCommand (hg : Function.Injective g) (h : Command.Renamed f g c c') (size position : Nat) :
    Mirrors (fun node node' => node' = rename f node) (Fault.rename f g) (ofCommand labels size position c)
      (ofCommand (labels.rename g) size position c') := by
  refine (mirrors_successorsOf hg h size position).map ?_
  rintro successors _ rfl
  rw [h.def?_eq, h.uses_eq, rename, TempSet.rename_ofTemps, TempSet.rename_ofTemps, Option.toList_map]

private theorem forall₂_zipIdx {α β : Type} {R : α → β → Prop} {xs : List α} {ys : List β} (h : List.Forall₂ R xs ys)
    (n : Nat) : List.Forall₂ (fun p q => R p.1 q.1 ∧ q.2 = p.2) (xs.zipIdx n) (ys.zipIdx n) := by
  induction h generalizing n with
  | nil => exact .nil
  | cons hxy _ ih =>
    rw [List.zipIdx_cons, List.zipIdx_cons]
    exact .cons ⟨hxy, rfl⟩ (ih (n + 1))

/-- The nodes of such a listing are those of the other with their temporaries renamed. -/
theorem mirrors_ofCommands (hg : Function.Injective g) (h : List.Forall₂ (Command.Renamed f g) commands commands')
    (labels : LabelIndex) :
    Mirrors (fun nodes nodes' => nodes' = nodes.map (rename f)) (Fault.rename f g) (ofCommands labels commands)
      (ofCommands (labels.rename g) commands') := by
  refine Mirrors.mapM (forall₂_zipIdx h 0) ?_
  rintro ⟨c, position⟩ ⟨c', position'⟩ ⟨hc, hposition⟩
  dsimp only at hc hposition ⊢
  rw [hposition, ← h.length_eq]
  exact mirrors_ofCommand hg hc commands.length position

end FlowNode

/-! ### Passes -/

namespace LiveSets

def rename (f : Temp → Temp) (sets : LiveSets) : LiveSets :=
  ⟨TempSet.rename f sets.liveIn, TempSet.rename f sets.liveOut⟩

theorem liveInAt_map_rename (f : Temp → Temp) (sets : List LiveSets) (n : Nat) :
    liveInAt (sets.map (rename f)) n = TempSet.rename f (liveInAt sets n) := by
  rw [liveInAt, liveInAt, List.getElem?_map]
  cases sets[n]? with
  | none => exact (TempSet.rename_empty f).symm
  | some a => rfl

variable {mentioned : TempSet} {as bs : List LiveSets}

private theorem map_rename_inj (hf : Temp.AscendingOn f support) (hm : TempSet.Inside mentioned support)
    (ha : Covered mentioned as) (hb : Covered mentioned bs) (h : as.map (rename f) = bs.map (rename f)) : as = bs := by
  induction as generalizing bs with
  | nil => exact (List.map_eq_nil_iff.mp h.symm).symm
  | cons a as ih =>
    cases bs with
    | nil => cases h
    | cons b bs =>
      rw [List.map_cons, List.map_cons, List.cons.injEq] at h
      obtain ⟨⟨hain, haout⟩, has⟩ := List.forall_mem_cons.mp ha
      obtain ⟨⟨hbin, hbout⟩, hbs⟩ := List.forall_mem_cons.mp hb
      have hin : a.liveIn = b.liveIn := TempSet.rename_inj hf (fun t ht => hm t (hain t ht))
        (fun t ht => hm t (hbin t ht)) (congrArg liveIn h.1)
      have hout : a.liveOut = b.liveOut := TempSet.rename_inj hf (fun t ht => hm t (haout t ht))
        (fun t ht => hm t (hbout t ht)) (congrArg liveOut h.1)
      have hab : a = b := by cases a; cases b; exact congrArg₂ LiveSets.mk hin hout
      rw [hab, ih has hbs h.2]

end LiveSets

namespace FlowNode
open LiveSets TempSet
variable {nodes : List FlowNode} {old : List LiveSets}

private theorem transfer_rename (hf : Temp.AscendingOn f support) {node : FlowNode} {liveIn : Nat → TempSet}
    (hdefs : Inside node.defs support) (hlive : ∀ s, Inside (liveIn s) support) :
    (rename f node).transfer (fun s => TempSet.rename f (liveIn s)) = (node.transfer liveIn).rename f := by
  have hafter : Inside (unionMap liveIn node.successors) support := by
    intro t ht
    obtain ⟨s, _, hs⟩ := mem_unionMap.mp ht
    exact hlive s t hs
  simp only [transfer, rename, LiveSets.rename, rename_union, rename_diff hf hafter hdefs, rename_unionMap]

/-- A pass over renamed nodes finds the renamed sets. -/
theorem sweep_rename (hf : Temp.AscendingOn f support) (hn : Inside (temps nodes) support)
    (hold : Covered (temps nodes) old) :
    sweep (nodes.map (rename f)) (old.map (LiveSets.rename f)) = (sweep nodes old).map (LiveSets.rename f) := by
  have hnew := sweep_covered nodes hold
  apply List.ext_getElem?
  intro n
  -- from the last position to the first, like the pass itself
  induction hk : nodes.length - n using Nat.strongRecOn generalizing n with
  | _ k ih =>
    rw [getElem?_sweep, List.getElem?_map, List.getElem?_map, getElem?_sweep]
    cases hnode : nodes[n]? with
    | none => rfl
    | some node =>
      have hlt : n < nodes.length := (List.getElem?_eq_some_iff.mp hnode).1
      have hdefs : Inside node.defs support := fun t ht =>
        hn t (mem_temps.mpr ⟨node, List.mem_of_getElem? hnode, .inl ht⟩)
      simp only [Option.map_some]
      rw [← transfer_rename hf hdefs]
      · refine congrArg (fun liveIn => some ((rename f node).transfer liveIn)) (funext fun s => ?_)
        split
        · next hs =>
          rw [← liveInAt_map_rename, liveInAt, liveInAt, ih (nodes.length - s) (by omega) s rfl]
        · exact liveInAt_map_rename f old s
      · intro s t ht
        split at ht
        · exact hn t (liveInAt_covered hnew s ht)
        · exact hn t (liveInAt_covered hold s ht)

theorem unswept_rename (f : Temp → Temp) (nodes : List FlowNode) :
    unswept (nodes.map (rename f)) = (unswept nodes).map (LiveSets.rename f) := by
  have hempty : LiveSets.rename f .empty = .empty := by simp [LiveSets.rename, LiveSets.empty]
  rw [unswept, unswept, List.map_map, List.map_map]
  apply List.map_congr_left
  intro node _
  exact hempty.symm

private theorem next_rename (hf : Temp.AscendingOn f support) (hn : Inside (temps nodes) support)
    {state : Rising nodes} {state' : Rising (nodes.map (rename f))}
    (h : state'.sets = state.sets.map (LiveSets.rename f)) :
    state'.next.sets = state.next.sets.map (LiveSets.rename f) := by
  change sweep (nodes.map (rename f)) state'.sets = _
  rw [h, sweep_rename hf hn state.covered]
  rfl

/-- Passes over renamed nodes find the renamed sets, and end after as many. -/
theorem passes_rename (hf : Temp.AscendingOn f support) (hn : Inside (temps nodes) support)
    (state : Rising nodes) (state' : Rising (nodes.map (rename f)))
    (h : state'.sets = state.sets.map (LiveSets.rename f)) :
    state'.passes = state.passes.map (List.map (LiveSets.rename f)) := by
  fun_induction Rising.passes state generalizing state' with
  | case1 state next hsame =>
    have hsame' : state'.next.sets = state'.sets := by
      rw [next_rename hf hn h, h]
      exact congrArg (List.map (LiveSets.rename f)) hsame
    rw [Rising.passes, dif_pos hsame', List.map_nil]
  | case2 state next hmore ih =>
    have hnext := next_rename hf hn h
    have hmore' : state'.next.sets ≠ state'.sets := by
      intro hsame'
      rw [hnext, h] at hsame'
      exact hmore (map_rename_inj hf hn next.covered state.covered hsame')
    rw [Rising.passes, dif_neg hmore', List.map_cons, ih state'.next hnext, hnext]

end FlowNode

/-! ### Liveness -/

namespace Liveness
open FlowNode TempSet
variable {l : Liveness} {n : Nat} {t : Temp}

def rename (f : Temp → Temp) (l : Liveness) : Liveness :=
  ⟨l.nodes.map (FlowNode.rename f), l.history.map (List.map (LiveSets.rename f))⟩

theorem ofNodes_rename (hf : Temp.AscendingOn f support) {nodes : List FlowNode}
    (hn : Inside (FlowNode.temps nodes) support) :
    ofNodes (nodes.map (FlowNode.rename f)) = (ofNodes nodes).rename f :=
  congrArg (Liveness.mk _) (passes_rename hf hn _ _ (unswept_rename f nodes))

theorem sets_rename (f : Temp → Temp) (l : Liveness) : (l.rename f).sets = l.sets.map (LiveSets.rename f) := by
  rw [sets, sets, rename, unswept_rename, List.getLastD_eq_getLast?, List.getLastD_eq_getLast?, List.getLast?_map]
  cases l.history.getLast? <;> rfl

private theorem item_map {α β γ δ : Type} {ρ : α → β} {p : β → γ} {q : α → δ} {r : δ → γ} (items : List α) (n : Nat)
    (h : ∀ x, p (ρ x) = r (q x)) : (item (items.map ρ) n).map p = ((item items n).map q).map r := by
  rw [item, item, List.getElem?_map, List.length_map]
  cases items[n]? with
  | none => rfl
  | some x => exact congrArg Except.ok (h x)

theorem liveIn_rename (f : Temp → Temp) (l : Liveness) (n : Nat) :
    (l.rename f).liveIn n = (l.liveIn n).map (TempSet.rename f) := by
  rw [liveIn, sets_rename]
  exact item_map l.sets n fun _ => rfl

theorem liveOut_rename (f : Temp → Temp) (l : Liveness) (n : Nat) :
    (l.rename f).liveOut n = (l.liveOut n).map (TempSet.rename f) := by
  rw [liveOut, sets_rename]
  exact item_map l.sets n fun _ => rfl

theorem defs_rename (f : Temp → Temp) (l : Liveness) (n : Nat) :
    (l.rename f).defs n = (l.defs n).map (TempSet.rename f) :=
  item_map l.nodes n fun _ => rfl

theorem uses_rename (f : Temp → Temp) (l : Liveness) (n : Nat) :
    (l.rename f).uses n = (l.uses n).map (TempSet.rename f) :=
  item_map l.nodes n fun _ => rfl

private theorem exists_mem_map {x : Except Fault TempSet} :
    (∃ set, x.map (TempSet.rename f) = .ok set ∧ t ∈ set) ↔ ∃ u, (∃ set, x = .ok set ∧ u ∈ set) ∧ f u = t := by
  cases x with
  | error fault => simp [Except.map]
  | ok set => simp [Except.map]

theorem writes_rename : (l.rename f).Writes n t ↔ ∃ u, l.Writes n u ∧ f u = t := by
  rw [Writes, defs_rename]
  exact exists_mem_map

theorem reads_rename : (l.rename f).Reads n t ↔ ∃ u, l.Reads n u ∧ f u = t := by
  rw [Reads, uses_rename]
  exact exists_mem_map

theorem liveAfter_rename : (l.rename f).LiveAfter n t ↔ ∃ u, l.LiveAfter n u ∧ f u = t := by
  rw [LiveAfter, liveOut_rename]
  exact exists_mem_map

/-- The liveness of a listing of the same shape is that of the other with its temporaries renamed. -/
theorem mirrors_ofCommands (hf : Temp.AscendingOn f support) (hg : Function.Injective g)
    (hs : ∀ c ∈ commands, ∀ t ∈ c.temps, t ∈ support) (h : List.Forall₂ (Command.Renamed f g) commands commands') :
    Mirrors (fun l l' => l' = l.rename f) (Fault.rename f g) (ofCommands commands) (ofCommands commands') := by
  unfold ofCommands
  refine (LabelIndex.mirrors_ofCommands hg h).bind ?_
  rintro labels _ hlabels _ rfl
  refine (FlowNode.mirrors_ofCommands hg h labels).bind ?_
  rintro nodes _ hnodes _ rfl
  refine .ok (ofNodes_rename hf fun t ht => ?_)
  have hl : ofCommands commands = .ok (ofNodes nodes) :=
    bind_eq_ok.mpr ⟨labels, hlabels, bind_eq_ok.mpr ⟨nodes, hnodes, rfl⟩⟩
  obtain ⟨c, hc, hct⟩ := (mem_temps_iff hl).mp ht
  exact hs c hc t hct

end Liveness
end RegisterColoring

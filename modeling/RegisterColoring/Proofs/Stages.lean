import RegisterColoring.Allocation.Progress
import RegisterColoring.Proofs.Recount

/-! Coloring step by step. Main statement: the numbers of neighbours that are kept are right at every moment, so the
steps take the same course as counting anew, and every vertex goes from the worklist over the stack to its color, the
one put aside last being colored first. -/
namespace RegisterColoring

namespace Progress
open InterferenceGraph Elimination Allocation
variable {g : InterferenceGraph} {pool : RegisterPool} {p next : Progress} {told : Event} {t u : Temp} {k n i : Nat}
  {order : List Temp} {left : TempSet} {final : Std.ExtTreeMap Temp Nat}

/-! ### What a moment knows -/

/-- Only vertices have a stage, and it tells where they are kept. The numbers of neighbours are right for all that is
still in the graph. -/
structure Sound (g : InterferenceGraph) (p : Progress) : Prop where
  vertex : ∀ t stage, p.stages[t]? = some stage → t ∈ g.vertices
  degrees : ∀ t, t ∈ p.worklist → p.degrees[t]? = some (g.neighbors t ∩ p.worklist).size
  waiting : ∀ t, p.stages[t]? = some .waiting ↔ t ∈ p.worklist
  aside : ∀ t, p.stages[t]? = some .aside ↔ t ∈ p.stack
  colored : ∀ t, p.stages[t]? = some .colored ↔ t ∈ p.assignment

/-- Coloring can start with any graph. -/
theorem start_eq (g : InterferenceGraph) : start g = .ok {
    worklist := .ofTemps g.vertices
    degrees := .ofList ((counted g).map fun e => (e.temp, e.degree))
    stack := []
    stages := g.adjacency.map fun _ _ => .waiting
    assignment := ∅ } := by
  rw [start, worklist_eq]
  rfl

theorem exists_start (g : InterferenceGraph) : ∃ p, start g = .ok p := ⟨_, start_eq g⟩

private theorem getElem?_counted (ht : t ∈ g.vertices) :
    (Std.ExtTreeMap.ofList ((counted g).map fun e => (e.temp, e.degree)))[t]? = some (g.degree t) := by
  apply Std.ExtTreeMap.getElem?_ofList_of_mem Std.ReflCmp.compare_self
  · rw [counted, List.map_map, List.pairwise_map]
    exact (Temp.nodup_of_ascending (pairwise_vertices g)).imp fun hne => mt Std.LawfulEqCmp.compare_eq_iff_eq.mp hne
  · exact List.mem_map_of_mem (List.mem_map_of_mem ht)

theorem sound_start (hg : g.Simple) (h : start g = .ok p) : Sound g p := by
  cases (start_eq g).symm.trans h
  have hstage (t : Temp) (stage : Stage) :
      (g.adjacency.map fun _ _ => Stage.waiting)[t]? = some stage ↔ t ∈ g.vertices ∧ stage = .waiting := by
    rw [Std.ExtTreeMap.getElem?_map, mem_vertices, Std.ExtTreeMap.mem_iff_isSome_getElem?]
    cases g.adjacency[t]? <;> simp [eq_comm]
  constructor
  · intro t stage ht
    exact ((hstage t stage).mp ht).1
  · intro t ht
    have hall : g.neighbors t ∩ TempSet.ofTemps g.vertices = g.neighbors t := by
      apply Std.ExtTreeSet.ext_mem
      intro s
      rw [Std.ExtTreeSet.mem_inter_iff, TempSet.mem_ofTemps]
      exact ⟨And.left, fun hs => ⟨hs, hg.mem_vertices hs⟩⟩
    rw [getElem?_counted (TempSet.mem_ofTemps.mp ht), hall]
    rfl
  · intro t
    rw [hstage, TempSet.mem_ofTemps]
    simp
  · simp
  · simp

private theorem getElem?_lower {stages : Std.ExtTreeMap Temp Stage} {ts : List Temp} (hts : ts.Nodup)
    (degrees : Std.ExtTreeMap Temp Nat) :
    (lower stages degrees ts)[u]? =
      if u ∈ ts ∧ stages[u]? = some Stage.waiting then degrees[u]?.map (· - 1) else degrees[u]? := by
  induction ts generalizing degrees with
  | nil => simp [lower]
  | cons t ts ih =>
    obtain ⟨ht, hts⟩ := List.nodup_cons.mp hts
    rw [lower, List.foldl_cons, ← lower, ih hts]
    by_cases hu : u = t
    · subst hu
      by_cases hw : stages[u]? = some Stage.waiting <;> simp [ht, hw]
    · by_cases hw : stages[t]? = some Stage.waiting <;> simp [hu, hw, Std.ExtTreeMap.getElem?_modify, Ne.symm hu]

/-- The stage of one vertex is changed, and no other. -/
private theorem getElem?_insert_stage (stages : Std.ExtTreeMap Temp Stage) (s : Stage) :
    (stages.insert t s)[u]? = if t = u then some s else stages[u]? := by
  rw [Std.ExtTreeMap.getElem?_insert]
  simp

/-- Putting a vertex of the worklist aside takes one off the number of each neighbour that is left. -/
theorem Sound.putAside (hg : g.Simple) (h : Sound g p) (ht : t ∈ p.worklist) : Sound g (p.putAside t (g.neighbors t)) := by
  have herase (u : Temp) : u ∈ p.worklist.erase t ↔ t ≠ u ∧ u ∈ p.worklist := by
    rw [Std.ExtTreeSet.mem_erase, ne_eq, Std.LawfulEqCmp.compare_eq_iff_eq]
  constructor
  · intro u stage hu
    rw [Progress.putAside, getElem?_insert_stage] at hu
    split at hu
    · next he => exact he ▸ h.vertex t _ ((h.waiting t).mpr ht)
    · exact h.vertex u stage hu
  · intro u hu
    obtain ⟨hne, hu⟩ := (herase u).mp hu
    have hboth : t ∈ g.neighbors u ↔ u ∈ g.neighbors t := ⟨hg.symm, hg.symm⟩
    have hnodup := Temp.nodup_of_ascending (TempSet.pairwise_toList (g.neighbors t))
    have hwaiting : (p.stages.insert t .aside)[u]? = some .waiting := by
      rw [getElem?_insert_stage, if_neg hne]
      exact (h.waiting u).mpr hu
    simp only [Progress.putAside, getElem?_lower hnodup, hwaiting, and_true, Std.ExtTreeSet.mem_toList,
      h.degrees u hu, TempSet.size_inter_erase ht, Std.ExtTreeSet.contains_iff_mem, hboth]
    split <;> rfl
  · intro u
    rw [Progress.putAside, getElem?_insert_stage, herase, ← h.waiting]
    split <;> simp [*]
  · intro u
    rw [Progress.putAside, getElem?_insert_stage, List.mem_cons, ← h.aside]
    split <;> simp [*, eq_comm]
  · intro u
    have hnot : ¬ p.stages[t]? = some .colored := by
      rw [(h.waiting t).mpr ht]
      simp
    rw [Progress.putAside, getElem?_insert_stage, ← h.colored]
    split
    · next he =>
      subst he
      simp [hnot]
    · rfl

/-- Giving the vertex on top of the stack its color takes it off the stack, and nothing else. -/
theorem Sound.giveColor {rest : List Temp} {index : Nat} (h : Sound g p) (hstack : p.stack = t :: rest)
    (hnodup : p.stack.Nodup) : Sound g (p.giveColor t rest index) := by
  have ht : p.stages[t]? = some .aside := (h.aside t).mpr (hstack ▸ List.mem_cons_self)
  rw [hstack, List.nodup_cons] at hnodup
  constructor
  · intro u stage hu
    rw [Progress.giveColor, getElem?_insert_stage] at hu
    split at hu
    · next he => exact he ▸ h.vertex t _ ht
    · exact h.vertex u stage hu
  · exact h.degrees
  · intro u
    rw [Progress.giveColor, getElem?_insert_stage, ← h.waiting]
    split
    · next he =>
      subst he
      simp [ht]
    · rfl
  · intro u
    rw [Progress.giveColor, getElem?_insert_stage]
    split
    · next he =>
      subst he
      simpa using hnodup.1
    · next hne => simp [h.aside, hstack, Ne.symm hne]
  · intro u
    rw [Progress.giveColor, getElem?_insert_stage, Std.ExtTreeMap.mem_insert, Std.LawfulEqCmp.compare_eq_iff_eq,
      ← h.colored]
    split <;> simp [*]

/-- What is waiting or put aside is found in the graph. -/
theorem Sound.neighborsOf_eq (h : Sound g p) (ht : t ∈ p.worklist ∨ t ∈ p.stack) :
    g.neighborsOf t = .ok (g.neighbors t) := by
  rcases ht with ht | ht
  · exact neighborsOf_of_mem (h.vertex t _ ((h.waiting t).mpr ht))
  · exact neighborsOf_of_mem (h.vertex t _ ((h.aside t).mpr ht))

/-- The kept numbers single out the same vertex as counting anew. -/
theorem Sound.candidate?_eq (h : Sound g p) (k : Nat) : p.candidate? k = least? g k p.worklist := by
  rw [candidate?, least?, TempSet.min?_filter, ← List.head?_filter, ← List.head?_filter]
  congr 1
  apply List.filter_congr
  intro t ht
  rw [h.degrees t (Std.ExtTreeSet.mem_toList.mp ht)]
  rfl

/-- A waiting neighbour of a waiting vertex has at least that one neighbour, so its number can go down. -/
theorem Sound.exists_degree (hg : g.Simple) (h : Sound g p) (ht : t ∈ p.worklist) (hu : u ∈ p.worklist)
    (hneighbor : u ∈ g.neighbors t) : ∃ d, p.degrees[u]? = some (d + 1) := by
  have hmem : t ∈ g.neighbors u ∩ p.worklist := Std.ExtTreeSet.mem_inter_iff.mpr ⟨hg.symm hneighbor, ht⟩
  have hpos : 0 < (g.neighbors u ∩ p.worklist).size := by
    rw [← Std.ExtTreeSet.length_toList]
    exact List.length_pos_of_mem (Std.ExtTreeSet.mem_toList.mpr hmem)
  exact ⟨_, by rw [h.degrees u hu, Nat.sub_add_cancel hpos]⟩

/-! ### On the way -/

/-- The first `n` vertices of the order are on the stack, the others are ahead. -/
structure Pushing (g : InterferenceGraph) (k : Nat) (order : List Temp) (left : TempSet) (n : Nat) (p : Progress) :
    Prop where
  sound : Sound g p
  ahead : recount g k p.worklist = (order.drop n, left)
  stack : p.stack = (order.take n).reverse
  assignment : p.assignment = ∅

/-- The first `n` vertices of the order are on the stack, the others are colored. -/
structure Popping (g : InterferenceGraph) (k : Nat) (order : List Temp) (n : Nat) (p : Progress) : Prop where
  sound : Sound g p
  worklist : p.worklist = ∅
  stack : p.stack = (order.take n).reverse
  colored : ∀ t, t ∈ p.assignment ↔ t ∈ order.drop n
  ahead : select g k p.stack p.assignment = select g k order.reverse ∅

theorem Pushing.step (hg : g.Simple) (h : Pushing g pool.size order left n p) (hn : n < order.length) :
    ∃ told next, p.step g pool = .onward told next ∧ Pushing g pool.size order left (n + 1) next := by
  have hahead := h.ahead
  rw [List.drop_eq_getElem_cons hn] at hahead
  cases hleast : least? g pool.size p.worklist with
  | none =>
    rw [recount_of_none hleast] at hahead
    cases hahead
  | some t =>
    rw [recount_of_some hleast, Prod.mk.injEq, List.cons.injEq] at hahead
    obtain ⟨⟨ht, hrest⟩, hleft⟩ := hahead
    have hmem := (TempSet.mem_of_min?_filter hleast).1
    have hne : ¬ p.worklist.isEmpty = true := by
      rw [Std.ExtTreeSet.isEmpty_iff]
      rintro he
      rw [he] at hmem
      exact Std.ExtTreeSet.not_mem_empty hmem
    have hstep : p.step g pool =
        .onward (.putAside t (p.degrees[t]?.getD 0)) (p.putAside t (g.neighbors t)) := by
      simp only [Progress.step, if_neg hne, h.sound.candidate?_eq, hleast, h.sound.neighborsOf_eq (.inl hmem)]
    refine ⟨_, _, hstep, h.sound.putAside hg hmem, ?_, ?_, h.assignment⟩
    · exact Prod.ext hrest hleft
    · rw [List.take_succ_eq_append_getElem hn, List.reverse_concat, ← ht, ← h.stack]
      rfl

theorem Pushing.step_eq_stuck (h : Pushing g pool.size order left order.length p) (hleft : left ≠ ∅) :
    p.step g pool = .stuck left.toList := by
  have hahead := h.ahead
  rw [List.drop_length] at hahead
  obtain ⟨hleast, rfl⟩ := eq_of_recount_eq_nil hahead
  rw [Progress.step, if_neg (mt Std.ExtTreeSet.isEmpty_iff.mp hleft), h.sound.candidate?_eq, hleast]

/-- Once nothing is left in the graph, all is on the stack. -/
theorem Pushing.popping (h : Pushing g k order ∅ order.length p) : Popping g k order order.length p := by
  have hahead := h.ahead
  rw [List.drop_length] at hahead
  refine ⟨h.sound, (eq_of_recount_eq_nil hahead).2, h.stack, ?_, ?_⟩
  · simp [h.assignment]
  · rw [h.stack, h.assignment, List.take_length]

theorem Popping.step (hnodup : order.Nodup) (hfinal : select g pool.size order.reverse ∅ = .ok final)
    (h : Popping g pool.size order (n + 1) p) (hn : n < order.length) :
    ∃ told next, p.step g pool = .onward told next ∧ Popping g pool.size order n next := by
  have hstack : p.stack = order[n] :: (order.take n).reverse := by
    rw [h.stack, List.take_succ_eq_append_getElem hn, List.reverse_concat]
  have hahead := h.ahead
  rw [hstack, hfinal] at hahead
  obtain ⟨_, index, hindex, hrest⟩ := select_cons_eq_ok_iff.mp hahead
  have haside : p.stages[order[n]]? = some .aside := (h.sound.aside _).mpr (hstack ▸ List.mem_cons_self)
  have hpop : p.stack.Nodup := by
    rw [h.stack, (List.reverse_perm _).nodup_iff]
    exact hnodup.sublist (List.take_sublist _ _)
  have hstep : p.step g pool = .onward (.assigned order[n] ((pool.name? index).getD "?"))
      (p.giveColor order[n] (order.take n).reverse index) := by
    have hfound := h.sound.neighborsOf_eq (.inr (hstack ▸ List.mem_cons_self))
    rw [Progress.step, if_pos (Std.ExtTreeSet.isEmpty_iff.mpr h.worklist), hstack]
    simp only [if_pos haside, hfound, hindex]
  refine ⟨_, _, hstep, h.sound.giveColor hstack hpop, h.worklist, rfl, fun t => ?_, hrest.trans hfinal.symm⟩
  rw [Progress.giveColor, Std.ExtTreeMap.mem_insert, Std.LawfulEqCmp.compare_eq_iff_eq, h.colored,
    List.drop_eq_getElem_cons hn, List.mem_cons, @eq_comm _ t]

theorem Popping.step_eq_finished (hfinal : select g pool.size order.reverse ∅ = .ok final)
    (h : Popping g pool.size order 0 p) : p.step g pool = .finished final := by
  have hstack : p.stack = [] := by simpa using h.stack
  have hahead := h.ahead
  rw [hstack, hfinal, select] at hahead
  cases hahead
  rw [Progress.step, if_pos (Std.ExtTreeSet.isEmpty_iff.mpr h.worklist), hstack]

/-! ### The whole way -/

/-- What is known at each moment from one on. -/
def moments (g : InterferenceGraph) (pool : RegisterPool) (p : Progress) : List Progress :=
  p :: (p.run g pool).moves.map Prod.snd

theorem moments_of_onward (h : p.step g pool = .onward told next) :
    p.moments g pool = p :: next.moments g pool ∧ (p.run g pool).last = (next.run g pool).last := by
  rw [moments, run]
  split
  · next hn =>
    cases h.symm.trans hn
    exact ⟨rfl, rfl⟩
  · next hn => exact absurd h (hn _ _)

theorem moments_of_last {last : Turn} (h : p.step g pool = last) (hlast : ∀ told next, last ≠ .onward told next) :
    p.moments g pool = [p] ∧ (p.run g pool).last = last := by
  rw [moments, run]
  split
  · next hn => exact absurd (h.symm.trans hn) (hlast _ _)
  · exact ⟨rfl, h⟩

theorem Popping.run (hnodup : order.Nodup) (hfinal : select g pool.size order.reverse ∅ = .ok final)
    (h : Popping g pool.size order n p) (hn : n ≤ order.length) :
    (p.moments g pool).length = n + 1 ∧ (p.run g pool).last = .finished final ∧
      ∀ i q, (p.moments g pool)[i]? = some q → Popping g pool.size order (n - i) q := by
  induction n generalizing p with
  | zero =>
    obtain ⟨hmoments, hlast⟩ := moments_of_last (h.step_eq_finished hfinal) (by simp)
    refine ⟨by rw [hmoments]; rfl, hlast, fun i q hq => ?_⟩
    rw [hmoments, List.getElem?_singleton] at hq
    split at hq <;> cases hq
    rwa [Nat.zero_sub]
  | succ n ih =>
    obtain ⟨told, next, hstep, hnext⟩ := h.step hnodup hfinal hn
    obtain ⟨hlength, hlast, hrest⟩ := ih hnext (Nat.le_of_succ_le hn)
    obtain ⟨hmoments, hsame⟩ := moments_of_onward hstep
    refine ⟨by rw [hmoments, List.length_cons, hlength], hsame.trans hlast, fun i q hq => ?_⟩
    rw [hmoments] at hq
    cases i with
    | zero =>
      cases hq
      exact h
    | succ i =>
      rw [Nat.succ_sub_succ]
      exact hrest i q hq

/-- From a moment among the first, the steps put the rest of the order aside and then, if nothing is left, color it back
from its end. -/
theorem Pushing.run (hg : g.Simple) (hnodup : order.Nodup) (hfinal : select g pool.size order.reverse ∅ = .ok final)
    (h : Pushing g pool.size order left n p) (hn : n ≤ order.length) :
    (p.moments g pool).length = order.length - n + (if left = ∅ then order.length else 0) + 1 ∧
      (p.run g pool).last = (if left = ∅ then .finished final else .stuck left.toList) ∧
      ∀ i q, (p.moments g pool)[i]? = some q → (n + i ≤ order.length ∧ Pushing g pool.size order left (n + i) q) ∨
        (left = ∅ ∧ order.length ≤ n + i ∧ Popping g pool.size order (2 * order.length - (n + i)) q) := by
  obtain ⟨ahead, hahead⟩ := Nat.exists_eq_add_of_le hn
  induction ahead generalizing n p with
  | zero =>
    obtain rfl : n = order.length := hahead.symm
    by_cases hleft : left = ∅
    · subst hleft
      obtain ⟨hlength, hlast, hrest⟩ := h.popping.run hnodup hfinal (Nat.le_refl _)
      refine ⟨by rw [hlength]; simp, hlast, fun i q hq => .inr ⟨rfl, Nat.le_add_right _ _, ?_⟩⟩
      rw [show 2 * order.length - (order.length + i) = order.length - i by omega]
      exact hrest i q hq
    · obtain ⟨hmoments, hlast⟩ := moments_of_last (h.step_eq_stuck hleft) (by simp)
      refine ⟨by rw [hmoments]; simp [hleft], by rw [if_neg hleft, hlast], fun i q hq => ?_⟩
      rw [hmoments, List.getElem?_singleton] at hq
      split at hq <;> cases hq
      next hi =>
      subst hi
      exact .inl ⟨Nat.le_refl _, h⟩
  | succ ahead ih =>
    obtain ⟨told, next, hstep, hnext⟩ := h.step hg (by omega)
    obtain ⟨hlength, hlast, hrest⟩ := ih hnext (by omega) (by omega)
    obtain ⟨hmoments, hsame⟩ := moments_of_onward hstep
    refine ⟨?_, hsame.trans hlast, fun i q hq => ?_⟩
    · rw [hmoments, List.length_cons, hlength]
      omega
    · rw [hmoments] at hq
      cases i with
      | zero =>
        cases hq
        exact .inl ⟨hn, h⟩
      | succ i =>
        rw [Nat.add_comm i 1, ← Nat.add_assoc]
        exact hrest i q hq

theorem pushing_start (hg : g.Simple) (hp : start g = .ok p) (h : recount g k (.ofTemps g.vertices) = (order, left)) :
    Pushing g k order left 0 p := by
  have hsound := sound_start hg hp
  cases (start_eq g).symm.trans hp
  exact ⟨hsound, h, rfl, rfl⟩

private theorem mem_take_iff (hnodup : order.Nodup) (hi : order[i]? = some t) : t ∈ order.take n ↔ i < n := by
  obtain ⟨hlt, rfl⟩ := List.getElem?_eq_some_iff.mp hi
  rw [List.mem_take_iff_getElem]
  constructor
  · rintro ⟨j, hj, heq⟩
    have hij : j = i := (List.getElem_inj hnodup).mp heq
    omega
  · intro hin
    exact ⟨i, by omega, rfl⟩

private theorem mem_drop_iff (hnodup : order.Nodup) (hi : order[i]? = some t) : t ∈ order.drop n ↔ n ≤ i := by
  obtain ⟨hlt, rfl⟩ := List.getElem?_eq_some_iff.mp hi
  rw [List.mem_drop_iff_getElem]
  constructor
  · rintro ⟨j, hj, heq⟩
    have hij : n + j = i := (List.getElem_inj hnodup).mp heq
    omega
  · intro hle
    exact ⟨i - n, by omega, by simp only [Nat.add_sub_cancel' hle]⟩

theorem Pushing.stage (hnodup : order.Nodup) (h : Pushing g k order left n p) (hi : order[i]? = some t) :
    p.stages[t]? = some (if n ≤ i then .waiting else .aside) := by
  split
  · next hle =>
    have hmem := (mem_recount g k p.worklist).2 t
    rw [h.ahead] at hmem
    exact (h.sound.waiting t).mpr (hmem.mpr (.inl ((mem_drop_iff hnodup hi).mpr hle)))
  · next hlt =>
    rw [h.sound.aside, h.stack, List.mem_reverse, mem_take_iff hnodup hi]
    omega

theorem Popping.stage (hnodup : order.Nodup) (h : Popping g k order n p) (hi : order[i]? = some t) :
    p.stages[t]? = some (if i < n then .aside else .colored) := by
  split
  · next hlt => rwa [h.sound.aside, h.stack, List.mem_reverse, mem_take_iff hnodup hi]
  · next hle =>
    rw [h.sound.colored, h.colored, mem_drop_iff hnodup hi]
    omega

theorem Sound.step_ne_misplaced (h : Sound g p) (t : Temp) : p.step g pool ≠ .misplaced t := by
  unfold Progress.step
  split
  · cases hstack : p.stack with
    | nil => simp
    | cons u rest =>
      have hu : u ∈ p.stack := hstack ▸ List.mem_cons_self
      simp only [if_pos ((h.aside u).mpr hu), h.neighborsOf_eq (.inr hu)]
      split <;> simp
  · cases hcandidate : p.candidate? pool.size with
    | none => simp
    | some u => simp [h.neighborsOf_eq (.inl (mem_of_candidate? hcandidate))]

theorem Sound.step_ne_failed (h : Sound g p) (told : Option Event) (fault : Fault) :
    p.step g pool ≠ .failed told fault := by
  intro hstep
  rcases step_eq_failed hstep with ⟨t, ht, _, hfault⟩ | ⟨t, ht, _, hfault⟩
  · cases (h.neighborsOf_eq (.inr ht)).symm.trans hfault
  · cases (h.neighborsOf_eq (.inl ht)).symm.trans hfault

/-- How things stand after `n` steps, if vertices leave the graph in the order `order`, and `left` stay in it. -/
structure OnCourse (g : InterferenceGraph) (pool : RegisterPool) (order : List Temp) (left : TempSet) (n : Nat)
    (p : Progress) : Prop where
  degrees : ∀ t, t ∈ p.worklist → p.degrees[t]? = some (g.neighbors t ∩ p.worklist).size
  /-- No number that is taken down is zero. -/
  lowered : ∀ t u, p.candidate? pool.size = some t → u ∈ g.neighbors t → p.stages[u]? = some .waiting →
    ∃ d, p.degrees[u]? = some (d + 1)
  /-- The vertex at `i` in the order is the `i`th to be put aside, and the `i`th from the last to be colored. -/
  stage : ∀ i t, order[i]? = some t → p.stages[t]? =
    some (if n ≤ i then .waiting else if n < 2 * order.length - i then .aside else .colored)
  stays : ∀ t, t ∈ left → p.stages[t]? = some .waiting
  placed : ∀ t, p.step g pool ≠ .misplaced t
  found : ∀ told fault, p.step g pool ≠ .failed told fault

theorem Sound.onCourse (hg : g.Simple) (h : Sound g p)
    (hstage : ∀ i t, order[i]? = some t → p.stages[t]? =
      some (if n ≤ i then .waiting else if n < 2 * order.length - i then .aside else .colored))
    (hleft : ∀ t, t ∈ left → t ∈ p.worklist) : OnCourse g pool order left n p where
  degrees := h.degrees
  lowered _ u ht hneighbor hu := h.exists_degree hg (mem_of_candidate? ht) ((h.waiting u).mp hu) hneighbor
  stage := hstage
  stays t ht := (h.waiting t).mpr (hleft t ht)
  placed := h.step_ne_misplaced
  found := h.step_ne_failed

theorem Pushing.onCourse (hg : g.Simple) (hnodup : order.Nodup) (h : Pushing g k order left n p)
    (hn : n ≤ order.length) : OnCourse g pool order left n p := by
  refine h.sound.onCourse hg (fun i t hi => ?_) fun t ht => ?_
  · obtain ⟨hlt, _⟩ := List.getElem?_eq_some_iff.mp hi
    rw [h.stage hnodup hi, if_pos (show n < 2 * order.length - i by omega)]
  · rw [(mem_recount g k p.worklist).2, h.ahead]
    exact .inr ht

theorem Popping.onCourse (hg : g.Simple) (hnodup : order.Nodup) (h : Popping g k order (2 * order.length - n) p)
    (hn : order.length ≤ n) : OnCourse g pool order ∅ n p := by
  refine h.sound.onCourse hg (fun i t hi => ?_) fun t ht => absurd ht Std.ExtTreeSet.not_mem_empty
  obtain ⟨hlt, _⟩ := List.getElem?_eq_some_iff.mp hi
  have hswap : i < 2 * order.length - n ↔ n < 2 * order.length - i := by omega
  rw [h.stage hnodup hi, if_neg (show ¬ n ≤ i by omega)]
  simp only [hswap]

/-- Coloring a graph made by any calls, with any pool, goes as if the neighbours were counted anew before each step: the
same vertices are put aside in the same order, or the same are left, and each vertex then gets the least index that none
of its neighbours colored before it has. -/
theorem color_by_recount (steps : List Growth) (pool : RegisterPool) :
    let g := ofGrowth steps
    ∃ order left elimination first, recount g pool.size (.ofTemps g.vertices) = (order, left) ∧
      order.Nodup ∧ (∀ t, t ∈ g.vertices ↔ t ∈ order ∨ t ∈ left) ∧
      ofGraph g pool.size = .ok elimination ∧ elimination.stack = order.reverse ∧
      elimination.stuck.map Entry.temp = left.toList ∧ start g = .ok first ∧
      (left ≠ ∅ → color g pool = .error (.tooFewRegisters pool.size left.toList) ∧
        (first.run g pool).last = .stuck left.toList ∧
        (first.moments g pool).length = order.length + 1) ∧
      (left = ∅ → ∃ a, color g pool = .ok a ∧ Greedy g pool.size order.reverse a.index? ∧
        (first.run g pool).last = .finished a.assignment ∧
        (first.moments g pool).length = 2 * order.length + 1) ∧
      ∀ n p, (first.moments g pool)[n]? = some p → OnCourse g pool order left n p := by
  intro g
  have hg : g.Simple := simple_ofGrowth steps
  obtain ⟨order, left, hrecount⟩ := Prod.exists.mp ⟨recount g pool.size (.ofTemps g.vertices), rfl⟩
  obtain ⟨hnodup, hmem⟩ := mem_recount g pool.size (.ofTemps g.vertices)
  obtain ⟨elimination, helimination⟩ := exists_ofGraph g pool.size
  obtain ⟨hstack, hstuck⟩ := ofGraph_eq_recount hg helimination
  obtain ⟨final, hfinal⟩ := exists_select_stack hg helimination
  obtain ⟨first, hfirst⟩ := exists_start g
  simp only [hrecount, TempSet.mem_ofTemps] at hnodup hmem hstack hstuck
  rw [hstack] at hfinal
  obtain ⟨hlength, hlast, hcourse⟩ := (pushing_start hg hfirst hrecount).run hg hnodup hfinal (Nat.zero_le _)
  refine ⟨order, left, elimination, first, hrecount, hnodup, hmem, helimination, hstack, hstuck, hfirst,
    fun hleft => ?_, fun hleft => ?_, fun n p hp => ?_⟩
  · rw [if_neg hleft] at hlength hlast
    refine ⟨?_, hlast, by omega⟩
    rcases color_eq hg helimination with ⟨hnone, _⟩ | ⟨_, herror⟩
    · rw [hnone] at hstuck
      exact absurd (Std.ExtTreeSet.toList_eq_nil_iff.mp hstuck.symm) hleft
    · rw [herror, hstuck]
  · rw [if_pos hleft] at hlength hlast
    have hnone : elimination.stuck = [] := by
      rw [← List.map_eq_nil_iff, hstuck, hleft]
      rfl
    refine ⟨⟨pool, final⟩, ?_, ?_, hlast, by omega⟩
    · rw [color_of_stuck_eq_nil helimination hnone, hstack, hfinal]
      rfl
    · exact greedy_of_select hg ((List.reverse_perm _).nodup_iff.mpr hnodup) hfinal
  · simp only [Nat.zero_add] at hcourse
    rcases hcourse n p hp with ⟨hle, h⟩ | ⟨rfl, hle, h⟩
    · exact h.onCourse hg hnodup hle
    · exact h.onCourse hg hnodup hle

/-- A hub with three spokes. -/
def star : List Growth := [.edge ⟨0⟩ ⟨1⟩, .edge ⟨0⟩ ⟨2⟩, .edge ⟨0⟩ ⟨3⟩]

/-- With two registers the hub can be put aside only after two of its spokes, and is colored right after the third. -/
theorem star_by_recount : ∃ order left first, order = [⟨1⟩, ⟨2⟩, ⟨0⟩, ⟨3⟩] ∧ left = ∅ ∧
    (∃ a, color (ofGrowth star) ⟨["a", "b"], by decide, by decide⟩ = .ok a ∧
      Greedy (ofGrowth star) 2 [⟨3⟩, ⟨0⟩, ⟨2⟩, ⟨1⟩] a.index?) ∧ start (ofGrowth star) = .ok first ∧
    ∀ n p, (first.moments (ofGrowth star) ⟨["a", "b"], by decide, by decide⟩)[n]? = some p →
      OnCourse (ofGrowth star) ⟨["a", "b"], by decide, by decide⟩ order left n p := by
  obtain ⟨order, left, elimination, first, _, _, _, helimination, hstack, hstuck, hfirst, _, hcolor, hcourse⟩ :=
    color_by_recount star ⟨["a", "b"], by decide, by decide⟩
  have hok : ∃ e ∈ (ofGraph (ofGrowth star) 2).toOption, e.stack = [⟨3⟩, ⟨0⟩, ⟨2⟩, ⟨1⟩] ∧
      e.stuck.map Entry.temp = [] := by
    decide +kernel
  obtain ⟨e, he, hlast, hnone⟩ := exists_ok_of_toOption hok
  cases he.symm.trans helimination
  obtain rfl : left = ∅ := Std.ExtTreeSet.toList_eq_nil_iff.mp (hstuck.symm.trans hnone)
  have horder : order.reverse = [⟨3⟩, ⟨0⟩, ⟨2⟩, ⟨1⟩] := hstack.symm.trans hlast
  obtain ⟨a, ha, hgreedy, _⟩ := hcolor rfl
  exact ⟨order, ∅, first, List.reverse_eq_iff.mp horder, rfl, ⟨a, ha, horder ▸ hgreedy⟩, hfirst, hcourse⟩

end Progress
end RegisterColoring

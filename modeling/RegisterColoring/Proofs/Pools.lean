import RegisterColoring.Proofs.Spelling
import RegisterColoring.RegisterPool

/-! Which names make a pool of registers. Main statement: names make one exactly if there are some and no two are the
same; otherwise the first that was there before is to blame. Names that end in their number are never the same. -/
namespace RegisterColoring

theorem Numeral.eq_of_repr_eq {m n : Nat} (h : m.repr = n.repr) : m = n := by
  have hdigits : Nat.toDigits 10 m = Nat.toDigits 10 n := by
    rw [← Nat.toList_repr, ← Nat.toList_repr, h]
  rw [← value_toDigits m, ← value_toDigits n, hdigits]

namespace RegisterPool
variable {names : List String} {name : String} {n : Nat}

/-- The name at the position is already there at an earlier one. -/
def Recurs (names : List String) (n : Nat) : Prop := ∃ name, ∃ m < n, names[m]? = some name ∧ names[n]? = some name

/-- The name is at the position, which is the first with a name that was there before. -/
structure FirstRecurring (names : List String) (name : String) (n : Nat) : Prop where
  name_at : names[n]? = some name
  recurs : Recurs names n
  least : ∀ m < n, ¬ Recurs names m

/-- Names are all different exactly if none recurs. -/
theorem nodup_iff_not_recurs : names.Nodup ↔ ∀ n, ¬ Recurs names n := by
  constructor
  · rintro h n ⟨name, m, hlt, hm, hn⟩
    have hlen : m < names.length := (List.getElem?_eq_some_iff.mp hm).1
    exact Nat.ne_of_lt hlt ((List.getElem?_inj hlen h).mp (hm.trans hn.symm))
  · intro h
    rw [List.nodup_iff_pairwise_ne, List.pairwise_iff_getElem]
    intro m n hm hn hlt hsame
    refine h n ⟨names[n], m, hlt, ?_, List.getElem?_eq_getElem hn⟩
    rw [List.getElem?_eq_getElem hm, hsame]

theorem FirstRecurring.unique {other : String} {m : Nat} (h : FirstRecurring names name n)
    (h' : FirstRecurring names other m) : name = other := by
  rcases Nat.lt_trichotomy m n with hlt | rfl | hlt
  · exact absurd h'.recurs (h.least m hlt)
  · exact Option.some.inj (h.name_at.symm.trans h'.name_at)
  · exact absurd h.recurs (h'.least n hlt)

/-- Behind names that are all different, the search finds the first that was there before. -/
private theorem firstRecurring_of_firstRepeated? {seen before rest : List String} (hbefore : before.Nodup)
    (hseen : ∀ x, x ∈ seen ↔ x ∈ before) (h : firstRepeated? seen rest = some name) :
    ∃ n, FirstRecurring (before ++ rest) name n := by
  induction rest generalizing seen before with
  | nil => cases h
  | cons x rest ih =>
    rw [firstRepeated?] at h
    by_cases hx : x ∈ seen
    · rw [if_pos hx] at h
      obtain rfl : x = name := Option.some.inj h
      obtain ⟨m, hm⟩ := List.mem_iff_getElem?.mp ((hseen x).mp hx)
      have hlt : m < before.length := (List.getElem?_eq_some_iff.mp hm).1
      have hleft (k : Nat) (hk : k < before.length) : (before ++ x :: rest)[k]? = before[k]? :=
        List.getElem?_append_left hk
      have hat : (before ++ x :: rest)[before.length]? = some x := by simp
      refine ⟨before.length, hat, ⟨x, m, hlt, (hleft m hlt).trans hm, hat⟩, ?_⟩
      rintro k hk ⟨y, j, hj, hyj, hyk⟩
      rw [hleft j (Nat.lt_trans hj hk)] at hyj
      rw [hleft k hk] at hyk
      exact nodup_iff_not_recurs.mp hbefore k ⟨y, j, hj, hyj, hyk⟩
    · rw [if_neg hx] at h
      rw [hseen x] at hx
      rw [List.append_cons]
      refine ih ?_ ?_ h
      · rw [(List.perm_append_singleton x before).nodup_iff, List.nodup_cons]
        exact ⟨hx, hbefore⟩
      · intro y
        simp [hseen y, or_comm]

theorem firstRepeated?_eq_some_iff : firstRepeated? [] names = some name ↔ ∃ n, FirstRecurring names name n := by
  constructor
  · intro h
    exact firstRecurring_of_firstRepeated? List.nodup_nil (fun _ => Iff.rfl) h
  · rintro ⟨n, hfirst⟩
    cases h : firstRepeated? [] names with
    | none => exact absurd hfirst.recurs (nodup_iff_not_recurs.mp (nodup_of_firstRepeated? h).1 n)
    | some other =>
      obtain ⟨m, hother⟩ := firstRecurring_of_firstRepeated? List.nodup_nil (fun _ => Iff.rfl) h
      exact congrArg some (hother.unique hfirst)

/-- What can come of names: none, one to blame, or a pool of just these names. -/
private theorem ofNames_cases (names : List String) :
    names = [] ∧ ofNames names = .error .empty ∨
    (∃ name n, FirstRecurring names name n ∧ ofNames names = .error (.repeated name)) ∨
    ∃ pool, pool.names = names ∧ ofNames names = .ok pool := by
  unfold ofNames
  split
  · next hempty => exact .inl ⟨hempty, rfl⟩
  · split
    · next name hname =>
      obtain ⟨n, hfirst⟩ := firstRepeated?_eq_some_iff.mp hname
      exact .inr (.inl ⟨name, n, hfirst, rfl⟩)
    · exact .inr (.inr ⟨_, rfl, rfl⟩)

theorem ofNames_eq_ok_iff {pool : RegisterPool} : ofNames names = .ok pool ↔ pool.names = names := by
  rcases ofNames_cases names with ⟨rfl, hof⟩ | ⟨name, n, hfirst, hof⟩ | ⟨other, rfl, hof⟩
  · rw [hof]
    exact ⟨nofun, fun hnames => absurd hnames pool.nonempty⟩
  · rw [hof]
    refine ⟨nofun, fun hnames => ?_⟩
    exact absurd hfirst.recurs (nodup_iff_not_recurs.mp (hnames ▸ pool.distinct) n)
  · rw [hof, Except.ok.injEq]
    cases other
    cases pool
    rw [mk.injEq, eq_comm]

theorem exists_ofNames_iff : (∃ pool, ofNames names = .ok pool) ↔ names ≠ [] ∧ names.Nodup := by
  constructor
  · rintro ⟨pool, hpool⟩
    rw [ofNames_eq_ok_iff] at hpool
    exact hpool ▸ ⟨pool.nonempty, pool.distinct⟩
  · rintro ⟨hne, hnodup⟩
    exact ⟨⟨names, hne, hnodup⟩, ofNames_eq_ok_iff.mpr rfl⟩

theorem nodup_numbered (stem : String) (count : Nat) : ((List.range count).map fun i => stem ++ i.repr).Nodup := by
  rw [List.nodup_iff_pairwise_ne, List.pairwise_map]
  refine List.nodup_range.imp fun {m n} hne he => ?_
  exact hne (Numeral.eq_of_repr_eq ((String.append_right_inj stem).mp he))

/-- Names make a pool exactly if there are some and no two are the same, and it has them as they are. If there are two
that are the same, the first name that was there before is blamed. A stem with the numbers below any count but zero makes
a pool of as many names, the stem followed by each number in turn. -/
theorem pools_by_names :
    (∀ names, ((∃ pool, ofNames names = .ok pool) ↔ names ≠ [] ∧ names.Nodup) ∧
      (∀ pool, ofNames names = .ok pool → pool.names = names) ∧
      (names ≠ [] → ¬ names.Nodup → ∃ name n, FirstRecurring names name n ∧
        ofNames names = .error (.repeated name) ∧
        (PoolFault.repeated name).toFault.message =
          "Invalid register pool: " ++ ("register '" ++ name ++ "' listed more than once"))) ∧
    ∀ stem count, ((∃ pool, numbered stem count = .ok pool) ↔ 1 ≤ count) ∧
      ∀ pool, numbered stem count = .ok pool → pool.size = count ∧
        ∀ i < count, pool.name? i = some (stem ++ i.repr) := by
  refine ⟨fun names => ⟨exists_ofNames_iff, fun pool => ofNames_eq_ok_iff.mp, fun hne hrepeated => ?_⟩,
    fun stem count => ⟨?_, fun pool hpool => ?_⟩⟩
  · rcases ofNames_cases names with ⟨hempty, _⟩ | ⟨name, n, hfirst, herror⟩ | ⟨pool, hnames, _⟩
    · exact absurd hempty hne
    · exact ⟨name, n, hfirst, herror, rfl⟩
    · exact absurd (hnames ▸ pool.distinct) hrepeated
  · rw [numbered, exists_ofNames_iff, and_iff_left (nodup_numbered stem count), ne_eq, List.map_eq_nil_iff,
      List.range_eq_nil]
    omega
  · rw [numbered, ofNames_eq_ok_iff] at hpool
    rw [size, hpool]
    refine ⟨by simp, fun i hi => ?_⟩
    rw [name?, hpool]
    simp [hi]

/-- Of two names that recur, the one that does so first is blamed; a stem that ends in a digit runs into no clash. -/
theorem pools_of_close_names :
    (∃ name n, FirstRecurring ["R0", "R1", "R1", "R0"] name n ∧
      ofNames ["R0", "R1", "R1", "R0"] = .error (.repeated name) ∧ name = "R1") ∧
    ∃ pool, numbered "R1" 12 = .ok pool ∧ pool.name? 1 = some "R11" ∧ pool.name? 11 = some "R111" := by
  obtain ⟨hnames, hnumbered⟩ := pools_by_names
  constructor
  · obtain ⟨name, n, hfirst, herror, _⟩ := (hnames ["R0", "R1", "R1", "R0"]).2.2 (by decide) (by decide)
    have hblamed : ofNames ["R0", "R1", "R1", "R0"] = .error (.repeated "R1") := rfl
    refine ⟨name, n, hfirst, herror, ?_⟩
    cases herror.symm.trans hblamed
    rfl
  · obtain ⟨pool, hpool⟩ := (hnumbered "R1" 12).1.mpr (by decide)
    obtain ⟨_, hname⟩ := (hnumbered "R1" 12).2 pool hpool
    exact ⟨pool, hpool, hname 1 (by decide), hname 11 (by decide)⟩

end RegisterPool
end RegisterColoring

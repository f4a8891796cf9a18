import RegisterColoring.Proofs.Core
import RegisterColoring.Proofs.FaultyLines

/-! Temporaries that a listing leaves unused. Main statement: the supply of a listing starts just above its temporaries,
so whatever is taken from it is new; and a text fails for want of a supply only if it is in order and mentions the last
temporary. -/
namespace RegisterColoring

/-! ### Taking temporaries from a supply -/

namespace TempSupply
variable {s rest : TempSupply} {t : Temp} {ts : List Temp} {n : Nat}

/-- Takes `n` temporaries, one after the other, if there are so many. -/
def draw? : Nat → TempSupply → Option (List Temp × TempSupply)
  | 0, s => some ([], s)
  | n + 1, s => s.fresh?.bind fun (t, s') => (draw? n s').map fun (ts, rest) => (t :: ts, rest)

theorem fresh?_eq_some : s.fresh? = some (t, rest) ↔ t.serial.toNat = s.count ∧ rest.count = s.count + 1 := by
  obtain ⟨serial⟩ := t
  obtain ⟨next⟩ := rest
  simp only [fresh?, Option.map_eq_some_iff, Prod.mk.injEq, Temp.mk.injEq, mk.injEq, Temp.nextSerial?_eq_some_iff, count,
    UInt32.toNat_inj]
  constructor
  · intro h
    obtain ⟨_, hnext, rfl, rfl⟩ := h
    exact ⟨rfl, hnext⟩
  · intro h
    exact ⟨next, h.2, h.1.symm, rfl⟩

/-- What is taken are the next serials, one by one. -/
theorem serials_of_draw? (h : s.draw? n = some (ts, rest)) :
    ts.map (·.serial.toNat) = List.range' s.count n := by
  induction n generalizing s ts with
  | zero =>
    cases h
    rfl
  | succ n ih =>
    obtain ⟨⟨t, s'⟩, hfresh, h⟩ := Option.bind_eq_some_iff.mp h
    obtain ⟨⟨us, rest'⟩, hdraw, h⟩ := Option.map_eq_some_iff.mp h
    cases h
    obtain ⟨hserial, hcount⟩ := fresh?_eq_some.mp hfresh
    rw [List.map_cons, ih hdraw, hserial, hcount, List.range'_succ]

theorem exists_draw?_iff : (∃ ts rest, s.draw? n = some (ts, rest)) ↔ s.count + n ≤ 4294967295 := by
  induction n generalizing s with
  | zero =>
    have hlt : s.count < 4294967296 := s.next.toNat_lt
    exact ⟨fun _ => by omega, fun _ => ⟨[], s, rfl⟩⟩
  | succ n ih =>
    constructor
    · rintro ⟨ts, rest, h⟩
      obtain ⟨⟨t, s'⟩, hfresh, h⟩ := Option.bind_eq_some_iff.mp h
      obtain ⟨⟨us, rest'⟩, hdraw, _⟩ := Option.map_eq_some_iff.mp h
      have hle := ih.mp ⟨us, rest', hdraw⟩
      rw [(fresh?_eq_some.mp hfresh).2] at hle
      omega
    · intro hle
      have hserial : (UInt32.ofNat s.count).toNat = s.count := UInt32.toNat_ofNat_of_lt' s.next.toNat_lt
      have hnext : (UInt32.ofNat (s.count + 1)).toNat = s.count + 1 :=
        UInt32.toNat_ofNat_of_lt' (show s.count + 1 < 4294967296 by omega)
      have hfresh : s.fresh? = some (⟨UInt32.ofNat s.count⟩, ⟨UInt32.ofNat (s.count + 1)⟩) :=
        fresh?_eq_some.mpr ⟨hserial, hnext⟩
      obtain ⟨ts, rest, hdraw⟩ := (ih (s := ⟨UInt32.ofNat (s.count + 1)⟩)).mpr (by rw [count, hnext]; omega)
      refine ⟨⟨UInt32.ofNat s.count⟩ :: ts, rest, ?_⟩
      simp only [draw?, hfresh, Option.bind_some, hdraw, Option.map_some]

theorem length_of_draw? (h : s.draw? n = some (ts, rest)) : ts.length = n := by
  have hlength := congrArg List.length (serials_of_draw? h)
  rwa [List.length_map, List.length_range'] at hlength

theorem ascending_of_draw? (h : s.draw? n = some (ts, rest)) : ts.Pairwise (· < ·) := by
  have hserials : (List.range' s.count n).Pairwise (· < ·) := List.pairwise_lt_range'
  rw [← serials_of_draw? h, List.pairwise_map] at hserials
  exact hserials

theorem count_le_of_mem_draw? (h : s.draw? n = some (ts, rest)) (ht : t ∈ ts) : s.count ≤ t.serial.toNat := by
  have hmem : t.serial.toNat ∈ ts.map (·.serial.toNat) := List.mem_map_of_mem ht
  rw [serials_of_draw? h, List.mem_range'_1] at hmem
  exact hmem.1

/-- The supply above some temporaries starts right after the highest of them, or at zero if there are none. -/
theorem count_of_above? (h : above? ts = some s) :
    (ts = [] → s.count = 0) ∧
      (ts ≠ [] → ∃ t ∈ ts, s.count = t.serial.toNat + 1 ∧ ∀ u ∈ ts, u.serial.toNat ≤ t.serial.toNat) := by
  obtain ⟨_, hcount⟩ := above?_eq_some.mp h
  have hbelow : ∀ t ∈ ts, t.serial.toNat < s.count := (hcount s.count).mp (Nat.le_refl _)
  constructor
  · rintro rfl
    exact Nat.le_zero.mp ((hcount 0).mpr (by simp))
  · intro hne
    obtain ⟨u, hu⟩ := List.exists_mem_of_ne_nil ts hne
    have hpos := hbelow u hu
    have hnot : ¬ s.count ≤ s.count - 1 := by omega
    rw [hcount] at hnot
    push Not at hnot
    obtain ⟨t, ht, hle⟩ := hnot
    have hlt := hbelow t ht
    exact ⟨t, ht, by omega, fun v hv => by have := hbelow v hv; omega⟩

end TempSupply

/-! ### Numbers -/

/-- A number that a token holds is a literal with either sign. -/
theorem Place.toInt_literal {n : Nat} (hn : n ≤ Token.maxNumber) (negative : Bool) :
    (literal negative n).toInt = (if negative then -n else n : Int) := by
  simp only [Token.maxNumber] at hn
  rw [literal, Int64.toInt_ofInt_of_le]
  · split <;> omega
  · split <;> omega

/-! ### Listings -/

namespace Listing
open Grammar
variable {cs : List Char} {l : Listing}

/-- A text fails for want of a supply exactly if it is otherwise in order and mentions the last temporary. -/
theorem ofChars_eq_exhausted_iff : ofChars cs = .error .exhausted ↔
    ∃ ts commands, Piece.Reads cs ts ∧ Accepts ts commands ∧ ⟨Temp.lastSerial⟩ ∈ temps commands := by
  constructor
  · intro h
    have hmalformed : ¬ (HasJunk cs ∨ ¬ InOrder cs) := by
      rw [← exists_malformed_iff, h]
      simp
    rw [not_or, not_not] at hmalformed
    obtain ⟨hjunk, commands, haccepts⟩ := hmalformed
    have hreads : Piece.Reads cs (readable cs) := ⟨by simpa [HasJunk] using hjunk, rfl⟩
    refine ⟨_, commands, hreads, haccepts, ?_⟩
    by_contra hlast
    obtain ⟨l, hl, _⟩ := exists_ofChars_iff.mpr ⟨_, hreads, haccepts, hlast⟩
    cases h.symm.trans hl
  · rintro ⟨_, commands, ⟨hjunk, rfl⟩, haccepts, hlast⟩
    have hmalformed : ¬ ∃ errors, ofChars cs = .error (.malformed errors) := by
      rw [exists_malformed_iff, not_or, not_not]
      exact ⟨by simpa [HasJunk] using hjunk, commands, haccepts⟩
    rw [← Piece.map_fst_tokensFrom 0] at haccepts
    obtain ⟨lines, hlines, rfl⟩ : ∃ lines, parse (byteLength cs) _ = .ok lines ∧ lines.map Line.command = commands :=
      exists_parse_iff.mpr haccepts
    cases h : ofChars cs with
    | error failure =>
      cases failure with
      | malformed errors => exact absurd ⟨errors, h⟩ hmalformed
      | exhausted => rfl
    | ok l =>
      obtain ⟨_, hlines', hsupply⟩ := ofChars_eq_ok_iff.mp h
      cases hlines.symm.trans hlines'
      exact absurd hlast (TempSupply.exists_above?_iff.mp ⟨_, hsupply⟩)

/-- What is taken from the supply of a listing is in none of its instructions. -/
theorem not_mem_temps_of_draw? {n : Nat} {ts : List Temp} {rest : TempSupply} {t : Temp} {c : Command}
    (hl : ofChars cs = .ok l) (hdraw : l.supply.draw? n = some (ts, rest)) (ht : t ∈ ts) (hc : c ∈ l.commands) :
    t ∉ c.temps := by
  intro hmem
  obtain ⟨_, _, hsupply⟩ := ofChars_eq_ok_iff.mp hl
  have hbelow := ((TempSupply.above?_eq_some.mp hsupply).2 l.supply.count).mp (Nat.le_refl _)
  have hlt := hbelow t (List.mem_flatMap.mpr ⟨c, hc, hmem⟩)
  have hle := TempSupply.count_le_of_mem_draw? hdraw ht
  omega

/-- A text fails for want of a supply exactly if it is otherwise in order and mentions the last temporary, and no number
of it is too large for a literal of either sign. The supply of a listing starts right after its highest temporary, and
what is taken from it, as long as it lasts, is new: in ascending order, all different, and in no instruction. -/
theorem fresh_temps_are_new (source : String) :
    (read source = .error .exhausted ↔ ∃ ts commands, Piece.Reads source.toList ts ∧ Accepts ts commands ∧
      ∃ c ∈ commands, ⟨4294967295⟩ ∈ c.temps) ∧
    (∀ tokens, (Scan.ofChars source.toList).tokens = some tokens → ∀ n span, (.number n, span) ∈ tokens →
      (Place.literal false n).toInt = n ∧ (Place.literal true n).toInt = -n) ∧
    ∀ l, read source = .ok l →
      (temps l.commands = [] → l.supply.count = 0) ∧
      (temps l.commands ≠ [] → ∃ t ∈ temps l.commands, l.supply.count = t.serial.toNat + 1 ∧
        ∀ u ∈ temps l.commands, u.serial.toNat ≤ t.serial.toNat) ∧
      ∀ n, ((∃ ts rest, l.supply.draw? n = some (ts, rest)) ↔ l.supply.count + n ≤ 4294967295) ∧
        ∀ ts rest, l.supply.draw? n = some (ts, rest) →
          ts.length = n ∧ ts.Pairwise (· < ·) ∧ ts.Nodup ∧ ∀ t ∈ ts, ∀ c ∈ l.commands, t ∉ c.temps := by
  refine ⟨?_, ?_, ?_⟩
  · simp only [read, ofChars_eq_exhausted_iff, temps, List.mem_flatMap]
    rfl
  · intro tokens htokens n span hmem
    rw [tokens_eq_some htokens] at hmem
    have hcontent : Token.number n ∈ (Piece.split source.toList).filterMap Piece.content? := by
      rw [← Piece.map_fst_tokensFrom 0]
      exact List.mem_map_of_mem hmem
    have hn : n ≤ Token.maxNumber := Piece.legal_of_mem_split _ _ hcontent
    exact ⟨Place.toInt_literal hn false, Place.toInt_literal hn true⟩
  · intro l hl
    obtain ⟨hnone, hsome⟩ := TempSupply.count_of_above? (ofChars_eq_ok_iff.mp hl).2.2
    refine ⟨hnone, hsome, fun n => ⟨TempSupply.exists_draw?_iff, fun ts rest hdraw => ?_⟩⟩
    have hascending := TempSupply.ascending_of_draw? hdraw
    refine ⟨TempSupply.length_of_draw? hdraw, hascending, Temp.nodup_of_ascending hascending, fun t ht c hc => ?_⟩
    exact not_mem_temps_of_draw? hl hdraw ht hc

/-- Two temporaries taken above those of a listing, from which a remark does not keep any. -/
theorem above_seven : ∃ l, read "t0 = -5\nprint t7 # t9" = .ok l ∧ l.supply.count = 8 ∧
    ∃ rest, l.supply.draw? 2 = some ([⟨8⟩, ⟨9⟩], rest) ∧ ∀ c ∈ l.commands, ⟨8⟩ ∉ c.temps ∧ ⟨9⟩ ∉ c.temps := by
  have hok : ∃ l ∈ (read "t0 = -5\nprint t7 # t9").toOption,
      l.supply.count = 8 ∧ (l.supply.draw? 2).map Prod.fst = some [⟨8⟩, ⟨9⟩] := by decide +kernel
  obtain ⟨l, hl, hcount, hdraw⟩ := exists_ok_of_toOption hok
  obtain ⟨⟨ts, rest⟩, hdraw, rfl⟩ := Option.map_eq_some_iff.mp hdraw
  obtain ⟨_, _, hnew⟩ := ((fresh_temps_are_new _).2.2 l hl).2.2 2 |>.2 _ rest hdraw |>.2
  exact ⟨l, hl, hcount, rest, hdraw, fun c hc => ⟨hnew ⟨8⟩ (by simp) c hc, hnew ⟨9⟩ (by simp) c hc⟩⟩

end Listing
end RegisterColoring

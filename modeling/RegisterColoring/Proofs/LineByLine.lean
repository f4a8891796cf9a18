import RegisterColoring.Proofs.Flow
import RegisterColoring.Proofs.RoundTrip

/-! Reading a text line by line. Main statement: a text made of two with the end of a line between them is read exactly
if both are, and then as the one followed by the other. -/
namespace RegisterColoring

section Runs
variable {p : Char → Bool} {c : Char}

/-- A character that is not of a class ends a run of the class, whatever comes before and after it. -/
private theorem takeWhile_append_cons (hc : p c = false) (cs ds : List Char) :
    (cs ++ c :: ds).takeWhile p = cs.takeWhile p ∧ (cs ++ c :: ds).dropWhile p = cs.dropWhile p ++ c :: ds := by
  induction cs with
  | nil => simp [hc]
  | cons d cs ih => by_cases hd : p d = true <;> simp [hd, ih]

end Runs

/-! ### Pieces -/

theorem Numeral.front?_append_newline (c : Char) (cs ds : List Char) :
    front? (c :: (cs ++ '\n' :: ds)) = (front? (c :: cs)).map fun (digits, rest) => (digits, rest ++ '\n' :: ds) := by
  obtain ⟨htake, hdrop⟩ := takeWhile_append_cons (p := Char.isDigit) (c := '\n') (by decide) cs ds
  simp only [front?, htake, hdrop]
  split
  · rfl
  · split <;> rfl

/-- No token but the end of a line reaches over one. -/
theorem Token.front?_append_newline (c : Char) (cs ds : List Char) :
    front? (c :: (cs ++ '\n' :: ds)) = (front? (c :: cs)).map fun (l, rest) => (l, rest ++ '\n' :: ds) := by
  obtain ⟨htake, hdrop⟩ := takeWhile_append_cons (p := continuesWord) (c := '\n') (by decide) cs ds
  simp only [front?, htake, hdrop, Numeral.front?_append_newline]
  split
  · rfl
  · split
    · rfl
    · split
      · rfl
      · cases Numeral.front? (c :: cs) with
        | none => rfl
        | some found =>
          dsimp only [Option.map_some]
          split <;> rfl

namespace Piece

/-- Junk ends before the end of a line. -/
private theorem skipUnreadable_append_newline (cs ds : List Char) :
    skipUnreadable (cs ++ '\n' :: ds) = ((skipUnreadable cs).1, (skipUnreadable cs).2 ++ '\n' :: ds) := by
  induction cs with
  | nil => rfl
  | cons c cs ih =>
    rw [List.cons_append, skipUnreadable, skipUnreadable, Token.front?_append_newline, Option.isSome_map, ih]
    split <;> rfl

private theorem front_append_newline (c : Char) (cs ds : List Char) :
    front c (cs ++ '\n' :: ds) = ((front c cs).1, (front c cs).2 ++ '\n' :: ds) := by
  obtain ⟨htake, hdrop⟩ := takeWhile_append_cons (p := fun d => decide (d ≠ '\n')) (c := '\n') (by decide) cs ds
  simp only [front, htake, hdrop, Token.front?_append_newline, skipUnreadable_append_newline]
  split
  · rfl
  · split
    · rfl
    · cases Token.front? (c :: cs) <;> rfl

/-- The pieces of two texts with the end of a line between them are those of the one, the end of the line, and those of
the other. -/
theorem split_append_newline (cs ds : List Char) :
    split (cs ++ '\n' :: ds) = split cs ++ lexeme ⟨.newline, ['\n']⟩ :: split ds := by
  fun_induction split cs with
  | case1 =>
    rw [List.nil_append, List.nil_append, split]
    rfl
  | case2 c cs r ih =>
    rw [List.cons_append, split, front_append_newline]
    exact congrArg (r.1 :: ·) ih

end Piece

/-! ### Spans -/

theorem byteLength_toList (s : String) : byteLength s.toList = s.utf8ByteSize := by
  have hlist (cs : List Char) : byteLength cs = (String.ofList cs).utf8ByteSize := by
    induction cs with
    | nil => rfl
    | cons c cs ih =>
      rw [byteLength_cons, ih, String.ofList_cons, String.utf8ByteSize_append, String.utf8ByteSize_singleton]
  rw [hlist, String.ofList_toList]

/-- The span as far into a text that has `distance` more bytes in front. -/
def Span.shift (distance : Nat) (s : Span) : Span := ⟨s.start + distance, s.stop + distance⟩

def Line.shift (distance : Nat) (line : Line) : Line := ⟨line.command, line.span.shift distance⟩

namespace Piece

theorem locate_append (offset : Nat) (ps qs : List Piece) :
    locate offset (ps ++ qs) = locate offset ps ++ locate (offset + byteLength (ps.flatMap text)) qs := by
  induction ps generalizing offset with
  | nil => rfl
  | cons p ps ih =>
    rw [List.cons_append, locate, locate, ih, List.flatMap_cons, byteLength_append, Nat.add_assoc]
    rfl

theorem locate_add (offset distance : Nat) (ps : List Piece) :
    locate (offset + distance) ps = (locate offset ps).map (Prod.map id (Span.shift distance)) := by
  induction ps generalizing offset with
  | nil => rfl
  | cons p ps ih =>
    rw [locate, locate, List.map_cons, ← ih, Nat.add_right_comm]
    rfl

theorem tokensFrom_add (offset distance : Nat) (ps : List Piece) :
    tokensFrom (offset + distance) ps = (tokensFrom offset ps).map (Prod.map id (Span.shift distance)) := by
  have htoken : (token? ∘ Prod.map id (Span.shift distance)) =
      fun a => (token? a).map (Prod.map id (Span.shift distance)) := by
    funext ⟨p, span⟩
    cases p <;> rfl
  rw [tokensFrom, tokensFrom, locate_add, List.filterMap_map, htoken, List.map_filterMap]

/-- The tokens of the two texts, with the end of the line between them. -/
theorem tokensFrom_append_newline (cs ds : List Char) :
    tokensFrom 0 (split (cs ++ '\n' :: ds)) = tokensFrom 0 (split cs) ++
      (.newline, ⟨byteLength cs, byteLength cs + 1⟩) ::
        (tokensFrom 0 (split ds)).map (Prod.map id (Span.shift (byteLength cs + 1))) := by
  rw [← tokensFrom_add, Nat.zero_add, split_append_newline, tokensFrom, locate_append, flatMap_text_split,
    Nat.zero_add, List.filterMap_append]
  rfl

end Piece

/-! ### Lines -/

namespace Listing
variable {distance : Nat} {p : Place} {covered span : Span}
  {before rest tokens : List (Token × Span)} {lines : List Line}

/-- The end of a line divides the tokens before it from those after it. -/
theorem parseFrom_append_newline (size size' : Nat) :
    parseFrom size p covered (before ++ (.newline, span) :: rest) = .ok lines ↔
      ∃ first second, parseFrom size' p covered before = .ok first ∧ parseFrom size .start span rest = .ok second ∧
        lines = first ++ second := by
  induction before generalizing p covered lines with
  | nil =>
    rw [List.nil_append, parseFrom, parseFrom, if_pos rfl]
    cases p.finish? with
    | none => simp
    | some part =>
      simp only [map_eq_ok, Except.ok.injEq]
      constructor
      · rintro ⟨second, hsecond, rfl⟩
        exact ⟨_, second, rfl, hsecond, rfl⟩
      · rintro ⟨_, second, rfl, hsecond, rfl⟩
        exact ⟨second, hsecond, rfl⟩
  | cons pair before ih =>
    obtain ⟨token, place⟩ := pair
    rw [List.cons_append, parseFrom, parseFrom]
    by_cases hn : token = .newline
    · subst hn
      rw [if_pos rfl, if_pos rfl]
      cases p.finish? with
      | none => simp
      | some part =>
        simp only [map_eq_ok, ih]
        constructor
        · rintro ⟨_, ⟨first, second, hfirst, hsecond, rfl⟩, rfl⟩
          exact ⟨_, second, ⟨first, hfirst, rfl⟩, hsecond, (List.append_assoc ..).symm⟩
        · rintro ⟨_, second, ⟨first, hfirst, rfl⟩, hsecond, rfl⟩
          exact ⟨_, ⟨first, second, hfirst, hsecond, rfl⟩, (List.append_assoc ..).symm⟩
    · rw [if_neg hn, if_neg hn]
      cases p.next? token with
      | none => simp
      | some q => exact ih

/-- At the start of a line nothing is covered yet. -/
theorem parseFrom_start (size : Nat) (covered covered' : Span) (tokens : List (Token × Span)) :
    parseFrom size .start covered tokens = parseFrom size .start covered' tokens := by
  cases tokens with
  | nil => rfl
  | cons pair tokens =>
    obtain ⟨token, span⟩ := pair
    rw [parseFrom, parseFrom]
    rfl

/-- Further into a text the same tokens are read as the same lines. -/
theorem parseFrom_shift (size size' : Nat) :
    parseFrom size p (covered.shift distance) (tokens.map (Prod.map id (Span.shift distance))) = .ok lines ↔
      ∃ original, parseFrom size' p covered tokens = .ok original ∧ lines = original.map (Line.shift distance) := by
  induction tokens generalizing p covered lines with
  | nil =>
    rw [List.map_nil, parseFrom, parseFrom]
    cases p.finish? with
    | none => simp
    | some part => simp [Function.comp_def, Line.shift, eq_comm]
  | cons pair tokens ih =>
    obtain ⟨token, span⟩ := pair
    rw [List.map_cons, Prod.map_apply, parseFrom, parseFrom]
    by_cases hn : token = .newline
    · subst hn
      rw [id, if_pos rfl, if_pos rfl]
      cases p.finish? with
      | none => simp
      | some part =>
        simp only [map_eq_ok, ih]
        constructor
        · rintro ⟨_, ⟨original, horiginal, rfl⟩, rfl⟩
          exact ⟨_, ⟨original, horiginal, rfl⟩, by simp [Function.comp_def, Line.shift]⟩
        · rintro ⟨_, ⟨original, horiginal, rfl⟩, rfl⟩
          exact ⟨_, ⟨original, horiginal, rfl⟩, by simp [Function.comp_def, Line.shift]⟩
    · rw [id, if_neg hn, if_neg hn]
      cases p.next? token with
      | none => simp
      | some q =>
        have hstart : (if p = .start then (span.shift distance).start else (covered.shift distance).start) =
            (if p = .start then span.start else covered.start) + distance := by
          split <;> rfl
        dsimp only
        rw [hstart]
        exact @ih q ⟨_, span.stop⟩ lines

/-- Tokens in two parts, with the end of a line between them, are read part by part. -/
theorem parse_append_newline (size size₁ size₂ : Nat) :
    parse size (before ++ (.newline, span) :: tokens.map (Prod.map id (Span.shift distance))) = .ok lines ↔
      ∃ first second, parse size₁ before = .ok first ∧ parse size₂ tokens = .ok second ∧
        lines = first ++ second.map (Line.shift distance) := by
  unfold parse
  simp only [parseFrom_append_newline size size₁, parseFrom_start size span (Span.shift distance ⟨0, 0⟩),
    parseFrom_shift size size₂]
  constructor
  · rintro ⟨first, _, hfirst, ⟨second, hsecond, rfl⟩, rfl⟩
    exact ⟨first, second, hfirst, hsecond, rfl⟩
  · rintro ⟨first, second, hfirst, hsecond, rfl⟩
    exact ⟨first, _, hfirst, ⟨second, hsecond, rfl⟩, rfl⟩

end Listing

/-! ### Serials -/

namespace TempSupply
variable {ts us : List Temp} {supply : TempSupply}

theorem count_le_iff (h : above? ts = some supply) (n : Nat) : supply.count ≤ n ↔ ∀ t ∈ ts, t.serial.toNat < n := by
  induction ts generalizing supply with
  | nil =>
    cases h
    simp [count, all]
  | cons t ts ih =>
    obtain ⟨next, hnext, h⟩ := Option.bind_eq_some_iff.mp h
    obtain ⟨rest, hrest, h⟩ := Option.bind_eq_some_iff.mp h
    cases h
    rw [List.forall_mem_cons, ← ih hrest, ← Nat.succ_le_iff, Nat.succ_eq_add_one,
      ← Temp.nextSerial?_eq_some_iff.mp hnext, ← Nat.max_le, count, UInt32.toNat_max]
    rfl

/-- The supply above a list starts at the least serial above all of it. -/
theorem above?_eq_some : above? ts = some supply ↔
    ⟨Temp.lastSerial⟩ ∉ ts ∧ ∀ n, supply.count ≤ n ↔ ∀ t ∈ ts, t.serial.toNat < n := by
  constructor
  · intro h
    exact ⟨exists_above?_iff.mp ⟨supply, h⟩, count_le_iff h⟩
  · intro h
    obtain ⟨hlast, hsupply⟩ := h
    obtain ⟨other, hother⟩ := exists_above?_iff.mpr hlast
    have hcount : other.next.toNat = supply.next.toNat := by
      apply eq_of_forall_ge_iff
      intro n
      exact (count_le_iff hother n).trans (hsupply n).symm
    cases other
    cases supply
    rw [hother]
    exact congrArg (some ∘ mk) (UInt32.toNat_inj.mp hcount)

/-- Above the temporaries of two lists lies the higher of their supplies. -/
theorem above?_append : above? (ts ++ us) = some supply ↔
    ∃ first second, above? ts = some first ∧ above? us = some second ∧ supply.count = max first.count second.count := by
  constructor
  · intro h
    obtain ⟨hlast, hcount⟩ := above?_eq_some.mp h
    rw [List.mem_append, not_or] at hlast
    obtain ⟨first, hfirst⟩ := exists_above?_iff.mpr hlast.1
    obtain ⟨second, hsecond⟩ := exists_above?_iff.mpr hlast.2
    refine ⟨first, second, hfirst, hsecond, eq_of_forall_ge_iff fun n => ?_⟩
    rw [hcount, List.forall_mem_append, Nat.max_le, (above?_eq_some.mp hfirst).2, (above?_eq_some.mp hsecond).2]
  · rintro ⟨first, second, hfirst, hsecond, hcount⟩
    rw [above?_eq_some] at hfirst hsecond ⊢
    refine ⟨?_, fun n => ?_⟩
    · rw [List.mem_append, not_or]
      exact ⟨hfirst.1, hsecond.1⟩
    · rw [hcount, List.forall_mem_append, Nat.max_le, hfirst.2, hsecond.2]

end TempSupply

/-! ### Listings -/

namespace Listing
variable {cs ds : List Char} {l : Listing}

private theorem map_command_append (first second : List Line) (distance : Nat) :
    (first ++ second.map (Line.shift distance)).map Line.command =
      first.map Line.command ++ second.map Line.command := by
  simp [Function.comp_def, Line.shift]

/-- Reading, line by line: the second part of a text is read as by itself, only further on. -/
theorem ofChars_append_newline : ofChars (cs ++ '\n' :: ds) = .ok l ↔
    ∃ first second, ofChars cs = .ok first ∧ ofChars ds = .ok second ∧
      l.lines = first.lines ++ second.lines.map (Line.shift (byteLength cs + 1)) ∧
      l.supply.count = max first.supply.count second.supply.count := by
  have hjunk : (∀ p ∈ Piece.split (cs ++ '\n' :: ds), p.isJunk = false) ↔
      (∀ p ∈ Piece.split cs, p.isJunk = false) ∧ ∀ p ∈ Piece.split ds, p.isJunk = false := by
    rw [Piece.split_append_newline, List.forall_mem_append, List.forall_mem_cons]
    simp [Piece.isJunk]
  rw [ofChars_eq_ok_iff, hjunk, Piece.tokensFrom_append_newline, parse_append_newline _ (byteLength cs) (byteLength ds)]
  constructor
  · rintro ⟨⟨hjunk₁, hjunk₂⟩, ⟨first, second, hfirst, hsecond, hlines⟩, hsupply⟩
    rw [commands, hlines, map_command_append, temps, List.flatMap_append, TempSupply.above?_append] at hsupply
    obtain ⟨supply₁, supply₂, hsupply₁, hsupply₂, hcount⟩ := hsupply
    exact ⟨⟨first, supply₁⟩, ⟨second, supply₂⟩, ofChars_eq_ok_iff.mpr ⟨hjunk₁, hfirst, hsupply₁⟩,
      ofChars_eq_ok_iff.mpr ⟨hjunk₂, hsecond, hsupply₂⟩, hlines, hcount⟩
  · rintro ⟨first, second, hfirst, hsecond, hlines, hcount⟩
    obtain ⟨hjunk₁, hlines₁, hsupply₁⟩ := ofChars_eq_ok_iff.mp hfirst
    obtain ⟨hjunk₂, hlines₂, hsupply₂⟩ := ofChars_eq_ok_iff.mp hsecond
    refine ⟨⟨hjunk₁, hjunk₂⟩, ⟨_, _, hlines₁, hlines₂, hlines⟩, ?_⟩
    rw [commands, hlines, map_command_append, temps, List.flatMap_append, TempSupply.above?_append]
    exact ⟨_, _, hsupply₁, hsupply₂, hcount⟩

/-- Two texts with the end of a line between them are read exactly if each is read by itself. Then the instructions of
the second follow those of the first, at places moved on by the bytes of the first and of the end of its line, and the
unused serials are those that both leave unused. A text that leaves none is not read, here or by itself. -/
theorem read_line_by_line (s₁ s₂ : String) :
    ((∃ l, read (s₁ ++ "\n" ++ s₂) = .ok l) ↔ (∃ l₁, read s₁ = .ok l₁) ∧ ∃ l₂, read s₂ = .ok l₂) ∧
    ∀ l l₁ l₂, read (s₁ ++ "\n" ++ s₂) = .ok l → read s₁ = .ok l₁ → read s₂ = .ok l₂ →
      l.commands = l₁.commands ++ l₂.commands ∧
      l.spans = l₁.spans ++ l₂.spans.map (Span.shift (s₁.utf8ByteSize + 1)) ∧
      l.supply.count = max l₁.supply.count l₂.supply.count := by
  have htext : (s₁ ++ "\n" ++ s₂).toList = s₁.toList ++ '\n' :: s₂.toList := by simp
  unfold read
  rw [htext]
  simp only [ofChars_append_newline, byteLength_toList]
  constructor
  · constructor
    · rintro ⟨_, l₁, l₂, hl₁, hl₂, _⟩
      exact ⟨⟨l₁, hl₁⟩, l₂, hl₂⟩
    · rintro ⟨⟨l₁, hl₁⟩, l₂, hl₂⟩
      rcases le_total l₁.supply.count l₂.supply.count with hle | hle
      · exact ⟨⟨_, l₂.supply⟩, l₁, l₂, hl₁, hl₂, rfl, (Nat.max_eq_right hle).symm⟩
      · exact ⟨⟨_, l₁.supply⟩, l₁, l₂, hl₁, hl₂, rfl, (Nat.max_eq_left hle).symm⟩
  · rintro l l₁ l₂ ⟨first, second, hfirst, hsecond, hlines, hcount⟩ hl₁ hl₂
    cases hfirst.symm.trans hl₁
    cases hsecond.symm.trans hl₂
    refine ⟨?_, ?_, hcount⟩
    · rw [commands, hlines, map_command_append]
      rfl
    · simp [spans, hlines, Function.comp_def, Line.shift]

/-- A comment with a character of two bytes, and two instructions on further lines. -/
theorem remark_then_print : ∃ l, read ("return # é" ++ "\n" ++ "t0 = 5\nprint t0") = .ok l ∧
    l.commands = [.ret none, .const ⟨0⟩ 5, .print ⟨0⟩] ∧ l.spans = [⟨0, 6⟩, ⟨12, 18⟩, ⟨19, 27⟩] := by
  have hok₁ : ∃ l ∈ (read "return # é").toOption, l.commands = [.ret none] ∧ l.spans = [⟨0, 6⟩] := by decide +kernel
  have hok₂ : ∃ l ∈ (read "t0 = 5\nprint t0").toOption,
      l.commands = [.const ⟨0⟩ 5, .print ⟨0⟩] ∧ l.spans = [⟨0, 6⟩, ⟨7, 15⟩] := by decide +kernel
  obtain ⟨l₁, hl₁, hcommands₁, hspans₁⟩ := exists_ok_of_toOption hok₁
  obtain ⟨l₂, hl₂, hcommands₂, hspans₂⟩ := exists_ok_of_toOption hok₂
  obtain ⟨hboth, hparts⟩ := read_line_by_line "return # é" "t0 = 5\nprint t0"
  obtain ⟨l, hl⟩ := hboth.mpr ⟨⟨l₁, hl₁⟩, l₂, hl₂⟩
  obtain ⟨hcommands, hspans, _⟩ := hparts l l₁ l₂ hl hl₁ hl₂
  refine ⟨l, hl, by rw [hcommands, hcommands₁, hcommands₂]; rfl, ?_⟩
  rw [hspans, hspans₁, hspans₂]
  decide +kernel

end Listing
end RegisterColoring

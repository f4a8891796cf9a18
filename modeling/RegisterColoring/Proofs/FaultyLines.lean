import RegisterColoring.Proofs.LineByLine

/-! Which faulty lines of a text the complaints point into. Main statement: a line with junk is always pointed at, but
a line whose tokens are out of order only if all lines before it are in order and the text does not end in junk. -/
namespace RegisterColoring

/-! ### Pieces of a text cut between lines -/

theorem byteLength_pos {cs : List Char} (h : cs ≠ []) : 0 < byteLength cs := by
  obtain ⟨c, cs, rfl⟩ := List.exists_cons_of_ne_nil h
  have hc := c.utf8Size_pos
  rw [byteLength_cons]
  omega

/-- The middle part starts where a line starts, and ends where one ends. -/
structure CutAtLines (before middle after : List Char) : Prop where
  before : before = [] ∨ ∃ cs, before = cs ++ ['\n']
  after : after = [] ∨ ∃ cs, after = '\n' :: cs

namespace Piece
variable {before middle after cs : List Char} {offset : Nat} {p : Piece} {ps : List Piece} {span : Span}

theorem split_newline (cs : List Char) : split ('\n' :: cs) = lexeme ⟨.newline, ['\n']⟩ :: split cs := by
  have hcut := split_append_newline [] cs
  rwa [List.nil_append, split, List.nil_append] at hcut

/-- The pieces of a text that is cut between lines are those of its parts. -/
theorem split_cut (h : CutAtLines before middle after) :
    split (before ++ middle ++ after) = split before ++ (split middle ++ split after) := by
  have hbefore (ds : List Char) : split (before ++ ds) = split before ++ split ds := by
    rcases h.before with rfl | ⟨cs, rfl⟩
    · simp [split]
    · rw [List.append_assoc, List.singleton_append, split_append_newline, split_append_newline, List.append_assoc]
      simp [split]
  have hafter : split (middle ++ after) = split middle ++ split after := by
    rcases h.after with rfl | ⟨cs, rfl⟩
    · simp [split]
    · rw [split_append_newline, split_newline]
  rw [List.append_assoc, hbefore, hafter]

theorem text_ne_nil_of_mem_split (h : p ∈ split cs) : p.text ≠ [] := by
  fun_induction split cs with
  | case1 => cases h
  | case2 c cs r ih =>
    rcases List.mem_cons.mp h with rfl | h
    · exact (front_append c cs).2
    · exact ih h

/-- Pieces lie one behind the other: each starts inside the text that they make up. -/
theorem start_of_mem_locate (hne : ∀ p ∈ ps, p.text ≠ []) (h : (p, span) ∈ locate offset ps) :
    offset ≤ span.start ∧ span.start < offset + byteLength (ps.flatMap text) := by
  induction ps generalizing offset with
  | nil => cases h
  | cons q ps ih =>
    obtain ⟨hq, hps⟩ := List.forall_mem_cons.mp hne
    have hpos := byteLength_pos hq
    rw [List.flatMap_cons, byteLength_append]
    rcases List.mem_cons.mp h with heq | h
    · cases heq
      exact ⟨Nat.le_refl _, by dsimp only; omega⟩
    · have hstart := ih hps h
      omega

/-- The tokens and the complaints of a text start inside it. -/
theorem start_of_mem_located (h : (p, span) ∈ locate offset (split cs)) :
    offset ≤ span.start ∧ span.start < offset + byteLength cs := by
  have hstart := start_of_mem_locate (fun _ => text_ne_nil_of_mem_split) h
  rwa [flatMap_text_split] at hstart

theorem start_of_mem_tokensFrom {pair : Token × Span} (h : pair ∈ tokensFrom offset (split cs)) :
    offset ≤ pair.2.start ∧ pair.2.start < offset + byteLength cs := by
  obtain ⟨⟨p, span⟩, hmem, htoken⟩ := List.mem_filterMap.mp h
  cases p <;> cases htoken
  exact start_of_mem_located hmem

theorem start_of_mem_errors {e : SyntaxError} (h : e ∈ (locate offset (split cs)).filterMap error?) :
    offset ≤ e.span.start ∧ e.span.start < offset + byteLength cs := by
  obtain ⟨⟨p, span⟩, hmem, herror⟩ := List.mem_filterMap.mp h
  have hstart := start_of_mem_located hmem
  cases p <;> cases herror
  exact hstart

/-- The tokens of a text that is cut between lines are those of its parts. -/
theorem tokensFrom_cut (h : CutAtLines before middle after) :
    tokensFrom 0 (split (before ++ middle ++ after)) = tokensFrom 0 (split before) ++
      (tokensFrom (byteLength before) (split middle) ++ tokensFrom (byteLength before + byteLength middle) (split after)) := by
  simp only [tokensFrom, split_cut h, locate_append, flatMap_text_split, List.filterMap_append, Nat.zero_add]

theorem locate_newline (offset : Nat) (cs : List Char) : locate offset (split ('\n' :: cs)) =
    (lexeme ⟨.newline, ['\n']⟩, ⟨offset, offset + 1⟩) :: locate (offset + 1) (split cs) := by
  rw [split_newline]
  rfl

/-- Junk is blamed on a character of its own part of a text that is cut between lines. -/
theorem exists_error_within_cut (h : CutAtLines before middle after) :
    (∃ e ∈ (Scan.ofChars (before ++ middle ++ after)).errors,
      byteLength before ≤ e.span.start ∧ e.span.start ≤ byteLength before + byteLength middle) ↔
      ∃ p ∈ split middle, p.isJunk = true := by
  have herrors : (Scan.ofChars (before ++ middle ++ after)).errors = (locate 0 (split before)).filterMap error? ++
      ((locate (byteLength before) (split middle)).filterMap error? ++
        (locate (byteLength before + byteLength middle) (split after)).filterMap error?) := by
    simp only [Scan.ofChars, split_cut h, locate_append, flatMap_text_split, List.filterMap_append, Nat.zero_add]
  have hjunk : (∃ p ∈ split middle, p.isJunk = true) ↔
      (locate (byteLength before) (split middle)).filterMap error? ≠ [] := by
    rw [ne_eq, errors_eq_nil]
    simp
  rw [herrors, hjunk]
  constructor
  · rintro ⟨e, he, hle, hge⟩ hnone
    rw [hnone, List.nil_append, List.mem_append] at he
    rcases he with he | he
    · have hstart := start_of_mem_errors he
      omega
    · rcases h.after with rfl | ⟨cs, rfl⟩
      · simp [split, locate] at he
      · rw [locate_newline] at he
        have hstart := start_of_mem_errors he
        omega
  · intro hsome
    obtain ⟨e, he⟩ := List.exists_mem_of_ne_nil _ hsome
    have hstart := start_of_mem_errors he
    exact ⟨e, List.mem_append_right _ (List.mem_append_left _ he), by omega, by omega⟩

end Piece

/-! ### Tokens in order -/

namespace Listing
open Grammar
variable {before middle after cs : List Char} {size : Nat} {p q : Place} {covered : Span}
  {xs ys : List (Token × Span)} {e : SyntaxError}

/-- The tokens of a text, with all junk left out. -/
def readable (cs : List Char) : List Token := (Piece.split cs).filterMap Piece.content?

/-- The tokens of a text, with all junk left out, make lines of the grammar. -/
def InOrder (cs : List Char) : Prop := ∃ commands, Accepts (readable cs) commands

theorem inOrder_iff_run? :
    InOrder cs ↔ ∃ q part, Place.start.run? (readable cs) = some q ∧ q.finish? = some part := by
  have happend := Place.exists_accepts_append (p := .start) (readable cs) []
  simp only [List.append_nil, Place.accepts_start, Place.accepts_nil] at happend
  rw [InOrder, happend]
  simp

/-- After whole lines in order, reading is at the start of a line. -/
private theorem run?_before (h : CutAtLines before middle after) (hq : Place.start.run? (readable before) = some q) :
    q = .start := by
  rcases h.before with rfl | ⟨cs, rfl⟩
  · have hnone : readable [] = [] := by simp [readable, Piece.split]
    rw [hnone] at hq
    cases hq
    rfl
  · have hlast : readable (cs ++ ['\n']) = readable cs ++ [.newline] := by
      rw [readable, Piece.split_append_newline]
      simp [readable, Piece.split, Piece.content?]
    rw [hlast, Place.run?_append] at hq
    obtain ⟨r, _, hq⟩ := Option.bind_eq_some_iff.mp hq
    rw [Place.run?_singleton, Place.advance?, if_pos rfl] at hq
    obtain ⟨_, _, hq⟩ := Option.map_eq_some_iff.mp hq
    exact hq.symm

theorem readable_newline (cs : List Char) : readable ('\n' :: cs) = .newline :: readable cs := by
  rw [readable, Piece.split_newline]
  rfl

/-- In a text that is in order, so are any lines of it. -/
theorem InOrder.of_cut (h : CutAtLines before middle after) (horder : InOrder (before ++ middle ++ after)) :
    InOrder middle := by
  have hreadable : readable (before ++ middle ++ after) = readable before ++ (readable middle ++ readable after) := by
    simp only [readable, Piece.split_cut h, List.filterMap_append]
  simp only [InOrder, hreadable, ← Place.accepts_start, Place.exists_accepts_append] at horder
  obtain ⟨q, hq, r, hr, commands, haccepts⟩ := horder
  cases run?_before h hq
  rw [inOrder_iff_run?]
  rcases h.after with rfl | ⟨cs, rfl⟩
  · have hnone : readable [] = [] := by simp [readable, Piece.split]
    rw [hnone, Place.accepts_nil] at haccepts
    exact ⟨r, commands, hr, haccepts⟩
  · rw [readable_newline, Place.accepts_newline] at haccepts
    obtain ⟨part, _, hpart, _⟩ := haccepts
    exact ⟨r, part, hr, hpart⟩

/-- Reading fails at a token of the first part, or goes through it and fails in the second. -/
theorem parseFrom_append_eq_error (h : parseFrom size p covered (xs ++ ys) = .error e) :
    (p.run? (xs.map Prod.fst) = none ∧ ∃ pair ∈ xs, e.span = pair.2) ∨
      ∃ q covered', p.run? (xs.map Prod.fst) = some q ∧ parseFrom size q covered' ys = .error e := by
  induction xs generalizing p covered with
  | nil => exact .inr ⟨p, covered, rfl, h⟩
  | cons pair xs ih =>
    obtain ⟨token, span⟩ := pair
    rcases parseFrom_cons_eq_error h with ⟨hnone, rfl⟩ | ⟨q, covered', hq, hrest⟩
    · exact .inl ⟨by simp [Place.run?, hnone], (token, span), List.mem_cons_self, rfl⟩
    · have hrun : p.run? (((token, span) :: xs).map Prod.fst) = q.run? (xs.map Prod.fst) := by
        simp [Place.run?, hq]
      rw [hrun]
      rcases ih hrest with ⟨hnone, other, hother, hspan⟩ | hlater
      · exact .inl ⟨hnone, other, List.mem_cons_of_mem _ hother, hspan⟩
      · exact .inr hlater

theorem parseFrom_nil_eq_error (h : parseFrom size p covered [] = .error e) :
    p.finish? = none ∧ e.span = ⟨size, size⟩ := by
  rw [parseFrom] at h
  split at h <;> cases h
  exact ⟨by assumption, rfl⟩

/-- Reading the tokens of a text, and others after them, fails inside the text if that is out of order. -/
private theorem parseFrom_text_eq_error {offset : Nat}
    (h : parseFrom size .start covered (Piece.tokensFrom offset (Piece.split cs) ++ ys) = .error e) :
    (¬ InOrder cs ∧ offset ≤ e.span.start ∧ e.span.start < offset + byteLength cs) ∨
      ∃ q covered', Place.start.run? (readable cs) = some q ∧ parseFrom size q covered' ys = .error e := by
  have hreadable : (Piece.tokensFrom offset (Piece.split cs)).map Prod.fst = readable cs :=
    Piece.map_fst_tokensFrom offset _
  have hcases := parseFrom_append_eq_error h
  rw [hreadable] at hcases
  refine hcases.imp_left fun ⟨hnone, pair, hpair, hspan⟩ => ⟨?_, hspan ▸ Piece.start_of_mem_tokensFrom hpair⟩
  rw [inOrder_iff_run?, hnone]
  simp

/-- What follows some lines is read only if it starts with the end of the last one, and if that line can end there. -/
private theorem parseFrom_after_eq_error {offset : Nat} (hafter : after = [] ∨ ∃ cs, after = '\n' :: cs)
    (h : parseFrom (offset + byteLength after) p covered (Piece.tokensFrom offset (Piece.split after)) = .error e) :
    (p.finish? = none ∧ e.span.start = offset) ∨ ((∃ part, p.finish? = some part) ∧ offset < e.span.start) := by
  rcases hafter with rfl | ⟨cs, rfl⟩
  · have hnone : Piece.tokensFrom offset (Piece.split []) = [] := by simp [Piece.split, Piece.tokensFrom, Piece.locate]
    rw [hnone] at h
    obtain ⟨hfinish, hspan⟩ := parseFrom_nil_eq_error h
    exact .inl ⟨hfinish, by rw [hspan]; rfl⟩
  · have htokens : Piece.tokensFrom offset (Piece.split ('\n' :: cs)) =
        (.newline, ⟨offset, offset + 1⟩) :: Piece.tokensFrom (offset + 1) (Piece.split cs) := by
      rw [Piece.tokensFrom, Piece.locate_newline]
      rfl
    rw [htokens] at h
    rcases parseFrom_cons_eq_error h with ⟨hnone, rfl⟩ | ⟨q, covered', hq, h⟩
    · rw [Place.advance?, if_pos rfl, Option.map_eq_none_iff] at hnone
      exact .inl ⟨hnone, rfl⟩
    · rw [Place.advance?, if_pos rfl] at hq
      obtain ⟨part, hpart, _⟩ := Option.map_eq_some_iff.mp hq
      refine .inr ⟨⟨part, hpart⟩, ?_⟩
      -- what fails now is one of the later tokens, or the end of the input
      rw [← List.append_nil (Piece.tokensFrom (offset + 1) (Piece.split cs))] at h
      rcases parseFrom_append_eq_error h with ⟨_, pair, hpair, hspan⟩ | ⟨r, covered'', _, h⟩
      · have hstart := Piece.start_of_mem_tokensFrom hpair
        rw [hspan]
        omega
      · have hpos := '\n'.utf8Size_pos
        rw [(parseFrom_nil_eq_error h).2, byteLength_cons]
        dsimp only
        omega

/-- The complaint about the order of tokens is about the first part of a text that is out of order. -/
private theorem start_of_parse_cut (h : CutAtLines before middle after)
    (herror : parse (byteLength (before ++ middle ++ after))
      (Piece.tokensFrom 0 (Piece.split (before ++ middle ++ after))) = .error e) :
    (¬ InOrder before ∧ e.span.start < byteLength before) ∨
    (InOrder before ∧ ¬ InOrder middle ∧ byteLength before ≤ e.span.start ∧
      e.span.start ≤ byteLength before + byteLength middle) ∨
    (InOrder middle ∧ byteLength before + byteLength middle < e.span.start) := by
  rw [parse, Piece.tokensFrom_cut h] at herror
  rcases parseFrom_text_eq_error herror with ⟨hbefore, _, hstart⟩ | ⟨q, _, hq, herror⟩
  · exact .inl ⟨hbefore, by omega⟩
  · right
    cases run?_before h hq
    have hbefore : InOrder before := inOrder_iff_run?.mpr ⟨.start, [], hq, rfl⟩
    rcases parseFrom_text_eq_error herror with ⟨hmiddle, hle, hlt⟩ | ⟨r, _, hr, herror⟩
    · exact .inl ⟨hbefore, hmiddle, hle, by omega⟩
    · have hmiddle : InOrder middle ↔ ∃ part, r.finish? = some part := by
        rw [inOrder_iff_run?, hr]
        simp
      rw [byteLength_append, byteLength_append] at herror
      rcases parseFrom_after_eq_error h.after herror with ⟨hfinish, hstart⟩ | ⟨hfinish, hstart⟩
      · refine .inl ⟨hbefore, ?_, by omega, by omega⟩
        rw [hmiddle, hfinish]
        simp
      · exact .inr ⟨hmiddle.mpr hfinish, hstart⟩

/-! ### Complaints -/

/-- The text breaks off in junk, and its tokens are given up. -/
def EndsInJunk (cs : List Char) : Prop := ∃ p ∈ (Piece.split cs).getLast?, p.isJunk = true

/-- Some of the text cannot be read. -/
def HasJunk (cs : List Char) : Prop := ∃ p ∈ Piece.split cs, p.isJunk = true

/-- The complaint about the order of the tokens, if there is one. -/
def orderError? (cs : List Char) : Option SyntaxError :=
  (Scan.ofChars cs).tokens.bind fun tokens =>
    match parse (byteLength cs) tokens with
    | .error e => some e
    | .ok _ => none

theorem errors_eq_nil_iff : (Scan.ofChars cs).errors = [] ↔ ¬ HasJunk cs := by
  refine (Piece.errors_eq_nil 0 _).trans ?_
  simp [HasJunk]

theorem tokens_eq_none_iff : (Scan.ofChars cs).tokens = none ↔ EndsInJunk cs := by
  simp [Scan.ofChars, EndsInJunk, Option.any_eq_true]

theorem tokens_eq_some {tokens : List (Token × Span)} (h : (Scan.ofChars cs).tokens = some tokens) :
    tokens = Piece.tokensFrom 0 (Piece.split cs) := by
  rw [Scan.ofChars] at h
  split at h <;> cases h
  rfl

theorem EndsInJunk.hasJunk (h : EndsInJunk cs) : HasJunk cs := by
  obtain ⟨p, hp, hjunk⟩ := h
  exact ⟨p, List.mem_of_getLast? hp, hjunk⟩

theorem HasJunk.of_part (h : CutAtLines before middle after) (hjunk : HasJunk middle) :
    HasJunk (before ++ middle ++ after) := by
  obtain ⟨p, hp, hjunk⟩ := hjunk
  rw [HasJunk, Piece.split_cut h]
  exact ⟨p, List.mem_append_right _ (List.mem_append_left _ hp), hjunk⟩

theorem orderError?_eq_some : orderError? cs = some e ↔
    ¬ EndsInJunk cs ∧ parse (byteLength cs) (Piece.tokensFrom 0 (Piece.split cs)) = .error e := by
  rw [← tokens_eq_none_iff, orderError?]
  cases htokens : (Scan.ofChars cs).tokens with
  | none => simp
  | some tokens =>
    rw [← tokens_eq_some htokens, Option.bind_some]
    cases parse (byteLength cs) tokens <;> simp

theorem inOrder_iff_parse :
    InOrder cs ↔ ∃ lines, parse (byteLength cs) (Piece.tokensFrom 0 (Piece.split cs)) = .ok lines := by
  rw [InOrder, readable, ← Piece.map_fst_tokensFrom 0]
  constructor
  · rintro ⟨commands, haccepts⟩
    obtain ⟨lines, hlines, _⟩ := exists_parse_iff.mpr haccepts
    exact ⟨lines, hlines⟩
  · rintro ⟨lines, hlines⟩
    exact ⟨_, exists_parse_iff.mp ⟨lines, hlines, rfl⟩⟩

/-- There is a complaint about the order of tokens unless they are in order, or given up. -/
theorem exists_orderError?_iff : (∃ e, orderError? cs = some e) ↔ ¬ EndsInJunk cs ∧ ¬ InOrder cs := by
  simp only [orderError?_eq_some, exists_and_left]
  refine and_congr_right fun _ => ?_
  rw [inOrder_iff_parse]
  cases parse (byteLength cs) (Piece.tokensFrom 0 (Piece.split cs)) <;> simp

/-- A text is malformed exactly if there are complaints: all about its junk, and one about the order of its tokens. -/
theorem ofChars_eq_malformed_iff {errors : List SyntaxError} : ofChars cs = .error (.malformed errors) ↔
    errors = (Scan.ofChars cs).errors ++ (orderError? cs).toList ∧ errors ≠ [] := by
  have hsame {complaints : List SyntaxError} (hne : complaints ≠ []) :
      (.error (.malformed complaints) : Except ReadFailure Listing) = .error (.malformed errors) ↔
        errors = complaints ∧ errors ≠ [] := by
    rw [Except.error.injEq, ReadFailure.malformed.injEq, eq_comm]
    exact ⟨fun h => ⟨h, h ▸ hne⟩, And.left⟩
  unfold ofChars orderError?
  dsimp only
  cases htokens : (Scan.ofChars cs).tokens with
  | none =>
    have hjunk : (Scan.ofChars cs).errors ≠ [] := by
      rw [ne_eq, errors_eq_nil_iff, not_not]
      exact (tokens_eq_none_iff.mp htokens).hasJunk
    rw [Option.bind_none, Option.toList_none, List.append_nil]
    exact hsame hjunk
  | some tokens =>
    rw [Option.bind_some]
    dsimp only
    cases parse (byteLength cs) tokens with
    | error e => exact hsame (List.append_ne_nil_of_right_ne_nil _ (List.cons_ne_nil e []))
    | ok lines =>
      rw [Option.toList_none, List.append_nil]
      cases (Scan.ofChars cs).errors with
      | nil =>
        -- what is left can only fail for want of a supply
        dsimp only
        split <;> simp
      | cons e others => exact hsame (List.cons_ne_nil e others)

theorem exists_malformed_iff :
    (∃ errors, ofChars cs = .error (.malformed errors)) ↔ HasJunk cs ∨ ¬ InOrder cs := by
  have hnone : orderError? cs = none ↔ EndsInJunk cs ∨ InOrder cs := by
    rw [Option.eq_none_iff_forall_ne_some, ← not_exists, exists_orderError?_iff, ← not_or, not_not]
  have hjunk : EndsInJunk cs → HasJunk cs := EndsInJunk.hasJunk
  simp only [ofChars_eq_malformed_iff, exists_eq_left, ne_eq, List.append_eq_nil_iff, errors_eq_nil_iff,
    Option.toList_eq_nil_iff, hnone]
  grind

/-- Complaints point into some lines of a text because of their junk, or because their tokens are the first out of
order; but junk at the end of the text hides all complaints of the second kind. -/
private theorem exists_complaint_within_cut (h : CutAtLines before middle after) :
    (∃ e ∈ (Scan.ofChars (before ++ middle ++ after)).errors ++ (orderError? (before ++ middle ++ after)).toList,
      byteLength before ≤ e.span.start ∧ e.span.start ≤ byteLength before + byteLength middle) ↔
      HasJunk middle ∨ (¬ EndsInJunk (before ++ middle ++ after) ∧ InOrder before ∧ ¬ InOrder middle) := by
  simp only [List.mem_append, or_and_right, exists_or, Option.mem_toList]
  refine or_congr (Piece.exists_error_within_cut h) ?_
  constructor
  · rintro ⟨e, he, hle, hge⟩
    obtain ⟨hend, herror⟩ := orderError?_eq_some.mp he
    refine ⟨hend, ?_⟩
    rcases start_of_parse_cut h herror with ⟨_, hlt⟩ | ⟨hbefore, hmiddle, _⟩ | ⟨_, hlt⟩
    · omega
    · exact ⟨hbefore, hmiddle⟩
    · omega
  · rintro ⟨hend, hbefore, hmiddle⟩
    obtain ⟨e, he⟩ := exists_orderError?_iff.mpr ⟨hend, mt (InOrder.of_cut h) hmiddle⟩
    refine ⟨e, he, ?_⟩
    rcases start_of_parse_cut h (orderError?_eq_some.mp he).2 with ⟨hnot, _⟩ | ⟨_, _, hwithin⟩ | ⟨hin, _⟩
    · exact absurd hbefore hnot
    · exact hwithin
    · exact absurd hin hmiddle

/-- A text with a malformed part, cut between lines, is malformed. The complaints point into the part exactly if it has
junk, or if all before it is in order and the text does not end in junk. -/
theorem malformed_part_reported_iff {before middle after : String} {own : List SyntaxError}
    (hcut : CutAtLines before.toList middle.toList after.toList) (hown : read middle = .error (.malformed own)) :
    ∃ errors, read (before ++ middle ++ after) = .error (.malformed errors) ∧
      ((∃ e ∈ errors, before.utf8ByteSize ≤ e.span.start ∧
          e.span.start ≤ before.utf8ByteSize + middle.utf8ByteSize) ↔
        HasJunk middle.toList ∨ (¬ EndsInJunk (before ++ middle ++ after).toList ∧ InOrder before.toList)) := by
  have hfaulty := exists_malformed_iff.mp ⟨own, hown⟩
  obtain ⟨errors, herrors⟩ := exists_malformed_iff.mpr (hfaulty.imp (HasJunk.of_part hcut) (mt (InOrder.of_cut hcut)))
  have hwithin := exists_complaint_within_cut hcut
  rw [← (ofChars_eq_malformed_iff.mp herrors).1] at hwithin
  simp only [read, String.toList_append, ← byteLength_toList]
  refine ⟨errors, herrors, hwithin.trans ?_⟩
  constructor
  · exact Or.imp_right fun ⟨hend, hbefore, _⟩ => ⟨hend, hbefore⟩
  · rintro (hjunk | ⟨hend, hbefore⟩)
    · exact .inl hjunk
    · exact hfaulty.imp_right fun hmiddle => ⟨hend, hbefore, hmiddle⟩

/-- Junk on an earlier line, and a fault on a later one, do not hide that a jump has no target. -/
theorem jump_reported : ∃ errors, read ("x:;\n" ++ "jump" ++ "\nprint") = .error (.malformed errors) ∧
    ∃ e ∈ errors, 4 ≤ e.span.start ∧ e.span.start ≤ 8 := by
  have hcut : CutAtLines "x:;\n".toList "jump".toList "\nprint".toList :=
    ⟨.inr ⟨"x:;".toList, by decide⟩, .inr ⟨"print".toList, by decide⟩⟩
  have hown : read "jump" = .error (.malformed [⟨⟨4, 4⟩, none, [.label]⟩]) := by decide +kernel
  have hend : ¬ EndsInJunk ("x:;\n" ++ "jump" ++ "\nprint").toList := by
    rw [← tokens_eq_none_iff]
    decide +kernel
  have hbefore : InOrder "x:;\n".toList := inOrder_iff_run?.mpr ⟨.start, [], by decide +kernel, rfl⟩
  obtain ⟨errors, herrors, hwithin⟩ := malformed_part_reported_iff hcut hown
  exact ⟨errors, herrors, hwithin.mpr (.inr ⟨hend, hbefore⟩)⟩

/-- A fault on a line of its own may go unreported: reading stops at the first. -/
theorem later_fault_unreported : ¬ ∀ before line after : String,
    CutAtLines before.toList line.toList after.toList → '\n' ∉ line.toList →
    (∃ own, read line = .error (.malformed own)) →
      ∃ errors, read (before ++ line ++ after) = .error (.malformed errors) ∧
        ∃ e ∈ errors, before.utf8ByteSize ≤ e.span.start ∧
          e.span.start ≤ before.utf8ByteSize + line.utf8ByteSize := by
  intro h
  have hcut : CutAtLines "jump\n".toList "print".toList "".toList := ⟨.inr ⟨"jump".toList, by decide⟩, .inl (by decide)⟩
  have hown : read "print" = .error (.malformed [⟨⟨5, 5⟩, none, [.temporary]⟩]) := by decide +kernel
  have hall : read ("jump\n" ++ "print" ++ "") = .error (.malformed [⟨⟨4, 5⟩, some .newline, [.label]⟩]) := by
    decide +kernel
  obtain ⟨errors, herrors, e, he, hstart, _⟩ := h _ _ _ hcut (by decide) ⟨_, hown⟩
  cases hall.symm.trans herrors
  cases List.mem_singleton.mp he
  exact absurd hstart (by decide)

end Listing
end RegisterColoring

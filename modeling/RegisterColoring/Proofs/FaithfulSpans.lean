import Mathlib.Data.List.Induction
import RegisterColoring.Proofs.Gaps

/-! Where the instructions of a listing stand. Main statement: the span of an instruction is the part of the source that
is read as this instruction alone, and between two of them a line ends. -/
namespace RegisterColoring

/-! ### Pieces of a line -/

namespace Piece
variable {offset : Nat} {ps : List Piece}

/-- There is no token among the pieces. -/
def Bare (ps : List Piece) : Prop := ∀ p ∈ ps, p.content? = none

/-- There are no pieces, or the last one is a token. -/
def EndsInToken (ps : List Piece) : Prop := ps = [] ∨ ∃ front l, ps = front ++ [lexeme l]

theorem tokensFrom_of_bare (h : Bare ps) (offset : Nat) : tokensFrom offset ps = [] := by
  have htokens := map_fst_tokensFrom offset ps
  rwa [List.filterMap_eq_nil_iff.mpr h, List.map_eq_nil_iff] at htokens

theorem tokensFrom_append (offset : Nat) (ps qs : List Piece) :
    tokensFrom offset (ps ++ qs) = tokensFrom offset ps ++ tokensFrom (offset + byteLength (ps.flatMap text)) qs := by
  rw [tokensFrom, locate_append, List.filterMap_append]
  rfl

private theorem exists_first_token (ps : List Piece) :
    Bare ps ∨ ∃ front l rest, ps = front ++ lexeme l :: rest ∧ Bare front := by
  induction ps with
  | nil => exact .inl (by simp [Bare])
  | cons p ps ih =>
    cases hp : p.content? with
    | some token =>
      cases p <;> cases hp
      next l => exact .inr ⟨[], l, ps, rfl, by simp [Bare]⟩
    | none =>
      refine ih.imp (fun hbare => List.forall_mem_cons.mpr ⟨hp, hbare⟩) ?_
      rintro ⟨front, l, rest, rfl, hbare⟩
      exact ⟨p :: front, l, rest, rfl, List.forall_mem_cons.mpr ⟨hp, hbare⟩⟩

private theorem exists_last_token (ps : List Piece) :
    ∃ inner back, ps = inner ++ back ∧ EndsInToken inner ∧ Bare back := by
  induction ps using List.reverseRecOn with
  | nil => exact ⟨[], [], rfl, .inl rfl, by simp [Bare]⟩
  | append_singleton ps p ih =>
    cases hp : p.content? with
    | some token =>
      cases p <;> cases hp
      next l => exact ⟨ps ++ [lexeme l], [], by simp, .inr ⟨ps, l, rfl⟩, by simp [Bare]⟩
    | none =>
      obtain ⟨inner, back, rfl, hinner, hback⟩ := ih
      refine ⟨inner, back ++ [p], by simp, hinner, ?_⟩
      rw [Bare, List.forall_mem_append]
      exact ⟨hback, List.forall_mem_singleton.mpr hp⟩

/-- Pieces with a token are those from the first to the last one, with none before and after. -/
theorem exists_trim (ps : List Piece) : Bare ps ∨
    ∃ front l inner back, ps = front ++ (lexeme l :: inner ++ back) ∧ Bare front ∧ EndsInToken inner ∧ Bare back := by
  rcases exists_first_token ps with hbare | ⟨front, l, rest, rfl, hfront⟩
  · exact .inl hbare
  · obtain ⟨inner, back, rfl, hinner, hback⟩ := exists_last_token rest
    exact .inr ⟨front, l, inner, back, rfl, hfront, hinner, hback⟩

/-- Pieces around the tokens only move them on. -/
theorem tokensFrom_trim {front middle back : List Piece} (hfront : Bare front) (hback : Bare back) :
    tokensFrom 0 (front ++ (middle ++ back)) =
      (tokensFrom 0 middle).map (Prod.map id (Span.shift (byteLength (front.flatMap text)))) := by
  rw [tokensFrom_append, tokensFrom_of_bare hfront, List.nil_append, tokensFrom_append, tokensFrom_of_bare hback,
    List.append_nil, tokensFrom_add]

/-- Cut out of a text without junk, pieces are found again. -/
theorem split_middle {cs : List Char} {front middle back : List Piece} (hsplit : split cs = front ++ (middle ++ back))
    (hjunk : ∀ p ∈ middle, p.isJunk = false) : split (middle.flatMap text) = middle := by
  have hfitting := fitting_split cs
  rw [hsplit] at hfitting
  exact split_eq_iff.mpr ⟨rfl, hfitting.of_append.of_append_left hjunk⟩

/-- The last token ends where the pieces end. -/
theorem stop_of_endsInToken (h : EndsInToken ps) :
    (tokensFrom offset ps).foldl (fun _ pair => pair.2.stop) offset = offset + byteLength (ps.flatMap text) := by
  rcases h with rfl | ⟨front, l, rfl⟩
  · rfl
  · rw [tokensFrom_append, List.foldl_append, List.flatMap_append, byteLength_append, ← Nat.add_assoc]
    simp [tokensFrom, locate, token?]

end Piece

/-! ### Tokens of a line -/

namespace Place
variable {p q : Place} {token : Token}

theorem next?_ne_start (h : p.next? token = some q) : q ≠ .start := by
  rintro rfl
  unfold next? at h
  split at h <;> cases h

theorem finish?_of_ne_start {part : List Command} (hp : p ≠ .start) (h : p.finish? = some part) : ∃ c, part = [c] := by
  cases p with
  | start => exact absurd rfl hp
  | returnValue =>
    cases h
    exact ⟨_, rfl⟩
  | done c =>
    cases h
    exact ⟨_, rfl⟩
  | _ => cases h

end Place

namespace Listing
variable {size : Nat} {p : Place} {covered : Span} {tokens : List (Token × Span)} {lines : List Line}

/-- The tokens of a line are read as one instruction, which reaches from where it was entered to the last token. -/
theorem parseFrom_line (hp : p ≠ .start) (hline : ∀ pair ∈ tokens, pair.1 ≠ .newline)
    (h : parseFrom size p covered tokens = .ok lines) :
    ∃ c, lines = [⟨c, ⟨covered.start, tokens.foldl (fun _ pair => pair.2.stop) covered.stop⟩⟩] := by
  induction tokens generalizing p covered with
  | nil =>
    rw [parseFrom] at h
    split at h <;> cases h
    next part hpart =>
    obtain ⟨c, rfl⟩ := Place.finish?_of_ne_start hp hpart
    exact ⟨c, rfl⟩
  | cons pair tokens ih =>
    obtain ⟨token, span⟩ := pair
    obtain ⟨htoken, htokens⟩ := List.forall_mem_cons.mp hline
    rw [parseFrom, if_neg htoken] at h
    split at h
    · next following hnext =>
      dsimp only at h
      rw [if_neg hp] at h
      exact ih (Place.next?_ne_start hnext) htokens h
    · cases h

/-- Tokens from the first to the last of a line are read as one instruction, which reaches over all of them. -/
theorem parse_line {l : Lexeme} {inner : List Piece} (hinner : Piece.EndsInToken inner)
    (hline : ∀ pair ∈ Piece.tokensFrom 0 (.lexeme l :: inner), pair.1 ≠ .newline)
    (h : parse size (Piece.tokensFrom 0 (.lexeme l :: inner)) = .ok lines) :
    ∃ c, lines = [⟨c, .behind [] ((Piece.lexeme l :: inner).flatMap Piece.text)⟩] := by
  have htokens : Piece.tokensFrom 0 (.lexeme l :: inner) =
      (l.token, ⟨0, byteLength l.text⟩) :: Piece.tokensFrom (byteLength l.text) inner := by
    simp [Piece.tokensFrom, Piece.locate, Piece.token?, Piece.text]
  rw [htokens] at hline h
  obtain ⟨htoken, hothers⟩ := List.forall_mem_cons.mp hline
  rw [parse, parseFrom, if_neg htoken] at h
  split at h
  · next following hnext =>
    obtain ⟨c, rfl⟩ := parseFrom_line (Place.next?_ne_start hnext) hothers h
    refine ⟨c, ?_⟩
    dsimp only
    rw [Piece.stop_of_endsInToken hinner, List.flatMap_cons, Span.behind, byteLength_append]
    simp [Piece.text]
  · cases h

end Listing

/-! ### Lines of a text -/

/-- The instruction stands in the text, and the part that it covers is read as this instruction alone. -/
def Line.Stands (cs : List Char) (line : Line) : Prop :=
  ∃ before part after, cs = before ++ part ++ after ∧ part ≠ [] ∧ line.span = .behind before part ∧
    ∃ alone, Listing.ofChars part = .ok alone ∧ alone.lines = [⟨line.command, .behind [] part⟩]

/-- One instruction comes after the other, and a line ends between them. -/
def Line.Apart (cs : List Char) (first second : Line) : Prop :=
  ∃ before between after, cs = before ++ between ++ after ∧ '\n' ∈ between ∧
    ⟨first.span.stop, second.span.start⟩ = Span.behind before between

namespace Listing
variable {cs : List Char} {l : Listing}

/-- Further into a text the same tokens are read as the same lines. -/
theorem parse_shift {distance : Nat} {tokens : List (Token × Span)} {lines : List Line} (size size' : Nat) :
    parse size (tokens.map (Prod.map id (Span.shift distance))) = .ok lines ↔
      ∃ original, parse size' tokens = .ok original ∧ lines = original.map (Line.shift distance) := by
  rw [parse, parseFrom_start _ _ (Span.shift distance ⟨0, 0⟩), parseFrom_shift size size']
  rfl

/-- A text without the end of a line is read as one instruction at most, and this one stands in it. -/
theorem stands_of_one_line (hn : '\n' ∉ cs) (h : ofChars cs = .ok l) :
    l.lines = [] ∨ ∃ line, l.lines = [line] ∧ line.Stands cs := by
  obtain ⟨hjunk, hlines, hsupply⟩ := ofChars_eq_ok_iff.mp h
  have hline : ∀ pair ∈ Piece.tokensFrom 0 (Piece.split cs), pair.1 ≠ .newline := by
    rintro ⟨token, span⟩ hpair rfl
    obtain ⟨before, after, hcs, _⟩ := Piece.isSpelled_of_mem_tokens hpair
    exact hn (by simp [hcs, Token.spelling])
  rcases Piece.exists_trim (Piece.split cs) with hbare | ⟨front, first, inner, back, hsplit, hfront, hinner, hback⟩
  · rw [Piece.tokensFrom_of_bare hbare] at hlines
    exact .inl (Except.ok.inj hlines).symm
  · right
    have hmiddle : ∀ p ∈ Piece.lexeme first :: inner, p.isJunk = false := by
      intro p hp
      apply hjunk
      rw [hsplit]
      exact List.mem_append_right _ (List.mem_append_left _ hp)
    have hpart := Piece.split_middle hsplit hmiddle
    have hne : (Piece.lexeme first :: inner).flatMap Piece.text ≠ [] := by
      have htext := Piece.text_ne_nil_of_mem_split (show .lexeme first ∈ Piece.split cs by simp [hsplit])
      exact List.append_ne_nil_of_left_ne_nil htext _
    have htext := Piece.flatMap_text_split cs
    rw [hsplit] at htext hlines hline
    rw [Piece.tokensFrom_trim hfront hback] at hlines hline
    have hown : ∀ pair ∈ Piece.tokensFrom 0 (.lexeme first :: inner), pair.1 ≠ .newline := by
      intro pair hpair
      exact hline (Prod.map id (Span.shift _) pair) (List.mem_map_of_mem hpair)
    generalize hcut : (Piece.lexeme first :: inner).flatMap Piece.text = part at hpart hne
    obtain ⟨original, horiginal, hlines⟩ := (parse_shift (byteLength cs) (byteLength part)).mp hlines
    obtain ⟨c, rfl⟩ := parse_line hinner hown horiginal
    rw [hcut] at horiginal hlines
    refine ⟨_, hlines, front.flatMap Piece.text, part, back.flatMap Piece.text, ?_, hne, ?_, ⟨_, l.supply⟩, ?_, rfl⟩
    · rw [← htext, List.flatMap_append, List.flatMap_append, hcut, List.append_assoc]
    · simp [Span.behind, Span.shift, Line.shift, Nat.add_comm]
    · rw [commands, hlines] at hsupply
      rw [ofChars_eq_ok_iff, hpart]
      exact ⟨hmiddle, horiginal, hsupply⟩

end Listing

namespace Line
variable {xs ys : List Char} {line first second : Line}

theorem Stands.append_right (h : line.Stands xs) (ys : List Char) : line.Stands (xs ++ ys) := by
  obtain ⟨before, part, after, rfl, hrest⟩ := h
  exact ⟨before, part, after ++ ys, by simp, hrest⟩

theorem Stands.append_left (h : line.Stands ys) (xs : List Char) :
    (line.shift (byteLength xs)).Stands (xs ++ ys) := by
  obtain ⟨before, part, after, rfl, hne, hspan, halone⟩ := h
  exact ⟨xs ++ before, part, after, by simp, hne, by rw [Span.behind_append, ← hspan]; rfl, halone⟩

theorem Apart.append_left (h : first.Apart ys second) (xs : List Char) :
    (first.shift (byteLength xs)).Apart (xs ++ ys) (second.shift (byteLength xs)) := by
  obtain ⟨before, between, after, rfl, hend, hspan⟩ := h
  exact ⟨xs ++ before, between, after, by simp, hend, by rw [Span.behind_append, ← hspan]; rfl⟩

/-- Instructions of two texts are apart if a line ends between the texts. -/
theorem apart_of_newline (hfirst : first.Stands xs) (hsecond : second.Stands ys) :
    first.Apart (xs ++ '\n' :: ys) (second.shift (byteLength xs + 1)) := by
  obtain ⟨before, part, after, rfl, _, hspan, _⟩ := hfirst
  obtain ⟨before', part', after', rfl, _, hspan', _⟩ := hsecond
  refine ⟨before ++ part, after ++ '\n' :: before', part' ++ after', by simp, by simp, ?_⟩
  have hone : '\n'.utf8Size = 1 := rfl
  simp only [shift, hspan, hspan', Span.behind, Span.shift, byteLength_append, byteLength_cons, hone, Span.mk.injEq,
    true_and]
  omega

end Line

namespace Listing
variable {cs : List Char} {l : Listing}

/-- All instructions of a text stand in it, apart from each other. -/
theorem stands_and_apart (h : ofChars cs = .ok l) :
    (∀ line ∈ l.lines, line.Stands cs) ∧ l.lines.Pairwise (Line.Apart cs) := by
  have hline {xs : List Char} {l : Listing} (hxs : '\n' ∉ xs) (hl : ofChars xs = .ok l) (cs : List Char) :
      (∀ line ∈ l.lines, line.Stands xs) ∧ l.lines.Pairwise (Line.Apart cs) := by
    rcases stands_of_one_line hxs hl with hnone | ⟨line, hone, hstands⟩
    · simp [hnone]
    · simpa [hone] using hstands
  -- by induction on the length of the text, which is cut after its first line
  induction hlength : cs.length using Nat.strongRecOn generalizing cs l with
  | _ n ih =>
    by_cases hn : '\n' ∈ cs
    · obtain ⟨xs, ys, rfl, hxs⟩ := List.eq_append_cons_of_mem hn
      obtain ⟨first, rest, hfirst, hrest, hlines, _⟩ := ofChars_append_newline.mp h
      obtain ⟨hstands₁, hapart₁⟩ := hline hxs hfirst (xs ++ '\n' :: ys)
      have hshorter : ys.length < n := by
        rw [← hlength, List.length_append, List.length_cons]
        omega
      obtain ⟨hstands₂, hapart₂⟩ := ih ys.length hshorter hrest rfl
      have hbytes : byteLength xs + 1 = byteLength (xs ++ ['\n']) := by
        rw [byteLength_append]
        rfl
      have htext : xs ++ '\n' :: ys = xs ++ ['\n'] ++ ys := by simp
      rw [hlines, List.forall_mem_append, List.forall_mem_map, List.pairwise_append, List.pairwise_map]
      refine ⟨⟨fun line hl => (hstands₁ line hl).append_right _, fun line hl => ?_⟩, hapart₁, ?_, ?_⟩
      · rw [hbytes, htext]
        exact (hstands₂ line hl).append_left _
      · rw [hbytes, htext]
        exact hapart₂.imp fun h => h.append_left _
      · intro line hl other hother
        obtain ⟨original, horiginal, rfl⟩ := List.mem_map.mp hother
        exact Line.apart_of_newline (hstands₁ line hl) (hstands₂ original horiginal)
    · exact hline hn h cs

end Listing

/-! ### Listings -/

/-- The bytes of a part of the source, cut between characters. -/
def Span.Covers (span : Span) (source part : String) : Prop :=
  ∃ before after, source = before ++ part ++ after ∧ span.start = before.utf8ByteSize ∧
    span.stop = (before ++ part).utf8ByteSize

theorem Span.covers_behind {source : String} {before part after : List Char}
    (h : source.toList = before ++ part ++ after) : (Span.behind before part).Covers source (.ofList part) := by
  refine ⟨.ofList before, .ofList after, ?_, ?_, ?_⟩
  · rw [← String.toList_inj, h]
    simp
  · rw [← byteLength_toList, String.toList_ofList]
    rfl
  · rw [← byteLength_toList, String.toList_append, String.toList_ofList, String.toList_ofList, byteLength_append]
    rfl

/-- The part of the source that an instruction covers is read as it, with all of the part as its span. -/
theorem Line.Stands.exists_part {source : String} {line : Line} (h : line.Stands source.toList) :
    ∃ part alone, line.span.Covers source part ∧ Listing.read part = .ok alone ∧ alone.commands = [line.command] ∧
      alone.spans = [⟨0, line.span.stop - line.span.start⟩] := by
  obtain ⟨before, part, after, hsource, _, hspan, alone, halone, hlines⟩ := h
  rw [hspan]
  refine ⟨.ofList part, alone, Span.covers_behind hsource, ?_, ?_, ?_⟩
  · rwa [Listing.read, String.toList_ofList]
  · rw [Listing.commands, hlines]
    rfl
  · simp [Listing.spans, hlines, Span.behind]

namespace Listing

/-- The instructions of a listing and their spans belong together. Each span is inside the source, cut between
characters, and the part of the source there is read as the one instruction with all of the part as its span. From one
instruction to the next there is the end of a line. -/
theorem spans_faithful {source : String} {l : Listing} (h : read source = .ok l) :
    l.spans.length = l.commands.length ∧
    (∀ (i : Nat) (c : Command) (span : Span), l.commands[i]? = some c → l.spans[i]? = some span →
      span.start < span.stop ∧ span.stop ≤ source.utf8ByteSize ∧
      ∃ part alone, span.Covers source part ∧ read part = .ok alone ∧ alone.commands = [c] ∧
        alone.spans = [⟨0, span.stop - span.start⟩]) ∧
    ∀ (i : Nat) (first second : Span), l.spans[i]? = some first → l.spans[i + 1]? = some second →
      first.stop < second.start ∧
      ∃ between, Span.Covers ⟨first.stop, second.start⟩ source between ∧ '\n' ∈ between.toList := by
  obtain ⟨hstands, hapart⟩ := stands_and_apart h
  refine ⟨by rw [spans, commands, List.length_map, List.length_map], ?_, ?_⟩
  · intro i c span hc hspan
    rw [commands, List.getElem?_map, Option.map_eq_some_iff] at hc
    rw [spans, List.getElem?_map, Option.map_eq_some_iff] at hspan
    obtain ⟨line, hline, rfl⟩ := hc
    obtain ⟨_, hline', rfl⟩ := hspan
    cases hline.symm.trans hline'
    obtain ⟨before, part, after, hsource, hne, hspan, _⟩ := hstands line (List.mem_of_getElem? hline)
    refine ⟨?_, ?_, (hstands line (List.mem_of_getElem? hline)).exists_part⟩
    · rw [hspan]
      exact Span.behind_lt hne
    · rw [hspan, ← byteLength_toList]
      exact Span.behind_le hsource
  · intro i first second hfirst hsecond
    rw [spans, List.getElem?_map, Option.map_eq_some_iff] at hfirst hsecond
    obtain ⟨line, hline, rfl⟩ := hfirst
    obtain ⟨other, hother, rfl⟩ := hsecond
    obtain ⟨hi, rfl⟩ := List.getElem?_eq_some_iff.mp hline
    obtain ⟨hj, rfl⟩ := List.getElem?_eq_some_iff.mp hother
    obtain ⟨before, between, after, hsource, hend, hspan⟩ :=
      List.pairwise_iff_getElem.mp hapart i (i + 1) hi hj (Nat.lt_succ_self i)
    have hlt : (Span.behind before between).start < (Span.behind before between).stop :=
      Span.behind_lt (List.ne_nil_of_mem hend)
    rw [← hspan] at hlt
    refine ⟨hlt, .ofList between, ?_, by rwa [String.toList_ofList]⟩
    rw [hspan]
    exact Span.covers_behind hsource

/-- Blanks, a remark with a character of two bytes, and an empty line around two instructions. -/
theorem remarks_around_print : ∃ l, read "  t0 =\t-5 # é\n\n print t0 " = .ok l ∧ l.spans = [⟨2, 9⟩, ⟨17, 25⟩] ∧
    (∃ part alone, Span.Covers ⟨17, 25⟩ "  t0 =\t-5 # é\n\n print t0 " part ∧ read part = .ok alone ∧
      alone.commands = [.print ⟨0⟩] ∧ alone.spans = [⟨0, 8⟩]) ∧
    ∃ between, Span.Covers ⟨9, 17⟩ "  t0 =\t-5 # é\n\n print t0 " between ∧ '\n' ∈ between.toList := by
  have hok : ∃ l ∈ (read "  t0 =\t-5 # é\n\n print t0 ").toOption,
      l.commands = [.const ⟨0⟩ (-5), .print ⟨0⟩] ∧ l.spans = [⟨2, 9⟩, ⟨17, 25⟩] := by decide +kernel
  obtain ⟨l, hl, hcommands, hspans⟩ := exists_ok_of_toOption hok
  obtain ⟨_, hpart, hbetween⟩ := spans_faithful hl
  obtain ⟨_, _, hprint⟩ := hpart 1 (.print ⟨0⟩) ⟨17, 25⟩ (by rw [hcommands]; rfl) (by rw [hspans]; rfl)
  obtain ⟨_, hend⟩ := hbetween 0 ⟨2, 9⟩ ⟨17, 25⟩ (by rw [hspans]; rfl) (by rw [hspans]; rfl)
  exact ⟨l, hl, hspans, hprint, hend⟩

end Listing
end RegisterColoring

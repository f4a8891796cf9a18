import RegisterColoring.Proofs.FaultyLines
import RegisterColoring.Proofs.Pieces

/-! What stands between the tokens of a text. Main statement: nothing of a text is dropped silently. What is not a token
is blank, or a remark, or a run of junk with one complaint about its first character. -/
namespace RegisterColoring

/-- The bytes of a part of a text that comes after `before`. -/
def Span.behind (before part : List Char) : Span := ⟨byteLength before, byteLength before + byteLength part⟩

theorem Span.behind_lt {before part : List Char} (h : part ≠ []) :
    (behind before part).start < (behind before part).stop :=
  Nat.lt_add_of_pos_right (byteLength_pos h)

theorem Span.behind_le {cs before part after : List Char} (h : cs = before ++ part ++ after) :
    (behind before part).stop ≤ byteLength cs := by
  rw [h, byteLength_append, byteLength_append]
  exact Nat.le_add_right _ _

theorem Span.behind_append (xs before part : List Char) :
    behind (xs ++ before) part = (behind before part).shift (byteLength xs) := by
  rw [behind, behind, shift, byteLength_append, mk.injEq]
  dsimp only
  omega

namespace Piece
open Token
variable {before part after cs : List Char} {p : Piece} {ps : List Piece} {span : Span}
  {found : List SyntaxError} {e : SyntaxError}

/-! ### Gaps -/

/-- Blanks and then at most one comment, which lasts to the end of its line. -/
def Clean (part after : List Char) : Prop :=
  ∃ blanks remark, part = blanks ++ remark ∧ (∀ c ∈ blanks, isBlank c = true) ∧
    (remark = [] ∨ ∃ body, remark = '#' :: body ∧ '\n' ∉ body ∧ AtLineEnd after)

/-- What stands between tokens, and the complaints about it. There are none if it is clean. Otherwise the first
character that is not is blamed, and no token can be read up to where the gap ends. -/
inductive Gap (before part after : List Char) : List SyntaxError → Prop
  | clean : Clean part after → Gap before part after []
  | faulty {clean skipped : List Char} {first : Char} : part = clean ++ first :: skipped →
      Clean clean (first :: skipped ++ after) → isBlank first = false ∧ first ≠ '#' →
      Unreadable (first :: skipped) after → after = [] ∨ Readable after →
      Gap before part after [.unreadable (.behind (before ++ clean) [first])]

theorem clean_nil : Clean [] after := ⟨[], [], rfl, by simp, .inl rfl⟩

/-- Only the end of a line follows a comment. -/
theorem Clean.blanks {c : Char} (h : Clean part (c :: after)) (hc : c ≠ '\n') : ∀ b ∈ part, isBlank b = true := by
  obtain ⟨blanks, remark, rfl, hblanks, hremark⟩ := h
  rcases hremark with rfl | ⟨body, _, _, hend⟩
  · rwa [List.append_nil]
  · obtain ⟨more, hmore⟩ := hend.resolve_left (List.cons_ne_nil _ _)
    exact absurd (List.cons.inj hmore).1 hc

/-- A piece that is no token prolongs the gap that it stands in. -/
theorem Gap.step (h : Gap before part (p.text ++ after) found) (hp : p.Fits after) (hcontent : p.content? = none) :
    Gap before (part ++ p.text) after (found ++ (error? (p, .behind (before ++ part) p.text)).toList) := by
  cases h with
  | clean hclean =>
    cases p with
    | blank c =>
      have hc : c ≠ '\n' := by
        rintro rfl
        cases hp
      refine .clean ⟨part ++ [c], [], by simp [text], ?_, .inl rfl⟩
      rw [List.forall_mem_append]
      exact ⟨hclean.blanks hc, List.forall_mem_singleton.mpr hp⟩
    | comment body =>
      have hblanks := hclean.blanks (c := '#') (by decide)
      exact .clean ⟨part, '#' :: body, rfl, hblanks, .inr ⟨body, rfl, hp.1, hp.2⟩⟩
    | lexeme l => cases hcontent
    | junk first skipped => exact .faulty rfl hclean hp.1 hp.2.1 hp.2.2
  | faulty _ _ _ _ hafter =>
    -- junk is followed by a token or by nothing
    have hread := hafter.resolve_left (List.append_ne_nil_of_left_ne_nil hp.text_ne_nil _)
    obtain ⟨l, rfl⟩ := hp.exists_lexeme hread
    cases hcontent

/-- The spans before, between and after tokens, from `offset` on. -/
def gaps (offset size : Nat) : List (Token × Span) → List Span
  | [] => [⟨offset, size⟩]
  | (_, span) :: tokens => ⟨offset, span.start⟩ :: gaps span.stop size tokens

/-- The span is a gap of the text with these complaints. -/
def IsGap (cs : List Char) (gap : Span) (found : List SyntaxError) : Prop :=
  ∃ before part after, cs = before ++ part ++ after ∧ gap = .behind before part ∧ Gap before part after found

theorem locate_cons (xs : List Char) (p : Piece) (ps : List Piece) :
    locate (byteLength xs) (p :: ps) = (p, .behind xs p.text) :: locate (byteLength (xs ++ p.text)) ps := by
  rw [locate, byteLength_append]
  rfl

private theorem token?_eq (p : Piece) (span : Span) : token? (p, span) = p.content?.map (·, span) := by
  cases p <;> rfl

private theorem span_of_token? {a : Piece × Span} {x : Token × Span} (h : token? a = some x) : x.2 = a.2 := by
  obtain ⟨p, span⟩ := a
  rw [token?_eq] at h
  obtain ⟨token, _, rfl⟩ := Option.map_eq_some_iff.mp h
  rfl

theorem filterMap_cons_toList {α β : Type} (f : α → Option β) (a : α) (as : List α) :
    (a :: as).filterMap f = (f a).toList ++ as.filterMap f := by
  cases h : f a <;> simp [h]

/-- Of pieces that fit, the complaints are those about the gaps, in order. The first gap may have begun before them. -/
theorem exists_gaps (before part : List Char) (hps : Fitting ps) (hgap : Gap before part (ps.flatMap text) found)
    (hcs : cs = before ++ part ++ ps.flatMap text) :
    ∃ all, List.Forall₂ (IsGap cs)
        (gaps (byteLength before) (byteLength cs) (tokensFrom (byteLength (before ++ part)) ps)) all ∧
      found ++ (locate (byteLength (before ++ part)) ps).filterMap error? = all.flatten := by
  induction ps generalizing before part found with
  | nil =>
    refine ⟨[found], .cons ⟨before, part, [], hcs, ?_, hgap⟩ .nil, by simp [locate]⟩
    simp [hcs, Span.behind]
  | cons p ps ih =>
    obtain ⟨hp, hps⟩ := hps
    rw [List.flatMap_cons] at hgap hcs
    rw [tokensFrom, locate_cons, filterMap_cons_toList, filterMap_cons_toList, token?_eq]
    cases hcontent : p.content? with
    | none =>
      obtain ⟨all, hall, hfound⟩ := ih before (part ++ p.text) hps (hgap.step hp hcontent) (by simp [hcs])
      rw [← List.append_assoc] at hall hfound
      exact ⟨all, hall, (List.append_assoc ..).symm.trans hfound⟩
    | some token =>
      -- the gap ends here, and the next one begins behind the token
      obtain ⟨all, hall, hfound⟩ :=
        ih (before ++ part ++ p.text) [] hps (.clean clean_nil) (by simp [hcs])
      rw [List.append_nil] at hall hfound
      have hstart : ⟨byteLength before, (Span.behind (before ++ part) p.text).start⟩ = Span.behind before part := by
        simp [Span.behind]
      have hstop : (Span.behind (before ++ part) p.text).stop = byteLength (before ++ part ++ p.text) := by
        simp [Span.behind, Nat.add_assoc]
      have hnone : error? (p, .behind (before ++ part) p.text) = none := by
        cases p <;> cases hcontent
        rfl
      refine ⟨found :: all, .cons ⟨before, part, _, hcs, hstart, hgap⟩ ?_, ?_⟩
      · rwa [hstop]
      · rw [hnone, List.flatten_cons, ← hfound]
        rfl

/-! ### Tokens -/

theorem exists_of_mem_locate (before : List Char) (h : (p, span) ∈ locate (byteLength before) ps) :
    ∃ qs rs, ps = qs ++ p :: rs ∧ span = .behind (before ++ qs.flatMap text) p.text := by
  induction ps generalizing before with
  | nil => cases h
  | cons q ps ih =>
    rw [locate_cons] at h
    rcases List.mem_cons.mp h with heq | h
    · cases heq
      exact ⟨[], ps, rfl, by simp⟩
    · obtain ⟨qs, rs, rfl, rfl⟩ := ih _ h
      exact ⟨q :: qs, rs, rfl, by simp⟩

theorem pairwise_locate (before : List Char) (ps : List Piece) :
    (locate (byteLength before) ps).Pairwise fun a b => a.2.stop ≤ b.2.start := by
  induction ps generalizing before with
  | nil => exact .nil
  | cons p ps ih =>
    rw [locate_cons]
    refine .cons ?_ (ih _)
    rintro ⟨q, span⟩ hq
    obtain ⟨qs, rs, _, rfl⟩ := exists_of_mem_locate _ hq
    simp [Span.behind]

/-- The token stands in the text with its spelling, and the text does not go on with it. -/
def IsSpelled (cs : List Char) (token : Token) (span : Span) : Prop :=
  ∃ before after, cs = before ++ token.spelling ++ after ∧ span = .behind before token.spelling ∧
    token.Legal ∧ token.Ends after

theorem isSpelled_of_mem_tokens {token : Token} (h : (token, span) ∈ tokensFrom 0 (split cs)) :
    IsSpelled cs token span := by
  obtain ⟨⟨p, span⟩, hmem, htoken⟩ := List.mem_filterMap.mp h
  cases p <;> cases htoken
  next l =>
  obtain ⟨qs, rs, hsplit, rfl⟩ := exists_of_mem_locate [] hmem
  have hfitting := fitting_split cs
  rw [hsplit] at hfitting
  obtain ⟨hspelled, hlegal, hends⟩ := hfitting.of_append.1
  refine ⟨qs.flatMap text, rs.flatMap text, ?_, by rw [← hspelled]; rfl, hlegal, hends⟩
  rw [← flatMap_text_split cs, hsplit, ← hspelled]
  simp [text]

theorem IsSpelled.bounds {token : Token} (h : IsSpelled cs token span) :
    span.start < span.stop ∧ span.stop ≤ byteLength cs := by
  obtain ⟨before, after, hcs, rfl, hlegal, hends⟩ := h
  have hfits : (lexeme ⟨token, token.spelling⟩).Fits after := ⟨rfl, hlegal, hends⟩
  exact ⟨Span.behind_lt hfits.text_ne_nil, Span.behind_le hcs⟩

/-! ### Complaints -/

theorem mem_errors_iff : e ∈ (Scan.ofChars cs).errors ↔ ∃ qs first skipped rs,
    split cs = qs ++ junk first skipped :: rs ∧ e = .unreadable (.behind (qs.flatMap text) [first]) := by
  constructor
  · intro h
    obtain ⟨⟨p, span⟩, hmem, herror⟩ := List.mem_filterMap.mp h
    cases p <;> cases herror
    next first skipped =>
    obtain ⟨qs, rs, hsplit, rfl⟩ := exists_of_mem_locate [] hmem
    exact ⟨qs, first, skipped, rs, hsplit, rfl⟩
  · rintro ⟨qs, first, skipped, rs, hsplit, rfl⟩
    refine List.mem_filterMap.mpr ⟨(junk first skipped, .behind (qs.flatMap text) (first :: skipped)), ?_, rfl⟩
    rw [hsplit, locate_append, Nat.zero_add, locate_cons]
    exact List.mem_append_right _ List.mem_cons_self

/-- The tokens of a text are given up exactly if some complaint is followed by none of them. -/
theorem tokens_eq_none_iff_unreadable : (Scan.ofChars cs).tokens = none ↔
    ∃ e ∈ (Scan.ofChars cs).errors, ∀ before after, cs = before ++ after → e.span.stop ≤ byteLength before →
      ¬ Readable after := by
  simp only [Listing.tokens_eq_none_iff, mem_errors_iff]
  have hfitting := fitting_split cs
  have htext := flatMap_text_split cs
  constructor
  · rintro ⟨p, hlast, hjunk⟩
    obtain ⟨qs, hsplit⟩ := List.getLast?_eq_some_iff.mp hlast
    cases p <;> cases hjunk
    next first skipped =>
    rw [hsplit] at hfitting htext
    obtain ⟨_, hunreadable, _⟩ := hfitting.of_append.1
    refine ⟨_, ⟨qs, first, skipped, [], hsplit, rfl⟩, fun before after hcs hle hread => ?_⟩
    have hsame : qs.flatMap text ++ first :: skipped = before ++ after := by
      rw [← hcs, ← htext]
      simp [text]
    rcases List.append_eq_append_iff.mp hsame with ⟨xs, _, hafter⟩ | ⟨xs, hbefore, _⟩
    · have hne : after ≠ [] := by
        rintro rfl
        exact not_readable_nil hread
      apply hunreadable after ⟨xs, hafter.symm⟩ hne
      rwa [List.flatMap_nil, List.append_nil]
    · have hpos := first.utf8Size_pos
      simp only [SyntaxError.unreadable, Span.behind, hbefore, byteLength_append, byteLength_cons] at hle
      omega
  · rintro ⟨_, ⟨qs, first, skipped, rs, hsplit, rfl⟩, hlater⟩
    rw [hsplit] at hfitting htext
    obtain ⟨hjunk, hrs⟩ := hfitting.of_append
    have hnothing : rs.flatMap text = [] := by
      refine hjunk.2.2.resolve_right (hlater (qs.flatMap text ++ first :: skipped) _ ?_ ?_)
      · rw [← htext]
        simp [text]
      · simp [Span.behind, SyntaxError.unreadable]
    cases rs with
    | nil => exact ⟨junk first skipped, List.getLast?_eq_some_iff.mpr ⟨qs, hsplit⟩, rfl⟩
    | cons r rs => exact absurd (List.append_eq_nil_iff.mp hnothing).1 hrs.1.text_ne_nil

end Piece

namespace Scan
open Piece Token

/-- Nothing of a text is dropped silently. Its tokens stand in it one after the other, each with its spelling. Before,
between and after them is nothing but blanks and comments, or else there is one complaint about the first character that
is neither; and there are no other complaints. The tokens are given up exactly if none can be read after a complaint. -/
theorem nothing_dropped (cs : List Char) :
    ∃ tokens, ((ofChars cs).tokens = none ∨ (ofChars cs).tokens = some tokens) ∧
      (∀ token span, (token, span) ∈ tokens →
        span.start < span.stop ∧ span.stop ≤ byteLength cs ∧ IsSpelled cs token span) ∧
      tokens.Pairwise (fun a b => a.2.stop ≤ b.2.start) ∧
      (∃ found, List.Forall₂ (IsGap cs) (gaps 0 (byteLength cs) tokens) found ∧
        (ofChars cs).errors = found.flatten) ∧
      ((ofChars cs).tokens = none ↔ ∃ e ∈ (ofChars cs).errors, ∀ before after, cs = before ++ after →
        e.span.stop ≤ byteLength before → ¬ Readable after) ∧
      ((ofChars cs).tokens = none → (ofChars cs).errors ≠ []) := by
  refine ⟨tokensFrom 0 (split cs), ?_, ?_, ?_, ?_, tokens_eq_none_iff_unreadable, ?_⟩
  · by_cases hnone : (ofChars cs).tokens = none
    · exact .inl hnone
    · obtain ⟨tokens, htokens⟩ := Option.ne_none_iff_exists'.mp hnone
      exact .inr (Listing.tokens_eq_some htokens ▸ htokens)
  · intro token span h
    have hspelled := isSpelled_of_mem_tokens h
    exact ⟨hspelled.bounds.1, hspelled.bounds.2, hspelled⟩
  · refine List.Pairwise.filterMap _ (fun a b hle x hx y hy => ?_) (pairwise_locate [] (split cs))
    rwa [span_of_token? hx, span_of_token? hy]
  · exact exists_gaps [] [] (fitting_split cs) (.clean clean_nil) (flatMap_text_split cs).symm
  · intro hnone
    obtain ⟨e, he, _⟩ := tokens_eq_none_iff_unreadable.mp hnone
    exact List.ne_nil_of_mem he

-- no comment begins inside junk, so the first temporary is a token and the second is not
example : (ofChars "é # t1 # t2".toList).tokens = some [(.temp ⟨1⟩, ⟨5, 7⟩)] ∧
    (ofChars "é # t1 # t2".toList).errors = [.unreadable ⟨0, 2⟩] := by
  decide +kernel

end Scan
end RegisterColoring

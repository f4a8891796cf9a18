import RegisterColoring.Proofs.Gaps

/-! Blanks and comments put into a text. Main statement: put where no token is cut, and comments at the end of a line
only, they leave the tokens of the text and the instructions of the listing as they are. -/
namespace RegisterColoring

/-- Parts of a text that take as many bytes from its start are the same. -/
theorem eq_of_byteLength_eq {xs ys xs' ys' : List Char} (h : xs ++ ys = xs' ++ ys')
    (hlength : byteLength xs = byteLength xs') : xs = xs' ∧ ys = ys' := by
  have hnil (zs : List Char) (hzs : byteLength zs = 0) : zs = [] := by
    by_contra hne
    have hpos := byteLength_pos hne
    omega
  rcases List.append_eq_append_iff.mp h with ⟨zs, rfl, rfl⟩ | ⟨zs, rfl, rfl⟩
  · rw [byteLength_append] at hlength
    obtain rfl := hnil zs (by omega)
    exact ⟨(List.append_nil xs).symm, rfl⟩
  · rw [byteLength_append] at hlength
    obtain rfl := hnil zs (by omega)
    exact ⟨List.append_nil xs', rfl⟩

namespace Piece
open Token
variable {p : Piece} {ps : List Piece} {xs ys gap rest : List Char} {ts : List Token} {offset : Nat}
  {tokens : List (Token × Span)}

/-! ### Pieces and gaps at the front of a text -/

/-- A piece before a text that it fits to is the first piece of the whole. -/
theorem reads_piece (hp : p.Fits rest) (hjunk : p.isJunk = false) (h : Reads rest ts) :
    Reads (p.text ++ rest) (p.content?.toList ++ ts) := by
  have hsplit : split (p.text ++ rest) = p :: split rest := by
    apply split_eq_iff.mpr
    refine ⟨by rw [List.flatMap_cons, flatMap_text_split], ?_, fitting_split rest⟩
    rwa [flatMap_text_split]
  obtain ⟨hrest, hts⟩ := h
  unfold Reads
  rw [hsplit, filterMap_cons_toList, hts]
  exact ⟨List.forall_mem_cons.mpr ⟨hjunk, hrest⟩, rfl⟩

theorem reads_of_fitting (h : Fitting ps) (hjunk : ∀ p ∈ ps, p.isJunk = false) :
    Reads (ps.flatMap text) (ps.filterMap content?) := by
  rw [Reads, split_eq_iff.mpr ⟨rfl, h⟩]
  exact ⟨hjunk, rfl⟩

/-- A clean gap adds no token. -/
theorem reads_clean (hgap : Clean gap rest) (h : Reads rest ts) : Reads (gap ++ rest) ts := by
  obtain ⟨blanks, remark, rfl, hblanks, hremark⟩ := hgap
  have hafter : Reads (remark ++ rest) ts := by
    rcases hremark with rfl | ⟨body, rfl, hbody, hend⟩
    · exact h
    · exact reads_piece (p := comment body) ⟨hbody, hend⟩ rfl h
  induction blanks with
  | nil => exact hafter
  | cons c blanks ih =>
    obtain ⟨hc, hblanks⟩ := List.forall_mem_cons.mp hblanks
    exact reads_piece (p := blank c) hc rfl (ih hblanks)

theorem not_continuesWord_of_isBlank {c : Char} (h : isBlank c = true) : continuesWord c = false := by
  simp only [isBlank, Bool.or_eq_true, decide_eq_true_eq] at h
  rcases h with (rfl | rfl) | rfl <;> rfl

theorem Clean.breaks (h : Clean gap rest) (hne : gap ≠ []) : Breaks (gap ++ rest) := by
  obtain ⟨blanks, remark, rfl, hblanks, hremark⟩ := h
  cases blanks with
  | nil =>
    rcases hremark with rfl | ⟨body, rfl, _, _⟩
    · exact absurd rfl hne
    · intro c hc
      cases hc
      rfl
  | cons b blanks =>
    intro c hc
    cases hc
    exact not_continuesWord_of_isBlank (hblanks b List.mem_cons_self)

theorem Clean.no_newline (h : Clean gap rest) : '\n' ∉ gap := by
  obtain ⟨blanks, remark, rfl, hblanks, hremark⟩ := h
  intro hmem
  rcases List.mem_append.mp hmem with hmem | hmem
  · cases hblanks '\n' hmem
  · rcases hremark with rfl | ⟨body, rfl, hbody, _⟩
    · cases hmem
    · exact hbody ((List.mem_cons.mp hmem).resolve_left (by decide))

/-! ### Gaps inside a text -/

/-- A position of a text that lies inside no token. -/
def Clear (tokens : List (Token × Span)) (position : Nat) : Prop :=
  ∀ pair ∈ tokens, pair.2.stop ≤ position ∨ position ≤ pair.2.start

theorem Clear.tail (h : Clear (tokensFrom offset (p :: ps)) (offset + byteLength (p.text ++ xs))) :
    Clear (tokensFrom (offset + byteLength p.text) ps) (offset + byteLength p.text + byteLength xs) := by
  intro pair hpair
  obtain ⟨located, hlocated, htoken⟩ := List.mem_filterMap.mp hpair
  rw [Nat.add_assoc, ← byteLength_append]
  exact h pair (List.mem_filterMap.mpr ⟨located, List.mem_cons_of_mem _ hlocated, htoken⟩)

/-- No clear position lies between two characters of a token. -/
theorem Clear.not_within {l : Lexeme} (h : Clear (tokensFrom offset (lexeme l :: ps)) (offset + byteLength xs))
    (htext : l.text = xs ++ ys) (hxs : xs ≠ []) : ys = [] := by
  have hstart := byteLength_pos hxs
  have hlength := congrArg byteLength htext
  rw [byteLength_append] at hlength
  by_contra hys
  have hstop := byteLength_pos hys
  have hown := h (l.token, ⟨offset, offset + byteLength l.text⟩) (List.mem_filterMap.mpr ⟨_, List.mem_cons_self, rfl⟩)
  dsimp only at hown
  omega

/-- A cut at a clear position is somewhere behind the first piece; or that is a comment, and the cut goes through it or is
right behind it. -/
theorem Clear.cut (h : Clear (tokensFrom offset (p :: ps)) (offset + byteLength xs)) (hjunk : p.isJunk = false)
    (hxs : xs ≠ []) (hcut : p.text ++ rest = xs ++ ys) :
    (∃ zs, xs = p.text ++ zs ∧ rest = zs ++ ys ∧ (zs = [] → ∀ body, p ≠ comment body)) ∨
      ∃ body zs, p = comment body ∧ '#' :: body = xs ++ zs ∧ ys = zs ++ rest := by
  rcases List.append_eq_append_iff.mp hcut with ⟨zs, rfl, hrest⟩ | ⟨zs, htext, hys⟩
  · by_cases hbehind : zs = [] → ∀ body, p ≠ comment body
    · exact .inl ⟨zs, rfl, hrest, hbehind⟩
    · push Not at hbehind
      obtain ⟨rfl, body, rfl⟩ := hbehind
      exact .inr ⟨body, [], rfl, by simp [text], hrest.symm⟩
  · have hwhole (hzs : zs = []) (hp : ∀ body, p ≠ comment body) :
        ∃ zs, xs = p.text ++ zs ∧ rest = zs ++ ys ∧ (zs = [] → ∀ body, p ≠ comment body) := by
      subst hzs
      exact ⟨[], by simpa using htext.symm, hys.symm, fun _ => hp⟩
    cases p with
    | blank c =>
      have hlength := congrArg List.length htext
      have hpos := List.length_pos_iff.mpr hxs
      refine .inl (hwhole (List.length_eq_zero_iff.mp ?_) (by simp))
      simp only [text, List.length_append, List.length_singleton] at hlength
      omega
    | comment body => exact .inr ⟨body, zs, rfl, htext, hys⟩
    | lexeme l => exact .inl (hwhole (h.not_within htext hxs) (by simp))
    | junk first skipped => cases hjunk

/-- A gap inside a comment, or right behind it, becomes part of the comment. -/
theorem reads_within_comment {body : List Char} (hbody : (comment body).Fits rest) (hcut : '#' :: body = xs ++ ys)
    (hxs : xs ≠ []) (hgap : '\n' ∉ gap) (h : Reads rest ts) : Reads (xs ++ gap ++ (ys ++ rest)) ts := by
  cases xs with
  | nil => exact absurd rfl hxs
  | cons c xs =>
    cases hcut
    have hlonger : (comment (xs ++ gap ++ ys)).Fits rest := by
      have hnone : '\n' ∉ xs ++ ys := hbody.1
      refine ⟨?_, hbody.2⟩
      simp only [List.mem_append, not_or] at hnone ⊢
      exact ⟨⟨hnone.1, hgap⟩, hnone.2⟩
    have hreads := reads_piece hlonger rfl h
    simpa [text, content?] using hreads

/-- A piece before a gap still fits, unless it is a comment that the gap would become part of. -/
theorem Fits.insert (h : p.Fits (xs ++ ys)) (hjunk : p.isJunk = false) (hgap : Clean gap ys) (hne : gap ≠ [])
    (hcomment : xs = [] → ∀ body, p ≠ comment body) : p.Fits (xs ++ gap ++ ys) := by
  cases xs with
  | nil => exact h.of_breaks hjunk (.inr (hcomment rfl)) (hgap.breaks hne)
  | cons c xs => exact h.of_head hjunk rfl

/-- A clean gap put in at a clear position changes no token. -/
theorem reads_insert (hps : Fitting ps) (hjunk : ∀ p ∈ ps, p.isJunk = false) (hcut : ps.flatMap text = xs ++ ys)
    (hclear : Clear (tokensFrom offset ps) (offset + byteLength xs)) (hgap : Clean gap ys) (hne : gap ≠ []) :
    Reads (xs ++ gap ++ ys) (ps.filterMap content?) := by
  -- along the pieces, up to the one that the cut goes through
  induction ps generalizing offset xs with
  | nil =>
    obtain ⟨rfl, rfl⟩ := List.append_eq_nil_iff.mp hcut.symm
    exact reads_clean hgap reads_nil
  | cons p ps ih =>
    by_cases hxs : xs = []
    · subst hxs
      apply reads_clean hgap
      rw [← List.nil_append ys, ← hcut]
      exact reads_of_fitting hps hjunk
    · obtain ⟨hp, hfitting⟩ := hps
      obtain ⟨hpjunk, hothers⟩ := List.forall_mem_cons.mp hjunk
      rw [List.flatMap_cons] at hcut
      rcases hclear.cut hpjunk hxs hcut with ⟨zs, rfl, hrest, hcomment⟩ | ⟨body, zs, rfl, hbody, rfl⟩
      · rw [hrest] at hp
        have hreads := reads_piece (hp.insert hpjunk hgap hne hcomment) hpjunk (ih hfitting hothers hrest hclear.tail)
        rw [filterMap_cons_toList]
        simpa using hreads
      · exact reads_within_comment hp hbody hxs hgap.no_newline (reads_of_fitting hfitting hothers)

/-! ### Padding -/

/-- What may be put into a text between two parts of it: blanks, unless a token is cut there, and comments before the end
of a line or at the end of the text. -/
inductive Padding (tokens : List (Token × Span)) (before after : List Char) : List Char → Prop
  | blanks {gap : List Char} : (∀ c ∈ gap, isBlank c = true) → Clear tokens (byteLength before) →
      Padding tokens before after gap
  | comment {body : List Char} : '\n' ∉ body →
      (after = [] ∨ ∃ span, (.newline, span) ∈ tokens ∧ span.start = byteLength before) →
      Padding tokens before after ('#' :: body)

/-- Two tokens of a text are the same, or one stands before the other. -/
theorem apart_of_mem_tokensFrom {token token' : Token} {span span' : Span} (h : (token, span) ∈ tokensFrom 0 ps)
    (h' : (token', span') ∈ tokensFrom 0 ps) : span = span' ∨ span.stop ≤ span'.start ∨ span'.stop ≤ span.start := by
  have hspan {token : Token} {span : Span} (h : (token, span) ∈ tokensFrom 0 ps) : ∃ p, (p, span) ∈ locate 0 ps := by
    obtain ⟨⟨p, span⟩, hmem, htoken⟩ := List.mem_filterMap.mp h
    cases p <;> cases htoken
    exact ⟨_, hmem⟩
  obtain ⟨p, hp⟩ := hspan h
  obtain ⟨q, hq⟩ := hspan h'
  have hbefore : (locate 0 ps).Pairwise fun a b => a.2.stop ≤ b.2.start := pairwise_locate [] ps
  have hapart : ∀ ⦃a⦄, a ∈ locate 0 ps → ∀ ⦃b⦄, b ∈ locate 0 ps →
      a.2 = b.2 ∨ a.2.stop ≤ b.2.start ∨ b.2.stop ≤ a.2.start :=
    List.Pairwise.forall_of_forall_of_flip (fun _ _ => .inl rfl) (hbefore.imp fun hle => .inr (.inl hle))
      (hbefore.imp fun hle => .inr (.inr hle))
  exact hapart hp hq

theorem Padding.clear (h : Padding (tokensFrom 0 (split (xs ++ ys))) xs ys gap) :
    Clear (tokensFrom 0 (split (xs ++ ys))) (byteLength xs) := by
  cases h with
  | blanks _ hclear => exact hclear
  | comment _ hend =>
    rintro ⟨token, span⟩ hmem
    rcases hend with rfl | ⟨line, hline, hstart⟩
    · left
      have hbounds := (isSpelled_of_mem_tokens hmem).bounds.2
      rwa [List.append_nil] at hbounds
    · rw [← hstart]
      have hbounds := (isSpelled_of_mem_tokens hline).bounds.1
      rcases apart_of_mem_tokensFrom hmem hline with rfl | hapart | hapart
      · exact .inr (Nat.le_refl _)
      · exact .inl hapart
      · exact .inr (Nat.le_trans (Nat.le_of_lt hbounds) hapart)

theorem Padding.clean (h : Padding (tokensFrom 0 (split (xs ++ ys))) xs ys gap) : Clean gap ys := by
  cases h with
  | blanks hblanks _ => exact ⟨gap, [], (List.append_nil gap).symm, hblanks, .inl rfl⟩
  | @comment body hbody hend =>
    refine ⟨[], '#' :: body, rfl, by simp, .inr ⟨body, rfl, hbody, hend.imp_right ?_⟩⟩
    rintro ⟨line, hline, hstart⟩
    obtain ⟨before, after, hcut, rfl, _, _⟩ := isSpelled_of_mem_tokens hline
    rw [List.append_assoc] at hcut
    exact ⟨after, (eq_of_byteLength_eq hcut hstart.symm).2⟩

/-- A text is read by its tokens if it has no complaints. -/
theorem reads_iff_scan : Reads xs ts ↔
    (Scan.ofChars xs).errors = [] ∧ ∃ tokens, (Scan.ofChars xs).tokens = some tokens ∧ tokens.map Prod.fst = ts := by
  constructor
  · rintro ⟨hjunk, rfl⟩
    rw [scan_of_no_junk hjunk]
    exact ⟨rfl, _, rfl, map_fst_tokensFrom 0 _⟩
  · rintro ⟨herrors, tokens, htokens, rfl⟩
    rw [Listing.tokens_eq_some htokens, map_fst_tokensFrom]
    exact ⟨(errors_eq_nil 0 _).mp herrors, rfl⟩

theorem reads_padding (h : Reads (xs ++ ys) ts) (hgap : Padding (tokensFrom 0 (split (xs ++ ys))) xs ys gap) :
    Reads (xs ++ gap ++ ys) ts := by
  by_cases hne : gap = []
  · rwa [hne, List.append_nil]
  · obtain ⟨hjunk, rfl⟩ := h
    have hclear := hgap.clear
    rw [← Nat.zero_add (byteLength xs)] at hclear
    exact reads_insert (fitting_split _) hjunk (flatMap_text_split _) hclear hgap.clean hne

end Piece

namespace Listing

/-- Texts with the same tokens are read as the same instructions, or neither is read. -/
theorem commands_eq_of_reads {xs ys : List Char} {ts : List Token} (hxs : Piece.Reads xs ts) (hys : Piece.Reads ys ts) :
    (ofChars ys).toOption.map commands = (ofChars xs).toOption.map commands := by
  have hread {cs : List Char} (hcs : Piece.Reads cs ts) (found : List Command) :
      (ofChars cs).toOption.map commands = some found ↔
        Grammar.Accepts ts found ∧ ⟨Temp.lastSerial⟩ ∉ temps found := by
    have hexists : (ofChars cs).toOption.map commands = some found ↔ ∃ l, ofChars cs = .ok l ∧ l.commands = found := by
      cases ofChars cs <;> simp [Except.toOption]
    rw [hexists, exists_ofChars_iff]
    constructor
    · rintro ⟨ts', hcs', haccepts⟩
      rwa [← hcs.2, hcs'.2]
    · intro haccepts
      exact ⟨ts, hcs, haccepts⟩
  apply Option.ext
  intro found
  rw [hread hxs, hread hys]

/-- Blanks between the tokens of a text, before and after them, and comments at the ends of its lines do not count. With
them the text still has no complaints and the same tokens, and it is read as the same instructions, or not at all. -/
theorem unchanged_by_padding (before gap after : String) {tokens : List (Token × Span)}
    (herrors : (Scan.ofChars (before ++ after).toList).errors = [])
    (htokens : (Scan.ofChars (before ++ after).toList).tokens = some tokens)
    (hgap : Piece.Padding tokens before.toList after.toList gap.toList) :
    (Scan.ofChars (before ++ gap ++ after).toList).errors = [] ∧
    (∃ padded, (Scan.ofChars (before ++ gap ++ after).toList).tokens = some padded ∧
      padded.map Prod.fst = tokens.map Prod.fst) ∧
    (read (before ++ gap ++ after)).toOption.map commands = (read (before ++ after)).toOption.map commands := by
  have hreads := Piece.reads_iff_scan.mpr ⟨herrors, tokens, htokens, rfl⟩
  rw [tokens_eq_some htokens] at hgap
  unfold read
  rw [String.toList_append] at hreads hgap
  have hpadded := Piece.reads_padding hreads hgap
  have hcommands := commands_eq_of_reads hreads hpadded
  rw [String.toList_append, String.toList_append, String.toList_append]
  obtain ⟨herrors', htokens'⟩ := Piece.reads_iff_scan.mp hpadded
  exact ⟨herrors', htokens', hcommands⟩

/-- A comment prolongs the one before it, and blanks go between two tokens that nothing separated. -/
theorem padded_print :
    (read ("print t0# a" ++ "#é" ++ "\n.x:")).toOption.map commands = some [.print ⟨0⟩, .label ".x"] ∧
    (read ("print t0# a\n.x" ++ "\t \r" ++ ":")).toOption.map commands = some [.print ⟨0⟩, .label ".x"] := by
  have hread : (read "print t0# a\n.x:").toOption.map commands = some [.print ⟨0⟩, .label ".x"] := by decide +kernel
  have herrors : (Scan.ofChars "print t0# a\n.x:".toList).errors = [] := by decide +kernel
  have htokens : (Scan.ofChars "print t0# a\n.x:".toList).tokens = some [(.keyword .print, ⟨0, 5⟩), (.temp ⟨0⟩, ⟨6, 8⟩),
      (.newline, ⟨11, 12⟩), (.name ".x", ⟨12, 14⟩), (.symbol .colon, ⟨14, 15⟩)] := by decide +kernel
  have hcomment := (unchanged_by_padding "print t0# a" "#é" "\n.x:" herrors htokens
    (.comment (by decide) (.inr ⟨⟨11, 12⟩, by decide, by decide⟩))).2.2
  have hblanks := (unchanged_by_padding "print t0# a\n.x" "\t \r" ":" herrors htokens
    (.blanks (List.all_eq_true.mp (by decide)) (by unfold Piece.Clear; decide))).2.2
  exact ⟨hcomment.trans hread, hblanks.trans hread⟩

end Listing
end RegisterColoring

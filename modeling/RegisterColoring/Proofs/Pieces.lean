import RegisterColoring.Proofs.Spelling

/-! The pieces of a text, said without the way they are found. Main statement: a text is cut into the only pieces that
make it up and that fit to what follows them, so pieces cut out of their text are found again. -/
namespace RegisterColoring

private theorem of_mem_head?_dropWhile {p : Char → Bool} {cs : List Char} {c : Char}
    (h : c ∈ (cs.dropWhile p).head?) : p c = false := by
  have hhead := List.head?_dropWhile_not p cs
  rwa [Option.mem_def.mp h] at hhead

/-! ### Tokens -/

theorem Numeral.isNumeral_of_front? {cs ds rest : List Char} (h : front? cs = some (ds, rest)) :
    isNumeral ds = true ∧ (ds = ['0'] ∨ ∀ c ∈ rest.head?, c.isDigit = false) := by
  unfold front? at h
  split at h
  · cases h
  · next c cs =>
    split at h
    · next hzero =>
      cases h
      subst hzero
      exact ⟨rfl, .inl rfl⟩
    · next hzero =>
      split at h <;> cases h
      next hdigit =>
      refine ⟨(isNumeral_cons_of_ne hzero).mpr ⟨hdigit, fun d hd => List.mem_takeWhile_imp hd⟩, .inr ?_⟩
      exact fun d hd => of_mem_head?_dropWhile hd

namespace Token
variable {c : Char} {cs w rest xs ys : List Char} {l : Lexeme} {token : Token}

/-- The characters that a token is written with. -/
def spelling : Token → List Char
  | newline => ['\n']
  | token => token.text.toList

/-- The token ends where the text goes on so: words are not continued, and numbers only after zero. -/
def Ends : Token → List Char → Prop
  | number n, rest => n = 0 ∨ ∀ c ∈ rest.head?, c.isDigit = false
  | symbol _, _ | newline, _ => True
  | _, rest => Breaks rest

/-- The text starts with a token. -/
def Readable (cs : List Char) : Prop :=
  ∃ token rest, cs = spelling token ++ rest ∧ Legal token ∧ Ends token rest

theorem spelling_ofWord (w : List Char) : (ofWord w).spelling = w := by
  unfold ofWord
  dsimp only
  split
  · next hk =>
    have hword := List.find?_some hk
    rw [decide_eq_true_eq] at hword
    exact (congrArg String.toList hword).trans String.toList_ofList
  · next ho =>
    have hmnemonic := List.find?_some ho
    rw [decide_eq_true_eq] at hmnemonic
    exact (congrArg String.toList hmnemonic).trans String.toList_ofList
  · next ht => exact (Temp.ofChars?_eq_some.mp ht).symm
  · exact String.toList_ofList

theorem ends_ofWord : (ofWord w).Ends rest ↔ Breaks rest := by
  unfold ofWord
  dsimp only
  split <;> rfl

/-- Whether a token ends depends on the next character only. -/
theorem Ends.of_head (h : token.Ends xs) (hhead : ys.head? = xs.head?) : token.Ends ys := by
  cases token with
  | number n => exact h.imp_right fun hdigit c hc => hdigit c (hhead ▸ hc)
  | symbol s => trivial
  | newline => trivial
  | _ => exact fun c hc => h c (hhead ▸ hc)

theorem ends_of_breaks (h : Breaks rest) : token.Ends rest := by
  cases token with
  | number n => exact .inr fun c hc => (Bool.or_eq_false_iff.mp (h c hc)).2
  | symbol s => trivial
  | newline => trivial
  | _ => exact h

theorem spelling_symbol (s : Symbol) : (symbol s).spelling = [s.char] := by
  cases s <;> rfl

end Token

/-- The lexeme is spelled as its token is, and ends where the text goes on so. -/
structure Lexeme.Fits (l : Lexeme) (rest : List Char) : Prop where
  spelled : l.text = l.token.spelling
  legal : l.token.Legal
  ends : l.token.Ends rest

namespace Token
variable {cs rest : List Char} {l : Lexeme}

private theorem fits_of_front? (h : front? cs = some (l, rest)) : l.Fits rest := by
  have hlegal := legal_of_front? h
  unfold front? at h
  split at h
  · cases h
  · next c cs =>
    split at h
    · next hc =>
      cases h
      exact ⟨congrArg ([·]) hc, hlegal, trivial⟩
    · split at h
      · cases h
        exact ⟨(spelling_ofWord _).symm, hlegal, ends_ofWord.mpr fun d hd => of_mem_head?_dropWhile hd⟩
      · split at h
        · next s hs =>
          cases h
          have hchar := List.find?_some hs
          rw [decide_eq_true_eq] at hchar
          exact ⟨by rw [spelling_symbol, hchar], hlegal, trivial⟩
        · split at h
          · next ds rest hds =>
            split at h <;> cases h
            obtain ⟨hnumeral, hends⟩ := Numeral.isNumeral_of_front? hds
            refine ⟨?_, hlegal, hends.imp_left ?_⟩
            · simp only [spelling, text, Nat.toList_repr, Numeral.toDigits_value hnumeral]
            · rintro rfl
              rfl
          · cases h

private theorem front?_of_fits (h : l.Fits rest) : front? (l.text ++ rest) = some (l, rest) := by
  obtain ⟨token, text⟩ := l
  obtain ⟨hspelled, hlegal, hends⟩ := h
  dsimp only at hspelled hlegal hends
  subst hspelled
  cases token with
  | number n => exact front?_number hlegal hends
  | temp t =>
    have hfront := front?_word (isWord_temp t) hends
    rwa [ofWord_temp] at hfront
  | name text =>
    have hfront := front?_word hlegal.word hends
    rwa [ofWord_name hlegal] at hfront
  | operator op =>
    have hfront := front?_word (isWord_mnemonic op) hends
    rwa [ofWord_mnemonic] at hfront
  | symbol s =>
    rw [spelling_symbol]
    exact front?_symbol s rest
  | keyword k =>
    have hfront := front?_word (isWord_keyword k) hends
    rwa [ofWord_keyword] at hfront
  | newline => exact front?_newline rest

/-- What is read at the front of a text is the one token that fits there. -/
theorem front?_eq_some_iff : front? cs = some (l, rest) ↔ cs = l.text ++ rest ∧ l.Fits rest := by
  constructor
  · intro h
    exact ⟨(append_of_front? h).1.symm, fits_of_front? h⟩
  · rintro ⟨rfl, h⟩
    exact front?_of_fits h

theorem readable_iff : Readable cs ↔ (front? cs).isSome = true := by
  rw [Option.isSome_iff_exists, Prod.exists]
  constructor
  · rintro ⟨token, rest, rfl, hlegal, hends⟩
    exact ⟨⟨token, token.spelling⟩, rest, front?_eq_some_iff.mpr ⟨rfl, rfl, hlegal, hends⟩⟩
  · rintro ⟨l, rest, h⟩
    obtain ⟨rfl, hspelled, hlegal, hends⟩ := front?_eq_some_iff.mp h
    exact ⟨l.token, rest, by rw [hspelled], hlegal, hends⟩

theorem not_readable_nil : ¬ Readable [] := by
  rw [readable_iff]
  simp [front?]

end Token

/-! ### Pieces -/

namespace Piece
open Token
variable {c : Char} {cs rest xs ys : List Char} {p : Piece} {ps qs : List Piece}

/-- The text is over, or a line of it ends. -/
def AtLineEnd (rest : List Char) : Prop := rest = [] ∨ ∃ more, rest = '\n' :: more

/-- No token can be read at any character of a text, if it goes on so. -/
def Unreadable (cs rest : List Char) : Prop := ∀ part, part <:+ cs → part ≠ [] → ¬ Readable (part ++ rest)

/-- The text can be cut after the piece if it goes on so. -/
def Fits : Piece → List Char → Prop
  | blank c, _ => isBlank c = true
  | comment body, rest => '\n' ∉ body ∧ AtLineEnd rest
  | lexeme l, rest => l.Fits rest
  | junk first skipped, rest =>
    (isBlank first = false ∧ first ≠ '#') ∧ Unreadable (first :: skipped) rest ∧ (rest = [] ∨ Readable rest)

/-- Each of the pieces fits to those after it. -/
def Fitting : List Piece → Prop
  | [] => True
  | p :: ps => p.Fits (ps.flatMap text) ∧ Fitting ps

theorem unreadable_nil : Unreadable [] rest := by
  intro part hpart hne
  exact absurd (List.suffix_nil.mp hpart) hne

theorem unreadable_cons : Unreadable (c :: cs) rest ↔ ¬ Readable (c :: (cs ++ rest)) ∧ Unreadable cs rest := by
  simp only [Unreadable, List.suffix_cons_iff]
  constructor
  · intro h
    exact ⟨h _ (.inl rfl) (List.cons_ne_nil _ _), fun part hpart => h part (.inr hpart)⟩
  · rintro ⟨hfirst, hothers⟩ part (rfl | hpart) hne
    · exact hfirst
    · exact hothers part hpart hne

theorem skipUnreadable_eq_iff :
    skipUnreadable cs = (xs, ys) ↔ cs = xs ++ ys ∧ Unreadable xs ys ∧ (ys = [] ∨ Readable ys) := by
  constructor
  · intro h
    induction cs generalizing xs with
    | nil =>
      cases h
      exact ⟨rfl, unreadable_nil, .inl rfl⟩
    | cons c cs ih =>
      rw [skipUnreadable] at h
      split at h
      · next hread =>
        cases h
        exact ⟨rfl, unreadable_nil, .inr (readable_iff.mpr hread)⟩
      · next hread =>
        cases h
        obtain ⟨happend, hskipped, hrest⟩ := ih rfl
        refine ⟨congrArg (c :: ·) happend, unreadable_cons.mpr ⟨?_, hskipped⟩, hrest⟩
        rwa [← happend, readable_iff]
  · rintro ⟨rfl, hskipped, hrest⟩
    induction xs with
    | nil =>
      cases ys with
      | nil => rfl
      | cons c ys =>
        have hread := hrest.resolve_left (List.cons_ne_nil _ _)
        rw [List.nil_append, skipUnreadable, if_pos (readable_iff.mp hread)]
    | cons c xs ih =>
      obtain ⟨hfirst, hothers⟩ := unreadable_cons.mp hskipped
      rw [List.cons_append, skipUnreadable, if_neg (mt readable_iff.mpr hfirst), ih hothers]

private theorem fits_front (h : front c cs = (p, rest)) : p.Fits rest := by
  unfold front at h
  split at h
  · next hblank =>
    cases h
    exact hblank
  · next hblank =>
    split at h
    · cases h
      refine ⟨fun hmem => by simpa using List.mem_takeWhile_imp hmem, ?_⟩
      cases hdrop : cs.dropWhile (· ≠ '\n') with
      | nil => exact .inl rfl
      | cons d more =>
        have hd : decide (d ≠ '\n') = false := of_mem_head?_dropWhile (by rw [hdrop]; rfl)
        exact .inr ⟨more, by rw [of_decide_eq_false hd |> not_not.mp]⟩
    · next hcomment =>
      split at h
      · next hfront =>
        cases h
        exact (front?_eq_some_iff.mp hfront).2
      · next hfront =>
        cases h
        obtain ⟨happend, hskipped, hrest⟩ := skipUnreadable_eq_iff.mp (Eq.refl (skipUnreadable cs))
        refine ⟨⟨Bool.eq_false_iff.mpr hblank, hcomment⟩, unreadable_cons.mpr ⟨?_, hskipped⟩, hrest⟩
        rw [← happend, readable_iff, hfront]
        exact Bool.false_ne_true

private theorem front_of_fits (hcs : c :: cs = p.text ++ rest) (h : p.Fits rest) : front c cs = (p, rest) := by
  cases p with
  | blank b =>
    cases hcs
    exact if_pos h
  | comment body =>
    cases hcs
    have hbody : ∀ d ∈ body, decide (d ≠ '\n') = true := fun d hd => decide_eq_true fun heq => h.1 (heq ▸ hd)
    have hrest : ∀ d ∈ rest.head?, decide (d ≠ '\n') = false := by
      rcases h.2 with rfl | ⟨more, rfl⟩ <;> simp
    obtain ⟨htake, hdrop⟩ := takeWhile_run hbody hrest
    have hblank : ¬ isBlank '#' = true := by decide
    rw [front, if_neg hblank, if_pos rfl]
    exact congrArg₂ (fun body rest => (comment body, rest)) htake hdrop
  | lexeme l => exact front_of_front? (front?_eq_some_iff.mpr ⟨hcs, h⟩)
  | junk first skipped =>
    obtain ⟨rfl, rfl⟩ := List.cons.inj hcs
    obtain ⟨⟨hblank, hcomment⟩, hskipped, hrest⟩ := h
    obtain ⟨hfirst, hothers⟩ := unreadable_cons.mp hskipped
    have hfront : Token.front? (c :: (skipped ++ rest)) = none := by
      rwa [readable_iff, Option.not_isSome_iff_eq_none] at hfirst
    have hskip := skipUnreadable_eq_iff.mpr ⟨rfl, hothers, hrest⟩
    simp [front, hblank, hcomment, hfront, hskip]

theorem Fits.text_ne_nil (h : p.Fits rest) : p.text ≠ [] := by
  cases p with
  | lexeme l => exact (append_of_front? (front?_eq_some_iff.mpr ⟨rfl, h⟩)).2
  | _ => exact List.cons_ne_nil _ _

/-- Where a token can be read, the text is cut after one. -/
theorem Fits.exists_lexeme (h : p.Fits rest) (hread : Readable (p.text ++ rest)) : ∃ l, p = lexeme l := by
  obtain ⟨⟨l, rest'⟩, hfront⟩ := Option.isSome_iff_exists.mp (readable_iff.mp hread)
  obtain ⟨c, cs, hcs⟩ := List.exists_cons_of_ne_nil h.text_ne_nil
  rw [hcs, List.cons_append] at hfront
  have hsame := (front_of_fits (by rw [hcs, List.cons_append]) h).symm.trans (front_of_front? hfront)
  exact ⟨l, congrArg Prod.fst hsame⟩

/-- A text is cut into the only pieces that make it up and that fit. -/
theorem split_eq_iff : split cs = ps ↔ cs = ps.flatMap text ∧ Fitting ps := by
  constructor
  · rintro rfl
    fun_induction split cs with
    | case1 => exact ⟨rfl, trivial⟩
    | case2 c cs r ih =>
      refine ⟨by rw [List.flatMap_cons, ← ih.1, (front_append c cs).1], ?_, ih.2⟩
      rw [← ih.1]
      exact fits_front rfl
  · rintro ⟨rfl, h⟩
    induction ps with
    | nil => exact split.eq_1
    | cons p ps ih =>
      obtain ⟨c, cs, hcs⟩ := List.exists_cons_of_ne_nil h.1.text_ne_nil
      have htext : (p :: ps).flatMap text = c :: (cs ++ ps.flatMap text) := by
        rw [List.flatMap_cons, hcs, List.cons_append]
      rw [htext, split, front_of_fits (by rw [hcs, List.cons_append]) h.1, ih h.2]

theorem fitting_split (cs : List Char) : Fitting (split cs) := (split_eq_iff.mp rfl).2

/-! ### Parts of a text -/

theorem Fitting.of_append (h : Fitting (ps ++ qs)) : Fitting qs := by
  induction ps with
  | nil => exact h
  | cons p ps ih => exact ih h.2

/-- A piece other than junk fits to all texts that start alike. -/
theorem Fits.of_head (h : p.Fits xs) (hjunk : p.isJunk = false) (hhead : ys.head? = xs.head?) : p.Fits ys := by
  cases p with
  | blank c => exact h
  | comment body =>
    refine ⟨h.1, ?_⟩
    rcases h.2 with rfl | ⟨more, rfl⟩
    · exact .inl (List.head?_eq_none_iff.mp hhead)
    · exact .inr (List.head?_eq_some_iff.mp hhead)
  | lexeme l =>
    obtain ⟨hspelled, hlegal, hends⟩ := h
    exact ⟨hspelled, hlegal, hends.of_head hhead⟩
  | junk first skipped => cases hjunk

/-- Where no word goes on a token ends; a comment does where the line ends. -/
theorem Fits.of_breaks (h : p.Fits xs) (hjunk : p.isJunk = false) (hend : AtLineEnd ys ∨ ∀ body, p ≠ comment body)
    (hbreaks : Breaks ys) : p.Fits ys := by
  cases p with
  | blank c => exact h
  | comment body => exact ⟨h.1, hend.resolve_right fun hne => hne body rfl⟩
  | lexeme l =>
    obtain ⟨hspelled, hlegal, _⟩ := h
    exact ⟨hspelled, hlegal, ends_of_breaks hbreaks⟩
  | junk first skipped => cases hjunk

/-- A piece other than junk still fits if the text breaks off sooner. -/
theorem Fits.of_append (h : p.Fits (xs ++ ys)) (hjunk : p.isJunk = false) : p.Fits xs := by
  cases xs with
  | nil => exact h.of_breaks hjunk (.inl (.inl rfl)) breaks_nil
  | cons c xs => exact h.of_head hjunk rfl

/-- Pieces without junk still fit if the text breaks off after them. -/
theorem Fitting.of_append_left (h : Fitting (ps ++ qs)) (hjunk : ∀ p ∈ ps, p.isJunk = false) : Fitting ps := by
  induction ps with
  | nil => trivial
  | cons p ps ih =>
    obtain ⟨hp, hps⟩ := List.forall_mem_cons.mp hjunk
    have hfits : p.Fits ((ps ++ qs).flatMap text) := h.1
    rw [List.flatMap_append] at hfits
    exact ⟨hfits.of_append hp, ih h.2 hps⟩

end Piece
end RegisterColoring

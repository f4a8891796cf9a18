import Mathlib.Data.List.TakeWhile
import RegisterColoring.Token.Scan

/-! The spelling of tokens. Main statements: numerals, temporaries and names have one spelling each, and a text of
well-spelled tokens, each followed by something that cannot continue it, is cut into exactly those tokens. -/
namespace RegisterColoring

/-- A run of characters of one class is taken off whole where what follows it is not of the class. -/
theorem takeWhile_run {p : Char → Bool} {cs rest : List Char} (h : ∀ d ∈ cs, p d = true)
    (hrest : ∀ c ∈ rest.head?, p c = false) :
    (cs ++ rest).takeWhile p = cs ∧ (cs ++ rest).dropWhile p = rest := by
  rw [List.takeWhile_append_of_pos h, List.dropWhile_append_of_pos h]
  cases rest with
  | nil => simp
  | cons c rest => simp [hrest c rfl]

namespace Numeral
variable {n : Nat} {c : Char} {cs ds rest : List Char}

private theorem digitChar_of_isDigit (h : c.isDigit = true) :
    c.toNat - '0'.toNat < 10 ∧ Nat.digitChar (c.toNat - '0'.toNat) = c := by
  rw [Char.isDigit_iff_toNat] at h
  have hlt : c.toNat - '0'.toNat < 10 := by
    have : '0'.toNat = 48 := rfl
    have : '9'.toNat = 57 := rfl
    omega
  refine ⟨hlt, Char.toNat_inj.mp ?_⟩
  rw [Nat.toNat_digitChar_of_lt_ten hlt]
  have : '0'.toNat = 48 := rfl
  omega

/-- Digits read on behind a number that is not zero are its further digits. -/
private theorem toDigits_ofDigitChars (hn : 0 < n) (hds : ∀ d ∈ ds, d.isDigit = true) :
    Nat.toDigits 10 (Nat.ofDigitChars 10 ds n) = Nat.toDigits 10 n ++ ds := by
  induction ds generalizing n with
  | nil => simp
  | cons d ds ih =>
    obtain ⟨hlt, hd⟩ := digitChar_of_isDigit (hds d List.mem_cons_self)
    rw [Nat.ofDigitChars_cons, ih (by omega) fun e he => hds e (List.mem_cons_of_mem _ he),
      ← Nat.toDigits_append_toDigits (by decide) hn hlt, Nat.toDigits_of_lt_base hlt, hd]
    simp

theorem isNumeral_cons_of_ne (hc : c ≠ '0') :
    isNumeral (c :: cs) = true ↔ c.isDigit = true ∧ ∀ d ∈ cs, d.isDigit = true := by
  rw [isNumeral, Bool.and_eq_true, List.all_eq_true]
  simpa using hc

/-- A numeral is the decimal text of its value. -/
theorem toDigits_value (h : isNumeral ds = true) : Nat.toDigits 10 (value ds) = ds := by
  cases ds with
  | nil => cases h
  | cons d ds =>
    by_cases hzero : d = '0'
    · subst hzero
      obtain rfl : ds = [] := List.isEmpty_iff.mp h
      rfl
    · rw [isNumeral_cons_of_ne hzero] at h
      obtain ⟨hlt, hd⟩ := digitChar_of_isDigit h.1
      have hpos : 0 < d.toNat - '0'.toNat := by
        apply Nat.pos_of_ne_zero
        intro heq
        rw [heq] at hd
        exact hzero hd.symm
      rw [value, Nat.ofDigitChars_cons, Nat.mul_zero, Nat.zero_add, toDigits_ofDigitChars hpos h.2,
        Nat.toDigits_of_lt_base hlt, hd, List.singleton_append]

theorem value_toDigits (n : Nat) : value (Nat.toDigits 10 n) = n := Nat.ofDigitChars_ten_toDigits

private theorem head_toDigits (hn : 0 < n) : ∃ c cs, Nat.toDigits 10 n = c :: cs ∧ c ≠ '0' := by
  induction n using Nat.strongRecOn with
  | _ n ih =>
    by_cases hlt : n < 10
    · refine ⟨n.digitChar, [], Nat.toDigits_of_lt_base hlt, ?_⟩
      rw [ne_eq, Nat.digitChar_eq_zero]
      omega
    · obtain ⟨c, cs, hcs, hc⟩ := ih (n / 10) (by omega) (by omega)
      refine ⟨c, cs ++ [(n % 10).digitChar], ?_, hc⟩
      rw [Nat.toDigits_of_base_le (by decide) (by omega), hcs, List.cons_append]

theorem isDigit_of_mem_toDigits (h : c ∈ Nat.toDigits 10 n) : c.isDigit = true :=
  Nat.isDigit_of_mem_toDigits (by decide) (by decide) h

theorem isNumeral_toDigits (n : Nat) : isNumeral (Nat.toDigits 10 n) = true := by
  cases n with
  | zero => rfl
  | succ n =>
    have hdigits : ∀ c ∈ Nat.toDigits 10 (n + 1), c.isDigit = true := fun c => isDigit_of_mem_toDigits
    obtain ⟨c, cs, hcs, hc⟩ := head_toDigits (Nat.succ_pos n)
    rw [hcs] at hdigits ⊢
    exact (isNumeral_cons_of_ne hc).mpr (List.forall_mem_cons.mp hdigits)

theorem front?_append (h : isNumeral ds = true) (hrest : ds = ['0'] ∨ ∀ c ∈ rest.head?, c.isDigit = false) :
    front? (ds ++ rest) = some (ds, rest) := by
  cases ds with
  | nil => cases h
  | cons d ds =>
    by_cases hzero : d = '0'
    · subst hzero
      obtain rfl : ds = [] := List.isEmpty_iff.mp h
      rfl
    · rw [isNumeral_cons_of_ne hzero] at h
      have hrest := hrest.resolve_left fun heq => hzero (List.cons.inj heq).1
      obtain ⟨htake, hdrop⟩ := takeWhile_run h.2 hrest
      simp only [List.cons_append, front?, if_neg hzero, h.1, if_true, htake, hdrop]

end Numeral

namespace Temp
variable {cs : List Char} {t : Temp}

theorem toList_text (t : Temp) : t.text.toList = 't' :: Nat.toDigits 10 t.serial.toNat := by
  simp [text]

/-- Each temporary has one spelling. -/
theorem ofChars?_eq_some : ofChars? cs = some t ↔ cs = t.text.toList := by
  rw [toList_text]
  constructor
  · intro h
    unfold ofChars? at h
    split at h
    · next ds =>
      split at h <;> cases h
      next hds =>
      rw [Bool.and_eq_true, decide_eq_true_eq] at hds
      have hserial : (UInt32.ofNat (Numeral.value ds)).toNat = Numeral.value ds := by
        apply UInt32.toNat_ofNat_of_lt'
        exact Nat.lt_of_le_of_lt hds.2 (by decide)
      rw [hserial, Numeral.toDigits_value hds.1]
    · cases h
  · rintro rfl
    have hle : t.serial.toNat ≤ lastSerial.toNat := Nat.le_of_lt_succ t.serial.toNat_lt
    simp [ofChars?, Numeral.isNumeral_toDigits, Numeral.value_toDigits, hle]

end Temp

namespace Token
variable {c : Char} {cs w rest : List Char} {l : Lexeme} {text : String}

/-- An unaccented letter, the underscore or the point. -/
def IsInitial (c : Char) : Prop := ('A' ≤ c ∧ c ≤ 'Z') ∨ ('a' ≤ c ∧ c ≤ 'z') ∨ c = '_' ∨ c = '.'

/-- One such character, followed by such characters and digits. -/
def IsWord : List Char → Prop
  | [] => False
  | c :: cs => IsInitial c ∧ ∀ d ∈ cs, IsInitial d ∨ ('0' ≤ d ∧ d ≤ '9')

theorem startsWord_iff : startsWord c = true ↔ IsInitial c := by
  have hupper : c.isUpper = decide ('A' ≤ c ∧ c ≤ 'Z') := rfl
  have hlower : c.isLower = (decide ('a' ≤ c) && decide (c ≤ 'z')) := rfl
  have halpha : c.isAlpha = (c.isUpper || c.isLower) := rfl
  simp only [startsWord, IsInitial, halpha, hupper, hlower, Bool.or_eq_true, Bool.and_eq_true, decide_eq_true_eq,
    or_assoc]

theorem continuesWord_iff : continuesWord c = true ↔ IsInitial c ∨ ('0' ≤ c ∧ c ≤ '9') := by
  have hdigit : c.isDigit = (decide ('0' ≤ c) && decide (c ≤ '9')) := rfl
  rw [continuesWord, Bool.or_eq_true, startsWord_iff, hdigit, Bool.and_eq_true, decide_eq_true_eq, decide_eq_true_eq]

theorem isWord_cons : IsWord (c :: cs) ↔ startsWord c = true ∧ ∀ d ∈ cs, continuesWord d = true := by
  simp only [IsWord, startsWord_iff, continuesWord_iff]

instance : DecidablePred IsWord
  | [] => inferInstanceAs (Decidable False)
  | c :: cs => decidable_of_iff ((startsWord c && cs.all continuesWord) = true) (by simp [isWord_cons])

/-- A word that is not reserved and does not spell a temporary. -/
structure IsName (name : String) : Prop where
  word : IsWord name.toList
  ne_keyword : ∀ k : Keyword, name ≠ k.word
  ne_mnemonic : ∀ op : Operator, name ≠ op.mnemonic
  ne_temp : ∀ t : Temp, name ≠ t.text

/-- Numbers are small enough for a token, and names are no words of another kind. -/
def Legal : Token → Prop
  | number n => n ≤ maxNumber
  | name text => IsName text
  | _ => True

theorem isWord_keyword (k : Keyword) : IsWord k.word.toList := by
  cases k <;> decide

theorem isWord_mnemonic (op : Operator) : IsWord op.mnemonic.toList := by
  cases op <;> decide

theorem ofWord_keyword (k : Keyword) : ofWord k.word.toList = keyword k := by
  cases k <;> rfl

theorem ofWord_mnemonic (op : Operator) : ofWord op.mnemonic.toList = operator op := by
  cases op <;> rfl

private theorem keyword_ofWord?_eq_none : Keyword.ofWord? text = none ↔ ∀ k : Keyword, text ≠ k.word := by
  have hall (k : Keyword) : k ∈ Keyword.all := by cases k <;> decide
  simp [Keyword.ofWord?, List.find?_eq_none, hall, @eq_comm _ text]

private theorem operator_ofMnemonic?_eq_none :
    Operator.ofMnemonic? text = none ↔ ∀ op : Operator, text ≠ op.mnemonic := by
  have hall (op : Operator) : op ∈ Operator.all := by cases op <;> decide
  simp [Operator.ofMnemonic?, List.find?_eq_none, hall, @eq_comm _ text]

theorem ofWord_temp (t : Temp) : ofWord t.text.toList = temp t := by
  have hk : Keyword.ofWord? t.text = none := by
    rw [keyword_ofWord?_eq_none]
    intro k h
    have hlist := t.toList_text.symm.trans (congrArg String.toList h)
    cases k <;> simp [Keyword.word] at hlist
  have ho : Operator.ofMnemonic? t.text = none := by
    rw [operator_ofMnemonic?_eq_none]
    intro op h
    have hlist := t.toList_text.symm.trans (congrArg String.toList h)
    cases op <;> simp [Operator.mnemonic] at hlist
  have ht : Temp.ofChars? t.text.toList = some t := Temp.ofChars?_eq_some.mpr rfl
  simp only [ofWord, String.ofList_toList, hk, ho, ht]

theorem isWord_temp (t : Temp) : IsWord t.text.toList := by
  rw [t.toList_text, isWord_cons]
  refine ⟨by decide, fun d hd => ?_⟩
  rw [continuesWord, Numeral.isDigit_of_mem_toDigits hd, Bool.or_true]

theorem ofWord_name (h : IsName text) : ofWord text.toList = .name text := by
  have hk := keyword_ofWord?_eq_none.mpr h.ne_keyword
  have ho := operator_ofMnemonic?_eq_none.mpr h.ne_mnemonic
  have ht : Temp.ofChars? text.toList = none := by
    rw [Option.eq_none_iff_forall_not_mem]
    intro t ht
    exact h.ne_temp t (String.toList_inj.mp (Temp.ofChars?_eq_some.mp ht))
  simp only [ofWord, String.ofList_toList, hk, ho, ht]

theorem legal_ofWord (h : IsWord w) : (ofWord w).Legal := by
  unfold ofWord
  dsimp only
  split
  · trivial
  · trivial
  · trivial
  · next hk ho ht =>
    refine ⟨by rwa [String.toList_ofList], keyword_ofWord?_eq_none.mp hk, operator_ofMnemonic?_eq_none.mp ho, ?_⟩
    intro t he
    have hw : w = t.text.toList := by rw [← he, String.toList_ofList]
    rw [Temp.ofChars?_eq_some.mpr hw] at ht
    cases ht

/-- A name is a word that stands for itself. -/
theorem isName_iff : IsName text ↔ IsWord text.toList ∧ ofWord text.toList = .name text := by
  constructor
  · intro h
    exact ⟨h.word, ofWord_name h⟩
  · rintro ⟨hword, hname⟩
    have hlegal := legal_ofWord hword
    rwa [hname] at hlegal

instance : DecidablePred IsName := fun _ => decidable_of_iff _ isName_iff.symm

/-- The text does not go on with a letter, digit, underscore or point. -/
def Breaks (rest : List Char) : Prop := ∀ c ∈ rest.head?, continuesWord c = false

theorem breaks_nil : Breaks [] := by simp [Breaks]

private theorem breaks_cons (h : continuesWord c = false) : Breaks (c :: rest) := by simpa [Breaks] using h

theorem breaks_blank : Breaks (' ' :: rest) := breaks_cons (by decide)

theorem breaks_newline : Breaks ('\n' :: rest) := breaks_cons (by decide)

theorem breaks_symbol (s : Symbol) : Breaks (s.char :: rest) := breaks_cons (by cases s <;> decide)

theorem front?_word (h : IsWord w) (hr : Breaks rest) : front? (w ++ rest) = some (⟨ofWord w, w⟩, rest) := by
  cases w with
  | nil => exact h.elim
  | cons c cs =>
    obtain ⟨hc, hcs⟩ := isWord_cons.mp h
    obtain ⟨htake, hdrop⟩ := takeWhile_run hcs hr
    have hne : c ≠ '\n' := by
      rintro rfl
      exact absurd hc (by decide)
    simp only [List.cons_append, front?, if_neg hne, hc, if_true, htake, hdrop]

theorem front?_symbol (s : Symbol) (rest : List Char) :
    front? (s.char :: rest) = some (⟨symbol s, [s.char]⟩, rest) := by
  cases s <;> rfl

theorem front?_newline (rest : List Char) : front? ('\n' :: rest) = some (⟨newline, ['\n']⟩, rest) := rfl

/-- A digit starts no token but a number. -/
private theorem front?_of_isDigit (h : c.isDigit = true) :
    startsWord c = false ∧ Symbol.ofChar? c = none ∧ c ≠ '\n' := by
  obtain ⟨hlt, hc⟩ := Numeral.digitChar_of_isDigit h
  have hall : ∀ k < 10, startsWord k.digitChar = false ∧ Symbol.ofChar? k.digitChar = none ∧ k.digitChar ≠ '\n' := by
    decide
  rw [← hc]
  exact hall _ hlt

theorem front?_number {n : Nat} (hn : n ≤ maxNumber) (hr : n = 0 ∨ ∀ c ∈ rest.head?, c.isDigit = false) :
    front? (n.repr.toList ++ rest) = some (⟨number n, n.repr.toList⟩, rest) := by
  rw [Nat.toList_repr]
  have hfront : Numeral.front? (Nat.toDigits 10 n ++ rest) = some (Nat.toDigits 10 n, rest) := by
    apply Numeral.front?_append (Numeral.isNumeral_toDigits n)
    refine hr.imp_left ?_
    rintro rfl
    rfl
  have hdigits : ∀ c ∈ Nat.toDigits 10 n, c.isDigit = true := fun c => Numeral.isDigit_of_mem_toDigits
  have hvalue := Numeral.value_toDigits n
  generalize Nat.toDigits 10 n = ds at hfront hdigits hvalue ⊢
  cases ds with
  | nil => exact absurd rfl (Numeral.append_of_front? hfront).2
  | cons d ds =>
    obtain ⟨hstart, hsymbol, hne⟩ := front?_of_isDigit (hdigits d List.mem_cons_self)
    rw [List.cons_append] at hfront ⊢
    simp [front?, hne, hstart, hsymbol, hfront, hvalue, hn]

/-- Every token at the front of a text is legal. -/
theorem legal_of_front? (h : front? cs = some (l, rest)) : l.token.Legal := by
  unfold front? at h
  split at h
  · cases h
  · next c cs =>
    split at h
    · cases h
      trivial
    · split at h
      · next hc =>
        cases h
        exact legal_ofWord (isWord_cons.mpr ⟨hc, fun d hd => List.mem_takeWhile_imp hd⟩)
      · split at h
        · cases h
          trivial
        · split at h
          · split at h
            · next hle =>
              cases h
              exact hle
            · cases h
          · cases h

end Token

namespace Piece
variable {c : Char} {cs rest w : List Char} {l : Lexeme} {p : Piece} {token : Token}
  {ts : List Token} {n : Nat}

def content? : Piece → Option Token
  | lexeme l => some l.token
  | _ => none

/-- The text has no junk, and its tokens are `ts`. -/
def Reads (cs : List Char) (ts : List Token) : Prop :=
  (∀ p ∈ split cs, p.isJunk = false) ∧ (split cs).filterMap content? = ts

theorem reads_nil : Reads [] [] := by simp [Reads, split]

private theorem split_cons (hfront : front c cs = (p, rest)) : split (c :: cs) = p :: split rest := by
  rw [split, hfront]

theorem reads_blank (h : Reads rest ts) : Reads (' ' :: rest) ts := by
  obtain ⟨hjunk, hts⟩ := h
  have hsplit : split (' ' :: rest) = blank ' ' :: split rest := split_cons rfl
  unfold Reads
  rw [hsplit]
  exact ⟨List.forall_mem_cons.mpr ⟨rfl, hjunk⟩, hts⟩

/-- No token starts with a blank or with the sign of a comment. -/
theorem front_of_front? (h : Token.front? (c :: cs) = some (l, rest)) : front c cs = (lexeme l, rest) := by
  have hblank : isBlank c = false := by
    rw [Bool.eq_false_iff]
    intro hc
    simp only [isBlank, Bool.or_eq_true, decide_eq_true_eq] at hc
    obtain (rfl | rfl) | rfl := hc <;> cases h
  have hcomment : c ≠ '#' := by
    rintro rfl
    cases h
  simp [front, hblank, hcomment, h]

/-- Where a token stands at the front of a text, the text is read by it and what follows. -/
theorem reads_lexeme (hfront : Token.front? cs = some (l, rest)) (h : Reads rest ts) : Reads cs (l.token :: ts) := by
  obtain ⟨hjunk, hts⟩ := h
  cases cs with
  | nil => cases hfront
  | cons c cs =>
    unfold Reads
    rw [split_cons (front_of_front? hfront)]
    exact ⟨List.forall_mem_cons.mpr ⟨rfl, hjunk⟩, by rw [← hts]; rfl⟩

theorem reads_number (hn : n ≤ Token.maxNumber) (hrest : Token.Breaks rest) (h : Reads rest ts) :
    Reads (n.repr.toList ++ rest) (.number n :: ts) :=
  reads_lexeme (Token.front?_number hn (.inr fun c hc => (Bool.or_eq_false_iff.mp (hrest c hc)).2)) h

theorem reads_word (hw : Token.IsWord w) (hrest : Token.Breaks rest) (h : Reads rest ts) :
    Reads (w ++ rest) (Token.ofWord w :: ts) :=
  reads_lexeme (l := ⟨Token.ofWord w, w⟩) (Token.front?_word hw hrest) h

theorem reads_name {name : String} (hname : Token.IsName name) (hrest : Token.Breaks rest) (h : Reads rest ts) :
    Reads (name.toList ++ rest) (.name name :: ts) := by
  rw [← Token.ofWord_name hname]
  exact reads_word hname.word hrest h

theorem reads_temp (t : Temp) (hrest : Token.Breaks rest) (h : Reads rest ts) :
    Reads (t.text.toList ++ rest) (.temp t :: ts) := by
  rw [← Token.ofWord_temp t]
  exact reads_word (Token.isWord_temp t) hrest h

theorem reads_keyword (k : Keyword) (hrest : Token.Breaks rest) (h : Reads rest ts) :
    Reads (k.word.toList ++ rest) (.keyword k :: ts) := by
  rw [← Token.ofWord_keyword k]
  exact reads_word (Token.isWord_keyword k) hrest h

theorem reads_mnemonic (op : Operator) (hrest : Token.Breaks rest) (h : Reads rest ts) :
    Reads (op.mnemonic.toList ++ rest) (.operator op :: ts) := by
  rw [← Token.ofWord_mnemonic op]
  exact reads_word (Token.isWord_mnemonic op) hrest h

theorem reads_symbol (s : Symbol) (h : Reads rest ts) : Reads (s.char :: rest) (.symbol s :: ts) :=
  reads_lexeme (Token.front?_symbol s rest) h

theorem reads_newline (h : Reads rest ts) : Reads ('\n' :: rest) (.newline :: ts) :=
  reads_lexeme (Token.front?_newline rest) h

private theorem legal_front (h : (front c cs).1.content? = some token) : token.Legal := by
  unfold front at h
  split at h
  · cases h
  · split at h
    · cases h
    · split at h
      · next hfront =>
        cases h
        exact Token.legal_of_front? hfront
      · cases h

/-- Every token that a text is cut into is legal. -/
theorem legal_of_mem_split (cs : List Char) : ∀ token ∈ (split cs).filterMap content?, token.Legal := by
  intro token h
  obtain ⟨p, hp, htoken⟩ := List.mem_filterMap.mp h
  clear h
  fun_induction split with
  | case1 => cases hp
  | case2 c cs r ih =>
    rcases List.mem_cons.mp hp with rfl | hp
    · exact legal_front htoken
    · exact ih hp

end Piece
end RegisterColoring

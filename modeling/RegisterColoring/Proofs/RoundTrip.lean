import RegisterColoring.Proofs.Grammar
import RegisterColoring.Proofs.Spelling

/-! Writing instructions and reading them. Main statement: exactly the well-formed instructions are read back as they
were written, and whatever is read is well-formed. -/
namespace RegisterColoring

namespace Address

def name? : Address → Option String
  | global name => some name
  | frame _ => none

def offset? : Address → Option Int64
  | global _ => none
  | frame offset => some offset

/-- The tokens that the address is written with. -/
def tokens : Address → List Token
  | global name => [.symbol .atSign, .name name]
  | frame offset =>
    [.symbol .openBracket, .keyword .fp, .symbol (if offset.toInt < 0 then .minus else .plus),
      .number offset.toInt.natAbs, .symbol .closeBracket]

end Address

namespace Command

/-- The global, the jump target or the label of the instruction. -/
def names : Command → List String
  | load _ addr | store _ addr => addr.name?.toList
  | jumpIfZero _ target | jump target => [target]
  | label name => [name]
  | _ => []

/-- The constant or the frame offset of the instruction. -/
def numbers : Command → List Int64
  | const _ value => [value]
  | load _ addr | store _ addr => addr.offset?.toList
  | _ => []

/-- Names can be told from reserved words and temporaries, the smallest integer does not occur, and the serials stay
below the last one. -/
structure WellFormed (c : Command) : Prop where
  names : ∀ name ∈ c.names, Token.IsName name
  numbers : ∀ v ∈ c.numbers, v ≠ Int64.minValue
  temps : ∀ t ∈ c.temps, t.serial.toNat ≤ 4294967294

instance : DecidablePred WellFormed := fun c =>
  decidable_of_iff ((c.names.all (decide <| Token.IsName ·) && c.numbers.all (· != Int64.minValue) &&
      c.temps.all (·.serial.toNat ≤ 4294967294)) = true) <| by
    simp only [Bool.and_eq_true, List.all_eq_true, decide_eq_true_eq, bne_iff_ne]
    exact ⟨fun h => ⟨h.1.1, h.1.2, h.2⟩, fun h => ⟨⟨h.names, h.numbers⟩, h.temps⟩⟩

/-- The tokens that the instruction is written with. -/
def tokens : Command → List Token
  | compute op dst lhs rhs => [.temp dst, .symbol .equals, .operator op, .temp lhs, .symbol .comma, .temp rhs]
  | const dst value =>
    [.temp dst, .symbol .equals] ++ (if value.toInt < 0 then [.symbol .minus] else []) ++ [.number value.toInt.natAbs]
  | load dst addr => [.temp dst, .symbol .equals, .keyword .load] ++ addr.tokens
  | store src addr => [.keyword .store, .temp src, .symbol .comma] ++ addr.tokens
  | print src => [.keyword .print, .temp src]
  | ret value => .keyword .ret :: value.toList.map .temp
  | jumpIfZero cond target => [.keyword .jz, .temp cond, .symbol .comma, .name target]
  | jump target => [.keyword .jump, .name target]
  | label name => [.name name, .symbol .colon]

end Command

/-! ### The tokens of an instruction -/

section Literals
variable {v : Int64}

private theorem ofInt_natAbs (h : ¬ v.toInt < 0) : Int64.ofInt v.toInt.natAbs = v := by
  rw [Int.natAbs_of_nonneg (by omega), Int64.ofInt_toInt]

private theorem ofInt_neg_natAbs (h : v.toInt < 0) : Int64.ofInt (-v.toInt.natAbs) = v := by
  rw [Int.ofNat_natAbs_of_nonpos (by omega), Int.neg_neg, Int64.ofInt_toInt]

/-- Only the smallest integer is farther from zero than the numbers that tokens hold. -/
theorem natAbs_le_maxNumber (h : v ≠ Int64.minValue) : v.toInt.natAbs ≤ Token.maxNumber := by
  have hle := v.le_toInt
  have hlt := v.toInt_lt
  have hne : v.toInt ≠ Int64.minValue.toInt := fun heq => h (Int64.toInt_inj.mp heq)
  rw [Int64.toInt_minValue] at hne
  simp only [Token.maxNumber]
  omega

theorem ofInt_ne_minValue {i : Int} (h : i.natAbs ≤ Token.maxNumber) : Int64.ofInt i ≠ Int64.minValue := by
  simp only [Token.maxNumber] at h
  intro heq
  have hint := congrArg Int64.toInt heq
  rw [Int64.toInt_ofInt_of_le (by omega) (by omega), Int64.toInt_minValue] at hint
  omega

end Literals

namespace Grammar
variable {c : Command} {addr : Address} {tokens : List Token}

theorem isAddress_tokens (addr : Address) : IsAddress addr.tokens addr := by
  cases addr with
  | global name => exact .global name
  | frame offset =>
    by_cases hneg : offset.toInt < 0
    · have h := IsAddress.below offset.toInt.natAbs
      rw [ofInt_neg_natAbs hneg] at h
      rwa [Address.tokens, if_pos hneg]
    · have h := IsAddress.above offset.toInt.natAbs
      rw [ofInt_natAbs hneg] at h
      rwa [Address.tokens, if_neg hneg]

theorem isInstruction_tokens (c : Command) : IsInstruction c.tokens c := by
  cases c with
  | compute op dst lhs rhs => exact .compute op dst lhs rhs
  | const dst value =>
    by_cases hneg : value.toInt < 0
    · have h := IsInstruction.negative dst value.toInt.natAbs
      rw [ofInt_neg_natAbs hneg] at h
      rwa [Command.tokens, if_pos hneg]
    · have h := IsInstruction.const dst value.toInt.natAbs
      rw [ofInt_natAbs hneg] at h
      rwa [Command.tokens, if_neg hneg]
  | load dst addr => exact .load dst (isAddress_tokens addr)
  | store src addr => exact .store src (isAddress_tokens addr)
  | print src => exact .print src
  | ret value =>
    cases value with
    | none => exact .ret
    | some t => exact .retValue t
  | jumpIfZero cond target => exact .jumpIfZero cond target
  | jump target => exact .jump target
  | label name => exact .label name

/-- Legal tokens spell an address with a name or an offset that can be written. -/
theorem IsAddress.legal (h : IsAddress tokens addr) (hlegal : ∀ token ∈ tokens, token.Legal) :
    (∀ name ∈ addr.name?, Token.IsName name) ∧ ∀ v ∈ addr.offset?, v ≠ Int64.minValue := by
  cases h with
  | global name =>
    have hname : Token.IsName name := hlegal (.name name) (by simp)
    simpa [Address.name?, Address.offset?] using hname
  | base =>
    have hne : (0 : Int64) ≠ Int64.minValue := by decide
    simpa [Address.name?, Address.offset?] using hne
  | above n =>
    have hn : n ≤ Token.maxNumber := hlegal (.number n) (by simp)
    have hne : Int64.ofInt n ≠ Int64.minValue := ofInt_ne_minValue (by omega)
    simpa [Address.name?, Address.offset?] using hne
  | below n =>
    have hn : n ≤ Token.maxNumber := hlegal (.number n) (by simp)
    have hne : Int64.ofInt (-n) ≠ Int64.minValue := ofInt_ne_minValue (by omega)
    simpa [Address.name?, Address.offset?] using hne

theorem IsInstruction.legal (h : IsInstruction tokens c) (hlegal : ∀ token ∈ tokens, token.Legal) :
    (∀ name ∈ c.names, Token.IsName name) ∧ ∀ v ∈ c.numbers, v ≠ Int64.minValue := by
  cases h with
  | const dst n =>
    have hn : n ≤ Token.maxNumber := hlegal (.number n) (by simp)
    have hne : Int64.ofInt n ≠ Int64.minValue := ofInt_ne_minValue (by omega)
    simpa [Command.names, Command.numbers] using hne
  | negative dst n =>
    have hn : n ≤ Token.maxNumber := hlegal (.number n) (by simp)
    have hne : Int64.ofInt (-n) ≠ Int64.minValue := ofInt_ne_minValue (by omega)
    simpa [Command.names, Command.numbers] using hne
  | load dst haddr =>
    have := haddr.legal fun token htoken => hlegal token (List.mem_append_right _ htoken)
    simpa [Command.names, Command.numbers] using this
  | store src haddr =>
    have := haddr.legal fun token htoken => hlegal token (List.mem_append_right _ htoken)
    simpa [Command.names, Command.numbers] using this
  | jumpIfZero cond target =>
    have hname : Token.IsName target := hlegal (.name target) (by simp)
    simpa [Command.names, Command.numbers] using hname
  | jump target =>
    have hname : Token.IsName target := hlegal (.name target) (by simp)
    simpa [Command.names, Command.numbers] using hname
  | label name =>
    have hname : Token.IsName name := hlegal (.name name) (by simp)
    simpa [Command.names, Command.numbers] using hname
  | _ => simp [Command.names, Command.numbers]

end Grammar

/-! ### The text of an instruction -/

namespace Piece
open Token
variable {rest : List Char} {ts : List Token} {addr : Address} {v : Int64} {c : Command}

theorem reads_address (hname : ∀ name ∈ addr.name?, IsName name) (hoffset : ∀ v ∈ addr.offset?, v ≠ Int64.minValue)
    (hrest : Breaks rest) (h : Reads rest ts) : Reads (addr.text.toList ++ rest) (addr.tokens ++ ts) := by
  cases addr with
  | global name =>
    have htext : (Address.global name).text.toList ++ rest = '@' :: (name.toList ++ rest) := by
      simp [Address.text]
    rw [htext]
    exact reads_symbol .atSign (reads_name (hname name rfl) hrest h)
  | frame offset =>
    have htext : (Address.frame offset).text.toList ++ rest =
        '[' :: (Keyword.fp.word.toList ++ (if offset.toInt < 0 then Symbol.minus else .plus).char ::
          (offset.toInt.natAbs.repr.toList ++ ']' :: rest)) := by
      by_cases hneg : offset.toInt < 0 <;> simp [Address.text, hneg, Keyword.word, Symbol.char]
    rw [htext]
    refine reads_symbol .openBracket (reads_keyword .fp (breaks_symbol _) (reads_symbol _ ?_))
    exact reads_number (natAbs_le_maxNumber (hoffset offset rfl)) (breaks_symbol .closeBracket)
      (reads_symbol .closeBracket h)

theorem reads_signed (hv : v ≠ Int64.minValue) (hrest : Breaks rest) (h : Reads rest ts) :
    Reads ((signed v).toList ++ rest)
      ((if v.toInt < 0 then [.symbol .minus] else []) ++ .number v.toInt.natAbs :: ts) := by
  have hnumber := reads_number (natAbs_le_maxNumber hv) hrest h
  by_cases hneg : v.toInt < 0
  · rw [signed, if_pos hneg, if_pos hneg, String.toList_append, List.append_assoc]
    exact reads_symbol .minus hnumber
  · rwa [signed, if_neg hneg, if_neg hneg]

/-- A well-formed instruction is cut into the tokens that it is written with. -/
theorem reads_command (hc : c.WellFormed) (hrest : Breaks rest) (h : Reads rest ts) :
    Reads (c.text.toList ++ rest) (c.tokens ++ ts) := by
  -- the text is spelled out so that every word is seen to be followed by a blank, a symbol or the rest
  cases c with
  | compute op dst lhs rhs =>
    have htext : (Command.compute op dst lhs rhs).text.toList ++ rest =
        dst.text.toList ++ ' ' :: '=' :: ' ' :: (op.mnemonic.toList ++ ' ' :: (lhs.text.toList ++ ',' :: ' ' ::
          (rhs.text.toList ++ rest))) := by
      simp [Command.text]
    rw [htext]
    refine reads_temp dst breaks_blank (reads_blank (reads_symbol .equals (reads_blank ?_)))
    refine reads_mnemonic op breaks_blank (reads_blank ?_)
    refine reads_temp lhs (breaks_symbol .comma) (reads_symbol .comma (reads_blank ?_))
    exact reads_temp rhs hrest h
  | const dst value =>
    have htext : (Command.const dst value).text.toList ++ rest =
        dst.text.toList ++ ' ' :: '=' :: ' ' :: ((signed value).toList ++ rest) := by
      simp [Command.text]
    have hvalue := hc.numbers value (List.mem_singleton_self value)
    rw [htext, Command.tokens, List.append_assoc, List.append_assoc]
    refine reads_temp dst breaks_blank (reads_blank (reads_symbol .equals (reads_blank ?_)))
    exact reads_signed hvalue hrest h
  | load dst addr =>
    have htext : (Command.load dst addr).text.toList ++ rest =
        dst.text.toList ++ ' ' :: '=' :: ' ' :: (Keyword.load.word.toList ++ ' ' :: (addr.text.toList ++ rest)) := by
      simp [Command.text, Keyword.word]
    have haddr := reads_address (fun _ hn => hc.names _ (Option.mem_toList.mpr hn))
      (fun _ hv => hc.numbers _ (Option.mem_toList.mpr hv)) hrest h
    rw [htext]
    refine reads_temp dst breaks_blank (reads_blank (reads_symbol .equals (reads_blank ?_)))
    exact reads_keyword .load breaks_blank (reads_blank haddr)
  | store src addr =>
    have htext : (Command.store src addr).text.toList ++ rest =
        Keyword.store.word.toList ++ ' ' :: (src.text.toList ++ ',' :: ' ' :: (addr.text.toList ++ rest)) := by
      simp [Command.text, Keyword.word]
    have haddr := reads_address (fun _ hn => hc.names _ (Option.mem_toList.mpr hn))
      (fun _ hv => hc.numbers _ (Option.mem_toList.mpr hv)) hrest h
    rw [htext]
    refine reads_keyword .store breaks_blank (reads_blank ?_)
    exact reads_temp src (breaks_symbol .comma) (reads_symbol .comma (reads_blank haddr))
  | print src =>
    have htext : (Command.print src).text.toList ++ rest =
        Keyword.print.word.toList ++ ' ' :: (src.text.toList ++ rest) := by
      simp [Command.text, Keyword.word]
    rw [htext]
    exact reads_keyword .print breaks_blank (reads_blank (reads_temp src hrest h))
  | ret value =>
    cases value with
    | none => exact reads_keyword .ret hrest h
    | some t =>
      have htext : (Command.ret (some t)).text.toList ++ rest =
          Keyword.ret.word.toList ++ ' ' :: (t.text.toList ++ rest) := by
        simp [Command.text, Keyword.word]
      rw [htext]
      exact reads_keyword .ret breaks_blank (reads_blank (reads_temp t hrest h))
  | jumpIfZero cond target =>
    have htext : (Command.jumpIfZero cond target).text.toList ++ rest =
        Keyword.jz.word.toList ++ ' ' :: (cond.text.toList ++ ',' :: ' ' :: (target.toList ++ rest)) := by
      simp [Command.text, Keyword.word]
    have hname := hc.names target (List.mem_singleton_self target)
    rw [htext]
    refine reads_keyword .jz breaks_blank (reads_blank ?_)
    refine reads_temp cond (breaks_symbol .comma) (reads_symbol .comma (reads_blank ?_))
    exact reads_name hname hrest h
  | jump target =>
    have htext : (Command.jump target).text.toList ++ rest =
        Keyword.jump.word.toList ++ ' ' :: (target.toList ++ rest) := by
      simp [Command.text, Keyword.word]
    have hname := hc.names target (List.mem_singleton_self target)
    rw [htext]
    exact reads_keyword .jump breaks_blank (reads_blank (reads_name hname hrest h))
  | label name =>
    have htext : (Command.label name).text.toList ++ rest = name.toList ++ ':' :: rest := by
      simp [Command.text]
    have hname := hc.names name (List.mem_singleton_self name)
    rw [htext]
    exact reads_name hname (breaks_symbol .colon) (reads_symbol .colon h)

end Piece

/-! ### Reading -/

namespace Piece
variable {cs : List Char}

private theorem map_fst_locate (offset : Nat) (ps : List Piece) : (locate offset ps).map Prod.fst = ps := by
  induction ps generalizing offset with
  | nil => rfl
  | cons p ps ih => rw [locate, List.map_cons, ih]

/-- The tokens of pieces with the bytes that they cover, the first piece starting at `offset`. -/
def tokensFrom (offset : Nat) (ps : List Piece) : List (Token × Span) := (locate offset ps).filterMap token?

theorem map_fst_tokensFrom (offset : Nat) (ps : List Piece) :
    (tokensFrom offset ps).map Prod.fst = ps.filterMap content? := by
  have hcontent : (fun a => (token? a).map Prod.fst) = content? ∘ Prod.fst := by
    funext ⟨p, span⟩
    cases p <;> rfl
  rw [tokensFrom, List.map_filterMap, hcontent, ← List.filterMap_map, map_fst_locate]

theorem errors_eq_nil (offset : Nat) (ps : List Piece) :
    (locate offset ps).filterMap error? = [] ↔ ∀ p ∈ ps, p.isJunk = false := by
  have hjunk (a : Piece × Span) : error? a = none ↔ a.1.isJunk = false := by
    obtain ⟨p, span⟩ := a
    cases p <;> simp [error?, isJunk]
  conv_rhs => rw [← map_fst_locate offset ps]
  simp only [List.filterMap_eq_nil_iff, hjunk, List.forall_mem_map]

theorem scan_of_no_junk (h : ∀ p ∈ split cs, p.isJunk = false) :
    Scan.ofChars cs = ⟨some (tokensFrom 0 (split cs)), []⟩ := by
  have hlast : ¬ (split cs).getLast?.any isJunk = true := by
    rw [Bool.not_eq_true, Option.any_eq_false]
    intro p hp
    exact Bool.not_eq_true _ ▸ h p (List.mem_of_getLast? hp)
  rw [Scan.ofChars, if_neg hlast, (errors_eq_nil 0 _).mpr h]
  rfl

end Piece

theorem TempSupply.exists_above?_iff {ts : List Temp} :
    (∃ supply, above? ts = some supply) ↔ ⟨Temp.lastSerial⟩ ∉ ts := by
  induction ts with
  | nil => simp [above?]
  | cons t ts ih =>
    have ht : t = ⟨Temp.lastSerial⟩ ↔ t.serial = Temp.lastSerial := by
      cases t
      simp
    rw [List.mem_cons, not_or, ← ih, eq_comm, ht]
    by_cases hlast : t.serial = Temp.lastSerial
    · simp [above?, Temp.nextSerial?, hlast]
    · cases h : above? ts <;> simp [above?, Temp.nextSerial?, hlast, h]

private theorem Temp.ne_last_iff {t : Temp} : t ≠ ⟨lastSerial⟩ ↔ t.serial.toNat ≤ 4294967294 := by
  have hlt := t.serial.toNat_lt
  have hlast : lastSerial.toNat = 4294967295 := rfl
  rw [ne_eq, Temp.mk.injEq, ← UInt32.toNat_inj, hlast]
  omega

namespace Listing
open Grammar
variable {cs : List Char} {l : Listing} {c : Command} {commands : List Command} {ts : List Token}

/-- A listing is what its lines are read as, if the text has no junk, with the serials that they leave unused. -/
theorem ofChars_eq_ok_iff :
    ofChars cs = .ok l ↔ (∀ p ∈ Piece.split cs, p.isJunk = false) ∧
      parse (byteLength cs) (Piece.tokensFrom 0 (Piece.split cs)) = .ok l.lines ∧
      TempSupply.above? (temps l.commands) = some l.supply := by
  constructor
  · intro hl
    unfold ofChars at hl
    dsimp only at hl
    split at hl
    · cases hl
    · next tokens htokens =>
      split at hl
      · cases hl
      · cases hl
      · next lines hlines herrors =>
        split at hl <;> cases hl
        next hsupply =>
        rw [Scan.ofChars] at htokens
        split at htokens <;> cases htokens
        exact ⟨(Piece.errors_eq_nil 0 _).mp herrors, hlines, hsupply⟩
  · rintro ⟨hjunk, hlines, hsupply⟩
    rw [commands] at hsupply
    simp only [ofChars, Piece.scan_of_no_junk hjunk, hlines, hsupply]

/-- Reading succeeds on a text without junk whose tokens are of the grammar and that leaves a serial unused. -/
theorem exists_ofChars_iff :
    (∃ l, ofChars cs = .ok l ∧ l.commands = commands) ↔
      ∃ ts, Piece.Reads cs ts ∧ Accepts ts commands ∧ ⟨Temp.lastSerial⟩ ∉ temps commands := by
  constructor
  · rintro ⟨l, hl, rfl⟩
    obtain ⟨hjunk, hlines, hsupply⟩ := ofChars_eq_ok_iff.mp hl
    refine ⟨_, ⟨hjunk, rfl⟩, ?_, TempSupply.exists_above?_iff.mp ⟨_, hsupply⟩⟩
    rw [← Piece.map_fst_tokensFrom 0]
    exact exists_parse_iff.mp ⟨_, hlines, rfl⟩
  · rintro ⟨_, ⟨hjunk, rfl⟩, haccepts, hserial⟩
    rw [← Piece.map_fst_tokensFrom 0] at haccepts
    obtain ⟨lines, hlines, rfl⟩ : ∃ lines, parse (byteLength cs) _ = .ok lines ∧ lines.map Line.command = commands :=
      exists_parse_iff.mpr haccepts
    obtain ⟨supply, hsupply⟩ := TempSupply.exists_above?_iff.mpr hserial
    exact ⟨⟨lines, supply⟩, ofChars_eq_ok_iff.mpr ⟨hjunk, hlines, hsupply⟩, rfl⟩

/-- The tokens of the instructions, with the ends of lines between them. -/
def tokens (commands : List Command) : List Token := [.newline].intercalate (commands.map Command.tokens)

theorem reads_text (h : ∀ c ∈ commands, c.WellFormed) : Piece.Reads (text commands).toList (tokens commands) := by
  rw [text, String.toList_intercalate, List.map_map, tokens]
  induction commands with
  | nil => exact Piece.reads_nil
  | cons c others ih =>
    obtain ⟨hc, hothers⟩ := List.forall_mem_cons.mp h
    cases others with
    | nil => simpa using Piece.reads_command hc Token.breaks_nil Piece.reads_nil
    | cons d others =>
      simp only [List.map_cons, List.intercalate_cons_cons, List.append_assoc]
      exact Piece.reads_command hc Token.breaks_newline (Piece.reads_newline (ih hothers))

private theorem newline_not_mem_tokens (c : Command) : .newline ∉ c.tokens := by
  have haddr (addr : Address) : .newline ∉ addr.tokens := by cases addr <;> simp [Address.tokens]
  cases c with
  | const dst value => by_cases hneg : value.toInt < 0 <;> simp [Command.tokens, hneg]
  | load dst addr => simp [Command.tokens, haddr]
  | store src addr => simp [Command.tokens, haddr]
  | _ => simp [Command.tokens]

theorem accepts_tokens (commands : List Command) : Accepts (tokens commands) commands := by
  cases commands with
  | nil => exact ⟨[[]], .cons .empty .nil, rfl⟩
  | cons c others =>
    have hnewline : ∀ line ∈ (c :: others).map Command.tokens, .newline ∉ line := by
      rw [List.forall_mem_map]
      exact fun d _ => newline_not_mem_tokens d
    have hsplit : (tokens (c :: others)).splitOn .newline = (c :: others).map Command.tokens :=
      List.splitOn_intercalate _ hnewline (List.cons_ne_nil _ _)
    refine ⟨(c :: others).map ([·]), ?_, (List.flatMap_singleton' _).symm⟩
    rw [hsplit, List.forall₂_map_left_iff, List.forall₂_map_right_iff, List.forall₂_same]
    intro d _
    exact .instruction (isInstruction_tokens d)

private theorem exists_isInstruction_of_lines {lines : List (List Token)} {parts : List (List Command)}
    (h : List.Forall₂ IsLine lines parts) (hc : c ∈ parts.flatten) :
    ∃ line, IsInstruction line c ∧ line ⊆ [.newline].intercalate lines := by
  induction h with
  | nil => cases hc
  | @cons line part lines parts hline hlines ih =>
    have hsub : line ⊆ [.newline].intercalate (line :: lines) ∧
        [.newline].intercalate lines ⊆ [.newline].intercalate (line :: lines) := by
      cases lines with
      | nil => simp
      | cons other lines => simp [List.intercalate_cons_cons]
    rw [List.flatten_cons, List.mem_append] at hc
    rcases hc with hc | hc
    · cases hline with
      | empty => cases hc
      | instruction hline =>
        cases List.mem_singleton.mp hc
        exact ⟨line, hline, hsub.1⟩
    · obtain ⟨found, hfound, hmem⟩ := ih hc
      exact ⟨found, hfound, fun token htoken => hsub.2 (hmem htoken)⟩

/-- Each accepted instruction is spelled by some of the tokens. -/
theorem exists_isInstruction (h : Accepts ts commands) (hc : c ∈ commands) :
    ∃ line, IsInstruction line c ∧ line ⊆ ts := by
  obtain ⟨parts, hparts, rfl⟩ := h
  have hlines := exists_isInstruction_of_lines hparts hc
  rwa [List.intercalate_splitOn] at hlines

theorem wellFormed_of_ofChars (h : ofChars cs = .ok l) : ∀ c ∈ l.commands, c.WellFormed := by
  obtain ⟨ts, hreads, haccepts, hserial⟩ := exists_ofChars_iff.mp ⟨l, h, rfl⟩
  intro c hc
  obtain ⟨line, hline, hsub⟩ := exists_isInstruction haccepts hc
  have hlegal : ∀ token ∈ line, token.Legal := fun token htoken =>
    Piece.legal_of_mem_split cs token (hreads.2 ▸ hsub htoken)
  obtain ⟨hnames, hnumbers⟩ := hline.legal hlegal
  refine ⟨hnames, hnumbers, fun t ht => Temp.ne_last_iff.mp ?_⟩
  rintro rfl
  exact hserial (List.mem_flatMap.mpr ⟨c, hc, ht⟩)

/-- Exactly the well-formed instructions are read back as they were written, and what is read is well-formed. -/
theorem read_text_iff_wellFormed :
    (∀ commands, (∃ l, read (text commands) = .ok l ∧ l.commands = commands) ↔ ∀ c ∈ commands, c.WellFormed) ∧
    ∀ source l, read source = .ok l → (∀ c ∈ l.commands, c.WellFormed) ∧ l.reparses = true := by
  have hback {commands : List Command} (h : ∀ c ∈ commands, c.WellFormed) :
      ∃ l, read (text commands) = .ok l ∧ l.commands = commands := by
    refine exists_ofChars_iff.mpr ⟨tokens commands, reads_text h, accepts_tokens commands, ?_⟩
    intro hlast
    obtain ⟨c, hc, ht⟩ := List.mem_flatMap.mp hlast
    exact Temp.ne_last_iff.mpr ((h c hc).temps _ ht) rfl
  refine ⟨fun commands => ⟨?_, hback⟩, fun source l hl => ?_⟩
  · rintro ⟨l, hl, rfl⟩
    exact wellFormed_of_ofChars hl
  · have hl := wellFormed_of_ofChars hl
    obtain ⟨again, hagain, hcommands⟩ := hback hl
    exact ⟨hl, by simp [reparses, hagain, hcommands]⟩

/-- Names and numbers next to those that cannot be read back. -/
def closeCalls : List Command :=
  [.label "add_", .const ⟨4294967294⟩ (Int64.minValue + 1), .store ⟨0⟩ (.frame (-4)), .load ⟨1⟩ (.global "t01"),
    .compute .lt ⟨2⟩ ⟨0⟩ ⟨1⟩, .jumpIfZero ⟨2⟩ "t4294967296", .ret none]

theorem closeCalls_read_back :
    (∃ l, read (text closeCalls) = .ok l ∧ l.commands = closeCalls ∧ l.reparses = true) ∧
    ∀ c ∈ [Command.label "add", .const ⟨0⟩ Int64.minValue, .print ⟨4294967295⟩, .load ⟨1⟩ (.global "t1"),
      .jump "t4294967295"], ¬ ∃ l, read (text [c]) = .ok l ∧ l.commands = [c] := by
  constructor
  · obtain ⟨l, hl, hcommands⟩ := (read_text_iff_wellFormed.1 closeCalls).mpr (by decide +kernel)
    exact ⟨l, hl, hcommands, (read_text_iff_wellFormed.2 _ l hl).2⟩
  · intro c hc hback
    have hwell := (read_text_iff_wellFormed.1 [c]).mp hback c (List.mem_singleton_self c)
    clear hback
    revert c
    decide +kernel

end Listing
end RegisterColoring

import Mathlib.Data.List.Forall2
import RegisterColoring.Listing

/-! The grammar of listings, told by its productions. Main statement: reading accepts exactly the sequences of
lines of the grammar, and stops at the first token after which no continuation could be accepted. -/
namespace RegisterColoring

namespace Grammar

/-- `@name`, `[fp]`, `[fp+n]` or `[fp-n]`. -/
inductive IsAddress : List Token → Address → Prop
  | global (name : String) : IsAddress [.symbol .atSign, .name name] (.global name)
  | base : IsAddress [.symbol .openBracket, .keyword .fp, .symbol .closeBracket] (.frame 0)
  | above (n : Nat) :
      IsAddress [.symbol .openBracket, .keyword .fp, .symbol .plus, .number n, .symbol .closeBracket]
        (.frame (Int64.ofInt n))
  | below (n : Nat) :
      IsAddress [.symbol .openBracket, .keyword .fp, .symbol .minus, .number n, .symbol .closeBracket]
        (.frame (Int64.ofInt (-n)))

/-- The tokens of one instruction, and the instruction that they spell. -/
inductive IsInstruction : List Token → Command → Prop
  | compute (op : Operator) (dst lhs rhs : Temp) :
      IsInstruction [.temp dst, .symbol .equals, .operator op, .temp lhs, .symbol .comma, .temp rhs]
        (.compute op dst lhs rhs)
  | load (dst : Temp) {tokens : List Token} {addr : Address} : IsAddress tokens addr →
      IsInstruction ([.temp dst, .symbol .equals, .keyword .load] ++ tokens) (.load dst addr)
  | const (dst : Temp) (n : Nat) :
      IsInstruction [.temp dst, .symbol .equals, .number n] (.const dst (Int64.ofInt n))
  | negative (dst : Temp) (n : Nat) :
      IsInstruction [.temp dst, .symbol .equals, .symbol .minus, .number n] (.const dst (Int64.ofInt (-n)))
  | store (src : Temp) {tokens : List Token} {addr : Address} : IsAddress tokens addr →
      IsInstruction ([.keyword .store, .temp src, .symbol .comma] ++ tokens) (.store src addr)
  | print (src : Temp) : IsInstruction [.keyword .print, .temp src] (.print src)
  | ret : IsInstruction [.keyword .ret] (.ret none)
  | retValue (t : Temp) : IsInstruction [.keyword .ret, .temp t] (.ret (some t))
  | jumpIfZero (cond : Temp) (target : String) :
      IsInstruction [.keyword .jz, .temp cond, .symbol .comma, .name target] (.jumpIfZero cond target)
  | jump (target : String) : IsInstruction [.keyword .jump, .name target] (.jump target)
  | label (name : String) : IsInstruction [.name name, .symbol .colon] (.label name)

/-- A line is empty or one instruction. -/
inductive IsLine : List Token → List Command → Prop
  | empty : IsLine [] []
  | instruction {tokens : List Token} {c : Command} : IsInstruction tokens c → IsLine tokens [c]

/-- Split at the ends of lines, each line is one of the grammar; the instructions are those of the lines in order. -/
def Accepts (tokens : List Token) (commands : List Command) : Prop :=
  ∃ parts, List.Forall₂ IsLine (tokens.splitOn .newline) parts ∧ commands = parts.flatten

/-- Some accepted sequence starts with the tokens. -/
def Viable (tokens : List Token) : Prop := ∃ rest commands, Accepts (tokens ++ rest) commands

/-- The tokens before an index can still become a listing, but not together with the token there, or with the end
of the input if there is none. -/
def Offends (tokens : List Token) (i : Nat) : Prop :=
  Viable (tokens.take i) ∧
    if i < tokens.length then ¬ Viable (tokens.take (i + 1)) else ∀ commands, ¬ Accepts tokens commands

end Grammar

namespace Transfer
open Grammar

/-- The tokens before the address. -/
def tokens : Transfer → List Token
  | load dst => [.temp dst, .symbol .equals, .keyword .load]
  | store src => [.keyword .store, .temp src, .symbol .comma]

theorem isInstruction (t : Transfer) {tokens : List Token} {addr : Address} (h : IsAddress tokens addr) :
    IsInstruction (t.tokens ++ tokens) (t.command addr) := by
  cases t with
  | load dst => exact .load dst h
  | store src => exact .store src h

end Transfer

namespace Place
open Grammar
variable {p q : Place} {token : Token} {tokens line : List Token} {commands : List Command}

/-- The tokens that lead from the start of a line to a place. -/
def Spells : Place → List Token → Prop
  | start, ts => ts = []
  | equals dst, ts => ts = [.temp dst]
  | value dst, ts => ts = [.temp dst, .symbol .equals]
  | magnitude dst, ts => ts = [.temp dst, .symbol .equals, .symbol .minus]
  | leftOperand op dst, ts => ts = [.temp dst, .symbol .equals, .operator op]
  | operandComma op dst lhs, ts => ts = [.temp dst, .symbol .equals, .operator op, .temp lhs]
  | rightOperand op dst lhs, ts => ts = [.temp dst, .symbol .equals, .operator op, .temp lhs, .symbol .comma]
  | storeSource, ts => ts = [.keyword .store]
  | storeComma src, ts => ts = [.keyword .store, .temp src]
  | address t, ts => ts = t.tokens
  | globalName t, ts => ts = t.tokens ++ [.symbol .atSign]
  | frameBase t, ts => ts = t.tokens ++ [.symbol .openBracket]
  | frameSign t, ts => ts = t.tokens ++ [.symbol .openBracket, .keyword .fp]
  | frameDistance t below, ts =>
    ts = t.tokens ++ [.symbol .openBracket, .keyword .fp, .symbol (if below then .minus else .plus)]
  | frameClose t offset, ts => ∃ below n, offset = literal below n ∧
    ts = t.tokens ++ [.symbol .openBracket, .keyword .fp, .symbol (if below then .minus else .plus), .number n]
  | printSource, ts => ts = [.keyword .print]
  | returnValue, ts => ts = [.keyword .ret]
  | condition, ts => ts = [.keyword .jz]
  | conditionComma cond, ts => ts = [.keyword .jz, .temp cond]
  | branchTarget cond, ts => ts = [.keyword .jz, .temp cond, .symbol .comma]
  | jumpTarget, ts => ts = [.keyword .jump]
  | labelColon name, ts => ts = [.name name]
  | done c, ts => IsInstruction ts c

/-- One more token leads to the place after it. -/
theorem Spells.next (h : p.Spells tokens) (hq : p.next? token = some q) : q.Spells (tokens ++ [token]) := by
  unfold next? at hq
  split at hq <;> cases hq <;> simp only [Spells] at h ⊢
  -- inside an instruction the spelling only gets longer
  all_goals try (simp [h, Transfer.tokens]; done)
  -- what is left are the tokens that end one, and the offset of a slot
  · exact h ▸ .const _ _
  · exact h ▸ .negative _ _
  · exact h ▸ .compute _ _ _ _
  · rw [h, List.append_assoc]
    exact Transfer.isInstruction _ (.global _)
  · rw [h, List.append_assoc]
    exact Transfer.isInstruction _ .base
  · exact ⟨_, _, rfl, by rw [h, List.append_assoc]; rfl⟩
  · obtain ⟨below, n, rfl, rfl⟩ := h
    rw [List.append_assoc]
    cases below with
    | false => exact Transfer.isInstruction _ (.above n)
    | true => exact Transfer.isInstruction _ (.below n)
  · exact h ▸ .print _
  · exact h ▸ .retValue _
  · exact h ▸ .jumpIfZero _ _
  · exact h ▸ .jump _
  · exact h ▸ .label _

/-- The place after more tokens of the line. -/
def after? (p : Place) (tokens : List Token) : Option Place := tokens.foldlM next? p

theorem Spells.after (h : p.Spells tokens) (hq : p.after? line = some q) : q.Spells (tokens ++ line) := by
  induction line generalizing p tokens with
  | nil =>
    cases hq
    simpa using h
  | cons token line ih =>
    rw [after?, List.foldlM_cons] at hq
    obtain ⟨r, hr, hq⟩ := Option.bind_eq_some_iff.mp hq
    rw [List.append_cons]
    exact ih (h.next hr) hq

/-- What a line holds if its tokens go on from the place. -/
def holds? (p : Place) (line : List Token) : Option (List Command) := (p.after? line).bind finish?

theorem holds?_nil (p : Place) : p.holds? [] = p.finish? := rfl

theorem holds?_cons (p : Place) (token : Token) (line : List Token) :
    p.holds? (token :: line) = (p.next? token).bind (·.holds? line) := by
  rw [holds?, after?, List.foldlM_cons]
  exact Option.bind_assoc ..

theorem isLine_of_holds? (h : start.holds? line = some commands) : IsLine line commands := by
  obtain ⟨q, hq, hfinish⟩ := Option.bind_eq_some_iff.mp h
  have hstart : start.Spells [] := rfl
  have hspells : q.Spells line := hstart.after hq
  unfold finish? at hfinish
  split at hfinish <;> cases hfinish
  · obtain rfl : line = [] := hspells
    exact .empty
  · obtain rfl : line = [.keyword .ret] := hspells
    exact .instruction .ret
  · exact .instruction hspells

theorem holds?_of_isLine (h : IsLine line commands) : start.holds? line = some commands := by
  cases h with
  | empty => rfl
  | instruction h =>
    cases h with
    | load dst h => cases h <;> rfl
    | store src h => cases h <;> rfl
    | _ => rfl

/-- From every place the line can still become an instruction. -/
theorem exists_holds? (p : Place) : ∃ line commands, p.holds? line = some commands := by
  cases p with
  | start => exact ⟨[], _, rfl⟩
  | equals dst => exact ⟨[.symbol .equals, .number 0], _, rfl⟩
  | value dst => exact ⟨[.number 0], _, rfl⟩
  | magnitude dst => exact ⟨[.number 0], _, rfl⟩
  | leftOperand op dst => exact ⟨[.temp dst, .symbol .comma, .temp dst], _, rfl⟩
  | operandComma op dst lhs => exact ⟨[.symbol .comma, .temp lhs], _, rfl⟩
  | rightOperand op dst lhs => exact ⟨[.temp lhs], _, rfl⟩
  | storeSource => exact ⟨[.temp ⟨0⟩, .symbol .comma, .symbol .atSign, .name ""], _, rfl⟩
  | storeComma src => exact ⟨[.symbol .comma, .symbol .atSign, .name ""], _, rfl⟩
  | address t => exact ⟨[.symbol .atSign, .name ""], _, rfl⟩
  | globalName t => exact ⟨[.name ""], _, rfl⟩
  | frameBase t => exact ⟨[.keyword .fp, .symbol .closeBracket], _, rfl⟩
  | frameSign t => exact ⟨[.symbol .closeBracket], _, rfl⟩
  | frameDistance t below => exact ⟨[.number 0, .symbol .closeBracket], _, rfl⟩
  | frameClose t offset => exact ⟨[.symbol .closeBracket], _, rfl⟩
  | printSource => exact ⟨[.temp ⟨0⟩], _, rfl⟩
  | returnValue => exact ⟨[], _, rfl⟩
  | condition => exact ⟨[.temp ⟨0⟩, .symbol .comma, .name ""], _, rfl⟩
  | conditionComma cond => exact ⟨[.symbol .comma, .name ""], _, rfl⟩
  | branchTarget cond => exact ⟨[.name ""], _, rfl⟩
  | jumpTarget => exact ⟨[.name ""], _, rfl⟩
  | labelColon name => exact ⟨[.symbol .colon], _, rfl⟩
  | done c => exact ⟨[], _, rfl⟩

/-- The rest of a line from the place on, and the lines after it, hold the instructions. -/
def Accepts (p : Place) (tokens : List Token) (commands : List Command) : Prop :=
  ∃ line others part parts, tokens.splitOn .newline = line :: others ∧ p.holds? line = some part ∧
    List.Forall₂ IsLine others parts ∧ commands = part ++ parts.flatten

theorem accepts_start : start.Accepts tokens commands ↔ Grammar.Accepts tokens commands := by
  constructor
  · rintro ⟨line, others, part, parts, hsplit, hline, hothers, rfl⟩
    exact ⟨part :: parts, hsplit ▸ .cons (isLine_of_holds? hline) hothers, rfl⟩
  · rintro ⟨parts, hparts, rfl⟩
    obtain ⟨line, others, hsplit⟩ := List.exists_cons_of_ne_nil (List.splitOn_ne_nil .newline tokens)
    rw [hsplit] at hparts
    cases hparts with
    | cons hline hothers => exact ⟨line, others, _, _, hsplit, holds?_of_isLine hline, hothers, rfl⟩

theorem accepts_nil : p.Accepts [] commands ↔ p.finish? = some commands := by
  constructor
  · rintro ⟨line, others, part, parts, hsplit, hline, hothers, rfl⟩
    cases hsplit
    cases hothers
    simpa [holds?_nil] using hline
  · intro h
    exact ⟨[], [], commands, [], rfl, h, .nil, by simp⟩

theorem accepts_newline : p.Accepts (.newline :: tokens) commands ↔
    ∃ part rest, p.finish? = some part ∧ start.Accepts tokens rest ∧ commands = part ++ rest := by
  have hsplit : (Token.newline :: tokens).splitOn .newline = [] :: tokens.splitOn .newline := by
    simp [List.splitOn_cons_eq_if_modifyHead]
  simp only [accepts_start]
  constructor
  · rintro ⟨line, others, part, parts, heq, hline, hothers, rfl⟩
    rw [hsplit] at heq
    cases heq
    exact ⟨part, parts.flatten, hline, ⟨parts, hothers, rfl⟩, rfl⟩
  · rintro ⟨part, _, hpart, ⟨parts, hparts, rfl⟩, rfl⟩
    exact ⟨[], _, part, parts, hsplit, hpart, hparts, rfl⟩

theorem accepts_cons (h : token ≠ .newline) :
    p.Accepts (token :: tokens) commands ↔ ∃ q, p.next? token = some q ∧ q.Accepts tokens commands := by
  have hsplit : (token :: tokens).splitOn .newline = (tokens.splitOn .newline).modifyHead (token :: ·) := by
    simp [List.splitOn_cons_eq_if_modifyHead, h]
  constructor
  · rintro ⟨line, others, part, parts, heq, hline, hothers, rfl⟩
    obtain ⟨first, rest, hrest⟩ := List.exists_cons_of_ne_nil (List.splitOn_ne_nil .newline tokens)
    obtain ⟨rfl, rfl⟩ : token :: first = line ∧ rest = others := by simpa [hsplit, hrest] using heq
    rw [holds?_cons] at hline
    obtain ⟨q, hq, hline⟩ := Option.bind_eq_some_iff.mp hline
    exact ⟨q, hq, first, rest, part, parts, hrest, hline, hothers, rfl⟩
  · rintro ⟨q, hq, line, others, part, parts, heq, hline, hothers, rfl⟩
    refine ⟨token :: line, others, part, parts, by rw [hsplit, heq]; rfl, ?_, hothers, rfl⟩
    rw [holds?_cons, hq]
    exact hline

theorem next?_newline (p : Place) : p.next? .newline = none := by
  cases p <;> rfl

/-- The place after one more token, be it the end of a line. -/
def advance? (p : Place) (token : Token) : Option Place :=
  if token = .newline then p.finish?.map fun _ => start else p.next? token

/-- The place after more tokens, over ends of lines. -/
def run? (p : Place) (tokens : List Token) : Option Place := tokens.foldlM advance? p

theorem run?_append (p : Place) (before rest : List Token) :
    p.run? (before ++ rest) = (p.run? before).bind (·.run? rest) := by
  rw [run?, List.foldlM_append]
  rfl

theorem run?_singleton (p : Place) (token : Token) : p.run? [token] = p.advance? token := by
  simp [run?]

/-- Acceptance one token at a time: the rest is accepted from where the token leads. -/
theorem exists_accepts_cons : (∃ commands, p.Accepts (token :: tokens) commands) ↔
    ∃ q, p.advance? token = some q ∧ ∃ commands, q.Accepts tokens commands := by
  by_cases h : token = .newline
  · subst h
    simp only [accepts_newline, advance?, if_true, Option.map_eq_some_iff]
    constructor
    · rintro ⟨_, part, rest, hpart, hrest, rfl⟩
      exact ⟨start, ⟨part, hpart, rfl⟩, rest, hrest⟩
    · rintro ⟨_, ⟨part, hpart, rfl⟩, rest, hrest⟩
      exact ⟨_, part, rest, hpart, hrest, rfl⟩
  · simp only [accepts_cons h, advance?, if_neg h]
    constructor
    · rintro ⟨commands, q, hq, hrest⟩
      exact ⟨q, hq, commands, hrest⟩
    · rintro ⟨q, hq, commands, hrest⟩
      exact ⟨commands, q, hq, hrest⟩

theorem exists_accepts_append (before rest : List Token) : (∃ commands, p.Accepts (before ++ rest) commands) ↔
    ∃ q, p.run? before = some q ∧ ∃ commands, q.Accepts rest commands := by
  induction before generalizing p with
  | nil => simp [run?]
  | cons token before ih =>
    rw [List.cons_append, exists_accepts_cons]
    simp only [ih, run?, List.foldlM_cons, Option.bind_eq_bind, Option.bind_eq_some_iff]
    constructor
    · rintro ⟨q, hq, r, hr, hrest⟩
      exact ⟨r, ⟨q, hq, hr⟩, hrest⟩
    · rintro ⟨r, ⟨q, hq, hr⟩, hrest⟩
      exact ⟨q, hq, r, hr, hrest⟩

/-- From every place some tokens lead to a listing. -/
theorem exists_accepts (p : Place) : ∃ tokens commands, p.Accepts tokens commands := by
  obtain ⟨line, commands, h⟩ := p.exists_holds?
  refine ⟨line, commands, ?_⟩
  induction line generalizing p with
  | nil => exact accepts_nil.mpr h
  | cons token line ih =>
    rw [holds?_cons] at h
    obtain ⟨q, hq, hline⟩ := Option.bind_eq_some_iff.mp h
    have hne : token ≠ .newline := by
      rintro rfl
      rw [next?_newline] at hq
      cases hq
    exact (accepts_cons hne).mpr ⟨q, hq, ih q hline⟩

/-- Tokens can become a listing exactly as long as there is a place after them. -/
theorem viable_iff : Viable tokens ↔ ∃ q, start.run? tokens = some q := by
  constructor
  · rintro ⟨rest, commands, h⟩
    obtain ⟨q, hq, _⟩ := (exists_accepts_append tokens rest).mp ⟨commands, accepts_start.mpr h⟩
    exact ⟨q, hq⟩
  · rintro ⟨q, hq⟩
    obtain ⟨rest, hrest⟩ := q.exists_accepts
    obtain ⟨commands, h⟩ := (exists_accepts_append tokens rest).mpr ⟨q, hq, hrest⟩
    exact ⟨rest, commands, accepts_start.mp h⟩

end Place

namespace Listing
open Grammar
variable {size : Nat} {p : Place} {covered : Span} {tokens : List (Token × Span)} {e : SyntaxError}

/-- From any place, reading succeeds exactly on what is accepted there, whatever the spans are. -/
theorem parseFrom_eq_ok_iff {commands : List Command} :
    (∃ lines, parseFrom size p covered tokens = .ok lines ∧ lines.map Line.command = commands) ↔
      p.Accepts (tokens.map Prod.fst) commands := by
  induction tokens generalizing p covered commands with
  | nil =>
    rw [List.map_nil, Place.accepts_nil, parseFrom]
    cases p.finish? <;> simp [Function.comp_def]
  | cons pair tokens ih =>
    obtain ⟨token, span⟩ := pair
    rw [List.map_cons, parseFrom]
    by_cases hn : token = .newline
    · subst hn
      rw [if_pos rfl, Place.accepts_newline]
      cases hf : p.finish? with
      | none => simp
      | some part =>
        have hrest (rest : List Command) : (∃ lines, parseFrom size .start span tokens = .ok lines ∧
            lines.map Line.command = rest) ↔ Place.start.Accepts (tokens.map Prod.fst) rest := ih
        simp only [← hrest, Option.some.injEq]
        cases parseFrom size .start span tokens with
        | error e => simp [Except.map]
        | ok lines => simp [Except.map, Function.comp_def, eq_comm]
    · rw [if_neg hn, Place.accepts_cons hn]
      cases hq : p.next? token with
      | none => simp
      | some q => simp [ih]

theorem exists_parse_iff {commands : List Command} :
    (∃ lines, parse size tokens = .ok lines ∧ lines.map Line.command = commands) ↔
      Accepts (tokens.map Prod.fst) commands :=
  parseFrom_eq_ok_iff.trans Place.accepts_start

/-- A token leads on, and reading fails after it, or its place cannot take it. -/
theorem parseFrom_cons_eq_error {token : Token} {span : Span}
    (h : parseFrom size p covered ((token, span) :: tokens) = .error e) :
    (p.advance? token = none ∧ e = ⟨span, some token, p.wanted⟩) ∨
      ∃ q covered', p.advance? token = some q ∧ parseFrom size q covered' tokens = .error e := by
  rw [parseFrom] at h
  by_cases hn : token = .newline
  · subst hn
    rw [if_pos rfl] at h
    cases hf : p.finish? with
    | none =>
      simp only [hf, Except.error.injEq] at h
      exact .inl ⟨by simp [Place.advance?, hf], h.symm⟩
    | some part =>
      simp only [hf] at h
      refine .inr ⟨.start, span, by simp [Place.advance?, hf], ?_⟩
      cases hrest : parseFrom size .start span tokens with
      | error e' =>
        rw [hrest] at h
        cases h
        rfl
      | ok lines =>
        rw [hrest] at h
        cases h
  · rw [if_neg hn] at h
    cases hq : p.next? token with
    | none =>
      simp only [hq, Except.error.injEq] at h
      exact .inl ⟨by simp [Place.advance?, hn, hq], h.symm⟩
    | some q =>
      simp only [hq] at h
      exact .inr ⟨q, _, by simp [Place.advance?, hn, hq], h⟩

/-- Reading fails at the first token that its place cannot take, or at the end if its place cannot be the last. -/
theorem parseFrom_eq_error (h : parseFrom size p covered tokens = .error e) :
    ∃ i q, i ≤ tokens.length ∧ p.run? ((tokens.take i).map Prod.fst) = some q ∧
      (∀ token, tokens[i]?.map Prod.fst = some token → q.advance? token = none) ∧
      e = ⟨(tokens[i]?.map Prod.snd).getD ⟨size, size⟩, tokens[i]?.map Prod.fst, q.wanted⟩ := by
  induction tokens generalizing p covered with
  | nil =>
    rw [parseFrom] at h
    split at h <;> cases h
    exact ⟨0, p, Nat.le_refl 0, rfl, by simp, rfl⟩
  | cons pair tokens ih =>
    obtain ⟨token, span⟩ := pair
    rcases parseFrom_cons_eq_error h with ⟨hnone, rfl⟩ | ⟨q, covered', hq, hrest⟩
    · refine ⟨0, p, Nat.zero_le _, rfl, fun other hother => ?_, rfl⟩
      cases hother
      exact hnone
    · obtain ⟨i, r, hi, hr, hstop, he⟩ := ih hrest
      refine ⟨i + 1, r, Nat.succ_le_succ hi, ?_, hstop, he⟩
      rw [List.take_succ_cons, List.map_cons, Place.run?, List.foldlM_cons, hq]
      exact hr

theorem viable_take {tokens : List Token} (h : Viable tokens) (n : Nat) : Viable (tokens.take n) := by
  obtain ⟨rest, commands, h⟩ := h
  refine ⟨tokens.drop n ++ rest, commands, ?_⟩
  rwa [← List.append_assoc, List.take_append_drop]

/-- Reading a sequence of tokens accepts it exactly if it is one of the grammar, and then finds the instructions of
its lines in order. Otherwise it makes one complaint, at the first token after which no continuation could be
accepted, or at the end of the input if there is none; and reading a source text adds that complaint, and no
other, to those about its characters. -/
theorem parse_by_grammar (size : Nat) (tokens : List (Token × Span)) :
    (∀ commands, (∃ lines, parse size tokens = .ok lines ∧ lines.map Line.command = commands) ↔
      Accepts (tokens.map Prod.fst) commands) ∧
    ∀ e, parse size tokens = .error e →
      (∃ i ≤ tokens.length, Offends (tokens.map Prod.fst) i ∧ (∀ j < i, ¬ Offends (tokens.map Prod.fst) j) ∧
        e.span = (tokens[i]?.map Prod.snd).getD ⟨size, size⟩ ∧ e.found = tokens[i]?.map Prod.fst) ∧
      ∀ cs, byteLength cs = size → (Scan.ofChars cs).tokens = some tokens →
        ofChars cs = .error (.malformed ((Scan.ofChars cs).errors ++ [e])) := by
  refine ⟨fun commands => exists_parse_iff, fun e he => ⟨?_, fun cs hcs htokens => ?_⟩⟩
  · obtain ⟨i, q, hi, hq, hstop, rfl⟩ := parseFrom_eq_error he
    rw [List.map_take] at hq
    have hviable : Viable ((tokens.map Prod.fst).take i) := Place.viable_iff.mpr ⟨q, hq⟩
    refine ⟨i, hi, ⟨hviable, ?_⟩, fun j hj hoffends => ?_, rfl, rfl⟩
    · split
      · next hlt =>
        have hnone := hstop _ (by rw [← List.getElem?_map, List.getElem?_eq_getElem hlt])
        rw [Place.viable_iff, List.take_succ_eq_append_getElem hlt, Place.run?_append, hq, Option.bind_some,
          Place.run?_singleton, hnone]
        simp
      · intro commands haccepts
        obtain ⟨lines, hlines, _⟩ := exists_parse_iff.mpr haccepts
        rw [he] at hlines
        cases hlines
    · have hlt : j < (tokens.map Prod.fst).length := by rw [List.length_map]; omega
      have hnot := hoffends.2
      rw [if_pos hlt] at hnot
      apply hnot
      have hearlier := viable_take hviable (j + 1)
      rwa [List.take_take, Nat.min_eq_left (by omega)] at hearlier
  · simp [ofChars, htokens, hcs, he]

/-- The text `t0 =`, the end of its line, and `return`. -/
def brokenAssignment : List (Token × Span) :=
  [(.temp ⟨0⟩, ⟨0, 2⟩), (.symbol .equals, ⟨3, 4⟩), (.newline, ⟨4, 5⟩), (.keyword .ret, ⟨5, 11⟩)]

/-- It is given up at the end of the first line, and not before. -/
theorem parse_brokenAssignment : ∃ e i, parse 11 brokenAssignment = .error e ∧
    Offends (brokenAssignment.map Prod.fst) i ∧ e.span = ((brokenAssignment[i]?).map Prod.snd).getD ⟨11, 11⟩ ∧
    e.span = ⟨4, 5⟩ := by
  have he : parse 11 brokenAssignment =
      .error ⟨⟨4, 5⟩, some .newline, (Place.value ⟨0⟩).wanted⟩ := rfl
  obtain ⟨i, _, hoffends, _, hspan, _⟩ := ((parse_by_grammar _ _).2 _ he).1
  exact ⟨_, i, he, hoffends, hspan, rfl⟩

end Listing
end RegisterColoring

import StackNative.Proofs.Assembly.Reassembly
import StackNative.Proofs.Assembly.Positions
import StackNative.Proofs.Assembly.Cursor

/-!
# Sources are read line by line

**Input.**  Sources without faults, one below the other.

**Algorithm.**  The machine that takes bytes does the same further down; behind a line feed it
is as it was at the beginning; a line is read the same way wherever it stands.

**Results.**
* `Scan.step_under`, `scan_append`: text below other text is scanned as if it stood alone.
* `readLines_down`, `readLines_above`, `read_append`: so are its lines read.
* `isBlank`, `Scan.foldl_idle_iff`, `read_line`: what a line gives.
* `read_eq_stack`: each line gives what it gives alone.
* `source_line_by_line`: tokens, statements and faults of sources one below the other, and of
  the lines of a source; the parser stays inside the tokens.
-/

namespace StackNative
namespace Assembly

open Bytecode (Opcode)

section Shifting

/-- A number of lines further down. -/
def Position.down (k : Nat) (p : Position) : Position := ⟨p.line + k, p.column⟩

def Token.down (k : Nat) (t : Token) : Token := ⟨t.lexeme, t.start.down k⟩

/-- A fault a number of lines further down. -/
def faultDown (k : Nat) (f : Position × α) : Position × α := (f.1.down k, f.2)

def Mode.down (k : Nat) : Mode → Mode
  | .between => .between
  | .comment => .comment
  | .sign b start => .sign b (start.down k)
  | .word start last => .word (start.down k) last
  | .number start hex last => .number (start.down k) hex last
  | .string start last => .string (start.down k) last
  | .escape start last => .escape (start.down k) last

/-- The machine a number of lines further down, with tokens and faults found before. -/
def Scan.under (ts : Array Token) (fs : Array (Position × LexFault)) (k : Nat) (s : Scan) : Scan :=
  ⟨s.next.down k, s.mode.down k, ts ++ s.tokens.map (.down k), fs ++ s.faults.map (faultDown k)⟩

namespace Scan

variable (ts : Array Token) (fs : Array (Position × LexFault)) (k : Nat) (s : Scan)

/-- A token is added under other lines as it is without them. -/
theorem add_under (x : Lexeme) (start : Position) :
    (s.under ts fs k).add x (start.down k) = (s.add x start).under ts fs k := by
  simp [under, add, Token.down]

/-- A fault is noted under other lines as it is without them. -/
theorem fault_under (start : Position) (f : LexFault) :
    (s.under ts fs k).fault (start.down k) f = (s.fault start f).under ts fs k := by
  simp [under, fault, faultDown]

/-- The next byte is taken under other lines as it is without them. -/
theorem advance_under (mode : Mode) :
    (s.under ts fs k).advance (mode.down k) = (s.advance mode).under ts fs k := rfl

/-- A token ends under other lines as it does without them. -/
theorem close_under : (s.under ts fs k).close = s.close.under ts fs k := by
  obtain ⟨next, mode, tokens, faults⟩ := s
  cases mode <;>
    simp [close, under, Mode.down, add, fault, Token.down, faultDown]

/-- A token begins under other lines as it does without them. -/
theorem begin_under (b : UInt8) : (s.under ts fs k).begin b = (s.begin b).under ts fs k := by
  unfold begin
  split
  · rfl
  split
  · simp [under, add, Mode.down, Token.down, Position.down, Nat.add_right_comm]
  split
  · rfl
  split
  · rfl
  split
  · rfl
  split
  · rfl
  split
  · rfl
  · rw [← advance_under, ← fault_under]
    rfl

/-- What the machine does with a byte depends neither on how far down it is nor on what it
has found before. -/
theorem step_under (b : UInt8) : (s.under ts fs k).step b = (s.step b).under ts fs k := by
  have hclose : (s.under ts fs k).close.begin b = (s.close.begin b).under ts fs k := by
    rw [close_under, begin_under]
  have hmode : (s.under ts fs k).mode = s.mode.down k := rfl
  unfold step
  rw [hmode]
  cases s.mode with
  | between => exact s.begin_under ts fs k b
  | comment =>
    dsimp only [Mode.down]
    split
    · exact hclose
    · rfl
  | sign c start =>
    dsimp only [Mode.down]
    split
    · rfl
    · exact hclose
  | word start last =>
    dsimp only [Mode.down]
    split
    · rfl
    · exact hclose
  | number start hex last =>
    dsimp only [Mode.down]
    split
    · rfl
    · exact hclose
  | string start last =>
    dsimp only [Mode.down]
    split
    · exact hclose
    split
    · rw [add_under]
      rfl
    split
    · rfl
    · rfl
  | escape start last =>
    dsimp only [Mode.down]
    split
    · rfl
    · rw [fault_under]
      rfl

/-- A text is scanned under other lines as it is without them: every step is. -/
theorem foldl_under (t : Text) :
    t.foldl step (s.under ts fs k) = (t.foldl step s).under ts fs k := by
  induction t generalizing s with
  | nil => rfl
  | cons b t ih => rw [List.foldl_cons, List.foldl_cons, step_under, ih]

/-- The end of the text comes to the same if what was found before ends with a line. -/
theorem finish_under
    (hts : ∀ t, ts.back? = some t → t.lexeme = .endOfLine) :
    (s.under ts fs k).finish = s.finish.under ts fs k := by
  have hback : (s.close.under ts fs k).tokens.back? =
      (s.close.tokens.back?.map (Token.down k)).or ts.back? := by
    simp [under]
  have hadd : ∀ (s : Scan) x, (s.under ts fs k).add x (s.under ts fs k).next =
      (s.add x s.next).under ts fs k :=
    fun s x => add_under ts fs k s x s.next
  unfold finish
  dsimp only
  rw [close_under, hback]
  cases s.close.tokens.back? with
  | none =>
    cases hfront : ts.back? with
    | none => exact hadd _ _
    | some t => simpa [hts t hfront] using hadd s.close .endOfFile
  | some t =>
    by_cases ht : t.lexeme = .endOfLine
    · simpa [Token.down, ht] using hadd s.close .endOfFile
    · have hline := hadd s.close .endOfLine
      have hfile := hadd (s.close.add .endOfLine s.close.next) .endOfFile
      simpa [Token.down, ht, hline] using hfile

end Scan

end Shifting

section Above

/-- There are tokens exactly if the scan finds no fault. -/
theorem tokens_eq_ok
    {source : Text}
    {ts : List Token} :
    tokens source = .ok ts ↔ (scan source).faults = #[] ∧ (scan source).tokens.toList = ts := by
  simp only [tokens]
  split
  case isTrue h => simpa using fun _ => Array.isEmpty_iff.mp h
  case isFalse h => simpa using fun hnone => absurd (Array.isEmpty_iff.mpr hnone) h

/-- Without faults no line feed is taken by an escape. -/
theorem missed_of_faults
    {source : Text}
    (h : (scan source).faults = #[]) :
    missed source = 0 := by
  rw [missed, Scan.missed, h]
  rfl

namespace Scan

variable (s : Scan)

/-- Unless it belongs to an escape, a line feed closes what is open and is a token. -/
theorem step_lineFeed
    (h : s.escaping = false) :
    s.step 0x0a =
      ⟨⟨s.next.line + 1, 1⟩, .between, s.close.tokens.push ⟨.endOfLine, s.next⟩, s.close.faults⟩ := by
  have hstep : s.step 0x0a = s.close.begin 0x0a := by
    obtain ⟨next, mode, tokens, faults⟩ := s
    cases mode with
    | escape start last => contradiction
    | number start hex last =>
      have hother : continuesNumber hex last 0x0a = false := by
        simp [continuesNumber, isWordPart, isWordStart, isSign, Numeral.isDigit]
      simp [step, hother]
    | _ => rfl
  rw [hstep, ← s.next_close]
  rfl

end Scan

/-- Behind lines without faults the machine is as it was at the beginning, only further
down, and the last token is the end of a line. -/
theorem foldl_of_lines
    {source : Text}
    (hend : source.getLast? = some 0x0a)
    (hfaults : (scan source).faults = #[]) :
    ∃ front, source.foldl Scan.step .init = Scan.init.under front #[] (source.count 0x0a) ∧
      ∀ t, front.back? = some t → t.lexeme = .endOfLine := by
  obtain ⟨t, rfl⟩ := List.getLast?_eq_some_iff.mp hend
  have hmissed : missed (t ++ [0x0a]) = 0 := missed_of_faults hfaults
  set s := t.foldl Scan.step .init with hs
  have hfold : (t ++ [0x0a]).foldl Scan.step .init = s.step 0x0a := by
    rw [List.foldl_append]
    rfl
  have hescaping : s.escaping = false := by
    by_contra h
    have hmisses := (s.step_misses (by simpa using h)).2
    rw [missed_eq, hfold] at hmissed
    omega
  have hstep := s.step_lineFeed hescaping
  have hnext := (marked_next (t ++ [0x0a])).eq_behind_iff.mpr hmissed
  have hnone : s.close.faults = #[] := by
    rw [scan, hfold, hstep, Scan.faults_finish] at hfaults
    exact hfaults
  rw [hfold, hstep] at hnext
  refine ⟨s.close.tokens.push ⟨.endOfLine, s.next⟩, ?_, fun t ht => ?_⟩
  · have hline : s.next.line + 1 = 1 + (t ++ [0x0a]).count 0x0a :=
      congrArg Position.line hnext
    rw [hfold, hstep, hnone, hline]
    simp [Scan.under, Scan.init, Position.down, Mode.down]
  · rw [Array.back?_push, Option.some.injEq] at ht
    rw [← ht]

/-- Text below lines without faults is read as if it stood alone. -/
theorem scan_append
    {above : Text}
    (hend : above.getLast? = some 0x0a)
    (hfaults : (scan above).faults = #[]) :
    ∃ front, (∃ p, (scan above).tokens.toList = front.toList ++ [⟨.endOfFile, p⟩]) ∧
      (∀ t, front.back? = some t → t.lexeme = .endOfLine) ∧
      ∀ below, scan (above ++ below) = (scan below).under front #[] (above.count 0x0a) := by
  obtain ⟨front, hfold, hback⟩ := foldl_of_lines hend hfaults
  refine ⟨front, ?_, hback, fun below => ?_⟩
  · refine ⟨(Scan.init.under front #[] (above.count 0x0a)).next, ?_⟩
    rw [scan, hfold, Scan.finish_under _ _ _ _ hback]
    simp [Scan.under, Scan.init, Scan.finish, Scan.close, Scan.add, Token.down]
  · rw [scan, List.foldl_append, hfold, Scan.foldl_under, Scan.finish_under _ _ _ _ hback]
    rfl

end Above

section Parsing

/-- What a line gives, a number of lines further down. -/
def resultDown (k : Nat) (down : α → α) : Except Fault α → Except Fault α
  | .ok a => .ok (down a)
  | .error f => .error (faultDown k f)

def Operation.down (k : Nat) : Operation → Operation
  | .withInteger op n place => .withInteger op n (place.down k)
  | .plain op => .plain op
  | .loadConstant long literal => .loadConstant long literal

def Statement.down (k : Nat) (s : Statement) : Statement := ⟨s.operation.down k, s.start.down k⟩

namespace Parsed

def down (k : Nat) (p : Parsed) : Parsed :=
  ⟨p.statements.map (.down k), p.faults.map (faultDown k)⟩

/-- The statements and the faults of some lines, then those of others. -/
def append (p q : Parsed) : Parsed := ⟨p.statements ++ q.statements, p.faults ++ q.faults⟩

end Parsed

variable (k : Nat)

/-- A literal is read further down as it is above. -/
theorem readLiteral_down (op : Opcode) (t : Token) :
    readLiteral op (t.down k) = resultDown k id (readLiteral op t) := by
  obtain ⟨lexeme, start⟩ := t
  cases lexeme with
  | integer numeral =>
    simp only [readLiteral, Token.down]
    split <;> rfl
  | float numeral =>
    simp only [readLiteral, Token.down]
    split <;> rfl
  | word w =>
    simp only [readLiteral, Token.down]
    split
    · rfl
    split
    · rfl
    split <;> rfl
  | _ => rfl

/-- An integer is read further down as it is above. -/
theorem readInteger_down (op : Opcode) (t : Token) :
    readInteger op (t.down k) = resultDown k id (readInteger op t) := by
  obtain ⟨lexeme, start⟩ := t
  cases lexeme with
  | integer numeral =>
    simp only [readInteger, Token.down]
    split <;> rfl
  | _ => rfl

/-- An operation is read further down as it is above. -/
theorem readOperation_down (op : Opcode) (lineEnd : Token) (rest : List Token) :
    readOperation op (lineEnd.down k) (rest.map (.down k)) =
      resultDown k (fun x => (x.1.down k, x.2.map (.down k))) (readOperation op lineEnd rest) := by
  have hfirst : firstOr (lineEnd.down k) (rest.map (.down k)) = (firstOr lineEnd rest).down k := by
    cases rest <;> rfl
  simp only [readOperation, hfirst, readLiteral_down, readInteger_down]
  split
  · cases readLiteral op (firstOr lineEnd rest) with
    | ok v => simp [resultDown, Operation.down]
    | error f => rfl
  split
  · cases readInteger op (firstOr lineEnd rest) with
    | ok n => simp [resultDown, Operation.down, Token.down]
    | error f => rfl
  · rfl

/-- A line is read the same way wherever it stands. -/
theorem readLine_down (first : Token) (rest : List Token) (lineEnd : Token) :
    readLine (first.down k) (rest.map (.down k)) (lineEnd.down k) =
      resultDown k (.down k) (readLine first rest lineEnd) := by
  obtain ⟨lexeme, start⟩ := first
  cases lexeme with
  | word name =>
    simp only [readLine, Token.down]
    cases Opcode.ofMnemonic? name with
    | none => rfl
    | some op =>
      have hoperation := readOperation_down k op lineEnd rest
      simp only [Token.down] at hoperation
      simp only [hoperation]
      cases readOperation op lineEnd rest with
      | error f => rfl
      | ok x =>
        obtain ⟨operation, more⟩ := x
        cases more <;> rfl
  | _ => rfl

/-- A line is read further down as it is above. -/
theorem addLine_down (p : Parsed) (line : List Token) (lineEnd : Token) :
    (p.down k).addLine (line.map (.down k)) (lineEnd.down k) = (p.addLine line lineEnd).down k := by
  cases line with
  | nil => rfl
  | cons first rest =>
    simp only [Parsed.addLine, List.map_cons, readLine_down]
    cases readLine first rest lineEnd with
    | ok s => simp [resultDown, Parsed.down]
    | error f => simp [resultDown, Parsed.down]

/-- Lines are read further down as they are above. -/
theorem readLines_down (p : Parsed) (line ts : List Token) :
    readLines (p.down k) (line.map (.down k)) (ts.map (.down k)) = (readLines p line ts).down k := by
  induction ts generalizing p line with
  | nil => rfl
  | cons t ts ih =>
    have hadd := addLine_down k p line.reverse t
    rw [List.map_reverse] at hadd
    have hlexeme : (t.down k).lexeme = t.lexeme := rfl
    rw [List.map_cons, readLines, readLines, hlexeme, hadd, ← List.map_cons]
    split
    · exact ih (p.addLine line.reverse t) []
    · exact ih p (t :: line)

/-- A line adds what it adds by itself. -/
theorem addLine_eq (p : Parsed) (line : List Token) (lineEnd : Token) :
    p.addLine line lineEnd = p.append (Parsed.addLine {} line lineEnd) := by
  cases line with
  | nil => simp [Parsed.addLine, Parsed.append]
  | cons first rest =>
    simp only [Parsed.addLine]
    split <;> simp [Parsed.append]

/-- What was read before only stands before what is read. -/
theorem readLines_eq (p : Parsed) (line ts : List Token) :
    readLines p line ts = p.append (readLines {} line ts) := by
  induction ts generalizing p line with
  | nil => simp [readLines, Parsed.append]
  | cons t ts ih =>
    rw [readLines, readLines]
    split
    · rw [ih, ih (Parsed.addLine {} line.reverse t), addLine_eq p]
      simp [Parsed.append]
    · exact ih p (t :: line)

/-- Behind the end of a line reading begins anew. -/
theorem readLines_lineEnd
    {lineEnd : Token}
    (hend : lineEnd.lexeme = .endOfLine)
    (p : Parsed)
    (line front ts : List Token) :
    readLines p line (front ++ lineEnd :: ts) =
      readLines (readLines p line (front ++ [lineEnd])) [] ts := by
  induction front generalizing p line with
  | nil => simp [readLines, hend]
  | cons t front ih =>
    rw [List.cons_append, List.cons_append, readLines, readLines]
    split
    · exact ih (p.addLine line.reverse t) []
    · exact ih p (t :: line)

/-- Behind the end of a line reading begins anew. -/
theorem readLines_append
    {front : List Token}
    (hfront : ∀ t, front.getLast? = some t → t.lexeme = .endOfLine)
    (p : Parsed)
    (ts : List Token) :
    readLines p [] (front ++ ts) = readLines (readLines p [] front) [] ts := by
  rcases List.eq_nil_or_concat front with rfl | ⟨init, last, rfl⟩
  · rfl
  rw [List.concat_eq_append] at hfront ⊢
  rw [List.append_assoc, List.singleton_append]
  exact readLines_lineEnd (hfront last (by simp)) p [] init ts

/-- The tokens of some lines give what these lines give, and then what the tokens behind
them give, further down. -/
theorem readLines_above
    {front : List Token}
    (hfront : ∀ t, front.getLast? = some t → t.lexeme = .endOfLine)
    (ts : List Token) :
    readLines {} [] (front ++ ts.map (.down k)) =
      (readLines {} [] front).append ((readLines {} [] ts).down k) := by
  have hdown : readLines {} [] (ts.map (.down k)) = (readLines {} [] ts).down k := by
    simpa [Parsed.down] using readLines_down k {} [] ts
  rw [readLines_append hfront, readLines_eq, hdown]

end Parsing

section Blank

/-- Only spaces, tabs and carriage returns, and a comment behind them or not. -/
def isBlank (line : Text) : Bool :=
  match line.dropWhile isGap with
  | [] => true
  | b :: _ => b == 0x3b

namespace Scan

variable (s : Scan) (b : UInt8)

/-- Nothing was found, and nothing is open. -/
def Idle : Prop := (s.tokens = #[] ∧ s.faults = #[]) ∧ (s.mode = .between ∨ s.mode = .comment)

/-- A scan is one without tokens and faults, under those that it has. -/
theorem under_bare : s = under s.tokens s.faults 0 ⟨s.next, s.mode, #[], #[]⟩ := by
  obtain ⟨next, mode, tokens, faults⟩ := s
  cases mode <;> simp [under, Position.down, Mode.down]

/-- What one state has found, another has found first. -/
def Keeps (s s' : Scan) : Prop :=
  ∃ ts fs, s'.tokens = s.tokens ++ ts ∧ s'.faults = s.faults ++ fs

theorem keeps_under (s' : Scan) : s.Keeps (s'.under s.tokens s.faults 0) := ⟨_, _, rfl, rfl⟩

/-- The end of a token keeps what was found. -/
theorem keeps_close : s.Keeps s.close := by
  have hclose := close_under s.tokens s.faults 0 ⟨s.next, s.mode, #[], #[]⟩
  rw [← under_bare] at hclose
  exact hclose ▸ s.keeps_under _

/-- The beginning of a token keeps what was found. -/
theorem keeps_begin : s.Keeps (s.begin b) := by
  have hbegin := begin_under s.tokens s.faults 0 ⟨s.next, s.mode, #[], #[]⟩ b
  rw [← under_bare] at hbegin
  exact hbegin ▸ s.keeps_under _

/-- A scan keeps what was found: every step does. -/
theorem keeps_foldl (t : Text) : s.Keeps (t.foldl step s) := by
  have hfoldl := foldl_under s.tokens s.faults 0 ⟨s.next, s.mode, #[], #[]⟩ t
  rw [← under_bare] at hfoldl
  exact hfoldl ▸ s.keeps_under _

variable {s} {s' : Scan}

/-- Where no token is found in the end, none was found before. -/
theorem Keeps.tokens_eq_empty
    (h : s.Keeps s')
    (htokens : s'.tokens = #[]) :
    s.tokens = #[] := by
  obtain ⟨ts, fs, hts, -⟩ := h
  rw [hts] at htokens
  exact (Array.append_eq_empty_iff.mp htokens).1

/-- Where no fault is found in the end, none was found before. -/
theorem Keeps.faults_eq_empty
    (h : s.Keeps s')
    (hfaults : s'.faults = #[]) :
    s.faults = #[] := by
  obtain ⟨ts, fs, -, hfs⟩ := h
  rw [hfs] at hfaults
  exact (Array.append_eq_empty_iff.mp hfaults).1

variable (s)

/-- Closing finds something unless nothing was open. -/
theorem close_nothing_iff : s.close.tokens = #[] ∧ s.close.faults = #[] ↔ s.Idle := by
  obtain ⟨next, mode, tokens, faults⟩ := s
  cases mode <;> simp [close, Idle, add, fault]

theorem not_idle_advance
    {mode : Mode}
    (hbetween : mode ≠ .between)
    (hcomment : mode ≠ .comment) :
    ¬ (s.advance mode).Idle :=
  fun h => h.2.elim hbetween hcomment

/-- What is found or open is never lost. -/
theorem step_idle
    (h : (s.step b).Idle) :
    s.Idle := by
  have hclose : (s.close.begin b).Idle → s.Idle := fun h =>
    have hkeeps := s.close.keeps_begin b
    s.close_nothing_iff.mp ⟨hkeeps.tokens_eq_empty h.1.1, hkeeps.faults_eq_empty h.1.2⟩
  have hkeeps : s.Keeps (s.step b) := s.keeps_foldl [b]
  have hnothing := And.intro (hkeeps.tokens_eq_empty h.1.1) (hkeeps.faults_eq_empty h.1.2)
  unfold step at h
  split at h
  case h_1 hmode => exact ⟨hnothing, .inl hmode⟩
  case h_2 hmode => exact ⟨hnothing, .inr hmode⟩
  case h_3 c start _ =>
    split at h
    · exact absurd h (s.not_idle_advance (by simp) (by simp))
    · exact hclose h
  case h_4 start last _ =>
    split at h
    · exact absurd h (s.not_idle_advance (by simp) (by simp))
    · exact hclose h
  case h_5 start hex last _ =>
    split at h
    · exact absurd h (s.not_idle_advance (by simp) (by simp))
    · exact hclose h
  case h_6 start last _ =>
    split at h
    · exact hclose h
    split at h
    · exact absurd h.1.1 (by simp [advance, add])
    split at h
    · exact absurd h (s.not_idle_advance (by simp) (by simp))
    · exact absurd h (s.not_idle_advance (by simp) (by simp))
  case h_7 start last _ =>
    split at h
    · exact absurd h (s.not_idle_advance (by simp) (by simp))
    · exact absurd h.1.2 (by simp [advance, fault])

/-- A scan that is idle behind a text was idle in front of it. -/
theorem foldl_idle
    {t : Text}
    (h : (t.foldl step s).Idle) :
    s.Idle := by
  induction t generalizing s with
  | nil => exact h
  | cons b t ih => exact s.step_idle b (ih (s.step b) h)

/-- A comment goes on to the end of its line. -/
theorem foldl_comment
    {t : Text}
    (ht : 0x0a ∉ t)
    (h : s.Idle)
    (hmode : s.mode = .comment) :
    (t.foldl step s).Idle := by
  induction t generalizing s with
  | nil => exact h
  | cons b t ih =>
    obtain ⟨hb, ht⟩ := not_or.mp (mt List.mem_cons.mpr ht)
    have hstep : s.step b = s.advance .comment := by
      simp [step, hmode, Ne.symm hb]
    rw [List.foldl_cons, hstep]
    exact ih (s.advance .comment) ht ⟨h.1, .inr rfl⟩ rfl

/-- Exactly the blank lines leave nothing behind. -/
theorem foldl_idle_iff
    {line : Text}
    (hline : 0x0a ∉ line)
    (h : s.Idle)
    (hmode : s.mode = .between) :
    (line.foldl step s).Idle ↔ isBlank line = true := by
  induction line generalizing s with
  | nil => simpa [isBlank] using h
  | cons b line ih =>
    obtain ⟨hb, hline⟩ := not_or.mp (mt List.mem_cons.mpr hline)
    have hstep : s.step b = s.begin b := by simp [step, hmode]
    rw [List.foldl_cons, hstep]
    by_cases hgap : isGap b = true
    · have hblank : isBlank (b :: line) = isBlank line := by simp [isBlank, hgap]
      have hbegin : s.begin b = s.advance .between := by simp [begin, hgap]
      rw [hblank, hbegin]
      exact ih (s.advance .between) hline ⟨h.1, .inl rfl⟩ rfl
    have hblank : isBlank (b :: line) = (b == 0x3b) := by simp [isBlank, hgap]
    rw [hblank]
    by_cases hcomment : b = 0x3b
    · have hbegin : s.begin b = s.advance .comment := by
        simp [begin, hcomment, isGap]
      rw [hbegin]
      simpa [hcomment] using foldl_comment (s.advance .comment) hline ⟨h.1, .inr rfl⟩ rfl
    · have hbusy : ¬ (s.begin b).Idle := by
        unfold begin
        rw [if_neg hgap, if_neg (by simpa using Ne.symm hb), if_neg (by simpa using hcomment)]
        split
        · exact s.not_idle_advance (by simp) (by simp)
        split
        · exact s.not_idle_advance (by simp) (by simp)
        split
        · exact s.not_idle_advance (by simp) (by simp)
        split
        · exact s.not_idle_advance (by simp) (by simp)
        · exact fun h => absurd h.1.2 (by simp [advance, fault])
      simpa [hcomment] using fun h => hbusy (foldl_idle _ h)

end Scan

end Blank

section Lines

/-- What the reader of lines makes of a source that has no faults. -/
def read (source : Text) : Parsed := readLines {} [] (scan source).tokens.toList

/-- What lines give, each one line further down than the one before. -/
def Parsed.stack : List Parsed → Parsed
  | [] => {}
  | p :: ps => p.append ((stack ps).down 1)

/-- In a text without line feeds no token is the end of a line. -/
theorem lexeme_ne_endOfLine
    {line : Text}
    (hline : 0x0a ∉ line)
    {t : Token}
    (ht : t ∈ (line.foldl Scan.step .init).close.tokens.toList) :
    t.lexeme ≠ .endOfLine := by
  obtain ⟨before, raw, rfl, htraced⟩ := follows_foldl line
  obtain ⟨x, hx⟩ := htraced.close.tokens.exists_of_mem ht
  intro hlexeme
  have hraw : x.raw = [0x0a] := by
    have hspelled := hx.spelled
    rwa [hlexeme] at hspelled
  obtain ⟨front, after, hsource, -⟩ := hx.place
  rw [List.append_nil, hraw] at hsource
  exact hline (by simp [hsource])

/-- The tokens of a text without line feeds are read as one line. -/
theorem readLines_finish
    {s : Scan}
    (h : ∀ t ∈ s.close.tokens.toList, t.lexeme ≠ .endOfLine) :
    readLines {} [] s.finish.tokens.toList =
      Parsed.addLine {} s.close.tokens.toList ⟨.endOfLine, s.next⟩ := by
  cases hback : s.close.tokens.back? with
  | none =>
    have hempty : s.close.tokens = #[] := by simpa using hback
    have hfinish : s.finish = s.close.add .endOfFile s.close.next := by
      simp [Scan.finish, hback]
    simp [hfinish, hempty, Scan.add, readLines, Parsed.addLine]
  | some t =>
    have ht : t ∈ s.close.tokens.toList := by simpa using Array.mem_of_back? hback
    have htokens : s.finish.tokens.toList =
        s.close.tokens.toList ++ ⟨.endOfLine, s.next⟩ :: [⟨.endOfFile, s.next⟩] := by
      rw [finish_open rfl hback (h t ht)]
      simp [Scan.add]
    rw [htokens, readLines_line h rfl]
    rfl

/-- A line feed behind the text changes nothing. -/
theorem readLines_step
    {s : Scan}
    (h : ∀ t ∈ s.close.tokens.toList, t.lexeme ≠ .endOfLine)
    (hescaping : s.escaping = false) :
    readLines {} [] (s.step 0x0a).finish.tokens.toList =
      Parsed.addLine {} s.close.tokens.toList ⟨.endOfLine, s.next⟩ := by
  rw [s.step_lineFeed hescaping, finish_closed rfl (by simp)]
  have htokens : ((s.close.tokens.push ⟨.endOfLine, s.next⟩).push
        ⟨.endOfFile, ⟨s.next.line + 1, 1⟩⟩).toList =
      s.close.tokens.toList ++ ⟨.endOfLine, s.next⟩ :: [⟨.endOfFile, ⟨s.next.line + 1, 1⟩⟩] := by
    simp
  rw [Scan.add, htokens, readLines_line h rfl]
  rfl

/-- A line that is not blank gives exactly one statement or exactly one fault, and a blank
one gives nothing. -/
theorem read_line
    {line : Text}
    (hline : 0x0a ∉ line)
    (hfaults : (scan line).faults = #[]) :
    if isBlank line then read line = {}
    else (read line).statements.size + (read line).faults.size = 1 := by
  set s := line.foldl Scan.step .init with hs
  have hread : read line = Parsed.addLine {} s.close.tokens.toList ⟨.endOfLine, s.next⟩ :=
    readLines_finish fun t ht => lexeme_ne_endOfLine hline ht
  have hidle : s.Idle ↔ isBlank line = true :=
    Scan.foldl_idle_iff .init hline ⟨⟨rfl, rfl⟩, .inl rfl⟩ rfl
  have hnothing := s.close_nothing_iff.trans hidle
  have hclosed : s.close.faults = #[] := by
    rwa [scan, ← hs, Scan.faults_finish] at hfaults
  rw [hclosed, and_iff_left rfl] at hnothing
  rw [hread]
  split
  case isTrue hblank =>
    rw [hnothing.mpr hblank]
    rfl
  case isFalse hblank =>
    obtain ⟨first, rest, htokens⟩ := List.exists_cons_of_ne_nil
      (mt Array.toList_eq_nil_iff.mp (mt hnothing.mp hblank))
    rw [htokens, Parsed.addLine]
    split <;> rfl

/-- Text below lines without faults is read as if it stood alone. -/
theorem read_append
    {above : Text}
    (hend : above.getLast? = some 0x0a)
    (hfaults : (scan above).faults = #[])
    (below : Text) :
    read (above ++ below) = (read above).append ((read below).down (above.count 0x0a)) := by
  obtain ⟨front, ⟨p, htokens⟩, hback, hscan⟩ := scan_append hend hfaults
  have hfront : ∀ t, front.toList.getLast? = some t → t.lexeme = .endOfLine := by
    simpa using hback
  have habove : read above = readLines {} [] front.toList := by
    rw [read, htokens, readLines_append hfront]
    simp [readLines]
  have hbelow : (scan (above ++ below)).tokens.toList =
      front.toList ++ (scan below).tokens.toList.map (.down (above.count 0x0a)) := by
    rw [hscan below]
    simp [Scan.under]
  rw [habove, read, hbelow, readLines_above _ hfront]
  rfl

/-- The first line of a source without faults has none, nor has what is below it. -/
theorem faults_of_cons
    {line rest : Text}
    (h : (scan (line ++ 0x0a :: rest)).faults = #[]) :
    (line.foldl Scan.step .init).escaping = false ∧ (scan line).faults = #[] ∧
      (scan (line ++ [0x0a])).faults = #[] := by
  set s := line.foldl Scan.step .init with hs
  have hfold : (line ++ 0x0a :: rest).foldl Scan.step .init =
      rest.foldl Scan.step (s.step 0x0a) := by
    rw [List.foldl_append]
    rfl
  have hfed : (s.step 0x0a).faults = #[] := by
    rw [scan, hfold, Scan.faults_finish] at h
    exact (Scan.keeps_foldl _ rest).faults_eq_empty (Scan.keeps_close _ |>.faults_eq_empty h)
  have hescaping : s.escaping = false := by
    by_contra hne
    have hmisses := (s.step_misses (by simpa using hne)).2
    rw [Scan.missed, hfed] at hmisses
    exact absurd hmisses (Nat.succ_ne_zero _).symm
  have hclosed : s.close.faults = #[] := by rwa [s.step_lineFeed hescaping] at hfed
  have hfold' : (line ++ [0x0a]).foldl Scan.step .init = s.step 0x0a := by
    rw [List.foldl_append]
    rfl
  refine ⟨hescaping, ?_, ?_⟩
  · rwa [scan, ← hs, Scan.faults_finish]
  · rw [scan, hfold', Scan.faults_finish, s.step_lineFeed hescaping]
    exact hclosed

/-- The first line of a source without faults is read on its own, and so is what is below. -/
theorem read_cons
    {line rest : Text}
    (hline : 0x0a ∉ line)
    (h : (scan (line ++ 0x0a :: rest)).faults = #[]) :
    (scan rest).faults = #[] ∧
      read (line ++ 0x0a :: rest) = (read line).append ((read rest).down 1) := by
  obtain ⟨hescaping, -, hfed⟩ := faults_of_cons h
  have hend : (line ++ [0x0a]).getLast? = some 0x0a := by simp
  have hcount : (line ++ [0x0a]).count 0x0a = 1 := by
    simp [List.count_append, List.count_eq_zero_of_not_mem hline]
  have hsource : line ++ 0x0a :: rest = line ++ [0x0a] ++ rest := by simp
  have hread : read (line ++ [0x0a]) = read line := by
    have hwritten := fun t ht => lexeme_ne_endOfLine hline (t := t) ht
    rw [read, read, scan, scan, readLines_finish hwritten, List.foldl_append]
    exact readLines_step hwritten hescaping
  rw [hsource] at h ⊢
  constructor
  · obtain ⟨front, -, -, hscan⟩ := scan_append hend hfed
    rw [hscan rest] at h
    simpa [Scan.under] using h
  · rw [read_append hend hfed, hread, hcount]

/-- Each line of a source without faults is read on its own. -/
theorem read_eq_stack
    {source : Text}
    (h : (scan source).faults = #[]) :
    (∀ line ∈ List.splitOn 0x0a source, (scan line).faults = #[] ∧ 0x0a ∉ line) ∧
      read source = Parsed.stack ((List.splitOn 0x0a source).map read) := by
  -- by induction on the length, since the text behind the first line feed is shorter
  induction hlength : source.length using Nat.strongRecOn generalizing source with
  | _ n ih =>
    by_cases hfeed : 0x0a ∈ source
    · obtain ⟨line, rest, rfl, hline⟩ := List.eq_append_cons_of_mem hfeed
      obtain ⟨hrest, hread⟩ := read_cons hline h
      obtain ⟨hlines, hstack⟩ := ih rest.length (by simp [← hlength]; omega) hrest rfl
      rw [List.splitOn_append_cons_self_of_not_mem hline]
      refine ⟨List.forall_mem_cons.mpr ⟨⟨(faults_of_cons h).2.1, hline⟩, hlines⟩, ?_⟩
      rw [hread, hstack]
      rfl
    · rw [List.splitOn_eq_singleton hfeed]
      refine ⟨List.forall_mem_singleton.mpr ⟨h, hfeed⟩, ?_⟩
      simp [Parsed.stack, Parsed.append, Parsed.down]

/-- The tokens of a source end with a line and with the one end of the file. -/
theorem exists_front (source : Text) :
    ∃ front p, (scan source).tokens.toList = front ++ [⟨.endOfFile, p⟩] ∧
      (∀ t ∈ front, t.lexeme ≠ .endOfFile) ∧
      ∀ t, front.getLast? = some t → t.lexeme = .endOfLine := by
  set s := source.foldl Scan.step .init with hs
  have hfile : ∀ t ∈ s.close.tokens.toList, t.lexeme ≠ .endOfFile := by
    intro t ht hlexeme
    obtain ⟨before, raw, hsource, htraced⟩ := follows_foldl source
    obtain ⟨x, hx⟩ := htraced.close.tokens.exists_of_mem ht
    have hspelled := hx.spelled
    rw [hlexeme] at hspelled
    exact hspelled
  rw [scan, ← hs]
  cases hback : s.close.tokens.back? with
  | none =>
    have hempty : s.close.tokens = #[] := by simpa using hback
    refine ⟨[], s.close.next, ?_, by simp, by simp⟩
    simp [Scan.finish, Scan.add, hempty]
  | some t =>
    by_cases ht : t.lexeme = .endOfLine
    · refine ⟨s.close.tokens.toList, s.close.next, ?_, hfile, ?_⟩
      · simp [Scan.finish, hback, ht, Scan.add]
      · intro u hu
        obtain rfl : t = u := by simpa [hback] using hu
        exact ht
    · refine ⟨s.close.tokens.toList ++ [⟨.endOfLine, s.close.next⟩], s.close.next, ?_, ?_, by simp⟩
      · rw [finish_open rfl hback ht]
        simp [Scan.add]
      · intro u hu
        rcases List.mem_append.mp hu with hu | hu
        · exact hfile u hu
        · simp [List.mem_singleton.mp hu]

/-- The parser finds in the tokens of a source what the reader of lines finds. -/
theorem parse_tokens (source : Text) :
    Cursor.parse (scan source).tokens.toList {} 0 = some (read source) := by
  obtain ⟨front, p, htokens, hfile, hends⟩ := exists_front source
  rw [read, htokens, Cursor.parse_eq rfl hfile hends, readLines_append hends]
  simp [readLines]

/-- Below other lines a source gives the tokens, the statements and the faults that it gives
alone, only further down.  Each line that is not blank gives exactly one statement or exactly
one fault, the one that it gives alone, and the parser never looks behind the end of the file. -/
theorem source_line_by_line
    {source : Text} {ts : List Token}
    (h : tokens source = .ok ts) :
    (∀ above us, above.getLast? = some 0x0a → tokens above = .ok us →
      tokens (above ++ source) = .ok (us.dropLast ++ ts.map (.down (above.count 0x0a))) ∧
        Cursor.parse us {} 0 = some (readLines {} [] us) ∧
        Cursor.parse (us.dropLast ++ ts.map (.down (above.count 0x0a))) {} 0 =
          some ((readLines {} [] us).append ((readLines {} [] ts).down (above.count 0x0a)))) ∧
      Cursor.parse ts {} 0 = some (readLines {} [] ts) ∧
      readLines {} [] ts = Parsed.stack ((List.splitOn 0x0a source).map read) ∧
      ∀ line ∈ List.splitOn 0x0a source, (∃ us, tokens line = .ok us ∧ read line = readLines {} [] us) ∧
        if isBlank line then read line = {}
        else (read line).statements.size + (read line).faults.size = 1 := by
  obtain ⟨hfaults, rfl⟩ := tokens_eq_ok.mp h
  obtain ⟨hlines, hstack⟩ := read_eq_stack hfaults
  refine ⟨fun above us hend habove => ?_, parse_tokens source, hstack, fun line hline => ?_⟩
  · obtain ⟨hnone, rfl⟩ := tokens_eq_ok.mp habove
    obtain ⟨front, ⟨p, hfront⟩, -, hscan⟩ := scan_append hend hnone
    have htokens : (scan (above ++ source)).tokens.toList =
        (scan above).tokens.toList.dropLast ++
          (scan source).tokens.toList.map (.down (above.count 0x0a)) := by
      rw [hscan source, hfront]
      simp [Scan.under]
    refine ⟨tokens_eq_ok.mpr ⟨?_, htokens⟩, parse_tokens above, ?_⟩
    · rw [hscan source]
      simp [Scan.under, hfaults]
    · rw [← htokens, parse_tokens, read_append hend hnone]
      rfl
  · obtain ⟨hnone, hfeed⟩ := hlines line hline
    exact ⟨⟨_, tokens_eq_ok.mpr ⟨hnone, rfl⟩, rfl⟩, read_line hfeed hnone⟩

/-- A comment, an instruction with one operand too many, and an instruction. -/
def noisyLines : Text := "; note\nADD 1\nADD"

/-- An instruction that does not exist. -/
def unknownLine : Text := "NOPE\n"

/-- Both faults are found one below the other, each in its own line, and the instruction in the
fourth. -/
theorem noisyLines_below_unknownLine :
    ∃ ts us, tokens noisyLines = .ok ts ∧ tokens unknownLine = .ok us ∧
      tokens (unknownLine ++ noisyLines) = .ok (us.dropLast ++ ts.map (.down 1)) ∧
      Cursor.parse (us.dropLast ++ ts.map (.down 1)) {} 0 =
        some ((readLines {} [] us).append ((readLines {} [] ts).down 1)) ∧
      (readLines {} [] us).faults = #[(⟨1, 1⟩, .unknownMnemonic "NOPE")] ∧
      (readLines {} [] ts).faults = #[(⟨2, 5⟩, .trailing "integer" .add)] ∧
      (readLines {} [] ts).statements.size = 1 := by
  have hnoisy : ∃ ts, tokens noisyLines = .ok ts ∧
      (readLines {} [] ts).faults = #[(⟨2, 5⟩, .trailing "integer" .add)] ∧
      (readLines {} [] ts).statements.size = 1 :=
    ⟨_, rfl, by decide, by decide⟩
  have hunknown : ∃ us, tokens unknownLine = .ok us ∧
      (readLines {} [] us).faults = #[(⟨1, 1⟩, .unknownMnemonic "NOPE")] :=
    ⟨_, rfl, by decide⟩
  obtain ⟨ts, hts, htrailing, hstatement⟩ := hnoisy
  obtain ⟨us, hus, hname⟩ := hunknown
  obtain ⟨habove, -⟩ := source_line_by_line hts
  obtain ⟨htokens, -, hparse⟩ := habove unknownLine us (by decide) hus
  have hcount : unknownLine.count 0x0a = 1 := by decide
  rw [hcount] at htokens hparse
  exact ⟨ts, us, hts, hus, htokens, hparse, hname, htrailing, hstatement⟩

end Lines

end Assembly
end StackNative

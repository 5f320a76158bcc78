import StackNative.Assembly.Statement
import StackNative.Proofs.Number.Decimal

/-!
# Printed lines and their tokens

**Input.**  Lines of assembly, each with an opcode and the operand it takes.

**Algorithm.**  A line is printed as its mnemonic, a space and its operand.  The machine
that takes one byte at a time is followed through each of these: every lexeme stays open
until a space or a line feed closes it.

**Results.**
* `Line.text`, `printed`: lines as text.
* `ReadsAs`: a text is taken for one lexeme, wherever it stands.
* `readsAs_word`, `readsAs_integer`, `readsAs_string`: mnemonics, numerals and quoted texts.
* `tokens_printed`: the tokens of printed lines, with their positions.
-/

namespace StackNative
namespace Assembly

open Bytecode (Opcode Value)

section Lines

/-- A literal as it is printed. -/
inductive Literal where
  | int (n : Int64)
  | bool (b : Bool)
  | null
  | string (s : Text)

namespace Literal

/-- The constant of a literal. -/
def value : Literal → Value
  | .int n => .int n
  | .bool b => .bool b
  | .null => .null
  | .string s => .string s

/-- A byte inside quotes: only a line feed, a quote and a backslash are escaped. -/
def escaped (b : UInt8) : Text :=
  if b = 0x0a then [0x5c, 0x6e] else if b = 0x22 ∨ b = 0x5c then [0x5c, b] else [b]

/-- The text of a literal. -/
def text : Literal → Text
  | .int n => Text.ofInt n.toInt
  | .bool true => "true"
  | .bool false => "false"
  | .null => "null"
  | .string s => 0x22 :: (s.flatMap escaped ++ [0x22])

/-- The token that the text of a literal is taken for. -/
def lexeme : Literal → Lexeme
  | .int n => .integer (Text.ofInt n.toInt)
  | .bool true => .word "true"
  | .bool false => .word "false"
  | .null => .word "null"
  | .string s => .string s

end Literal

/-- A line as it is printed: an opcode without an operand, an opcode with an integer, or one of the
two opcodes that load a constant with a literal. -/
inductive Line where
  | plain (op : Opcode) (h : op.operandForm = .none)
  | integer (op : Opcode) (h : op.operandForm ≠ .none ∧ op.takesConstant = false) (n : Int64)
  | constant (long : Bool) (literal : Literal)

namespace Line

/-- The opcode of a line. -/
def op : Line → Opcode
  | .plain op _ => op
  | .integer op _ _ => op
  | .constant long _ => if long then .constLong else .const

/-- The operand of a line. -/
def operand? : Line → Option Literal
  | .plain .. => none
  | .integer _ _ n => some (.int n)
  | .constant _ literal => some literal

/-- The text of a line: the mnemonic, and after a space the operand. -/
def text (l : Line) : Text := l.op.mnemonic ++ l.operand?.elim [] fun x => 0x20 :: x.text

/-- Where the operand of a line begins. -/
def operandStart (k : Nat) (l : Line) : Position := ⟨k, 1 + l.op.mnemonic.length + 1⟩

/-- The tokens of the line with a number, but for its end. -/
def tokens (k : Nat) (l : Line) : List Token :=
  ⟨.word l.op.mnemonic, ⟨k, 1⟩⟩ :: l.operand?.toList.map fun x => ⟨x.lexeme, l.operandStart k⟩

/-- The end of the line with a number. -/
def lineEnd (k : Nat) (l : Line) : Token := ⟨.endOfLine, ⟨k, l.text.length + 1⟩⟩

end Line

/-- Lines as text, a line feed after each. -/
def printed (ls : List Line) : Text := ls.flatMap fun l => l.text ++ [0x0a]

/-- The tokens of lines from a number on. -/
def lineTokens (k : Nat) : List Line → List Token
  | [] => []
  | l :: ls => l.tokens k ++ l.lineEnd k :: lineTokens (k + 1) ls

end Lines

section Machine

namespace Scan

/-- The machine so many bytes further on the same line, in a mode. -/
def moved (s : Scan) (width : Nat) (mode : Mode) : Scan :=
  { s with next := ⟨s.next.line, s.next.column + width⟩, mode := mode }

theorem advance_eq (s : Scan) (mode : Mode) : s.advance mode = s.moved 1 mode := rfl

theorem moved_moved (s : Scan) (m n : Nat) (mode mode' : Mode) :
    (s.moved m mode).moved n mode' = s.moved (m + n) mode' := by
  simp [moved, Nat.add_assoc]

/-- A run of bytes, each as it is written, that stay inside the open lexeme. -/
theorem foldl_open
    {inside : UInt8 → Prop} {mode : Text → Mode} {written : UInt8 → Text}
    (hstep : ∀ (s : Scan) (last : Text) (b : UInt8), inside b → s.mode = mode last →
      (written b).foldl step s = s.moved (written b).length (mode (b :: last)))
    (t : Text)
    (ht : ∀ b ∈ t, inside b)
    (s : Scan)
    (last : Text)
    (hmode : s.mode = mode last) :
    (t.flatMap written).foldl step s =
      s.moved (t.flatMap written).length (mode (t.reverse ++ last)) := by
  induction t generalizing s last with
  | nil =>
      rw [List.flatMap_nil, List.foldl_nil, List.reverse_nil, List.nil_append, ← hmode]
      rfl
  | cons b t ih =>
      obtain ⟨hb, ht⟩ := List.forall_mem_cons.mp ht
      rw [List.flatMap_cons, List.foldl_append, hstep s last b hb hmode,
        ih ht _ (b :: last) rfl, moved_moved, List.length_append, List.reverse_cons,
        List.append_assoc, List.singleton_append]

/-- A run of bytes that stay inside the open lexeme as they are. -/
theorem foldl_plain
    {inside : UInt8 → Prop} {mode : Text → Mode}
    (hstep : ∀ (s : Scan) (last : Text) (b : UInt8), inside b → s.mode = mode last →
      s.step b = s.moved 1 (mode (b :: last)))
    (t : Text)
    (ht : ∀ b ∈ t, inside b)
    (s : Scan)
    (last : Text)
    (hmode : s.mode = mode last) :
    t.foldl step s = s.moved t.length (mode (t.reverse ++ last)) := by
  have hrun := @foldl_open inside mode (fun b => [b]) hstep t ht s last hmode
  rwa [List.flatMap_singleton'] at hrun

/-- The machine after a lexeme of so many bytes. -/
def after (s : Scan) (width : Nat) (x : Lexeme) : Scan :=
  { s.moved width .between with tokens := s.tokens.push ⟨x, s.next⟩ }

end Scan

/-- Between lexemes the machine takes a text for one lexeme, which a space or a line feed closes if
nothing in the text did. -/
def ReadsAs (t : Text) (x : Lexeme) : Prop :=
  ∀ s : Scan, s.mode = .between →
    (t.foldl Scan.step s).close = s.after t.length x ∧
      ∀ b, b = 0x20 ∨ b = 0x0a → (t.foldl Scan.step s).step b = (s.after t.length x).begin b

end Machine

section Lexemes

theorem step_word
    (start : Position)
    (s : Scan)
    (last : Text)
    (b : UInt8)
    (hb : isWordPart b = true)
    (hmode : s.mode = .word start last) :
    s.step b = s.moved 1 (.word start (b :: last)) := by
  simp only [Scan.step, hmode, hb, if_true, Scan.advance_eq]

theorem begin_word
    {b : UInt8}
    (hb : isWordStart b = true)
    (s : Scan) :
    s.begin b = s.moved 1 (.word s.next [b]) := by
  rw [← Scan.advance_eq]
  simp only [Scan.begin, isWordStart, isGap, Numeral.isDigit, isSign] at *
  grind

/-- A word is taken for a word. -/
theorem readsAs_word
    {b : UInt8} {t : Text}
    (hb : isWordStart b = true)
    (ht : t.all isWordPart = true) :
    ReadsAs (b :: t) (.word (b :: t)) := by
  intro s hmode
  have hrun : (b :: t).foldl Scan.step s =
      s.moved (b :: t).length (.word s.next (t.reverse ++ [b])) := by
    have hbegin : s.step b = s.moved 1 (.word s.next [b]) := by
      rw [Scan.step, hmode]
      exact begin_word hb s
    have hinside := List.all_eq_true.mp ht
    rw [List.foldl_cons, hbegin, Scan.foldl_plain (step_word s.next) t hinside _ [b] rfl,
      Scan.moved_moved, List.length_cons, Nat.add_comm]
  have hclose : (s.moved (b :: t).length (.word s.next (t.reverse ++ [b]))).close =
      s.after (b :: t).length (.word (b :: t)) := by
    simp [Scan.close, Scan.moved, Scan.after, Scan.add]
  rw [hrun, ← hclose]
  refine ⟨rfl, ?_⟩
  rintro d (rfl | rfl) <;> rfl

theorem step_digit
    (start : Position)
    (s : Scan)
    (last : Text)
    (b : UInt8)
    (hb : Numeral.isDigit b = true)
    (hmode : s.mode = .number start false last) :
    s.step b = s.moved 1 (.number start false (b :: last)) := by
  have hmark : (b == 0x78 || b == 0x58) = false := by
    rw [Bool.or_eq_false_iff, beq_eq_false_iff_ne, beq_eq_false_iff_ne]
    constructor <;> (rintro rfl; cases hb)
  simp only [Scan.step, hmode, Scan.continuesNumber, isWordPart, hb, hmark, Bool.or_true,
    Bool.true_or, if_true, Bool.false_and, Bool.or_false, Scan.advance_eq]

theorem begin_digit
    {b : UInt8}
    (hb : Numeral.isDigit b = true)
    (s : Scan) :
    s.begin b = s.moved 1 (.number s.next false [b]) := by
  rw [← Scan.advance_eq]
  simp only [Scan.begin, isGap, Numeral.isDigit] at *
  grind

/-- A numeral of digits alone, after a minus or not, is no float. -/
theorem numberLexeme_digits
    {t : Text}
    (h : ∀ b ∈ t, b = 0x2d ∨ Numeral.isDigit b = true) :
    Scan.numberLexeme false t.reverse = .integer t := by
  have hany : (t.any fun b => b == 0x2e || isExponentMark b) = false := by
    rw [List.any_eq_false]
    intro b hb hpoint
    simp only [isExponentMark, Bool.or_eq_true, beq_iff_eq] at hpoint
    rcases h b hb with rfl | hdigit
    · revert hpoint
      decide
    · rcases hpoint with rfl | rfl | rfl <;> cases hdigit
  simp [Scan.numberLexeme, hany]

/-- Digits, after a minus or not, are taken for an integer. -/
theorem readsAs_digits
    {sign : Text} {d : UInt8} {t : Text}
    (hsign : sign = [] ∨ sign = [0x2d])
    (hd : Numeral.isDigit d = true)
    (ht : ∀ b ∈ t, Numeral.isDigit b = true) :
    ReadsAs (sign ++ d :: t) (.integer (sign ++ d :: t)) := by
  intro s hmode
  -- a minus alone does not open a number, its first digit does
  have hbegin : (sign ++ [d]).foldl Scan.step s =
      s.moved (sign ++ [d]).length (.number s.next false (d :: sign)) := by
    rcases hsign with rfl | rfl
    · rw [List.nil_append, List.foldl_cons, List.foldl_nil, Scan.step, hmode]
      exact begin_digit hd s
    · have hminus : s.step 0x2d = s.moved 1 (.sign 0x2d s.next) := by
        rw [Scan.step, hmode]
        rfl
      simp only [List.cons_append, List.nil_append, List.foldl_cons, List.foldl_nil, hminus]
      rw [Scan.step]
      simp [Scan.moved, hd, Scan.advance]
  have hsplit : sign ++ d :: t = (sign ++ [d]) ++ t := by simp
  have hrun : (sign ++ d :: t).foldl Scan.step s =
      s.moved (sign ++ d :: t).length (.number s.next false (sign ++ d :: t).reverse) := by
    have hreverse : (sign ++ d :: t).reverse = t.reverse ++ d :: sign := by
      rcases hsign with rfl | rfl <;> simp
    rw [hreverse, hsplit, List.foldl_append, hbegin,
      Scan.foldl_plain (step_digit s.next) t ht _ (d :: sign) rfl, Scan.moved_moved,
      ← List.length_append]
  have hlexeme : Scan.numberLexeme false (sign ++ d :: t).reverse = .integer (sign ++ d :: t) := by
    refine numberLexeme_digits ?_
    intro b hb
    rcases hsign with rfl | rfl <;> grind
  have hclose :
      (s.moved (sign ++ d :: t).length (.number s.next false (sign ++ d :: t).reverse)).close =
        s.after (sign ++ d :: t).length (.integer (sign ++ d :: t)) := by
    rw [← hlexeme]
    rfl
  rw [hrun, ← hclose]
  refine ⟨rfl, ?_⟩
  rintro b (rfl | rfl) <;> rfl

/-- The numeral of an integer is taken for an integer. -/
theorem readsAs_integer (n : Int64) :
    ReadsAs (Text.ofInt n.toInt) (.integer (Text.ofInt n.toInt)) := by
  have hdigits : ∀ m, ∃ d t, Text.ofNat m = d :: t ∧ Numeral.isDigit d = true ∧
      ∀ b ∈ t, Numeral.isDigit b = true := by
    intro m
    obtain ⟨d, t, heq⟩ : ∃ d t, Text.ofNat m = d :: t := by
      rcases Nat.eq_zero_or_pos m with rfl | hpos
      · exact ⟨_, _, rfl⟩
      · obtain ⟨d, t, -, -, heq⟩ := Text.head_ofNat hpos
        exact ⟨_, _, heq⟩
    have hall : ∀ b ∈ d :: t, Numeral.isDigit b = true := by
      intro b hb
      rw [← heq] at hb
      exact Text.isDigit_of_mem_ofNat hb
    exact ⟨d, t, heq, List.forall_mem_cons.mp hall⟩
  cases n.toInt with
  | ofNat m =>
      obtain ⟨d, t, heq, hd, ht⟩ := hdigits m
      rw [Text.ofInt, heq]
      exact readsAs_digits (Or.inl rfl) hd ht
  | negSucc m =>
      obtain ⟨d, t, heq, hd, ht⟩ := hdigits (m + 1)
      rw [Text.ofInt, heq]
      exact readsAs_digits (Or.inr rfl) hd ht

/-- A byte inside quotes is taken for itself. -/
theorem foldl_escaped
    (start : Position)
    (s : Scan)
    (last : Text)
    (b : UInt8)
    (hmode : s.mode = .string start last) :
    (Literal.escaped b).foldl Scan.step s =
      s.moved (Literal.escaped b).length (.string start (b :: last)) := by
  have hescape : s.step 0x5c = s.moved 1 (.escape start last) := by
    simp only [Scan.step, hmode]
    rfl
  rw [Literal.escaped]
  split
  · next hfeed =>
      rw [hfeed, List.foldl_cons, hescape]
      rfl
  · next hfeed =>
      split
      · next hmark =>
          rw [List.foldl_cons, hescape]
          rcases hmark with rfl | rfl <;> rfl
      · next hmark =>
          obtain ⟨hquote, hslash⟩ := not_or.mp hmark
          simp only [List.foldl_cons, List.foldl_nil, Scan.step, hmode]
          rw [if_neg (by simpa using hfeed), if_neg (by simpa using hquote),
            if_neg (by simpa using hslash)]
          rfl

/-- A quoted text is taken for what stands inside the quotes. -/
theorem readsAs_string (content : Text) :
    ReadsAs (0x22 :: (content.flatMap Literal.escaped ++ [0x22])) (.string content) := by
  intro s hmode
  have hopen : s.step 0x22 = s.moved 1 (.string s.next []) := by
    rw [Scan.step, hmode]
    rfl
  have hrun : (0x22 :: (content.flatMap Literal.escaped ++ [0x22])).foldl Scan.step s =
      s.after (0x22 :: (content.flatMap Literal.escaped ++ [0x22])).length (.string content) := by
    rw [List.foldl_cons, hopen, List.foldl_append,
      Scan.foldl_open (fun s last b (_ : True) => foldl_escaped _ s last b) content
        (fun _ _ => trivial) _ [] rfl]
    simp [Scan.moved, Scan.step, Scan.after, Scan.add, Scan.advance]
    omega
  rw [hrun]
  exact ⟨rfl, fun b _ => rfl⟩

/-- The text of a literal is taken for its token. -/
theorem Literal.readsAs (literal : Literal) : ReadsAs literal.text literal.lexeme := by
  cases literal with
  | int n =>
      exact readsAs_integer n
  | bool b =>
      cases b with
      | false =>
          exact readsAs_word rfl rfl
      | true =>
          exact readsAs_word rfl rfl
  | null =>
      exact readsAs_word rfl rfl
  | string s =>
      exact readsAs_string s

/-- A mnemonic is taken for a word. -/
theorem readsAs_mnemonic (op : Opcode) : ReadsAs op.mnemonic (.word op.mnemonic) := by
  have hword : ∃ b t, op.mnemonic = b :: t ∧ isWordStart b = true ∧ t.all isWordPart = true := by
    cases op <;> exact ⟨_, _, rfl, rfl, rfl⟩
  obtain ⟨b, t, heq, hb, ht⟩ := hword
  rw [heq]
  exact readsAs_word hb ht

end Lexemes

section Printed

/-- The machine before the end of a line with a number, which it began between lexemes. -/
def Line.done (k : Nat) (l : Line) (s : Scan) : Scan :=
  ⟨⟨k, l.text.length + 1⟩, .between, s.tokens ++ (l.tokens k).toArray, s.faults⟩

/-- The text of a line is taken for its tokens. -/
theorem Line.foldl_text
    (k : Nat)
    (l : Line)
    {s : Scan}
    (hmode : s.mode = .between)
    (hnext : s.next = ⟨k, 1⟩) :
    (l.text.foldl Scan.step s).close = l.done k s ∧
      (l.text.foldl Scan.step s).step 0x0a = (l.done k s).begin 0x0a := by
  obtain ⟨hclose, hstep⟩ := readsAs_mnemonic l.op s hmode
  cases hoperand : l.operand? with
  | none =>
      have htext : l.text = l.op.mnemonic := by simp [text, hoperand]
      have hdone : l.done k s = s.after l.op.mnemonic.length (.word l.op.mnemonic) := by
        simp [done, tokens, htext, hoperand, Scan.after, Scan.moved, hnext, Nat.add_comm]
      rw [htext, hdone]
      exact ⟨hclose, hstep 0x0a (Or.inr rfl)⟩
  | some x =>
      have htext : l.text = l.op.mnemonic ++ 0x20 :: x.text := by simp [text, hoperand]
      -- the space behind the mnemonic closes it
      have hspace : (l.op.mnemonic.foldl Scan.step s).step 0x20 =
          (s.after l.op.mnemonic.length (.word l.op.mnemonic)).moved 1 .between :=
        hstep 0x20 (Or.inl rfl)
      have hdone : l.done k s =
          ((s.after l.op.mnemonic.length (.word l.op.mnemonic)).moved 1 .between).after
            x.text.length x.lexeme := by
        simp only [done, tokens, operandStart, htext, hoperand, Scan.after, Scan.moved, hnext,
          Option.toList_some, List.map_cons, List.map_nil, List.length_append, List.length_cons]
        congr 2
        omega
      obtain ⟨hclose, hstep⟩ := x.readsAs
        ((s.after l.op.mnemonic.length (.word l.op.mnemonic)).moved 1 .between) rfl
      rw [htext, hdone, List.foldl_append, List.foldl_cons, hspace]
      exact ⟨hclose, hstep 0x0a (Or.inr rfl)⟩

theorem printed_append (ls ms : List Line) : printed (ls ++ ms) = printed ls ++ printed ms :=
  List.flatMap_append

theorem lineTokens_append (k : Nat) (ls ms : List Line) :
    lineTokens k (ls ++ ms) = lineTokens k ls ++ lineTokens (k + ls.length) ms := by
  induction ls generalizing k with
  | nil =>
      rfl
  | cons l ls ih =>
      simp [lineTokens, ih, Nat.add_assoc, Nat.add_comm 1]

/-- Printed lines are taken for their tokens. -/
theorem foldl_printed
    (k : Nat)
    (ls : List Line)
    {s : Scan}
    (hmode : s.mode = .between)
    (hnext : s.next = ⟨k, 1⟩) :
    (printed ls).foldl Scan.step s =
      ⟨⟨k + ls.length, 1⟩, .between, s.tokens ++ (lineTokens k ls).toArray, s.faults⟩ := by
  induction ls generalizing k s with
  | nil =>
      simp [printed, lineTokens, ← hmode, ← hnext]
  | cons l ls ih =>
      have hline : (l.text ++ [0x0a]).foldl Scan.step s = (l.done k s).begin 0x0a := by
        rw [List.foldl_append]
        exact (l.foldl_text k hmode hnext).2
      rw [printed, List.flatMap_cons, List.foldl_append, hline, ← printed, ih (k + 1) rfl rfl]
      simp [Line.done, Scan.begin, Scan.add, isGap, lineTokens, Line.lineEnd, Nat.add_assoc,
        Nat.add_comm 1]

theorem back?_lineTokens
    (k : Nat)
    (ls : List Line)
    {t : Token}
    (h : (lineTokens k ls).toArray.back? = some t) :
    t.lexeme = .endOfLine := by
  rcases List.eq_nil_or_concat ls with rfl | ⟨front, l, rfl⟩
  · simp [lineTokens] at h
  · rw [List.concat_eq_append, lineTokens_append] at h
    simp [lineTokens, Line.lineEnd] at h
    rw [← h]

/-- No token of a line but its end ends it. -/
theorem Line.lexeme_ne_endOfLine
    {k : Nat} {l : Line} {t : Token}
    (h : t ∈ l.tokens k) :
    t.lexeme ≠ .endOfLine := by
  have hliteral : ∀ x : Literal, x.lexeme ≠ .endOfLine := by
    rintro (n | (_ | _) | _ | t) <;> nofun
  rcases List.mem_cons.mp h with rfl | h
  · nofun
  · obtain ⟨x, -, rfl⟩ := List.mem_map.mp h
    exact hliteral x

theorem back?_tokens (k : Nat) (l : Line) (ts : Array Token) :
    ∃ t ∈ l.tokens k, (ts ++ (l.tokens k).toArray).back? = some t := by
  have hne : l.tokens k ≠ [] := nofun
  refine ⟨(l.tokens k).getLast hne, List.getLast_mem hne, ?_⟩
  simp [List.getLast?_eq_some_getLast hne]

/-- Between lexemes and behind a line, the end of the text adds the end of the file. -/
theorem finish_closed
    {s : Scan}
    (hmode : s.mode = .between)
    (hback : ∀ t, s.tokens.back? = some t → t.lexeme = .endOfLine) :
    s.finish = s.add .endOfFile s.next := by
  have hclose : s.close = s := by
    obtain ⟨next, mode, tokens, faults⟩ := s
    cases hmode
    rfl
  rw [Scan.finish, hclose]
  cases hlast : s.tokens.back? with
  | none =>
      rfl
  | some t =>
      simp [hback t hlast]

/-- Inside a line, the end of the text adds the end of the line and the end of the file. -/
theorem finish_open
    {s closed : Scan} {t : Token}
    (hclose : s.close = closed)
    (hback : closed.tokens.back? = some t)
    (hne : t.lexeme ≠ .endOfLine) :
    s.finish = (closed.add .endOfLine closed.next).add .endOfFile closed.next := by
  simp only [Scan.finish, hclose, hback, hne, if_false]
  rfl

/-- The tokens of printed lines, whether a line feed stands behind the last one or not. -/
theorem tokens_printed
    {ls : List Line} {source : Text}
    (h : source = printed ls ∨ source ++ [0x0a] = printed ls) :
    ∃ p, tokens source = .ok (lineTokens 1 ls ++ [⟨.endOfFile, p⟩]) := by
  rcases h with rfl | h
  · have hrun := foldl_printed 1 ls (s := Scan.init) rfl rfl
    refine ⟨⟨1 + ls.length, 1⟩, ?_⟩
    have hback : ∀ t, (#[] ++ (lineTokens 1 ls).toArray).back? = some t → t.lexeme = .endOfLine :=
      fun t ht => back?_lineTokens 1 ls (by simpa using ht)
    rw [tokens, scan, hrun, finish_closed rfl hback]
    simp [Scan.add, Scan.init]
  -- without the last line feed the end of the text closes the last line
  · rcases List.eq_nil_or_concat ls with rfl | ⟨front, l, rfl⟩
    · simp [printed] at h
    · rw [List.concat_eq_append] at h ⊢
      have hsource : source = printed front ++ l.text := by
        have hlast : printed [l] = l.text ++ [0x0a] := List.flatMap_singleton ..
        rw [printed_append, hlast, ← List.append_assoc] at h
        exact List.append_cancel_right h
      have hclose : (source.foldl Scan.step .init).close =
          l.done (1 + front.length) ((printed front).foldl Scan.step .init) := by
        rw [hsource, List.foldl_append, foldl_printed 1 front rfl rfl]
        exact (l.foldl_text (1 + front.length) rfl rfl).1
      obtain ⟨t, ht, hback⟩ := back?_tokens (1 + front.length) l _
      refine ⟨⟨1 + front.length, l.text.length + 1⟩, ?_⟩
      rw [tokens, scan, finish_open hclose hback (l.lexeme_ne_endOfLine ht),
        foldl_printed 1 front rfl rfl, lineTokens_append]
      simp [Scan.add, Scan.init, Line.done, lineTokens, Line.lineEnd]

end Printed

end Assembly
end StackNative

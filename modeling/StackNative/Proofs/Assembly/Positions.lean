import Mathlib.Data.List.DropRight
import Mathlib.Data.List.Forall2
import StackNative.Assembly.Token

/-!
# Where tokens and faults stand

**Input.**  Any bytes, read by `scan`.

**Invariant.**  What the machine has read is a part that is done with and the bytes of the
lexeme that is open; each token and each fault stands at a place of that text, and the
positions count the line feeds before it.

**Results.**
* `Position.behind`: the true position behind some bytes.
* `Scan.step_counts`, `Scan.step_misses`, `marked_next`: only a line feed that an escape
  takes is not counted; a source without faults has none of them.
* `Span.At`, `Scan.Traced`, `Scan.Traced.step`: where each lexeme is written.
* `scan_positions`: every token and every fault is written where its position says, unless
  a line feed before it was taken by an escape; tokens do not overlap, and are in order.
* `escapedLineFeed_misplaced`: a source where a position is wrong.
-/

namespace StackNative
namespace Assembly

section Counting

/-- The position one byte further. -/
def Position.after (p : Position) (b : UInt8) : Position :=
  if b = 0x0a then ⟨p.line + 1, 1⟩ else ⟨p.line, p.column + 1⟩

/-- The position of a byte that stands behind others in a source. -/
def Position.behind (before : Text) : Position :=
  ⟨1 + before.count 0x0a, 1 + (before.rtakeWhile (· != 0x0a)).length⟩

theorem Position.behind_concat (t : Text) (b : UInt8) :
    behind (t ++ [b]) = (behind t).after b := by
  by_cases hb : b = 0x0a
  · simp [behind, after, hb, Nat.add_assoc]
  · have htake : (t ++ [b]).rtakeWhile (· != 0x0a) = t.rtakeWhile (· != 0x0a) ++ [b] :=
      List.rtakeWhile_concat_pos _ _ _ (by simpa using hb)
    have hcount : (t ++ [b]).count 0x0a = t.count 0x0a := by
      simp [List.count_append, hb]
    simp [behind, after, htake, hcount, hb, Nat.add_assoc]

/-- A line feed that was taken by an escape. -/
def LexFault.isMissed (f : LexFault) : Bool := f == .invalidEscape 0x0a

namespace Scan

variable (s : Scan) (b : UInt8)

/-- How many line feeds were taken by an escape. -/
def missed : Nat := s.faults.countP fun f => f.2.isMissed

/-- The next byte belongs to an escape. -/
def escaping : Bool :=
  match s.mode with
  | .escape _ _ => true
  | _ => false

theorem missed_fault (start : Position) (f : LexFault) :
    (s.fault start f).missed = s.missed + if f.isMissed then 1 else 0 := by
  simp [missed, fault, Array.countP_push]

@[simp] theorem next_close : s.close.next = s.next := by
  unfold close
  split <;> rfl

@[simp] theorem missed_close : s.close.missed = s.missed := by
  have hfault : ∀ start f, f.isMissed = false →
      ({ s.fault start f with mode := Mode.between } : Scan).missed = s.missed := by
    intro start f hf
    exact (s.missed_fault start f).trans (by simp [hf])
  unfold close
  split
  case h_3 c start _ => exact hfault start (.unexpectedCharacter c) rfl
  case h_6 start last _ => exact hfault start .unterminatedString rfl
  case h_7 start last _ => exact hfault start .unterminatedString rfl
  all_goals rfl

/-- Between lexemes every byte is counted. -/
theorem begin_counts :
    (s.begin b).next = s.next.after b ∧ (s.begin b).missed = s.missed := by
  have hline : ∀ c : UInt8, c ≠ 0x0a → s.next.after c = ⟨s.next.line, s.next.column + 1⟩ := by
    intro c hc
    simp [Position.after, hc]
  unfold begin
  split
  case isTrue hgap =>
    have hb : b ≠ 0x0a := by
      rintro rfl
      exact absurd hgap (by decide)
    exact ⟨(hline b hb).symm, rfl⟩
  split
  case isTrue hfeed =>
    have hb : b = 0x0a := by simpa using hfeed
    exact ⟨by simp [Position.after, hb], rfl⟩
  case isFalse hfeed =>
    have hb : b ≠ 0x0a := by simpa using hfeed
    rw [hline b hb]
    split
    · exact ⟨rfl, rfl⟩
    split
    · exact ⟨rfl, rfl⟩
    split
    · exact ⟨rfl, rfl⟩
    split
    · exact ⟨rfl, rfl⟩
    split
    · exact ⟨rfl, rfl⟩
    · exact ⟨rfl, s.missed_fault s.next (.unexpectedCharacter b)⟩

theorem close_begin_counts :
    (s.close.begin b).next = s.next.after b ∧ (s.close.begin b).missed = s.missed := by
  simpa using s.close.begin_counts b

/-- A byte is counted, unless it is a line feed and belongs to an escape. -/
theorem step_counts
    (h : b = 0x0a → s.escaping = false) :
    (s.step b).next = s.next.after b ∧ (s.step b).missed = s.missed := by
  have hline : ∀ {c : UInt8}, c ≠ 0x0a → ∀ mode,
      (s.advance mode).next = s.next.after c ∧ (s.advance mode).missed = s.missed := by
    intro c hc mode
    simp [advance, Position.after, hc, missed]
  unfold step
  split
  case h_1 _ => exact s.begin_counts b
  case h_2 _ =>
    split
    · exact s.close_begin_counts b
    case isFalse hb => exact hline (by simpa using hb) _
  case h_3 c start _ =>
    split
    case isTrue hdigit =>
      refine hline ?_ _
      rintro rfl
      exact absurd hdigit (by decide)
    · exact s.close_begin_counts b
  case h_4 start last _ =>
    split
    case isTrue hpart =>
      refine hline ?_ _
      rintro rfl
      exact absurd hpart (by decide)
    · exact s.close_begin_counts b
  case h_5 start hex last _ =>
    split
    case isTrue hpart =>
      refine hline ?_ _
      rintro rfl
      simp [continuesNumber, isWordPart, isWordStart, isSign, Numeral.isDigit] at hpart
    · exact s.close_begin_counts b
  case h_6 start last _ =>
    split
    · exact s.close_begin_counts b
    case isFalse hb =>
      have hb : b ≠ 0x0a := by simpa using hb
      split
      · exact hline hb .between
      split
      · exact hline hb _
      · exact hline hb _
  case h_7 start last hmode =>
    have hb : b ≠ 0x0a := fun hb => by simpa [escaping, hmode] using h hb
    split
    · exact hline hb _
    · have hfault := s.missed_fault start (.invalidEscape b)
      have hother : (LexFault.invalidEscape b).isMissed = false := by
        simpa [LexFault.isMissed] using hb
      exact ⟨(hline hb .between).1, hfault.trans (by simp [hother])⟩

/-- A line feed that belongs to an escape is counted as a byte of its line. -/
theorem step_misses
    (h : s.escaping = true) :
    (s.step 0x0a).next = ⟨s.next.line, s.next.column + 1⟩ ∧
      (s.step 0x0a).missed = s.missed + 1 := by
  unfold escaping at h
  split at h
  case h_1 start last hmode =>
    have hstep : s.step 0x0a =
        (s.fault start (.invalidEscape 0x0a)).advance (.string start last) := by
      simp [step, hmode, unescape?]
    rw [hstep]
    exact ⟨rfl, s.missed_fault start (.invalidEscape 0x0a)⟩
  case h_2 _ => contradiction

/-- The end of the text takes no line feed. -/
theorem missed_finish : s.finish.missed = s.missed := by
  have hclose := s.missed_close
  unfold finish
  dsimp only
  split
  · exact hclose
  split
  · exact hclose
  · exact hclose

end Scan

/-- How many line feeds of a source are taken by an escape. -/
def missed (source : Text) : Nat := (scan source).missed

theorem missed_eq (source : Text) : missed source = (source.foldl Scan.step .init).missed :=
  Scan.missed_finish _

/-- A position counts the line feeds of a text but for those that an escape takes, so it is
the true position exactly if there are none of them. -/
structure Position.Marks (p : Position) (before : Text) : Prop where
  line : p.line + missed before = (behind before).line
  eq_behind_iff : p = behind before ↔ missed before = 0

theorem Position.Marks.of_line
    {p : Position}
    {before : Text}
    (hline : p.line + missed before = (behind before).line)
    (hbehind : missed before = 0 → p = behind before) :
    p.Marks before := by
  refine ⟨hline, fun h => ?_, hbehind⟩
  rw [h] at hline
  omega

/-- The position of the next byte counts what was read. -/
theorem marked_next (t : Text) : (t.foldl Scan.step .init).next.Marks t := by
  induction t using List.reverseRecOn with
  | nil => exact .of_line rfl fun _ => rfl
  | append_singleton t b ih =>
    set s := t.foldl Scan.step .init with hs
    have hfold : (t ++ [b]).foldl Scan.step .init = s.step b := by
      rw [List.foldl_append]
      rfl
    have hmissed : missed t = s.missed := missed_eq t
    have hmissed' : missed (t ++ [b]) = (s.step b).missed := by rw [missed_eq, hfold]
    rw [hfold]
    by_cases h : b = 0x0a ∧ s.escaping = true
    · obtain ⟨rfl, hescaping⟩ := h
      obtain ⟨hnext, hcount⟩ := s.step_misses hescaping
      have hline := ih.line
      refine .of_line ?_ fun h => ?_
      · rw [hnext, hmissed', hcount, Position.behind_concat, Position.after, if_pos rfl]
        dsimp only
        omega
      · omega
    · have hcounted : b = 0x0a → s.escaping = false := by
        intro hb
        simpa [hb] using h
      obtain ⟨hnext, hcount⟩ := s.step_counts b hcounted
      rw [hcount, ← hmissed] at hmissed'
      rw [hnext]
      refine .of_line ?_ fun h => ?_
      · have hline := ih.line
        rw [hmissed', Position.behind_concat]
        by_cases hb : b = 0x0a
        · simp only [Position.after, if_pos hb]
          omega
        · simpa only [Position.after, if_neg hb] using hline
      · rw [Position.behind_concat, ih.eq_behind_iff.mpr (by omega)]

end Counting

section Spelling

/-- What stands behind the opening quote of a string, and the content that it gives.  An
escape that means nothing gives nothing. -/
inductive Quotes : Text → Text → Prop where
  | nil : Quotes [] []
  | plain {body content : Text} {b : UInt8} :
      Quotes body content → b ≠ 0x0a → b ≠ 0x22 → b ≠ 0x5c →
      Quotes (body ++ [b]) (content ++ [b])
  | escaped {body content : Text} {b c : UInt8} :
      Quotes body content → unescape? b = some c →
      Quotes (body ++ [0x5c, b]) (content ++ [c])
  | meaningless {body content : Text} {b : UInt8} :
      Quotes body content → unescape? b = none →
      Quotes (body ++ [0x5c, b]) content

/-- A letter or an underscore, then letters, underscores and digits. -/
def IsWord (raw : Text) : Prop :=
  ∃ b rest, raw = b :: rest ∧ isWordStart b = true ∧ ∀ c ∈ rest, isWordPart c = true

/-- A digit comes first, or second behind a sign. -/
def BeginsNumber (raw : Text) : Prop :=
  (∃ b rest, raw = b :: rest ∧ Numeral.isDigit b = true) ∨
    ∃ sign b rest, raw = sign :: b :: rest ∧ isSign sign = true ∧ Numeral.isDigit b = true

/-- The bytes that a lexeme is written with.  The end of the file is not written. -/
def Lexeme.Spelled (x : Lexeme) (raw : Text) : Prop :=
  match x with
  | .endOfFile => False
  | .endOfLine => raw = [0x0a]
  | .word t => raw = t ∧ IsWord t
  | .integer t | .float t => raw = t ∧ BeginsNumber t
  | .string content => ∃ body, raw = 0x22 :: (body ++ [0x22]) ∧ Quotes body content

/-- The bytes that a fault is about, from the beginning of the lexeme that they are in. -/
def LexFault.Spelled (f : LexFault) (raw : Text) : Prop :=
  match f with
  | .unexpectedCharacter b => raw = [b]
  | .unterminatedString =>
    ∃ body content, Quotes body content ∧ (raw = 0x22 :: body ∨ raw = 0x22 :: (body ++ [0x5c]))
  | .invalidEscape b =>
    ∃ body content, Quotes body content ∧ unescape? b = none ∧ raw = 0x22 :: (body ++ [0x5c, b])

theorem IsWord.concat
    {raw : Text}
    (h : IsWord raw)
    {b : UInt8}
    (hb : isWordPart b = true) :
    IsWord (raw ++ [b]) := by
  obtain ⟨first, rest, rfl, hfirst, hrest⟩ := h
  refine ⟨first, rest ++ [b], rfl, hfirst, fun c hc => ?_⟩
  rcases List.mem_append.mp hc with hc | hc
  · exact hrest c hc
  · rwa [List.mem_singleton.mp hc]

theorem BeginsNumber.append
    {raw : Text}
    (h : BeginsNumber raw)
    (more : Text) :
    BeginsNumber (raw ++ more) := by
  rcases h with ⟨b, rest, rfl, hb⟩ | ⟨sign, b, rest, rfl, hsign, hb⟩
  · exact .inl ⟨b, rest ++ more, rfl, hb⟩
  · exact .inr ⟨sign, b, rest ++ more, rfl, hsign, hb⟩

theorem Lexeme.Spelled.ne_nil
    {x : Lexeme}
    {raw : Text}
    (h : x.Spelled raw) :
    raw ≠ [] := by
  rintro rfl
  cases x with
  | endOfFile => exact h
  | endOfLine => exact absurd h (by simp [Spelled])
  | word t =>
    obtain ⟨ht, b, rest, rfl, _⟩ := h
    contradiction
  | integer t =>
    obtain ⟨rfl, h⟩ := h
    simp [BeginsNumber] at h
  | float t =>
    obtain ⟨rfl, h⟩ := h
    simp [BeginsNumber] at h
  | string content =>
    obtain ⟨body, h, _⟩ := h
    contradiction

/-- The token of a number is written as it was read. -/
theorem spelled_numberLexeme
    {last : Text}
    (h : BeginsNumber last.reverse)
    (hex : Bool) :
    (Scan.numberLexeme hex last).Spelled last.reverse := by
  unfold Scan.numberLexeme
  dsimp only
  split <;> exact ⟨rfl, h⟩

end Spelling

section Places

/-- A place in a source: where it begins, and the bytes in it. -/
structure Span where
  start : Nat
  raw : Text

/-- The first byte behind a place. -/
def Span.stop (x : Span) : Nat := x.start + x.raw.length

/-- A source has those bytes there, a position marks where they begin, and they spell what
they should. -/
structure Span.At (source : Text) (x : Span) (p : Position) (spelled : Text → Prop) : Prop where
  spelled : spelled x.raw
  place : ∃ before after,
    source = before ++ (x.raw ++ after) ∧ before.length = x.start ∧ p.Marks before

/-- A token is written at a place. -/
def Token.At (source : Text) (x : Span) (t : Token) : Prop :=
  x.At source t.start t.lexeme.Spelled

/-- A fault is about what is written at a place. -/
def LexFault.At (source : Text) (x : Span) (f : Position × LexFault) : Prop :=
  x.At source f.1 f.2.Spelled

/-- Items have places that are in order, each beginning where the ones before it have
stopped, and none of them stops behind a limit. -/
def Placed (holds : Span → α → Prop) (stop : Span → Nat) (limit : Nat) (items : List α) : Prop :=
  ∃ spans, List.Forall₂ holds spans items ∧ spans.Pairwise (fun x y => stop x ≤ y.start) ∧
    ∀ x ∈ spans, stop x ≤ limit

theorem Span.At.append
    {source : Text}
    {x : Span}
    {p : Position}
    {spelled : Text → Prop}
    (h : x.At source p spelled)
    (more : Text) :
    x.At (source ++ more) p spelled := by
  obtain ⟨before, after, rfl, hstart, hp⟩ := h.place
  exact ⟨h.spelled, before, after ++ more, by simp, hstart, hp⟩

namespace Placed

variable {holds : Span → α → Prop} {stop : Span → Nat} {limit limit' : Nat} {items : List α}

theorem mono
    {holds' : Span → α → Prop}
    (h : Placed holds stop limit items)
    (himp : ∀ x a, holds x a → holds' x a)
    (hle : limit ≤ limit') :
    Placed holds' stop limit' items := by
  obtain ⟨spans, hspans, hordered, hlimit⟩ := h
  exact ⟨spans, hspans.imp himp, hordered, fun x hx => (hlimit x hx).trans hle⟩

theorem concat
    (h : Placed holds stop limit items)
    {x : Span}
    {a : α}
    (hx : holds x a)
    (hstart : limit ≤ x.start)
    (hstop : stop x ≤ limit')
    (hle : limit ≤ limit') :
    Placed holds stop limit' (items ++ [a]) := by
  obtain ⟨spans, hspans, hordered, hlimit⟩ := h
  refine ⟨spans ++ [x], List.rel_append hspans (.cons hx .nil), ?_, fun y hy => ?_⟩
  · refine List.pairwise_append.mpr ⟨hordered, List.pairwise_singleton _ _, ?_⟩
    intro y hy z hz
    rw [List.mem_singleton.mp hz]
    exact (hlimit y hy).trans hstart
  · rcases List.mem_append.mp hy with hy | hy
    · exact (hlimit y hy).trans hle
    · rwa [List.mem_singleton.mp hy]

/-- Every item has a place. -/
theorem exists_of_mem
    (h : Placed holds stop limit items)
    {a : α}
    (ha : a ∈ items) :
    ∃ x, holds x a := by
  obtain ⟨spans, hspans, -⟩ := h
  induction hspans with
  | nil => contradiction
  | cons hx _ ih =>
    rcases List.mem_cons.mp ha with rfl | ha
    · exact ⟨_, hx⟩
    · exact ih ha

end Placed

end Places

section Tracing

/-- What is open begins behind `before`, and `raw` was read of it. -/
def Mode.Opened (before raw : Text) : Mode → Prop
  | .between | .comment => raw = []
  | .sign b start => start.Marks before ∧ raw = [b] ∧ isSign b = true
  | .word start last => start.Marks before ∧ raw = last.reverse ∧ IsWord raw
  | .number start _ last => start.Marks before ∧ raw = last.reverse ∧ BeginsNumber raw
  | .string start last =>
    start.Marks before ∧ ∃ body, raw = 0x22 :: body ∧ Quotes body last.reverse
  | .escape start last =>
    start.Marks before ∧ ∃ body, raw = 0x22 :: (body ++ [0x5c]) ∧ Quotes body last.reverse

/-- The text read so far is `before` and the open lexeme `raw`; tokens do not overlap, and
faults begin in order. -/
structure Scan.Traced (before raw : Text) (s : Scan) : Prop where
  opened : s.mode.Opened before raw
  tokens : Placed (Token.At (before ++ raw)) Span.stop before.length s.tokens.toList
  faults : Placed (LexFault.At (before ++ raw)) Span.start before.length s.faults.toList

namespace Scan.Traced

variable {before raw : Text} {s : Scan} {start : Position}

theorem tokens_append
    (h : s.Traced before raw)
    (more : Text)
    {limit : Nat}
    (hle : before.length ≤ limit) :
    Placed (Token.At (before ++ raw ++ more)) Span.stop limit s.tokens.toList :=
  h.tokens.mono (fun _ _ hx => hx.append more) hle

theorem faults_append
    (h : s.Traced before raw)
    (more : Text)
    {limit : Nat}
    (hle : before.length ≤ limit) :
    Placed (LexFault.At (before ++ raw ++ more)) Span.start limit s.faults.toList :=
  h.faults.mono (fun _ _ hx => hx.append more) hle

/-- The open lexeme takes one more byte. -/
theorem advance
    (h : s.Traced before raw)
    {b : UInt8}
    {mode : Mode}
    (hmode : mode.Opened before (raw ++ [b])) :
    (s.advance mode).Traced before (raw ++ [b]) := by
  refine ⟨hmode, ?_, ?_⟩
  · simpa [Scan.advance] using h.tokens_append [b] le_rfl
  · simpa [Scan.advance] using h.faults_append [b] le_rfl

/-- A token is the open lexeme with a few more bytes. -/
theorem tokens_push
    (h : s.Traced before raw)
    (hstart : start.Marks before)
    {more : Text}
    {x : Lexeme}
    (hx : x.Spelled (raw ++ more)) :
    Placed (Token.At (before ++ raw ++ more)) Span.stop (before ++ raw ++ more).length
      (s.add x start).tokens.toList := by
  have hplace : Token.At (before ++ raw ++ more) ⟨before.length, raw ++ more⟩ ⟨x, start⟩ :=
    ⟨hx, before, [], by simp, rfl, hstart⟩
  rw [Scan.add, Array.toList_push]
  exact (h.tokens_append more le_rfl).concat hplace le_rfl (by simp [Span.stop]) (by simp)

/-- A fault is about the open lexeme with a few more bytes. -/
theorem faults_push
    (h : s.Traced before raw)
    (hstart : start.Marks before)
    {more : Text}
    {f : LexFault}
    (hf : f.Spelled (raw ++ more)) :
    Placed (LexFault.At (before ++ raw ++ more)) Span.start before.length
      (s.fault start f).faults.toList := by
  have hplace : LexFault.At (before ++ raw ++ more) ⟨before.length, raw ++ more⟩ (start, f) :=
    ⟨hf, before, [], by simp, rfl, hstart⟩
  rw [Scan.fault, Array.toList_push]
  exact (h.faults_append more le_rfl).concat hplace le_rfl le_rfl le_rfl

/-- What is open is closed, with a few more bytes, as a token. -/
theorem close_token
    (h : s.Traced before raw)
    (hstart : start.Marks before)
    (more : Text)
    {x : Lexeme}
    (hx : x.Spelled (raw ++ more))
    {s' : Scan}
    (hmode : s'.mode = .between)
    (htokens : s'.tokens = s.tokens.push ⟨x, start⟩)
    (hfaults : s'.faults = s.faults) :
    s'.Traced (before ++ raw ++ more) [] := by
  refine ⟨by rw [hmode]; rfl, ?_, ?_⟩
  · rw [htokens]
    simpa [Scan.add] using h.tokens_push hstart hx
  · rw [hfaults]
    simpa using h.faults_append more (by simp)

/-- What is open is closed, with a few more bytes, by a fault. -/
theorem close_fault
    (h : s.Traced before raw)
    (hstart : start.Marks before)
    (more : Text)
    {f : LexFault}
    (hf : f.Spelled (raw ++ more))
    {s' : Scan}
    (hmode : s'.mode = .between)
    (htokens : s'.tokens = s.tokens)
    (hfaults : s'.faults = s.faults.push (start, f)) :
    s'.Traced (before ++ raw ++ more) [] := by
  refine ⟨by rw [hmode]; rfl, ?_, ?_⟩
  · rw [htokens]
    simpa using h.tokens_append more (by simp)
  · have hle : before.length ≤ (before ++ raw ++ more).length := by simp
    rw [hfaults]
    simpa [Scan.fault] using (h.faults_push hstart hf).mono (fun _ _ hx => hx) hle

/-- A byte outside lexemes is passed over. -/
theorem skip
    (h : s.Traced before [])
    (b : UInt8)
    {mode : Mode}
    (hmode : mode.Opened (before ++ [b]) []) :
    (s.advance mode).Traced (before ++ [b]) [] := by
  refine ⟨hmode, ?_, ?_⟩
  · simpa [Scan.advance] using h.tokens_append [b] (by simp)
  · simpa [Scan.advance] using h.faults_append [b] (by simp)

theorem close
    (h : s.Traced before raw) :
    s.close.Traced (before ++ raw) [] := by
  have hopened := h.opened
  rw [← List.append_nil (before ++ raw)]
  unfold Scan.close
  split
  case h_1 hmode =>
    obtain rfl : raw = [] := by simpa [hmode, Mode.Opened] using hopened
    exact ⟨rfl, by simpa using h.tokens, by simpa using h.faults⟩
  case h_2 hmode =>
    obtain rfl : raw = [] := by simpa [hmode, Mode.Opened] using hopened
    exact ⟨rfl, by simpa using h.tokens, by simpa using h.faults⟩
  case h_3 c start hmode =>
    rw [hmode] at hopened
    obtain ⟨hstart, rfl, _⟩ := hopened
    exact h.close_fault hstart [] (f := .unexpectedCharacter c) rfl rfl rfl rfl
  case h_4 start last hmode =>
    rw [hmode] at hopened
    obtain ⟨hstart, rfl, hword⟩ := hopened
    exact h.close_token hstart [] (x := .word last.reverse) ⟨by simp, hword⟩ rfl rfl rfl
  case h_5 start hex last hmode =>
    rw [hmode] at hopened
    obtain ⟨hstart, rfl, hnumber⟩ := hopened
    have hspelled := spelled_numberLexeme hnumber hex
    exact h.close_token hstart [] (by simpa using hspelled) rfl rfl rfl
  case h_6 start last hmode =>
    rw [hmode] at hopened
    obtain ⟨hstart, body, rfl, hbody⟩ := hopened
    exact h.close_fault hstart [] (f := .unterminatedString)
      ⟨body, last.reverse, hbody, .inl (by simp)⟩ rfl rfl rfl
  case h_7 start last hmode =>
    rw [hmode] at hopened
    obtain ⟨hstart, body, rfl, hbody⟩ := hopened
    exact h.close_fault hstart [] (f := .unterminatedString)
      ⟨body, last.reverse, hbody, .inr (by simp)⟩ rfl rfl rfl

end Scan.Traced

/-- The machine has read a text. -/
def Scan.Follows (s : Scan) (text : Text) : Prop :=
  ∃ before raw, text = before ++ raw ∧ s.Traced before raw

namespace Scan.Traced

variable {before raw : Text} {s : Scan}

theorem begin
    (h : s.Traced before [])
    (hnext : s.next.Marks before)
    (b : UInt8) :
    (s.begin b).Follows (before ++ [b]) := by
  have hfollows : ∀ {mode : Mode}, mode.Opened before [b] →
      (s.advance mode).Follows (before ++ [b]) :=
    fun hmode => ⟨before, [b], rfl, h.advance hmode⟩
  unfold Scan.begin
  split
  · exact ⟨before ++ [b], [], by simp, h.skip b rfl⟩
  split
  case isTrue hb =>
    obtain rfl : b = 0x0a := by simpa using hb
    refine ⟨before ++ [] ++ [0x0a], [], by simp, ?_⟩
    exact h.close_token hnext [0x0a] (x := .endOfLine) rfl rfl rfl rfl
  split
  · exact ⟨before ++ [b], [], by simp, h.skip b rfl⟩
  split
  case isTrue hb =>
    obtain rfl : b = 0x22 := by simpa using hb
    exact hfollows ⟨hnext, [], rfl, .nil⟩
  split
  case isTrue hb => exact hfollows ⟨hnext, rfl, .inl ⟨b, [], rfl, hb⟩⟩
  split
  case isTrue hb => exact hfollows ⟨hnext, rfl, hb⟩
  split
  case isTrue hb => exact hfollows ⟨hnext, rfl, b, [], rfl, hb, by simp⟩
  · refine ⟨before ++ [] ++ [b], [], by simp, ?_⟩
    exact h.close_fault hnext [b] (f := .unexpectedCharacter b) rfl rfl rfl rfl

theorem close_begin
    (h : s.Traced before raw)
    (hnext : s.next.Marks (before ++ raw))
    (b : UInt8) :
    (s.close.begin b).Follows (before ++ raw ++ [b]) :=
  h.close.begin (by simpa using hnext) b

/-- One byte more is read. -/
theorem step
    (h : s.Traced before raw)
    (hnext : s.next.Marks (before ++ raw))
    (b : UInt8) :
    (s.step b).Follows (before ++ raw ++ [b]) := by
  have hopened := h.opened
  have hfollows : ∀ {mode : Mode}, mode.Opened before (raw ++ [b]) →
      (s.advance mode).Follows (before ++ raw ++ [b]) :=
    fun hmode => ⟨before, raw ++ [b], by simp, h.advance hmode⟩
  unfold Scan.step
  split
  case h_1 hmode =>
    obtain rfl : raw = [] := by simpa [hmode, Mode.Opened] using hopened
    simpa using h.begin (by simpa using hnext) b
  case h_2 hmode =>
    obtain rfl : raw = [] := by simpa [hmode, Mode.Opened] using hopened
    split
    · exact h.close_begin hnext b
    · exact ⟨before ++ [b], [], by simp, h.skip b rfl⟩
  case h_3 c start hmode =>
    rw [hmode] at hopened
    obtain ⟨hstart, rfl, hsign⟩ := hopened
    split
    case isTrue hdigit => exact hfollows ⟨hstart, rfl, .inr ⟨c, b, [], rfl, hsign, hdigit⟩⟩
    · exact h.close_begin hnext b
  case h_4 start last hmode =>
    rw [hmode] at hopened
    obtain ⟨hstart, rfl, hword⟩ := hopened
    split
    case isTrue hpart => exact hfollows ⟨hstart, by simp, hword.concat hpart⟩
    · exact h.close_begin hnext b
  case h_5 start hex last hmode =>
    rw [hmode] at hopened
    obtain ⟨hstart, rfl, hnumber⟩ := hopened
    split
    · exact hfollows ⟨hstart, by simp, hnumber.append [b]⟩
    · exact h.close_begin hnext b
  case h_6 start last hmode =>
    rw [hmode] at hopened
    obtain ⟨hstart, body, rfl, hbody⟩ := hopened
    split
    · exact h.close_begin hnext b
    case isFalse hfeed =>
      split
      case isTrue hquote =>
        obtain rfl : b = 0x22 := by simpa using hquote
        refine ⟨before ++ (0x22 :: body) ++ [0x22], [], by simp, ?_⟩
        exact h.close_token hstart [0x22] (x := .string last.reverse) ⟨body, rfl, hbody⟩ rfl rfl rfl
      case isFalse hquote =>
        split
        case isTrue hescape =>
          obtain rfl : b = 0x5c := by simpa using hescape
          exact hfollows ⟨hstart, body, rfl, hbody⟩
        case isFalse hescape =>
          refine hfollows ⟨hstart, body ++ [b], rfl, ?_⟩
          simpa using hbody.plain (by simpa using hfeed) (by simpa using hquote)
            (by simpa using hescape)
  case h_7 start last hmode =>
    rw [hmode] at hopened
    obtain ⟨hstart, body, rfl, hbody⟩ := hopened
    split
    case h_1 c hc =>
      refine hfollows ⟨hstart, body ++ [0x5c, b], by simp, ?_⟩
      simpa using hbody.escaped hc
    case h_2 hnone =>
      have hspelled : (LexFault.invalidEscape b).Spelled (0x22 :: (body ++ [0x5c]) ++ [b]) :=
        ⟨body, last.reverse, hbody, hnone, by simp⟩
      refine ⟨before, 0x22 :: (body ++ [0x5c]) ++ [b], by simp, ?_, ?_, ?_⟩
      · exact ⟨hstart, body ++ [0x5c, b], by simp, hbody.meaningless hnone⟩
      · simpa [Scan.advance, Scan.fault] using h.tokens_append [b] le_rfl
      · simpa [Scan.advance] using h.faults_push hstart hspelled

end Scan.Traced

/-- Whatever was read is traced. -/
theorem follows_foldl (t : Text) : (t.foldl Scan.step .init).Follows t := by
  induction t using List.reverseRecOn with
  | nil => exact ⟨[], [], rfl, rfl, ⟨[], .nil, .nil, by simp⟩, ⟨[], .nil, .nil, by simp⟩⟩
  | append_singleton t b ih =>
    obtain ⟨before, raw, rfl, htraced⟩ := ih
    rw [List.foldl_append]
    exact htraced.step (marked_next _) b

theorem Scan.faults_finish (s : Scan) : s.finish.faults = s.close.faults := by
  unfold finish
  dsimp only
  split
  · rfl
  split <;> rfl

/-- The end of the file comes last, behind the end of a line that is still open. -/
theorem Scan.tokens_finish (s : Scan) :
    s.finish.tokens.toList = s.close.tokens.toList ++ [⟨.endOfFile, s.next⟩] ∨
      s.finish.tokens.toList =
        s.close.tokens.toList ++ [⟨.endOfLine, s.next⟩, ⟨.endOfFile, s.next⟩] := by
  unfold finish
  dsimp only
  split
  · left
    simp [add]
  split
  · left
    simp [add]
  · right
    simp [add]

/-- Every token but the closing ones is written in the source, without overlap and in order,
and every fault is about what is written there.  Its position has the true line but for the
line feeds before it that an escape took, and is the true position exactly if there are
none; so it is for the closing tokens, which stand behind the whole source. -/
theorem scan_positions (source : Text) :
    ∃ written closing last spans faultSpans,
      (scan source).tokens.toList = written ++ closing ∧
      (closing = [⟨.endOfFile, last⟩] ∨ closing = [⟨.endOfLine, last⟩, ⟨.endOfFile, last⟩]) ∧
      last.Marks source ∧
      List.Forall₂ (Token.At source) spans written ∧
      spans.Pairwise (fun x y => x.start < y.start ∧ x.stop ≤ y.start) ∧
      List.Forall₂ (LexFault.At source) faultSpans (scan source).faults.toList ∧
      faultSpans.Pairwise (fun x y => x.start ≤ y.start) := by
  set s := source.foldl Scan.step .init with hs
  have hscan : scan source = s.finish := rfl
  have hnext : s.next.Marks source := marked_next source
  obtain ⟨before, raw, hsource, htraced⟩ : s.Follows source := follows_foldl source
  have hclosed : s.close.Traced source [] := by
    rw [hsource]
    exact htraced.close
  obtain ⟨spans, hspans, hordered, -⟩ := hclosed.tokens
  obtain ⟨faultSpans, hfaultSpans, hfaultOrdered, -⟩ := hclosed.faults
  rw [List.append_nil] at hspans hfaultSpans
  have hraw : ∀ x ∈ spans, x.raw ≠ [] :=
    ((List.forall₂_and_left spans _).mp
      (hspans.imp fun _ _ (hx : Token.At ..) => ⟨hx.spelled.ne_nil, hx⟩)).1
  have hstrict : spans.Pairwise fun x y => x.start < y.start ∧ x.stop ≤ y.start := by
    refine hordered.imp_of_mem fun {x y} hx _ hxy => ⟨?_, hxy⟩
    have hpositive := List.length_pos_iff.mpr (hraw x hx)
    unfold Span.stop at hxy
    omega
  have hfaults : (scan source).faults.toList = s.close.faults.toList := by
    rw [hscan, Scan.faults_finish]
  rw [hfaults]
  rcases s.tokens_finish with htokens | htokens
  · exact ⟨_, _, s.next, spans, faultSpans, htokens, .inl rfl, hnext, hspans, hstrict,
      hfaultSpans, hfaultOrdered⟩
  · exact ⟨_, _, s.next, spans, faultSpans, htokens, .inr rfl, hnext, hspans, hstrict,
      hfaultSpans, hfaultOrdered⟩

/-- In the second line a byte is reported that no lexeme begins with; the machine calls it
the sixth of the first line, since the line feed stands behind a backslash in a string. -/
theorem escapedLineFeed_misplaced :
    (scan [0x22, 0x5c, 0x0a, 0x22, 0x20, 0x40]).faults.toList =
        [(⟨1, 1⟩, .invalidEscape 0x0a), (⟨1, 6⟩, .unexpectedCharacter 0x40)] ∧
      Position.behind [0x22, 0x5c, 0x0a, 0x22, 0x20] = ⟨2, 3⟩ := by
  decide

end Tracing

end Assembly
end StackNative

import StackNative.Proofs.X64.Binding
import StackNative.Proofs.X64.Generator

/-!
# A program under construction

**Input.**  An emitter of the generator, the program that it holds, and numbers for the labels of
functions and blocks.

**Results.**
* `Follows`: the pieces are those of the program, with numbers for its labels; no number stands
  for two labels, and the strings that the program points to are listed as `literals` lists them.
* `Follows.add`, `Follows.addLiteral`, `Follows.extend`: what keeps an emitter behind a program.
* `run_newLabels`: a table of labels that were not given before.
* `Realizes`: a part of the generator does what a computation does; `Realizes.bind`,
  `Realizes.forM`: this is shown for each part on its own.
-/

namespace StackNative
namespace X64

open Ir (BlockId)

section Numbering

/-- Each number stands for one label, and was given already. -/
structure Numbered (number? : Label → Option Int) (next : Int) : Prop where
  below : ∀ l n, number? l = some n → n < next
  injective : ∀ l l' n, number? l = some n → number? l' = some n → l = l'

/-- Items are those of a program, with numbers for its labels. -/
structure Renamed (number? : Label → Option Int) (c : Code) (items : List (Item Int)) :
    Prop where
  named : ∀ item ∈ c, ∀ l, item.label? = some l → (number? l).isSome = true
  items : items = c.map (Item.rename fun l => (number? l).getD 0)

variable {number? number?' : Label → Option Int} {next next' : Int}

/-- Labels are given numbers that were not given before. -/
theorem Numbered.extend
    (h : Numbered number? next)
    (hnext : next ≤ next')
    (hnew : ∀ l n, number?' l = some n → number? l = some n ∨ (next ≤ n ∧ n < next'))
    (hinjective : ∀ l l' n, next ≤ n → number?' l = some n → number?' l' = some n → l = l') :
    Numbered number?' next' where
  below l n hl := by
    rcases hnew l n hl with hold | ⟨-, hlt⟩
    · have := h.below l n hold
      omega
    · exact hlt
  injective l l' n hl hl' := by
    by_cases hn : next ≤ n
    · exact hinjective l l' n hn hl hl'
    · rcases hnew l n hl with hold | hge
      · rcases hnew l' n hl' with hold' | hge
        · exact h.injective l l' n hold hold'
        · omega
      · omega

/-- More labels have numbers. -/
theorem Renamed.mono
    {c : Code} {items : List (Item Int)}
    (h : Renamed number? c items)
    (hle : ∀ l n, number? l = some n → number?' l = some n) :
    Renamed number?' c items where
  named item hitem l hl := by
    obtain ⟨n, hn⟩ := Option.isSome_iff_exists.mp (h.named item hitem l hl)
    rw [hle l n hn]
    rfl
  items := by
    rw [h.items]
    refine List.map_congr_left fun item hitem => Item.rename_congr _ fun l hl => ?_
    obtain ⟨n, hn⟩ := Option.isSome_iff_exists.mp (h.named item hitem l hl)
    rw [hn, hle l n hn]

theorem Renamed.concat
    {c : Code} {items : List (Item Int)} {item : Item Label}
    (h : Renamed number? c items)
    (hnamed : ∀ l, item.label? = some l → (number? l).isSome = true) :
    Renamed number? (c ++ [item]) (items ++ [item.rename fun l => (number? l).getD 0]) where
  named other hother := by
    rcases List.mem_append.mp hother with hother | hother
    · exact h.named other hother
    · rwa [List.mem_singleton.mp hother]
  items := by rw [h.items, List.map_append, List.map_singleton]

end Numbering

section Following

/-- The number of a label: that of a string is in the table of an emitter, the others are given. -/
def Emitter.number? (fixed : Label → Option Int) (e : Emitter) : Label → Option Int
  | .literal s => e.labels[s]?
  | l => fixed l

/-- An emitter holds a program, and the strings that it points to. -/
structure Follows (fixed : Label → Option Int) (c : Code) (e : Emitter) : Prop where
  /-- What was bound or named under a number is still found under it alone. -/
  numbered : Numbered (e.number? fixed) e.assembler.nextLabel
  renamed : Renamed (e.number? fixed) c e.assembler.items.toList
  ordered : e.ordered.toList = literals c
  listed : ∀ s : Text, e.labels[s]?.isSome = true ↔ s ∈ literals c

variable {fixed : Label → Option Int} {c : Code} {e : Emitter}

@[simp] theorem items_add (a : Assembler) (item : Item Int) :
    (a.add item).items.toList = a.items.toList ++ [item] := by
  simp [Assembler.add]

/-- An item is added whose label has a number, and that points to no new string. -/
theorem Follows.add
    (h : Follows fixed c e)
    {item : Item Label} {item' : Item Int}
    (hnamed : ∀ l, item.label? = some l → (e.number? fixed l).isSome = true)
    (hliteral : ∀ s, Item.literal? item = some s → s ∈ literals c)
    (hitem : item' = item.rename fun l => (e.number? fixed l).getD 0) :
    Follows fixed (c ++ [item]) (e.add item') where
  numbered := h.numbered
  renamed := by
    rw [Emitter.add, items_add, hitem]
    exact h.renamed.concat hnamed
  ordered := by
    rw [literals_concat_of_mem hliteral]
    exact h.ordered
  listed := by
    rw [literals_concat_of_mem hliteral]
    exact h.listed

theorem Follows.data
    (h : Follows fixed c e)
    (bytes : Text) :
    Follows fixed (c ++ [.data bytes]) (e.add (.data bytes)) :=
  h.add (by simp [Item.label?]) (by simp [Item.literal?]) rfl

/-- A label that has a number is bound. -/
theorem Follows.bind
    (h : Follows fixed c e)
    {l : Label} {n : Int}
    (hl : e.number? fixed l = some n) :
    Follows fixed (c ++ [.bind l]) (e.add (.bind n)) := by
  refine h.add ?_ (by simp [Item.literal?]) ?_
  · intro l' hl'
    cases hl'
    rw [hl]
    rfl
  · rw [Item.rename, hl, Option.getD_some]

/-- An emitter after its first instruction that points to a string. -/
def Emitter.addLiteral (e : Emitter) (target : Reg) (s : Text) : Emitter where
  assembler := { e.assembler with nextLabel := e.assembler.nextLabel + 1 }.emit
    (.leaLabel target e.assembler.nextLabel)
  labels := e.labels.insert s e.assembler.nextLabel
  ordered := e.ordered.push s

theorem Emitter.number?_addLiteral (target : Reg) (s : Text) (l : Label) :
    (e.addLiteral target s).number? fixed l =
      if l = .literal s then some e.assembler.nextLabel else e.number? fixed l := by
  cases l with
  | literal t =>
      rw [number?, addLiteral, Std.HashMap.getElem?_insert]
      simp only [beq_iff_eq, Label.literal.injEq, eq_comm (a := t), number?]
  | _ =>
      rfl

theorem Emitter.number?_addLiteral_self
    (fixed : Label → Option Int) (e : Emitter) (target : Reg) (s : Text) :
    (e.addLiteral target s).number? fixed (.literal s) = some e.assembler.nextLabel := by
  rw [number?_addLiteral, if_pos rfl]

/-- The labels that have a number keep it. -/
theorem Emitter.number?_addLiteral_of_some
    {s : Text} {l : Label} {n : Int}
    (hs : e.labels[s]? = none)
    (hl : e.number? fixed l = some n)
    (target : Reg) :
    (e.addLiteral target s).number? fixed l = some n := by
  rw [number?_addLiteral, if_neg, hl]
  rintro rfl
  rw [number?, hs] at hl
  cases hl

theorem Numbered.addLiteral
    (h : Numbered (e.number? fixed) e.assembler.nextLabel)
    (target : Reg) (s : Text) :
    Numbered ((e.addLiteral target s).number? fixed) (e.assembler.nextLabel + 1) := by
  refine h.extend (by omega) ?_ ?_
  · intro l n hl
    rw [Emitter.number?_addLiteral] at hl
    split at hl
    · cases hl
      exact Or.inr (by omega)
    · exact Or.inl hl
  · intro l l' n hn hl hl'
    -- only the new label has a number as high as this
    have hself : ∀ k, (e.addLiteral target s).number? fixed k = some n → k = .literal s := by
      intro k hk
      rw [Emitter.number?_addLiteral] at hk
      split at hk
      · assumption
      · have := h.below k n hk
        omega
    rw [hself l hl, hself l' hl']

/-- An instruction is added that points to a new string, which is given a new label. -/
theorem Follows.addLiteral
    (h : Follows fixed c e)
    {s : Text}
    (hs : e.labels[s]? = none)
    (target : Reg) :
    Follows fixed (c ++ [.instruction (.leaLabel target (.literal s))])
      (e.addLiteral target s) := by
  have hnew : s ∉ literals c := by
    rw [← h.listed, hs]
    simp
  have hliterals : literals (c ++ [.instruction (.leaLabel target (.literal s))]) =
      literals c ++ [s] := literals_concat_of_not_mem rfl hnew
  have hself := Emitter.number?_addLiteral_self fixed e target s
  refine ⟨h.numbered.addLiteral target s, ?_, ?_, ?_⟩
  · have hitems : (e.addLiteral target s).assembler.items.toList = e.assembler.items.toList ++
        [Item.rename (fun l => ((e.addLiteral target s).number? fixed l).getD 0)
          (.instruction (.leaLabel target (.literal s)))] := by
      rw [Item.rename, Instruction.rename, hself]
      exact items_add _ _
    rw [hitems]
    refine (h.renamed.mono fun l n hl => Emitter.number?_addLiteral_of_some hs hl target).concat ?_
    intro l hl
    cases hl
    rw [hself]
    rfl
  · rw [hliterals, ← h.ordered]
    exact Array.toList_push
  · intro t
    rw [hliterals, List.mem_append, List.mem_singleton, ← h.listed, Emitter.addLiteral,
      Std.HashMap.getElem?_insert]
    by_cases ht : s = t
    · simp [ht]
    · simp [ht, Ne.symm ht]

end Following

section Tables

open Generation

variable {κ : Type} [BEq κ] [Hashable κ]
variable {first next : Int} {keys : List κ} {t : Std.HashMap κ Int}

/-- A table gives each of some keys a label of its own, from a first one on and below a next one. -/
structure Fresh (first next : Int) (keys : List κ) (t : Std.HashMap κ Int) : Prop where
  within : ∀ (k : κ) (n : Int), t[k]? = some n → first ≤ n ∧ n < next
  injective : ∀ (k k' : κ) (n : Int), t[k]? = some n → t[k']? = some n → k = k'
  isSome : ∀ k : κ, t[k]?.isSome = true ↔ k ∈ keys

/-- An emitter after it has given all labels below a next one. -/
def Emitter.counted (e : Emitter) (next : Int) : Emitter :=
  { e with assembler := { e.assembler with nextLabel := next } }

/-- More labels have numbers. -/
theorem Follows.extend
    {fixed fixed' : Label → Option Int} {c : Code} {e : Emitter}
    (h : Follows fixed c e)
    (place : κ → Label)
    (hle : e.assembler.nextLabel ≤ next)
    (ht : Fresh e.assembler.nextLabel next keys t)
    (hold : ∀ l n, fixed l = some n → fixed' l = some n)
    (hnew : ∀ l n, fixed' l = some n → fixed l = some n ∨ ∃ k, l = place k ∧ t[k]? = some n) :
    Follows fixed' c (e.counted next) := by
  have hle' : ∀ l n, e.number? fixed l = some n → (e.counted next).number? fixed' l = some n := by
    intro l n hl
    cases l with
    | literal s =>
        exact hl
    | _ =>
        exact hold _ n hl
  have hnew' : ∀ l n, (e.counted next).number? fixed' l = some n →
      e.number? fixed l = some n ∨ ∃ k, l = place k ∧ t[k]? = some n := by
    intro l n hl
    cases l with
    | literal s =>
        exact Or.inl hl
    | _ =>
        exact hnew _ n hl
  refine ⟨h.numbered.extend hle ?_ ?_, h.renamed.mono hle', h.ordered, h.listed⟩
  · intro l n hl
    rcases hnew' l n hl with hl | ⟨k, -, hk⟩
    · exact Or.inl hl
    · exact Or.inr (ht.within k n hk)
  · intro l l' n hn hl hl'
    -- a number that was not given before comes from the table
    have hself : ∀ l, (e.counted next).number? fixed' l = some n →
        ∃ k, l = place k ∧ t[k]? = some n := by
      intro l hl
      rcases hnew' l n hl with hl | hl
      · have := h.numbered.below l n hl
        omega
      · exact hl
    obtain ⟨k, rfl, hk⟩ := hself l hl
    obtain ⟨k', rfl, hk'⟩ := hself l' hl'
    rw [ht.injective k k' n hk hk']

variable [LawfulBEq κ]

theorem fresh_empty (first : Int) : Fresh first first [] (∅ : Std.HashMap κ Int) := by
  refine ⟨?_, ?_, ?_⟩ <;> simp

/-- The next label goes to a key, whether or not it had one. -/
theorem Fresh.insert
    (h : Fresh first next keys t)
    (hle : first ≤ next)
    (key : κ) :
    Fresh first (next + 1) (keys ++ [key]) (t.insert key next) where
  within k n hk := by
    rw [Std.HashMap.getElem?_insert] at hk
    split at hk
    · cases hk
      omega
    · have := h.within k n hk
      omega
  injective k k' n hk hk' := by
    rw [Std.HashMap.getElem?_insert] at hk hk'
    split at hk <;> split at hk'
    · simp_all
    · have := h.within k' n hk'
      cases hk
      omega
    · have := h.within k n hk
      cases hk'
      omega
    · exact h.injective k k' n hk hk'
  isSome k := by
    rw [Std.HashMap.getElem?_insert, List.mem_append, List.mem_singleton, ← h.isSome]
    split
    · next hkey =>
        simp [eq_of_beq hkey]
    · next hkey =>
        have hne : k ≠ key := by
          rintro rfl
          simp at hkey
        simp [hne]

theorem run_newLabels_from
    {e : Emitter} {done : List κ}
    (h : Fresh first e.assembler.nextLabel done t)
    (hle : first ≤ e.assembler.nextLabel) :
    ∃ t' next, first ≤ next ∧ Fresh first next (done ++ keys) t' ∧
      (keys.foldlM (fun labels key => return labels.insert key (← newLabel)) t :
        Generation (Std.HashMap κ Int)).run e = .ok (t', e.counted next) := by
  induction keys generalizing e t done with
  | nil =>
      exact ⟨t, e.assembler.nextLabel, hle, by simpa using h, rfl⟩
  | cons key keys ih =>
      obtain ⟨t', next, hnext, hfresh, hrun⟩ :=
        ih (e := e.counted (e.assembler.nextLabel + 1)) (h.insert hle key)
          (show first ≤ e.assembler.nextLabel + 1 by omega)
      refine ⟨t', next, hnext, by simpa using hfresh, ?_⟩
      rw [List.foldlM_cons]
      exact hrun

/-- Every key is given a label that was not given before. -/
theorem run_newLabels (keys : List κ) (e : Emitter) :
    ∃ t next, e.assembler.nextLabel ≤ next ∧ Fresh e.assembler.nextLabel next keys t ∧
      (newLabels keys).run e = .ok (t, e.counted next) :=
  run_newLabels_from (fresh_empty _) (Int.le_refl _)

end Tables

section Realization

variable {ε α β : Type} {stop : ε → Stop} {post : α → Emitter → Prop} {post' : β → Emitter → Prop}
variable {act act' : Generation Unit} {x : Except ε α} {f : α → Except ε β} {e : Emitter}

/-- A part of a generator does what a computation does: it comes to a state that fits the result,
or it stops with the error. -/
inductive Realizes (stop : ε → Stop) (post : α → Emitter → Prop)
    (run : Except Stop (Unit × Emitter)) : Except ε α → Prop where
  | ok (a : α) (e : Emitter) : run = .ok ((), e) → post a e → Realizes stop post run (.ok a)
  | error (err : ε) : run = .error (stop err) → Realizes stop post run (.error err)

theorem Realizes.bind
    (h : Realizes stop post (act.run e) x)
    (hf : ∀ a e', post a e' → Realizes stop post' (act'.run e') (f a)) :
    Realizes stop post' ((do act; act').run e) (x >>= f) := by
  rw [StateT.run_bind]
  cases h with
  | ok a e' hrun hpost =>
      rw [hrun]
      exact hf a e' hpost
  | error err hrun =>
      rw [hrun]
      exact .error err rfl

theorem Realizes.map
    {run : Except Stop (Unit × Emitter)} {f : α → β}
    (h : Realizes stop post run x)
    (hf : ∀ a e', post a e' → post' (f a) e') :
    Realizes stop post' run (do return f (← x)) := by
  cases h with
  | ok a e' hrun hpost =>
      exact .ok (f a) e' hrun (hf a e' hpost)
  | error err hrun =>
      exact .error err hrun

theorem Realizes.mono
    {post' : α → Emitter → Prop} {run : Except Stop (Unit × Emitter)}
    (h : Realizes stop post run x)
    (hpost : ∀ a e', post a e' → post' a e') :
    Realizes stop post' run x := by
  cases h with
  | ok a e' hrun ha =>
      exact .ok a e' hrun (hpost a e' ha)
  | error err hrun =>
      exact .error err hrun

theorem Realizes.done
    {run : Except Stop (Unit × Emitter)} {a : α} {b : β}
    (h : Realizes stop post run (.ok a))
    (hpost : ∀ e', post a e' → post' b e') :
    Realizes stop post' run (.ok b) := by
  cases h with
  | ok a e' hrun ha =>
      exact .ok b e' hrun (hpost e' ha)

/-- The first part always succeeds. -/
theorem Realizes.seq
    {a : α} {y : Except ε β}
    (h : Realizes stop post (act.run e) (.ok a))
    (hnext : ∀ e', post a e' → Realizes stop post' (act'.run e') y) :
    Realizes stop post' ((do act; act').run e) y := by
  rw [StateT.run_bind]
  cases h with
  | ok a e' hrun hpost =>
      rw [hrun]
      exact hnext e' hpost

/-- The parts of a list are done one after the other. -/
theorem Realizes.forM
    {κ : Type} {fixed : Label → Option Int} (render : α → Code)
    {act : κ → Generation Unit} {f : κ → Except ε α} {ks : List κ} {c : Code}
    (h : ∀ k ∈ ks, ∀ c e, Follows fixed c e →
      Realizes stop (fun a => Follows fixed (c ++ render a)) ((act k).run e) (f k))
    (he : Follows fixed c e) :
    Realizes stop (fun as => Follows fixed (c ++ as.flatMap render)) ((ks.forM act).run e)
      (ks.mapM f) := by
  induction ks generalizing c e with
  | nil =>
      exact .ok [] e rfl (by simpa using he)
  | cons k ks ih =>
      rw [List.mapM_cons]
      refine (h k List.mem_cons_self c e he).bind fun a e' ha => ?_
      refine (ih (fun k' hk' => h k' (List.mem_cons_of_mem k hk')) ha).map fun as e'' has => ?_
      rwa [List.flatMap_cons, ← List.append_assoc]

end Realization

section Additions

open Generation

variable {ε : Type} {stop : ε → Stop} {fixed : Label → Option Int} {c : Code} {e : Emitter}

/-- Instructions stand behind a program. -/
def Behind (fixed : Label → Option Int) (c : Code) (is : List (Instruction Label))
    (e : Emitter) : Prop :=
  Follows fixed (c ++ code is) e

theorem behind_append {is js : List (Instruction Label)} :
    Behind fixed c (is ++ js) e ↔ Behind fixed (c ++ code is) js e := by
  simp [Behind, code]

theorem Follows.emit
    (h : Follows fixed c e)
    {i : Instruction Label} {i' : Instruction Int}
    (hnamed : ∀ l, i.label? = some l → (e.number? fixed l).isSome = true)
    (hliteral : Item.literal? (.instruction i) = none)
    (hi : i' = i.rename fun l => (e.number? fixed l).getD 0) :
    Realizes stop (Behind fixed c) ((emit i').run e) (.ok [i]) := by
  refine .ok [i] (e.add (.instruction i')) rfl ?_
  refine h.add hnamed ?_ (congrArg Item.instruction hi)
  rw [hliteral]
  intro s hs
  cases hs

/-- An instruction is added that names a function or a block with a number. -/
theorem Follows.emitTo
    (h : Follows fixed c e)
    {i : Instruction Label} {l : Label} {n : Int}
    (hi : i.label? = some l)
    (hliteral : Item.literal? (.instruction i) = none)
    (hl : e.number? fixed l = some n) :
    Realizes stop (Behind fixed c) ((Generation.emit (i.rename fun _ => n)).run e) (.ok [i]) := by
  refine h.emit ?_ hliteral (i.rename_congr _ ?_)
  · intro l' hl'
    rw [hi] at hl'
    cases hl'
    rw [hl]
    rfl
  · intro l' hl'
    rw [hi] at hl'
    cases hl'
    rw [hl, Option.getD_some]

theorem literal?_of_label?
    {i : Instruction Label}
    (h : i.label? = none) :
    Item.literal? (.instruction i) = none := by
  cases i <;> first | rfl | cases h

theorem Follows.emitAll
    (h : Follows fixed c e)
    {is : List (Instruction Label)}
    (his : Unlabelled is) :
    Realizes stop (Behind fixed c) ((emitAll is).run e) (.ok is) := by
  induction is generalizing c e with
  | nil =>
      exact .ok [] e rfl (by simpa [Behind, code] using h)
  | cons i is ih =>
      obtain ⟨hi, his⟩ := List.forall_mem_cons.mp his
      have hrename : (i.rename fun _ => 0) = i.rename fun l => (e.number? fixed l).getD 0 := by
        refine i.rename_congr _ fun l hl => ?_
        rw [hi] at hl
        cases hl
      refine (h.emit (by simp [hi]) (literal?_of_label? hi) hrename).seq fun e' h' => ?_
      exact (ih h' his).done fun e'' h'' => behind_append.mpr h''

theorem look_eq
    {α : Type} {xs : List α} {index : Nat} {x : α}
    (h : xs[index]? = some x) :
    look xs index = pure x := by
  rw [look, h]

end Additions

end X64
end StackNative

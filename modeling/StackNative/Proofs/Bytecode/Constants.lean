import Mathlib.Data.List.Forall2
import StackNative.Bytecode.Value
import StackNative.Proofs.Number.Equality

/-!
# Equality of constants

**Input.**  Constants of any shape.

**Algorithm.**  Constants are compared from the outside in: arrays item by item, floats as
numbers, functions by their place.

**Results.**
* `Value.induction`: a property of constants follows arrays and the bodies of functions.
* `Value.Alike`, `Value.equals_iff_alike`: what the comparison decides.
* `Value.Alike.symm`, `Value.Alike.trans`, `Value.alike_self_iff`: it is an equivalence but
  for constants with a float in them that is not a number.
* `Value.isComparable_of_isComplete`: the comparison of constants with all their numbers asks
  for no other.
* `Value.equals_partial_equivalence`: the laws of the comparison.
-/

namespace StackNative
namespace Bytecode

section Induction

variable {P : Value → Prop}

mutual

/-- A property of constants follows arrays and the bodies of functions. -/
theorem Value.induction
    (scalar : ∀ v, (∀ items, v ≠ .array items) → (∀ f, v ≠ .func f) → P v)
    (array : ∀ items, (∀ v ∈ items, P v) → P (.array items))
    (func : ∀ f : Prototype, (∀ c, f.body = some c → ∀ v ∈ c.constants, P v) → P (.func f)) :
    ∀ v, P v
  | .array items => array items (Value.induction_list scalar array func items)
  | .func ⟨_, _, _, none⟩ => func _ nofun
  | .func ⟨_, _, _, some ⟨_, _, ⟨constants⟩⟩⟩ =>
      func _ (by
        rintro c ⟨⟩ v hv
        exact Value.induction_list scalar array func constants v (List.mem_toArray.mp hv))
  | .null => scalar _ nofun nofun
  | .bool _ => scalar _ nofun nofun
  | .int _ => scalar _ nofun nofun
  | .float _ => scalar _ nofun nofun
  | .string _ => scalar _ nofun nofun
  | .missingInt => scalar _ nofun nofun
  | .missingFloat => scalar _ nofun nofun
  | .missingFunc => scalar _ nofun nofun
  | .unknown _ => scalar _ nofun nofun

theorem Value.induction_list
    (scalar : ∀ v, (∀ items, v ≠ .array items) → (∀ f, v ≠ .func f) → P v)
    (array : ∀ items, (∀ v ∈ items, P v) → P (.array items))
    (func : ∀ f : Prototype, (∀ c, f.body = some c → ∀ v ∈ c.constants, P v) → P (.func f)) :
    ∀ vs : List Value, ∀ v ∈ vs, P v
  | [] => nofun
  | v :: vs =>
      List.forall_mem_cons.mpr
        ⟨Value.induction scalar array func v, Value.induction_list scalar array func vs⟩

end

/-- A property that does not look into functions follows arrays alone. -/
theorem Value.arrayInduction
    (array : ∀ items, (∀ v ∈ items, P v) → P (.array items))
    (leaf : ∀ v, (∀ items, v ≠ .array items) → P v)
    (v : Value) :
    P v :=
  Value.induction (fun v harray _ => leaf v harray) array (fun f _ => leaf (.func f) nofun) v

end Induction

section Alike

variable {u v w : Value}

/-- Constants that are equal: floats are the same number, functions have the same place, and arrays
have equal items. -/
inductive Value.Alike : Value → Value → Prop
  | null : Alike .null .null
  | bool (b : Bool) : Alike (.bool b) (.bool b)
  | int (n : Int64) : Alike (.int n) (.int n)
  | float {x y : Binary64} : x.SameNumber y → Alike (.float x) (.float y)
  | string (s : Text) : Alike (.string s) (.string s)
  | array {xs ys : List Value} : List.Forall₂ Alike xs ys → Alike (.array xs) (.array ys)
  | func {f g : Prototype} : f.place = g.place → Alike (.func f) (.func g)
  | missingFunc : Alike .missingFunc .missingFunc
  | unknown (tag : UInt8) : Alike (.unknown tag) (.unknown tag)

/-- A float that is not a number stands in a constant, in arrays at any depth.  The bodies of
functions are not looked into. -/
inductive Value.HasNaN : Value → Prop
  | float {x : Binary64} : x.isNaN = true → HasNaN (.float x)
  | array {items : List Value} {v : Value} : v ∈ items → HasNaN v → HasNaN (.array items)

namespace Value

theorem equalItems_iff (xs ys : List Value) :
    equalItems xs ys = true ↔ List.Forall₂ (fun x y => x.equals y = true) xs ys := by
  induction xs generalizing ys with
  | nil =>
      cases ys <;> simp [equalItems]
  | cons x xs ih =>
      cases ys <;> simp [equalItems, ih]

/-- What holds of the items on the left can be used at each pair. -/
theorem forall₂_of_mem
    {R S : Value → Value → Prop}
    {xs ys : List Value}
    (himp : ∀ x ∈ xs, ∀ y, R x y → S x y)
    (h : List.Forall₂ R xs ys) :
    List.Forall₂ S xs ys :=
  ((List.forall₂_and_left xs ys).mpr ⟨himp, h⟩).imp fun _ y ⟨himp, hxy⟩ => himp y hxy

theorem forall₂_trans_of_mem
    {R : Value → Value → Prop}
    {xs ys zs : List Value}
    (htrans : ∀ x ∈ xs, ∀ y z, R x y → R y z → R x z)
    (hxy : List.Forall₂ R xs ys)
    (hyz : List.Forall₂ R ys zs) :
    List.Forall₂ R xs zs := by
  induction hxy generalizing zs with
  | nil =>
      exact hyz
  | cons hxy _ ih =>
      cases hyz with
      | cons hyz hrest =>
          exact .cons (htrans _ List.mem_cons_self _ _ hxy hyz)
            (ih (fun x hx => htrans x (List.mem_cons_of_mem _ hx)) hrest)

/-- The comparison decides equality. -/
theorem equals_iff_alike (u v : Value) : u.equals v = true ↔ u.Alike v := by
  induction u using Value.arrayInduction generalizing v with
  | array xs ih =>
      constructor
      · intro h
        cases v with
        | array ys =>
            rw [equals, equalItems_iff] at h
            exact .array (forall₂_of_mem (fun x hx y => (ih x hx y).mp) h)
        | _ => cases h
      · intro h
        cases h with
        | array h =>
            rw [equals, equalItems_iff]
            exact forall₂_of_mem (fun x hx y => (ih x hx y).mpr) h
  | leaf u harray =>
      constructor
      · intro h
        cases u <;> cases v <;> simp only [equals, Bool.false_eq_true, beq_iff_eq] at h
        case float.float => exact .float ((Binary64.equal_iff_sameNumber _ _).mp h)
        case array.array => exact absurd rfl (harray _)
        case func.func => exact .func h
        case null.null | missingFunc.missingFunc => constructor
        case bool.bool | int.int | string.string | unknown.unknown =>
          subst h
          constructor
      · intro h
        cases h with
        | float h => exact (Binary64.equal_iff_sameNumber _ _).mpr h
        | array h => exact absurd rfl (harray _)
        | func h => simpa [equals]
        | _ => simp [equals]

theorem Alike.symm
    (h : u.Alike v) :
    v.Alike u := by
  induction u using Value.arrayInduction generalizing v with
  | array xs ih =>
      cases h with
      | array h => exact .array (List.Forall₂.flip (forall₂_of_mem (fun x hx y => ih x hx) h))
  | leaf u harray =>
      cases h with
      | float h => exact .float h.symm
      | array h => exact absurd rfl (harray _)
      | func h => exact .func h.symm
      | _ => constructor

theorem Alike.trans
    (huv : u.Alike v)
    (hvw : v.Alike w) :
    u.Alike w := by
  induction u using Value.arrayInduction generalizing v w with
  | array xs ih =>
      cases huv with
      | array hxy =>
          cases hvw with
          | array hyz =>
              refine .array (forall₂_trans_of_mem ?_ hxy hyz)
              exact fun x hx y z hxy hyz => ih x hx hxy hyz
  | leaf u harray =>
      cases huv with
      | float hxy =>
          cases hvw with
          | float hyz => exact .float (hxy.trans hyz)
      | array h => exact absurd rfl (harray _)
      | func hfg =>
          cases hvw with
          | func hgh => exact .func (hfg.trans hgh)
      | _ => exact hvw

theorem hasNaN_array_iff (items : List Value) :
    (array items).HasNaN ↔ ∃ v ∈ items, v.HasNaN := by
  constructor
  · intro h
    cases h with
    | array hv hnan => exact ⟨_, hv, hnan⟩
  · rintro ⟨v, hv, hnan⟩
    exact .array hv hnan

theorem areComplete_iff (vs : List Value) :
    areComplete vs = true ↔ ∀ v ∈ vs, v.isComplete = true := by
  induction vs with
  | nil =>
      simp [areComplete]
  | cons v vs ih =>
      simp [areComplete, ih]

/-- A constant with all its numbers equals itself exactly if all its floats are numbers. -/
theorem alike_self_iff
    (h : u.isComplete = true) :
    u.Alike u ↔ ¬ u.HasNaN := by
  induction u using Value.arrayInduction with
  | array xs ih =>
      rw [isComplete, areComplete_iff] at h
      simp only [hasNaN_array_iff, not_exists, not_and]
      constructor
      · intro hself x hx
        cases hself with
        | array hitems => exact (ih x hx (h x hx)).mp (List.forall₂_same.mp hitems x hx)
      · intro hnan
        exact .array (List.forall₂_same.mpr fun x hx => (ih x hx (h x hx)).mpr (hnan x hx))
  | leaf u harray =>
      cases u with
      | float x =>
          constructor
          · intro hself hnan
            cases hself with
            | float hsame =>
                cases hnan with
                | float hx =>
                    rw [(Binary64.sameNumber_self_iff x).mp hsame] at hx
                    cases hx
          · intro hnan
            have hx : x.isNaN = false := Bool.eq_false_of_not_eq_true fun hx => hnan (.float hx)
            exact .float ((Binary64.sameNumber_self_iff x).mpr hx)
      | array items => exact absurd rfl (harray items)
      | func f => exact ⟨fun _ => nofun, fun _ => .func rfl⟩
      | missingInt | missingFloat => cases h
      | _ => exact ⟨fun _ => nofun, fun _ => by constructor⟩

theorem areComparable_of_forall
    {xs ys : List Value}
    (h : ∀ x ∈ xs, ∀ y ∈ ys, x.isComparable y = true) :
    areComparable xs ys = true := by
  induction xs generalizing ys with
  | nil =>
      cases ys <;> rfl
  | cons x xs ih =>
      cases ys with
      | nil =>
          rfl
      | cons y ys =>
          have hrest : areComparable xs ys = true := ih fun x' hx' y' hy' =>
            h x' (List.mem_cons_of_mem x hx') y' (List.mem_cons_of_mem y hy')
          simp [areComparable, h x List.mem_cons_self y List.mem_cons_self, hrest]

/-- Comparing constants with all their numbers asks for no other. -/
theorem isComparable_of_isComplete
    (hu : u.isComplete = true)
    (hv : v.isComplete = true) :
    u.isComparable v = true := by
  induction u using Value.arrayInduction generalizing v with
  | array xs ih =>
      cases v with
      | array ys =>
          rw [isComplete, areComplete_iff] at hu hv
          have hitems := areComparable_of_forall fun x hx y hy => ih x hx (hu x hx) (hv y hy)
          simp [isComparable, hitems]
      | missingInt | missingFloat => cases hv
      | _ => rfl
  | leaf u harray =>
      cases u with
      | array items => exact absurd rfl (harray items)
      | missingInt | missingFloat => cases hu
      | _ =>
          cases v with
          | missingInt | missingFloat => cases hv
          | _ => rfl

theorem Alike.tag_eq
    (h : u.Alike v) :
    u.tag = v.tag := by
  cases h <;> rfl

/-- The comparison of constants with all their numbers has a result, is symmetric and transitive,
and only constants with a float in them that is not a number differ from themselves.  Equal
constants have the same type, and equal arrays as many items, equal in order. -/
theorem equals_partial_equivalence
    (u v w : Value)
    (h : ∀ a ∈ [u, v, w], a.isComplete = true) :
    (∀ a ∈ [u, v, w], ∀ b ∈ [u, v, w], a.isComparable b = true) ∧
      (u.equals v = true → v.equals u = true) ∧
      (u.equals v = true → v.equals w = true → u.equals w = true) ∧
      (u.equals u = true ↔ ¬ u.HasNaN) ∧
      (u.equals v = true → u.tag = v.tag ∧
        ∀ xs, u = .array xs → ∃ ys, v = .array ys ∧ xs.length = ys.length ∧
          List.Forall₂ (fun x y => x.equals y = true) xs ys) := by
  have hu : u.isComplete = true := h u List.mem_cons_self
  simp only [equals_iff_alike]
  refine ⟨?_, Alike.symm, Alike.trans, alike_self_iff hu, ?_⟩
  · exact fun a ha b hb => isComparable_of_isComplete (h a ha) (h b hb)
  · intro hsame
    refine ⟨hsame.tag_eq, ?_⟩
    rintro xs rfl
    cases hsame with
    | @array _ ys hitems => exact ⟨ys, rfl, hitems.length_eq, hitems⟩

/-- Two floats, one of them in an inner array, beside a function and a missing one. -/
def besideFunctions (x y : Binary64) : Value :=
  .array [.float x, .array [.float y, .string [0xff]], .func ⟨[7], [], 1, none⟩, .missingFunc]

/-- A float that is not a number, two arrays deep. -/
def deepNaN : Value := .array [.array [.float ⟨0x7ff8000000000001⟩]]

theorem signedZeros_equal_deepNaN_not :
    (∀ a ∈ [besideFunctions ⟨0⟩ ⟨0x8000000000000000⟩, besideFunctions ⟨0x8000000000000000⟩ ⟨0⟩,
        besideFunctions ⟨0⟩ ⟨0⟩], a.isComplete = true) ∧
      (besideFunctions ⟨0⟩ ⟨0x8000000000000000⟩).equals (besideFunctions ⟨0⟩ ⟨0⟩) = true ∧
      (∀ a ∈ [deepNaN, deepNaN, deepNaN], a.isComplete = true) ∧
      deepNaN.equals deepNaN = false := by
  have hzeros : ∀ a ∈ [besideFunctions ⟨0⟩ ⟨0x8000000000000000⟩,
      besideFunctions ⟨0x8000000000000000⟩ ⟨0⟩, besideFunctions ⟨0⟩ ⟨0⟩],
      a.isComplete = true := by decide
  have hdeep : ∀ a ∈ [deepNaN, deepNaN, deepNaN], a.isComplete = true := by decide
  obtain ⟨-, -, htrans, -⟩ := equals_partial_equivalence _ _ _ hzeros
  obtain ⟨-, -, -, hself, -⟩ := equals_partial_equivalence _ _ _ hdeep
  refine ⟨hzeros, htrans (by decide) (by decide), hdeep, ?_⟩
  have hnan : deepNaN.HasNaN :=
    .array List.mem_cons_self (.array List.mem_cons_self (.float (by decide)))
  exact Bool.eq_false_of_not_eq_true fun h => hself.mp h hnan

end Value

end Alike

end Bytecode
end StackNative

/-!
# Computations that can fail

**Results.**  What a computation that succeeds, or fails, tells about its parts.
-/

namespace StackNative

variable {ε α β : Type}

theorem bind_eq_ok
    {x : Except ε α}
    {f : α → Except ε β}
    {b : β}
    (h : (x >>= f) = .ok b) :
    ∃ a, x = .ok a ∧ f a = .ok b := by
  cases x with
  | error e =>
      cases h
  | ok a =>
      exact ⟨a, rfl, h⟩

theorem bind_eq_error
    {x : Except ε α}
    {f : α → Except ε β}
    {e : ε}
    (h : (x >>= f) = .error e) :
    x = .error e ∨ ∃ a, x = .ok a ∧ f a = .error e := by
  cases x with
  | error e' =>
      cases h
      exact Or.inl rfl
  | ok a =>
      exact Or.inr ⟨a, rfl, h⟩

theorem mapM_cons_eq_ok
    {f : α → Except ε β}
    {a : α}
    {as : List α}
    {bs : List β}
    (h : (a :: as).mapM f = .ok bs) :
    ∃ b bs', bs = b :: bs' ∧ f a = .ok b ∧ as.mapM f = .ok bs' := by
  rw [List.mapM_cons] at h
  obtain ⟨b, hb, h⟩ := bind_eq_ok h
  obtain ⟨bs', hbs', h⟩ := bind_eq_ok h
  cases h
  exact ⟨b, bs', rfl, hb, hbs'⟩

theorem mapM_cons_eq_some
    {f : α → Option β}
    {a : α}
    {as : List α}
    {bs : List β}
    (h : (a :: as).mapM f = some bs) :
    ∃ b bs', bs = b :: bs' ∧ f a = some b ∧ as.mapM f = some bs' := by
  rw [List.mapM_cons] at h
  obtain ⟨b, hb, h⟩ := Option.bind_eq_some_iff.mp h
  obtain ⟨bs', hbs', h⟩ := Option.bind_eq_some_iff.mp h
  cases h
  exact ⟨b, bs', rfl, hb, hbs'⟩

theorem mapM_append_eq_ok
    {f : α → Except ε β}
    {as as' : List α}
    {bs : List β}
    (h : (as ++ as').mapM f = .ok bs) :
    ∃ front back, bs = front ++ back ∧ as.mapM f = .ok front ∧ as'.mapM f = .ok back := by
  rw [List.mapM_append] at h
  obtain ⟨front, hfront, h⟩ := bind_eq_ok h
  obtain ⟨back, hback, h⟩ := bind_eq_ok h
  cases h
  exact ⟨front, back, rfl, hfront, hback⟩

/-- A traversal depends on the computation at the elements only. -/
theorem mapM_congr
    {f g : α → Except ε β}
    {as : List α}
    (h : ∀ a ∈ as, f a = g a) :
    as.mapM f = as.mapM g := by
  induction as with
  | nil =>
      rfl
  | cons a as ih =>
      rw [List.mapM_cons, List.mapM_cons, h a List.mem_cons_self,
        ih fun a' ha' => h a' (List.mem_cons_of_mem a ha')]

/-- A list of successes is one of any computation that succeeds with the same results. -/
theorem mapM_eq_ok_of_imp
    {ε' : Type}
    {f : α → Except ε β}
    {g : α → Except ε' β}
    (himp : ∀ a b, f a = .ok b → g a = .ok b)
    {as : List α}
    {bs : List β}
    (h : as.mapM f = .ok bs) :
    as.mapM g = .ok bs := by
  induction as generalizing bs with
  | nil =>
      cases h
      rfl
  | cons a as ih =>
      obtain ⟨b, bs', rfl, hb, hbs'⟩ := mapM_cons_eq_ok h
      rw [List.mapM_cons, himp a b hb, ih hbs']
      rfl

/-- A list of computations that all succeed has results. -/
theorem exists_mapM_eq_ok
    {f : α → Except ε β}
    {as : List α}
    (h : ∀ a ∈ as, ∃ b, f a = .ok b) :
    ∃ bs, as.mapM f = .ok bs := by
  induction as with
  | nil =>
      exact ⟨[], rfl⟩
  | cons a as ih =>
      obtain ⟨b, hb⟩ := h a List.mem_cons_self
      obtain ⟨bs, hbs⟩ := ih fun a' ha' => h a' (List.mem_cons_of_mem a ha')
      refine ⟨b :: bs, ?_⟩
      rw [List.mapM_cons, hb, hbs]
      rfl

/-- Every result of a list comes from an element. -/
theorem exists_of_mem_mapM
    {f : α → Except ε β}
    {as : List α}
    {bs : List β}
    (h : as.mapM f = .ok bs)
    {b : β}
    (hb : b ∈ bs) :
    ∃ a ∈ as, f a = .ok b := by
  induction as generalizing bs with
  | nil =>
      cases h
      simp at hb
  | cons a as ih =>
      obtain ⟨c, cs, rfl, hc, hcs⟩ := mapM_cons_eq_ok h
      rcases List.mem_cons.mp hb with rfl | hb
      · exact ⟨a, List.mem_cons_self, hc⟩
      · obtain ⟨a', ha', hb'⟩ := ih hcs hb
        exact ⟨a', List.mem_cons_of_mem a ha', hb'⟩

/-- What is picked from the results of a traversal, if it is known for each of them. -/
theorem filterMap_flatten_of_mapM
    {γ : Type}
    {f : α → Except ε (List β)}
    (pick : β → Option γ)
    {picked : α → List γ}
    (hf : ∀ a bs, f a = .ok bs → bs.filterMap pick = picked a)
    {as : List α}
    {bss : List (List β)}
    (h : as.mapM f = .ok bss) :
    bss.flatten.filterMap pick = as.flatMap picked := by
  induction as generalizing bss with
  | nil =>
      cases h
      rfl
  | cons a as ih =>
      obtain ⟨bs, bss', rfl, hbs, hrest⟩ := mapM_cons_eq_ok h
      rw [List.flatten_cons, List.filterMap_append, hf a bs hbs, ih hrest, List.flatMap_cons]

end StackNative

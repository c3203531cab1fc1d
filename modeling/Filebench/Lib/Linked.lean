import Mathlib.Tactic

/-! # Singly linked lists

A list in memory is its first node and the link of every node. Its nodes are distinct, so that a
walk needs no more steps than there are nodes. -/
namespace Filebench.Linked

variable {P : Type} {next next' : P → Option P}

/-- `l` are the nodes from `h` on. -/
def IsList (next : P → Option P) : Option P → List P → Prop
  | h, [] => h = none
  | h, p :: l => h = some p ∧ IsList next (next p) l

@[simp] theorem isList_cons {h : Option P} {p : P} {l : List P} :
    IsList next h (p :: l) ↔ h = some p ∧ IsList next (next p) l := Iff.rfl

theorem IsList.head {h : Option P} {l : List P} (hl : IsList next h l) : h = l.head? := by
  cases l with
  | nil => exact hl
  | cons p l => exact hl.1

theorem IsList.unique {h : Option P} {l l' : List P} (hl : IsList next h l)
    (hl' : IsList next h l') : l = l' := by
  induction l generalizing h l' with
  | nil => cases l' with
    | nil => rfl
    | cons p l' => exact absurd (hl.symm.trans hl'.1) nofun
  | cons p l ih => cases l' with
    | nil => exact absurd (hl.1.symm.trans hl') nofun
    | cons q l' =>
      obtain rfl := Option.some.inj (hl.1.symm.trans hl'.1)
      rw [ih hl.2 hl'.2]

theorem IsList.congr {h : Option P} {l : List P} (hl : IsList next h l)
    (hnext : ∀ p ∈ l, next' p = next p) : IsList next' h l := by
  induction l generalizing h with
  | nil => exact hl
  | cons p l ih =>
    refine ⟨hl.1, ?_⟩
    rw [hnext p (.head _)]
    exact ih hl.2 fun q hq => hnext q (.tail _ hq)

theorem IsList.tail {h : Option P} {l₁ l₂ : List P} {p : P} (hl : IsList next h (l₁ ++ p :: l₂)) :
    IsList next (next p) l₂ := by
  induction l₁ generalizing h with
  | nil => exact hl.2
  | cons q l₁ ih => exact ih hl.2

theorem IsList.suffix {h : Option P} {l₁ l₂ : List P} (hl : IsList next h (l₁ ++ l₂)) :
    IsList next l₂.head? l₂ := by
  induction l₁ generalizing h with
  | nil =>
    rw [List.nil_append] at hl
    exact hl.head ▸ hl
  | cons q l₁ ih => exact ih hl.2

/-- A first node that is not one of the first part: there is none. -/
theorem IsList.past {l₁ l₂ : List P} {p : P} (hl : IsList next (some p) (l₁ ++ l₂))
    (hp : p ∉ l₁) : l₁ = [] ∧ ∃ l, l₂ = p :: l ∧ IsList next (next p) l := by
  cases l₁ with
  | nil =>
    cases l₂ with
    | nil => cases hl
    | cons q l =>
      obtain rfl := Option.some.inj hl.1
      exact ⟨rfl, l, rfl, hl.2⟩
  | cons q l₁ =>
    obtain rfl := Option.some.inj hl.1
    exact absurd (.head _) hp

/-- A first node that is not one of the second part. -/
theorem IsList.first {l₁ l₂ : List P} {p : P} (hl : IsList next (some p) (l₁ ++ l₂))
    (hp : p ∉ l₂) : ∃ l, l₁ = p :: l := by
  cases l₁ with
  | nil => exact absurd (List.mem_of_mem_head? hl.head.symm) hp
  | cons q l =>
    obtain rfl := Option.some.inj hl.1
    exact ⟨l, rfl⟩

/-- A node that came twice would be followed by two lists of different lengths. -/
theorem IsList.nodup {h : Option P} {l : List P} (hl : IsList next h l) : l.Nodup := by
  induction l generalizing h with
  | nil => exact .nil
  | cons p l ih =>
    refine List.nodup_cons.mpr ⟨fun hp => ?_, ih hl.2⟩
    obtain ⟨l₁, l₂, rfl⟩ := List.append_of_mem hp
    have hlen := congrArg List.length (hl.2.unique hl.2.tail)
    simp at hlen
    omega

theorem length_le_of_isList {n : ℕ} {next : Fin n → Option (Fin n)} {h : Option (Fin n)}
    {l : List (Fin n)} (hl : IsList next h l) : l.length ≤ n := by
  have hcard := hl.nodup.length_le_card
  rwa [Fintype.card_fin] at hcard

/-! ## Changes of one link -/

variable [DecidableEq P]

theorem IsList.update {h o : Option P} {l : List P} {p : P} (hl : IsList next h l) (hp : p ∉ l) :
    IsList (Function.update next p o) h l :=
  hl.congr fun _ hq => Function.update_of_ne (ne_of_mem_of_not_mem hq hp) ..

/-- The link of a node leads to another rest. -/
theorem IsList.relink {h o : Option P} {l₁ l₂ l₂' : List P} {e : P}
    (hl : IsList next h (l₁ ++ e :: l₂)) (ho : IsList next o l₂') (he : e ∉ l₂') :
    IsList (Function.update next e o) h (l₁ ++ e :: l₂') := by
  induction l₁ generalizing h with
  | nil =>
    refine ⟨hl.1, ?_⟩
    rw [Function.update_self]
    exact ho.update he
  | cons q l₁ ih =>
    have hne : q ≠ e := by
      rintro rfl
      exact (List.nodup_cons.mp hl.nodup).1 (by simp)
    refine ⟨hl.1, ?_⟩
    rw [Function.update_of_ne hne]
    exact ih hl.2

/-- A new node comes to the end. -/
theorem IsList.concat {h : Option P} {l : List P} {e p : P} (hl : IsList next h (l ++ [e]))
    (hp : p ∉ l ++ [e]) (hnil : next p = none) :
    IsList (Function.update next e (some p)) h (l ++ [e] ++ [p]) := by
  have he : e ∉ [p] := by
    intro h
    exact hp (by simp [List.mem_singleton.mp h])
  rw [List.append_assoc]
  exact hl.relink ⟨rfl, hnil⟩ he

/-- Past a node. -/
theorem IsList.unlink {h : Option P} {l₁ l₂ : List P} {e p : P}
    (hl : IsList next h (l₁ ++ e :: p :: l₂)) :
    IsList (Function.update next e (next p)) h (l₁ ++ e :: l₂) := by
  have he : e ∉ p :: l₂ := (List.nodup_cons.mp (List.nodup_append.mp hl.nodup).2.1).1
  have hrest : IsList next (next p) l₂ := by
    rw [List.append_cons] at hl
    exact hl.tail
  exact hl.relink hrest fun h => he (.tail _ h)

/-! ## Walks -/

/-- There is one step to take, and enough are left for the rest. -/
theorem exists_fuel {a fuel : ℕ} (h : a < fuel) : ∃ k, fuel = k + 1 ∧ a ≤ k :=
  ⟨fuel - 1, by omega, by omega⟩

/-- The first nodes, from `h` on. -/
def walk (next : P → Option P) : ℕ → Option P → List P
  | 0, _ => []
  | _, none => []
  | fuel + 1, some p => p :: walk next fuel (next p)

omit [DecidableEq P] in
theorem walk_eq {h : Option P} {l : List P} {fuel : ℕ} (hl : IsList next h l)
    (hfuel : l.length ≤ fuel) : walk next fuel h = l := by
  induction l generalizing h fuel with
  | nil =>
    obtain rfl : h = none := hl
    cases fuel <;> rfl
  | cons p l ih =>
    obtain ⟨fuel, rfl, hle⟩ := exists_fuel hfuel
    rw [hl.1, walk, ih hl.2 hle]

/-- The last node, from `p` on. -/
def endOf (next : P → Option P) : ℕ → P → Option P
  | 0, _ => none
  | fuel + 1, p =>
    match next p with
    | none => some p
    | some q => endOf next fuel q

omit [DecidableEq P] in
theorem endOf_eq {l : List P} {a e : P} {fuel : ℕ} (hl : IsList next (some a) (l ++ [e]))
    (hfuel : l.length < fuel) : endOf next fuel a = some e := by
  induction l generalizing a fuel with
  | nil =>
    obtain ⟨fuel, rfl⟩ := Nat.exists_eq_add_of_lt hfuel
    obtain rfl := Option.some.inj hl.1
    have hnil : next a = none := hl.2
    simp [endOf, hnil]
  | cons p l ih =>
    obtain ⟨fuel, rfl, hle⟩ := exists_fuel hfuel
    obtain rfl := Option.some.inj hl.1
    have hnext := hl.2.head
    obtain ⟨b, hb⟩ : ∃ b, (l ++ [e]).head? = some b := ⟨_, List.head?_eq_some_head (by simp)⟩
    replace hnext : next a = some b := hnext.trans hb
    rw [endOf, hnext]
    exact ih (hnext ▸ hl.2) hle

/-- The node before `p`, from `e` on, if there is one. -/
def prevOf (next : P → Option P) (p : P) : ℕ → P → Option (Option P)
  | 0, _ => none
  | fuel + 1, e =>
    match next e with
    | none => some none
    | some q => if q = p then some (some e) else prevOf next p fuel q

theorem prevOf_eq {l₁ l₂ : List P} {a e p : P} {fuel : ℕ}
    (hl : IsList next (some a) (l₁ ++ e :: p :: l₂)) (hfuel : l₁.length < fuel) :
    prevOf next p fuel a = some (some e) := by
  induction l₁ generalizing a fuel with
  | nil =>
    obtain ⟨fuel, rfl⟩ := Nat.exists_eq_add_of_lt hfuel
    obtain rfl := Option.some.inj hl.1
    have hnext : next a = some p := hl.2.1
    simp [prevOf, hnext]
  | cons q l₁ ih =>
    obtain ⟨fuel, rfl, hle⟩ := exists_fuel hfuel
    obtain rfl := Option.some.inj hl.1
    have hnext := hl.2.head
    obtain ⟨b, hb⟩ : ∃ b, (l₁ ++ e :: p :: l₂).head? = some b :=
      ⟨_, List.head?_eq_some_head (by simp)⟩
    replace hnext : next a = some b := hnext.trans hb
    have hne : b ≠ p := by
      rintro rfl
      have hnd := hl.2.nodup
      cases l₁ with
      | nil =>
        obtain rfl := Option.some.inj hb
        simp at hnd
      | cons c l₁ =>
        obtain rfl := Option.some.inj hb
        simp at hnd
    rw [prevOf, hnext]
    simp only [hne, if_false]
    exact ih (hnext ▸ hl.2) hle

/-- A node of a list is the first one or comes after another one. -/
theorem IsList.first_or_after {h : Option P} {l : List P} {p : P} (hl : IsList next h l)
    (hp : p ∈ l) : (h = some p ∧ IsList next (next p) (l.erase p)) ∨
      ∃ a l₁ e l₂, h = some a ∧ a ≠ p ∧ l = l₁ ++ e :: p :: l₂ ∧ l.erase p = l₁ ++ e :: l₂ := by
  cases l with
  | nil => cases hp
  | cons a l =>
    by_cases ha : a = p
    · subst ha
      rw [List.erase_cons_head]
      exact .inl hl
    · obtain ⟨m₁, l₂, hm⟩ := List.append_of_mem ((List.mem_cons.mp hp).resolve_left (Ne.symm ha))
      have hsplit : ∃ l₁ e, a :: m₁ = l₁ ++ [e] :=
        ⟨(a :: m₁).dropLast, _, (List.dropLast_append_getLast (by simp)).symm⟩
      obtain ⟨l₁, e, he⟩ := hsplit
      have heq : a :: l = l₁ ++ e :: p :: l₂ := by
        rw [hm, ← List.cons_append, he, List.append_assoc, List.singleton_append]
      refine .inr ⟨a, l₁, e, l₂, hl.1, ha, heq, ?_⟩
      have hnd := hl.nodup
      rw [heq] at hnd ⊢
      have hp₁ : p ∉ l₁ := fun h => (List.nodup_append.mp hnd).2.2 p h p (by simp) rfl
      have hpe : e ≠ p := by
        rintro rfl
        exact (List.nodup_cons.mp (List.nodup_append.mp hnd).2.1).1 (.head _)
      rw [List.erase_append_right _ hp₁, List.erase_cons_tail (by simpa using hpe),
        List.erase_cons_head]

end Filebench.Linked

import Mathlib.Tactic
import Mathlib.Data.List.TakeWhile

/-! # Sorted lists read in circular order

The circular order from a key starts at the least element that is not below the key and wraps
around at the end of the list. -/
namespace Filebench.Circular

variable {α κ : Type*} [LinearOrder κ]

def circular (key : α → κ) (k : κ) (l : List α) : List α :=
  l.dropWhile (fun x => decide (key x < k)) ++ l.takeWhile fun x => decide (key x < k)

theorem circular_perm (key : α → κ) (k : κ) (l : List α) : (circular key k l).Perm l :=
  List.perm_append_comm.trans (List.takeWhile_append_dropWhile ▸ .refl _)

theorem mem_circular {key : α → κ} {k : κ} {l : List α} {x : α} : x ∈ circular key k l ↔ x ∈ l :=
  (circular_perm key k l).mem_iff

@[simp] theorem circular_nil (key : α → κ) (k : κ) : circular key k [] = [] := rfl

theorem circular_eq_nil {key : α → κ} {k : κ} {l : List α} : circular key k l = [] ↔ l = [] := by
  rw [← List.length_eq_zero_iff, (circular_perm key k l).length_eq, List.length_eq_zero_iff]

theorem circular_append {key : α → κ} {k : κ} {u v : List α} (hu : ∀ x ∈ u, key x < k)
    (hv : ∀ x ∈ v, ¬ key x < k) : circular key k (u ++ v) = v ++ u := by
  have hdrop : v.dropWhile (fun x => decide (key x < k)) = v := by
    cases v with
    | nil => rfl
    | cons a v => simp [hv a (.head _)]
  have htake : v.takeWhile (fun x => decide (key x < k)) = [] := by
    cases v with
    | nil => rfl
    | cons a v => simp [hv a (.head _)]
  rw [circular, List.dropWhile_append_of_pos (by simpa using hu), hdrop,
    List.takeWhile_append_of_pos (by simpa using hu), htake, List.append_nil]

/-- A key right behind the first element in circular order puts that element last. -/
theorem circular_next {key : α → κ} {k k' : κ} {l : List α} {a : α} {rest : List α}
    (hsorted : l.Pairwise (key · < key ·)) (hc : circular key k l = a :: rest)
    (hk' : ∀ x ∈ l, key x < k' ↔ key x ≤ key a) : circular key k' l = rest ++ [a] := by
  have hl : l.takeWhile (fun x => decide (key x < k)) ++
      l.dropWhile (fun x => decide (key x < k)) = l := List.takeWhile_append_dropWhile
  rw [circular] at hc
  generalize l.takeWhile (fun x => decide (key x < k)) = u at hc hl
  generalize l.dropWhile (fun x => decide (key x < k)) = v at hc hl
  subst hl
  obtain ⟨-, hv, hcross⟩ := List.pairwise_append.mp hsorted
  cases v with
  | nil =>
    obtain rfl : u = a :: rest := by simpa using hc
    rw [List.append_nil] at hsorted hk' ⊢
    have hrest := (List.pairwise_cons.mp hsorted).1
    refine circular_append (u := [a]) ?_ fun x hx hlt => ?_
    · simpa using (hk' a (.head _)).mpr le_rfl
    · exact absurd (hrest x hx) ((hk' x (.tail _ hx)).mp hlt).not_gt
  | cons b v =>
    obtain ⟨rfl, rfl⟩ : b = a ∧ v ++ u = rest := by simpa using hc
    have hsplit : u ++ b :: v = (u ++ [b]) ++ v := List.append_cons u b v
    rw [hsplit, circular_append, List.append_assoc]
    · intro x hx
      refine (hk' x ?_).mpr ?_
      · rw [hsplit]
        exact List.mem_append_left _ hx
      · rcases List.mem_append.mp hx with hx | hx
        · exact (hcross x hx b (.head _)).le
        · rw [List.mem_singleton.mp hx]
    · intro x hx hlt
      refine absurd ((List.pairwise_cons.mp hv).1 x hx) ((hk' x ?_).mp hlt).not_gt
      rw [hsplit]
      exact List.mem_append_right _ hx

/-- The circular order starts at the first element that is not below the key, or else at the
first element. -/
theorem head?_circular (key : α → κ) (k : κ) (l : List α) :
    (circular key k l).head? = (l.find? fun x => decide (k ≤ key x)).or l.head? := by
  have hp : (fun x => decide (k ≤ key x)) = fun x => !decide (key x < k) := by
    funext x
    simp only [← not_lt, decide_not]
  rw [circular, List.head?_append, hp]
  induction l with
  | nil => rfl
  | cons a l ih =>
    by_cases ha : key a < k
    · simp only [List.dropWhile_cons, List.takeWhile_cons, List.find?_cons, ha, decide_true,
        if_true, Bool.not_true, List.head?_cons]
      cases hl : l.dropWhile fun x => decide (key x < k) with
      | nil =>
        have hall : ∀ x ∈ l, key x < k := by simpa using hl
        rw [List.find?_eq_none.mpr (by simpa using hall)]
        rfl
      | cons b m =>
        rw [hl, List.head?_cons, Option.some_or] at ih
        cases hf : l.find? fun x => !decide (key x < k) with
        | none =>
          have hall : ∀ x ∈ l, key x < k := by simpa using hf
          have hnil : (l.dropWhile fun x => decide (key x < k)) = [] :=
            List.dropWhile_eq_nil_iff.mpr (by simpa using hall)
          rw [hnil] at hl
          cases hl
        | some c => simpa [hf] using ih
    · simp [ha]

/-- Walking on in the list, and from its end to its start, is walking on in a rotation of it. -/
theorem rotate_next {a b pre post : List α} {y : α} (h : b ++ a = pre ++ y :: post) :
    ∃ l₁ l₂, a ++ b = l₁ ++ y :: l₂ ∧ l₂.head?.or (a ++ b).head? = (post ++ pre ++ [y]).head? := by
  rcases List.append_eq_append_iff.mp h with ⟨c, rfl, rfl⟩ | ⟨c, rfl, hc⟩
  · refine ⟨c, post ++ b, by simp, ?_⟩
    cases post <;> cases b <;> cases c <;> simp
  · cases c with
    | nil =>
      obtain rfl : a = y :: post := by simpa using hc.symm
      refine ⟨[], post ++ pre, by simp, ?_⟩
      cases post <;> cases pre <;> simp
    | cons z c =>
      obtain ⟨rfl, rfl⟩ : y = z ∧ post = c ++ a := by simpa using hc
      refine ⟨a ++ pre, c, by simp, ?_⟩
      cases c <;> cases a <;> cases pre <;> simp

end Filebench.Circular

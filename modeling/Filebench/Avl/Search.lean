import Filebench.Avl.Represent

/-! # Search and traversal on a represented tree

Walking follows the in-order listing, searching ends at the node with the key or at the place
where the listing has a gap for it. -/
namespace Filebench.Avl

open BinTree BinTree.BalTree

variable {α : Type*}

/-- The links and the root pointer of `tree` are those of `t`. -/
structure Shows (h : Links α) (tree : AvlTree α) (t : BalTree α) : Prop where
  rep : Rep h t none false
  root : tree.avlRoot = t.root

theorem Shows.path {h : Links α} {tree : AvlTree α} {π : Path α} {t : BalTree α}
    (hs : Shows h tree (plug π t)) : RepPath h π t.root := (rep_plug.mp hs.rep).1

theorem Shows.focus {h : Links α} {tree : AvlTree α} {π : Path α} {t : BalTree α}
    (hs : Shows h tree (plug π t)) : Rep h t (parentOf π) (dirOf π) := (rep_plug.mp hs.rep).2

theorem avlDescend_rep {h : Links α} (dir : Bool) {t : BalTree α} {p : Option α} {d : Bool} {a : α}
    (hr : Rep h t p d) (ha : t.root = some a) {fuel : ℕ} (hfuel : t.height ≤ fuel) :
    avlDescend h dir fuel a = edge dir t.inorder := by
  induction t generalizing p d a fuel with
  | nil => cases ha
  | node l x b r ihl ihr =>
    cases ha
    obtain ⟨fuel, rfl⟩ := Nat.exists_eq_succ_of_ne_zero (by simp [height] at hfuel; omega : fuel ≠ 0)
    simp only [height] at hfuel
    simp only [avlDescend, hr.1, Option.bind_eq_bind, Option.bind_some]
    cases dir with
    | false =>
      cases l with
      | nil => rfl
      | node l₁ y b₁ r₁ =>
        rw [show (bif false then r.root else (node l₁ y b₁ r₁).root) = some y from rfl]
        refine (ihl hr.2.1 rfl (by omega)).trans ?_
        simp [edge, inorder, List.head?_append]
    | true =>
      cases r with
      | nil => simp [root, edge, inorder]
      | node l₁ y b₁ r₁ =>
        rw [show (bif true then (node l₁ y b₁ r₁).root else l.root) = some y from rfl]
        refine (ihr hr.2.2 rfl (by omega)).trans ?_
        simp only [edge, cond_true]
        rw [inorder.eq_def (node l x b _), List.getLast?_append_of_ne_nil _ (by simp),
          List.getLast?_cons_of_ne_nil (by simp [inorder])]

theorem avlAscend_rep {h : Links α} (right : Bool) {π : Path α} {a : α} {c : Bool → Option α} {b : ℤ}
    (hpath : RepPath h π (some a)) (ha : h a = some ⟨c, parentOf π, dirOf π, b⟩) {fuel : ℕ}
    (hfuel : π.length < fuel) :
    avlAscend h right fuel a = some (edge right (bif right then before π else after π)) := by
  induction π generalizing a c b fuel with
  | nil =>
    obtain ⟨fuel, rfl⟩ := Nat.exists_eq_succ_of_ne_zero (by omega : fuel ≠ 0)
    cases right <;> simp [avlAscend, ha, parentOf, edge, before, after]
  | cons u π ih =>
    obtain ⟨fuel, rfl⟩ := Nat.exists_eq_succ_of_ne_zero (by omega : fuel ≠ 0)
    simp only [avlAscend, ha, parentOf, dirOf, Option.bind_eq_bind, Option.bind_some]
    split_ifs with hu
    · subst hu
      cases hd : u.dir <;> simp [edge, before, after, hd]
    · rw [ih hpath.2.2 hpath.1 (by simp at hfuel; omega)]
      cases right <;> cases hd : u.dir <;> simp_all [edge, before, after]

/-- `AVL_NEXT` at a focus. -/
theorem avlWalk_next_focus {h : Links α} {tree : AvlTree α} {π : Path α} {l r : BalTree α} {a : α}
    {b : ℤ} (hs : Shows h tree (plug π (node l a b r))) {fuel : ℕ}
    (hfuel : (plug π (node l a b r)).inorder.length < fuel) :
    avlWalk fuel h a true = some (r.inorder ++ after π).head? := by
  have hlen := length_plug π (node l a b r)
  have hπ := length_le_nodes π
  have hh := height_le_length (node l a b r)
  simp only [avlWalk, hs.focus.1, Option.bind_eq_bind, Option.bind_some, cond_true]
  cases r with
  | nil =>
    rw [root, inorder, List.nil_append]
    exact avlAscend_rep false hs.path hs.focus.1 (by omega)
  | node l₁ y b₁ r₁ =>
    simp only [root, Bool.not_true]
    rw [avlDescend_rep false hs.focus.2.2 rfl (by simp only [height] at hh ⊢; omega)]
    simp [edge, inorder, List.head?_append]

/-- `AVL_PREV` at a focus. -/
theorem avlWalk_prev_focus {h : Links α} {tree : AvlTree α} {π : Path α} {l r : BalTree α} {a : α}
    {b : ℤ} (hs : Shows h tree (plug π (node l a b r))) {fuel : ℕ}
    (hfuel : (plug π (node l a b r)).inorder.length < fuel) :
    avlWalk fuel h a false = some (before π ++ l.inorder).getLast? := by
  have hlen := length_plug π (node l a b r)
  have hπ := length_le_nodes π
  have hh := height_le_length (node l a b r)
  simp only [avlWalk, hs.focus.1, Option.bind_eq_bind, Option.bind_some, cond_false]
  cases l with
  | nil =>
    rw [root, inorder, List.append_nil]
    exact avlAscend_rep true hs.path hs.focus.1 (by omega)
  | node l₁ y b₁ r₁ =>
    simp only [root, Bool.not_false]
    rw [avlDescend_rep true hs.focus.2.1 rfl (by simp only [height] at hh ⊢; omega)]
    rw [edge, cond_true, List.getLast?_append_of_ne_nil _ (by simp [inorder])]
    simp [inorder, List.getLast?_append, List.getLast?_cons]

/-- `AVL_NEXT` delivers the successor in the in-order listing. -/
theorem avlWalk_next {h : Links α} {tree : AvlTree α} {t : BalTree α} (hs : Shows h tree t)
    (hn : t.inorder.Nodup) {a : α} {l₁ l₂ : List α} (ht : t.inorder = l₁ ++ a :: l₂) {fuel : ℕ}
    (hfuel : t.inorder.length < fuel) : avlWalk fuel h a true = some l₂.head? := by
  obtain ⟨π, l, b, r, rfl⟩ := exists_focus (by simp [ht] : a ∈ t.inorder)
  rw [avlWalk_next_focus hs hfuel]
  have hfocus : before π ++ l.inorder ++ a :: (r.inorder ++ after π) = l₁ ++ a :: l₂ := by
    simp [← ht, inorder_plug, inorder]
  rw [ht, ← hfocus] at hn
  have hsplit := (List.append_cons_inj_of_notMem
    (fun hm => (List.nodup_append.mp hn).2.2 a hm a (by simp) rfl)
    (List.nodup_cons.mp hn.of_append_right).1).mp hfocus
  rw [hsplit.2.2]

theorem avlFirst_shows {h : Links α} {tree : AvlTree α} {t : BalTree α} (hs : Shows h tree t)
    {fuel : ℕ} (hfuel : t.inorder.length < fuel) :
    avlFirst fuel h tree = some t.inorder.head? := by
  have hh := height_le_length t
  cases t with
  | nil => simp [avlFirst, hs.root, root, inorder]
  | node l a b r =>
    simp only [avlFirst, hs.root, root]
    rw [avlDescend_rep false hs.rep rfl (by omega)]
    simp [edge, inorder, List.head?_append]

variable {κ : Type*} [LinearOrder κ]

/-- What a search for `k` may answer: the node with the key, or the place for it. -/
def Finds (t : BalTree α) (key : α → κ) (k : κ) : AvlFind α → Prop
  | .found a => a ∈ t.inorder ∧ key a = k
  | .missing prev child => ∃ π, t = plug π nil ∧ prev = parentOf π ∧ child = dirOf π ∧
      (∀ x ∈ before π, key x < k) ∧ ∀ x ∈ after π, k < key x

theorem avlFindLoop_shows {h : Links α} {tree : AvlTree α} {key : α → κ} {k : κ} {π : Path α}
    {t : BalTree α} (hs : Shows h tree (plug π t))
    (hsort : (plug π t).inorder.Pairwise (key · < key ·))
    (hlo : ∀ x ∈ before π, key x < k) (hhi : ∀ x ∈ after π, k < key x) {fuel : ℕ}
    (hfuel : t.height < fuel) :
    ∃ r, avlFindLoop h key k fuel t.root (parentOf π) (dirOf π) = some r ∧
      Finds (plug π t) key k r := by
  induction t generalizing π fuel with
  | nil =>
    obtain ⟨fuel, rfl⟩ := Nat.exists_eq_succ_of_ne_zero (by omega : fuel ≠ 0)
    exact ⟨_, rfl, π, rfl, rfl, rfl, hlo, hhi⟩
  | node l a b r ihl ihr =>
    obtain ⟨fuel, rfl⟩ := Nat.exists_eq_succ_of_ne_zero (by omega : fuel ≠ 0)
    have hsort' := hsort
    simp only [inorder_plug, inorder, List.append_assoc, List.cons_append] at hsort'
    obtain ⟨-, hin, -⟩ := List.pairwise_append.mp hsort'
    obtain ⟨-, hin', hla⟩ := List.pairwise_append.mp hin
    obtain ⟨har, -⟩ := List.pairwise_cons.mp hin'
    simp only [height] at hfuel
    simp only [avlFindLoop, root, hs.focus.1, Option.bind_eq_bind, Option.bind_some]
    split_ifs with hk
    · exact ⟨_, rfl, by simp [mem_plug, inorder], hk.symm⟩
    by_cases hlt : key a < k
    · simp only [hlt, decide_true, cond_true]
      refine ihr (π := ⟨true, a, b, l⟩ :: π) hs hsort ?_ ?_ (by omega)
      · simp only [before, cond_true, List.mem_append, List.mem_singleton]
        rintro x (hx | hx | rfl)
        · exact hlo x hx
        · exact (hla x hx a (by simp)).trans hlt
        · exact hlt
      · simpa [after] using hhi
    · simp only [hlt, decide_false, cond_false]
      have hgt : k < key a := lt_of_le_of_ne (not_lt.mp hlt) hk
      refine ihl (π := ⟨false, a, b, r⟩ :: π) hs hsort ?_ ?_ (by omega)
      · simpa [before] using hlo
      · simp only [after, cond_false, List.mem_append, List.mem_cons]
        rintro x ((rfl | hx) | hx)
        · exact hgt
        · exact hgt.trans (har x (by simp [hx]))
        · exact hhi x hx

theorem avlFind_shows {h : Links α} {tree : AvlTree α} {key : α → κ} {t : BalTree α} (k : κ)
    (hs : Shows h tree t) (hsort : t.inorder.Pairwise (key · < key ·)) {fuel : ℕ}
    (hfuel : t.inorder.length < fuel) :
    ∃ r, avlFind fuel h tree key k = some r ∧ Finds t key k r := by
  rw [avlFind, hs.root]
  exact avlFindLoop_shows (π := []) hs hsort (by simp [before]) (by simp [after])
    ((height_le_length t).trans_lt hfuel)

/-- After a search without success, `avl_nearest` delivers a neighbour of the gap. -/
theorem avlNearest_shows {h : Links α} {tree : AvlTree α} {π : Path α} (direction : Bool)
    (hs : Shows h tree (plug π nil)) {fuel : ℕ} (hfuel : (plug π nil).inorder.length < fuel) :
    avlNearest fuel h (parentOf π) (dirOf π) direction =
      some (edge (!direction) (bif direction then after π else before π)) := by
  cases π with
  | nil => cases direction <;> rfl
  | cons c π =>
    by_cases hd : c.dir = direction
    · simp only [avlNearest, parentOf, dirOf, hd, ne_eq, not_true_eq_false, if_false]
      rw [plug, hd] at hs hfuel
      cases direction with
      | false =>
        rw [avlWalk_prev_focus hs hfuel]
        simp [edge, before, hd, inorder]
      | true =>
        rw [avlWalk_next_focus hs hfuel]
        simp [edge, after, hd, inorder]
    · simp only [avlNearest, parentOf, dirOf, ne_eq, hd, not_false_eq_true, if_true]
      have hc : c.dir = !direction := Bool.eq_not_of_ne hd
      cases direction <;> simp [edge, before, after, hc]

end Filebench.Avl

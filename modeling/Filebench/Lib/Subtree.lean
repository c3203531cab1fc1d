import Filebench.Lib.BinTree

/-! # Subtrees of height-balanced trees

Where a new node ends up: an insertion leaves it near the bottom, so that among the nodes after it
one has two children as soon as there are two of them. -/
namespace Filebench.BinTree

open BalTree

variable {α : Type*}

def Sub (s : BalTree α) : BalTree α → Prop
  | nil => s = nil
  | node l a b r => s = node l a b r ∨ Sub s l ∨ Sub s r

theorem Sub.refl (t : BalTree α) : Sub t t := by
  cases t with
  | nil => rfl
  | node l a b r => exact .inl rfl

theorem sub_mk {s x y : BalTree α} {d : Bool} {a : α} {b : ℤ} :
    Sub s (mk d a b x y) ↔ s = mk d a b x y ∨ Sub s x ∨ Sub s y := by
  cases d
  · exact Iff.rfl
  · exact or_congr_right or_comm

theorem Sub.plug {s t : BalTree α} (h : Sub s t) (π : Path α) : Sub s (plug π t) := by
  induction π generalizing t with
  | nil => exact h
  | cons c π ih => exact ih (sub_mk.mpr (.inr (.inl h)))

theorem Sub.mem {l r t : BalTree α} {a : α} {b : ℤ} (h : Sub (node l a b r) t) :
    a ∈ t.inorder := by
  induction t with
  | nil => cases h
  | node l' a' b' r' ihl ihr =>
    rw [inorder, List.mem_append, List.mem_cons]
    rcases h with h | h | h
    · obtain ⟨-, rfl, -⟩ := node.inj h
      exact .inr (.inl rfl)
    · exact .inl (ihl h)
    · exact .inr (.inr (ihr h))

/-- A subtree is what a path has at its focus. -/
theorem Sub.exists_plug {l r t : BalTree α} {a : α} {b : ℤ} (h : Sub (node l a b r) t) :
    ∃ π, t = BinTree.plug π (node l a b r) := by
  induction t with
  | nil => cases h
  | node l' a' b' r' ihl ihr =>
    rcases h with h | h | h
    · exact ⟨[], h.symm⟩
    · obtain ⟨π, hπ⟩ := ihl h
      exact ⟨π ++ [⟨false, a', b', r'⟩], by rw [plug_append, ← hπ]; rfl⟩
    · obtain ⟨π, hπ⟩ := ihr h
      exact ⟨π ++ [⟨true, a', b', l'⟩], by rw [plug_append, ← hπ]; rfl⟩

theorem height_leaf (a : α) (b : ℤ) : (node nil a b nil : BalTree α).height = 1 := rfl

/-- A leaf of a tree that is too high stays a leaf, or else becomes the root of two leaves. -/
theorem sub_rotate {d : Bool} {a e : α} {b : ℤ} {t s : BalTree α} (ht : Balanced t)
    (hheight : t.height = s.height + 2) (hsub : Sub (node nil e b nil) t) :
    ∃ u, Sub u (rotate d a t s).1 ∧ u.root = some e ∧ u.height ≤ 2 := by
  have hleaf : (node nil e b nil : BalTree α).height ≤ 2 := (height_leaf e b).trans_le one_le_two
  have hne : node nil e b nil ≠ t := by
    intro heq
    rw [← heq, height_leaf] at hheight
    omega
  rcases heavy_cases d ht hheight with ⟨k, cb, x, y, rfl, hcb⟩ | ⟨k, g, gb, x, gl, gr, rfl⟩
  · rw [rotate_single d a k cb x y s hcb]
    refine ⟨_, ?_, rfl, hleaf⟩
    rcases sub_mk.mp hsub with heq | hsub | hsub
    · exact absurd heq hne
    · exact sub_mk.mpr (.inr (.inl hsub))
    · exact sub_mk.mpr (.inr (.inr (sub_mk.mpr (.inr (.inl hsub)))))
  · rw [rotate_double]
    rcases sub_mk.mp hsub with heq | hsub | hsub
    · exact absurd heq hne
    · exact ⟨_, sub_mk.mpr (.inr (.inl (sub_mk.mpr (.inr (.inl hsub))))), rfl, hleaf⟩
    · rcases sub_mk.mp hsub with heq | hsub | hsub
      · have hroot := congrArg root heq
        rw [root_mk] at hroot
        obtain rfl := Option.some.inj hroot
        have hone := congrArg height heq
        obtain ⟨-, -, hbal, -⟩ := balanced_mk.mp ht
        rw [← heq, height_leaf, sgn_not] at hbal
        rw [height_leaf, height_mk] at hone
        rw [height_mk, ← heq, height_leaf] at hheight
        refine ⟨_, .refl _, root_mk .., ?_⟩
        simp only [height_mk]
        rcases sgn_cases d with hd | hd
        · rw [hd] at hbal
          omega
        · rw [hd] at hbal
          omega
      · exact ⟨_, sub_mk.mpr (.inr (.inl (sub_mk.mpr (.inr (.inr hsub))))), rfl, hleaf⟩
      · exact ⟨_, sub_mk.mpr (.inr (.inr (sub_mk.mpr (.inr (.inl hsub))))), rfl, hleaf⟩

/-- A new leaf is near the bottom after the rebalancing. -/
theorem sub_regrow {π : Path α} {t : BalTree α} {e : α} {b : ℤ} {H : ℕ} (hπ : PathBal π H)
    (ht : Balanced t) (hH : t.height = H + 1) (hsub : Sub (node nil e b nil) t) :
    ∃ u, Sub u (regrow π t) ∧ u.root = some e ∧ u.height ≤ 2 := by
  induction π generalizing t H with
  | nil => exact ⟨_, hsub, rfl, one_le_two⟩
  | cons c π ih =>
    obtain ⟨hs, hb, hlo, hhi, hπ⟩ := hπ
    have hd := sgn_cases c.dir
    rw [regrow]
    split_ifs with h₁ h₂
    · exact ⟨_, (sub_mk.mpr (.inr (.inl hsub))).plug π, rfl, one_le_two⟩
    · have htall : t.height = c.sib.height + 2 := by
        rcases hd with hd | hd
        · rw [hd] at hb h₁
          omega
        · rw [hd] at hb h₁
          omega
      obtain ⟨u, hu, hroot, hlow⟩ := sub_rotate (a := c.key) ht htall hsub
      exact ⟨u, hu.plug π, hroot, hlow⟩
    · refine ih hπ ?_ ?_ (sub_mk.mpr (.inr (.inl hsub)))
      · rw [balanced_mk]
        rcases hd with hd | hd
        · rw [hd] at hb h₁ ⊢
          exact ⟨ht, hs, by omega, by omega, by omega⟩
        · rw [hd] at hb h₁ ⊢
          exact ⟨ht, hs, by omega, by omega, by omega⟩
      · rw [height_mk]
        rcases hd with hd | hd
        · rw [hd] at hb h₁
          omega
        · rw [hd] at hb h₁
          omega

section order

variable {κ : Type*} [LinearOrder κ] (key : α → κ)

/-- What comes after `e` in key order. -/
def later (e : α) (l : List α) : List α := l.filter fun x => key e < key x

theorem later_append (e : α) (l l' : List α) :
    later key e (l ++ l') = later key e l ++ later key e l' := List.filter_append ..

variable {key}

theorem later_eq_nil {e : α} {l : List α} (h : ∀ x ∈ l, key x ≤ key e) : later key e l = [] :=
  List.filter_eq_nil_iff.mpr fun x hx => by simpa using h x hx

theorem later_eq_self {e : α} {l : List α} (h : ∀ x ∈ l, key e < key x) : later key e l = l :=
  List.filter_eq_self.mpr fun x hx => by simpa using h x hx

theorem later_middle {e : α} {l₁ l₂ : List α}
    (hsorted : (l₁ ++ e :: l₂).Pairwise (key · < key ·)) : later key e (l₁ ++ e :: l₂) = l₂ := by
  obtain ⟨-, hright, hcross⟩ := List.pairwise_append.mp hsorted
  have hafter := (List.pairwise_cons.mp hright).1
  rw [later_append, later_eq_nil fun x hx => (hcross x hx e (.head _)).le, List.nil_append,
    ← List.singleton_append, later_append, later_eq_nil (by simp), List.nil_append,
    later_eq_self hafter]

theorem later_cons_self (e : α) (l : List α) : later key e (e :: l) = later key e l := by
  rw [← List.singleton_append, later_append, later_eq_nil (by simp), List.nil_append]

theorem length_le_of_height {t : BalTree α} (h : t.height ≤ 1) : t.inorder.length ≤ 1 := by
  cases t with
  | nil => exact Nat.zero_le _
  | node l a b r =>
    simp only [height] at h
    have hl : l = nil := by
      cases l with
      | nil => rfl
      | node => simp [height] at h
    have hr : r = nil := by
      cases r with
      | nil => rfl
      | node => simp [height] at h
    subst hl hr
    simp [inorder]

/-- With two nodes after a low one, one of those after it has two children. -/
theorem exists_two_children {t u : BalTree α} {e : α} (ht : Balanced t)
    (hsorted : t.inorder.Pairwise (key · < key ·)) (hsub : Sub u t) (hroot : u.root = some e)
    (hlow : u.height ≤ 2) (htwo : 2 ≤ (later key e t.inorder).length) :
    ∃ l f b r, Sub (node l f b r) t ∧ key e < key f ∧ l ≠ nil ∧ r ≠ nil := by
  induction t with
  | nil =>
    rw [inorder] at htwo
    simp [later] at htwo
  | node l a b r ihl ihr =>
    obtain ⟨hl, hr, hb, hlo, hhi⟩ := ht
    rw [inorder] at hsorted htwo
    obtain ⟨hsl, hsr, hcross⟩ := List.pairwise_append.mp hsorted
    obtain ⟨har, hsr⟩ := List.pairwise_cons.mp hsr
    have hmem : ∀ x, u.root = some x → ∀ v, Sub u v → x ∈ v.inorder := by
      intro x hx v hv
      cases u with
      | nil => cases hx
      | node l' a' b' r' =>
        obtain rfl := Option.some.inj hx
        exact hv.mem
    rcases hsub with rfl | hsub | hsub
    · obtain rfl := Option.some.inj hroot
      have hright := later_middle hsorted
      rw [hright] at htwo
      have hone := length_le_of_height (t := r) (by simp only [height] at hlow; omega)
      omega
    · have hel := hmem e hroot l hsub
      have hea := hcross e hel a (.head _)
      by_cases hnil : r = nil
      · subst hnil
        have hone := length_le_of_height (t := l) (by simp only [height] at hb; omega)
        obtain ⟨x, hx⟩ := List.length_eq_one_iff.mp
          (le_antisymm hone (List.length_pos_of_mem hel))
        rw [hx, List.mem_singleton] at hel
        rw [hx, hel, later_append, later_eq_nil (by simp)] at htwo
        have hlen := (List.length_filter_le (fun y => decide (key x < key y)) [a])
        rw [inorder, List.nil_append] at htwo
        exact absurd (htwo.trans hlen) (Nat.not_succ_le_self 1)
      · have hlnil : l ≠ nil := by
          rintro rfl
          cases hel
        exact ⟨l, a, b, r, .refl _, hea, hlnil, hnil⟩
    · have her := hmem e hroot r hsub
      have hae := har e her
      have hright : later key e (l.inorder ++ a :: r.inorder) = later key e r.inorder := by
        rw [later_append, later_eq_nil fun x hx => (hcross x hx e (.tail _ her)).le,
          List.nil_append, ← List.singleton_append, later_append,
          later_eq_nil (by simpa using hae.le), List.nil_append]
      rw [hright] at htwo
      obtain ⟨l', f, b', r', hsub', hef, hl', hr'⟩ := ihr hr hsr hsub htwo
      exact ⟨l', f, b', r', .inr (.inr hsub'), hef, hl', hr'⟩

end order

end Filebench.BinTree

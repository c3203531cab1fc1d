import Filebench.Lib.BinTree

/-! # Post-order around a focus

A tree is taken down from its leaves. With nothing left before the focus, the nodes that are yet to
come are read off the path. -/
namespace Filebench.BinTree

open BalTree

variable {α : Type*} {π ρ : Path α} {t : BalTree α} {a : α}

def BalTree.postorder : BalTree α → List α
  | nil => []
  | node l a _ r => l.postorder ++ r.postorder ++ [a]

/-- What comes after the focus in post-order. -/
def pending : Path α → List α
  | [] => []
  | c :: π => (bif c.dir then [] else c.sib.postorder) ++ c.key :: pending π

/-- Nothing is left on the left of the path. -/
def Down (π : Path α) : Prop := ∀ c ∈ π, c.dir = true → c.sib = nil

theorem down_cons {c : Crumb α} : Down (c :: π) ↔ (c.dir = true → c.sib = nil) ∧ Down π :=
  List.forall_mem_cons

theorem down_of_false (h : ∀ c ∈ π, c.dir = false) : Down π :=
  fun c hc hdir => absurd ((h c hc).symm.trans hdir) Bool.false_ne_true

theorem down_append : Down (π ++ ρ) ↔ Down π ∧ Down ρ :=
  List.forall_mem_append

theorem pending_append (π ρ : Path α) : pending (π ++ ρ) = pending π ++ pending ρ := by
  induction π with
  | nil => rfl
  | cons c π ih => simp [pending, ih]

theorem postorder_plug (h : Down π) (t : BalTree α) :
    (plug π t).postorder = t.postorder ++ pending π := by
  induction π generalizing t with
  | nil => simp [plug, pending]
  | cons c π ih =>
    obtain ⟨hc, hπ⟩ := down_cons.mp h
    rw [plug, ih hπ, pending]
    cases hd : c.dir with
    | false => simp [mk, postorder]
    | true => simp [mk, postorder, hc hd]

theorem postorder_perm (t : BalTree α) : t.postorder.Perm t.inorder := by
  induction t with
  | nil => exact .nil
  | node l a b r ihl ihr =>
    have hroot : (l.inorder ++ (r.inorder ++ [a])).Perm (l.inorder ++ a :: r.inorder) :=
      (List.perm_append_singleton a r.inorder).append_left l.inorder
    rw [postorder, inorder, List.append_assoc]
    exact (ihl.append (ihr.append_right [a])).trans hroot

theorem nodes_append (π ρ : Path α) : nodes (π ++ ρ) = nodes π ++ nodes ρ := by
  induction π with
  | nil => rfl
  | cons c π ih => simp [nodes, ih]

/-- The crumbs of a path that hangs in a balanced tree. -/
theorem balanced_sib {H : ℕ} (h : PathBal π H) : ∀ c ∈ π, Balanced c.sib := by
  induction π generalizing H with
  | nil => exact fun c hc => absurd hc List.not_mem_nil
  | cons c π ih => exact List.forall_mem_cons.mpr ⟨h.1, ih h.2.2.2.2⟩

/-- A node without a left child has a leaf on the right, or nothing. -/
theorem right_of_balanced {b : ℤ} {r : BalTree α} (h : Balanced (node nil a b r)) :
    r = nil ∨ ∃ z b', r = node nil z b' nil := by
  obtain ⟨-, hr, hb, -, hle⟩ := h
  cases r with
  | nil => exact .inl rfl
  | node l z b' r =>
    simp only [height] at hb
    have hl : l.height = 0 := by omega
    have hr' : r.height = 0 := by omega
    cases l with
    | node => simp [height] at hl
    | nil =>
      cases r with
      | node => simp [height] at hr'
      | nil => exact .inr ⟨z, b', rfl⟩

end Filebench.BinTree

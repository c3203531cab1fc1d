import Mathlib.Tactic

/-! # Height-balanced binary trees with a zipper

A node carries its stored balance (height of the right subtree minus height of the left
one). Directions are Booleans, `true` to the right, so that a mirrored pair of cases is one
case. A path lists the crumbs from a focus up to the root, nearest ancestor first. -/
namespace Filebench.BinTree

inductive BalTree (α : Type*) where
  | nil
  | node (l : BalTree α) (a : α) (b : ℤ) (r : BalTree α)
  deriving DecidableEq, Repr

variable {α : Type*}

namespace BalTree

def root : BalTree α → Option α
  | nil => none
  | node _ a _ _ => some a

def inorder : BalTree α → List α
  | nil => []
  | node l a _ r => l.inorder ++ a :: r.inorder

def height : BalTree α → ℕ
  | nil => 0
  | node l _ _ r => max l.height r.height + 1

def bal : BalTree α → ℤ
  | nil => 0
  | node _ _ b _ => b

/-- The subtree in direction `d`. -/
def sub (d : Bool) : BalTree α → BalTree α
  | nil => nil
  | node l _ _ r => bif d then r else l

/-- A node with `x` in direction `d` and `y` in the opposite one. -/
def mk (d : Bool) (a : α) (b : ℤ) (x y : BalTree α) : BalTree α :=
  bif d then node y a b x else node x a b y

end BalTree

open BalTree

/-- The balance contributed by a direction: `-1` for the left, `1` for the right. -/
def sgn (d : Bool) : ℤ := bif d then 1 else -1

@[simp] theorem sgn_false : sgn false = -1 := rfl
@[simp] theorem sgn_true : sgn true = 1 := rfl
@[simp] theorem sgn_not (d : Bool) : sgn (!d) = -sgn d := by cases d <;> rfl

theorem sgn_cases (d : Bool) : sgn d = 1 ∨ sgn d = -1 := by cases d <;> simp

/-- Every stored balance is the height difference of the subtrees and at most one. -/
def Balanced : BalTree α → Prop
  | nil => True
  | node l _ b r => Balanced l ∧ Balanced r ∧ b = (r.height : ℤ) - l.height ∧ -1 ≤ b ∧ b ≤ 1

@[simp] theorem root_mk (d : Bool) (a : α) (b : ℤ) (x y : BalTree α) :
    (mk d a b x y).root = some a := by cases d <;> rfl

@[simp] theorem bal_mk (d : Bool) (a : α) (b : ℤ) (x y : BalTree α) :
    (mk d a b x y).bal = b := by cases d <;> rfl

@[simp] theorem height_mk (d : Bool) (a : α) (b : ℤ) (x y : BalTree α) :
    (mk d a b x y).height = max x.height y.height + 1 := by
  cases d <;> simp [mk, height, max_comm]

@[simp] theorem sub_mk_self (d : Bool) (a : α) (b : ℤ) (x y : BalTree α) :
    (mk d a b x y).sub d = x := by cases d <;> rfl

@[simp] theorem sub_mk_not (d : Bool) (a : α) (b : ℤ) (x y : BalTree α) :
    (mk d a b x y).sub (!d) = y := by cases d <;> rfl

theorem mk_not (d : Bool) (a : α) (b : ℤ) (x y : BalTree α) : mk (!d) a b x y = mk d a b y x := by
  cases d <;> rfl

theorem node_eq_mk (d : Bool) (l : BalTree α) (a : α) (b : ℤ) (r : BalTree α) :
    node l a b r = mk d a b ((node l a b r).sub d) ((node l a b r).sub (!d)) := by
  cases d <;> rfl

theorem balanced_mk {d : Bool} {a : α} {b : ℤ} {x y : BalTree α} :
    Balanced (mk d a b x y) ↔ Balanced x ∧ Balanced y ∧
      b = sgn d * ((x.height : ℤ) - y.height) ∧ -1 ≤ b ∧ b ≤ 1 := by
  cases d <;> simp only [mk, cond_true, cond_false, Balanced, sgn_true, sgn_false] <;>
    constructor <;> rintro ⟨h₁, h₂, h₃, h₄⟩ <;> refine ⟨?_, ?_, ?_, h₄⟩ <;>
    first | assumption | omega

theorem mem_inorder_mk {d : Bool} {a : α} {b : ℤ} {x y : BalTree α} {z : α} :
    z ∈ (mk d a b x y).inorder ↔ z = a ∨ z ∈ x.inorder ∨ z ∈ y.inorder := by
  cases d <;> simp [mk, inorder] <;> tauto

@[simp] theorem inorder_mk_bal (d : Bool) (a : α) (b b' : ℤ) (x y : BalTree α) :
    (mk d a b x y).inorder = (mk d a b' x y).inorder := by cases d <;> rfl

/-- One ancestor of the focus: the direction taken below it and the subtree not taken. -/
structure Crumb (α : Type*) where
  dir : Bool
  key : α
  bal : ℤ
  sib : BalTree α

abbrev Path (α : Type*) := List (Crumb α)

def plug : Path α → BalTree α → BalTree α
  | [], t => t
  | c :: π, t => plug π (mk c.dir c.key c.bal t c.sib)

/-- In-order listing of everything before the focus. -/
def before : Path α → List α
  | [] => []
  | c :: π => before π ++ bif c.dir then c.sib.inorder ++ [c.key] else []

/-- In-order listing of everything after the focus. -/
def after : Path α → List α
  | [] => []
  | c :: π => (bif c.dir then [] else c.key :: c.sib.inorder) ++ after π

theorem plug_append (π ρ : Path α) (t : BalTree α) : plug (π ++ ρ) t = plug ρ (plug π t) := by
  induction π generalizing t with
  | nil => rfl
  | cons c π ih => exact ih _

theorem inorder_plug (π : Path α) (t : BalTree α) :
    (plug π t).inorder = before π ++ t.inorder ++ after π := by
  induction π generalizing t with
  | nil => simp [plug, before, after]
  | cons c π ih =>
    rw [plug, ih]
    cases h : c.dir <;> simp [mk, before, after, inorder, h]

/-- The node above the focus, if there is one. -/
def parentOf : Path α → Option α
  | [] => none
  | c :: _ => some c.key

/-- The side on which the focus hangs; a root counts as a left child. -/
def dirOf : Path α → Bool
  | [] => false
  | c :: _ => c.dir

/-- The nodes of a path, in no particular order. -/
def nodes : Path α → List α
  | [] => []
  | c :: π => c.key :: (c.sib.inorder ++ nodes π)

theorem inorder_mk_perm (d : Bool) (a : α) (b : ℤ) (x y : BalTree α) :
    (mk d a b x y).inorder.Perm (a :: (x.inorder ++ y.inorder)) := by
  cases d
  · exact List.perm_middle
  · exact List.perm_middle.trans (List.Perm.cons a List.perm_append_comm)

theorem inorder_plug_perm (π : Path α) (t : BalTree α) :
    (plug π t).inorder.Perm (t.inorder ++ nodes π) := by
  induction π generalizing t with
  | nil => simp [plug, nodes]
  | cons c π ih =>
    refine (ih _).trans (((inorder_mk_perm ..).append_right _).trans ?_)
    have hmid : (c.key :: (t.inorder ++ (c.sib.inorder ++ nodes π))).Perm
        (t.inorder ++ c.key :: (c.sib.inorder ++ nodes π)) := List.perm_middle.symm
    simpa [nodes] using hmid

theorem count_inorder_mk [DecidableEq α] (z : α) (d : Bool) (a : α) (b : ℤ) (x y : BalTree α) :
    (mk d a b x y).inorder.count z =
      x.inorder.count z + y.inorder.count z + if a = z then 1 else 0 := by
  rw [(inorder_mk_perm d a b x y).count_eq z, List.count_cons, List.count_append]
  simp only [beq_iff_eq]

theorem nodup_plug {π : Path α} {t : BalTree α} :
    (plug π t).inorder.Nodup ↔ (t.inorder ++ nodes π).Nodup :=
  (inorder_plug_perm ..).nodup_iff

theorem mem_plug {π : Path α} {t : BalTree α} {z : α} :
    z ∈ (plug π t).inorder ↔ z ∈ t.inorder ∨ z ∈ nodes π := by
  rw [(inorder_plug_perm π t).mem_iff, List.mem_append]

theorem parentOf_mem {π : Path α} {p : α} (h : parentOf π = some p) : p ∈ nodes π := by
  cases π with
  | nil => cases h
  | cons c π => cases h; simp [nodes]

/-- Only an empty path lets the focus decide the root. -/
theorem root_plug (π : Path α) (t t' : BalTree α) (h : t.root = t'.root ∨ π ≠ []) :
    (plug π t).root = (plug π t').root := by
  induction π generalizing t t' with
  | nil => exact h.resolve_right (by simp)
  | cons c π ih => exact ih _ _ (.inl (by simp))

/-- The crumbs of a path are those of a balanced tree whose focus has height `H`. -/
def PathBal : Path α → ℕ → Prop
  | [], _ => True
  | c :: π, H => Balanced c.sib ∧ c.bal = sgn c.dir * ((H : ℤ) - c.sib.height) ∧
      -1 ≤ c.bal ∧ c.bal ≤ 1 ∧ PathBal π (max H c.sib.height + 1)

theorem balanced_plug {π : Path α} {t : BalTree α} :
    Balanced (plug π t) ↔ Balanced t ∧ PathBal π t.height := by
  induction π generalizing t with
  | nil => simp [plug, PathBal]
  | cons c π ih =>
    rw [plug, ih, balanced_mk, height_mk, PathBal]
    tauto

/-! ## Rotation and rebalancing -/

/-- Rotation at a node `a` that is too high by one in direction `d`; `c` is its subtree in that
direction and `s` the other one. The flag says that the subtree became lower. -/
def rotate (d : Bool) (a : α) (c s : BalTree α) : BalTree α × Bool :=
  match c with
  | nil => (mk d a 0 nil s, false)
  | node _ k cb _ =>
    if cb ≠ sgn (!d) then
      (mk d k (cb + sgn (!d)) (c.sub d) (mk d a (-(cb + sgn (!d))) (c.sub (!d)) s),
        decide (cb + sgn (!d) = 0))
    else
      match c.sub (!d) with
      | nil => (mk d a 0 c s, false)
      | node gl g gb gr =>
        (mk d g 0
          (mk d k (if gb = sgn (!d) then sgn d else 0) (c.sub d) ((node gl g gb gr).sub d))
          (mk d a (if gb = sgn d then sgn (!d) else 0) ((node gl g gb gr).sub (!d)) s), true)

theorem rotate_single (d : Bool) (a k : α) (cb : ℤ) (x y s : BalTree α) (h : cb ≠ sgn (!d)) :
    rotate d a (mk d k cb x y) s =
      (mk d k (cb + sgn (!d)) x (mk d a (-(cb + sgn (!d))) y s), decide (cb + sgn (!d) = 0)) := by
  cases d <;> simp_all [rotate, mk, sub]

theorem rotate_double (d : Bool) (a k g : α) (gb : ℤ) (x gl gr s : BalTree α) :
    rotate d a (mk d k (sgn (!d)) x (mk d g gb gl gr)) s =
      (mk d g 0 (mk d k (if gb = sgn (!d) then sgn d else 0) x gl)
        (mk d a (if gb = sgn d then sgn (!d) else 0) gr s), true) := by
  cases d <;> simp [rotate, mk, sub]

/-- A node that is two too high in direction `d` has one of the two shapes of a rotation. -/
theorem heavy_cases (d : Bool) {c s : BalTree α} (hc : Balanced c) (hh : c.height = s.height + 2) :
    (∃ k cb x y, c = mk d k cb x y ∧ cb ≠ sgn (!d)) ∨
    (∃ k g gb x gl gr, c = mk d k (sgn (!d)) x (mk d g gb gl gr)) := by
  cases c with
  | nil => simp [height] at hh
  | node l k cb r =>
    rw [node_eq_mk d] at hc ⊢
    generalize (node l k cb r).sub d = x at *
    generalize (node l k cb r).sub (!d) = y at *
    by_cases hk : cb = sgn (!d)
    · subst hk
      right
      cases y with
      | nil =>
        have := balanced_mk.mp hc
        cases d <;> simp [height] at this
        all_goals omega
      | node gl g gb gr =>
        rw [node_eq_mk d]
        exact ⟨_, _, _, _, _, _, rfl⟩
    · exact .inl ⟨_, _, _, _, rfl, hk⟩

theorem inorder_rotate (d : Bool) (a : α) (b : ℤ) (c s : BalTree α) :
    (rotate d a c s).1.inorder = (mk d a b c s).inorder := by
  cases c with
  | nil => exact inorder_mk_bal ..
  | node l k cb r =>
    cases d <;> simp only [rotate, sub, mk, cond_true, cond_false, Bool.not_true, Bool.not_false]
    · split_ifs with h
      · simp [inorder]
      · cases r <;> simp [inorder]
    · split_ifs with h
      · simp [inorder]
      · cases l <;> simp [inorder]

/-- A rotation restores balance; the subtree keeps its height or, as the flag says, loses one. -/
theorem balanced_rotate (d : Bool) (a : α) {c s : BalTree α} (hc : Balanced c) (hs : Balanced s)
    (hh : c.height = s.height + 2) :
    Balanced (rotate d a c s).1 ∧
      (rotate d a c s).1.height + (rotate d a c s).2.toNat = s.height + 3 ∧
      (c.bal ≠ 0 → (rotate d a c s).2 = true) := by
  rcases heavy_cases d hc hh with ⟨k, cb, x, y, rfl, hk⟩ | ⟨k, g, gb, x, gl, gr, rfl⟩
  · rw [rotate_single _ _ _ _ _ _ _ hk]
    have hm := balanced_mk.mp hc
    simp only [height_mk] at hh
    simp only [balanced_mk, height_mk, bal_mk]
    obtain ⟨hx, hy, hcb, hlo, hhi⟩ := hm
    have hd := sgn_cases d
    rw [sgn_not] at hk ⊢
    rcases hd with hd | hd <;> rw [hd] at hcb hk ⊢ <;>
      refine ⟨⟨hx, ⟨hy, hs, by omega, by omega, by omega⟩, by omega, by omega, by omega⟩, ?_, ?_⟩
    all_goals first
      | (intro hb; simp; omega)
      | (by_cases hz : cb = 0
         · subst hz; simp; omega
         · have : cb = 1 ∨ cb = -1 := by omega
           rcases this with rfl | rfl
           all_goals simp at *
           all_goals omega)
  · rw [rotate_double]
    have hm := balanced_mk.mp hc
    obtain ⟨hx, hg, hcb, -, -⟩ := hm
    obtain ⟨hgl, hgr, hgb, hlo, hhi⟩ := balanced_mk.mp hg
    simp only [height_mk] at hh hcb
    simp only [balanced_mk, height_mk, bal_mk, Bool.toNat_true]
    rw [sgn_not] at hcb ⊢
    have hd := sgn_cases d
    rcases hd with hd | hd <;> rw [hd] at hcb hgb ⊢ <;>
      refine ⟨⟨⟨hx, hgl, ?_, ?_, ?_⟩, ⟨hgr, hs, ?_, ?_, ?_⟩, ?_, by omega, by omega⟩, ?_,
        fun _ => trivial⟩
    all_goals omega

/-- Rebalancing after the focus grew by one level. -/
def regrow : Path α → BalTree α → BalTree α
  | [], t => t
  | c :: π, t =>
    if c.bal + sgn c.dir = 0 then plug π (mk c.dir c.key 0 t c.sib)
    else if c.bal ≠ 0 then plug π (rotate c.dir c.key t c.sib).1
    else regrow π (mk c.dir c.key (c.bal + sgn c.dir) t c.sib)

/-- Rebalancing after the focus shrank by one level. -/
def reshrink : Path α → BalTree α → BalTree α
  | [], t => t
  | c :: π, t =>
    if c.bal = 0 then plug π (mk c.dir c.key (c.bal - sgn c.dir) t c.sib)
    else if c.bal - sgn c.dir = 0 then reshrink π (mk c.dir c.key 0 t c.sib)
    else if (rotate (!c.dir) c.key c.sib t).2 then
      reshrink π (rotate (!c.dir) c.key c.sib t).1
    else plug π (rotate (!c.dir) c.key c.sib t).1

theorem inorder_regrow (π : Path α) (t : BalTree α) :
    (regrow π t).inorder = (plug π t).inorder := by
  induction π generalizing t with
  | nil => rfl
  | cons c π ih =>
    rw [regrow, plug]
    split_ifs with h₁ h₂
    · simp only [inorder_plug, inorder_mk_bal _ _ 0 c.bal]
    · simp only [inorder_plug, inorder_rotate _ _ c.bal]
    · rw [ih]
      simp only [inorder_plug, inorder_mk_bal _ _ (c.bal + sgn c.dir) c.bal]

theorem inorder_reshrink (π : Path α) (t : BalTree α) :
    (reshrink π t).inorder = (plug π t).inorder := by
  induction π generalizing t with
  | nil => rfl
  | cons c π ih =>
    have hrot : (rotate (!c.dir) c.key c.sib t).1.inorder =
        (mk c.dir c.key c.bal t c.sib).inorder := by
      rw [inorder_rotate _ _ c.bal, mk_not]
    rw [reshrink, plug]
    split_ifs with h₁ h₂ h₃
    · simp only [inorder_plug, inorder_mk_bal _ _ (c.bal - sgn c.dir) c.bal]
    · rw [ih]
      simp only [inorder_plug, inorder_mk_bal _ _ 0 c.bal]
    · rw [ih]
      simp only [inorder_plug, hrot]
    · simp only [inorder_plug, hrot]

/-- The grown focus is a new leaf or leans to one side: it can need at most one rotation. -/
theorem balanced_regrow {π : Path α} {t : BalTree α} {H : ℕ} (hπ : PathBal π H) (ht : Balanced t)
    (hH : t.height = H + 1) (hlean : H = 0 ∨ t.bal ≠ 0) : Balanced (regrow π t) := by
  induction π generalizing t H with
  | nil => exact ht
  | cons c π ih =>
    obtain ⟨hs, hb, hlo, hhi, hπ⟩ := hπ
    have hd := sgn_cases c.dir
    rw [regrow]
    split_ifs with h₁ h₂
    · rw [balanced_plug, balanced_mk, height_mk]
      rcases hd with hd | hd <;> rw [hd] at hb h₁ ⊢ <;>
        refine ⟨⟨ht, hs, by omega, by omega, by omega⟩, ?_⟩ <;>
        rwa [show max t.height c.sib.height = max H c.sib.height by omega]
    · have htall : t.height = c.sib.height + 2 := by
        rcases hd with hd | hd <;> rw [hd] at hb h₁ <;> omega
      obtain ⟨hr, hrh, hrb⟩ := balanced_rotate c.dir c.key ht hs htall
      have hlow := hrb (hlean.resolve_left (by omega))
      rw [hlow, Bool.toNat_true] at hrh
      rw [balanced_plug]
      refine ⟨hr, ?_⟩
      rwa [show (rotate c.dir c.key t c.sib).1.height = max H c.sib.height + 1 by omega]
    · refine ih hπ ?_ ?_ (.inr ?_)
      · rw [balanced_mk]
        rcases hd with hd | hd <;> rw [hd] at hb h₁ ⊢ <;>
          exact ⟨ht, hs, by omega, by omega, by omega⟩
      · rw [height_mk]
        rcases hd with hd | hd <;> rw [hd] at hb h₁ <;> omega
      · simpa using h₁

theorem balanced_reshrink {π : Path α} {t : BalTree α} (hπ : PathBal π (t.height + 1))
    (ht : Balanced t) : Balanced (reshrink π t) := by
  induction π generalizing t with
  | nil => exact ht
  | cons c π ih =>
    obtain ⟨hs, hb, hlo, hhi, hπ⟩ := hπ
    have hd := sgn_cases c.dir
    rw [reshrink]
    split_ifs with h₁ h₂ h₃
    · rw [balanced_plug, balanced_mk, height_mk]
      rcases hd with hd | hd <;> rw [hd] at hb ⊢ <;>
        refine ⟨⟨ht, hs, by omega, by omega, by omega⟩, ?_⟩ <;>
        rwa [show max t.height c.sib.height = max (t.height + 1) c.sib.height by omega]
    · refine ih ?_ ?_
      · rw [height_mk]
        rwa [show max t.height c.sib.height + 1 + 1 = max (t.height + 1) c.sib.height + 1 by
          rcases hd with hd | hd <;> rw [hd] at hb h₂ <;> omega]
      · rw [balanced_mk]
        rcases hd with hd | hd <;> rw [hd] at hb h₂ ⊢ <;>
          exact ⟨ht, hs, by omega, by omega, by omega⟩
    all_goals
      have htall : c.sib.height = t.height + 2 := by
        rcases hd with hd | hd <;> rw [hd] at hb h₂ <;> omega
      obtain ⟨hr, hrh, -⟩ := balanced_rotate (!c.dir) c.key hs ht htall
    · rw [h₃, Bool.toNat_true] at hrh
      refine ih ?_ hr
      rwa [show (rotate (!c.dir) c.key c.sib t).1.height + 1 =
        max (t.height + 1) c.sib.height + 1 by omega]
    · rw [Bool.not_eq_true] at h₃
      rw [h₃, Bool.toNat_false] at hrh
      rw [balanced_plug]
      refine ⟨hr, ?_⟩
      rwa [show (rotate (!c.dir) c.key c.sib t).1.height =
        max (t.height + 1) c.sib.height + 1 by omega]

/-! ## Ends, focuses and renamings -/

/-- The last element in direction `d`. -/
def edge (d : Bool) (l : List α) : Option α := bif d then l.getLast? else l.head?

theorem root_mem {t : BalTree α} {a : α} (h : t.root = some a) : a ∈ t.inorder := by
  cases t with
  | nil => cases h
  | node l x b r => cases h; simp [inorder]

theorem height_le_length (t : BalTree α) : t.height ≤ t.inorder.length := by
  induction t with
  | nil => exact Nat.zero_le _
  | node l a b r ihl ihr => simp only [height, inorder, List.length_append, List.length_cons]; omega

theorem length_le_nodes (π : Path α) : π.length ≤ (nodes π).length := by
  induction π with
  | nil => exact Nat.zero_le _
  | cons c π ih => simp only [nodes, List.length_cons, List.length_append]; omega

theorem length_plug (π : Path α) (t : BalTree α) :
    (plug π t).inorder.length = t.inorder.length + (nodes π).length := by
  rw [(inorder_plug_perm π t).length_eq, List.length_append]

theorem exists_focus {t : BalTree α} {a : α} (ha : a ∈ t.inorder) :
    ∃ π l b r, t = plug π (node l a b r) := by
  induction t with
  | nil => simp [inorder] at ha
  | node l x b r ihl ihr =>
    rcases List.mem_append.mp ha with hl | hr
    · obtain ⟨π, l', b', r', rfl⟩ := ihl hl
      exact ⟨π ++ [⟨false, x, b, r⟩], l', b', r', by rw [plug_append]; rfl⟩
    · rcases List.mem_cons.mp hr with rfl | hr
      · exact ⟨[], l, b, r, rfl⟩
      · obtain ⟨π, l', b', r', rfl⟩ := ihr hr
        exact ⟨π ++ [⟨true, x, b, l⟩], l', b', r', by rw [plug_append]; rfl⟩

/-- The node at the end in direction `d` has no child on that side. -/
theorem exists_edge (d : Bool) {t : BalTree α} {a : α} (ha : t.root = some a) :
    ∃ ρ p b y, t = plug ρ (mk (!d) p b y nil) ∧ ∀ c ∈ ρ, c.dir = d := by
  induction t generalizing a with
  | nil => cases ha
  | node l x b r ihl ihr =>
    cases d with
    | false =>
      cases l with
      | nil => exact ⟨[], x, b, r, rfl, by simp⟩
      | node l₁ y b₁ r₁ =>
        obtain ⟨ρ, p, b', y', hρ, hd⟩ := ihl rfl
        refine ⟨ρ ++ [⟨false, x, b, r⟩], p, b', y', by rw [plug_append, ← hρ]; rfl, ?_⟩
        simpa using fun c hc => hc.elim (hd c) fun h => h ▸ rfl
    | true =>
      cases r with
      | nil => exact ⟨[], x, b, l, rfl, by simp⟩
      | node l₁ y b₁ r₁ =>
        obtain ⟨ρ, p, b', y', hρ, hd⟩ := ihr rfl
        refine ⟨ρ ++ [⟨true, x, b, l⟩], p, b', y', by rw [plug_append, ← hρ]; rfl, ?_⟩
        simpa using fun c hc => hc.elim (hd c) fun h => h ▸ rfl

theorem after_eq_nil {ρ : Path α} (h : ∀ c ∈ ρ, c.dir = true) : after ρ = [] := by
  induction ρ with
  | nil => rfl
  | cons c ρ ih => simp [after, h c (by simp), ih fun c hc => h c (by simp [hc])]

theorem before_eq_nil {ρ : Path α} (h : ∀ c ∈ ρ, c.dir = false) : before ρ = [] := by
  induction ρ with
  | nil => rfl
  | cons c ρ ih => simp [before, h c (by simp), ih fun c hc => h c (by simp [hc])]

/-- The end in direction `d` of a tree whose path never leaves that direction. -/
theorem edge_plug (d : Bool) {ρ : Path α} (p : α) (b : ℤ) (y : BalTree α)
    (h : ∀ c ∈ ρ, c.dir = d) : edge d (plug ρ (mk (!d) p b y nil)).inorder = some p := by
  rw [inorder_plug]
  cases d
  · simp [edge, before_eq_nil h, mk, inorder]
  · simp [edge, after_eq_nil h, mk, inorder]

/-- The tree with its nodes renamed. -/
def BalTree.map (f : α → α) : BalTree α → BalTree α
  | nil => nil
  | node l a b r => node (l.map f) (f a) b (r.map f)

def Crumb.map (f : α → α) (c : Crumb α) : Crumb α := ⟨c.dir, f c.key, c.bal, c.sib.map f⟩

@[simp] theorem inorder_map (f : α → α) (t : BalTree α) : (t.map f).inorder = t.inorder.map f := by
  induction t with
  | nil => rfl
  | node l a b r ihl ihr => simp [BalTree.map, inorder, ihl, ihr]

@[simp] theorem height_map (f : α → α) (t : BalTree α) : (t.map f).height = t.height := by
  induction t with
  | nil => rfl
  | node l a b r ihl ihr => simp [BalTree.map, height, ihl, ihr]

@[simp] theorem root_map (f : α → α) (t : BalTree α) : (t.map f).root = t.root.map f := by
  cases t <;> rfl

theorem Balanced.map (f : α → α) {t : BalTree α} (ht : Balanced t) : Balanced (t.map f) := by
  induction t with
  | nil => trivial
  | node l a b r ihl ihr =>
    obtain ⟨hl, hr, h⟩ := ht
    exact ⟨ihl hl, ihr hr, by simpa using h⟩

theorem map_mk (f : α → α) (d : Bool) (a : α) (b : ℤ) (x y : BalTree α) :
    (mk d a b x y).map f = mk d (f a) b (x.map f) (y.map f) := by cases d <;> rfl

theorem map_plug (f : α → α) (π : Path α) (t : BalTree α) :
    (plug π t).map f = plug (π.map (Crumb.map f)) (t.map f) := by
  induction π generalizing t with
  | nil => rfl
  | cons c π ih => rw [plug, ih, map_mk]; rfl

end Filebench.BinTree


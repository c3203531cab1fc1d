import Filebench.Avl.Tree
import Filebench.Lib.Returns

/-! # The AVL routines do not depend on spare fuel -/
namespace Filebench.Avl

open Fuel

variable {α : Type*}

theorem avlDescend_steady (h : Links α) (dir : Bool) (a : α) :
    Steady fun fuel => avlDescend h dir fuel a := by
  have hsucc : ∀ n a b, avlDescend h dir n a = some b → avlDescend h dir (n + 1) a = some b := by
    intro n
    induction n with
    | zero => intro a b hb; cases hb
    | succ n ih =>
      intro a b hb
      simp only [avlDescend, Option.bind_eq_bind] at hb ⊢
      obtain ⟨x, hx, hb⟩ := Option.bind_eq_some_iff.mp hb
      rw [hx, Option.bind_some]
      cases hc : x.avlChild dir with
      | none => simpa [hc] using hb
      | some c =>
        simp only [hc] at hb ⊢
        exact ih c b hb
  exact steady_of_succ rfl fun n => hsucc (n + 1) a

theorem avlAscend_steady (h : Links α) (right : Bool) (a : α) :
    Steady fun fuel => avlAscend h right fuel a := by
  have hsucc : ∀ n a b, avlAscend h right n a = some b →
      avlAscend h right (n + 1) a = some b := by
    intro n
    induction n with
    | zero => intro a b hb; cases hb
    | succ n ih =>
      intro a b hb
      simp only [avlAscend, Option.bind_eq_bind] at hb ⊢
      obtain ⟨x, hx, hb⟩ := Option.bind_eq_some_iff.mp hb
      rw [hx, Option.bind_some]
      cases hp : x.avlParent with
      | none => simpa [hp] using hb
      | some p =>
        simp only [hp] at hb ⊢
        split_ifs at hb ⊢ with hchild
        · exact hb
        · exact ih p b hb
  exact steady_of_succ rfl fun n => hsucc (n + 1) a

theorem avlWalk_steady (h : Links α) (a : α) (left : Bool) :
    Steady fun fuel => avlWalk fuel h a left := by
  intro n m b hnm hb
  simp only [avlWalk, Option.bind_eq_bind] at hb ⊢
  obtain ⟨x, hx, hb⟩ := Option.bind_eq_some_iff.mp hb
  rw [hx, Option.bind_some]
  cases hc : x.avlChild left with
  | none =>
    simp only [hc] at hb ⊢
    exact avlAscend_steady h _ a n m b hnm hb
  | some c =>
    simp only [hc] at hb ⊢
    exact (avlDescend_steady h _ c).map some n m b hnm hb

theorem avlFirst_steady (h : Links α) (tree : AvlTree α) :
    Steady fun fuel => avlFirst fuel h tree := by
  intro n m b hnm hb
  unfold avlFirst at hb ⊢
  cases hroot : tree.avlRoot with
  | none => simpa [hroot] using hb
  | some r =>
    simp only [hroot] at hb ⊢
    exact (avlDescend_steady h _ r).map some n m b hnm hb

variable {κ : Type*} [LinearOrder κ]

theorem avlFindLoop_steady (h : Links α) (key : α → κ) (k : κ) (p q : Option α) (d : Bool) :
    Steady fun fuel => avlFindLoop h key k fuel p q d := by
  have hsucc : ∀ n p q d b, avlFindLoop h key k n p q d = some b →
      avlFindLoop h key k (n + 1) p q d = some b := by
    intro n
    induction n with
    | zero => intro p q d b hb; cases hb
    | succ n ih =>
      intro p q d b hb
      cases p with
      | none => exact hb
      | some a =>
        simp only [avlFindLoop, Option.bind_eq_bind] at hb ⊢
        obtain ⟨x, hx, hb⟩ := Option.bind_eq_some_iff.mp hb
        rw [hx, Option.bind_some]
        split_ifs at hb ⊢ with hk
        · exact hb
        · exact ih _ _ _ b hb
  exact steady_of_succ rfl fun n => hsucc (n + 1) p q d

variable [DecidableEq α]

theorem avlInsertLoop_steady (h : Links α) (tree : AvlTree α) (p : Option α) (d : Bool) :
    Steady fun fuel => avlInsertLoop h tree fuel p d := by
  have hsucc : ∀ n h p d b, avlInsertLoop h tree n p d = some b →
      avlInsertLoop h tree (n + 1) p d = some b := by
    intro n
    induction n with
    | zero => intro h p d b hb; cases hb
    | succ n ih =>
      intro h p d b hb
      cases p with
      | none => exact hb
      | some a =>
        simp only [avlInsertLoop, Option.bind_eq_bind] at hb ⊢
        obtain ⟨x, hx, hb⟩ := Option.bind_eq_some_iff.mp hb
        rw [hx, Option.bind_some]
        split_ifs at hb ⊢ with h₁ h₂
        · exact hb
        · exact hb
        · obtain ⟨h', hh', hb⟩ := Option.bind_eq_some_iff.mp hb
          rw [hh', Option.bind_some]
          exact ih _ _ _ b hb
  exact steady_of_succ rfl fun n => hsucc (n + 1) h p d

theorem avlRemoveLoop_steady (h : Links α) (tree : AvlTree α) (a : α) (d : Bool) :
    Steady fun fuel => avlRemoveLoop h tree fuel a d := by
  have hsucc : ∀ n (h : Links α) tree a d b, avlRemoveLoop h tree n a d = some b →
      avlRemoveLoop h tree (n + 1) a d = some b := by
    intro n
    induction n with
    | zero => intro h tree a d b hb; cases hb
    | succ n ih =>
      intro h tree a d b hb
      rw [avlRemoveLoop] at hb ⊢
      simp only [Option.bind_eq_bind] at hb ⊢
      obtain ⟨x, hx, hb⟩ := Option.bind_eq_some_iff.mp hb
      rw [hx, Option.bind_some]
      split_ifs at hb ⊢ with h₁ h₂
      · exact hb
      · obtain ⟨h', hh', hb⟩ := Option.bind_eq_some_iff.mp hb
        rw [hh', Option.bind_some]
        cases hp : x.avlParent with
        | none =>
          rw [Option.bind_some, hp] at hb
          exact hb
        | some p =>
          simp only [hp] at hb ⊢
          exact ih _ _ _ _ b hb
      · obtain ⟨⟨h', tree', reduced⟩, hr, hb⟩ := Option.bind_eq_some_iff.mp hb
        rw [hr, Option.bind_some]
        cases reduced with
        | false => exact hb
        | true =>
          cases hp : x.avlParent with
          | none =>
            rw [hp] at hb
            exact hb
          | some p =>
            simp only [hp] at hb ⊢
            exact ih _ _ _ _ b hb
  exact steady_of_succ rfl fun n => hsucc (n + 1) h tree a d

theorem avlInsert_steady (h : Links α) (tree : AvlTree α) (a : α) (p : Option α) (d : Bool) :
    Steady fun fuel => avlInsert fuel h tree a p d := by
  intro n m b hnm hb
  simp only [avlInsert, Option.bind_eq_bind] at hb ⊢
  obtain ⟨h₁, hmod, hb⟩ := Option.bind_eq_some_iff.mp hb
  obtain ⟨r, hlink, hb⟩ := Option.bind_eq_some_iff.mp hb
  rw [hmod, Option.bind_some, hlink, Option.bind_some]
  exact avlInsertLoop_steady r.1 r.2 p d n m b hnm hb

theorem avlAdd_steady (h : Links α) (tree : AvlTree α) (key : α → κ) (a : α) :
    Steady fun fuel => avlAdd fuel h tree key a := by
  refine (avlFindLoop_steady h key (key a) tree.avlRoot none false).bind fun r => ?_
  cases r with
  | found _ => exact steady_const _
  | missing p d => exact avlInsert_steady h tree a p d

theorem avlUnlink_steady (h : Links α) (tree : AvlTree α) (a : α) :
    Steady fun fuel => avlUnlink fuel h tree a := by
  unfold avlUnlink
  refine (steady_const _).ite ?_
  refine (steady_const _).bind fun n => (steady_const _).bind fun h => (steady_const _).bind
    fun r => ?_
  cases hp : n.avlParent with
  | none => simpa [hp] using steady_const _
  | some p => simpa [hp] using avlRemoveLoop_steady _ _ _ _

theorem avlSwap_steady (tmp : α) (h : Links α) (tree : AvlTree α) (a : α) :
    Steady fun fuel => avlSwap tmp fuel h tree a := by
  unfold avlSwap
  refine (steady_const _).bind fun n => (steady_const _).bind fun c => ?_
  exact (avlDescend_steady _ _ _).bind fun _ => steady_const _

theorem avlRemove_steady (tmp : α) (h : Links α) (tree : AvlTree α) (a : α) :
    Steady fun fuel => avlRemove tmp fuel h tree a := by
  unfold avlRemove
  refine (steady_const _).bind fun n => ?_
  split
  · exact (avlSwap_steady tmp h tree a).bind fun r =>
      (avlUnlink_steady _ _ _).bind fun _ => steady_const _
  · exact (avlUnlink_steady _ _ _).bind fun _ => steady_const _

end Filebench.Avl

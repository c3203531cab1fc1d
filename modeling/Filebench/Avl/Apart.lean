import Filebench.Avl.Holds

/-! # Nodes that no other node links to

A set of nodes that nothing outside of it links to stays as it is while the routines work on the
nodes outside, whatever these represent. -/
namespace Filebench.Avl

open BinTree BinTree.BalTree

variable {α : Type*} {X T : Set α} {h h₀ h' : Links α} {a : α}

def Outside (X : Set α) (o : Option α) : Prop := ∀ a, o = some a → a ∉ X

theorem outside_none : Outside X none := nofun

theorem outside_some (ha : a ∉ X) : Outside X (some a) := by
  intro b hb
  rwa [← Option.some.inj hb]

structure AvlNode.Outside (X : Set α) (n : AvlNode α) : Prop where
  child : ∀ d, Avl.Outside X (n.avlChild d)
  parent : Avl.Outside X n.avlParent

/-- The links `h` have come from `h₀`: no node of `X` was written and, but for the variables `T`, no
dead node has become live. -/
structure Spares (X T : Set α) (h₀ h : Links α) : Prop where
  apart : ∀ a, a ∉ X → ∀ n, h a = some n → n.Outside X
  same : ∀ x ∈ X, h x = h₀ x
  dead : ∀ a, a ∉ T → h₀ a = none → h a = none

namespace Spares

theorem child (hs : Spares X T h₀ h) {n : AvlNode α} (ha : a ∉ X) (hn : h a = some n) {d : Bool}
    {c : α} (hc : n.avlChild d = some c) : c ∉ X := (hs.apart a ha n hn).child d c hc

theorem parent (hs : Spares X T h₀ h) {n : AvlNode α} (ha : a ∉ X) (hn : h a = some n) {p : α}
    (hp : n.avlParent = some p) : p ∉ X := (hs.apart a ha n hn).parent p hp

theorem trans {h₁ : Links α} (hs : Spares X T h₀ h₁) (hs' : Spares X T h₁ h) : Spares X T h₀ h :=
  ⟨hs'.apart, fun x hx => (hs'.same x hx).trans (hs.same x hx),
    fun a ha hdead => hs'.dead a ha (hs.dead a ha hdead)⟩

variable [DecidableEq α]

theorem update (hs : Spares X T h₀ h) (ha : a ∉ X) {o : Option (AvlNode α)}
    (ho : ∀ n, o = some n → n.Outside X) (hlive : a ∈ T ∨ h a ≠ none ∨ o = none) :
    Spares X T h₀ (Function.update h a o) := by
  constructor
  · intro b hb n hn
    rw [Function.update_apply] at hn
    split at hn
    next => exact ho n hn
    next => exact hs.apart b hb n hn
  · intro x hx
    have hxa : x ≠ a := fun heq => ha (heq ▸ hx)
    rw [Function.update_of_ne hxa]
    exact hs.same x hx
  · intro b hb hdead
    rw [Function.update_apply]
    split
    next hba =>
      subst hba
      exact (hlive.resolve_left hb).resolve_left (not_not.mpr (hs.dead b hb hdead))
    next => exact hs.dead b hb hdead

theorem modify (hs : Spares X T h₀ h) (ha : a ∉ X) {f : AvlNode α → AvlNode α}
    (hrun : h.modify a f = some h') (hf : ∀ n, n.Outside X → (f n).Outside X) :
    Spares X T h₀ h' := by
  obtain ⟨n, hn, rfl⟩ := Option.map_eq_some_iff.mp hrun
  refine hs.update ha (fun n' hn' => ?_) (.inr (.inl ?_))
  · rw [← Option.some.inj hn']
    exact hf n (hs.apart a ha n hn)
  · rw [hn]
    exact nofun

theorem setChild (hs : Spares X T h₀ h) (ha : a ∉ X) {d : Bool} {q : Option α} (hq : Outside X q)
    (hrun : h.setChild a d q = some h') : Spares X T h₀ h' := by
  refine hs.modify ha hrun fun n hn => ⟨fun e => ?_, hn.parent⟩
  simp only [Function.update_apply]
  split
  next => exact hq
  next => exact hn.child e

theorem setParent (hs : Spares X T h₀ h) (ha : a ∉ X) {p : Option α} (hp : Outside X p)
    (hrun : h.setParent a p = some h') : Spares X T h₀ h' :=
  hs.modify ha hrun fun _ hn => ⟨hn.child, hp⟩

theorem setChildIndex (hs : Spares X T h₀ h) (ha : a ∉ X) {d : Bool}
    (hrun : h.setChildIndex a d = some h') : Spares X T h₀ h' :=
  hs.modify ha hrun fun _ hn => ⟨hn.child, hn.parent⟩

theorem setBalance (hs : Spares X T h₀ h) (ha : a ∉ X) {b : ℤ}
    (hrun : h.setBalance a b = some h') : Spares X T h₀ h' :=
  hs.modify ha hrun fun _ hn => ⟨hn.child, hn.parent⟩

theorem adopt (hs : Spares X T h₀ h) {q p : Option α} (hq : Outside X q) (hp : Outside X p)
    {d : Bool} (hrun : h.adopt q p d = some h') : Spares X T h₀ h' := by
  cases q with
  | none => exact Option.some.inj hrun ▸ hs
  | some a =>
    obtain ⟨h₁, hparent, hindex⟩ := Option.bind_eq_some_iff.mp hrun
    exact (hs.setParent (hq a rfl) hp hparent).setChildIndex (hq a rfl) hindex

end Spares

/-- A handle with as many nodes, whose root is outside when the old one was. -/
structure SameHandle (X : Set α) (tree tree' : AvlTree α) : Prop where
  count : tree'.avlNumnodes = tree.avlNumnodes
  root : Outside X tree.avlRoot → Outside X tree'.avlRoot
  rooted : tree.avlRoot ≠ none → tree'.avlRoot ≠ none

theorem SameHandle.refl (X : Set α) (tree : AvlTree α) : SameHandle X tree tree := ⟨rfl, id, id⟩

theorem SameHandle.trans {tree tree₁ tree' : AvlTree α} (ht : SameHandle X tree tree₁)
    (ht' : SameHandle X tree₁ tree') : SameHandle X tree tree' :=
  ⟨ht'.count.trans ht.count, ht'.root ∘ ht.root, ht'.rooted ∘ ht.rooted⟩

variable {tree tree' : AvlTree α}

theorem avlDescend_spares (hs : Spares X T h₀ h) {dir : Bool} {fuel : ℕ} {node b : α}
    (hnode : node ∉ X) (hrun : avlDescend h dir fuel node = some b) : b ∉ X := by
  induction fuel generalizing node with
  | zero => cases hrun
  | succ fuel ih =>
    obtain ⟨n, hn, hrun⟩ := Option.bind_eq_some_iff.mp hrun
    cases hc : n.avlChild dir with
    | none =>
      rw [hc] at hrun
      exact Option.some.inj hrun ▸ hnode
    | some c =>
      rw [hc] at hrun
      exact ih (hs.child hnode hn hc) hrun

theorem avlAscend_spares (hs : Spares X T h₀ h) {right : Bool} {fuel : ℕ} {node : α} {o : Option α}
    (hnode : node ∉ X) (hrun : avlAscend h right fuel node = some o) : Outside X o := by
  induction fuel generalizing node with
  | zero => cases hrun
  | succ fuel ih =>
    obtain ⟨n, hn, hrun⟩ := Option.bind_eq_some_iff.mp hrun
    cases hp : n.avlParent with
    | none =>
      rw [hp] at hrun
      exact Option.some.inj hrun ▸ outside_none
    | some p =>
      simp only [hp] at hrun
      have hpX := hs.parent hnode hn hp
      split at hrun
      next => exact Option.some.inj hrun ▸ outside_some hpX
      next => exact ih hpX hrun

theorem avlWalk_spares (hs : Spares X T h₀ h) {left : Bool} {fuel : ℕ} {node : α} {o : Option α}
    (hnode : node ∉ X) (hrun : avlWalk fuel h node left = some o) : Outside X o := by
  obtain ⟨n, hn, hrun⟩ := Option.bind_eq_some_iff.mp hrun
  cases hc : n.avlChild left with
  | none =>
    rw [hc] at hrun
    exact avlAscend_spares hs hnode hrun
  | some c =>
    rw [hc] at hrun
    obtain ⟨b, hb, rfl⟩ := Option.map_eq_some_iff.mp hrun
    exact outside_some (avlDescend_spares hs (hs.child hnode hn hc) hb)

section search

variable {κ : Type*} [LinearOrder κ] {key : α → κ} {k : κ}

theorem avlFindLoop_spares (hs : Spares X T h₀ h) {fuel : ℕ} {p q : Option α} {d : Bool}
    {r : AvlFind α} (hp : Outside X p) (hq : Outside X q)
    (hrun : avlFindLoop h key k fuel p q d = some r) :
    (∀ a, r = .found a → a ∉ X ∧ k = key a ∧ h a ≠ none) ∧
      ∀ prev child, r = .missing prev child → Outside X prev := by
  induction fuel generalizing p q d with
  | zero => cases hrun
  | succ fuel ih =>
    cases p with
    | none =>
      obtain rfl := Option.some.inj hrun
      refine ⟨(fun a heq => by cases heq), fun prev child heq => ?_⟩
      rw [← (AvlFind.missing.inj heq).1]
      exact hq
    | some node =>
      rw [avlFindLoop] at hrun
      obtain ⟨n, hn, hrun⟩ := Option.bind_eq_some_iff.mp hrun
      split at hrun
      next hk =>
        obtain rfl := Option.some.inj hrun
        refine ⟨fun a heq => ?_, (fun prev child heq => by cases heq)⟩
        obtain rfl := AvlFind.found.inj heq
        refine ⟨hp node rfl, hk, ?_⟩
        rw [hn]
        exact Option.some_ne_none n
      next =>
        exact ih ((hs.apart node (hp node rfl) n hn).child _) (outside_some (hp node rfl)) hrun

/-- The nodes of a tree link to each other only. -/
theorem Holds.inside {l : List α}
    (hh : Holds h tree key l) :
    (∀ x ∈ l, ∀ n, h x = some n → n.Outside {y | y ∉ l}) ∧ Outside {y | y ∉ l} tree.avlRoot := by
  obtain ⟨t, hs, -, rfl⟩ := hh.shape
  constructor
  · intro x hx n hn
    obtain ⟨π, l, b, r, rfl⟩ := exists_focus hx
    obtain rfl := Option.some.inj (hn.symm.trans hs.focus.1)
    constructor
    · intro d c hc hout
      refine hout (mem_plug.mpr (.inl ?_))
      cases d
      · simp [inorder, root_mem hc]
      · simp [inorder, root_mem hc]
    · intro p hp hout
      exact hout (mem_plug.mpr (.inr (parentOf_mem hp)))
  · intro x hx hout
    rw [hs.root] at hx
    exact hout (root_mem hx)

end search

variable [DecidableEq α]

theorem avlLink_spares (hs : Spares X T h₀ h) {parent q : Option α} {d : Bool}
    (hp : Outside X parent) (hq : Outside X q)
    (hrun : avlLink h tree parent d q = some (h', tree')) :
    Spares X T h₀ h' ∧ tree'.avlNumnodes = tree.avlNumnodes ∧
      (q ≠ none → SameHandle X tree tree') := by
  cases parent with
  | none =>
    obtain ⟨rfl, rfl⟩ := Prod.mk.inj (Option.some.inj hrun)
    exact ⟨hs, rfl, fun hne => ⟨rfl, fun _ => hq, fun _ => hne⟩⟩
  | some p =>
    obtain ⟨h₁, hchild, hret⟩ := Option.bind_eq_some_iff.mp hrun
    obtain ⟨rfl, rfl⟩ := Prod.mk.inj (Option.some.inj hret)
    exact ⟨hs.setChild (hp p rfl) hq hchild, rfl, fun _ => .refl X tree⟩

section sequence

variable {β : Type*} {r : β} {rest : Links α → Option β}

/-- A subtree goes below another node. -/
theorem Spares.moveChild (hs : Spares X T h₀ h) {a : α} (ha : a ∉ X) {d : Bool} {q : Option α}
    (hq : Outside X q) (hrun : ((h.setChild a d q).bind fun h =>
      (h.adopt q (some a) d).bind rest) = some r) : ∃ h', Spares X T h₀ h' ∧ rest h' = some r := by
  obtain ⟨h₁, hchild, hrun⟩ := Option.bind_eq_some_iff.mp hrun
  obtain ⟨h₂, hadopt, hrun⟩ := Option.bind_eq_some_iff.mp hrun
  exact ⟨h₂, (hs.setChild ha hq hchild).adopt hq (outside_some ha) hadopt, hrun⟩

/-- A node gets its new balance and its new place below a parent. -/
theorem Spares.relink (hs : Spares X T h₀ h) {a : α} (ha : a ∉ X) {b : ℤ} {e : Bool}
    {q : Option α} (hq : Outside X q) (hrun : ((h.setBalance a b).bind fun h =>
      (h.setChildIndex a e).bind fun h => (h.setParent a q).bind rest) = some r) :
    ∃ h', Spares X T h₀ h' ∧ rest h' = some r := by
  obtain ⟨h₁, hbal, hrun⟩ := Option.bind_eq_some_iff.mp hrun
  obtain ⟨h₂, hindex, hrun⟩ := Option.bind_eq_some_iff.mp hrun
  obtain ⟨h₃, hparent, hrun⟩ := Option.bind_eq_some_iff.mp hrun
  exact ⟨h₃, ((hs.setBalance ha hbal).setChildIndex ha hindex).setParent ha hq hparent, hrun⟩

/-- The same, with the parent before the side. -/
theorem Spares.relink' (hs : Spares X T h₀ h) {a : α} (ha : a ∉ X) {b : ℤ} {e : Bool}
    {q : Option α} (hq : Outside X q) (hrun : ((h.setBalance a b).bind fun h =>
      (h.setParent a q).bind fun h => (h.setChildIndex a e).bind rest) = some r) :
    ∃ h', Spares X T h₀ h' ∧ rest h' = some r := by
  obtain ⟨h₁, hbal, hrun⟩ := Option.bind_eq_some_iff.mp hrun
  obtain ⟨h₂, hparent, hrun⟩ := Option.bind_eq_some_iff.mp hrun
  obtain ⟨h₃, hindex, hrun⟩ := Option.bind_eq_some_iff.mp hrun
  exact ⟨h₃, ((hs.setBalance ha hbal).setParent ha hq hparent).setChildIndex ha hindex, hrun⟩

end sequence

theorem avlRotation_spares (hs : Spares X T h₀ h) {node : α} {balance : ℤ} {reduced : Bool}
    (hnode : node ∉ X) (hrun : avlRotation h tree node balance = some (h', tree', reduced)) :
    Spares X T h₀ h' ∧ SameHandle X tree tree' := by
  unfold avlRotation at hrun
  obtain ⟨n, hn, hrun⟩ := Option.bind_eq_some_iff.mp hrun
  obtain ⟨child, hchild, hrun⟩ := Option.bind_eq_some_iff.mp hrun
  obtain ⟨c, hc, hrun⟩ := Option.bind_eq_some_iff.mp hrun
  have hparent := (hs.apart node hnode n hn).parent
  have hchildX := hs.child hnode hn hchild
  have hcX := hs.apart child hchildX c hc
  split at hrun
  next =>
    obtain ⟨h₁, hs₁, hrun⟩ := hs.moveChild hnode (hcX.child _) hrun
    obtain ⟨h₂, hset, hrun⟩ := Option.bind_eq_some_iff.mp hrun
    have hs₂ := hs₁.setChild hchildX (outside_some hnode) hset
    obtain ⟨h₃, hs₃, hrun⟩ := hs₂.relink hnode (outside_some hchildX) hrun
    obtain ⟨h₄, hs₄, hrun⟩ := hs₃.relink hchildX hparent hrun
    obtain ⟨⟨h₅, tree₁⟩, hlink, hret⟩ := Option.bind_eq_some_iff.mp hrun
    simp only [Option.some.injEq, Prod.mk.injEq] at hret
    obtain ⟨rfl, rfl, -⟩ := hret
    obtain ⟨hs₅, -, hsame⟩ := avlLink_spares hs₄ hparent (outside_some hchildX) hlink
    exact ⟨hs₅, hsame nofun⟩
  next =>
    obtain ⟨gchild, hgchild, hrun⟩ := Option.bind_eq_some_iff.mp hrun
    obtain ⟨g, hg, hrun⟩ := Option.bind_eq_some_iff.mp hrun
    have hgchildX := hcX.child _ gchild hgchild
    have hgX := hs.apart gchild hgchildX g hg
    obtain ⟨h₁, hs₁, hrun⟩ := hs.moveChild hnode (hgX.child _) hrun
    obtain ⟨h₂, hs₂, hrun⟩ := hs₁.moveChild hchildX (hgX.child _) hrun
    obtain ⟨h₃, hset, hrun⟩ := Option.bind_eq_some_iff.mp hrun
    have hs₃ := hs₂.setChild hgchildX (outside_some hchildX) hset
    obtain ⟨h₄, hs₄, hrun⟩ := hs₃.relink' hchildX (outside_some hgchildX) hrun
    obtain ⟨h₅, hset', hrun⟩ := Option.bind_eq_some_iff.mp hrun
    have hs₅ := hs₄.setChild hgchildX (outside_some hnode) hset'
    obtain ⟨h₆, hs₆, hrun⟩ := hs₅.relink' hnode (outside_some hgchildX) hrun
    obtain ⟨h₇, hs₇, hrun⟩ := hs₆.relink' hgchildX hparent hrun
    obtain ⟨⟨h₈, tree₁⟩, hlink, hret⟩ := Option.bind_eq_some_iff.mp hrun
    simp only [Option.some.injEq, Prod.mk.injEq] at hret
    obtain ⟨rfl, rfl, -⟩ := hret
    obtain ⟨hs₈, -, hsame⟩ := avlLink_spares hs₇ hparent (outside_some hgchildX) hlink
    exact ⟨hs₈, hsame nofun⟩

theorem avlInsertLoop_spares (hs : Spares X T h₀ h) {fuel : ℕ} {o : Option α} {d : Bool}
    (ho : Outside X o) (hrun : avlInsertLoop h tree fuel o d = some (h', tree')) :
    Spares X T h₀ h' ∧ SameHandle X tree tree' := by
  induction fuel generalizing h o d with
  | zero => cases hrun
  | succ fuel ih =>
    cases o with
    | none =>
      obtain ⟨rfl, rfl⟩ := Prod.mk.inj (Option.some.inj hrun)
      exact ⟨hs, .refl X tree⟩
    | some node =>
      have hnode := ho node rfl
      rw [avlInsertLoop] at hrun
      obtain ⟨n, hn, hrun⟩ := Option.bind_eq_some_iff.mp hrun
      have hnX := hs.apart node hnode n hn
      dsimp only at hrun
      split_ifs at hrun with hzero hold
      · obtain ⟨h₁, hbal, hret⟩ := Option.bind_eq_some_iff.mp hrun
        obtain ⟨rfl, rfl⟩ := Prod.mk.inj (Option.some.inj hret)
        exact ⟨hs.setBalance hnode hbal, .refl X tree⟩
      · obtain ⟨⟨h₁, tree₁, reduced⟩, hrot, hret⟩ := Option.bind_eq_some_iff.mp hrun
        obtain ⟨rfl, rfl⟩ := Prod.mk.inj (Option.some.inj hret)
        exact avlRotation_spares hs hnode hrot
      · obtain ⟨h₁, hbal, hrun⟩ := Option.bind_eq_some_iff.mp hrun
        exact ih (hs.setBalance hnode hbal) hnX.parent hrun

/-- An insertion counts the node, whose old links do not matter. -/
theorem avlInsert_spares {fuel : ℕ} {node : α} {parent : Option α} {d : Bool}
    (hs : ∀ h₁, h.modify node (fun _ => ⟨fun _ => none, parent, d, 0⟩) = some h₁ →
      Spares X T h₀ h₁)
    (hnode : node ∉ X) (hp : Outside X parent)
    (hrun : avlInsert fuel h tree node parent d = some (h', tree')) :
    Spares X T h₀ h' ∧ tree'.avlNumnodes = tree.avlNumnodes + 1 ∧
      (Outside X tree.avlRoot → Outside X tree'.avlRoot) := by
  unfold avlInsert at hrun
  obtain ⟨h₁, hmod, hrun⟩ := Option.bind_eq_some_iff.mp hrun
  obtain ⟨⟨h₂, tree₂⟩, hlink, hrun⟩ := Option.bind_eq_some_iff.mp hrun
  obtain ⟨hs₂, -, hsame⟩ := avlLink_spares (hs h₁ hmod) hp (outside_some hnode) hlink
  obtain ⟨hs₃, hsame'⟩ := avlInsertLoop_spares hs₂ hp hrun
  have hall := (hsame nofun).trans hsame'
  exact ⟨hs₃, hall.count, hall.root⟩

theorem avlAdd_spares {κ : Type*} [LinearOrder κ] {key : α → κ} (hs : Spares X T h₀ h) {fuel : ℕ}
    {node : α} (hnode : node ∉ X) (hroot : Outside X tree.avlRoot)
    (hrun : avlAdd fuel h tree key node = some (h', tree')) :
    Spares X T h₀ h' ∧ Outside X tree'.avlRoot := by
  obtain ⟨r, hfind, hrun⟩ := Option.bind_eq_some_iff.mp hrun
  obtain ⟨-, hmissing⟩ := avlFindLoop_spares hs hroot outside_none hfind
  cases r with
  | found a =>
    obtain ⟨rfl, rfl⟩ := Prod.mk.inj (Option.some.inj hrun)
    exact ⟨hs, hroot⟩
  | missing prev child =>
    have hprev := hmissing prev child rfl
    obtain ⟨hs', -, hroot'⟩ := avlInsert_spares
      (fun h₁ hmod => hs.modify hnode hmod fun _ _ => ⟨fun _ => outside_none, hprev⟩) hnode hprev
      hrun
    exact ⟨hs', hroot' hroot⟩

/-- A node of the set itself, with a key of its own, leaves the set. -/
theorem avlAdd_enters {κ : Type*} [LinearOrder κ] {key : α → κ} (hs : Spares X T h h) {fuel : ℕ}
    {node : α} (hroot : Outside X tree.avlRoot)
    (hkey : ∀ b, b ∉ X → h b ≠ none → key node ≠ key b)
    (hrun : avlAdd fuel h tree key node = some (h', tree')) :
    Spares (X \ {node}) T h h' ∧ Outside (X \ {node}) tree'.avlRoot ∧
      tree'.avlNumnodes = tree.avlNumnodes + 1 := by
  have hmono : ∀ {o : Option α}, Outside X o → Outside (X \ {node}) o :=
    fun ho a ha hmem => ho a ha hmem.1
  obtain ⟨r, hfind, hrun⟩ := Option.bind_eq_some_iff.mp hrun
  obtain ⟨hfound, hmissing⟩ := avlFindLoop_spares hs hroot outside_none hfind
  cases r with
  | found a =>
    obtain ⟨ha, hk, hlive⟩ := hfound a rfl
    exact absurd hk (hkey a ha hlive)
  | missing prev child =>
    have hprev := hmono (hmissing prev child rfl)
    have hmem : node ∉ X \ {node} := fun hnode => hnode.2 rfl
    have hmod : ∀ h₁, h.modify node (fun _ => ⟨fun _ => none, prev, child, 0⟩) = some h₁ →
        Spares (X \ {node}) T h h₁ := by
      intro h₁ hmod
      obtain ⟨n, hn, rfl⟩ := Option.map_eq_some_iff.mp hmod
      constructor
      · intro b hb m hm
        rw [Function.update_apply] at hm
        split at hm
        next =>
          obtain rfl := Option.some.inj hm
          exact ⟨fun _ => outside_none, hprev⟩
        next hbn =>
          have hout := hs.apart b (fun hbX => hb ⟨hbX, hbn⟩) m hm
          exact ⟨fun d => hmono (hout.child d), hmono hout.parent⟩
      · exact fun x hx => Function.update_of_ne hx.2 ..
      · intro b _ hdead
        rwa [Function.update_of_ne]
        rintro rfl
        rw [hn] at hdead
        cases hdead
    obtain ⟨hs', hcount, hroot'⟩ := avlInsert_spares hmod hmem hprev hrun
    exact ⟨hs', hroot' (hmono hroot), hcount⟩

theorem avlAdoptChildren_spares (hs : Spares X T h₀ h) {node : α} {d : Bool} (hnode : node ∉ X)
    (hrun : avlAdoptChildren h node d = some h') : Spares X T h₀ h' := by
  unfold avlAdoptChildren at hrun
  obtain ⟨n, hn, hrun⟩ := Option.bind_eq_some_iff.mp hrun
  obtain ⟨c, hc, hrun⟩ := Option.bind_eq_some_iff.mp hrun
  obtain ⟨h₁, hparent, hrun⟩ := Option.bind_eq_some_iff.mp hrun
  obtain ⟨n', hn', hrun⟩ := Option.bind_eq_some_iff.mp hrun
  obtain ⟨c', hc', hrun⟩ := Option.bind_eq_some_iff.mp hrun
  have hs₁ := hs.setParent (hs.child hnode hn hc) (outside_some hnode) hparent
  exact hs₁.setParent (hs₁.child hnode hn' hc') (outside_some hnode) hrun

theorem avlPutTmp_spares (hs : Spares X T h₀ h) {tmp : α} (htmp : tmp ∉ X)
    (hrun : avlPutTmp h tmp = some h') : Spares X T h₀ h' := by
  unfold avlPutTmp at hrun
  obtain ⟨t, ht, hrun⟩ := Option.bind_eq_some_iff.mp hrun
  obtain ⟨p, hp, hrun⟩ := Option.bind_eq_some_iff.mp hrun
  obtain ⟨h₁, hchild, hrun⟩ := Option.bind_eq_some_iff.mp hrun
  obtain ⟨t', ht', hrun⟩ := Option.bind_eq_some_iff.mp hrun
  have hs₁ := hs.setChild (hs.parent htmp ht hp) (outside_some htmp) hchild
  split at hrun
  next => exact Option.some.inj hrun ▸ hs₁
  next y hy => exact hs₁.setParent (hs₁.child htmp ht' hy) (outside_some htmp) hrun

/-- The steps of a swap that succeeds. -/
theorem avlSwap_some {fuel : ℕ} {tmp delete : α}
    (hrun : avlSwap tmp fuel h tree delete = some (h', tree')) :
    ∃ dn c node nn h₁ h₂ h₃, h delete = some dn ∧
      dn.avlChild (decide (0 < dn.avlBalance)) = some c ∧
      avlDescend h (!decide (0 < dn.avlBalance)) fuel c = some node ∧ h node = some nn ∧
      (if dn.avlChild (decide (0 < dn.avlBalance)) = some node then
        Links.setChild (Function.update (Function.update h tmp (some nn)) node (some dn)) node
          (decide (0 < dn.avlBalance)) (some tmp)
      else some (Function.update (Function.update h tmp (some nn)) node (some dn))) = some h₁ ∧
      avlLink h₁ tree dn.avlParent dn.avlChildIndex (some node) = some (h₂, tree') ∧
      avlAdoptChildren h₂ node (decide (0 < dn.avlBalance)) = some h₃ ∧
      avlPutTmp h₃ tmp = some h' := by
  unfold avlSwap at hrun
  obtain ⟨dn, hdn, hrun⟩ := Option.bind_eq_some_iff.mp hrun
  obtain ⟨c, hc, hrun⟩ := Option.bind_eq_some_iff.mp hrun
  obtain ⟨node, hnode, hrun⟩ := Option.bind_eq_some_iff.mp hrun
  obtain ⟨nn, hnn, hrun⟩ := Option.bind_eq_some_iff.mp hrun
  obtain ⟨h₁, hself, hrun⟩ := Option.bind_eq_some_iff.mp hrun
  obtain ⟨⟨h₂, tree₂⟩, hlink, hrun⟩ := Option.bind_eq_some_iff.mp hrun
  obtain ⟨h₃, hadopt, hrun⟩ := Option.bind_eq_some_iff.mp hrun
  obtain ⟨h₄, hput, hret⟩ := Option.bind_eq_some_iff.mp hrun
  obtain ⟨rfl, rfl⟩ := Prod.mk.inj (Option.some.inj hret)
  exact ⟨dn, c, node, nn, h₁, h₂, h₃, hdn, hc, hnode, hnn, hself, hlink, hadopt, hput⟩

theorem avlSwap_spares (hs : Spares X T h₀ h) {fuel : ℕ} {tmp delete : α} (htmp : tmp ∉ X)
    (htmpT : tmp ∈ T) (hdelete : delete ∉ X)
    (hrun : avlSwap tmp fuel h tree delete = some (h', tree')) :
    Spares X T h₀ h' := by
  obtain ⟨dn, c, node, nn, h₁, h₂, h₃, hdn, hc, hnode, hnn, hself, hlink, hadopt, hput⟩ :=
    avlSwap_some hrun
  have hdnX := hs.apart delete hdelete dn hdn
  have hnodeX := avlDescend_spares hs (hs.child hdelete hdn hc) hnode
  have hs₁ : Spares X T h₀ h₁ := by
    have hcopied : Spares X T h₀ (Function.update h tmp (some nn)) :=
      hs.update htmp (fun n hn => Option.some.inj hn ▸ hs.apart node hnodeX nn hnn) (.inl htmpT)
    have hmoved : Spares X T h₀
        (Function.update (Function.update h tmp (some nn)) node (some dn)) := by
      refine hcopied.update hnodeX (fun n hn => Option.some.inj hn ▸ hdnX) (.inr (.inl ?_))
      rw [Function.update_apply]
      split
      next => exact nofun
      next => rw [hnn]; exact nofun
    split at hself
    next => exact hmoved.setChild hnodeX (outside_some htmp) hself
    next => exact Option.some.inj hself ▸ hmoved
  obtain ⟨hs₂, -, -⟩ := avlLink_spares hs₁ hdnX.parent (outside_some hnodeX) hlink
  exact avlPutTmp_spares (avlAdoptChildren_spares hs₂ hnodeX hadopt) htmp hput

theorem avlRemoveLoop_spares (hs : Spares X T h₀ h) {fuel : ℕ} {node : α} {d : Bool}
    (hnode : node ∉ X) (hrun : avlRemoveLoop h tree fuel node d = some (h', tree')) :
    Spares X T h₀ h' := by
  induction fuel generalizing h tree node d with
  | zero => cases hrun
  | succ fuel ih =>
    rw [avlRemoveLoop] at hrun
    obtain ⟨n, hn, hrun⟩ := Option.bind_eq_some_iff.mp hrun
    dsimp only at hrun
    split_ifs at hrun with hold hnew
    · obtain ⟨h₁, hbal, hret⟩ := Option.bind_eq_some_iff.mp hrun
      obtain ⟨rfl, -⟩ := Prod.mk.inj (Option.some.inj hret)
      exact hs.setBalance hnode hbal
    · obtain ⟨h₁, hbal, hrun⟩ := Option.bind_eq_some_iff.mp hrun
      simp only [Option.bind_eq_bind, Option.bind_some] at hrun
      split at hrun
      next parent hp => exact ih (hs.setBalance hnode hbal) (hs.parent hnode hn hp) hrun
      next =>
        obtain ⟨rfl, -⟩ := Prod.mk.inj (Option.some.inj hrun)
        exact hs.setBalance hnode hbal
    · obtain ⟨⟨h₁, tree₁, reduced⟩, hrot, hrun⟩ := Option.bind_eq_some_iff.mp hrun
      have hs₁ := (avlRotation_spares hs hnode hrot).1
      dsimp only at hrun
      split at hrun
      next parent hp => exact ih hs₁ (hs.parent hnode hn hp) hrun
      next =>
        obtain ⟨rfl, -⟩ := Prod.mk.inj (Option.some.inj hrun)
        exact hs₁

theorem avlUnlink_spares (hs : Spares X T h₀ h) {fuel : ℕ} {delete : α} (hdelete : delete ∉ X)
    (hrun : avlUnlink fuel h tree delete = some (h', tree')) : Spares X T h₀ h' := by
  unfold avlUnlink at hrun
  split at hrun
  next =>
    obtain ⟨rfl, -⟩ := Prod.mk.inj (Option.some.inj hrun)
    exact hs
  next =>
    obtain ⟨dn, hdn, hrun⟩ := Option.bind_eq_some_iff.mp hrun
    obtain ⟨h₁, hadopt, hrun⟩ := Option.bind_eq_some_iff.mp hrun
    obtain ⟨⟨h₂, tree₂⟩, hlink, hrun⟩ := Option.bind_eq_some_iff.mp hrun
    have hdnX := hs.apart delete hdelete dn hdn
    have hchild : Outside X
        (if (dn.avlChild false).isSome then dn.avlChild false else dn.avlChild true) := by
      split
      next => exact hdnX.child false
      next => exact hdnX.child true
    have hs₁ := hs.adopt hchild hdnX.parent hadopt
    obtain ⟨hs₂, -, -⟩ := avlLink_spares hs₁ hdnX.parent hchild hlink
    cases hp : dn.avlParent with
    | none =>
      simp only [hp] at hrun
      obtain ⟨rfl, -⟩ := Prod.mk.inj (Option.some.inj hrun)
      exact hs₂
    | some p =>
      simp only [hp] at hrun
      exact avlRemoveLoop_spares hs₂ (hdnX.parent p hp) hrun

theorem avlRemove_spares (hs : Spares X T h₀ h) {fuel : ℕ} {tmp data : α} (htmp : tmp ∉ X)
    (htmpT : tmp ∈ T) (hdata : data ∉ X)
    (hrun : avlRemove tmp fuel h tree data = some (h', tree')) :
    Spares X T h₀ h' := by
  unfold avlRemove at hrun
  obtain ⟨dn, hdn, hrun⟩ := Option.bind_eq_some_iff.mp hrun
  dsimp only at hrun
  split at hrun
  next =>
    obtain ⟨⟨h₁, tree₁⟩, hswap, hrun⟩ := Option.bind_eq_some_iff.mp hrun
    obtain ⟨⟨h₂, tree₂⟩, hunlink, hret⟩ := Option.bind_eq_some_iff.mp hrun
    obtain ⟨rfl, -⟩ := Prod.mk.inj (Option.some.inj hret)
    exact (avlUnlink_spares (avlSwap_spares hs htmp htmpT hdata hswap) htmp hunlink).update htmp
      nofun (.inr (.inr rfl))
  next =>
    obtain ⟨⟨h₁, tree₁⟩, hunlink, hret⟩ := Option.bind_eq_some_iff.mp hrun
    obtain ⟨rfl, -⟩ := Prod.mk.inj (Option.some.inj hret)
    exact (avlUnlink_spares hs hdata hunlink).update htmp nofun (.inr (.inr rfl))

theorem avlRemove_dead {fuel : ℕ} {tmp data : α}
    (hrun : avlRemove tmp fuel h tree data = some (h', tree')) : h' tmp = none := by
  unfold avlRemove at hrun
  obtain ⟨dn, -, hrun⟩ := Option.bind_eq_some_iff.mp hrun
  dsimp only at hrun
  split at hrun
  next =>
    obtain ⟨⟨h₁, tree₁⟩, -, hrun⟩ := Option.bind_eq_some_iff.mp hrun
    obtain ⟨⟨h₂, tree₂⟩, -, hret⟩ := Option.bind_eq_some_iff.mp hrun
    obtain ⟨rfl, -⟩ := Prod.mk.inj (Option.some.inj hret)
    exact Function.update_self ..
  next =>
    obtain ⟨⟨h₁, tree₁⟩, -, hret⟩ := Option.bind_eq_some_iff.mp hrun
    obtain ⟨rfl, -⟩ := Prod.mk.inj (Option.some.inj hret)
    exact Function.update_self ..

end Filebench.Avl

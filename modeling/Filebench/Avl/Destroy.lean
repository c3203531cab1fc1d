import Filebench.Avl.Holds
import Filebench.Lib.Postorder

/-! # Taking a tree down

A caller gets the nodes one after the other, frees each of them, and never has a freed node read
again. No balance is kept on the way: the path to the last node and the subtrees on the right of it
are all that is left of the tree. -/
namespace Filebench.Avl

open Fuel

variable {α : Type*} [DecidableEq α]

/-- The parent of the last node and the side of that node, in the low bit. A cookie that is not
NULL with no parent is `CHILDBIT`. -/
abbrev Cookie (α : Type*) := Option (Option α × Bool)

structure Destroy (α : Type*) where
  node : Option α
  cookie : Cookie α
  links : Links α
  tree : AvlTree α

/-- Down to the left, with the parent of the node. -/
def avlLeftmost (h : Links α) : ℕ → α → α → Option (α × Option α)
  | 0, _, _ => none
  | fuel + 1, node, parent => do
    let n ← h node
    match n.avlChild false with
    | none => some (node, some parent)
    | some c => avlLeftmost h fuel c node

/-- `check_right_side` -/
def avlCheckRight (h : Links α) (node : α) (parent : Option α) : Option (α × Option α) := do
  let n ← h node
  match n.avlChild true with
  | some c => some (c, some node)
  | none => some (node, parent)

/-- `done` -/
def avlCookie (h : Links α) (node : α) (parent : Option α) : Option (Cookie α) :=
  match parent with
  | none => some (some (none, true))
  | some p => do
    let n ← h node
    some (some (some p, n.avlChildIndex))

def avlDestroyNodes (fuel : ℕ) (h : Links α) (tree : AvlTree α) (cookie : Cookie α) :
    Option (Destroy α) :=
  match cookie with
  | none => do
    match ← avlFirst fuel h tree with
    | none => some ⟨none, some (none, true), h, tree⟩
    | some first =>
      let n ← h first
      let (node, parent) ← avlCheckRight h first n.avlParent
      some ⟨some node, ← avlCookie h node parent, h, tree⟩
  | some (none, _) =>
    some ⟨none, cookie, h, if tree.avlRoot.isSome then ⟨none, 0⟩ else tree⟩
  | some (some parent, child) => do
    let h ← h.setChild parent child none
    let tree := { tree with avlNumnodes := tree.avlNumnodes - 1 }
    let p ← h parent
    match child, p.avlChild true with
    | false, some right =>
      let (node, parent) ← avlLeftmost h fuel right parent
      let (node, parent) ← avlCheckRight h node parent
      some ⟨some node, ← avlCookie h node parent, h, tree⟩
    | _, _ => some ⟨some parent, ← avlCookie h parent p.avlParent, h, tree⟩

/-- `while ((node = avl_destroy_nodes(tree, &cookie)) != NULL) free(node);` -/
def avlDestroyLoop (tmp : Links α) (tree : AvlTree α) (cookie : Cookie α) :
    ℕ → Option (List α × Links α × AvlTree α)
  | 0 => none
  | fuel + 1 => do
    let d ← avlDestroyNodes fuel tmp tree cookie
    match d.node with
    | none => some ([], d.links, d.tree)
    | some node =>
      let (nodes, h, tree) ←
        avlDestroyLoop (Function.update d.links node none) d.tree d.cookie fuel
      some (node :: nodes, h, tree)

open BinTree BinTree.BalTree

variable {h h' : Links α} {tree : AvlTree α} {t : BalTree α} {π ρ : Path α} {q : Option α} {a : α}

def cookieOf : Path α → Cookie α
  | [] => some (none, true)
  | c :: _ => some (some c.key, c.dir)

theorem cookieOf_cons (c : Crumb α) (π : Path α) : cookieOf (c :: π) = some (some c.key, c.dir) :=
  rfl

theorem avlCookie_focus {n : AvlNode α} (ha : h a = some n) (hdir : n.avlChildIndex = dirOf π) :
    avlCookie h a (parentOf π) = some (cookieOf π) := by
  cases π with
  | nil => rfl
  | cons c π =>
    simp only [avlCookie, parentOf, ha, Option.bind_eq_bind, Option.bind_some, hdir, dirOf,
      cookieOf]

/-- What is left of the tree: the path to the last node, whose own link is stale. -/
structure Remains (h : Links α) (π : Path α) : Prop where
  path : ∃ q, RepPath h π q
  down : Down π
  nodup : (nodes π).Nodup
  balanced : ∀ c ∈ π, BinTree.Balanced c.sib

theorem Remains.frame (hr : Remains h π) (hh : ∀ x ∈ nodes π, h' x = h x) : Remains h' π := by
  obtain ⟨⟨q, hq⟩, hdown, hn, hb⟩ := hr
  exact ⟨⟨q, hq.congr hh⟩, hdown, hn, hb⟩

/-- A call gives `y`, the first of what was to come, and leaves a path. -/
structure Delivers (h : Links α) (y : α) (cookie : Cookie α) (order : List α) (left : Path α) :
    Prop where
  cookie : cookie = cookieOf left
  remains : Remains h left
  fresh : y ∉ nodes left
  order : order = y :: pending left

/-- Down to the left from the root of a subtree that hangs below `q`. -/
theorem avlLeftmost_rep {p : Option α} {d : Bool} (hr : Rep h t p d) (ha : t.root = some a)
    (hb : BinTree.Balanced t) (q : α) {fuel : ℕ} (hfuel : t.height ≤ fuel) :
    ∃ σ z b r, t = plug σ (.node nil z b r) ∧ (∀ c ∈ σ, c.dir = false) ∧
      avlLeftmost h fuel a q = some (z, some ((parentOf σ).getD q)) := by
  induction t generalizing p d a q fuel with
  | nil => cases ha
  | node l x b r ihl ihr =>
    obtain rfl := Option.some.inj ha
    obtain ⟨fuel, rfl⟩ := Nat.exists_eq_succ_of_ne_zero
      (by simp only [height] at hfuel; omega : fuel ≠ 0)
    simp only [height] at hfuel
    cases l with
    | nil =>
      refine ⟨[], x, b, r, rfl, fun c hc => absurd hc List.not_mem_nil, ?_⟩
      simp [avlLeftmost, hr.1, root, parentOf]
    | node l₁ y b₁ r₁ =>
      obtain ⟨σ, z, b', r', hσ, hdirs, hrun⟩ := ihl hr.2.1 rfl hb.1 x
        (show (BalTree.node l₁ y b₁ r₁).height ≤ fuel by omega)
      refine ⟨σ ++ [⟨false, x, b, r⟩], z, b', r', by rw [plug_append, ← hσ]; rfl, ?_, ?_⟩
      · intro c hc
        rcases List.mem_append.mp hc with hc | hc
        · exact hdirs c hc
        · rw [List.mem_singleton.mp hc]
      · simp only [avlLeftmost, hr.1, Option.bind_eq_bind, Option.bind_some, cond_false, root]
        rw [hrun]
        cases σ <;> simp [parentOf]

/-- The leftmost node of a tree that is whole below a path, or the leaf on the right of it. -/
theorem avlCheckRight_focus {z : α} {b : ℤ} {r : BalTree α} (hdown : Down π)
    (hpath : RepPath h π (some z)) (hfocus : Rep h (.node nil z b r) (parentOf π) (dirOf π))
    (hn : (z :: (r.inorder ++ nodes π)).Nodup) (hbal : ∀ c ∈ π, BinTree.Balanced c.sib)
    (hb : BinTree.Balanced (.node nil z b r)) :
    ∃ y parent cookie left, avlCheckRight h z (parentOf π) = some (y, parent) ∧
      avlCookie h y parent = some cookie ∧
      Delivers h y cookie ((BalTree.node nil z b r).postorder ++ pending π) left ∧
      (y :: nodes left).Perm (z :: (r.inorder ++ nodes π)) := by
  obtain ⟨hz, hrest⟩ := List.nodup_cons.mp hn
  rcases right_of_balanced hb with rfl | ⟨y, b', rfl⟩
  · refine ⟨z, parentOf π, cookieOf π, π, ?_, avlCookie_focus hfocus.1 rfl, ?_, .refl _⟩
    · simp [avlCheckRight, hfocus.1, root]
    · exact ⟨rfl, ⟨⟨_, hpath⟩, hdown, hrest, hbal⟩, hz, rfl⟩
  · let c : Crumb α := ⟨true, z, b, nil⟩
    have hchild : RepPath h (c :: π) (some y) := by
      refine ⟨?_, trivial, hpath⟩
      rw [hfocus.1]
      congr 2
      funext e
      cases e <;> rfl
    refine ⟨y, some z, cookieOf (c :: π), c :: π, ?_, ?_, ?_, ?_⟩
    · simp [avlCheckRight, hfocus.1, root]
    · exact avlCookie_focus (π := c :: π) hfocus.2.2.1 rfl
    · obtain ⟨hy, hπ⟩ := List.nodup_cons.mp hrest
      refine ⟨rfl, ⟨⟨_, hchild⟩, down_cons.mpr ⟨fun _ => rfl, hdown⟩, ?_, ?_⟩, ?_, ?_⟩
      · exact List.nodup_cons.mpr ⟨fun h => hz (.tail _ h), hπ⟩
      · exact List.forall_mem_cons.mpr ⟨trivial, hbal⟩
      · intro h
        rcases List.mem_cons.mp h with heq | h
        · exact hz (heq ▸ .head _)
        · exact hy h
      · simp [postorder, pending, c]
    · exact List.Perm.swap z y (nodes π)

/-- Where the parent of the last node goes next: to a subtree on the right that is whole. -/
theorem avlLeftmost_focus {c : Crumb α} {x : α} (hpath : RepPath h (c :: π) none)
    (hr : Remains h (c :: π)) (hdir : c.dir = false) (hx : c.sib.root = some x) {fuel : ℕ}
    (hfuel : c.sib.inorder.length ≤ fuel) :
    ∃ z parent y parent' cookie left, avlLeftmost h fuel x c.key = some (z, parent) ∧
      avlCheckRight h z parent = some (y, parent') ∧ avlCookie h y parent' = some cookie ∧
      Delivers h y cookie (pending (c :: π)) left ∧ (y :: nodes left).Perm (nodes (c :: π)) := by
  obtain ⟨hbc, hbπ⟩ := List.forall_mem_cons.mp hr.balanced
  obtain ⟨-, hdown⟩ := down_cons.mp hr.down
  obtain ⟨hkey, hsib, hrest⟩ := hpath
  rw [hdir] at hkey hsib
  obtain ⟨σ, z, b, r, hσ, hdirs, hrun⟩ :=
    avlLeftmost_rep hsib hx hbc c.key ((height_le_length c.sib).trans hfuel)
  -- the parent has no left child any more
  let c' : Crumb α := ⟨true, c.key, c.bal, nil⟩
  have hdown' : Down (σ ++ c' :: π) :=
    down_append.mpr ⟨down_of_false hdirs, down_cons.mpr ⟨fun _ => rfl, hdown⟩⟩
  have hwhole : Rep h (plug (σ ++ c' :: π) (.node nil z b r)) none false := by
    rw [plug_append, ← hσ]
    refine rep_plug.mpr ⟨⟨?_, trivial, hrest⟩, hsib⟩
    rw [hkey]
    congr 2
    funext e
    cases e <;> rfl
  have hperm : (z :: (r.inorder ++ nodes (σ ++ c' :: π))).Perm (nodes (c :: π)) := by
    have hin : c.sib.inorder.Perm (z :: r.inorder ++ nodes σ) := hσ ▸ inorder_plug_perm σ _
    calc (z :: (r.inorder ++ nodes (σ ++ c' :: π)))
        = (z :: r.inorder ++ nodes σ) ++ c.key :: nodes π := by simp [nodes_append, nodes, inorder, c']
      _ |>.Perm (c.key :: ((z :: r.inorder ++ nodes σ) ++ nodes π)) := List.perm_middle
      _ |>.Perm (c.key :: (c.sib.inorder ++ nodes π)) := ((hin.symm.append_right _).cons _)
  have hbal : BinTree.Balanced (plug σ (.node nil z b r)) := hσ ▸ hbc
  have hbσ := balanced_plug.mp hbal
  obtain ⟨hpath', hfocus⟩ := rep_plug.mp hwhole
  have hparent : parentOf (σ ++ c' :: π) = some ((parentOf σ).getD c.key) := by
    cases σ <;> rfl
  obtain ⟨y, parent', cookie, left, hcheck, hcookie, hdel, hleft⟩ := avlCheckRight_focus hdown'
    hpath' hfocus (hperm.nodup_iff.mpr hr.nodup)
    (List.forall_mem_append.mpr ⟨balanced_sib hbσ.2, List.forall_mem_cons.mpr ⟨trivial, hbπ⟩⟩)
    hbσ.1
  refine ⟨z, _, y, parent', cookie, left, hrun, hparent ▸ hcheck, hcookie, ?_,
    hleft.trans hperm⟩
  have horder : (BalTree.node nil z b r).postorder ++ pending (σ ++ c' :: π) =
      pending (c :: π) := by
    rw [pending_append, ← List.append_assoc, ← postorder_plug (down_of_false hdirs), ← hσ]
    simp [pending, hdir, c']
  exact ⟨hdel.cookie, hdel.remains, hdel.fresh, horder ▸ hdel.order⟩

/-- The link to the last node is cut. -/
theorem Remains.cut {c : Crumb α} (hr : Remains h (c :: π)) :
    ∃ h', h.setChild c.key c.dir none = some h' ∧ RepPath h' (c :: π) none ∧
      ∀ x, x ≠ c.key → h' x = h x := by
  obtain ⟨q, hkey, hsib, hrest⟩ := hr.path
  have hn := (List.nodup_cons.mp hr.nodup).1
  have hother : ∀ x ∈ c.sib.inorder ++ nodes π, x ≠ c.key := by
    rintro x hx rfl
    exact hn hx
  refine ⟨_, by rw [Links.setChild, Links.modify_some _ hkey], ⟨?_, ?_, ?_⟩,
    fun x hx => Function.update_of_ne hx _ _⟩
  · rw [Function.update_self]
    congr 2
    funext e
    by_cases he : e = c.dir <;> simp [he]
  · exact hsib.congr fun x hx =>
      Function.update_of_ne (hother x (List.mem_append_left _ hx)) _ _
  · exact hrest.congr fun x hx =>
      Function.update_of_ne (hother x (List.mem_append_right _ hx)) _ _

/-- A call with a node left to come. -/
theorem avlDestroyNodes_cons (tree : AvlTree α) {c : Crumb α} (hr : Remains h (c :: π)) {fuel : ℕ}
    (hfuel : (nodes (c :: π)).length ≤ fuel) :
    ∃ y d left, avlDestroyNodes fuel h tree (cookieOf (c :: π)) = some d ∧ d.node = some y ∧
      Delivers d.links y d.cookie (pending (c :: π)) left ∧
      (y :: nodes left).Perm (nodes (c :: π)) ∧ d.tree.avlRoot = tree.avlRoot ∧
      ∀ x ∉ nodes (c :: π), d.links x = h x := by
  obtain ⟨h', hset, hpath, hother⟩ := hr.cut
  have hframe : ∀ x ∉ nodes (c :: π), h' x = h x := fun x hx =>
    hother x fun heq => hx (heq ▸ .head _)
  have hr' : Remains h' (c :: π) := ⟨⟨none, hpath⟩, hr.down, hr.nodup, hr.balanced⟩
  obtain ⟨hkey, -, hrest⟩ := id hpath
  obtain ⟨hc, hdown⟩ := down_cons.mp hr.down
  obtain ⟨hn, hnπ⟩ := List.nodup_cons.mp hr.nodup
  -- up to the parent, when nothing is on the right of it
  have hup : c.sib = nil → avlCookie h' c.key (parentOf π) = some (cookieOf π) ∧
      Delivers h' c.key (cookieOf π) (pending (c :: π)) π ∧
      (c.key :: nodes π).Perm (nodes (c :: π)) := by
    intro hnil
    have hpending : pending (c :: π) = c.key :: pending π := by
      rw [pending, hnil]
      cases c.dir <;> rfl
    refine ⟨avlCookie_focus hkey rfl, ⟨rfl, ⟨⟨_, hrest⟩, hdown, ?_, ?_⟩, ?_, hpending⟩, ?_⟩
    · exact (List.nodup_append.mp hnπ).2.1
    · exact (List.forall_mem_cons.mp hr.balanced).2
    · exact fun hmem => hn (List.mem_append_right _ hmem)
    · rw [nodes, hnil]
      exact .refl _
  cases hdir : c.dir with
  | true =>
    obtain ⟨hcookie, hdel, hperm⟩ := hup (hc hdir)
    refine ⟨c.key, ⟨some c.key, cookieOf π, h', ⟨tree.avlRoot, tree.avlNumnodes - 1⟩⟩, π, ?_, rfl, hdel, hperm, rfl, hframe⟩
    · simp only [avlDestroyNodes, cookieOf_cons, hset, hkey, hcookie, Option.bind_eq_bind,
        Option.bind_some]
      simp only [hdir]
  | false =>
    cases hroot : c.sib.root with
    | none =>
      have hnil : c.sib = nil := by
        cases hsib : c.sib with
        | nil => rfl
        | node => rw [hsib] at hroot; cases hroot
      obtain ⟨hcookie, hdel, hperm⟩ := hup hnil
      refine ⟨c.key, ⟨some c.key, cookieOf π, h', ⟨tree.avlRoot, tree.avlNumnodes - 1⟩⟩, π, ?_, rfl, hdel, hperm, rfl, hframe⟩
      · simp only [avlDestroyNodes, cookieOf_cons, hset, hkey, hcookie, hroot, Option.bind_eq_bind,
          Option.bind_some]
        simp only [hdir, ite_self]
    | some x =>
      have hlen : c.sib.inorder.length ≤ fuel := by
        simp only [nodes, List.length_cons, List.length_append] at hfuel
        omega
      obtain ⟨z, parent, y, parent', cookie, left, hleft, hcheck, hcookie, hdel, hperm⟩ :=
        avlLeftmost_focus hpath hr' hdir hroot hlen
      refine ⟨y, ⟨some y, cookie, h', ⟨tree.avlRoot, tree.avlNumnodes - 1⟩⟩, left, ?_, rfl, hdel, hperm, rfl, hframe⟩
      · simp only [avlDestroyNodes, cookieOf_cons, hset, hkey, hroot, Option.bind_eq_bind,
          Option.bind_some]
        simp only [hdir]
        simp only [Bool.true_eq_false, if_false, hleft, hcheck, hcookie, Option.bind_some]

/-- The first call, on a tree that is not empty. -/
theorem avlDestroyNodes_first (hs : Shows h tree t) (hn : t.inorder.Nodup)
    (hb : BinTree.Balanced t) (ha : t.root = some a) {fuel : ℕ}
    (hfuel : t.inorder.length < fuel) :
    ∃ y cookie left, avlDestroyNodes fuel h tree none = some ⟨some y, cookie, h, tree⟩ ∧
      Delivers h y cookie t.postorder left ∧ (y :: nodes left).Perm t.inorder := by
  obtain ⟨σ, z, b, r, rfl, hdirs⟩ := exists_edge false ha
  have hfirst : avlFirst fuel h tree = some (some z) :=
    (avlFirst_shows hs hfuel).trans (congrArg some (edge_plug false z b r hdirs))
  have hperm := inorder_plug_perm σ (mk (!false) z b r nil)
  have hbσ := balanced_plug.mp hb
  obtain ⟨y, parent, cookie, left, hcheck, hcookie, hdel, hleft⟩ :=
    avlCheckRight_focus (down_of_false hdirs) hs.path hs.focus
      (hperm.nodup_iff.mp hn) (balanced_sib hbσ.2) hbσ.1
  refine ⟨y, cookie, left, ?_, ?_, hleft.trans hperm.symm⟩
  · have hlink := hs.focus.1
    simp only [avlDestroyNodes, hfirst, hlink, hcheck, hcookie, Option.bind_eq_bind,
      Option.bind_some]
  · rw [postorder_plug (down_of_false hdirs)]
    exact hdel

/-- The caller frees the node that it was given. -/
theorem Delivers.free {y : α} {cookie : Cookie α} {order : List α} {left : Path α}
    (hdel : Delivers h y cookie order left) : Remains (Function.update h y none) left :=
  hdel.remains.frame fun _ hx => Function.update_of_ne (ne_of_mem_of_not_mem hx hdel.fresh) _ _

/-- One node is freed, and then the others. -/
theorem free_rest {y : α} {others all : List α} (hperm : (y :: others).Perm all) (x : α) :
    (if x ∈ others then none else Function.update h y none x) =
      if x ∈ all then none else h x := by
  simp only [← hperm.mem_iff, List.mem_cons, Function.update_apply]
  by_cases hx : x ∈ others <;> by_cases hxy : x = y <;> simp [hx, hxy]

/-- The rest of the loop frees the nodes of the path and everything on the right of it. -/
theorem avlDestroyLoop_remains (hr : Remains h π) (hroot : tree.avlRoot.isSome = true) {fuel : ℕ}
    (hfuel : (nodes π).length < fuel) :
    ∃ h', avlDestroyLoop h tree (cookieOf π) fuel = some (pending π, h', avlCreate) ∧
      ∀ x, h' x = if x ∈ nodes π then none else h x := by
  induction fuel generalizing h tree π with
  | zero => exact absurd hfuel (Nat.not_lt_zero _)
  | succ fuel ih =>
    cases π with
    | nil =>
      refine ⟨h, ?_, fun x => by simp [nodes]⟩
      simp [avlDestroyLoop, avlDestroyNodes, cookieOf, hroot, pending, avlCreate]
    | cons c π =>
      obtain ⟨y, d, left, hrun, hy, hdel, hperm, hkeep, hframe⟩ :=
        avlDestroyNodes_cons tree hr (Nat.lt_succ_iff.mp hfuel)
      have hlen := hperm.length_eq
      rw [List.length_cons] at hlen
      obtain ⟨h', hloop, hh'⟩ := ih hdel.free (hkeep ▸ hroot) (by omega)
      refine ⟨h', ?_, fun x => ?_⟩
      · simp only [avlDestroyLoop, hrun, hy, hdel.cookie, hloop, Option.bind_eq_bind,
          Option.bind_some]
        rw [hdel.order]
      · rw [hh', free_rest hperm]
        by_cases hx : x ∈ nodes (c :: π)
        · rw [if_pos hx, if_pos hx]
        · rw [if_neg hx, if_neg hx, hframe x hx]

/-- In post-order a child comes before its parent. -/
theorem Rep.child_first {p : Option α} {d e : Bool} {x y : α} {n : AvlNode α} (hr : Rep h t p d)
    (hx : x ∈ t.inorder) (hlink : h x = some n) (hy : n.avlChild e = some y) :
    [y, x].Sublist t.postorder := by
  induction t generalizing p d with
  | nil => exact absurd hx List.not_mem_nil
  | node l a b r ihl ihr =>
    have hroot : ∀ u : BalTree α, u.root = some y → [y].Sublist u.postorder := fun u hu =>
      List.singleton_sublist.mpr ((postorder_perm u).mem_iff.mpr (root_mem hu))
    rw [postorder]
    rcases List.mem_append.mp hx with hx | hx
    · exact (ihl hr.2.1 hx).trans
        ((List.sublist_append_left _ _).trans (List.sublist_append_left _ _))
    · rcases List.mem_cons.mp hx with rfl | hx
      · obtain rfl := Option.some.inj (hlink.symm.trans hr.1)
        change ([y] ++ [x]).Sublist _
        refine List.Sublist.append ?_ (List.Sublist.refl [x])
        cases e with
        | false => exact (hroot l hy).trans (List.sublist_append_left _ _)
        | true => exact (hroot r hy).trans (List.sublist_append_right _ _)
      · exact (ihr hr.2.2 hx).trans
          ((List.sublist_append_right _ _).trans (List.sublist_append_left _ _))

variable {κ : Type*} [LinearOrder κ] {key : α → κ} {l : List α}

/-- A caller that frees each node that it is given frees every node of the tree once, children
before their parents, and no other node. No freed node is read again, and the tree ends empty. -/
theorem avlDestroyLoop_frees (hh : Holds h tree key l) :
    ∃ order h', Returns (avlDestroyLoop h tree none) (order, h', avlCreate) ∧
      order.Perm l ∧ (∀ x, h' x = if x ∈ l then none else h x) ∧
      ∀ x ∈ l, ∀ n e y, h x = some n → n.avlChild e = some y → [y, x].Sublist order := by
  have hn := hh.nodup
  obtain ⟨t, hs, hb, rfl⟩ := hh.shape
  refine ⟨t.postorder, ?_⟩
  cases ht : t.root with
  | none =>
    have hnil : t = nil := by
      cases t with
      | nil => rfl
      | node => cases ht
    subst hnil
    have htree : tree = avlCreate := by
      have hroot : tree.avlRoot = none := hs.root
      have hcount : tree.avlNumnodes = 0 := hh.count
      cases tree
      simp_all [avlCreate]
    refine ⟨h, ⟨1, fun fuel hfuel => ?_⟩, .nil, fun x => by simp [inorder], ?_⟩
    · obtain ⟨fuel, rfl⟩ := Nat.exists_eq_add_of_le' hfuel
      simp [avlDestroyLoop, avlDestroyNodes, avlFirst, htree, avlCreate, postorder]
    · exact fun x hx => absurd hx List.not_mem_nil
  | some a =>
    have hroot : tree.avlRoot.isSome = true := by rw [hs.root, ht]; rfl
    refine ⟨fun x => if x ∈ t.inorder then none else h x,
      ⟨t.inorder.length + 2, fun fuel hfuel => ?_⟩, postorder_perm t, fun x => rfl,
      fun x hx n e y hlink hy => hs.rep.child_first hx hlink hy⟩
    obtain ⟨fuel, rfl⟩ := Nat.exists_eq_succ_of_ne_zero (by omega : fuel ≠ 0)
    obtain ⟨y, cookie, left, hrun, hdel, hperm⟩ :=
      avlDestroyNodes_first hs hn hb ht (by omega : t.inorder.length < fuel)
    have hlen := hperm.length_eq
    rw [List.length_cons] at hlen
    obtain ⟨h', hloop, hh'⟩ := avlDestroyLoop_remains hdel.free hroot
      (show (nodes left).length < fuel by omega)
    have hlinks : h' = fun x => if x ∈ t.inorder then none else h x :=
      funext fun x => (hh' x).trans (free_rest hperm x)
    simp only [avlDestroyLoop, hrun, hdel.cookie, hloop, Option.bind_eq_bind, Option.bind_some]
    rw [hdel.order, hlinks]

theorem avlDestroyLoop_frees_pair :
    ∃ order h', Returns (avlDestroyLoop pairLinks pairTree none) (order, h', avlCreate) ∧
      [2, 1].Sublist order := by
  obtain ⟨order, h', hrun, -, -, hfirst⟩ := avlDestroyLoop_frees pairTree_holds
  exact ⟨order, h', hrun, hfirst 1 (by decide) _ true 2 rfl rfl⟩

end Filebench.Avl

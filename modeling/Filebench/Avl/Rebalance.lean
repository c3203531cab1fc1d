import Filebench.Avl.Search

/-! # Rotation and the two rebalancing loops on links

Each routine is followed on a represented tree: it returns, and what it leaves represents the
tree that the operation on trees computes. -/
namespace Filebench.Avl

open BinTree BinTree.BalTree

variable {α : Type*}

/-- What is needed to know of the links outside a focus: nothing there was touched. -/
def Frame (h h' : Links α) (l : List α) : Prop := ∀ x ∉ l, h' x = h x

theorem Frame.trans {h h' h'' : Links α} {l l' : List α} (hf : Frame h h' l)
    (hg : Frame h' h'' l') (hl : ∀ x ∈ l', x ∈ l) : Frame h h'' l := fun x hx =>
  (hg x fun hm => hx (hl x hm)).trans (hf x hx)

theorem Frame.mono {h h' : Links α} {l l' : List α} (hf : Frame h h' l)
    (hl : ∀ x ∈ l, x ∈ l') : Frame h h' l' := fun x hx => hf x fun hm => hx (hl x hm)

theorem shows_of_root {h : Links α} {tree : AvlTree α} {π : Path α} {t : BalTree α}
    (t' : BalTree α) {q : Option α} (hr : q = (plug π t').root)
    (hpath : RepPath h π t.root) (hrep : Rep h t (parentOf π) (dirOf π))
    (hroot : tree.avlRoot = if π = [] then t.root else q) : Shows h tree (plug π t) := by
  refine ⟨rep_plug.mpr ⟨hpath, hrep⟩, ?_⟩
  rw [hroot]
  split_ifs with hπ
  · subst hπ; rfl
  · rw [hr]
    exact root_plug π t' t (.inr hπ)

variable [DecidableEq α]

theorem rotation_left (d : Bool) : (!decide (2 * sgn d < 0)) = d := by cases d <;> rfl

theorem rotation_heavy (d : Bool) : 2 * sgn d / 2 = sgn d := by cases d <;> rfl

/-! ### The writes of a rotation -/

section writes

variable {h h₂ h₄ : Links α} {d e : Bool} {a k g : α} {x y s q gl gr : Option α} {b cb gb : ℤ}

theorem setChild_near (ha : h a = some ⟨fun f => if f = d then x else y, q, e, b⟩)
    (x' : Option α) : h.setChild a d x' =
      some (Function.update h a (some ⟨fun f => if f = d then x' else y, q, e, b⟩)) := by
  rw [Links.setChild, Links.modify_some _ ha]
  congr 4
  funext f
  by_cases hf : f = d <;> simp [hf]

theorem setChild_far (ha : h a = some ⟨fun f => if f = d then x else y, q, e, b⟩)
    (y' : Option α) : h.setChild a (!d) y' =
      some (Function.update h a (some ⟨fun f => if f = d then x else y', q, e, b⟩)) := by
  rw [Links.setChild, Links.modify_some _ ha]
  congr 4
  funext f
  rcases Bool.eq_or_eq_not f d with rfl | rfl <;> simp

/-- A node gets its new balance and its new place below a parent. -/
theorem relink_bind {β : Type*} {n : AvlNode α} (ha : h a = some n) (b : ℤ) (e : Bool)
    (q : Option α) (rest : Links α → Option β) :
    ((h.setBalance a b).bind fun h => (h.setChildIndex a e).bind fun h =>
      (h.setParent a q).bind rest) = rest (Function.update h a (some ⟨n.avlChild, q, e, b⟩)) := by
  simp [Links.setBalance, Links.setChildIndex, Links.setParent, Links.modify_some _ ha]

/-- The same, with the parent before the side. -/
theorem relink_bind' {β : Type*} {n : AvlNode α} (ha : h a = some n) (b : ℤ) (e : Bool)
    (q : Option α) (rest : Links α → Option β) :
    ((h.setBalance a b).bind fun h => (h.setParent a q).bind fun h =>
      (h.setChildIndex a e).bind rest) =
        rest (Function.update h a (some ⟨n.avlChild, q, e, b⟩)) := by
  simp [Links.setBalance, Links.setChildIndex, Links.setParent, Links.modify_some _ ha]

/-- The routine on a node whose child is not heavy on the far side, up to the last link. -/
theorem avlRotation_single (tree : AvlTree α) (hak : a ≠ k) (hcb : cb ≠ sgn (!d))
    (ha : h a = some ⟨fun f => if f = d then some k else s, q, e, b⟩)
    (hk : h k = some ⟨fun f => if f = d then x else y, some a, d, cb⟩)
    (hadopt : Links.adopt (Function.update h a
      (some ⟨fun f => if f = d then y else s, q, e, b⟩)) y (some a) d = some h₂)
    (h₂a : h₂ a = some ⟨fun f => if f = d then y else s, q, e, b⟩) (h₂k : h₂ k = h k) :
    ∃ h₃, avlRotation h tree a (2 * sgn d) = ((avlLink h₃ tree q e (some k)).map
        fun r => (r.1, r.2, decide (cb + sgn (!d) = 0))) ∧
      h₃ a = some ⟨fun f => if f = d then y else s, some k, !d, -(cb + sgn (!d))⟩ ∧
      h₃ k = some ⟨fun f => if f = d then x else some a, q, e, cb + sgn (!d)⟩ ∧
      ∀ z, z ≠ a → z ≠ k → h₃ z = h₂ z := by
  have hset := setChild_far (h₂k.trans hk) (some a)
  set h₃ : Links α := Function.update h₂ k
    (some ⟨fun f => if f = d then x else some a, some a, d, cb⟩) with hh₃
  have h₃a : h₃ a = _ := (Function.update_of_ne hak ..).trans h₂a
  set h₄ : Links α := Function.update h₃ a
    (some ⟨fun f => if f = d then y else s, some k, !d, -(cb + sgn (!d))⟩) with hh₄
  have h₄k : h₄ k = _ := (Function.update_of_ne hak.symm ..).trans (Function.update_self ..)
  refine ⟨Function.update h₄ k
    (some ⟨fun f => if f = d then x else some a, q, e, cb + sgn (!d)⟩), ?_, ?_,
    Function.update_self .., ?_⟩
  · rw [sgn_not] at hcb
    unfold avlRotation
    dsimp only
    rw [rotation_left, rotation_heavy, ha]
    dsimp only [Option.bind_eq_bind, Option.bind_some]
    rw [if_pos rfl, Option.bind_some, hk, Option.bind_some]
    dsimp only
    rw [if_pos hcb, if_neg (Bool.not_ne_self d), setChild_near ha, Option.bind_some, hadopt,
      Option.bind_some, hset, Option.bind_some, relink_bind h₃a, ← sgn_not, ← hh₄,
      relink_bind h₄k, Option.map_eq_bind]
    rfl
  · rw [Function.update_of_ne hak, hh₄, Function.update_self]
  · intro z hza hzk
    rw [Function.update_of_ne hzk, hh₄, Function.update_of_ne hza, hh₃, Function.update_of_ne hzk]

/-- The routine on a node whose child is heavy on the far side, up to the last link. -/
theorem avlRotation_double (tree : AvlTree α) (hak : a ≠ k) (hag : a ≠ g) (hkg : k ≠ g)
    (ha : h a = some ⟨fun f => if f = d then some k else s, q, e, b⟩)
    (hk : h k = some ⟨fun f => if f = d then x else some g, some a, d, sgn (!d)⟩)
    (hg : h g = some ⟨fun f => if f = d then gl else gr, some k, !d, gb⟩)
    (hadopt₂ : Links.adopt (Function.update h a
      (some ⟨fun f => if f = d then gr else s, q, e, b⟩)) gr (some a) d = some h₂)
    (h₂k : h₂ k = h k)
    (hadopt₄ : Links.adopt (Function.update h₂ k
      (some ⟨fun f => if f = d then x else gl, some a, d, sgn (!d)⟩)) gl (some k) (!d) = some h₄)
    (h₄a : h₄ a = some ⟨fun f => if f = d then gr else s, q, e, b⟩)
    (h₄k : h₄ k = some ⟨fun f => if f = d then x else gl, some a, d, sgn (!d)⟩)
    (h₄g : h₄ g = h g) :
    ∃ h₅, avlRotation h tree a (2 * sgn d) =
        ((avlLink h₅ tree q e (some g)).map fun r => (r.1, r.2, true)) ∧
      h₅ a = some ⟨fun f => if f = d then gr else s, some g, !d,
        if gb = sgn d then sgn (!d) else 0⟩ ∧
      h₅ k = some ⟨fun f => if f = d then x else gl, some g, d,
        if gb = sgn (!d) then sgn d else 0⟩ ∧
      h₅ g = some ⟨fun f => if f = d then some k else some a, q, e, 0⟩ ∧
      ∀ z, z ≠ a → z ≠ k → z ≠ g → h₅ z = h₄ z := by
  have hnear := setChild_near (h₄g.trans hg) (some k)
  set u₁ : Links α := Function.update h₄ g
    (some ⟨fun f => if f = d then some k else gr, some k, !d, gb⟩) with hu₁
  have hu₁k : u₁ k = _ := (Function.update_of_ne hkg ..).trans h₄k
  set u₂ : Links α := Function.update u₁ k (some ⟨fun f => if f = d then x else gl, some g, d,
    if gb = sgn (!d) then sgn d else 0⟩) with hu₂
  have hu₂g : u₂ g = _ := (Function.update_of_ne hkg.symm ..).trans (Function.update_self ..)
  have hfar := setChild_far hu₂g (some a)
  set u₃ : Links α := Function.update u₂ g
    (some ⟨fun f => if f = d then some k else some a, some k, !d, gb⟩) with hu₃
  have hu₃a : u₃ a = some ⟨fun f => if f = d then gr else s, q, e, b⟩ := by
    rw [hu₃, Function.update_of_ne hag, hu₂, Function.update_of_ne hak, hu₁,
      Function.update_of_ne hag, h₄a]
  set u₄ : Links α := Function.update u₃ a (some ⟨fun f => if f = d then gr else s, some g, !d,
    if gb = sgn d then sgn (!d) else 0⟩) with hu₄
  have hu₄g : u₄ g = _ := (Function.update_of_ne hag.symm ..).trans (Function.update_self ..)
  refine ⟨Function.update u₄ g (some ⟨fun f => if f = d then some k else some a, q, e, 0⟩), ?_, ?_,
    ?_, Function.update_self .., ?_⟩
  · unfold avlRotation
    dsimp only
    rw [rotation_left, rotation_heavy, ha, ← sgn_not]
    dsimp only [Option.bind_eq_bind, Option.bind_some]
    rw [if_pos rfl, Option.bind_some, hk, Option.bind_some]
    dsimp only
    rw [if_neg (fun hne => hne rfl), if_neg (Bool.not_ne_self d), Option.bind_some, hg,
      Option.bind_some]
    dsimp only
    rw [if_pos rfl, if_neg (Bool.not_ne_self d), setChild_near ha, Option.bind_some, hadopt₂,
      Option.bind_some, setChild_far (h₂k.trans hk), Option.bind_some, hadopt₄, Option.bind_some,
      hnear, Option.bind_some, relink_bind' hu₁k, ← hu₂, hfar, Option.bind_some,
      relink_bind' hu₃a, ← hu₄, relink_bind' hu₄g, Option.map_eq_bind]
    rfl
  · rw [Function.update_of_ne hag, hu₄, Function.update_self]
  · rw [Function.update_of_ne hkg, hu₄, Function.update_of_ne hak.symm, hu₃,
      Function.update_of_ne hkg, hu₂, Function.update_self]
  · intro z hza hzk hzg
    rw [Function.update_of_ne hzg, hu₄, Function.update_of_ne hza, hu₃, Function.update_of_ne hzg,
      hu₂, Function.update_of_ne hzk, hu₁, Function.update_of_ne hzg]

end writes

private theorem rotation_single {h : Links α} (tree : AvlTree α) {π : Path α} {d : Bool}
    {a k : α} {b cb : ℤ} {x y s : BalTree α} (hcb : cb ≠ sgn (!d))
    (hpath : RepPath h π (some a))
    (hnode : Rep h (mk d a b (mk d k cb x y) s) (parentOf π) (dirOf π))
    (hn : ((mk d a b (mk d k cb x y) s).inorder ++ nodes π).Nodup) :
    ∃ h' tree', avlRotation h tree a (2 * sgn d) =
        some (h', tree', decide (cb + sgn (!d) = 0)) ∧
      RepPath h' π (some k) ∧
      Rep h' (mk d k (cb + sgn (!d)) x (mk d a (-(cb + sgn (!d))) y s)) (parentOf π) (dirOf π) ∧
      Frame h h' ((mk d a b (mk d k cb x y) s).inorder ++ nodes π) ∧
      tree'.avlNumnodes = tree.avlNumnodes ∧
      tree'.avlRoot = if π = [] then some k else tree.avlRoot := by
  obtain ⟨ha, hchild, hs⟩ := rep_mk.mp hnode
  obtain ⟨hk, hx, hy⟩ := rep_mk.mp hchild
  rw [root_mk] at ha
  rw [(((inorder_mk_perm ..).trans (((inorder_mk_perm ..).append_right _).cons _)).append_right
    _).nodup_iff] at hn
  simp only [List.cons_append, List.append_assoc, List.nodup_cons, List.mem_cons, List.mem_append,
    not_or] at hn
  obtain ⟨⟨hak, hax, hay, has, haπ⟩, ⟨hkx, hky, hks, hkπ⟩, hn⟩ := hn
  have hnπ : (nodes π).Nodup := hn.of_append_right.of_append_right.of_append_right
  have hxrest := List.disjoint_of_nodup_append hn
  have hyrest := List.disjoint_of_nodup_append hn.of_append_right
  have hsπ := List.disjoint_of_nodup_append hn.of_append_right.of_append_right
  -- the far subtree of the child goes below the node
  have hy₁ : Rep (Function.update h a
      (some ⟨fun f => if f = d then y.root else s.root, parentOf π, dirOf π, b⟩)) y (some k) (!d) :=
    hy.congr fun z hz => Function.update_of_ne (ne_of_mem_of_not_mem hz hay) _ _
  obtain ⟨h₂, hadopt, hy₂, hf₂⟩ := adopt_rep (some a) d hy₁ hn.of_append_right.of_append_left
  have h₂k := (hf₂ k hky).trans (Function.update_of_ne (Ne.symm hak) ..)
  obtain ⟨h₃, hrun, h₃a, h₃k, hf₃⟩ := avlRotation_single tree hak hcb ha hk hadopt
    ((hf₂ a hay).trans (Function.update_self ..)) h₂k
  have hin₃ : ∀ z, z ≠ a → z ≠ k → z ∉ y.inorder → h₃ z = h z := by
    intro z hza hzk hzy
    rw [hf₃ z hza hzk, hf₂ z hzy, Function.update_of_ne hza]
  have hπne : ∀ z ∈ nodes π, h₃ z = h z := fun z hz =>
    hin₃ z (ne_of_mem_of_not_mem hz haπ) (ne_of_mem_of_not_mem hz hkπ)
      fun hzy => hyrest hzy (List.mem_append_right _ hz)
  obtain ⟨h₄, tree', hlink, hpath', hf₄, hnum, hroot⟩ :=
    avlLink_rep tree (some k) (hpath.congr hπne) hnπ
  have hp : ∀ z, z ∉ nodes π → h₄ z = h₃ z := fun z hz =>
    hf₄ z fun he => hz (parentOf_mem he)
  have hin : ∀ z, z ≠ a → z ≠ k → z ∉ y.inorder → z ∉ nodes π → h₄ z = h z := by
    intro z hza hzk hzy hzπ
    rw [hp z hzπ, hin₃ z hza hzk hzy]
  refine ⟨h₄, tree', by rw [hrun, hlink]; rfl, hpath', ?_, ?_, hnum, hroot⟩
  · rw [rep_mk, rep_mk]
    refine ⟨?_, ?_, ?_, ?_, ?_⟩
    · rw [hp k hkπ, h₃k, root_mk]
    · exact hx.congr fun z hz => hin z (ne_of_mem_of_not_mem hz hax) (ne_of_mem_of_not_mem hz hkx)
        (fun hzy => hxrest hz (by simp [hzy])) fun hzπ => hxrest hz (by simp [hzπ])
    · rw [hp a haπ, h₃a]
    · refine hy₂.congr fun z hz => ?_
      rw [hp z fun hzπ => hyrest hz (by simp [hzπ]),
        hf₃ z (ne_of_mem_of_not_mem hz hay) (ne_of_mem_of_not_mem hz hky)]
    · exact hs.congr fun z hz => hin z (ne_of_mem_of_not_mem hz has) (ne_of_mem_of_not_mem hz hks)
        (fun hzy => hyrest hzy (by simp [hz])) (hsπ hz)
  · intro z hz
    simp only [List.mem_append, mem_inorder_mk, not_or] at hz
    exact hin z hz.1.1 hz.1.2.1.1 hz.1.2.1.2.2 hz.2

private theorem rotation_double {h : Links α} (tree : AvlTree α) {π : Path α} {d : Bool}
    {a k g : α} {b gb : ℤ} {x gl gr s : BalTree α} (hpath : RepPath h π (some a))
    (hnode : Rep h (mk d a b (mk d k (sgn (!d)) x (mk d g gb gl gr)) s) (parentOf π) (dirOf π))
    (hn : ((mk d a b (mk d k (sgn (!d)) x (mk d g gb gl gr)) s).inorder ++ nodes π).Nodup) :
    ∃ h' tree', avlRotation h tree a (2 * sgn d) = some (h', tree', true) ∧
      RepPath h' π (some g) ∧
      Rep h' (mk d g 0 (mk d k (if gb = sgn (!d) then sgn d else 0) x gl)
        (mk d a (if gb = sgn d then sgn (!d) else 0) gr s)) (parentOf π) (dirOf π) ∧
      Frame h h' ((mk d a b (mk d k (sgn (!d)) x (mk d g gb gl gr)) s).inorder ++ nodes π) ∧
      tree'.avlNumnodes = tree.avlNumnodes ∧
      tree'.avlRoot = if π = [] then some g else tree.avlRoot := by
  obtain ⟨ha, hchild, hs⟩ := rep_mk.mp hnode
  obtain ⟨hk, hx, hgchild⟩ := rep_mk.mp hchild
  obtain ⟨hg, hgl, hgr⟩ := rep_mk.mp hgchild
  rw [root_mk] at ha hk
  have hperm : ((mk d a b (mk d k (sgn (!d)) x (mk d g gb gl gr)) s).inorder ++ nodes π).Perm
      (a :: k :: g :: (gl.inorder ++ (gr.inorder ++ (x.inorder ++ (s.inorder ++ nodes π))))) := by
    refine List.perm_iff_count.mpr fun z => ?_
    simp only [List.count_append, List.count_cons, count_inorder_mk, beq_iff_eq]
    omega
  rw [hperm.nodup_iff] at hn
  simp only [List.nodup_cons, List.mem_cons, List.mem_append, not_or] at hn
  obtain ⟨⟨hak, hag, hagl, hagr, hax, has, haπ⟩, ⟨hkg, hkgl, hkgr, hkx, hks, hkπ⟩,
    ⟨hggl, hggr, hgx, hgs, hgπ⟩, hn⟩ := hn
  have hnπ : (nodes π).Nodup := hn.of_append_right.of_append_right.of_append_right.of_append_right
  have hlrest := List.disjoint_of_nodup_append hn
  have hrrest := List.disjoint_of_nodup_append hn.of_append_right
  have hxrest := List.disjoint_of_nodup_append hn.of_append_right.of_append_right
  have hsπ := List.disjoint_of_nodup_append hn.of_append_right.of_append_right.of_append_right
  -- gright goes below the rotated node
  have hgr₁ : Rep (Function.update h a (some ⟨fun f => if f = d then gr.root else s.root,
      parentOf π, dirOf π, b⟩)) gr (some g) (!d) :=
    hgr.congr fun z hz => Function.update_of_ne (ne_of_mem_of_not_mem hz hagr) _ _
  obtain ⟨h₂, hadopt₂, hgr₂, hf₂⟩ := adopt_rep (some a) d hgr₁ hn.of_append_right.of_append_left
  have hin₂ : ∀ z, z ≠ a → z ∉ gr.inorder → h₂ z = h z := fun z hza hzr =>
    (hf₂ z hzr).trans (Function.update_of_ne hza ..)
  -- gleft goes below its child
  have hgl₃ : Rep (Function.update h₂ k
      (some ⟨fun f => if f = d then x.root else gl.root, some a, d, sgn (!d)⟩)) gl (some g) d := by
    refine hgl.congr fun z hz => ?_
    rw [Function.update_of_ne (ne_of_mem_of_not_mem hz hkgl),
      hin₂ z (ne_of_mem_of_not_mem hz hagl) fun hzr => hlrest hz (by simp [hzr])]
  obtain ⟨h₄, hadopt₄, hgl₄, hf₄⟩ := adopt_rep (some k) (!d) hgl₃ hn.of_append_left
  have hin₄ : ∀ z, z ≠ k → z ∉ gl.inorder → h₄ z = h₂ z := fun z hzk hzl =>
    (hf₄ z hzl).trans (Function.update_of_ne hzk ..)
  obtain ⟨h₅, hrun, h₅a, h₅k, h₅g, hf₅⟩ := avlRotation_double tree hak hag hkg ha hk hg hadopt₂
    (hin₂ k (Ne.symm hak) hkgr) hadopt₄
    ((hin₄ a hak hagl).trans ((hf₂ a hagr).trans (Function.update_self ..)))
    ((hf₄ k hkgl).trans (Function.update_self ..))
    ((hin₄ g (Ne.symm hkg) hggl).trans (hin₂ g (Ne.symm hag) hggr))
  have hin₅ : ∀ z, z ≠ a → z ≠ k → z ≠ g → z ∉ gl.inorder → z ∉ gr.inorder → h₅ z = h z := by
    intro z hza hzk hzg hzl hzr
    rw [hf₅ z hza hzk hzg, hin₄ z hzk hzl, hin₂ z hza hzr]
  have hπne : ∀ z ∈ nodes π, h₅ z = h z := fun z hz =>
    hin₅ z (ne_of_mem_of_not_mem hz haπ) (ne_of_mem_of_not_mem hz hkπ)
      (ne_of_mem_of_not_mem hz hgπ) (fun hzl => hlrest hzl (by simp [hz]))
      fun hzr => hrrest hzr (by simp [hz])
  obtain ⟨h₆, tree', hlink, hpath', hf₆, hnum, hroot⟩ :=
    avlLink_rep tree (some g) (hpath.congr hπne) hnπ
  have hp : ∀ z, z ∉ nodes π → h₆ z = h₅ z := fun z hz => hf₆ z fun he => hz (parentOf_mem he)
  have hin : ∀ z, z ≠ a → z ≠ k → z ≠ g → z ∉ gl.inorder → z ∉ gr.inorder → z ∉ nodes π →
      h₆ z = h z := fun z hza hzk hzg hzl hzr hzπ => by
    rw [hp z hzπ, hin₅ z hza hzk hzg hzl hzr]
  refine ⟨h₆, tree', by rw [hrun, hlink]; rfl, hpath', ?_, ?_, hnum, hroot⟩
  · rw [rep_mk, rep_mk, rep_mk]
    refine ⟨?_, ⟨?_, ?_, ?_⟩, ?_, ?_, ?_⟩
    · rw [hp g hgπ, h₅g, root_mk, root_mk]
    · rw [hp k hkπ, h₅k]
    · exact hx.congr fun z hz => hin z (ne_of_mem_of_not_mem hz hax)
        (ne_of_mem_of_not_mem hz hkx) (ne_of_mem_of_not_mem hz hgx)
        (fun hzl => hlrest hzl (by simp [hz])) (fun hzr => hrrest hzr (by simp [hz]))
        fun hzπ => hxrest hz (by simp [hzπ])
    · refine hgl₄.congr fun z hz => ?_
      rw [hp z fun hzπ => hlrest hz (by simp [hzπ]), hf₅ z (ne_of_mem_of_not_mem hz hagl)
        (ne_of_mem_of_not_mem hz hkgl) (ne_of_mem_of_not_mem hz hggl)]
    · rw [hp a haπ, h₅a]
    · refine hgr₂.congr fun z hz => ?_
      rw [hp z fun hzπ => hrrest hz (by simp [hzπ]), hf₅ z (ne_of_mem_of_not_mem hz hagr)
        (ne_of_mem_of_not_mem hz hkgr) (ne_of_mem_of_not_mem hz hggr),
        hin₄ z (ne_of_mem_of_not_mem hz hkgr) fun hzl => hlrest hzl (by simp [hz])]
    · exact hs.congr fun z hz => hin z (ne_of_mem_of_not_mem hz has)
        (ne_of_mem_of_not_mem hz hks) (ne_of_mem_of_not_mem hz hgs)
        (fun hzl => hlrest hzl (by simp [hz])) (fun hzr => hrrest hzr (by simp [hz])) (hsπ hz)
  · intro z hz
    rw [hperm.mem_iff] at hz
    simp only [List.mem_cons, List.mem_append, not_or] at hz
    obtain ⟨hza, hzk, hzg, hzl, hzr, -, -, hzπ⟩ := hz
    exact hin z hza hzk hzg hzl hzr hzπ

theorem avlRotation_shows {h : Links α} {tree : AvlTree α} {π : Path α} {d : Bool} {a : α} {b : ℤ}
    {c s : BalTree α} (hc : Balanced c) (hh : c.height = s.height + 2)
    (hs : Shows h tree (plug π (mk d a b c s)))
    (hn : (plug π (mk d a b c s)).inorder.Nodup) :
    ∃ h' tree', avlRotation h tree a (2 * sgn d) = some (h', tree', (rotate d a c s).2) ∧
      Shows h' tree' (plug π (rotate d a c s).1) ∧
      Frame h h' (plug π (mk d a b c s)).inorder ∧ tree'.avlNumnodes = tree.avlNumnodes := by
  have hpath := hs.path
  rw [root_mk] at hpath
  rw [nodup_plug] at hn
  have frame : ∀ h' : Links α, Frame h h' ((mk d a b c s).inorder ++ nodes π) →
      Frame h h' (plug π (mk d a b c s)).inorder := fun h' hf x hx =>
    hf x fun hm => hx ((inorder_plug_perm ..).mem_iff.mpr hm)
  rcases heavy_cases d hc hh with ⟨k, cb, x, y, rfl, hk⟩ | ⟨k, g, gb, x, gl, gr, rfl⟩
  · obtain ⟨h', tree', hrun, hp, hr, hf, hnum, hroot⟩ :=
      rotation_single tree hk hpath hs.focus hn
    rw [rotate_single _ _ _ _ _ _ _ hk]
    exact ⟨h', tree', hrun, shows_of_root _ hs.root (by simpa using hp) hr (by simpa using hroot),
      frame h' hf, hnum⟩
  · obtain ⟨h', tree', hrun, hp, hr, hf, hnum, hroot⟩ :=
      rotation_double tree hpath hs.focus hn
    rw [rotate_double]
    exact ⟨h', tree', hrun, shows_of_root _ hs.root (by simpa using hp) hr (by simpa using hroot),
      frame h' hf, hnum⟩

/-- Writing a balance changes the represented tree in that balance only. -/
theorem setBalance_shows {h : Links α} {tree : AvlTree α} {π : Path α} {d : Bool} {a : α} {b : ℤ}
    {x y : BalTree α} (b' : ℤ) (hs : Shows h tree (plug π (mk d a b x y)))
    (hn : (plug π (mk d a b x y)).inorder.Nodup) :
    ∃ h', h.setBalance a b' = some h' ∧ Shows h' tree (plug π (mk d a b' x y)) ∧
      Frame h h' [a] := by
  obtain ⟨ha, hx, hy⟩ := rep_mk.mp hs.focus
  have hne : ∀ z, z ≠ a → ∀ v, Function.update h a v z = h z := fun z hz v =>
    Function.update_of_ne hz _ _
  rw [nodup_plug, ((inorder_mk_perm ..).append_right _).nodup_iff] at hn
  simp only [List.cons_append, List.nodup_cons, List.mem_append, not_or] at hn
  refine ⟨_, Links.modify_some _ ha,
    ⟨rep_plug.mpr ⟨?_, rep_mk.mpr ⟨Function.update_self .., ?_, ?_⟩⟩,
    hs.root.trans (root_plug _ _ _ (.inl (by simp)))⟩, ?_⟩
  · have := hs.path
    rw [root_mk] at this ⊢
    exact this.congr fun z hz => hne z (ne_of_mem_of_not_mem hz hn.1.2) _
  · exact hx.congr fun z hz => hne z (ne_of_mem_of_not_mem hz hn.1.1.1) _
  · exact hy.congr fun z hz => hne z (ne_of_mem_of_not_mem hz hn.1.1.2) _
  · intro z hz
    exact hne z (by simpa using hz) _

theorem avlChild2balance_eq (d : Bool) : avlChild2balance d = sgn d := rfl

/-- The loop after an insertion leaves the regrown tree. The induction is on the path to the
root; the focus has grown by one level and leans to one side. -/
theorem avlInsertLoop_shows {π : Path α} {t : BalTree α} {H : ℕ} (hπ : PathBal π H)
    (ht : Balanced t) (hH : t.height = H + 1) (hlean : H = 0 ∨ t.bal ≠ 0) :
    ∀ {h : Links α} {tree : AvlTree α} {fuel : ℕ}, Shows h tree (plug π t) →
      (plug π t).inorder.Nodup → π.length < fuel →
      ∃ h' tree', avlInsertLoop h tree fuel (parentOf π) (dirOf π) = some (h', tree') ∧
        Shows h' tree' (regrow π t) ∧ Frame h h' (plug π t).inorder ∧
        tree'.avlNumnodes = tree.avlNumnodes := by
  induction π generalizing t H with
  | nil =>
    intro h tree fuel hs _ hfuel
    obtain ⟨fuel, rfl⟩ := Nat.exists_eq_succ_of_ne_zero (by simp at hfuel; omega : fuel ≠ 0)
    exact ⟨h, tree, rfl, hs, fun _ _ => rfl, rfl⟩
  | cons c π ih =>
    intro h tree fuel hs hn hfuel
    obtain ⟨hsib, hb, hlo, hhi, hπ⟩ := hπ
    obtain ⟨fuel, rfl⟩ := Nat.exists_eq_succ_of_ne_zero (by omega : fuel ≠ 0)
    rw [plug] at hs hn
    have hd := sgn_cases c.dir
    have ha := (rep_mk.mp hs.focus).1
    simp only [avlInsertLoop, parentOf, dirOf, ha, Option.bind_eq_bind, Option.bind_some,
      avlChild2balance_eq, regrow]
    split_ifs with h₁ h₂
    · obtain ⟨h', hset, hs', hf⟩ := setBalance_shows 0 hs hn
      refine ⟨h', tree, by rw [hset]; rfl, hs', hf.mono ?_, rfl⟩
      simp [plug, mem_plug, mem_inorder_mk]
    · have htall : t.height = c.sib.height + 2 := by
        rcases hd with hd | hd <;> rw [hd] at hb h₁ <;> omega
      obtain ⟨h', tree', hrun, hs', hf, hnum⟩ := avlRotation_shows ht htall hs hn
      refine ⟨h', tree', ?_, hs', hf, hnum⟩
      rw [show c.bal + sgn c.dir = 2 * sgn c.dir by
        rcases hd with hd | hd <;> rw [hd] at hb h₁ ⊢ <;> omega, hrun]
      rfl
    · obtain ⟨h', hset, hs', hf⟩ := setBalance_shows (c.bal + sgn c.dir) hs hn
      have hbal : Balanced (mk c.dir c.key (c.bal + sgn c.dir) t c.sib) := by
        rw [balanced_mk]
        rcases hd with hd | hd <;> rw [hd] at hb h₁ ⊢ <;>
          exact ⟨ht, hsib, by omega, by omega, by omega⟩
      have hheight : (mk c.dir c.key (c.bal + sgn c.dir) t c.sib).height =
          max H c.sib.height + 1 + 1 := by
        rw [height_mk]
        rcases hd with hd | hd <;> rw [hd] at hb h₁ <;> omega
      have hn' : (plug π (mk c.dir c.key (c.bal + sgn c.dir) t c.sib)).inorder.Nodup := by
        rw [inorder_plug] at hn ⊢
        rwa [inorder_mk_bal _ _ _ c.bal]
      obtain ⟨h'', tree', hrun, hs'', hf', hnum⟩ := ih hπ hbal hheight (.inr (by simpa using h₁))
        hs' hn' (by simp at hfuel; omega : π.length < fuel)
      refine ⟨h'', tree', by rw [hset]; exact hrun, hs'', ?_, hnum⟩
      refine Frame.trans (hf.mono ?_) hf' fun x hx => ?_
      · simp [plug, mem_plug, mem_inorder_mk]
      · rw [mem_plug, mem_inorder_mk] at hx
        rwa [plug, mem_plug, mem_inorder_mk]

/-- The loop after a removal leaves the reshrunk tree. The induction is on the path to the root;
the focus has lost one level. -/
theorem avlRemoveLoop_shows {π : Path α} {t : BalTree α} (hπ : PathBal π (t.height + 1))
    (ht : Balanced t) :
    ∀ {h : Links α} {tree : AvlTree α} {fuel : ℕ} {p : α}, parentOf π = some p →
      Shows h tree (plug π t) → (plug π t).inorder.Nodup → π.length ≤ fuel →
      ∃ h' tree', avlRemoveLoop h tree fuel p (dirOf π) = some (h', tree') ∧
        Shows h' tree' (reshrink π t) ∧ Frame h h' (plug π t).inorder ∧
        tree'.avlNumnodes = tree.avlNumnodes := by
  induction π generalizing t with
  | nil => intro _ _ _ _ hp; cases hp
  | cons c π ih =>
    rintro h tree fuel p ⟨⟩ hs hn hfuel
    obtain ⟨hsib, hb, hlo, hhi, hπ⟩ := hπ
    obtain ⟨fuel, rfl⟩ := Nat.exists_eq_succ_of_ne_zero
      (by simp at hfuel; omega : fuel ≠ 0)
    rw [plug] at hs hn
    have hd := sgn_cases c.dir
    have ha := (rep_mk.mp hs.focus).1
    have hself : ∀ x ∈ [c.key], x ∈ (plug (c :: π) t).inorder := by
      simp [plug, mem_plug, mem_inorder_mk]
    -- what happens above a node whose subtree was reduced too
    have above : ∀ {u : BalTree α} {h' : Links α} {tree' : AvlTree α}, Balanced u →
        PathBal π (u.height + 1) → Shows h' tree' (plug π u) →
        (plug π u).inorder = (plug (c :: π) t).inorder →
        Frame h h' (plug (c :: π) t).inorder → tree'.avlNumnodes = tree.avlNumnodes →
        ∀ r, (parentOf π = none → r = some (h', tree')) →
        (∀ p, parentOf π = some p → r = avlRemoveLoop h' tree' fuel p (dirOf π)) →
        ∃ h'' tree'', r = some (h'', tree'') ∧
          Shows h'' tree'' (reshrink π u) ∧ Frame h h'' (plug (c :: π) t).inorder ∧
          tree''.avlNumnodes = tree.avlNumnodes := by
      intro u h' tree' hu hπu hs' hin hf hnum r hnone hsome
      cases hpar : parentOf π with
      | none =>
        cases π with
        | nil => exact ⟨h', tree', hnone rfl, hs', hf, hnum⟩
        | cons _ _ => cases hpar
      | some p =>
        obtain ⟨h'', tree'', hrun, hs'', hf', hnum'⟩ :=
          ih hπu hu hpar hs' (by rw [hin]; exact hn) (by simp at hfuel; omega)
        exact ⟨h'', tree'', (hsome p hpar).trans hrun, hs'',
          hf.trans hf' (by rw [hin]; exact fun _ => id), hnum'.trans hnum⟩
    simp only [avlRemoveLoop, dirOf, ha, Option.bind_eq_bind, Option.bind_some,
      avlChild2balance_eq, reshrink]
    split_ifs with h₁ h₂ h₃
    · obtain ⟨h', hset, hs', hf⟩ := setBalance_shows (c.bal - sgn c.dir) hs hn
      exact ⟨h', tree, by rw [hset]; rfl, hs', hf.mono hself, rfl⟩
    · obtain ⟨h', hset, hs', hf⟩ := setBalance_shows 0 hs hn
      rw [h₂, hset]
      refine above ?_ ?_ hs' ?_ (hf.mono hself) rfl _ (fun hpar => ?_) (fun p hpar => ?_)
      · rw [balanced_mk]
        rcases hd with hd | hd <;> rw [hd] at hb h₂ ⊢ <;>
          exact ⟨ht, hsib, by omega, by omega, by omega⟩
      · rw [height_mk]
        rwa [show max t.height c.sib.height + 1 + 1 = max (t.height + 1) c.sib.height + 1 by
          rcases hd with hd | hd <;> rw [hd] at hb h₂ <;> omega]
      · simp only [plug, inorder_plug, inorder_mk_bal _ _ 0 c.bal]
      · rw [hpar]
        rfl
      · rw [hpar]
        rfl
    all_goals
      have htall : c.sib.height = t.height + 2 := by
        rcases hd with hd | hd <;> rw [hd] at hb h₂ <;> omega
      obtain ⟨hr, hrh, -⟩ := balanced_rotate (!c.dir) c.key hsib ht htall
      have hin : (plug π (rotate (!c.dir) c.key c.sib t).1).inorder =
          (plug (c :: π) t).inorder := by
        rw [plug, inorder_plug, inorder_plug, inorder_rotate _ _ c.bal, mk_not]
      rw [← mk_not] at hs hn
      obtain ⟨h', tree', hrun, hs', hf, hnum⟩ := avlRotation_shows hsib htall hs hn
      rw [show c.bal - sgn c.dir = 2 * sgn (!c.dir) by
        rw [sgn_not]
        rcases hd with hd | hd <;> rw [hd] at hb h₂ ⊢ <;> omega, hrun]
      rw [mk_not] at hf
    · rw [h₃, Bool.toNat_true] at hrh
      simp only [Option.bind_some, h₃]
      refine above hr ?_ hs' hin hf hnum _ (fun hpar => ?_) (fun p hpar => ?_)
      · rwa [show (rotate (!c.dir) c.key c.sib t).1.height + 1 =
          max (t.height + 1) c.sib.height + 1 by omega]
      · rw [hpar]
      · rw [hpar]
        rfl
    · rw [Bool.not_eq_true] at h₃
      simp only [Option.bind_some, h₃]
      exact ⟨h', tree', rfl, hs', hf, hnum⟩

end Filebench.Avl

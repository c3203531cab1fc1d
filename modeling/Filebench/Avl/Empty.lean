import Filebench.Avl.Holds
import Filebench.Avl.Apart
import Filebench.Lib.Subtree

/-! # Removals from a tree that counts no node

Such a removal leaves a node with at most one child alone. A node with two children has already
traded places by then, so that the tree which does hold it is no longer what it was. -/
namespace Filebench.Avl

open BinTree BinTree.BalTree Fuel

variable {α : Type*} [DecidableEq α] {h h' : Links α} {tree tree' : AvlTree α} {fuel : ℕ}
  {tmp a : α} {n : AvlNode α}

theorem avlUnlink_empty (hcount : tree.avlNumnodes = 0) :
    avlUnlink fuel h tree a = some (h, tree) := by
  unfold avlUnlink
  exact if_pos hcount

theorem avlRemove_one_child (hcount : tree.avlNumnodes = 0) (hn : h a = some n)
    (hone : ¬ ((n.avlChild false).isSome ∧ (n.avlChild true).isSome)) :
    avlRemove tmp fuel h tree a = some (Function.update h tmp none, tree) := by
  simp only [avlRemove, hn, Option.bind_eq_bind, Option.bind_some, if_neg hone,
    avlUnlink_empty hcount]

/-- Only the root of a tree is written by the swap, when it is the node to be removed. -/
theorem avlSwap_handle (hn : h a = some n) (hrun : avlSwap tmp fuel h tree a = some (h', tree')) :
    ∃ p, ∀ tree, avlSwap tmp fuel h tree a =
      some (h', if n.avlParent = none then { tree with avlRoot := some p } else tree) := by
  obtain ⟨dn, c, node, nn, h₁, h₂, h₃, hdn, hc, hnode, hnn, hself, hlink, hadopt, hput⟩ :=
    avlSwap_some hrun
  obtain rfl := Option.some.inj (hn.symm.trans hdn)
  refine ⟨node, fun tree => ?_⟩
  have hlink' : avlLink h₁ tree n.avlParent n.avlChildIndex (some node) =
      some (h₂, if n.avlParent = none then { tree with avlRoot := some node } else tree) := by
    cases hp : n.avlParent with
    | none =>
      rw [hp] at hlink
      obtain ⟨rfl, -⟩ := Prod.mk.inj (Option.some.inj hlink)
      rfl
    | some p =>
      rw [hp] at hlink
      obtain ⟨h₂', hchild, hlink⟩ := Option.bind_eq_some_iff.mp hlink
      obtain ⟨rfl, -⟩ := Prod.mk.inj (Option.some.inj hlink)
      simp [avlLink, hchild]
  rw [hc] at hself
  simp only [avlSwap, hn, hc, hnode, hnn, Option.bind_eq_bind, Option.bind_some]
  rw [hself, Option.bind_some, hlink']
  simp only [Option.bind_some, hadopt, hput]

theorem avlRemove_empty (hcount : tree.avlNumnodes = 0)
    (hrun : avlRemove tmp fuel h tree a = some (h', tree')) :
    tree'.avlNumnodes = 0 ∧ (tree.avlRoot ≠ none → tree'.avlRoot ≠ none) := by
  obtain ⟨n, hn, -⟩ := Option.bind_eq_some_iff.mp hrun
  by_cases htwo : (n.avlChild false).isSome ∧ (n.avlChild true).isSome
  · unfold avlRemove at hrun
    simp only [hn, Option.bind_eq_bind, Option.bind_some, if_pos htwo] at hrun
    obtain ⟨⟨h₁, tree₁⟩, hswap, hrun⟩ := Option.bind_eq_some_iff.mp hrun
    obtain ⟨p, hp⟩ := avlSwap_handle hn hswap
    rw [hp] at hswap
    obtain ⟨-, rfl⟩ := Prod.mk.inj (Option.some.inj hswap)
    have hcount' : (if n.avlParent = none then { tree with avlRoot := some p }
        else tree).avlNumnodes = 0 := by
      split <;> exact hcount
    rw [avlUnlink_empty hcount'] at hrun
    obtain ⟨-, rfl⟩ := Prod.mk.inj (Option.some.inj hrun)
    refine ⟨hcount', fun hroot => ?_⟩
    split
    next => exact nofun
    next => exact hroot
  · rw [avlRemove_one_child hcount hn htwo] at hrun
    obtain ⟨-, rfl⟩ := Prod.mk.inj (Option.some.inj hrun)
    exact ⟨hcount, id⟩

/-- The neighbour that a node with two children trades places with. -/
theorem exists_swap_site (a : α) (b : ℤ) {l r : BalTree α} (hl : l.root.isSome)
    (hr : r.root.isSome) :
    ∃ ρ p pb y s cr, node l a b r =
        mk (decide (0 < b)) a b (plug ρ (mk (decide (0 < b)) p pb y nil)) s ∧
      (∀ c ∈ ρ, c.dir = !decide (0 < b)) ∧ s.root = some cr := by
  have hroots : ∀ f, ∃ c, ((node l a b r).sub f).root = some c := by
    intro f
    cases f
    · exact Option.isSome_iff_exists.mp hl
    · exact Option.isSome_iff_exists.mp hr
  obtain ⟨cl, hcl⟩ := hroots (decide (0 < b))
  obtain ⟨cr, hcr⟩ := hroots (!decide (0 < b))
  obtain ⟨ρ, p, pb, y, hX, hρ⟩ := exists_edge (!decide (0 < b)) hcl
  rw [Bool.not_not] at hX
  refine ⟨ρ, p, pb, y, _, cr, ?_, hρ, hcr⟩
  rw [← hX]
  exact node_eq_mk (decide (0 < b)) l a b r

section keys

variable {κ : Type*} [LinearOrder κ] {key : α → κ} {k : κ}

theorem spares_empty (h : Links α) : Spares ∅ ∅ h h :=
  ⟨fun _ _ _ _ => ⟨fun _ _ _ => Set.notMem_empty _, fun _ _ => Set.notMem_empty _⟩,
    fun _ _ => rfl, fun _ _ => id⟩

/-- A node is counted unless its key was found. -/
theorem avlAdd_count (hrun : avlAdd fuel h tree key a = some (h', tree')) :
    tree.avlNumnodes ≤ tree'.avlNumnodes ∧
      ((∀ b, avlFind fuel h tree key (key a) ≠ some (.found b)) →
        tree'.avlNumnodes = tree.avlNumnodes + 1) := by
  obtain ⟨r, hfind, hrun⟩ := Option.bind_eq_some_iff.mp hrun
  cases r with
  | found b =>
    obtain ⟨-, rfl⟩ := Prod.mk.inj (Option.some.inj hrun)
    exact ⟨le_rfl, fun hnot => absurd hfind (hnot b)⟩
  | missing prev child =>
    have hprev : Outside ∅ prev := fun _ _ => Set.notMem_empty _
    obtain ⟨-, hcount, -⟩ := avlInsert_spares (fun h₁ hmod => (spares_empty h).modify
      (Set.notMem_empty a) hmod fun _ _ => ⟨fun _ => outside_none, hprev⟩) (Set.notMem_empty a)
      hprev hrun
    exact ⟨hcount ▸ Nat.le_succ _, fun _ => hcount⟩

/-- Also where some nodes of the tree are dead, a search finds nodes of the tree. -/
theorem avlFindLoop_found {t : BalTree α} {p : Option α} {d : Bool} (hrep : Rep h t p d)
    (hdead : ∀ x ∈ t.inorder, h' x = h x ∨ h' x = none) {q : Option α} {e : Bool} {b : α}
    (hrun : avlFindLoop h' key k fuel t.root q e = some (.found b)) :
    b ∈ t.inorder ∧ k = key b ∧ h' b ≠ none := by
  induction t generalizing fuel p d q e with
  | nil =>
    cases fuel with
    | zero => cases hrun
    | succ fuel => cases hrun
  | node l x bal r ihl ihr =>
    cases fuel with
    | zero => cases hrun
    | succ fuel =>
      simp only [inorder, List.mem_append, List.mem_cons] at hdead ⊢
      rw [root, avlFindLoop] at hrun
      obtain ⟨n, hn, hrun⟩ := Option.bind_eq_some_iff.mp hrun
      have hx := (hdead x (.inr (.inl rfl))).resolve_right (by rw [hn]; exact Option.some_ne_none n)
      rw [hn, hrep.1] at hx
      obtain rfl := Option.some.inj hx
      split at hrun
      next hk =>
        obtain rfl := AvlFind.found.inj (Option.some.inj hrun)
        refine ⟨.inr (.inl rfl), hk, ?_⟩
        rw [hn]
        exact Option.some_ne_none _
      next =>
        by_cases hlt : key x < k
        · simp only [hlt, decide_true, cond_true] at hrun
          obtain ⟨hb, hrest⟩ := ihr hrep.2.2 (fun y hy => hdead y (.inr (.inr hy))) hrun
          exact ⟨.inr (.inr hb), hrest⟩
        · simp only [hlt, decide_false, cond_false] at hrun
          obtain ⟨hb, hrest⟩ := ihl hrep.2.1 (fun y hy => hdead y (.inl hy)) hrun
          exact ⟨.inl hb, hrest⟩

/-- With two nodes after the new one, one of those after it has two children. -/
theorem Holds.add_two_children {l : List α} (hh : Holds h tree key l)
    (hfresh : ∀ x ∈ l, key x ≠ key a)
    (hlive : (h a).isSome) (htwo : 2 ≤ (later key a l).length)
    (hrun : Returns (fun fuel => avlAdd fuel h tree key a) (h', tree')) :
    ∃ f ∈ l, ∃ n, key a < key f ∧ h' f = some n ∧ (n.avlChild false).isSome ∧
      (n.avlChild true).isSome := by
  obtain ⟨h₁, tree₁, π, hrun₁, hs, hπ, rfl, hlo, hhi, -, -⟩ := hh.insertion hfresh hlive
  obtain ⟨rfl, rfl⟩ := Prod.mk.inj (hrun.unique hrun₁)
  have hin := Holds.inorder_insertion π a
  obtain ⟨u, hsub, hroot, hlow⟩ := sub_regrow hπ (t := node nil a 0 nil) (e := a)
    (by simp [BinTree.Balanced, height]) rfl (.refl _)
  have hlater : later key a (before π ++ a :: after π) = later key a (before π ++ after π) := by
    rw [later_append, later_append, later_cons_self]
  obtain ⟨u', f, b, v, hsub', haf, hu', hv⟩ := exists_two_children
    (Holds.balanced_insertion hπ a) (hin ▸ Holds.sorted_insertion hh.sorted hlo hhi) hsub hroot hlow
    (by rwa [hin, hlater])
  have hmem := hsub'.mem
  obtain ⟨ρ, hρ⟩ := hsub'.exists_plug
  have hlink := (hρ ▸ hs).focus.1
  refine ⟨f, ?_, _, haf, hlink, ?_, ?_⟩
  · rw [hin, List.mem_append, List.mem_cons] at hmem
    rw [List.mem_append]
    rcases hmem with hf | rfl | hf
    · exact .inl hf
    · exact absurd haf (lt_irrefl _)
    · exact .inr hf
  · cases u' with
    | nil => exact absurd rfl hu'
    | node => rfl
  · cases v with
    | nil => exact absurd rfl hv
    | node => rfl

/-- Removed through an empty tree, a node with two children becomes the root of that tree or cannot
be found any more in its own. -/
theorem avlRemove_two_children {S S₁ D : AvlTree α} {h₁ : Links α} {l : List α}
    (hh : Holds h D key l) (ha : a ∈ l) (hn : h a = some n)
    (htwo : (n.avlChild false).isSome ∧ (n.avlChild true).isSome) (htmp : h tmp = none)
    (hcount : S.avlNumnodes = 0) (hrun : avlRemove tmp fuel h S a = some (h₁, S₁)) :
    S₁.avlRoot ≠ none ∨ ∀ fuel b, avlFind fuel h₁ D key (key a) ≠ some (.found b) := by
  have hinj := fun x hx y hy => hh.inj (x := x) (y := y) hx hy
  have hnd := hh.nodup
  obtain ⟨t, hs, -, rfl⟩ := hh.shape
  have htmpt : tmp ∉ t.inorder := by
    intro hmem
    obtain ⟨m, hm⟩ := hs.rep.live tmp hmem
    rw [htmp] at hm
    cases hm
  obtain ⟨π, l, b, r, ht⟩ := exists_focus ha
  have hdn := (ht ▸ hs).focus.1
  obtain rfl := Option.some.inj (hn.symm.trans hdn)
  obtain ⟨ρ, p, pb, y, s, cr, hnode, hρ, hcr⟩ := exists_swap_site a b htwo.1 htwo.2
  rw [hnode] at ht
  -- the swap gives both trees the same links
  unfold avlRemove at hrun
  simp only [hn, Option.bind_eq_bind, Option.bind_some, if_pos htwo] at hrun
  obtain ⟨⟨h', S'⟩, hswap, hrun⟩ := Option.bind_eq_some_iff.mp hrun
  obtain ⟨q, hq⟩ := avlSwap_handle hn hswap
  rw [hq] at hswap
  obtain ⟨-, rfl⟩ := Prod.mk.inj (Option.some.inj hswap)
  dsimp only at hrun hq
  cases hparent : parentOf π with
  | none =>
    left
    have hunlink : avlUnlink fuel h' { S with avlRoot := some q } tmp = _ := avlUnlink_empty hcount
    rw [hparent, if_pos rfl, hunlink] at hrun
    obtain ⟨-, rfl⟩ := Prod.mk.inj (Option.some.inj hrun)
    exact nofun
  | some v =>
    right
    intro fuel' b' hfind
    rw [hparent] at hq hrun
    rw [if_neg nofun, avlUnlink_empty hcount] at hrun
    obtain ⟨rfl, -⟩ := Prod.mk.inj (Option.some.inj hrun)
    have hrunD : avlSwap tmp (max fuel (t.inorder.length + 1)) h D a = some (h', D) := by
      refine avlSwap_steady tmp h D a fuel _ _ (le_max_left ..) ((hq D).trans ?_)
      rw [if_neg nofun]
    obtain ⟨h₂, D₂, hrunD', hs₂, -, -⟩ := avlSwap_shows ht rfl hρ hcr hs hnd htmpt
      (Nat.lt_of_lt_of_le (Nat.lt_succ_self _) (le_max_right fuel (t.inorder.length + 1)))
    rw [hrunD] at hrunD'
    obtain ⟨rfl, rfl⟩ := Prod.mk.inj (Option.some.inj hrunD')
    have hdead : ∀ x ∈ (t.map (swapped a p tmp)).inorder,
        Function.update h' tmp none x = h' x ∨ Function.update h' tmp none x = none := by
      intro x _
      by_cases hx : x = tmp
      · exact .inr (hx ▸ Function.update_self ..)
      · exact .inl (Function.update_of_ne hx ..)
    rw [avlFind, hs₂.root] at hfind
    obtain ⟨hmem, hkey, hlive⟩ := avlFindLoop_found hs₂.rep hdead hfind
    have hb' : b' ≠ tmp := by
      rintro rfl
      exact hlive (Function.update_self ..)
    have hp : p ∈ t.inorder := by
      rw [ht]
      simp [mem_plug, mem_inorder_mk]
    have hpa : p ≠ a := by
      rintro rfl
      rw [ht, nodup_plug, ((inorder_mk_perm ..).append_right _).nodup_iff] at hnd
      simp [mem_plug, mem_inorder_mk] at hnd
    rw [inorder_map] at hmem
    obtain ⟨x, hx, rfl⟩ := List.mem_map.mp hmem
    unfold swapped at hb' hkey
    split_ifs at hb' hkey with hxa hxp
    · exact hpa (hinj p hp a ha hkey.symm)
    · exact absurd rfl hb'
    · exact hxa (hinj x hx a ha hkey.symm)

end keys

end Filebench.Avl

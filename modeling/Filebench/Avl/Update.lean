import Filebench.Avl.Swap

/-! # Insertion and removal on a represented tree

A tree shows a balanced tree whose in-order listing is sorted by key. Adding and removing keep
this and change the listing by one element; no link outside the listing is touched. -/
namespace Filebench.Avl

open BinTree BinTree.BalTree

variable {α : Type*} [DecidableEq α]

theorem avlInsert_shows {h : Links α} {tree : AvlTree α} {π : Path α} {a : α} {n : AvlNode α}
    (hs : Shows h tree (plug π nil)) (hn : (plug π nil).inorder.Nodup)
    (hb : Balanced (plug π nil)) (ha : a ∉ (plug π nil).inorder) (hlive : h a = some n) {fuel : ℕ}
    (hfuel : (plug π nil).inorder.length < fuel) :
    ∃ h' tree', avlInsert fuel h tree a (parentOf π) (dirOf π) = some (h', tree') ∧
      Shows h' tree' (regrow π (node nil a 0 nil)) ∧
      Frame h h' (a :: (plug π nil).inorder) ∧
      tree'.avlNumnodes = tree.avlNumnodes + 1 := by
  have hmem : ∀ x ∈ nodes π, x ∈ (plug π nil).inorder := fun x hx => mem_plug.mpr (.inr hx)
  have hnπ : (nodes π).Nodup := by simpa [inorder] using nodup_plug.mp hn
  set h₁ : Links α := Function.update h a (some ⟨fun _ => none, parentOf π, dirOf π, 0⟩) with hh₁
  have hf₁ : ∀ x, x ≠ a → h₁ x = h x := fun x hx => Function.update_of_ne hx _ _
  have hpath₁ : RepPath h₁ π none := hs.path.congr fun x hx =>
    hf₁ x fun he => ha (he ▸ hmem x hx)
  obtain ⟨h₂, tree₂, hlink, hpath₂, hf₂, hnum, hroot⟩ :=
    avlLink_rep { tree with avlNumnodes := tree.avlNumnodes + 1 } (some a) hpath₁ hnπ
  have hleaf : Rep h₂ (node nil a 0 nil) (parentOf π) (dirOf π) := by
    refine ⟨?_, trivial, trivial⟩
    rw [hf₂ a fun he => ha (hmem a (parentOf_mem he)), hh₁, Function.update_self]
    simp [root]
  have hs₂ : Shows h₂ tree₂ (plug π (node nil a 0 nil)) :=
    shows_of_root nil hs.root hpath₂ hleaf hroot
  have hn₂ : (plug π (node nil a 0 nil)).inorder.Nodup := by
    rw [nodup_plug]
    simp only [inorder, List.nil_append, List.singleton_append, List.nodup_cons]
    exact ⟨fun hx => ha (hmem a hx), hnπ⟩
  obtain ⟨h', tree', hrun, hs', hf', hnum'⟩ :=
    avlInsertLoop_shows (balanced_plug.mp hb).2 (t := node nil a 0 nil)
      (by simp [BinTree.Balanced, height]) rfl (.inl rfl) hs₂ hn₂
      (((length_le_nodes π).trans (by simp [length_plug, inorder])).trans_lt hfuel)
  refine ⟨h', tree', ?_, hs', ?_, hnum'.trans hnum⟩
  · simp only [avlInsert, Links.modify_some _ hlive, Option.bind_eq_bind, Option.bind_some]
    rw [← hh₁, hlink]
    exact hrun
  · intro x hx
    simp only [List.mem_cons, not_or] at hx
    have hxπ : x ∉ nodes π := fun h => hx.2 (hmem x h)
    rw [hf' x (by simp [mem_plug, inorder, hx.1, hxπ]),
      hf₂ x fun he => hx.2 (hmem x (parentOf_mem he)), hf₁ x hx.1]

/-- Unlinking a node without a child in direction `!e`. Its own link keeps what it had. -/
theorem avlUnlink_shows {h : Links α} {tree : AvlTree α} {π : Path α} {e : Bool} {a : α} {b : ℤ}
    {y : BalTree α} (hs : Shows h tree (plug π (mk e a b y nil)))
    (hn : (plug π (mk e a b y nil)).inorder.Nodup) (hb : Balanced (plug π (mk e a b y nil)))
    (hnum : tree.avlNumnodes ≠ 0) (fuel : ℕ)
    (hfuel : (plug π (mk e a b y nil)).inorder.length < fuel) :
    ∃ h' tree', avlUnlink fuel h tree a = some (h', tree') ∧ Shows h' tree' (reshrink π y) ∧
      Frame h h' (plug π y).inorder ∧ tree'.avlNumnodes = tree.avlNumnodes - 1 := by
  obtain ⟨ha, hy, -⟩ := rep_mk.mp hs.focus
  have hpath := hs.path
  rw [root_mk] at hpath
  have hn' := nodup_plug.mp hn
  rw [((inorder_mk_perm ..).append_right _).nodup_iff] at hn'
  simp only [inorder, List.append_nil, List.cons_append, List.nodup_cons, List.mem_append,
    not_or] at hn'
  obtain ⟨⟨hay, haπ⟩, hnyπ⟩ := hn'
  have hnπ := hnyπ.of_append_right
  have hdisj : ∀ x ∈ y.inorder, x ∉ nodes π := fun x hx hxπ =>
    (List.nodup_append.mp hnyπ).2.2 x hx x hxπ rfl
  obtain ⟨h₁, hadopt, hy₁, hf₁⟩ := adopt_rep (parentOf π) (dirOf π) hy hnyπ.of_append_left
  obtain ⟨h₂, tree₂, hlink, hpath₂, hf₂, hnum₂, hroot⟩ :=
    avlLink_rep { tree with avlNumnodes := tree.avlNumnodes - 1 } y.root
      (hpath.congr fun x hx => hf₁ x fun hy => hdisj x hy hx) hnπ
  have hs₂ : Shows h₂ tree₂ (plug π y) := by
    refine shows_of_root (mk e a b y nil) hs.root hpath₂ (hy₁.congr fun x hx => ?_) hroot
    exact hf₂ x fun he => hdisj x hx (parentOf_mem he)
  have hf : Frame h h₂ (plug π y).inorder := by
    intro x hx
    rw [mem_plug, not_or] at hx
    rw [hf₂ x fun he => hx.2 (parentOf_mem he), hf₁ x hx.1]
  have hchild : (if (((fun f => if f = e then y.root else (nil : BalTree α).root) false).isSome)
      then ((fun f => if f = e then y.root else (nil : BalTree α).root) false)
      else ((fun f => if f = e then y.root else (nil : BalTree α).root) true)) = y.root := by
    cases e <;> cases y <;> simp [root]
  have hlen := length_plug π (mk e a b y nil)
  have hπlen := length_le_nodes π
  obtain ⟨hbmk, hbπ⟩ := balanced_plug.mp hb
  rw [height_mk, height, max_eq_left (Nat.zero_le _)] at hbπ
  simp only [avlUnlink, hnum, if_false, ha, Option.bind_eq_bind, Option.bind_some]
  rw [hchild, hadopt, Option.bind_some, hlink, Option.bind_some]
  cases hpar : parentOf π with
  | none =>
    cases π with
    | nil => exact ⟨h₂, tree₂, rfl, hs₂, hf, hnum₂⟩
    | cons _ _ => cases hpar
  | some p =>
    obtain ⟨h', tree', hrun, hs', hf', hnum'⟩ :=
      avlRemoveLoop_shows hbπ (balanced_mk.mp hbmk).1 hpar hs₂ (nodup_plug.mpr hnyπ)
        (by omega : π.length ≤ fuel)
    exact ⟨h', tree', hrun, hs', hf.trans hf' fun _ => id, hnum'.trans hnum₂⟩

private theorem map_swapped_list {d p tmp : α} {u v : List α} (hd : d ∉ u ++ v) (hp : p ∉ u ++ v) :
    (u ++ d :: v).map (swapped d p tmp) = u ++ p :: v := by
  have hid : ∀ x ∈ u ++ v, swapped d p tmp x = x := fun x hx => by
    simp [swapped, ne_of_mem_of_not_mem hx hd, ne_of_mem_of_not_mem hx hp]
  rw [List.map_append, List.map_cons, List.map_congr_left fun x hx => hid x (by simp [hx]),
    List.map_congr_left (l := v) fun x hx => hid x (by simp [hx])]
  simp [swapped]

/-- Listing after the swapped node was unlinked: the old listing without `d`. -/
private theorem inorder_unswap {π ρ : Path α} {d p : α} (tmp : α) {e : Bool} {b pb : ℤ}
    {y s t : BalTree α} (ht : t = plug π (mk e d b (plug ρ (mk e p pb y nil)) s))
    (hρ : ∀ c ∈ ρ, c.dir = !e) (hn : t.inorder.Nodup) :
    ((plug (ρ ++ ⟨e, d, b, s⟩ :: π) y).map (swapped d p tmp)).inorder = t.inorder.erase d := by
  obtain ⟨u, v, w, ht', hy⟩ : ∃ u v w, t.inorder = u ++ w ++ v ∧ (w = [d, p] ∨ w = [p, d]) ∧
      (plug (ρ ++ ⟨e, d, b, s⟩ :: π) y).inorder = u ++ d :: v := by
    cases e with
    | false =>
      refine ⟨before π ++ (before ρ ++ y.inorder), s.inorder ++ after π, [p, d], ?_, .inr rfl, ?_⟩
      · simp [ht, inorder_plug, mk, inorder, after_eq_nil hρ]
      · simp [plug_append, plug, inorder_plug, mk, inorder, after_eq_nil hρ]
    | true =>
      refine ⟨before π ++ s.inorder, y.inorder ++ after ρ ++ after π, [d, p], ?_, .inl rfl, ?_⟩
      · simp [ht, inorder_plug, mk, inorder, before_eq_nil hρ]
      · simp [plug_append, plug, inorder_plug, mk, inorder, before_eq_nil hρ]
  rw [inorder_map, hy.2]
  have hmem : ∀ x ∈ w, x ∉ u ++ v := by
    intro x hx hxuv
    rw [ht', List.append_assoc, List.perm_append_comm_assoc u w v |>.nodup_iff] at hn
    exact (List.nodup_append.mp hn).2.2 x hx x hxuv rfl
  have hd := hmem d (by rcases hy.1 with rfl | rfl <;> simp)
  have hp := hmem p (by rcases hy.1 with rfl | rfl <;> simp)
  rw [map_swapped_list hd hp, ht', List.append_assoc,
    List.erase_append_right _ fun h => hd (by simp [h])]
  congr 1
  rcases hy.1 with rfl | rfl
  · simp
  · have hpd : p ≠ d := by
      rintro rfl
      rw [ht'] at hn
      simp [List.nodup_append] at hn
    simp [hpd]

/-- The stack variable is dead on return. -/
theorem Shows.dropTmp {h : Links α} {tree : AvlTree α} {tmp : α} {t : BalTree α}
    (hs : Shows h tree t) (htmp : tmp ∉ t.inorder) : Shows (Function.update h tmp none) tree t :=
  ⟨hs.rep.congr fun _ hx => Function.update_of_ne (ne_of_mem_of_not_mem hx htmp) .., hs.root⟩

section remove

variable {h : Links α} {tree : AvlTree α} {d tmp : α} {t l r : BalTree α} {π : Path α} {b : ℤ}

/-- A node with two children is exchanged with its neighbour first. -/
private theorem avlRemove_shows_two (hs : Shows h tree t) (hn : t.inorder.Nodup)
    (hb : BinTree.Balanced t) (htmp : h tmp = none) (htmpt : tmp ∉ t.inorder)
    (hpos : tree.avlNumnodes ≠ 0) {fuel : ℕ} (hfuel : t.inorder.length < fuel)
    (ht : t = plug π (node l d b r)) (hl : l ≠ nil) (hr : r ≠ nil) :
    ∃ h' tree' t', avlRemove tmp fuel h tree d = some (h', tree') ∧ Shows h' tree' t' ∧
      BinTree.Balanced t' ∧ t'.inorder = t.inorder.erase d ∧ Frame h h' (t.inorder.erase d) ∧
      tree'.avlNumnodes = tree.avlNumnodes - 1 := by
  have hdn := (ht ▸ hs).focus.1
  have hroots : ∀ f, ∃ c, ((node l d b r).sub f).root = some c := by
    intro f
    cases f
    · cases l with
      | nil => exact absurd rfl hl
      | node _ a _ _ => exact ⟨a, rfl⟩
    · cases r with
      | nil => exact absurd rfl hr
      | node _ a _ _ => exact ⟨a, rfl⟩
  have hchild : (bif false then r.root else l.root).isSome ∧
      (bif true then r.root else l.root).isSome := by
    obtain ⟨cl, hcl⟩ := hroots false
    obtain ⟨cr, hcr⟩ := hroots true
    exact ⟨Option.isSome_iff_exists.mpr ⟨cl, hcl⟩, Option.isSome_iff_exists.mpr ⟨cr, hcr⟩⟩
  obtain ⟨e, he⟩ : ∃ e, e = decide (0 < b) := ⟨_, rfl⟩
  rw [node_eq_mk e] at ht
  obtain ⟨cl, hcl⟩ := hroots e
  obtain ⟨cr, hcr⟩ := hroots (!e)
  obtain ⟨ρ, p, pb, y, hX, hρ⟩ := exists_edge (!e) hcl
  rw [Bool.not_not] at hX
  rw [hX] at ht
  obtain ⟨h₁, tree₁, hrun₁, hs₁, hf₁, hnum₁⟩ := avlSwap_shows ht he hρ hcr hs hn htmpt hfuel
  -- the swapped tree, focused on the copy of the neighbour
  have hfocus : t.map (swapped d p tmp) =
      plug ((ρ ++ ⟨e, d, b, (node l d b r).sub (!e)⟩ :: π).map (Crumb.map (swapped d p tmp)))
        (mk e tmp pb (y.map (swapped d p tmp)) nil) := by
    have hpd : p ≠ d := by
      rintro rfl
      rw [ht, nodup_plug, ((inorder_mk_perm ..).append_right _).nodup_iff] at hn
      simp [mem_plug, mem_inorder_mk] at hn
    rw [show mk e tmp pb (y.map (swapped d p tmp)) nil = (mk e p pb y nil).map (swapped d p tmp) by
      rw [map_mk]
      simp [swapped, hpd, BalTree.map], ← map_plug, plug_append, plug]
    exact congrArg _ ht
  have hunswap := inorder_unswap tmp ht hρ hn
  have hnodup₁ : (t.map (swapped d p tmp)).inorder.Nodup := by
    rw [inorder_map]
    refine hn.map_on fun x hx z hz hxz => ?_
    have hxt := ne_of_mem_of_not_mem hx htmpt
    have hzt := ne_of_mem_of_not_mem hz htmpt
    simp only [swapped] at hxz
    split_ifs at hxz <;> simp_all
  obtain ⟨h₂, tree₂, hrun₂, hs₂, hf₂, hnum₂⟩ := avlUnlink_shows (hfocus ▸ hs₁)
    (hfocus ▸ hnodup₁) (hfocus ▸ hb.map _) (hnum₁ ▸ hpos) fuel
    (by rw [← hfocus]; simpa using hfuel)
  rw [← map_plug, hunswap] at hf₂
  have hin := (inorder_reshrink _ _).trans ((congrArg inorder (map_plug ..)).symm.trans hunswap)
  have hmem : tmp ∉ t.inorder.erase d := fun hmem => htmpt (List.mem_of_mem_erase hmem)
  refine ⟨_, tree₂, _, ?_, hs₂.dropTmp (hin ▸ hmem), ?_, hin, ?_, by rw [hnum₂, hnum₁]⟩
  · simp only [avlRemove, hdn, Option.bind_eq_bind, Option.bind_some]
    rw [if_pos hchild, hrun₁]
    simp only [Option.bind_some, hrun₂]
  · have hbal := hb.map (swapped d p tmp)
    rw [hfocus, balanced_plug, height_mk] at hbal
    exact balanced_reshrink (by simpa [height] using hbal.2) (balanced_mk.mp hbal.1).1
  · intro x hx
    by_cases hxt : x = tmp
    · simp [hxt, htmp]
    · rw [Function.update_of_ne hxt, hf₂ x hx, hf₁ x (by simp [hxt, hx])]

/-- A node with one child at most, on the side `f`, is unlinked at once. -/
private theorem avlRemove_shows_one (hs : Shows h tree t) (hn : t.inorder.Nodup)
    (hb : BinTree.Balanced t) (htmp : h tmp = none) (htmpt : tmp ∉ t.inorder)
    (hpos : tree.avlNumnodes ≠ 0) {fuel : ℕ} (hfuel : t.inorder.length < fuel) {f : Bool}
    {y : BalTree α} (ht : t = plug π (mk f d b y nil)) :
    ∃ h' tree' t', avlRemove tmp fuel h tree d = some (h', tree') ∧ Shows h' tree' t' ∧
      BinTree.Balanced t' ∧ t'.inorder = t.inorder.erase d ∧ Frame h h' (t.inorder.erase d) ∧
      tree'.avlNumnodes = tree.avlNumnodes - 1 := by
  have hdn := (rep_mk.mp (ht ▸ hs).focus).1
  obtain ⟨h₁, tree₁, hrun, hs₁, hf₁, hnum₁⟩ := avlUnlink_shows (ht ▸ hs) (ht ▸ hn) (ht ▸ hb) hpos
    fuel (ht ▸ hfuel)
  have hin : (plug π y).inorder = t.inorder.erase d := by
    obtain ⟨u, v, hu, huv⟩ : ∃ u v, t.inorder = u ++ d :: v ∧ (plug π y).inorder = u ++ v := by
      cases f with
      | false => exact ⟨before π ++ y.inorder, after π, by simp [ht, inorder_plug, mk, inorder],
          by simp [inorder_plug]⟩
      | true => exact ⟨before π, y.inorder ++ after π, by simp [ht, inorder_plug, mk, inorder],
          by simp [inorder_plug]⟩
    rw [hu] at hn ⊢
    have hdu : d ∉ u := fun h => (List.nodup_append.mp hn).2.2 d h d (by simp) rfl
    rw [huv, List.erase_append_right _ hdu, List.erase_cons_head]
  have hin' := (inorder_reshrink π y).trans hin
  have hmem : tmp ∉ t.inorder.erase d := fun hmem => htmpt (List.mem_of_mem_erase hmem)
  refine ⟨_, tree₁, _, ?_, hs₁.dropTmp (hin' ▸ hmem), ?_, hin', ?_, hnum₁⟩
  · simp only [avlRemove, hdn, Option.bind_eq_bind, Option.bind_some]
    rw [if_neg (by cases f <;> simp [root]), hrun]
    simp only [Option.bind_some]
  · rw [ht, balanced_plug, height_mk] at hb
    exact balanced_reshrink (by simpa [height] using hb.2) (balanced_mk.mp hb.1).1
  · intro x hx
    by_cases hxt : x = tmp
    · simp [hxt, htmp]
    · rw [Function.update_of_ne hxt, hf₁ x (by rwa [hin])]

end remove

theorem avlRemove_shows {h : Links α} {tree : AvlTree α} {d tmp : α} {t : BalTree α}
    (hs : Shows h tree t) (hn : t.inorder.Nodup) (hb : BinTree.Balanced t) (hd : d ∈ t.inorder)
    (htmp : h tmp = none) (hnum : tree.avlNumnodes = t.inorder.length) {fuel : ℕ}
    (hfuel : t.inorder.length < fuel) :
    ∃ h' tree' t', avlRemove tmp fuel h tree d = some (h', tree') ∧ Shows h' tree' t' ∧
      BinTree.Balanced t' ∧ t'.inorder = t.inorder.erase d ∧ Frame h h' (t.inorder.erase d) ∧
      tree'.avlNumnodes = (t.inorder.erase d).length := by
  have htmpt : tmp ∉ t.inorder := fun hmem => by
    obtain ⟨n, hn⟩ := hs.rep.live tmp hmem
    simp [htmp] at hn
  have hpos : tree.avlNumnodes ≠ 0 := by
    rw [hnum]
    exact (List.length_pos_of_mem hd).ne'
  rw [List.length_erase_of_mem hd, ← hnum]
  obtain ⟨π, l, b, r, ht⟩ := exists_focus hd
  by_cases hl : l = nil
  · subst hl
    exact avlRemove_shows_one (f := true) hs hn hb htmp htmpt hpos hfuel ht
  · by_cases hr : r = nil
    · subst hr
      exact avlRemove_shows_one (f := false) hs hn hb htmp htmpt hpos hfuel ht
    · exact avlRemove_shows_two hs hn hb htmp htmpt hpos hfuel ht hl hr

end Filebench.Avl

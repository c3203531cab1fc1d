import Filebench.Avl.Rebalance

/-! # The swap before a removal

A node with two children trades places with a neighbour in key order, through a copy of the
neighbour on the stack. On trees this is a renaming: the neighbour takes the place of the node
and the stack copy the place of the neighbour. -/
namespace Filebench.Avl

open BinTree BinTree.BalTree

variable {α : Type*} [DecidableEq α]

theorem avlAdoptChildren_eq {h : Links α} {node : α} (cl cr : α) {e : Bool} {n : AvlNode α}
    (hn : h node = some n) (hcl : n.avlChild e = some cl) (hcr : n.avlChild (!e) = some cr)
    (hlive : (h cl).isSome ∧ (h cr).isSome) (hne : cl ≠ node) :
    avlAdoptChildren h node e = some ((h.patch (some cl) fun n => { n with avlParent := some node }).patch
      (some cr) fun n => { n with avlParent := some node }) := by
  have hn' := (patch_of_ne (fun n => { n with avlParent := some node })
    (fun he => hne (Option.some.inj he))).trans hn
  simp only [avlAdoptChildren, hn, Option.bind_eq_bind, Option.bind_some, hcl, Links.setParent,
    modify_eq_patch _ hlive.1, hn', hcr]
  exact modify_eq_patch _ (by simpa using hlive.2)

theorem avlPutTmp_eq {h : Links α} {tmp q : α} {e : Bool} {t : AvlNode α} {y : Option α}
    (ht : h tmp = some t) (hq : t.avlParent = some q)
    (hy : t.avlChild = fun f => if f = e then y else none) (hne : q ≠ tmp)
    (hqlive : (h q).isSome) (hylive : ∀ x, y = some x → (h x).isSome) :
    avlPutTmp h tmp = some ((h.patch (some q)
      fun n => { n with avlChild := Function.update n.avlChild t.avlChildIndex (some tmp) }).patch y
        fun n => { n with avlParent := some tmp }) := by
  have hchild : t.avlChild (t.avlChild true).isSome = y := by
    rw [hy]
    cases e <;> cases y <;> simp
  have ht' := (patch_of_ne (fun n => { n with
    avlChild := Function.update n.avlChild t.avlChildIndex (some tmp) })
    (fun he => hne (Option.some.inj he))).trans ht
  simp only [avlPutTmp, ht, Option.bind_eq_bind, Option.bind_some, hq, Links.setChild,
    modify_eq_patch _ hqlive, ht', hchild]
  cases y with
  | none => simp
  | some x => exact modify_eq_patch _ (by simpa using hylive x rfl)

/-- The links after a swap: two copies and six patches. -/
private def swapLinks (h : Links α) (p tmp : α) (e : Bool) (dn nn : AvlNode α)
    (self : Option α) (cl cr q : α) (y : Option α) : Links α :=
  let h : Links α := Function.update (Function.update h tmp (some nn)) p (some dn)
  let h := h.patch self fun n => { n with avlChild := Function.update n.avlChild e (some tmp) }
  let h := h.patch dn.avlParent fun n =>
    { n with avlChild := Function.update n.avlChild dn.avlChildIndex (some p) }
  let h := h.patch (some cl) fun n => { n with avlParent := some p }
  let h := h.patch (some cr) fun n => { n with avlParent := some p }
  let h := h.patch (some q) fun n =>
    { n with avlChild := Function.update n.avlChild nn.avlChildIndex (some tmp) }
  h.patch y fun n => { n with avlParent := some tmp }

/-- The seven writes of a swap, as patches of the links. `cl` and `cr` are the children of `d` on
the taller side and on the other one, `q` is where `tmp` hangs and `y` the child below it. -/
private theorem avlSwap_run {h : Links α} (tree : AvlTree α) {d p cl cr : α} (tmp q : α) {e : Bool}
    {dn nn : AvlNode α} {y : Option α} {fuel : ℕ} (he : e = decide (0 < dn.avlBalance))
    (hd : h d = some dn) (hp : h p = some nn) (hcl : dn.avlChild e = some cl)
    (hcr : dn.avlChild (!e) = some cr) (hy : nn.avlChild = fun f => if f = e then y else none)
    (hrun : avlDescend h (!e) fuel cl = some p)
    (hq : if cl = p then q = p ∧ nn.avlChildIndex = e else nn.avlParent = some q)
    (hlive : (h cl).isSome ∧ (h cr).isSome ∧ (h q).isSome)
    (hP : ∀ x, dn.avlParent = some x → (h x).isSome ∧ x ≠ p ∧ x ≠ tmp)
    (hylive : ∀ x, y = some x → (h x).isSome) (hne : p ≠ tmp ∧ cl ≠ tmp ∧ cr ≠ tmp ∧ cr ≠ p ∧
      q ≠ tmp) :
    avlSwap tmp fuel h tree d =
      some (swapLinks h p tmp e dn nn (if cl = p then some p else none)
        (if cl = p then tmp else cl) cr q y,
        if dn.avlParent = none then { tree with avlRoot := some p } else tree) := by
  obtain ⟨hcl', hcr', hq'⟩ := hlive
  obtain ⟨hpt, hclt, hcrt, hcrp, hqt⟩ := hne
  have hPp : dn.avlParent ≠ some p := fun h => (hP p h).2.1 rfl
  have hPt : dn.avlParent ≠ some tmp := fun h => (hP tmp h).2.2 rfl
  set h₁ : Links α := Function.update (Function.update h tmp (some nn)) p (some dn) with hh₁
  have h₁p : h₁ p = some dn := by simp [hh₁]
  have h₁t : h₁ tmp = some nn := by simp [hh₁, Ne.symm hpt]
  have hlive₁ : ∀ x, (h x).isSome → (h₁ x).isSome := by
    intro x hx
    by_cases hxp : x = p
    · simp [hxp, h₁p]
    · by_cases hxt : x = tmp
      · simp [hxt, h₁t]
      · simpa [hh₁, hxp, hxt] using hx
  unfold avlSwap
  simp only [hd, Option.bind_eq_bind, Option.bind_some]
  rw [← he]
  simp only [hcl, hrun, hp, Option.bind_some]
  rw [← hh₁]
  have hne₁ : ∀ x, dn.avlParent = some x → (h₁ x).isSome := fun x hx => hlive₁ x (hP x hx).1
  by_cases hc : cl = p
  · subst hc
    rw [if_pos rfl] at hq
    obtain ⟨rfl, hi⟩ := hq
    have h₂p := patch_self (fun n => { n with
      avlChild := Function.update n.avlChild e (some tmp) }) h₁p
    have h₃p := (patch_of_ne (fun n => { n with
      avlChild := Function.update n.avlChild dn.avlChildIndex (some q) }) hPp).trans h₂p
    have h₃t := (patch_of_ne (fun n => { n with
      avlChild := Function.update n.avlChild dn.avlChildIndex (some q) }) hPt).trans
      ((patch_of_ne (fun n => { n with avlChild := Function.update n.avlChild e (some tmp) })
        (fun he => hpt (Option.some.inj he))).trans h₁t)
    have h₅t := (patch_of_ne (fun n => { n with avlParent := some q })
      (fun he => hcrt (Option.some.inj he))).trans
      (patch_self (fun n => { n with avlParent := some q }) h₃t)
    simp only [if_true, Links.setChild, modify_eq_patch _ (hlive₁ q hq'), Option.bind_some]
    rw [avlLink_eq_patch _ _ _ (by simpa using hne₁)]
    simp only [Option.bind_some]
    rw [avlAdoptChildren_eq tmp cr h₃p (by simp) (by simp [hcr])
      (by simp [h₁t, hlive₁ cr hcr']) (Ne.symm hpt)]
    simp only [Option.bind_some]
    rw [avlPutTmp_eq h₅t rfl hy hpt (by simpa using hlive₁ q hq')
      (fun x hx => by simpa using hlive₁ x (hylive x hx))]
    simp [swapLinks, hh₁]
  · rw [if_neg hc] at hq
    have h₂p := (patch_of_ne (fun n => { n with
      avlChild := Function.update n.avlChild dn.avlChildIndex (some p) }) hPp).trans h₁p
    have h₂t := (patch_of_ne (fun n => { n with
      avlChild := Function.update n.avlChild dn.avlChildIndex (some p) }) hPt).trans h₁t
    have h₄t := (patch_of_ne (fun n => { n with avlParent := some p })
      (fun he => hcrt (Option.some.inj he))).trans
      ((patch_of_ne (fun n => { n with avlParent := some p })
        (fun he => hclt (Option.some.inj he))).trans h₂t)
    simp only [Option.some.injEq, hc, if_false, Option.bind_some]
    rw [avlLink_eq_patch _ _ _ (by simpa using hne₁)]
    simp only [Option.bind_some]
    rw [avlAdoptChildren_eq _ _ h₂p hcl hcr (by simp [hlive₁ cl hcl', hlive₁ cr hcr']) hc]
    simp only [Option.bind_some]
    rw [avlPutTmp_eq h₄t hq hy hqt (by simpa using hlive₁ q hq')
      (fun x hx => by simpa using hlive₁ x (hylive x hx))]
    simp [swapLinks, hh₁]

private theorem swapLinks_other {h : Links α} {p tmp cl cr q x : α} {e : Bool} {dn nn : AvlNode α}
    {self y : Option α} (hp : x ≠ p) (ht : x ≠ tmp) (hself : self ≠ some x) :
    swapLinks h p tmp e dn nn self cl cr q y x = (h x).map fun n =>
      ⟨fun f => if q = x ∧ f = nn.avlChildIndex then some tmp
          else if dn.avlParent = some x ∧ f = dn.avlChildIndex then some p else n.avlChild f,
        if y = some x then some tmp else if cl = x ∨ cr = x then some p else n.avlParent,
        n.avlChildIndex, n.avlBalance⟩ := by
  have hh : Function.update (Function.update h tmp (some nn)) p (some dn) x = h x := by
    simp [hp, ht]
  simp only [swapLinks, patch_parent, patch_child, hh, hself, Option.map_map]
  congr 1
  funext n
  by_cases hcr : cr = x <;> simp [hcr]

private theorem swapLinks_p {h : Links α} {p tmp cl cr q : α} {e : Bool} {dn nn : AvlNode α}
    {self y : Option α} (hp : dn.avlParent ≠ some p) (hcl : cl ≠ p) (hcr : cr ≠ p)
    (hy : y ≠ some p) :
    swapLinks h p tmp e dn nn self cl cr q y p = some
      ⟨fun f => if (q = p ∧ f = nn.avlChildIndex) ∨ (self = some p ∧ f = e) then some tmp
          else dn.avlChild f, dn.avlParent, dn.avlChildIndex, dn.avlBalance⟩ := by
  simp only [swapLinks, patch_parent, patch_child, Function.update_self, hp, hcl, hcr, hy,
    Option.some.injEq, Option.map_some, false_and, if_false, AvlNode.mk.injEq, and_self, and_true]
  funext f
  by_cases hf : q = p ∧ f = nn.avlChildIndex <;> simp [hf]

private theorem swapLinks_tmp {h : Links α} {p tmp cl cr q : α} {e : Bool} {dn nn : AvlNode α}
    {self y : Option α} (hp : dn.avlParent ≠ some tmp) (hpt : p ≠ tmp) (hself : self ≠ some tmp)
    (hcr : cr ≠ tmp) (hq : q ≠ tmp) (hy : y ≠ some tmp) :
    swapLinks h p tmp e dn nn self cl cr q y tmp = some
      { nn with avlParent := if cl = tmp then some p else nn.avlParent } := by
  simp only [swapLinks, patch_parent, patch_child, Function.update_self,
    Function.update_of_ne (Ne.symm hpt), hp, hself, hcr, hq, hy,
    Option.some.injEq, Option.map_some, false_and, if_false]

/-- The renaming that a swap performs: `p` takes the place of `d`, and `tmp` that of `p`. -/
def swapped (d p tmp : α) (x : α) : α := if x = d then p else if x = p then tmp else x

private theorem map_swapped {d p : α} (tmp : α) (hpd : p ≠ d) (o : Option α) :
    (if o = some p then some tmp else if o = some d then some p else o) =
      o.map (swapped d p tmp) := by
  cases o with
  | none => simp
  | some z =>
    by_cases hzd : z = d
    · simp [hzd, swapped, Ne.symm hpd]
    · by_cases hzp : z = p <;> simp [hzd, hzp, swapped, hpd]

/-- What the links of the nodes `l` of a tree say around a swap of `d` with `p`. -/
private structure SwapSite (h : Links α) (l : List α) (d p cl cr q : α) (e : Bool)
    (dn nn : AvlNode α) (y : Option α) : Prop where
  at_d : h d = some dn
  at_p : h p = some nn
  tall : dn.avlChild e = some cl
  low : dn.avlChild (!e) = some cr
  below : nn.avlChild = fun f => if f = e then y else none
  hangs : if cl = p then q = p ∧ nn.avlChildIndex = e ∧ nn.avlParent = some d
    else nn.avlParent = some q ∧ q ≠ p
  mem : d ∈ l ∧ p ∈ l ∧ cl ∈ l ∧ cr ∈ l ∧ q ∈ l
  ne : p ≠ d ∧ cl ≠ d ∧ cr ≠ d ∧ cr ≠ p ∧ q ≠ d
  parent : ∀ x, dn.avlParent = some x → x ∈ l ∧ x ≠ p ∧ x ≠ d
  child : ∀ x, y = some x → x ∈ l ∧ x ≠ p ∧ x ≠ d
  live : ∀ x ∈ l, ∃ n, h x = some n
  agree : ∀ x ∈ l, ∀ z ∈ l, ∀ n m, h x = some n → h z = some m → ∀ f,
    m.avlChild f = some x ↔ n.avlParent = some z ∧ n.avlChildIndex = f

private theorem swap_site {h : Links α} {tree : AvlTree α} {π ρ : Path α} {d p cr : α} {e : Bool}
    {b pb : ℤ} {X y s t : BalTree α} (hX : X = plug ρ (mk e p pb y nil))
    (ht : t = plug π (mk e d b X s)) (hcr : s.root = some cr) (hs : Shows h tree t)
    (hn : t.inorder.Nodup) :
    ∃ cl q dn nn, SwapSite h t.inorder d p cl cr q e dn nn y.root ∧ X.root = some cl ∧
      dn.avlParent = parentOf π ∧ dn.avlBalance = b ∧ Rep h X (some d) e ∧
      cl ∈ X.inorder := by
  have hfocus : t = plug (ρ ++ ⟨e, d, b, s⟩ :: π) (mk e p pb y nil) := by
    rw [ht, hX, plug_append, plug]
  have hs' := hs
  rw [ht] at hs'
  obtain ⟨hd, hXrep, -⟩ := rep_mk.mp hs'.focus
  have hp := (rep_mk.mp (hfocus ▸ hs).focus).1
  have hn' := (((inorder_mk_perm ..).append_right _).nodup_iff.mp (nodup_plug.mp (ht ▸ hn)))
  simp only [List.cons_append, List.append_assoc, List.nodup_cons, List.mem_append, not_or] at hn'
  obtain ⟨⟨hdX, hds, hdπ⟩, hnX⟩ := hn'
  have hXs : ∀ x ∈ X.inorder, x ∉ s.inorder ∧ x ∉ nodes π := fun x hx =>
    ⟨fun h => (List.nodup_append.mp hnX).2.2 x hx x (by simp [h]) rfl,
      fun h => (List.nodup_append.mp hnX).2.2 x hx x (by simp [h]) rfl⟩
  have hmem : ∀ x, x ∈ t.inorder ↔ x = d ∨ x ∈ X.inorder ∨ x ∈ s.inorder ∨ x ∈ nodes π := by
    intro x
    rw [ht, mem_plug, mem_inorder_mk]
    tauto
  have hpX : p ∈ X.inorder := by simp [hX, mem_plug, mem_inorder_mk]
  obtain ⟨cl, hcl⟩ : ∃ cl, X.root = some cl := by
    cases hr : X with
    | nil => simp [hr, inorder] at hpX
    | node l a b r => exact ⟨a, rfl⟩
  have hclX := root_mem hcl
  have hcrs := root_mem hcr
  set dn : AvlNode α := ⟨fun f => if f = e then X.root else s.root, parentOf π, dirOf π, b⟩ with hdn
  set nn : AvlNode α := ⟨fun f => if f = e then y.root else (nil : BalTree α).root,
    parentOf (ρ ++ ⟨e, d, b, s⟩ :: π), dirOf (ρ ++ ⟨e, d, b, s⟩ :: π), pb⟩ with hnn
  have hdt : d ∈ t.inorder := (hmem d).mpr (.inl rfl)
  have hpt : p ∈ t.inorder := (hmem p).mpr (.inr (.inl hpX))
  have hpd : p ≠ d := fun h => hdX (h ▸ hpX)
  have hyX : ∀ x, y.root = some x → x ∈ X.inorder ∧ x ≠ p := by
    intro x hx
    refine ⟨by simp [hX, mem_plug, mem_inorder_mk, root_mem hx], ?_⟩
    rintro rfl
    rw [hfocus, nodup_plug, ((inorder_mk_perm ..).append_right _).nodup_iff] at hn
    simp [root_mem hx] at hn
  -- where the neighbour hangs
  obtain ⟨q, hqt, hqd, hq⟩ : ∃ q ∈ t.inorder, q ≠ d ∧
      if cl = p then q = p ∧ nn.avlChildIndex = e ∧ nn.avlParent = some d
      else nn.avlParent = some q ∧ q ≠ p := by
    by_cases hc : cl = p
    · refine ⟨p, hpt, hpd, ?_⟩
      rw [if_pos hc]
      have := (hs.rep.child_iff hdt hpt hp hd e).mp (by simp [hdn, hcl, hc])
      exact ⟨rfl, this.2, this.1⟩
    · rcases hXrep.parent hpX hp with ⟨hroot, -⟩ | ⟨q, hq, hpar, m, hm, hchild⟩
      · exact absurd (Option.some.inj (hcl.symm.trans hroot)) hc
      · refine ⟨q, (hmem q).mpr (.inr (.inl hq)), fun h => hdX (h ▸ hq), ?_⟩
        rw [if_neg hc]
        refine ⟨hpar, ?_⟩
        rintro rfl
        obtain rfl := Option.some.inj (hm.symm.trans hp)
        have hchild' : (if nn.avlChildIndex = e then y.root else none) = some q := hchild
        split_ifs at hchild'
        exact (hyX q hchild').2 rfl
  refine ⟨cl, q, dn, nn, ⟨hd, hp, by simp [hdn, hcl], by simp [hdn, hcr], rfl, hq, ⟨hdt, hpt, ?_⟩,
    ⟨hpd, fun h => hdX (h ▸ hclX), fun h => hds (h ▸ hcrs), fun h => (hXs p hpX).1 (h ▸ hcrs), hqd⟩,
    ?_, ?_, hs.rep.live, fun x hx z hz n m hn hm => hs.rep.child_iff hz hx hn hm⟩, hcl, rfl, rfl,
    hXrep, hclX⟩
  · exact ⟨(hmem cl).mpr (.inr (.inl hclX)), (hmem cr).mpr (.inr (.inr (.inl hcrs))), hqt⟩
  · exact fun x hx => ⟨(hmem x).mpr (.inr (.inr (.inr (parentOf_mem hx)))),
      fun h => (hXs p hpX).2 (h ▸ parentOf_mem hx), fun h => hdπ (h ▸ parentOf_mem hx)⟩
  · exact fun x hx => ⟨(hmem x).mpr (.inr (.inl (hyX x hx).1)), (hyX x hx).2,
      fun h => hdX (h ▸ (hyX x hx).1)⟩

section Site

variable {h : Links α} {l : List α} {d p tmp cl cr q : α} {e : Bool} {dn nn : AvlNode α}
  {y : Option α}

theorem swapped_of_ne {x : α} (hd : x ≠ d) (hp : x ≠ p) : swapped d p tmp x = x := by
  simp [swapped, hd, hp]

/-- Variables that are neither of the two nodes stay. -/
theorem map_swapped_of_ne {o : Option α} (ho : ∀ x, o = some x → x ∈ l ∧ x ≠ p ∧ x ≠ d) :
    o.map (swapped d p tmp) = o := by
  cases o with
  | none => rfl
  | some x =>
    obtain ⟨-, hp, hd⟩ := ho x rfl
    rw [Option.map_some, swapped_of_ne hd hp]

/-- The links of `d` are at `p` after the exchange. -/
private theorem SwapSite.at_swapped_d (hS : SwapSite h l d p cl cr q e dn nn y) (htmp : tmp ∉ l) :
    swapLinks h p tmp e dn nn (if cl = p then some p else none)
        (if cl = p then tmp else cl) cr q y (swapped d p tmp d) =
      (h d).map (AvlNode.map (swapped d p tmp)) := by
  obtain ⟨-, hpt, -, -, -⟩ := hS.mem
  obtain ⟨hpd, hcld, hcrd, hcrp, -⟩ := hS.ne
  have hclp : (if cl = p then tmp else cl) ≠ p := by
    split_ifs with hc
    · exact (ne_of_mem_of_not_mem hpt htmp).symm
    · exact hc
  have hq := hS.hangs
  rw [show swapped d p tmp d = p by simp [swapped], hS.at_d,
    swapLinks_p (fun h => (hS.parent p h).2.1 rfl) hclp hcrp fun h => (hS.child p h).2.1 rfl]
  simp only [Option.map_some, AvlNode.map, Option.some.injEq, AvlNode.mk.injEq, and_true]
  refine ⟨?_, (map_swapped_of_ne hS.parent).symm⟩
  funext f
  rcases Bool.eq_or_eq_not f e with rfl | rfl
  · rw [hS.tall]
    split_ifs at hq with hc
    · simp [hc, hq.1, hq.2.1, swapped, hpd]
    · simp [hc, hq.2, swapped_of_ne hcld hc]
  · rw [hS.low]
    split_ifs at hq with hc
    · simp [hq.2.1, swapped_of_ne hcrd hcrp]
    · simp [hq.2, hc, swapped_of_ne hcrd hcrp]

/-- The links of `p` are at the stack variable after the exchange. -/
private theorem SwapSite.at_swapped_p (hS : SwapSite h l d p cl cr q e dn nn y) (htmp : tmp ∉ l) :
    swapLinks h p tmp e dn nn (if cl = p then some p else none)
        (if cl = p then tmp else cl) cr q y (swapped d p tmp p) =
      (h p).map (AvlNode.map (swapped d p tmp)) := by
  obtain ⟨-, hpt, hclt, hcrt, hqt⟩ := hS.mem
  obtain ⟨hpd, -, -, -, hqd⟩ := hS.ne
  have hnet : ∀ x ∈ l, x ≠ tmp := fun x hx he => htmp (he ▸ hx)
  have hq := hS.hangs
  rw [show swapped d p tmp p = tmp by simp [swapped, hpd], hS.at_p,
    swapLinks_tmp (fun h => hnet tmp (hS.parent tmp h).1 rfl) (hnet p hpt)
      (by split_ifs <;> simp [hnet p hpt]) (hnet cr hcrt) (hnet q hqt)
      fun h => hnet tmp (hS.child tmp h).1 rfl]
  simp only [Option.map_some, AvlNode.map, Option.some.injEq, AvlNode.mk.injEq, and_true]
  refine ⟨?_, ?_⟩
  · funext f
    rw [hS.below]
    by_cases hf : f = e
    · simp [hf, map_swapped_of_ne hS.child]
    · simp [hf]
  · split_ifs at hq with hc
    · simp [hc, hq.2.2, swapped]
    · simp [hc, hnet cl hclt, hq.1, swapped_of_ne hqd hq.2]

/-- The pointers of another node that led to the two. -/
private theorem SwapSite.at_swapped_other (hS : SwapSite h l d p cl cr q e dn nn y)
    (htmp : tmp ∉ l) {x : α} (hx : x ∈ l) (hxd : x ≠ d) (hxp : x ≠ p) :
    swapLinks h p tmp e dn nn (if cl = p then some p else none)
        (if cl = p then tmp else cl) cr q y (swapped d p tmp x) =
      (h x).map (AvlNode.map (swapped d p tmp)) := by
  obtain ⟨hdt, hpt, -, -, -⟩ := hS.mem
  obtain ⟨hpd, -, -, -, -⟩ := hS.ne
  have hxt : x ≠ tmp := ne_of_mem_of_not_mem hx htmp
  have hq := hS.hangs
  obtain ⟨n, hn⟩ := hS.live x hx
  rw [swapped_of_ne hxd hxp, swapLinks_other hxp hxt (by split_ifs <;> simp [Ne.symm hxp]), hn]
  simp only [Option.map_some, AvlNode.map, Option.some.injEq, AvlNode.mk.injEq, and_true]
  refine ⟨?_, ?_⟩
  · funext f
    have hc₁ : (q = x ∧ f = nn.avlChildIndex) ↔ n.avlChild f = some p := by
      rw [hS.agree p hpt x hx _ _ hS.at_p hn f, eq_comm (a := f)]
      split_ifs at hq with hc
      · simp [hq.1, hq.2.2, Ne.symm hxp, Ne.symm hxd]
      · simp [hq.1]
    have hc₂ : (dn.avlParent = some x ∧ f = dn.avlChildIndex) ↔ n.avlChild f = some d := by
      rw [hS.agree d hdt x hx _ _ hS.at_d hn f, eq_comm (a := f)]
    simp only [hc₁, hc₂]
    exact map_swapped tmp hpd _
  · have hc₃ : y = some x ↔ n.avlParent = some p := by
      constructor
      · intro hy
        exact ((hS.agree x hx p hpt _ _ hn hS.at_p e).mp (by simp [hS.below, hy])).1
      · intro hpar
        have := (hS.agree x hx p hpt _ _ hn hS.at_p _).mpr ⟨hpar, rfl⟩
        simp only [hS.below] at this
        split_ifs at this
        exact this
    have hc₄ : ((if cl = p then tmp else cl) = x ∨ cr = x) ↔ n.avlParent = some d := by
      have hclx : (if cl = p then tmp else cl) = x ↔ cl = x := by
        split_ifs with hc
        · simp [hc, Ne.symm hxp, Ne.symm hxt]
        · rfl
      rw [hclx]
      constructor
      · rintro (rfl | rfl)
        · exact ((hS.agree _ hx d hdt _ _ hn hS.at_d e).mp hS.tall).1
        · exact ((hS.agree _ hx d hdt _ _ hn hS.at_d (!e)).mp hS.low).1
      · intro hpar
        have := (hS.agree x hx d hdt _ _ hn hS.at_d _).mpr ⟨hpar, rfl⟩
        rcases Bool.eq_or_eq_not n.avlChildIndex e with hi | hi
        · rw [hi, hS.tall] at this
          exact .inl (Option.some.inj this)
        · rw [hi, hS.low] at this
          exact .inr (Option.some.inj this)
    simp only [hc₃, hc₄]
    exact map_swapped tmp hpd _

private theorem SwapSite.at_swapped (hS : SwapSite h l d p cl cr q e dn nn y) (htmp : tmp ∉ l) :
    ∀ x ∈ l, swapLinks h p tmp e dn nn (if cl = p then some p else none)
        (if cl = p then tmp else cl) cr q y (swapped d p tmp x) =
      (h x).map (AvlNode.map (swapped d p tmp)) := by
  intro x hx
  by_cases hxd : x = d
  · rw [hxd]
    exact hS.at_swapped_d htmp
  · by_cases hxp : x = p
    · rw [hxp]
      exact hS.at_swapped_p htmp
    · exact hS.at_swapped_other htmp hx hxd hxp

/-- The link of `d` itself keeps what it had. -/
private theorem SwapSite.frame (hS : SwapSite h l d p cl cr q e dn nn y) (hn : l.Nodup) :
    Frame h (swapLinks h p tmp e dn nn (if cl = p then some p else none)
      (if cl = p then tmp else cl) cr q y) (tmp :: l.erase d) := by
  intro x hx
  simp only [List.mem_cons, hn.mem_erase_iff, not_or, not_and] at hx
  obtain ⟨hxt, hxl⟩ := hx
  obtain ⟨-, hpt, hclt, hcrt, hqt⟩ := hS.mem
  obtain ⟨hpd, hcld, hcrd, -, hqd⟩ := hS.ne
  have hne : ∀ z ∈ l, z ≠ d → z ≠ x := by
    rintro z hz hzd rfl
    exact hxl hzd hz
  have hxp := (hne p hpt hpd).symm
  have hcl : (if cl = p then tmp else cl) ≠ x := by
    split_ifs
    · exact Ne.symm hxt
    · exact hne cl hclt hcld
  have hP : dn.avlParent ≠ some x := fun h =>
    hne x (hS.parent x h).1 (hS.parent x h).2.2 rfl
  have hy : y ≠ some x := fun h => hne x (hS.child x h).1 (hS.child x h).2.2 rfl
  rw [swapLinks_other hxp hxt (by split_ifs <;> simp [Ne.symm hxp])]
  simp [hcl, hP, hy, hne cr hcrt hcrd, hne q hqt hqd]

end Site

/-- The node `p` is the neighbour of `d` on its taller side `e`. -/
theorem avlSwap_shows {h : Links α} {tree : AvlTree α} {π ρ : Path α} {d p tmp cr : α} {e : Bool}
    {b pb : ℤ} {y s t : BalTree α} (ht : t = plug π (mk e d b (plug ρ (mk e p pb y nil)) s))
    (he : e = decide (0 < b)) (hρ : ∀ c ∈ ρ, c.dir = !e) (hcr : s.root = some cr)
    (hs : Shows h tree t) (hn : t.inorder.Nodup) (htmp : tmp ∉ t.inorder) {fuel : ℕ}
    (hfuel : t.inorder.length < fuel) :
    ∃ h' tree', avlSwap tmp fuel h tree d = some (h', tree') ∧
      Shows h' tree' (t.map (swapped d p tmp)) ∧
      Frame h h' (tmp :: t.inorder.erase d) ∧ tree'.avlNumnodes = tree.avlNumnodes := by
  obtain ⟨cl, q, dn, nn, hS, hcl, hpar, hb, hXrep, hclX⟩ := swap_site rfl ht hcr hs hn
  obtain ⟨hdt, hpt, hclt, hcrt, hqt⟩ := hS.mem
  obtain ⟨hpd, hcld, hcrd, hcrp, hqd⟩ := hS.ne
  have hnet : ∀ x ∈ t.inorder, x ≠ tmp := fun x hx he => htmp (he ▸ hx)
  have hlive : ∀ x ∈ t.inorder, (h x).isSome := fun x hx =>
    Option.isSome_iff_exists.mpr (hS.live x hx)
  have hdesc : avlDescend h (!e) fuel cl = some p := by
    rw [avlDescend_rep (!e) hXrep hcl]
    · simpa using edge_plug (!e) p pb y (by simpa using hρ)
    · refine (height_le_length _).trans ?_
      rw [ht, length_plug, (inorder_mk_perm ..).length_eq] at hfuel
      simp only [List.length_cons, List.length_append] at hfuel
      omega
  have hq := hS.hangs
  have hrun := avlSwap_run tree tmp q (hb ▸ he) hS.at_d hS.at_p hS.tall
    hS.low hS.below hdesc (by split_ifs at hq ⊢ <;> first | exact ⟨hq.1, hq.2.1⟩ | exact hq.1)
    ⟨hlive cl hclt, hlive cr hcrt, hlive q hqt⟩
    (fun x hx => ⟨hlive x (hS.parent x hx).1, (hS.parent x hx).2.1, hnet x (hS.parent x hx).1⟩)
    (fun x hx => hlive x (hS.child x hx).1)
    ⟨hnet p hpt, hnet cl hclt, hnet cr hcrt, hcrp, hnet q hqt⟩
  refine ⟨_, _, hrun, ⟨hs.rep.map (swapped d p tmp) (hS.at_swapped htmp), ?_⟩,
    hS.frame hn, by split_ifs <;> rfl⟩
  · have hroot : dn.avlParent = none ↔ t.root = some d := by
      constructor
      · intro hnone
        cases π with
        | nil => rw [ht]; simp [plug]
        | cons _ _ => rw [hpar] at hnone; cases hnone
      · intro hr
        obtain ⟨n, hn, hnone⟩ := hs.rep.root_link hr
        rwa [Option.some.inj (hS.at_d.symm.trans hn)]
    simp only [hroot, root_map]
    split_ifs with hr
    · simp [hr, swapped]
    · cases hr' : t.root with
      | none => rw [hs.root, hr']; rfl
      | some r =>
        obtain ⟨n, hn, hnone⟩ := hs.rep.root_link hr'
        have hrp : r ≠ p := by
          rintro rfl
          obtain rfl := Option.some.inj (hS.at_p.symm.trans hn)
          split_ifs at hq <;> simp [hnone] at hq
        have hrd : r ≠ d := fun h => hr (h ▸ hr')
        simp [hs.root, hr', swapped, hrd, hrp]

end Filebench.Avl

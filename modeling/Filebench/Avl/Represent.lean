import Filebench.Avl.Tree

/-! # Links that represent a tree

`Rep h t p d` says that the links of all nodes of `t` are those of the tree `t` hanging below
`p` on side `d`; `RepPath` says the same of a path around a focus whose root is `q`. -/
namespace Filebench.Avl

open BinTree BinTree.BalTree

variable {α : Type*}

def Rep (h : Links α) : BalTree α → Option α → Bool → Prop
  | .nil, _, _ => True
  | .node l a b r, p, d =>
    h a = some ⟨fun e => bif e then r.root else l.root, p, d, b⟩ ∧
      Rep h l (some a) false ∧ Rep h r (some a) true

def RepPath (h : Links α) : Path α → Option α → Prop
  | [], _ => True
  | c :: π, q =>
    h c.key = some ⟨fun e => if e = c.dir then q else c.sib.root, parentOf π, dirOf π, c.bal⟩ ∧
      Rep h c.sib (some c.key) (!c.dir) ∧ RepPath h π (some c.key)

theorem rep_mk {h : Links α} {d : Bool} {a : α} {b : ℤ} {x y : BalTree α} {p : Option α}
    {e : Bool} : Rep h (mk d a b x y) p e ↔
      h a = some ⟨fun f => if f = d then x.root else y.root, p, e, b⟩ ∧
        Rep h x (some a) d ∧ Rep h y (some a) (!d) := by
  have hf : ∀ u v : Option α, (fun f => bif f then u else v) = fun f => if f = true then u else v :=
    fun u v => funext fun f => by cases f <;> rfl
  have hg : ∀ u v : Option α, (fun f => bif f then u else v) = fun f => if f = false then v else u :=
    fun u v => funext fun f => by cases f <;> rfl
  cases d
  · simp only [mk, cond_false, Rep, hg, Bool.not_false]
  · simp only [mk, cond_true, Rep, hf, Bool.not_true, and_congr_right_iff]
    exact fun _ => and_comm

theorem rep_plug {h : Links α} {π : Path α} {t : BalTree α} :
    Rep h (plug π t) none false ↔ RepPath h π t.root ∧ Rep h t (parentOf π) (dirOf π) := by
  induction π generalizing t with
  | nil => simp [plug, RepPath, parentOf, dirOf]
  | cons c π ih =>
    rw [plug, ih, rep_mk, root_mk, RepPath, parentOf, dirOf]
    tauto

theorem Rep.live {h : Links α} {t : BalTree α} {p d} (hr : Rep h t p d) :
    ∀ x ∈ t.inorder, ∃ n, h x = some n := by
  induction t generalizing p d with
  | nil => simp [inorder]
  | node l a b r ihl ihr =>
    intro x hx
    rcases List.mem_append.mp hx with hx | hx
    · exact ihl hr.2.1 x hx
    · rcases List.mem_cons.mp hx with rfl | hx
      · exact ⟨_, hr.1⟩
      · exact ihr hr.2.2 x hx

/-- Links outside the tree do not matter. -/
theorem Rep.congr {h h' : Links α} {t : BalTree α} {p d} (hr : Rep h t p d)
    (hh : ∀ x ∈ t.inorder, h' x = h x) : Rep h' t p d := by
  induction t generalizing p d with
  | nil => trivial
  | node l a b r ihl ihr =>
    simp only [inorder, List.mem_append, List.mem_cons] at hh
    exact ⟨(hh a (by simp)).trans hr.1, ihl hr.2.1 fun x hx => hh x (.inl hx),
      ihr hr.2.2 fun x hx => hh x (.inr (.inr hx))⟩

/-- Links represent one tree at most. -/
theorem Rep.unique {h : Links α} {t t' : BalTree α} {p p' d d'} (hr : Rep h t p d)
    (hr' : Rep h t' p' d') (hroot : t.root = t'.root) : t = t' := by
  induction t generalizing t' p p' d d' with
  | nil =>
    cases t' with
    | nil => rfl
    | node => cases hroot
  | node l a b r ihl ihr =>
    cases t' with
    | nil => cases hroot
    | node l' a' b' r' =>
      obtain rfl := Option.some.inj hroot
      have hlink := Option.some.inj (hr.1.symm.trans hr'.1)
      have hchild := congrArg AvlNode.avlChild hlink
      obtain rfl := ihl hr.2.1 hr'.2.1 (congrFun hchild false)
      obtain rfl := ihr hr.2.2 hr'.2.2 (congrFun hchild true)
      exact congrArg (node l a · r) (congrArg AvlNode.avlBalance hlink)

theorem RepPath.congr {h h' : Links α} {π : Path α} {q} (hr : RepPath h π q)
    (hh : ∀ x ∈ nodes π, h' x = h x) : RepPath h' π q := by
  induction π generalizing q with
  | nil => trivial
  | cons c π ih =>
    simp only [nodes, List.mem_cons, List.mem_append] at hh
    exact ⟨(hh _ (.inl rfl)).trans hr.1, hr.2.1.congr fun x hx => hh x (.inr (.inl hx)),
      ih hr.2.2 fun x hx => hh x (.inr (.inr hx))⟩

/-- A subtree moved below another parent: only the link of its root changes. -/
theorem Rep.reparent {h h' : Links α} {t : BalTree α} {p d} (p' : Option α) (d' : Bool)
    (hr : Rep h t p d) (hn : t.inorder.Nodup)
    (hroot : ∀ x n, t.root = some x → h x = some n →
      h' x = some { n with avlParent := p', avlChildIndex := d' })
    (hh : ∀ x ∈ t.inorder, t.root ≠ some x → h' x = h x) : Rep h' t p' d' := by
  cases t with
  | nil => trivial
  | node l a b r =>
    simp only [inorder, List.nodup_append, List.nodup_cons, List.mem_append, List.mem_cons,
      root, ne_eq, Option.some.injEq] at hn hh
    refine ⟨hroot a _ rfl hr.1, hr.2.1.congr fun x hx => hh x (.inl hx) ?_,
      hr.2.2.congr fun x hx => hh x (.inr (.inr hx)) ?_⟩
    · rintro rfl
      exact hn.2.2 _ hx _ (.inl rfl) rfl
    · rintro rfl
      exact hn.2.1.1 hx

/-- A path whose focus gets another root: only the link of the nearest ancestor changes. -/
theorem RepPath.redirect {h h' : Links α} {π : Path α} {q} (q' : Option α)
    (hr : RepPath h π q) (hn : (nodes π).Nodup)
    (hparent : ∀ p n, parentOf π = some p → h p = some n →
      h' p = some { n with avlChild := Function.update n.avlChild (dirOf π) q' })
    (hh : ∀ x ∈ nodes π, parentOf π ≠ some x → h' x = h x) : RepPath h' π q' := by
  cases π with
  | nil => trivial
  | cons c π =>
    simp only [nodes, List.nodup_cons, List.nodup_append, List.mem_append, List.mem_cons,
      parentOf, ne_eq, Option.some.injEq] at hn hh
    refine ⟨?_, hr.2.1.congr fun x hx => hh x (.inr (.inl hx)) ?_,
      hr.2.2.congr fun x hx => hh x (.inr (.inr hx)) ?_⟩
    · rw [hparent c.key _ rfl hr.1]
      simp only [dirOf, Option.some.injEq, AvlNode.mk.injEq, and_self, and_true]
      funext e
      by_cases he : e = c.dir <;> simp [he]
    · rintro rfl
      exact hn.1 (.inl hx)
    · rintro rfl
      exact hn.1 (.inr hx)

/-- Parent and child pointers agree. -/
theorem Rep.child {h : Links α} {t : BalTree α} {p d} (hr : Rep h t p d) {x z : α} {m : AvlNode α}
    {e : Bool} (hz : z ∈ t.inorder) (hm : h z = some m) (hx : m.avlChild e = some x) :
    x ∈ t.inorder ∧ ∃ n, h x = some n ∧ n.avlParent = some z ∧ n.avlChildIndex = e := by
  induction t generalizing p d with
  | nil => simp [inorder] at hz
  | node l a b r ihl ihr =>
    simp only [inorder, List.mem_append, List.mem_cons] at hz ⊢
    rcases hz with hz | rfl | hz
    · exact (ihl hr.2.1 hz).imp_left .inl
    · obtain rfl : _ = m := Option.some.inj (hr.1.symm.trans hm)
      cases e with
      | false =>
        cases l with
        | nil => cases hx
        | node l₁ y b₁ r₁ => cases hx; exact ⟨.inl (by simp [inorder]), _, hr.2.1.1, rfl, rfl⟩
      | true =>
        cases r with
        | nil => cases hx
        | node l₁ y b₁ r₁ => cases hx; exact ⟨.inr (.inr (by simp [inorder])), _, hr.2.2.1, rfl, rfl⟩
    · exact (ihr hr.2.2 hz).imp_left fun h => .inr (.inr h)

theorem Rep.parent {h : Links α} {t : BalTree α} {p d} (hr : Rep h t p d) {x : α} {n : AvlNode α}
    (hx : x ∈ t.inorder) (hn : h x = some n) :
    (t.root = some x ∧ n.avlParent = p ∧ n.avlChildIndex = d) ∨
      ∃ z ∈ t.inorder, n.avlParent = some z ∧ ∃ m, h z = some m ∧
        m.avlChild n.avlChildIndex = some x := by
  induction t generalizing p d with
  | nil => simp [inorder] at hx
  | node l a b r ihl ihr =>
    have hmem : ∀ z, z ∈ l.inorder ∨ z = a ∨ z ∈ r.inorder ↔ z ∈ (node l a b r).inorder := by
      simp [inorder]
    rcases (hmem x).mpr hx with hx | rfl | hx
    · rcases ihl hr.2.1 hx with ⟨hroot, hp, hi⟩ | ⟨z, hz, hrest⟩
      · exact .inr ⟨a, (hmem a).mp (by simp), hp, _, hr.1, by rw [hi]; exact hroot⟩
      · exact .inr ⟨z, (hmem z).mp (.inl hz), hrest⟩
    · obtain rfl := Option.some.inj (hr.1.symm.trans hn)
      exact .inl ⟨rfl, rfl, rfl⟩
    · rcases ihr hr.2.2 hx with ⟨hroot, hp, hi⟩ | ⟨z, hz, hrest⟩
      · exact .inr ⟨a, (hmem a).mp (by simp), hp, _, hr.1, by rw [hi]; exact hroot⟩
      · exact .inr ⟨z, (hmem z).mp (.inr (.inr hz)), hrest⟩

theorem Rep.root_link {h : Links α} {t : BalTree α} {p d} (hr : Rep h t p d) {r : α}
    (ht : t.root = some r) : ∃ n, h r = some n ∧ n.avlParent = p := by
  cases t with
  | nil => cases ht
  | node l a b u => cases ht; exact ⟨_, hr.1, rfl⟩

theorem Rep.child_iff {h : Links α} {t : BalTree α} {d} (hr : Rep h t none d) {x z : α}
    {n m : AvlNode α} (hz : z ∈ t.inorder) (hx : x ∈ t.inorder) (hn : h x = some n)
    (hm : h z = some m) (e : Bool) :
    m.avlChild e = some x ↔ n.avlParent = some z ∧ n.avlChildIndex = e := by
  constructor
  · intro he
    obtain ⟨-, n', hn', hp, hi⟩ := hr.child hz hm he
    obtain rfl := Option.some.inj (hn'.symm.trans hn)
    exact ⟨hp, hi⟩
  · rintro ⟨hp, rfl⟩
    rcases hr.parent hx hn with ⟨-, h0, -⟩ | ⟨z', -, hz', m', hm', hc⟩
    · simp [h0] at hp
    · obtain rfl := Option.some.inj (hz'.symm.trans hp)
      obtain rfl := Option.some.inj (hm'.symm.trans hm)
      exact hc

def AvlNode.map (f : α → α) (n : AvlNode α) : AvlNode α :=
  ⟨fun e => (n.avlChild e).map f, n.avlParent.map f, n.avlChildIndex, n.avlBalance⟩

/-- Renamed links represent the renamed tree. -/
theorem Rep.map (f : α → α) {h h' : Links α} {t : BalTree α} {p d} (hr : Rep h t p d)
    (hh : ∀ x ∈ t.inorder, h' (f x) = (h x).map (AvlNode.map f)) :
    Rep h' (t.map f) (p.map f) d := by
  induction t generalizing p d with
  | nil => trivial
  | node l a b r ihl ihr =>
    simp only [inorder, List.mem_append, List.mem_cons] at hh
    refine ⟨?_, ihl hr.2.1 fun x hx => hh x (.inl hx), ihr hr.2.2 fun x hx => hh x (.inr (.inr hx))⟩
    rw [hh a (by simp), hr.1]
    simp only [Option.map_some, AvlNode.map, Option.some.injEq, AvlNode.mk.injEq, and_self, and_true]
    funext e
    cases e <;> simp

/-! ## Reading and writing single links -/

variable [DecidableEq α]

@[simp] theorem Links.modify_some {h : Links α} {a : α} {n : AvlNode α} (f) (ha : h a = some n) :
    h.modify a f = some (Function.update h a (some (f n))) := by
  simp [Links.modify, ha]

/-- The links with `f` applied to the link of `q`, if there is one. -/
def Links.patch (h : Links α) (q : Option α) (f : AvlNode α → AvlNode α) : Links α := fun x =>
  if q = some x then (h x).map f else h x

@[simp] theorem patch_none (h : Links α) (f) : h.patch none f = h := by
  funext x
  simp [Links.patch]

theorem patch_of_ne {h : Links α} {q : Option α} {x : α} (f) (hx : q ≠ some x) :
    h.patch q f x = h x := if_neg hx

theorem patch_self {h : Links α} {x : α} {n : AvlNode α} (f) (hx : h x = some n) :
    h.patch (some x) f x = some (f n) := by simp [Links.patch, hx]

theorem patch_parent (h : Links α) (q : Option α) (v : Option α) (x : α) :
    h.patch q (fun n => { n with avlParent := v }) x = (h x).map fun n =>
      { n with avlParent := if q = some x then v else n.avlParent } := by
  unfold Links.patch
  split <;> simp

theorem patch_child (h : Links α) (q : Option α) (d : Bool) (v : Option α) (x : α) :
    h.patch q (fun n => { n with avlChild := Function.update n.avlChild d v }) x =
      (h x).map fun n =>
        { n with avlChild := fun f => if q = some x ∧ f = d then v else n.avlChild f } := by
  unfold Links.patch
  split_ifs with hq
  · simp only [hq, true_and]
    congr 1
    funext n
    congr 1
    funext f
    exact Function.update_apply ..
  · simp [hq]

theorem modify_eq_patch {h : Links α} {a : α} (f) (ha : (h a).isSome) :
    h.modify a f = some (h.patch (some a) f) := by
  obtain ⟨n, hn⟩ := Option.isSome_iff_exists.mp ha
  rw [Links.modify_some f hn]
  congr 1
  funext x
  by_cases hx : x = a
  · subst hx; simp [Links.patch, hn]
  · simp [Links.patch, hx, Ne.symm hx]

@[simp] theorem isSome_patch (h : Links α) (q : Option α) (f) (x : α) :
    (h.patch q f x).isSome = (h x).isSome := by
  unfold Links.patch
  split <;> simp

theorem avlLink_eq_patch {h : Links α} (tree : AvlTree α) {parent : Option α} (d : Bool)
    (q : Option α) (hp : ∀ p, parent = some p → (h p).isSome) :
    avlLink h tree parent d q =
      some (h.patch parent fun n => { n with avlChild := Function.update n.avlChild d q },
        if parent = none then { tree with avlRoot := q } else tree) := by
  cases parent with
  | none => simp [avlLink]
  | some p => simp [avlLink, Links.setChild, modify_eq_patch _ (hp p rfl)]

@[simp] theorem adopt_none (h : Links α) (p : Option α) (d : Bool) : h.adopt none p d = some h :=
  rfl

theorem adopt_some {h : Links α} {a : α} {n : AvlNode α} (p : Option α) (d : Bool)
    (ha : h a = some n) : h.adopt (some a) p d =
      some (Function.update h a (some { n with avlParent := p, avlChildIndex := d })) := by
  simp [Links.adopt, Links.setParent, Links.setChildIndex, Links.modify, ha]

/-- A child that is adopted: the links of its subtree are those of a subtree of `p`. -/
theorem adopt_rep {h : Links α} {t : BalTree α} {q e} (p : Option α) (d : Bool)
    (hr : Rep h t q e) (hn : t.inorder.Nodup) :
    ∃ h', h.adopt t.root p d = some h' ∧ Rep h' t p d ∧ (∀ x ∉ t.inorder, h' x = h x) := by
  cases t with
  | nil => exact ⟨h, rfl, trivial, fun _ _ => rfl⟩
  | node l a b r =>
    refine ⟨_, adopt_some p d hr.1, hr.reparent p d hn ?_ ?_, ?_⟩
    · rintro x n ⟨⟩ hx
      rw [hr.1] at hx
      cases hx
      simp
    · intro x _ hx
      exact Function.update_of_ne (fun he => hx (by simp [root, he])) _ _
    · intro x hx
      exact Function.update_of_ne (fun he => hx (by simp [inorder, he])) _ _

/-- Linking `q` below a path, or as the root when there is no path. -/
theorem avlLink_rep {h : Links α} (tree : AvlTree α) {π : Path α} {q} (q' : Option α)
    (hr : RepPath h π q) (hn : (nodes π).Nodup) :
    ∃ h' tree', avlLink h tree (parentOf π) (dirOf π) q' = some (h', tree') ∧
      RepPath h' π q' ∧ (∀ x, parentOf π ≠ some x → h' x = h x) ∧
      tree'.avlNumnodes = tree.avlNumnodes ∧
      tree'.avlRoot = if π = [] then q' else tree.avlRoot := by
  cases π with
  | nil => exact ⟨h, _, rfl, trivial, fun _ _ => rfl, rfl, rfl⟩
  | cons c π =>
    have hlink : ∀ n : AvlNode α, h c.key = some n → avlLink h tree (some c.key) c.dir q' =
        some (Function.update h c.key
          (some { n with avlChild := Function.update n.avlChild c.dir q' }), tree) := by
      intro n hc
      simp [avlLink, Links.setChild, hc]
    refine ⟨_, tree, hlink _ hr.1, hr.redirect q' hn ?_ ?_, ?_, rfl, rfl⟩
    · rintro p n ⟨⟩ hp
      rw [hr.1] at hp
      cases hp
      simp [dirOf]
    · intro x _ hx
      exact Function.update_of_ne (fun he => hx (by simp [parentOf, he])) _ _
    · intro x hx
      exact Function.update_of_ne (fun he => hx (by simp [parentOf, he])) _ _

end Filebench.Avl

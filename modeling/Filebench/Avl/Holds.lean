import Filebench.Avl.Update
import Filebench.Avl.Steady

/-! # AVL trees as sorted collections

What a caller of the AVL package relies on: the tree holds a list of nodes sorted by key, the
routines search and change that list, and the links of all other nodes stay as they are. -/
namespace Filebench.Avl

open BinTree BinTree.BalTree Fuel

variable {α : Type*} {κ : Type*} [LinearOrder κ]

/-- `tree` holds exactly the nodes `l`, sorted by key. -/
structure Holds (h : Links α) (tree : AvlTree α) (key : α → κ) (l : List α) : Prop where
  shape : ∃ t, Shows h tree t ∧ BinTree.Balanced t ∧ t.inorder = l
  sorted : l.Pairwise (key · < key ·)
  count : tree.avlNumnodes = l.length

theorem holds_create (h : Links α) (key : α → κ) : Holds h avlCreate key [] :=
  ⟨⟨nil, ⟨trivial, rfl⟩, trivial, rfl⟩, List.Pairwise.nil, rfl⟩

namespace Holds

variable {h h' : Links α} {tree : AvlTree α} {key key' : α → κ} {l l' : List α} {a : α}

theorem root_nil (hh : Holds h tree key []) : tree.avlRoot = none := by
  obtain ⟨t, hs, -, hin⟩ := hh.shape
  cases t with
  | nil => exact hs.root
  | node => simp [inorder] at hin

theorem nodup (hh : Holds h tree key l) : l.Nodup :=
  hh.sorted.imp fun hlt => by
    rintro rfl
    exact lt_irrefl _ hlt

theorem live (hh : Holds h tree key l) : ∀ x ∈ l, ∃ n, h x = some n := by
  obtain ⟨t, hs, -, rfl⟩ := hh.shape
  exact hs.rep.live

theorem frame (hh : Holds h tree key l) (hl : ∀ x ∈ l, h' x = h x) : Holds h' tree key l := by
  obtain ⟨t, hs, hb, rfl⟩ := hh.shape
  exact ⟨⟨t, ⟨hs.rep.congr hl, hs.root⟩, hb, rfl⟩, hh.sorted, hh.count⟩

theorem rekey (hh : Holds h tree key l) (hl : ∀ x ∈ l, key' x = key x) :
    Holds h tree key' l :=
  ⟨hh.shape, hh.sorted.imp_of_mem fun hx hy hlt => by rwa [hl _ hx, hl _ hy], hh.count⟩

theorem unique (hh : Holds h tree key l) (hh' : Holds h tree key l') : l = l' := by
  obtain ⟨t, hs, -, rfl⟩ := hh.shape
  obtain ⟨t', hs', -, rfl⟩ := hh'.shape
  rw [hs.rep.unique hs'.rep (hs.root.symm.trans hs'.root)]

theorem isEmpty (hh : Holds h tree key l) : avlIsEmpty tree = l.isEmpty := by
  rw [avlIsEmpty, hh.count]
  cases l <;> rfl

theorem first (hh : Holds h tree key l) {fuel : ℕ} (hfuel : l.length < fuel) :
    avlFirst fuel h tree = some l.head? := by
  obtain ⟨t, hs, -, rfl⟩ := hh.shape
  exact avlFirst_shows hs hfuel

theorem next (hh : Holds h tree key l) {l₁ l₂ : List α} (hl : l = l₁ ++ a :: l₂) {fuel : ℕ}
    (hfuel : l.length < fuel) : avlWalk fuel h a true = some l₂.head? := by
  have hn := hh.nodup
  obtain ⟨t, hs, -, rfl⟩ := hh.shape
  exact avlWalk_next hs hn hl hfuel

/-- A search answers with the node of the key, or with a place from which the nearest node
after the key is the first one with a greater key. -/
theorem find (hh : Holds h tree key l) (k : κ) {fuel : ℕ} (hfuel : l.length < fuel) :
    ∃ r, avlFind fuel h tree key k = some r ∧ match r with
      | .found a => a ∈ l ∧ key a = k
      | .missing prev child => (∀ x ∈ l, key x ≠ k) ∧
          avlNearest fuel h prev child true = some (l.find? fun x => decide (k < key x)) := by
  have hsort := hh.sorted
  obtain ⟨t, hs, -, rfl⟩ := hh.shape
  obtain ⟨r, hrun, hr⟩ := avlFind_shows k hs hsort hfuel
  refine ⟨r, hrun, ?_⟩
  cases r with
  | found a => exact hr
  | missing prev child =>
    obtain ⟨π, rfl, rfl, rfl, hlo, hhi⟩ := hr
    refine ⟨fun x hx => ?_, (avlNearest_shows true hs hfuel).trans (congrArg some ?_)⟩
    · simp only [inorder_plug, inorder, List.append_nil, List.mem_append] at hx
      rcases hx with hx | hx
      · exact (hlo x hx).ne
      · exact (hhi x hx).ne'
    · rw [inorder_plug, inorder, List.append_nil, List.find?_append,
        List.find?_eq_none.mpr fun x hx => by simpa using (hlo x hx).le]
      cases hπ : after π with
      | nil => simp [edge]
      | cons x xs => simp [edge, List.find?, hhi x (by simp [hπ])]

theorem inj (hh : Holds h tree key l) {x y : α} (hx : x ∈ l) (hy : y ∈ l)
    (hkey : key x = key y) : x = y :=
  List.inj_on_of_nodup_map (List.pairwise_map.mpr (hh.sorted.imp ne_of_lt)) hx hy hkey

/-- The last node has no child after it. -/
theorem last (hh : Holds h tree key (l ++ [a])) {n : AvlNode α} (hn : h a = some n) :
    n.avlChild true = none := by
  have hsorted := hh.sorted
  have ha : a ∈ l ++ [a] := by simp
  have hlast : ∀ x ∈ l ++ [a], key x ≤ key a := by
    intro x hx
    rcases List.mem_append.mp hx with hx | hx
    · exact ((List.pairwise_append.mp hsorted).2.2 x hx a (.head _)).le
    · rw [List.mem_singleton.mp hx]
  obtain ⟨t, hs, -, hin⟩ := hh.shape
  rw [← hin] at hsorted ha hlast
  obtain ⟨π, u, b, v, rfl⟩ := exists_focus ha
  obtain rfl := Option.some.inj (hn.symm.trans hs.focus.1)
  change v.root = none
  cases hv : v.root with
  | none => rfl
  | some x =>
    have hxv := root_mem hv
    rw [inorder_plug, inorder] at hsorted hlast
    have hax : key a < key x := by
      have hmid := (List.pairwise_append.mp (List.pairwise_append.mp hsorted).1).2.1
      have hav := (List.pairwise_append.mp hmid).2.1
      exact (List.pairwise_cons.mp hav).1 x hxv
    exact absurd hax (hlast x (by simp [hxv])).not_gt

variable [DecidableEq α]

/-- An insertion puts the new leaf where the search ended and rebalances the way up. -/
theorem insertion (hh : Holds h tree key l) (hfresh : ∀ x ∈ l, key x ≠ key a)
    (hlive : (h a).isSome) :
    ∃ h' tree' π, Returns (fun fuel => avlAdd fuel h tree key a) (h', tree') ∧
      Shows h' tree' (regrow π (node nil a 0 nil)) ∧ PathBal π 0 ∧ l = before π ++ after π ∧
      (∀ x ∈ before π, key x < key a) ∧ (∀ x ∈ after π, key a < key x) ∧
      tree'.avlNumnodes = tree.avlNumnodes + 1 ∧ Frame h h' (a :: l) := by
  have hfuel := Nat.lt_succ_self l.length
  have hn := hh.nodup
  have hsort := hh.sorted
  obtain ⟨n, hlive⟩ := Option.isSome_iff_exists.mp hlive
  obtain ⟨t, hs, hb, rfl⟩ := hh.shape
  obtain ⟨r, hrun, hr⟩ := avlFind_shows (key a) hs hsort hfuel
  cases r with
  | found x => exact absurd hr.2 (hfresh x hr.1)
  | missing prev child =>
    obtain ⟨π, rfl, rfl, rfl, hlo, hhi⟩ := hr
    obtain ⟨h', tree', hins, hs', hf, hnum⟩ := avlInsert_shows hs hn hb
      (fun hm => hfresh a hm rfl) hlive hfuel
    have hadd : avlAdd ((plug π nil : BalTree α).inorder.length + 1) h tree key a =
        some (h', tree') := by
      simp only [avlAdd, hrun, Option.bind_eq_bind, Option.bind_some]
      exact hins
    refine ⟨h', tree', π, (avlAdd_steady h tree key a).returns hadd, hs',
      (balanced_plug.mp hb).2, ?_, hlo, hhi, hnum, hf⟩
    rw [inorder_plug, inorder, List.append_nil]

theorem inorder_insertion (π : Path α) (a : α) :
    (regrow π (node nil a 0 nil)).inorder = before π ++ a :: after π := by
  simp [inorder_regrow, inorder_plug, inorder]

theorem sorted_insertion {π : Path α} (hsort : (before π ++ after π).Pairwise (key · < key ·))
    (hlo : ∀ x ∈ before π, key x < key a) (hhi : ∀ x ∈ after π, key a < key x) :
    (before π ++ a :: after π).Pairwise (key · < key ·) := by
  obtain ⟨h₁, h₂, h₃⟩ := List.pairwise_append.mp hsort
  refine List.pairwise_append.mpr ⟨h₁, List.pairwise_cons.mpr ⟨hhi, h₂⟩, fun x hx z hz => ?_⟩
  rcases List.mem_cons.mp hz with rfl | hz
  · exact hlo x hx
  · exact h₃ x hx z hz

theorem balanced_insertion {π : Path α} (hπ : PathBal π 0) (a : α) :
    BinTree.Balanced (regrow π (node nil a 0 nil)) :=
  balanced_regrow hπ (t := node nil a 0 nil) (by simp [BinTree.Balanced, height]) rfl (.inl rfl)

theorem add (hh : Holds h tree key l) (hfresh : ∀ x ∈ l, key x ≠ key a) (hlive : (h a).isSome) :
    ∃ h' tree' l', Returns (fun fuel => avlAdd fuel h tree key a) (h', tree') ∧
      Holds h' tree' key l' ∧ l'.Perm (a :: l) ∧ Frame h h' (a :: l) := by
  obtain ⟨h', tree', π, hrun, hs, hπ, rfl, hlo, hhi, hnum, hf⟩ := hh.insertion hfresh hlive
  refine ⟨h', tree', before π ++ a :: after π, hrun, ⟨⟨_, hs, balanced_insertion hπ a,
    inorder_insertion π a⟩, sorted_insertion hh.sorted hlo hhi, ?_⟩, List.perm_middle, hf⟩
  rw [hnum, hh.count]
  simp only [List.length_append, List.length_cons]
  omega

theorem remove (hh : Holds h tree key l) (ha : a ∈ l) {tmp : α} (htmp : h tmp = none) :
    ∃ h' tree', Returns (fun fuel => avlRemove tmp fuel h tree a) (h', tree') ∧
      Holds h' tree' key (l.erase a) ∧ Frame h h' (l.erase a) := by
  have hn := hh.nodup
  have hsort := hh.sorted
  have hcount := hh.count
  obtain ⟨t, hs, hb, rfl⟩ := hh.shape
  obtain ⟨h', tree', t', hrun, hs', hb', hin, hf, hnum⟩ :=
    avlRemove_shows hs hn hb ha htmp hcount (Nat.lt_succ_self _)
  exact ⟨h', tree', (avlRemove_steady tmp h tree a).returns hrun,
    ⟨⟨t', hs', hb', hin⟩, hsort.sublist List.erase_sublist, hnum⟩, hf⟩

end Holds

/-! ## Two nodes -/

/-- The node 2 is the right child of the node 1, and the node 3 is in no tree. -/
def pairLinks : Links ℕ
  | 1 => some ⟨fun e => bif e then some 2 else none, none, false, 1⟩
  | 2 => some ⟨fun _ => none, some 1, true, 0⟩
  | 3 => some ⟨fun _ => none, none, false, 0⟩
  | _ => none

def pairTree : AvlTree ℕ := ⟨some 1, 2⟩

theorem pairTree_holds : Holds pairLinks pairTree id [1, 2] := by
  have hleaf : (fun e => bif e then (nil : BalTree ℕ).root else (nil : BalTree ℕ).root) =
      fun _ => none := by
    funext e
    cases e <;> rfl
  refine ⟨⟨node nil 1 1 (node nil 2 0 nil), ⟨⟨rfl, trivial, ?_, trivial, trivial⟩, rfl⟩, ?_, rfl⟩,
    by decide, rfl⟩
  · rw [hleaf]
    rfl
  · simp [BinTree.Balanced, height]

end Filebench.Avl

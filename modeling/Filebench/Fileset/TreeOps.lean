import Filebench.Fileset.Types

/-! # Entries in and out of a tree

Any sequence of insertions and removals on a tree that was created empty. What the sequence leaves
is described node by node, with everything that a node stores. -/
namespace Filebench

open Avl BinTree Fuel

inductive TreeOp where
  | add (e : Entry)
  | remove (e : Entry)

/-- The call on a tree and the links of all entries. -/
def TreeOp.apply (fuel : ℕ) (fs : Fileset) (r : Links Entry × AvlTree Entry) :
    TreeOp → Option (Links Entry × AvlTree Entry)
  | .add e => avlAdd fuel r.1 r.2 fs.key e
  | .remove e => avlRemove stackEntry fuel r.1 r.2 e

def treeRun (fuel : ℕ) (fs : Fileset) :
    List TreeOp → Links Entry × AvlTree Entry → Option (Links Entry × AvlTree Entry)
  | [], r => some r
  | op :: ops, r => (op.apply fuel fs r).bind (treeRun fuel fs ops)

def TreeOp.after (s : Finset Entry) : TreeOp → Finset Entry
  | .add e => insert e s
  | .remove e => s.erase e

/-- The inserted entries without the removed ones. -/
def contents : List TreeOp → Finset Entry → Finset Entry
  | [], s => s
  | op :: ops, s => contents ops (op.after s)

/-- Insertions of live entries with an index that is not in the tree, removals of present ones. -/
def Admitted (fs : Fileset) : List TreeOp → Finset Entry → Prop
  | [], _ => True
  | op :: ops, s =>
    (match op with
      | .add e => (fs.fseLink e).isSome ∧ ∀ x ∈ s, fs.key x ≠ fs.key e
      | .remove e => e ∈ s) ∧ Admitted fs ops (op.after s)

/-- The links of the nodes are those of the tree `t`: the children, the parent, the side of the
parent and the balance of each. -/
structure TreeWellFormed (fs : Fileset) (h : Links Entry) (tree : AvlTree Entry) (s : Finset Entry)
    (t : BalTree Entry) : Prop where
  root : tree.avlRoot = t.root
  links : Rep h t none false
  ordered : t.inorder.Pairwise (fs.key · < fs.key ·)
  balanced : BinTree.Balanced t
  numnodes : tree.avlNumnodes = t.inorder.length
  nodes : ∀ e, e ∈ t.inorder ↔ e ∈ s

section steps

variable {fs : Fileset} {h h' : Links Entry} {tree tree' : AvlTree Entry} {l l' : List Entry}

/-- Between two calls: the tree holds the entries, and live memory is still live. -/
structure Stands (fs : Fileset) (r : Links Entry × AvlTree Entry) (s : Finset Entry) : Prop where
  holds : ∃ l, Holds r.1 r.2 fs.key l ∧ ∀ e, e ∈ l ↔ e ∈ s
  live : ∀ e, (fs.fseLink e).isSome → (r.1 e).isSome
  stack : r.1 stackEntry = none

theorem live_of_frame (hframe : Avl.Frame h h' l) (hl' : ∀ x ∈ l, ∃ n, h' x = some n) {e : Entry}
    (he : (h e).isSome) : (h' e).isSome := by
  by_cases hmem : e ∈ l
  · obtain ⟨n, hn⟩ := hl' e hmem
    rw [hn]
    rfl
  · rwa [hframe e hmem]

theorem Stands.apply {r : Links Entry × AvlTree Entry} {s : Finset Entry} (hS : Stands fs r s)
    (op : TreeOp) {ops : List TreeOp} (hop : Admitted fs (op :: ops) s) :
    ∃ r', Returns (fun fuel => op.apply fuel fs r) r' ∧ Stands fs r' (op.after s) := by
  obtain ⟨l, hl, hmem⟩ := hS.holds
  have hout : stackEntry ∉ l := by
    intro hs
    obtain ⟨n, hn⟩ := hl.live _ hs
    rw [hS.stack] at hn
    cases hn
  cases op with
  | add e =>
    obtain ⟨⟨hlive, hfresh⟩, -⟩ := hop
    have he := hS.live e hlive
    obtain ⟨h', tree', l', hrun, hl', hperm, hframe⟩ :=
      hl.add (fun x hx => hfresh x ((hmem x).mp hx)) he
    have hlive' : ∀ x ∈ e :: l, ∃ n, h' x = some n := by
      intro x hx
      exact hl'.live x (hperm.mem_iff.mpr hx)
    refine ⟨(h', tree'), hrun, ⟨l', hl', fun x => ?_⟩, fun x hx => ?_, ?_⟩
    · rw [hperm.mem_iff, List.mem_cons, hmem, TreeOp.after, Finset.mem_insert]
    · exact live_of_frame hframe hlive' (hS.live x hx)
    · refine (hframe _ fun hs => ?_).trans hS.stack
      rcases List.mem_cons.mp hs with hs | hs
      · rw [← hs, hS.stack] at he
        cases he
      · exact hout hs
  | remove e =>
    obtain ⟨he, -⟩ := hop
    obtain ⟨h', tree', hrun, hl', hframe⟩ := hl.remove ((hmem e).mpr he) hS.stack
    refine ⟨(h', tree'), hrun, ⟨l.erase e, hl', fun x => ?_⟩, fun x hx => ?_, ?_⟩
    · rw [hl.nodup.mem_erase_iff, hmem, TreeOp.after, Finset.mem_erase]
    · exact live_of_frame hframe hl'.live (hS.live x hx)
    · exact (hframe _ fun hs => hout (List.mem_of_mem_erase hs)).trans hS.stack

theorem Stands.run {r : Links Entry × AvlTree Entry} {s : Finset Entry} (hS : Stands fs r s)
    {ops : List TreeOp} (hops : Admitted fs ops s) :
    ∃ r', Returns (fun fuel => treeRun fuel fs ops r) r' ∧ Stands fs r' (contents ops s) := by
  induction ops generalizing r s with
  | nil => exact ⟨r, returns_of_const fun _ => rfl, hS⟩
  | cons op ops ih =>
    obtain ⟨r₁, hop, hS₁⟩ := hS.apply op hops
    obtain ⟨r', hrun, hS'⟩ := ih hS₁ hops.2
    exact ⟨r', hop.bind hrun, hS'⟩

theorem Stands.wellFormed {r : Links Entry × AvlTree Entry} {s : Finset Entry}
    (hS : Stands fs r s) : ∃ t, TreeWellFormed fs r.1 r.2 s t := by
  obtain ⟨l, hl, hmem⟩ := hS.holds
  have hsorted := hl.sorted
  have hcount := hl.count
  obtain ⟨t, hs, hb, rfl⟩ := hl.shape
  exact ⟨t, hs.root, hs.rep, hsorted, hb, hcount, hmem⟩

end steps

/-- Every admitted sequence returns, and what it leaves is an AVL tree of the entries that are in
it by then. -/
theorem treeRun_wellFormed {fs : Fileset} {ops : List TreeOp}
    (hstack : fs.fseLink stackEntry = none) (hops : Admitted fs ops ∅) :
    ∃ h tree t, Returns (fun fuel => treeRun fuel fs ops (fs.fseLink, avlCreate)) (h, tree) ∧
      TreeWellFormed fs h tree (contents ops ∅) t := by
  have hstart : Stands fs (fs.fseLink, avlCreate) ∅ :=
    ⟨⟨[], holds_create _ _, fun e => by simp⟩, fun _ => id, hstack⟩
  obtain ⟨⟨h, tree⟩, hrun, hS⟩ := hstart.run hops
  obtain ⟨t, ht⟩ := hS.wellFormed
  exact ⟨h, tree, t, hrun, ht⟩

/-- Live entries whose index is their address. -/
def liveEntries : Fileset :=
  { Fileset.zero with
    fse := fun e => { FilesetEntry.zero with fseIndex := e }
    fseLink := fun e => if e = stackEntry then none else some ⟨fun _ => none, none, false, 0⟩ }

def threeInOneOut : List TreeOp := [.add 2, .add 1, .add 3, .remove 2]

theorem treeRun_wellFormed_three : ∃ h tree t,
    Returns (fun fuel => treeRun fuel liveEntries threeInOneOut (liveEntries.fseLink, avlCreate))
      (h, tree) ∧ TreeWellFormed liveEntries h tree (contents threeInOneOut ∅) t :=
  treeRun_wellFormed rfl ⟨⟨rfl, by decide⟩, ⟨rfl, by decide⟩, ⟨rfl, by decide⟩, by decide, trivial⟩

end Filebench

import Filebench.Lib.BinTree

/-! # Intrusive AVL trees

The routines of the AVL package on a heap of links. A link is the `avl_node` of a data node;
an address without a link is not live memory, so a read or a write there has no result. Every
loop takes fuel: a call returns when enough fuel gives a result. -/
namespace Filebench.Avl

structure AvlNode (α : Type*) where
  avlChild : Bool → Option α
  avlParent : Option α
  avlChildIndex : Bool
  avlBalance : ℤ

/-- The links of all live data nodes. -/
abbrev Links (α : Type*) := α → Option (AvlNode α)

structure AvlTree (α : Type*) where
  avlRoot : Option α
  avlNumnodes : ℕ
  deriving DecidableEq, Repr

def avlCreate {α : Type*} : AvlTree α := ⟨none, 0⟩

def avlIsEmpty {α : Type*} (tree : AvlTree α) : Bool := tree.avlNumnodes == 0

variable {α : Type*} [DecidableEq α] {κ : Type*} [LinearOrder κ]

def Links.modify (h : Links α) (a : α) (f : AvlNode α → AvlNode α) : Option (Links α) :=
  (h a).map fun n => Function.update h a (some (f n))

def Links.setChild (h : Links α) (a : α) (d : Bool) (q : Option α) : Option (Links α) :=
  h.modify a fun n => { n with avlChild := Function.update n.avlChild d q }

def Links.setParent (h : Links α) (a : α) (p : Option α) : Option (Links α) :=
  h.modify a fun n => { n with avlParent := p }

def Links.setChildIndex (h : Links α) (a : α) (d : Bool) : Option (Links α) :=
  h.modify a fun n => { n with avlChildIndex := d }

def Links.setBalance (h : Links α) (a : α) (b : ℤ) : Option (Links α) :=
  h.modify a fun n => { n with avlBalance := b }

/-- `AVL_SETPARENT` and `AVL_SETCHILD` on a child that may be NULL. -/
def Links.adopt (h : Links α) (q : Option α) (p : Option α) (d : Bool) : Option (Links α) :=
  match q with
  | none => some h
  | some a => do
    let h ← h.setParent a p
    h.setChildIndex a d

/-- Makes `q` the child of `parent`, or the root of `tree` when there is no parent. -/
def avlLink (h : Links α) (tree : AvlTree α) (parent : Option α) (whichChild : Bool)
    (q : Option α) : Option (Links α × AvlTree α) :=
  match parent with
  | none => some (h, { tree with avlRoot := q })
  | some p => do
    let h ← h.setChild p whichChild q
    some (h, tree)

/-- Down from `node` in direction `dir` as far as there are children. -/
def avlDescend (h : Links α) (dir : Bool) : ℕ → α → Option α
  | 0, _ => none
  | fuel + 1, node => do
    let n ← h node
    match n.avlChild dir with
    | none => some node
    | some c => avlDescend h dir fuel c

/-- Up through parents until a node was reached from its child `right`; NULL at the root. -/
def avlAscend (h : Links α) (right : Bool) : ℕ → α → Option (Option α)
  | 0, _ => none
  | fuel + 1, node => do
    let n ← h node
    match n.avlParent with
    | none => some none
    | some p => if n.avlChildIndex = right then some (some p) else avlAscend h right fuel p

/-- `AVL_NEXT` walks with `left = true`, `AVL_PREV` with `left = false`. The tree argument of the
source only gives the offset of the link, so the walk follows whatever tree holds the node. -/
def avlWalk (fuel : ℕ) (h : Links α) (oldnode : α) (left : Bool) : Option (Option α) := do
  let n ← h oldnode
  match n.avlChild left with
  | some c => (avlDescend h (!left) fuel c).map some
  | none => avlAscend h (!left) fuel oldnode

def avlFirst (fuel : ℕ) (h : Links α) (tree : AvlTree α) : Option (Option α) :=
  match tree.avlRoot with
  | none => some none
  | some r => (avlDescend h false fuel r).map some

/-- The result of a search: the node, or the insertion point `where`. -/
inductive AvlFind (α : Type*) where
  | found (a : α)
  | missing (prev : Option α) (child : Bool)
  deriving DecidableEq, Repr

/-- `avl_balance2child` sends a comparison below zero to child 0 and above zero to child 1. -/
def avlFindLoop (h : Links α) (key : α → κ) (k : κ) :
    ℕ → Option α → Option α → Bool → Option (AvlFind α)
  | 0, _, _, _ => none
  | _ + 1, none, prev, child => some (.missing prev child)
  | fuel + 1, some node, _, _ => do
    let n ← h node
    if k = key node then some (.found node)
    else
      let child := decide (key node < k)
      avlFindLoop h key k fuel (n.avlChild child) (some node) child

def avlFind (fuel : ℕ) (h : Links α) (tree : AvlTree α) (key : α → κ) (k : κ) :
    Option (AvlFind α) :=
  avlFindLoop h key k fuel tree.avlRoot none false

def avlNearest (fuel : ℕ) (h : Links α) (prev : Option α) (child direction : Bool) :
    Option (Option α) :=
  match prev with
  | none => some none
  | some node => if child ≠ direction then some (some node) else avlWalk fuel h node direction

/-- Restores balance at `node`, whose new balance is `-2` or `2`; the flag says that the
subtree was reduced in height. -/
def avlRotation (h : Links α) (tree : AvlTree α) (node : α) (balance : ℤ) :
    Option (Links α × AvlTree α × Bool) := do
  let left := !decide (balance < 0)
  let right := !left
  let leftHeavy := balance / 2
  let rightHeavy := -leftHeavy
  let n ← h node
  let parent := n.avlParent
  let child ← n.avlChild left
  let whichChild := n.avlChildIndex
  let c ← h child
  if c.avlBalance ≠ rightHeavy then
    let childBal := c.avlBalance + rightHeavy
    -- move "cright" to be node's left child
    let cright := c.avlChild right
    let h ← h.setChild node left cright
    let h ← h.adopt cright (some node) left
    -- move node to be child's right child
    let h ← h.setChild child right (some node)
    let h ← h.setBalance node (-childBal)
    let h ← h.setChildIndex node right
    let h ← h.setParent node (some child)
    -- update the pointer into this subtree
    let h ← h.setBalance child childBal
    let h ← h.setChildIndex child whichChild
    let h ← h.setParent child parent
    let (h, tree) ← avlLink h tree parent whichChild (some child)
    some (h, tree, decide (childBal = 0))
  else
    let gchild ← c.avlChild right
    let g ← h gchild
    let gleft := g.avlChild left
    let gright := g.avlChild right
    -- move gright to left child of node and gleft to right child of node
    let h ← h.setChild node left gright
    let h ← h.adopt gright (some node) left
    let h ← h.setChild child right gleft
    let h ← h.adopt gleft (some child) right
    -- move child to left child of gchild and node to right child of gchild
    let balance := g.avlBalance
    let h ← h.setChild gchild left (some child)
    let h ← h.setBalance child (if balance = rightHeavy then leftHeavy else 0)
    let h ← h.setParent child (some gchild)
    let h ← h.setChildIndex child left
    let h ← h.setChild gchild right (some node)
    let h ← h.setBalance node (if balance = leftHeavy then rightHeavy else 0)
    let h ← h.setParent node (some gchild)
    let h ← h.setChildIndex node right
    let h ← h.setBalance gchild 0
    let h ← h.setParent gchild parent
    let h ← h.setChildIndex gchild whichChild
    let (h, tree) ← avlLink h tree parent whichChild (some gchild)
    some (h, tree, true)

/-- `avl_child2balance` -/
def avlChild2balance (d : Bool) : ℤ := bif d then 1 else -1

/-- Back up the tree after an insertion, below `parent` on the side `whichChild`. -/
def avlInsertLoop (h : Links α) (tree : AvlTree α) :
    ℕ → Option α → Bool → Option (Links α × AvlTree α)
  | 0, _, _ => none
  | _ + 1, none, _ => some (h, tree)
  | fuel + 1, some node, whichChild => do
    let n ← h node
    let oldBalance := n.avlBalance
    let newBalance := oldBalance + avlChild2balance whichChild
    if newBalance = 0 then
      let h ← h.setBalance node 0
      some (h, tree)
    else if oldBalance ≠ 0 then
      let (h, tree, _) ← avlRotation h tree node newBalance
      some (h, tree)
    else
      let h ← h.setBalance node newBalance
      avlInsertLoop h tree fuel n.avlParent n.avlChildIndex

/-- Inserts `node` at the place `(parent, whichChild)` that a search delivered. -/
def avlInsert (fuel : ℕ) (h : Links α) (tree : AvlTree α) (node : α) (parent : Option α)
    (whichChild : Bool) : Option (Links α × AvlTree α) := do
  let tree := { tree with avlNumnodes := tree.avlNumnodes + 1 }
  let h ← h.modify node fun _ => ⟨fun _ => none, parent, whichChild, 0⟩
  let (h, tree) ← avlLink h tree parent whichChild (some node)
  avlInsertLoop h tree fuel parent whichChild

/-- A node whose key is already in the tree is not inserted. -/
def avlAdd (fuel : ℕ) (h : Links α) (tree : AvlTree α) (key : α → κ) (node : α) :
    Option (Links α × AvlTree α) := do
  match ← avlFind fuel h tree key (key node) with
  | .found _ => some (h, tree)
  | .missing prev child => avlInsert fuel h tree node prev child

/-- The children of `node`, which has two, get `node` as their parent. -/
def avlAdoptChildren (h : Links α) (node : α) (left : Bool) : Option (Links α) := do
  let n ← h node
  let h ← h.setParent (← n.avlChild left) (some node)
  let n ← h node
  h.setParent (← n.avlChild (!left)) (some node)

/-- Puts `tmp` where the node that it is a copy of used to be. -/
def avlPutTmp (h : Links α) (tmp : α) : Option (Links α) := do
  let t ← h tmp
  let h ← h.setChild (← t.avlParent) t.avlChildIndex (some tmp)
  let t ← h tmp
  match t.avlChild (t.avlChild true).isSome with
  | none => some h
  | some y => h.setParent y (some tmp)

/-- Swaps `delete`, which has two children, with a neighbour in key order: the neighbour takes
the place of `delete` and the local variable `tmp` that of the neighbour. -/
def avlSwap (tmp : α) (fuel : ℕ) (h : Links α) (tree : AvlTree α) (delete : α) :
    Option (Links α × AvlTree α) := do
  let dn ← h delete
  -- choose node to swap from whichever side is taller
  let left := decide (0 < dn.avlBalance)
  let node ← avlDescend h (!left) fuel (← dn.avlChild left)
  let nn ← h node
  let h : Links α := Function.update (Function.update h tmp (some nn)) node (some dn)
  let h ← (if dn.avlChild left = some node then h.setChild node left (some tmp) else some h)
  let (h, tree) ← avlLink h tree dn.avlParent dn.avlChildIndex (some node)
  let h ← avlAdoptChildren h node left
  let h ← avlPutTmp h tmp
  some (h, tree)

/-- Back up the tree after a removal, below `node` on the side `whichChild`. -/
def avlRemoveLoop (h : Links α) (tree : AvlTree α) :
    ℕ → α → Bool → Option (Links α × AvlTree α)
  | 0, _, _ => none
  | fuel + 1, node, whichChild => do
    let n ← h node
    let oldBalance := n.avlBalance
    let newBalance := oldBalance - avlChild2balance whichChild
    if oldBalance = 0 then
      let h ← h.setBalance node newBalance
      some (h, tree)
    else do
      let (h, tree, reduced) ←
        if newBalance = 0 then do
          let h ← h.setBalance node newBalance
          some (h, tree, true)
        else avlRotation h tree node newBalance
      match reduced, n.avlParent with
      | true, some parent => avlRemoveLoop h tree fuel parent n.avlChildIndex
      | _, _ => some (h, tree)

/-- Unlinks `delete`, which has at most one child. A tree that counts no node is left alone. -/
def avlUnlink (fuel : ℕ) (h : Links α) (tree : AvlTree α) (delete : α) :
    Option (Links α × AvlTree α) := do
  if tree.avlNumnodes = 0 then some (h, tree)
  else
    let tree := { tree with avlNumnodes := tree.avlNumnodes - 1 }
    let dn ← h delete
    let parent := dn.avlParent
    let whichChild := dn.avlChildIndex
    let node := if (dn.avlChild false).isSome then dn.avlChild false else dn.avlChild true
    let h ← h.adopt node parent whichChild
    let (h, tree) ← avlLink h tree parent whichChild node
    match parent with
    | none => some (h, tree)
    | some p => avlRemoveLoop h tree fuel p whichChild

/-- Removes `data` from `tree`. `tmp` is the address of the local variable of the source: it is
dead again when the call returns, on the error path too. -/
def avlRemove (tmp : α) (fuel : ℕ) (h : Links α) (tree : AvlTree α) (data : α) :
    Option (Links α × AvlTree α) := do
  let dn ← h data
  let (h, tree) ←
    if (dn.avlChild false).isSome ∧ (dn.avlChild true).isSome then do
      let (h, tree) ← avlSwap tmp fuel h tree data
      avlUnlink fuel h tree tmp
    else avlUnlink fuel h tree data
  some (Function.update h tmp none, tree)

end Filebench.Avl

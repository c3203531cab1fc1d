import Filebench.Avl.Holds

/-! # Nodes that are placed or moved by hand

A caller that knows a neighbour of a new node has it put next to that one without a search. A
caller that changed the key of a node has it moved to its new place, if it is out of order. -/
namespace Filebench.Avl

open Fuel

variable {α : Type*} [DecidableEq α] {κ : Type*} [LinearOrder κ]

/-- `direction` is `AVL_AFTER` or `AVL_BEFORE`. -/
def avlInsertHere (fuel : ℕ) (h : Links α) (tree : AvlTree α) (newData here : α)
    (direction : Bool) : Option (Links α × AvlTree α) := do
  let n ← h here
  match n.avlChild direction with
  | none => avlInsert fuel h tree newData (some here) direction
  | some c =>
    -- go to the neighbour and reverse the direction
    let node ← avlDescend h (!direction) fuel c
    avlInsert fuel h tree newData (some node) (!direction)

/-- `AVL_REINSERT` -/
def avlReinsert (tmp : α) (fuel : ℕ) (h : Links α) (tree : AvlTree α) (key : α → κ) (obj : α) :
    Option (Bool × Links α × AvlTree α) := do
  let (h, tree) ← avlRemove tmp fuel h tree obj
  let (h, tree) ← avlAdd fuel h tree key obj
  some (true, h, tree)

/-- The neighbour in a direction is on the wrong side. -/
def avlMisplaced (key : α → κ) (obj : α) (direction : Bool) (neighbor : Option α) : Bool :=
  neighbor.any fun x => bif direction then decide (key x < key obj) else decide (key obj < key x)

def avlUpdate (tmp : α) (fuel : ℕ) (h : Links α) (tree : AvlTree α) (key : α → κ) (obj : α) :
    Option (Bool × Links α × AvlTree α) := do
  let prev ← avlWalk fuel h obj false
  if avlMisplaced key obj false prev then avlReinsert tmp fuel h tree key obj
  else
    let next ← avlWalk fuel h obj true
    if avlMisplaced key obj true next then avlReinsert tmp fuel h tree key obj
    else some (false, h, tree)

/-- `avl_update_lt` with `direction` false and `avl_update_gt` with `direction` true: the node may
have moved in that direction only. -/
def avlUpdateToward (direction : Bool) (tmp : α) (fuel : ℕ) (h : Links α) (tree : AvlTree α)
    (key : α → κ) (obj : α) : Option (Bool × Links α × AvlTree α) := do
  let behind ← avlWalk fuel h obj (!direction)
  if avlMisplaced key obj (!direction) behind then some (false, h, tree)
  else
    let ahead ← avlWalk fuel h obj direction
    if avlMisplaced key obj direction ahead then avlReinsert tmp fuel h tree key obj
    else some (false, h, tree)

def avlUpdateLt (tmp : α) (fuel : ℕ) (h : Links α) (tree : AvlTree α) (key : α → κ) (obj : α) :
    Option (Bool × Links α × AvlTree α) := avlUpdateToward false tmp fuel h tree key obj

def avlUpdateGt (tmp : α) (fuel : ℕ) (h : Links α) (tree : AvlTree α) (key : α → κ) (obj : α) :
    Option (Bool × Links α × AvlTree α) := avlUpdateToward true tmp fuel h tree key obj

open BinTree BinTree.BalTree

variable {h h' : Links α} {tree : AvlTree α} {key key' : α → κ} {l l₁ l₂ : List α} {a here : α}

/-! ## Placing a node -/

theorem before_append (π ρ : Path α) : before (π ++ ρ) = before ρ ++ before π := by
  induction π with
  | nil => simp [before]
  | cons c π ih => simp [before, ih]

theorem after_append (π ρ : Path α) : after (π ++ ρ) = after π ++ after ρ := by
  induction π with
  | nil => simp [after]
  | cons c π ih => simp [after, ih]

/-- The place of a new node next to `here`. -/
theorem exists_place {t : BalTree α} (hs : Shows h tree t) (hhere : here ∈ t.inorder)
    (direction : Bool) {fuel : ℕ} (hfuel : t.inorder.length < fuel) (newData : α) :
    ∃ π, t = plug π nil ∧
      avlInsertHere fuel h tree newData here direction =
        avlInsert fuel h tree newData (parentOf π) (dirOf π) ∧
      (bif direction then (before π).getLast? else (after π).head?) = some here := by
  obtain ⟨π, l, b, r, rfl⟩ := exists_focus hhere
  rw [node_eq_mk direction] at hs hfuel ⊢
  generalize (BalTree.node l here b r).sub direction = x at hs hfuel ⊢
  generalize (BalTree.node l here b r).sub (!direction) = y at hs hfuel ⊢
  obtain ⟨hlink, hx, -⟩ := rep_mk.mp hs.focus
  cases hroot : x.root with
  | none =>
    have hnil : x = nil := by
      cases x with
      | nil => rfl
      | node => cases hroot
    subst hnil
    refine ⟨⟨direction, here, b, y⟩ :: π, rfl, ?_, ?_⟩
    · simp [avlInsertHere, hlink, root, parentOf, dirOf]
    · cases direction <;> simp [before, after]
  | some c =>
    obtain ⟨ρ, p, pb, z, hρ, hdirs⟩ := exists_edge (!direction) hroot
    rw [Bool.not_not] at hρ
    have hlen := length_plug π (mk direction here b x y)
    have hheight := height_le_length x
    have hxlen : x.inorder.length ≤ (mk direction here b x y).inorder.length := by
      rw [(inorder_mk_perm ..).length_eq, List.length_cons, List.length_append]
      omega
    have hdescend : avlDescend h (!direction) fuel c = some p := by
      rw [avlDescend_rep (!direction) hx hroot (by omega), hρ]
      have hedge := edge_plug (!direction) p pb z hdirs
      rwa [Bool.not_not] at hedge
    refine ⟨⟨!direction, p, pb, z⟩ :: (ρ ++ ⟨direction, here, b, y⟩ :: π), ?_, ?_, ?_⟩
    · rw [plug, plug_append, mk_not, ← hρ]
      rfl
    · simp [avlInsertHere, hlink, hroot, hdescend, parentOf, dirOf]
    · cases direction with
      | false => simp [after, after_append, after_eq_nil hdirs]
      | true => simp [before, before_append, before_eq_nil hdirs]

theorem avlInsertHere_steady (h : Links α) (tree : AvlTree α) (newData here : α)
    (direction : Bool) : Steady fun fuel => avlInsertHere fuel h tree newData here direction := by
  refine (steady_const (h here)).bind fun n => ?_
  cases n.avlChild direction with
  | none => exact avlInsert_steady h tree newData (some here) direction
  | some c =>
    exact (avlDescend_steady h (!direction) c).bind fun node =>
      avlInsert_steady h tree newData (some node) (!direction)

/-- A list without repetitions is split at an element in one way. -/
theorem split_unique {u v : List α} (hn : (u ++ a :: v).Nodup) (heq : u ++ a :: v = l₁ ++ a :: l₂) :
    u = l₁ ∧ v = l₂ := by
  have hu : a ∉ u := fun hm => (List.nodup_append.mp hn).2.2 a hm a (.head _) rfl
  have hv : a ∉ v := (List.nodup_cons.mp hn.of_append_right).1
  obtain ⟨h₁, -, h₂⟩ := (List.append_cons_inj_of_notMem hu hv).mp heq
  exact ⟨h₁, h₂⟩

/-- A node that is put next to one of the tree comes right before it or right after it in key
order, if its key fits there. -/
theorem avlInsertHere_holds (hh : Holds h tree key (l₁ ++ here :: l₂)) (direction : Bool)
    (hnew : a ∉ l₁ ++ here :: l₂) (hlive : (h a).isSome)
    (hfits : (l₁ ++ (bif direction then [here, a] else [a, here]) ++ l₂).Pairwise
      (key · < key ·)) :
    ∃ h' tree', Returns (fun fuel => avlInsertHere fuel h tree a here direction) (h', tree') ∧
      Holds h' tree' key (l₁ ++ (bif direction then [here, a] else [a, here]) ++ l₂) ∧
      Frame h h' (a :: (l₁ ++ here :: l₂)) := by
  have hn := hh.nodup
  have hcount := hh.count
  obtain ⟨n, hlive⟩ := Option.isSome_iff_exists.mp hlive
  obtain ⟨t, hs, hb, hin⟩ := hh.shape
  have hhere : here ∈ t.inorder := by
    rw [hin]
    simp
  obtain ⟨π, rfl, hplace, hend⟩ := exists_place hs hhere direction (Nat.lt_succ_self _) a
  obtain ⟨h', tree', hrun, hs', hf, hnum⟩ := avlInsert_shows hs (hin ▸ hn) hb (hin ▸ hnew) hlive
    (Nat.lt_succ_self _)
  have hlist : before π ++ after π = l₁ ++ here :: l₂ := by
    rw [← hin, inorder_plug, inorder, List.append_nil]
  have horder : before π ++ a :: after π =
      l₁ ++ (bif direction then [here, a] else [a, here]) ++ l₂ := by
    rw [← hlist] at hn
    cases direction with
    | true =>
      obtain ⟨u, hu⟩ := List.getLast?_eq_some_iff.mp hend
      rw [hu, List.append_assoc] at hlist hn
      obtain ⟨rfl, rfl⟩ := split_unique hn hlist
      simp [hu]
    | false =>
      obtain ⟨v, hv⟩ := List.head?_eq_some_iff.mp hend
      rw [hv] at hlist hn
      obtain ⟨rfl, rfl⟩ := split_unique hn hlist
      simp [hv]
  refine ⟨h', tree', (avlInsertHere_steady h tree a here direction).returns (hplace ▸ hrun),
    ⟨⟨_, hs', Holds.balanced_insertion (balanced_plug.mp hb).2 a, ?_⟩, hfits, ?_⟩, hin ▸ hf⟩
  · rw [Holds.inorder_insertion, horder]
  · rw [hnum, hcount, ← horder, ← hlist]
    simp only [List.length_append, List.length_cons]
    omega

theorem avlInsertHere_holds_pair :
    ∃ h' tree', Returns (fun fuel => avlInsertHere fuel pairLinks pairTree 3 2 true) (h', tree') ∧
      Holds h' tree' id [1, 2, 3] := by
  obtain ⟨h', tree', hrun, hh, -⟩ := avlInsertHere_holds (a := 3)
    (show Holds pairLinks pairTree id ([1] ++ 2 :: []) from pairTree_holds) true (by decide) rfl
    (by decide)
  exact ⟨h', tree', hrun, hh⟩

/-! ## Moving a node -/

theorem Holds.prev (hh : Holds h tree key (l₁ ++ a :: l₂)) {fuel : ℕ}
    (hfuel : (l₁ ++ a :: l₂).length < fuel) : avlWalk fuel h a false = some l₁.getLast? := by
  have hn := hh.nodup
  obtain ⟨t, hs, -, hin⟩ := hh.shape
  have ha : a ∈ t.inorder := by
    rw [hin]
    simp
  rw [← hin] at hfuel
  obtain ⟨π, l, b, r, rfl⟩ := exists_focus ha
  rw [avlWalk_prev_focus hs hfuel]
  have hfocus : (before π ++ l.inorder) ++ a :: (r.inorder ++ after π) = l₁ ++ a :: l₂ := by
    rw [← hin, inorder_plug, inorder]
    simp
  rw [(split_unique (hfocus ▸ hn) hfocus).1]

/-- The other nodes keep their keys. -/
theorem sides_key (hn : (l₁ ++ a :: l₂).Nodup)
    (hkey : ∀ x ∈ l₁ ++ a :: l₂, x ≠ a → key' x = key x) : ∀ x ∈ l₁ ++ l₂, key' x = key x := by
  intro x hx
  refine hkey x ?_ ?_
  · rcases List.mem_append.mp hx with hx | hx
    · exact List.mem_append_left _ hx
    · exact List.mem_append_right _ (.tail _ hx)
  · rintro rfl
    rcases List.mem_append.mp hx with hx | hx
    · exact (List.nodup_append.mp hn).2.2 x hx x (.head _) rfl
    · exact (List.nodup_cons.mp hn.of_append_right).1 hx

theorem avlMisplaced_eq_false {direction : Bool} {neighbor : Option α}
    (h : ∀ x ∈ neighbor, bif direction then key a ≤ key x else key x ≤ key a) :
    avlMisplaced key a direction neighbor = false := by
  cases neighbor with
  | none => rfl
  | some x =>
    have hx := h x rfl
    cases direction with
    | false => exact decide_eq_false (not_lt.mpr hx)
    | true => exact decide_eq_false (not_lt.mpr hx)

/-- The neighbours decide whether a node whose key was changed is in order. -/
theorem pairwise_le_iff (hsorted : (l₁ ++ a :: l₂).Pairwise (key · < key ·))
    (hkey : ∀ x ∈ l₁ ++ l₂, key' x = key x) :
    (l₁ ++ a :: l₂).Pairwise (key' · ≤ key' ·) ↔
      avlMisplaced key' a false l₁.getLast? = false ∧
        avlMisplaced key' a true l₂.head? = false := by
  obtain ⟨h₁, hrest, hcross⟩ := List.pairwise_append.mp hsorted
  obtain ⟨-, h₂⟩ := List.pairwise_cons.mp hrest
  have hkey₁ : ∀ x ∈ l₁, key' x = key x := fun x hx => hkey x (List.mem_append_left _ hx)
  have hkey₂ : ∀ x ∈ l₂, key' x = key x := fun x hx => hkey x (List.mem_append_right _ hx)
  have hprev : avlMisplaced key' a false l₁.getLast? = false ↔ ∀ x ∈ l₁, key' x ≤ key' a := by
    rcases List.eq_nil_or_concat l₁ with rfl | ⟨u, p, rfl⟩
    · simp [avlMisplaced]
    · rw [List.concat_eq_append] at h₁ hkey₁ ⊢
      have hlast : ∀ x ∈ u, key' x ≤ key' p := by
        intro x hx
        rw [hkey₁ x (by simp [hx]), hkey₁ p (by simp)]
        exact ((List.pairwise_append.mp h₁).2.2 x hx p (.head _)).le
      simp only [avlMisplaced, List.getLast?_concat, Option.any_some, cond_false,
        decide_eq_false_iff_not, not_lt, List.mem_append, List.mem_singleton]
      constructor
      · rintro hp x (hx | rfl)
        · exact (hlast x hx).trans hp
        · exact hp
      · exact fun hall => hall p (.inr rfl)
  have hnext : avlMisplaced key' a true l₂.head? = false ↔ ∀ x ∈ l₂, key' a ≤ key' x := by
    cases l₂ with
    | nil => simp [avlMisplaced]
    | cons p v =>
      have hfirst : ∀ x ∈ v, key' p ≤ key' x := by
        intro x hx
        rw [hkey₂ x (.tail _ hx), hkey₂ p (.head _)]
        exact ((List.pairwise_cons.mp h₂).1 x hx).le
      simp only [avlMisplaced, List.head?_cons, Option.any_some, cond_true,
        decide_eq_false_iff_not, not_lt, List.mem_cons]
      constructor
      · rintro hp x (rfl | hx)
        · exact hp
        · exact hp.trans (hfirst x hx)
      · exact fun hall => hall p (.inl rfl)
  rw [hprev, hnext, List.pairwise_append, List.pairwise_cons]
  constructor
  · rintro ⟨-, ⟨hnext, -⟩, hcross'⟩
    exact ⟨fun x hx => hcross' x hx a (.head _), hnext⟩
  · rintro ⟨hprev, hnext⟩
    refine ⟨h₁.imp_of_mem fun hx hy hlt => ?_, ⟨hnext, h₂.imp_of_mem fun hx hy hlt => ?_⟩, ?_⟩
    · rw [hkey₁ _ hx, hkey₁ _ hy]
      exact hlt.le
    · rw [hkey₂ _ hx, hkey₂ _ hy]
      exact hlt.le
    · intro x hx y hy
      rcases List.mem_cons.mp hy with rfl | hy
      · exact hprev x hx
      · rw [hkey₁ x hx, hkey₂ y hy]
        exact (hcross x hx y (.tail _ hy)).le

/-- A node is not added to a tree with another node of its key. -/
theorem Holds.add_taken (hh : Holds h tree key l) {x : α} (hx : x ∈ l) (hkey : key x = key a) :
    Returns (fun fuel => avlAdd fuel h tree key a) (h, tree) := by
  obtain ⟨r, hrun, hr⟩ := hh.find (key a) (Nat.lt_succ_self l.length)
  cases r with
  | missing prev child => exact absurd hkey (hr.1 x hx)
  | found y =>
    have hadd : avlAdd (l.length + 1) h tree key a = some (h, tree) := by
      simp [avlAdd, hrun]
    exact (avlAdd_steady h tree key a).returns hadd

/-- Where a node goes whose key was changed. -/
structure Moved (h : Links α) (key : α → κ) (l : List α) (a : α) (h' : Links α)
    (tree' : AvlTree α) : Prop where
  frame : Frame h h' l
  fresh : (∀ x ∈ l, x ≠ a → key x ≠ key a) → ∃ l', Holds h' tree' key l' ∧ l'.Perm l
  taken : (∃ x ∈ l, x ≠ a ∧ key x = key a) → Holds h' tree' key (l.erase a)

theorem avlReinsert_moved (hh : Holds h tree key l) (ha : a ∈ l)
    (hkey : ∀ x ∈ l, x ≠ a → key' x = key x) {tmp : α} (htmp : h tmp = none) :
    ∃ h' tree', Returns (fun fuel => avlReinsert tmp fuel h tree key' a) (true, h', tree') ∧
      Moved h key' l a h' tree' := by
  have hn := hh.nodup
  obtain ⟨h₁, tree₁, hremove, hh₁, hf₁⟩ := hh.remove ha htmp
  have hrest : Holds h₁ tree₁ key' (l.erase a) := hh₁.rekey fun x hx =>
    hkey x (List.mem_of_mem_erase hx) ((hn.mem_erase_iff.mp hx).1)
  have hframe : ∀ x ∉ l, h₁ x = h x := fun x hx => hf₁ x fun hm => hx (List.mem_of_mem_erase hm)
  have hmem : ∀ x, x ∈ l.erase a ↔ x ≠ a ∧ x ∈ l := fun x => hn.mem_erase_iff
  have hreinsert : ∀ {h₂ tree₂}, Returns (fun fuel => avlAdd fuel h₁ tree₁ key' a) (h₂, tree₂) →
      Returns (fun fuel => avlReinsert tmp fuel h tree key' a) (true, h₂, tree₂) := by
    intro h₂ tree₂ hadd
    have hpair : Returns (fun fuel => (avlAdd fuel h₁ tree₁ key' a).bind fun r =>
        some (true, r.1, r.2)) (true, h₂, tree₂) :=
      hadd.bind (g := fun _ r => some (true, r.1, r.2)) (returns_of_const fun _ => rfl)
    exact hremove.bind (g := fun fuel r => (avlAdd fuel r.1 r.2 key' a).bind fun r =>
      some (true, r.1, r.2)) hpair
  by_cases htaken : ∃ x ∈ l, x ≠ a ∧ key' x = key' a
  · obtain ⟨x, hx, hxa, hkeyx⟩ := htaken
    have hadd := hrest.add_taken (a := a) ((hmem x).mpr ⟨hxa, hx⟩) hkeyx
    refine ⟨h₁, tree₁, hreinsert hadd, hframe, fun hfresh => ?_, fun _ => hrest⟩
    exact absurd hkeyx (hfresh x hx hxa)
  · have hfresh : ∀ x ∈ l.erase a, key' x ≠ key' a := fun x hx heq =>
      htaken ⟨x, ((hmem x).mp hx).2, ((hmem x).mp hx).1, heq⟩
    have hlive : (h₁ a).isSome := by
      rw [hf₁ a fun hm => ((hmem a).mp hm).1 rfl]
      obtain ⟨n, hlink⟩ := hh.live a ha
      rw [hlink]
      rfl
    obtain ⟨h₂, tree₂, l', hadd, hh₂, hperm, hf₂⟩ := hrest.add hfresh hlive
    refine ⟨h₂, tree₂, hreinsert hadd, fun x hx => ?_, fun _ => ⟨l', hh₂, ?_⟩,
      fun htaken' => absurd htaken' htaken⟩
    · rw [hf₂ x fun hm => ?_, hframe x hx]
      rcases List.mem_cons.mp hm with rfl | hm
      · exact hx ha
      · exact hx (List.mem_of_mem_erase hm)
    · exact hperm.trans (List.perm_cons_erase ha).symm

/-- The node stays when the tree is in order with its new key, where equal keys may be next to each
other. Else it moves to its new place, unless another node has that key: then the tree loses it. -/
theorem avlUpdate_moves (hh : Holds h tree key l) (ha : a ∈ l)
    (hkey : ∀ x ∈ l, x ≠ a → key' x = key x) {tmp : α} (htmp : h tmp = none) :
    ∃ moved h' tree', Returns (fun fuel => avlUpdate tmp fuel h tree key' a) (moved, h', tree') ∧
      (moved = false ↔ l.Pairwise (key' · ≤ key' ·)) ∧
      (moved = false → h' = h ∧ tree' = tree) ∧
      (moved = true → Moved h key' l a h' tree') := by
  obtain ⟨h', tree', hreinsert, hmoved⟩ := avlReinsert_moved hh ha hkey htmp
  obtain ⟨l₁, l₂, rfl⟩ := List.append_of_mem ha
  have horder := pairwise_le_iff hh.sorted (sides_key hh.nodup hkey)
  have hrun : ∀ fuel, (l₁ ++ a :: l₂).length < fuel → avlUpdate tmp fuel h tree key' a =
      if avlMisplaced key' a false l₁.getLast? || avlMisplaced key' a true l₂.head? then
        avlReinsert tmp fuel h tree key' a
      else some (false, h, tree) := by
    intro fuel hfuel
    simp only [avlUpdate, hh.prev hfuel, hh.next rfl hfuel, Option.bind_eq_bind, Option.bind_some]
    cases avlMisplaced key' a false l₁.getLast? <;> simp
  cases hmis : avlMisplaced key' a false l₁.getLast? || avlMisplaced key' a true l₂.head? with
  | true =>
    refine ⟨true, h', tree', hreinsert.congr (N := (l₁ ++ a :: l₂).length + 1) fun fuel hfuel => ?_,
      ?_, ?_, fun _ => hmoved⟩
    · rw [hrun fuel hfuel, hmis, if_pos rfl]
    · rw [horder]
      constructor
      · intro h
        cases h
      · rintro ⟨hp, hnx⟩
        rw [hp, hnx] at hmis
        exact absurd hmis Bool.false_ne_true
    · intro h
      cases h
  | false =>
    refine ⟨false, h, tree, ⟨(l₁ ++ a :: l₂).length + 1, fun fuel hfuel => ?_⟩, ?_,
      fun _ => ⟨rfl, rfl⟩, ?_⟩
    · exact (hrun fuel hfuel).trans (if_neg (by rw [hmis]; exact Bool.false_ne_true))
    · rw [horder]
      exact ⟨fun _ => Bool.or_eq_false_iff.mp hmis, fun _ => rfl⟩
    · intro h
      cases h

/-- The key of the first node becomes that of the second one, or greater. -/
def raised (key : ℕ) : ℕ → ℕ := Function.update id 1 key

theorem avlUpdate_moves_pair :
    ∃ moved h' tree', Returns (fun fuel => avlUpdate 0 fuel pairLinks pairTree (raised 5) 1)
        (moved, h', tree') ∧ (moved = true → ∃ l', Holds h' tree' (raised 5) l' ∧ l'.Perm [1, 2]) := by
  obtain ⟨moved, h', tree', hrun, -, -, hmoved⟩ := avlUpdate_moves pairTree_holds
    (show 1 ∈ [1, 2] by decide) (show ∀ x ∈ [1, 2], x ≠ 1 → raised 5 x = id x by decide)
    (show pairLinks 0 = none from rfl)
  exact ⟨moved, h', tree', hrun, fun hm => (hmoved hm).fresh (by decide)⟩

/-- Where the key went in one direction only, the routine for that direction does the same as the
one for both. -/
theorem avlUpdateToward_eq (hh : Holds h tree key l) (ha : a ∈ l)
    (hkey : ∀ x ∈ l, x ≠ a → key' x = key x) (direction : Bool)
    (htoward : bif direction then key a ≤ key' a else key' a ≤ key a) (tmp : α) {fuel : ℕ}
    (hfuel : l.length < fuel) :
    (bif direction then avlUpdateGt tmp fuel h tree key' a
      else avlUpdateLt tmp fuel h tree key' a) = avlUpdate tmp fuel h tree key' a := by
  obtain ⟨l₁, l₂, rfl⟩ := List.append_of_mem ha
  obtain ⟨-, hrest, hcross⟩ := List.pairwise_append.mp hh.sorted
  have hsides := sides_key hh.nodup hkey
  have hprev := hh.prev hfuel
  have hnext := hh.next rfl hfuel
  cases direction with
  | true =>
    have hstay : avlMisplaced key' a false l₁.getLast? = false := by
      apply avlMisplaced_eq_false
      intro x hx
      have hx₁ := List.mem_of_getLast? hx
      rw [cond_false, hsides x (List.mem_append_left _ hx₁)]
      exact (hcross x hx₁ a (.head _)).le.trans htoward
    simp only [cond_true, avlUpdateGt, avlUpdateToward, avlUpdate, Bool.not_true, hprev, hnext,
      Option.bind_eq_bind, Option.bind_some, hstay, Bool.false_eq_true, if_false]
  | false =>
    have hstay : avlMisplaced key' a true l₂.head? = false := by
      apply avlMisplaced_eq_false
      intro x hx
      have hx₂ := List.mem_of_mem_head? hx
      rw [cond_true, hsides x (List.mem_append_right _ hx₂)]
      exact le_trans htoward ((List.pairwise_cons.mp hrest).1 x hx₂).le
    simp only [cond_false, avlUpdateLt, avlUpdateToward, avlUpdate, Bool.not_false, hprev, hnext,
      Option.bind_eq_bind, Option.bind_some, hstay, Bool.false_eq_true, if_false]

theorem avlUpdateToward_eq_pair :
    avlUpdateGt 0 3 pairLinks pairTree (raised 5) 1 =
      avlUpdate 0 3 pairLinks pairTree (raised 5) 1 :=
  avlUpdateToward_eq pairTree_holds (show 1 ∈ [1, 2] by decide)
    (show ∀ x ∈ [1, 2], x ≠ 1 → raised 5 x = id x by decide) true
    (show id 1 ≤ raised 5 1 by decide) 0 (by decide)

end Filebench.Avl

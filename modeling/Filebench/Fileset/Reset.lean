import Filebench.Avl.Empty
import Filebench.Fileset.Run

/-! # Resetting a fileset

`fileset_pickreset` is to put all entries of a type on the free tree again. It looks for the next
entry after it has moved one, and so it goes on in the tree that the entry is in by then. -/
namespace Filebench

open Avl BinTree Fuel

/-- What is written to an entry before it is moved. -/
def FilesetEntry.marked (n : FilesetEntry) : FilesetEntry :=
  { n with fseFlags := { n.fseFlags with free := true }, fseOpenCnt := 0 }

/-- One of the loops, from `entry` on. -/
def pickresetLoop (fuel : ℕ) (src dst : FsTree) : ℕ → Option Entry → Fileset → Option Fileset
  | _, none, fs => some fs
  | 0, some _, _ => none
  | n + 1, some entry, fs => do
    let fs ← filesetMoveEntry fuel (fs.setFse entry FilesetEntry.marked) src dst entry
    let next ← avlWalk fuel fs.fseLink entry true
    pickresetLoop fuel src dst n next fs

def pickresetTree (fuel : ℕ) (src dst : FsTree) (fs : Fileset) : Option Fileset := do
  let entry ← avlFirst fuel fs.fseLink (fs.fsTree src)
  pickresetLoop fuel src dst fuel entry fs

def filesetPickreset (fuel : ℕ) (fs : Fileset) : FseType → Option Fileset
  | .file => do
    let fs ← pickresetTree fuel .noexFiles .freeFiles fs
    pickresetTree fuel .existFiles .freeFiles fs
  | .dir => some fs
  | .leafdir => do
    let fs ← pickresetTree fuel .noexLeafDirs .freeLeafDirs fs
    pickresetTree fuel .existLeafDirs .freeLeafDirs fs

theorem filesetPickreset_eq {ty : FseType} (hty : ty ≠ .dir) (fuel : ℕ) (fs : Fileset) :
    filesetPickreset fuel fs ty =
      (pickresetTree fuel (noexTree ty) (freeTree ty) fs).bind fun fs =>
        pickresetTree fuel (existTree ty) (freeTree ty) fs := by
  cases ty with
  | file => rfl
  | dir => exact absurd rfl hty
  | leafdir => rfl

/-! ## One step -/

section step

variable {fuel n : ℕ} {fs fs' : Fileset} {src dst : FsTree} {e : Entry} {X : Set Entry}

@[simp] theorem setFse_marked_key (fs : Fileset) (e : Entry) :
    (fs.setFse e FilesetEntry.marked).key = fs.key := by
  funext x
  simp only [Fileset.key, setFse_fse]
  split
  next h => rw [h]; rfl
  next => rfl

theorem filesetMoveEntry_cases (hne : src ≠ dst)
    (hrun : filesetMoveEntry fuel fs src dst e = some fs') :
    ∃ h₁ S h₂ D, avlRemove stackEntry fuel fs.fseLink (fs.fsTree src) e = some (h₁, S) ∧
      avlAdd fuel h₁ (fs.fsTree dst) fs.key e = some (h₂, D) ∧
      fs' = fs.withTrees h₂ (Function.update (Function.update fs.fsTree src S) dst D) := by
  unfold filesetMoveEntry at hrun
  obtain ⟨⟨h₁, S⟩, hremove, hrun⟩ := Option.bind_eq_some_iff.mp hrun
  obtain ⟨⟨h₂, D⟩, hadd, hret⟩ := Option.bind_eq_some_iff.mp hrun
  refine ⟨h₁, S, h₂, D, hremove, ?_, (Option.some.inj hret).symm⟩
  rw [← hadd]
  dsimp only
  rw [Function.update_of_ne hne.symm]
  rfl

theorem filesetMoveEntry_of {h₁ h₂ : Links Entry} {S D : AvlTree Entry} (hne : src ≠ dst)
    (hremove : avlRemove stackEntry fuel fs.fseLink (fs.fsTree src) e = some (h₁, S))
    (hadd : avlAdd fuel h₁ (fs.fsTree dst) fs.key e = some (h₂, D)) :
    filesetMoveEntry fuel fs src dst e =
      some (fs.withTrees h₂ (Function.update (Function.update fs.fsTree src S) dst D)) := by
  unfold filesetMoveEntry
  rw [hremove]
  simp only [Option.bind_eq_bind, Option.bind_some]
  rw [Function.update_of_ne hne.symm]
  have hkey : Fileset.key { fs with fseLink := h₁, fsTree := Function.update fs.fsTree src S } =
    fs.key := rfl
  rw [hkey, hadd]
  rfl

theorem pickresetLoop_cases
    (hrun : pickresetLoop fuel src dst n (some e) fs = some fs') :
    ∃ m fs₁ next, n = m + 1 ∧
      filesetMoveEntry fuel (fs.setFse e FilesetEntry.marked) src dst e = some fs₁ ∧
      avlWalk fuel fs₁.fseLink e true = some next ∧
      pickresetLoop fuel src dst m next fs₁ = some fs' := by
  cases n with
  | zero => cases hrun
  | succ m =>
    obtain ⟨fs₁, hmove, hrun⟩ := Option.bind_eq_some_iff.mp hrun
    obtain ⟨next, hwalk, hrun⟩ := Option.bind_eq_some_iff.mp hrun
    exact ⟨m, fs₁, next, rfl, hmove, hwalk, hrun⟩

/-- Nothing outside of `X` links to `X`. -/
structure Apart (X : Set Entry) (dst : FsTree) (fs : Fileset) : Prop where
  links : ∀ a, a ∉ X → ∀ n, fs.fseLink a = some n → n.Outside X
  root : Outside X (fs.fsTree dst).avlRoot
  stack : fs.fseLink stackEntry = none

/-- The entries of `X`, the other trees and the identities are left alone. -/
structure LeftAlone (X : Set Entry) (src dst : FsTree) (fs fs' : Fileset) : Prop where
  fse : ∀ x ∈ X, fs'.fse x = fs.fse x
  link : ∀ x ∈ X, fs'.fseLink x = fs.fseLink x
  tree : ∀ t, t ≠ src → t ≠ dst → fs'.fsTree t = fs.fsTree t
  key : fs'.key = fs.key
  count : (fs.fsTree dst).avlNumnodes ≤ (fs'.fsTree dst).avlNumnodes

theorem LeftAlone.refl (X : Set Entry) (src dst : FsTree) (fs : Fileset) :
    LeftAlone X src dst fs fs :=
  ⟨fun _ _ => rfl, fun _ _ => rfl, fun _ _ _ => rfl, rfl, le_rfl⟩

theorem LeftAlone.mono {Y : Set Entry} (h : LeftAlone X src dst fs fs') (hY : Y ⊆ X) :
    LeftAlone Y src dst fs fs' :=
  ⟨fun x hx => h.fse x (hY hx), fun x hx => h.link x (hY hx), h.tree, h.key, h.count⟩

theorem LeftAlone.trans {fs₁ : Fileset} (h : LeftAlone X src dst fs fs₁)
    (h' : LeftAlone X src dst fs₁ fs') : LeftAlone X src dst fs fs' where
  fse x hx := (h'.fse x hx).trans (h.fse x hx)
  link x hx := (h'.link x hx).trans (h.link x hx)
  tree t hsrc hdst := (h'.tree t hsrc hdst).trans (h.tree t hsrc hdst)
  key := h'.key.trans h.key
  count := h.count.trans h'.count

theorem Apart.spares (hA : Apart X dst fs) (T : Set Entry) :
    Spares X T fs.fseLink fs.fseLink :=
  ⟨hA.links, fun _ _ => rfl, fun _ _ => id⟩

theorem filesetMoveEntry_apart (hstack : stackEntry ∉ X) (hne : src ≠ dst) (he : e ∉ X)
    (hA : Apart X dst fs)
    (hrun : filesetMoveEntry fuel (fs.setFse e FilesetEntry.marked) src dst e = some fs') :
    Apart X dst fs' ∧ LeftAlone X src dst fs fs' := by
  obtain ⟨h₁, S, h₂, D, hremove, hadd, rfl⟩ := filesetMoveEntry_cases hne hrun
  have hs₁ := avlRemove_spares (hA.spares {stackEntry}) hstack rfl he hremove
  have hA₁ : Spares X ∅ h₁ h₁ := ⟨hs₁.apart, fun _ _ => rfl, fun _ _ => id⟩
  obtain ⟨hs₂, hroot₂⟩ := avlAdd_spares hA₁ he hA.root hadd
  have hcount := (avlAdd_count hadd).1
  have hdead : h₁ stackEntry = none := avlRemove_dead hremove
  refine ⟨⟨hs₂.apart, ?_, hs₂.dead _ (Set.notMem_empty _) hdead⟩, ⟨?_, ?_, ?_, ?_, ?_⟩⟩
  · simpa [Fileset.withTrees] using hroot₂
  · intro x hx
    rw [withTrees_fse, setFse_fse, if_neg]
    rintro rfl
    exact he hx
  · intro x hx
    exact (hs₂.same x hx).trans (hs₁.same x hx)
  · intro t hsrc hdst
    simp [Fileset.withTrees, hsrc, hdst]
  · rw [withTrees_key, setFse_marked_key]
  · simpa [Fileset.withTrees] using hcount

theorem pickresetLoop_apart (hstack : stackEntry ∉ X) (hne : src ≠ dst) {entry : Option Entry}
    (hentry : Outside X entry) (hA : Apart X dst fs)
    (hrun : pickresetLoop fuel src dst n entry fs = some fs') :
    Apart X dst fs' ∧ LeftAlone X src dst fs fs' := by
  induction n generalizing fs entry with
  | zero =>
    cases entry with
    | none =>
      obtain rfl := Option.some.inj hrun
      exact ⟨hA, .refl X src dst fs⟩
    | some e => cases hrun
  | succ n ih =>
    cases entry with
    | none =>
      obtain rfl := Option.some.inj hrun
      exact ⟨hA, .refl X src dst fs⟩
    | some e =>
      obtain ⟨m, fs₁, next, hm, hmove, hwalk, hrun⟩ := pickresetLoop_cases hrun
      obtain rfl := Nat.succ.inj hm
      have he := hentry e rfl
      obtain ⟨hA₁, hleft₁⟩ := filesetMoveEntry_apart hstack hne he hA hmove
      have hnext := avlWalk_spares (hA₁.spares ∅) he hwalk
      obtain ⟨hA', hleft⟩ := ih hnext hA₁ hrun
      exact ⟨hA', hleft₁.trans hleft⟩

theorem pickresetTree_nil (hsrc : fs.TreeHolds src []) :
    Returns (fun fuel => pickresetTree fuel src dst fs) fs := by
  refine ⟨1, fun fuel hfuel => ?_⟩
  have hfirst : avlFirst fuel fs.fseLink (fs.fsTree src) = some none := hsrc.first hfuel
  unfold pickresetTree
  simp only [hfirst, Option.bind_eq_bind, Option.bind_some]
  cases fuel with
  | zero => exact absurd hfuel (Nat.not_succ_le_zero 0)
  | succ fuel => rfl

/-- The first entry joins what the loop may reach, all others stay out of it. -/
theorem pickresetTree_apart {rest : List Entry} (hstack : stackEntry ∉ X) (hne : src ≠ dst)
    (hA : Apart X dst fs) (hsrc : fs.TreeHolds src (e :: rest)) (hX : ∀ x ∈ e :: rest, x ∈ X)
    (hkey : ∀ b, b ∉ X → b ≠ stackEntry → fs.key e ≠ fs.key b)
    (hrun : Returns (fun fuel => pickresetTree fuel src dst fs) fs') :
    Apart (X \ {e}) dst fs' ∧ LeftAlone {x | x ∈ X ∧ x ∉ e :: rest} src dst fs fs' ∧
      (∀ x ∈ rest, fs'.fse x = fs.fse x) ∧
      (fs.fsTree dst).avlNumnodes < (fs'.fsTree dst).avlNumnodes := by
  obtain ⟨h₁, S, hremove, -, hframe⟩ := hsrc.remove (.head _) hA.stack
  obtain ⟨N, hN⟩ := hrun
  obtain ⟨M, hM⟩ := hremove
  set fuel := max N (max M ((e :: rest).length + 1))
  have hrun := hN fuel (le_max_left ..)
  have hremove := hM fuel ((le_max_left ..).trans (le_max_right ..))
  have hfuel : (e :: rest).length < fuel :=
    Nat.lt_of_succ_le ((le_max_right ..).trans (le_max_right ..))
  have hfirst := hsrc.first hfuel
  obtain ⟨entry, hentry, hrun⟩ := Option.bind_eq_some_iff.mp hrun
  obtain rfl := Option.some.inj (hfirst.symm.trans hentry)
  obtain ⟨m, fs₁, next, -, hmove, hwalk, hrun⟩ := pickresetLoop_cases hrun
  obtain ⟨h₁', S', h₂, D, hremove', hadd, rfl⟩ := filesetMoveEntry_cases hne hmove
  obtain ⟨rfl, rfl⟩ := Prod.mk.inj (Option.some.inj (hremove.symm.trans hremove'))
  have hrest : ∀ x, x ∉ rest → h₁ x = fs.fseLink x := fun x hx => hframe x (by simpa using hx)
  have hout : ∀ a, a ∉ X → a ∉ rest := fun a ha hmem => ha (hX a (.tail _ hmem))
  have hA₁ : Spares X ∅ h₁ h₁ := by
    refine ⟨fun a ha n hn => ?_, fun _ _ => rfl, fun _ _ => id⟩
    rw [hrest a (hout a ha)] at hn
    exact hA.links a ha n hn
  have hdead := avlRemove_dead hremove
  have hkey₁ : ∀ b, b ∉ X → h₁ b ≠ none → (fs.setFse e FilesetEntry.marked).key e ≠
      (fs.setFse e FilesetEntry.marked).key b := by
    intro b hb hlive
    rw [setFse_marked_key]
    refine hkey b hb ?_
    rintro rfl
    exact hlive hdead
  obtain ⟨hs₂, hroot, hcount⟩ := avlAdd_enters hA₁ hA.root hkey₁ hadd
  have he : e ∉ X \ {e} := fun hmem => hmem.2 rfl
  have hA₂ : Apart (X \ {e}) dst ((fs.setFse e FilesetEntry.marked).withTrees h₂
      (Function.update (Function.update fs.fsTree src S) dst D)) :=
    ⟨hs₂.apart, by simpa [Fileset.withTrees] using hroot,
      hs₂.dead _ (Set.notMem_empty _) hdead⟩
  have hnext := avlWalk_spares (hA₂.spares ∅) he hwalk
  obtain ⟨hA', hleft⟩ := pickresetLoop_apart (fun hmem => hstack hmem.1) hne hnext hA₂ hrun
  have hfse : ∀ x, x ≠ e → (fs.setFse e FilesetEntry.marked).fse x = fs.fse x := by
    intro x hx
    rw [setFse_fse, if_neg hx]
  refine ⟨hA', .trans ⟨?_, ?_, ?_, ?_, ?_⟩ (hleft.mono ?_), ?_, ?_⟩
  · intro x hx
    exact hfse x fun hxe => hx.2 (hxe ▸ .head _)
  · intro x hx
    exact (hs₂.same x ⟨hx.1, fun hxe => hx.2 (hxe ▸ .head _)⟩).trans
      (hrest x fun hmem => hx.2 (.tail _ hmem))
  · intro t hsrc hdst
    simp [Fileset.withTrees, hsrc, hdst]
  · rw [withTrees_key, setFse_marked_key]
  · simp [Fileset.withTrees, hcount]
  · exact fun x hx => ⟨hx.1, fun hxe => hx.2 (hxe ▸ .head _)⟩
  · intro x hx
    have hxe : x ≠ e := by
      rintro rfl
      exact (List.nodup_cons.mp hsrc.nodup).1 hx
    exact (hleft.fse x ⟨hX x (.tail _ hx), hxe⟩).trans (hfse x hxe)
  · refine Nat.lt_of_lt_of_le ?_ hleft.count
    simp [Fileset.withTrees, hcount]

/-! ## An entry that is in the free tree already -/

/-- The empty source is of no use to the step, which finds the entry where it is to be put. -/
theorem filesetMoveEntry_idle {l : List Entry} {node : AvlNode Entry} (hne : src ≠ dst)
    (hdst : fs.TreeHolds dst l) (he : e ∈ l) (hnode : fs.fseLink e = some node)
    (hone : ¬ ((node.avlChild false).isSome ∧ (node.avlChild true).isSome))
    (hcount : (fs.fsTree src).avlNumnodes = 0) (hstack : fs.fseLink stackEntry = none)
    (hfuel : l.length < fuel) : filesetMoveEntry fuel fs src dst e = some fs := by
  have hremove : avlRemove stackEntry fuel fs.fseLink (fs.fsTree src) e =
      some (fs.fseLink, fs.fsTree src) := by
    rw [avlRemove_one_child hcount hnode hone, ← hstack, Function.update_eq_self]
  have hadd : avlAdd fuel fs.fseLink (fs.fsTree dst) fs.key e =
      some (fs.fseLink, fs.fsTree dst) := by
    obtain ⟨r, hfind, hr⟩ := hdst.find (fs.key e) hfuel
    cases r with
    | found b => simp [avlAdd, hfind]
    | missing prev child => exact absurd rfl (hr.1 e he)
  rw [filesetMoveEntry_of hne hremove hadd, Function.update_eq_self, Function.update_eq_self]
  rfl

/-- The source is empty but has a root, or the destination counts more than `c` entries. -/
structure Broken (src dst : FsTree) (c : ℕ) (fs : Fileset) : Prop where
  empty : (fs.fsTree src).avlNumnodes = 0
  off : (fs.fsTree src).avlRoot ≠ none ∨ c < (fs.fsTree dst).avlNumnodes

theorem Broken.loop {c : ℕ} {entry : Option Entry} (hne : src ≠ dst) (hB : Broken src dst c fs)
    (hrun : pickresetLoop fuel src dst n entry fs = some fs') : Broken src dst c fs' := by
  induction n generalizing fs entry with
  | zero =>
    cases entry with
    | none => exact Option.some.inj hrun ▸ hB
    | some e => cases hrun
  | succ n ih =>
    cases entry with
    | none => exact Option.some.inj hrun ▸ hB
    | some e =>
      obtain ⟨m, fs₁, next, hm, hmove, -, hrun⟩ := pickresetLoop_cases hrun
      obtain rfl := Nat.succ.inj hm
      obtain ⟨h₁, S, h₂, D, hremove, hadd, rfl⟩ := filesetMoveEntry_cases hne hmove
      obtain ⟨hempty, hroot⟩ := avlRemove_empty hB.empty hremove
      refine ih ⟨by simpa [Fileset.withTrees, hne] using hempty, ?_⟩ hrun
      simp only [Fileset.withTrees, Function.update_self, Function.update_of_ne hne]
      rcases hB.off with hoff | hoff
      · exact .inl (hroot hoff)
      · exact .inr (Nat.lt_of_lt_of_le hoff (avlAdd_count hadd).1)

/-- The first entry with two children that the loop comes to is torn out of its tree. -/
theorem pickresetLoop_broken {l₁ l₂ : List Entry} (hne : src ≠ dst)
    (hdst : fs.TreeHolds dst (l₁ ++ l₂)) (hcount : (fs.fsTree src).avlNumnodes = 0)
    (hstack : fs.fseLink stackEntry = none) (hfuel : (l₁ ++ l₂).length < fuel)
    (htwo : ∃ f ∈ l₂, ∃ node, fs.fseLink f = some node ∧ (node.avlChild false).isSome ∧
      (node.avlChild true).isSome)
    (hrun : pickresetLoop fuel src dst n l₂.head? fs = some fs') :
    Broken src dst (l₁ ++ l₂).length fs' := by
  induction l₂ generalizing l₁ n fs with
  | nil =>
    obtain ⟨f, hf, -⟩ := htwo
    cases hf
  | cons g l₂ ih =>
    obtain ⟨m, fs₁, next, rfl, hmove, hwalk, hrun⟩ := pickresetLoop_cases hrun
    have hg : g ∈ l₁ ++ g :: l₂ := by simp
    obtain ⟨node, hnode⟩ := hdst.live g hg
    have hdst₀ : (fs.setFse g FilesetEntry.marked).TreeHolds dst (l₁ ++ g :: l₂) := by
      simpa [Fileset.TreeHolds] using hdst
    by_cases hsome : (node.avlChild false).isSome ∧ (node.avlChild true).isSome
    · obtain ⟨h₁, S, h₂, D, hremove, hadd, rfl⟩ := filesetMoveEntry_cases hne hmove
      have hempty := (avlRemove_empty hcount hremove).1
      refine Broken.loop hne ⟨by simpa [Fileset.withTrees, hne] using hempty, ?_⟩ hrun
      simp only [Fileset.withTrees, Function.update_self, Function.update_of_ne hne]
      rcases avlRemove_two_children hdst₀ hg hnode hsome hstack hcount hremove with hroot | hlost
      · exact .inl hroot
      · right
        rw [(avlAdd_count hadd).2 fun b => hlost fuel b, ← hdst₀.count]
        exact Nat.lt_succ_self _
    · obtain rfl := Option.some.inj
        ((filesetMoveEntry_idle hne hdst₀ hg hnode hsome hcount hstack hfuel).symm.trans hmove)
      obtain rfl := Option.some.inj ((hdst.next rfl hfuel).symm.trans hwalk)
      have hsplit : l₁ ++ g :: l₂ = (l₁ ++ [g]) ++ l₂ := by simp
      rw [hsplit] at hdst₀ hfuel ⊢
      refine ih hdst₀ hcount hstack hfuel ?_ hrun
      obtain ⟨f, hf, m', hm', hboth⟩ := htwo
      rcases List.mem_cons.mp hf with rfl | hf
      · obtain rfl := Option.some.inj (hnode.symm.trans hm')
        exact absurd hboth hsome
      · exact ⟨f, hf, m', hm', hboth⟩

/-! ## One entry in the source -/

/-- The source is empty and the destination holds `l'`. -/
structure Moved (src dst : FsTree) (l' : List Entry) (fs fs' : Fileset) : Prop where
  emptied : fs'.TreeHolds src []
  holds : fs'.TreeHolds dst l'
  stack : fs'.fseLink stackEntry = none
  tree : ∀ t, t ≠ src → t ≠ dst → fs'.fsTree t = fs.fsTree t
  link : ∀ x, x ∉ l' → fs'.fseLink x = fs.fseLink x
  key : fs'.key = fs.key

theorem Moved.mark {l' : List Entry} (hM : Moved src dst l' fs fs') (e : Entry) :
    Moved src dst l' fs (fs'.setFse e FilesetEntry.marked) := by
  have hkey := setFse_marked_key fs' e
  refine ⟨?_, ?_, hM.stack, hM.tree, hM.link, hkey.trans hM.key⟩
  · simpa [Fileset.TreeHolds] using hM.emptied
  · simpa [Fileset.TreeHolds] using hM.holds

theorem Moved.later_perm {l l₁ l₂ : List Entry} (hM : Moved src dst (l₁ ++ e :: l₂) fs fs')
    (hperm : (l₁ ++ e :: l₂).Perm (e :: l)) : (later fs.key e l).Perm l₂ := by
  have hfilter := hperm.filter fun x => fs.key e < fs.key x
  have hsorted := hM.holds.sorted
  rw [hM.key] at hsorted
  have hmiddle := later_middle hsorted
  have hcons : later fs.key e (e :: l) = later fs.key e l := later_cons_self e l
  rw [later] at hmiddle hcons
  rw [hmiddle, hcons] at hfilter
  exact hfilter.symm

theorem Moved.later_iff {l l₁ l₂ : List Entry} (hM : Moved src dst (l₁ ++ e :: l₂) fs fs')
    (hperm : (l₁ ++ e :: l₂).Perm (e :: l)) (x : Entry) :
    x ∈ l₂ ↔ x ∈ l ∧ fs.key e < fs.key x := by
  rw [← (hM.later_perm hperm).mem_iff, later, List.mem_filter, decide_eq_true_iff]

variable {l : List Entry} (hne : src ≠ dst) (hdst : fs.TreeHolds dst l)
  (hsrc : fs.TreeHolds src [e]) (hstack : fs.fseLink stackEntry = none)
  (hfresh : ∀ x ∈ l, fs.key x ≠ fs.key e)

include hne hdst hsrc hstack hfresh

/-- The entry is moved; what comes next is after it in the free tree. -/
theorem pickresetTree_joins :
    ∃ fs₁ l₁ l₂, Moved src dst (l₁ ++ e :: l₂) fs fs₁ ∧ (l₁ ++ e :: l₂).Perm (e :: l) ∧
      (∀ x, fs₁.fse x = if x = e then (fs.fse x).marked else fs.fse x) ∧
      (2 ≤ (later fs.key e l).length → ∃ f ∈ l, fs.key e < fs.key f ∧ ∃ node,
        fs₁.fseLink f = some node ∧ (node.avlChild false).isSome ∧
        (node.avlChild true).isSome) ∧
      ∃ N, ∀ n, N ≤ n → pickresetTree (n + 1) src dst fs =
        pickresetLoop (n + 1) src dst n l₂.head? fs₁ := by
  obtain ⟨h₁, S, hremove, hsrc₁, hframe₁⟩ := hsrc.remove (.head _) hstack
  rw [List.erase_cons_head] at hsrc₁ hframe₁
  have hsame : h₁ = fs.fseLink := funext fun x => hframe₁ x (List.not_mem_nil)
  subst hsame
  obtain ⟨node, hnode⟩ := hsrc.live e (.head _)
  have hlive : (fs.fseLink e).isSome := by simp [hnode]
  obtain ⟨h₂, D, l', hadd, hdst₂, hperm, hframe₂⟩ := hdst.add hfresh hlive
  obtain ⟨l₁, l₂, rfl⟩ := List.append_of_mem (hperm.mem_iff.mpr (.head _))
  have hout : stackEntry ∉ e :: l := by
    intro hmem
    rcases List.mem_cons.mp hmem with heq | hmem
    · rw [← heq, hstack] at hnode
      cases hnode
    · obtain ⟨m, hm⟩ := hdst.live _ hmem
      rw [hstack] at hm
      cases hm
  refine ⟨(fs.setFse e FilesetEntry.marked).withTrees h₂
    (Function.update (Function.update fs.fsTree src S) dst D), l₁, l₂, ⟨?_, ?_, ?_, ?_, ?_, ?_⟩,
    hperm, ?_, ?_, ?_⟩
  · simp only [Fileset.TreeHolds, withTrees_key, setFse_marked_key]
    simp only [Fileset.withTrees, Function.update_self, Function.update_of_ne hne]
    exact hsrc₁.frame fun x hx => absurd hx (List.not_mem_nil)
  · simp only [Fileset.TreeHolds, withTrees_key, setFse_marked_key]
    simpa [Fileset.withTrees] using hdst₂
  · exact (hframe₂ _ hout).trans hstack
  · intro t hsrc hdst
    simp [Fileset.withTrees, hsrc, hdst]
  · intro x hx
    exact hframe₂ x fun hmem => hx (hperm.mem_iff.mpr hmem)
  · rw [withTrees_key, setFse_marked_key]
  · intro x
    rw [withTrees_fse, setFse_fse]
    split_ifs with hx
    · rw [hx]
    · rfl
  · intro htwo
    obtain ⟨f, hf, m, hlt, hm, hl, hr⟩ := hdst.add_two_children hfresh hlive htwo hadd
    exact ⟨f, hf, hlt, m, hm, hl, hr⟩
  · obtain ⟨M, hM⟩ := hremove
    obtain ⟨K, hK⟩ := hadd
    refine ⟨max M (max K (l₁ ++ e :: l₂).length), fun n hn => ?_⟩
    obtain ⟨hMn, hn⟩ := max_le_iff.mp hn
    obtain ⟨hKn, hn⟩ := max_le_iff.mp hn
    have hfuel : (l₁ ++ e :: l₂).length < n + 1 := Nat.lt_succ_of_le hn
    have hone : [e].length < n + 1 := by
      simp only [List.length_append, List.length_cons] at hfuel
      simp only [List.length_cons, List.length_nil]
      omega
    have hmove := filesetMoveEntry_of hne
      (show avlRemove stackEntry (n + 1) (fs.setFse e FilesetEntry.marked).fseLink
        ((fs.setFse e FilesetEntry.marked).fsTree src) e = _ from
          hM (n + 1) (Nat.le_succ_of_le hMn))
      (by simpa using hK (n + 1) (Nat.le_succ_of_le hKn))
    have hwalk := hdst₂.next rfl hfuel
    have hfirst : avlFirst (n + 1) fs.fseLink (fs.fsTree src) = some (some e) := hsrc.first hone
    unfold pickresetTree
    simp only [hfirst, Option.bind_eq_bind, Option.bind_some]
    rw [pickresetLoop, hmove]
    simp only [Option.bind_eq_bind, Option.bind_some]
    exact congrArg (Option.bind · _) hwalk

/-- With at most one entry after it, the entry is all that is moved. -/
theorem pickresetTree_moved (hone : (later fs.key e l).length ≤ 1) :
    ∃ fs' l', Returns (fun fuel => pickresetTree fuel src dst fs) fs' ∧
      Moved src dst l' fs fs' ∧ l'.Perm (e :: l) ∧
      ∀ x, fs'.fse x = if x = e ∨ (x ∈ l ∧ fs.key e < fs.key x) then (fs.fse x).marked
        else fs.fse x := by
  obtain ⟨fs₁, l₁, l₂, hM, hperm, hfse, -, N, hN⟩ :=
    pickresetTree_joins hne hdst hsrc hstack hfresh
  have hmem : ∀ x, x ∈ l₂ ↔ x ∈ l ∧ fs.key e < fs.key x := hM.later_iff hperm
  rw [(hM.later_perm hperm).length_eq] at hone
  cases l₂ with
  | nil =>
    have hloop : Returns (fun n => pickresetLoop (n + 1) src dst n none fs₁) fs₁ :=
      returns_of_const fun n => by cases n <;> rfl
    refine ⟨fs₁, _, (hloop.congr hN).of_succ, hM, hperm, fun x => ?_⟩
    rw [hfse x]
    simp only [← hmem, List.not_mem_nil, or_false]
  | cons f l₃ =>
    obtain rfl : l₃ = [] := List.length_eq_zero_iff.mp (by simpa using hone)
    have hM' := hM.mark f
    have hf : f ∈ l₁ ++ e :: [f] := by simp
    obtain ⟨node, hnode⟩ := hM'.holds.live f hf
    have hholds := hM'.holds
    rw [List.append_cons] at hholds
    have hlast : ¬ ((node.avlChild false).isSome ∧ (node.avlChild true).isSome) := by
      rw [hholds.last hnode]
      exact fun hboth => Bool.false_ne_true hboth.2
    have hloop : Returns (fun n => pickresetLoop (n + 1) src dst n (some f) fs₁)
        (fs₁.setFse f FilesetEntry.marked) := by
      refine ⟨(l₁ ++ e :: [f]).length + 1, fun fuel hfuel => ?_⟩
      obtain ⟨n, rfl⟩ := Nat.exists_eq_succ_of_ne_zero (show fuel ≠ 0 by omega)
      have hlt : (l₁ ++ e :: [f]).length < n + 1 + 1 := by omega
      have hmove := filesetMoveEntry_idle hne hM'.holds hf hnode hlast hM'.emptied.count hM'.stack
        hlt
      have hwalk := hM'.holds.next (List.append_cons l₁ e [f]) hlt
      change pickresetLoop (n + 1 + 1) src dst (n + 1) (some f) fs₁ = _
      rw [pickresetLoop, hmove]
      simp only [Option.bind_eq_bind, Option.bind_some]
      rw [hwalk]
      cases n <;> rfl
    refine ⟨_, _, (hloop.congr hN).of_succ, hM', hperm, fun x => ?_⟩
    have hfe : f ≠ e := by
      rintro rfl
      exact lt_irrefl _ ((hmem f).mp (.head _)).2
    rw [setFse_fse, hfse, hfse, if_neg hfe]
    simp only [← hmem, List.mem_singleton]
    by_cases hxf : x = f
    · rw [if_pos hxf, if_pos (.inr hxf), hxf]
    · simp only [hxf, if_false, or_false]

omit hdst hsrc hstack hfresh hne

end step

end Filebench

import Filebench.Fileset.Reset

/-! # What a reset leaves behind

Both loops do what they should on few entries only. From any state that picks and releases reach,
the reset leaves a free fileset exactly when neither loop has more than one entry to move and
neither moves it in front of more than one other. -/
namespace Filebench

open Avl BinTree Fuel

section steady

variable {src dst : FsTree}

theorem filesetMoveEntry_steady (fs : Fileset) (src dst : FsTree) (e : Entry) :
    Steady fun fuel => filesetMoveEntry fuel fs src dst e := by
  refine (avlRemove_steady stackEntry fs.fseLink (fs.fsTree src) e).bind fun r => ?_
  exact (avlAdd_steady _ _ _ e).bind fun _ => steady_const _

theorem pickresetLoop_mono {fuel fuel' n n' : ℕ} (hfuel : fuel ≤ fuel') (hn : n ≤ n')
    {entry : Option Entry} {fs fs' : Fileset}
    (hrun : pickresetLoop fuel src dst n entry fs = some fs') :
    pickresetLoop fuel' src dst n' entry fs = some fs' := by
  induction n generalizing n' entry fs with
  | zero =>
    cases entry with
    | none => cases n' <;> exact hrun
    | some e => cases hrun
  | succ n ih =>
    obtain ⟨n', rfl⟩ := Nat.exists_eq_add_of_le' (Nat.one_le_of_lt hn)
    cases entry with
    | none => exact hrun
    | some e =>
      obtain ⟨m, fs₁, next, hm, hmove, hwalk, hrun⟩ := pickresetLoop_cases hrun
      obtain rfl := Nat.succ.inj hm
      have hmove' := filesetMoveEntry_steady _ src dst e fuel fuel' fs₁ hfuel hmove
      have hwalk' := avlWalk_steady _ e true fuel fuel' next hfuel hwalk
      refine Option.bind_eq_some_iff.mpr ⟨fs₁, hmove', ?_⟩
      exact Option.bind_eq_some_iff.mpr ⟨next, hwalk', ih (Nat.le_of_succ_le_succ hn) hrun⟩

theorem filesetMoveEntry_fsList {fuel : ℕ} {e : Entry} {fs fs' : Fileset}
    (hrun : filesetMoveEntry fuel fs src dst e = some fs') : fs'.fsList = fs.fsList := by
  obtain ⟨r, -, hrun⟩ := Option.bind_eq_some_iff.mp hrun
  obtain ⟨r', -, hret⟩ := Option.bind_eq_some_iff.mp hrun
  rw [← Option.some.inj hret]

theorem pickresetLoop_fsList {fuel n : ℕ} {entry : Option Entry} {fs fs' : Fileset}
    (hrun : pickresetLoop fuel src dst n entry fs = some fs') : fs'.fsList = fs.fsList := by
  induction n generalizing entry fs with
  | zero =>
    cases entry with
    | none => exact Option.some.inj hrun ▸ rfl
    | some e => cases hrun
  | succ n ih =>
    cases entry with
    | none => exact Option.some.inj hrun ▸ rfl
    | some e =>
      obtain ⟨m, fs₁, next, hm, hmove, -, hrun⟩ := pickresetLoop_cases hrun
      obtain rfl := Nat.succ.inj hm
      have hlist := filesetMoveEntry_fsList hmove
      exact (ih hrun).trans hlist

theorem pickresetTree_fsList {fs fs' : Fileset}
    (hrun : Returns (fun fuel => pickresetTree fuel src dst fs) fs') :
    fs'.fsList = fs.fsList := by
  obtain ⟨fuel, hrun⟩ := hrun.run
  obtain ⟨entry, -, hrun⟩ := Option.bind_eq_some_iff.mp hrun
  exact pickresetLoop_fsList hrun

theorem pickresetTree_steady (src dst : FsTree) (fs : Fileset) :
    Steady fun fuel => pickresetTree fuel src dst fs := by
  intro n m fs' hnm hrun
  obtain ⟨entry, hfirst, hrun⟩ := Option.bind_eq_some_iff.mp hrun
  refine Option.bind_eq_some_iff.mpr ⟨entry, ?_, pickresetLoop_mono hnm hnm hrun⟩
  exact avlFirst_steady _ _ n m entry hnm hfirst

/-- The two loops of a type, one after the other. -/
theorem filesetPickreset_returns {ty : FseType} (hty : ty ≠ .dir) {fs fs' : Fileset} :
    Returns (fun fuel => filesetPickreset fuel fs ty) fs' ↔
      ∃ fs₁, Returns (fun fuel => pickresetTree fuel (noexTree ty) (freeTree ty) fs) fs₁ ∧
        Returns (fun fuel => pickresetTree fuel (existTree ty) (freeTree ty) fs₁) fs' := by
  simp only [filesetPickreset_eq hty]
  constructor
  · rintro ⟨N, hN⟩
    obtain ⟨fs₁, h₁, h₂⟩ := Option.bind_eq_some_iff.mp (hN N le_rfl)
    exact ⟨fs₁, (pickresetTree_steady _ _ fs).returns h₁,
      (pickresetTree_steady _ _ fs₁).returns h₂⟩
  · rintro ⟨fs₁, h₁, h₂⟩
    exact h₁.bind h₂

end steady

/-! ## One loop from any source -/

/-- Two trees of one fileset. -/
structure LoopTrees (src dst : FsTree) (fs : Fileset) (S D : List Entry) : Prop where
  ne : src ≠ dst
  src : fs.TreeHolds src S
  dst : fs.TreeHolds dst D
  stack : fs.fseLink stackEntry = none
  fresh : ∀ x ∈ D, ∀ e ∈ S, fs.key x ≠ fs.key e

/-- At most one entry to move, and at most one entry after it where it goes. -/
structure Harmless (fs : Fileset) (S D : List Entry) : Prop where
  one : S.length ≤ 1
  later : ∀ e ∈ S, (later fs.key e D).length ≤ 1

/-- The entries that the loop writes to. -/
def Remarked (fs : Fileset) (S D : List Entry) (x : Entry) : Prop :=
  x ∈ S ∨ x ∈ D ∧ ∃ e ∈ S, fs.key e < fs.key x

section loop

variable {src dst : FsTree} {fs fs' : Fileset} {S D : List Entry} {X : Set Entry}

/-- What a loop leaves of two trees that it can put together. -/
structure Joined (src dst : FsTree) (S D : List Entry) (fs fs' : Fileset) : Prop where
  moved : ∃ D', Moved src dst D' fs fs' ∧ D'.Perm (S ++ D)
  marked : ∀ x, Remarked fs S D x → fs'.fse x = (fs.fse x).marked
  same : ∀ x, ¬ Remarked fs S D x → fs'.fse x = fs.fse x
  list : fs'.fsList = fs.fsList

theorem not_remarked_nil (fs : Fileset) (D : List Entry) (x : Entry) : ¬ Remarked fs [] D x := by
  rintro (h | ⟨-, e, h, -⟩) <;> cases h

theorem LoopTrees.joined (hL : LoopTrees src dst fs S D) (hS : Harmless fs S D) :
    ∃ fs', Returns (fun fuel => pickresetTree fuel src dst fs) fs' ∧ Joined src dst S D fs fs' := by
  cases S with
  | nil =>
    refine ⟨fs, pickresetTree_nil hL.src, ⟨D, ?_, .refl _⟩, ?_, fun _ _ => rfl, rfl⟩
    · exact ⟨hL.src, hL.dst, hL.stack, fun _ _ _ => rfl, fun _ _ => rfl, rfl⟩
    · exact fun x hx => absurd hx (not_remarked_nil fs D x)
  | cons e S =>
    obtain rfl : S = [] := by simpa using hS.one
    obtain ⟨fs', D', hret, hmoved, hperm, hfse⟩ := pickresetTree_moved hL.ne hL.dst hL.src
      hL.stack (fun x hx => hL.fresh x hx e (.head _)) (hS.later e (.head _))
    have hmarked : ∀ x, Remarked fs [e] D x ↔ x = e ∨ (x ∈ D ∧ fs.key e < fs.key x) := by
      intro x
      simp [Remarked]
    refine ⟨fs', hret, ⟨D', hmoved, hperm⟩, ?_, ?_, pickresetTree_fsList hret⟩
    · intro x hx
      rw [hfse, if_pos ((hmarked x).mp hx)]
    · intro x hx
      rw [hfse, if_neg (mt (hmarked x).mpr hx)]

/-- What a loop can get at, and the least that it does. -/
theorem pickresetTree_reach (hne : src ≠ dst) (hsrc : fs.TreeHolds src S) (hA : Apart X dst fs)
    (hstack : stackEntry ∉ X) (hX : ∀ x ∈ S, x ∈ X)
    (hkey : ∀ b, b ∉ X → b ≠ stackEntry → ∀ e ∈ S, fs.key e ≠ fs.key b)
    (hrun : Returns (fun fuel => pickresetTree fuel src dst fs) fs') :
    Apart {x | x ∈ X ∧ S.head? ≠ some x} dst fs' ∧
      LeftAlone {x | x ∈ X ∧ x ∉ S} src dst fs fs' ∧
      (∀ x ∈ S.tail, fs'.fse x = fs.fse x) ∧
      (fs.fsTree dst).avlNumnodes + min 1 S.length ≤ (fs'.fsTree dst).avlNumnodes := by
  cases S with
  | nil =>
    obtain rfl := hrun.unique (pickresetTree_nil hsrc)
    refine ⟨?_, .refl _ _ _ _, fun _ _ => rfl, le_rfl⟩
    simpa using hA
  | cons e rest =>
    obtain ⟨hA', hleft, hrest, hcount⟩ := pickresetTree_apart hstack hne hA hsrc hX
      (fun b hb hne => hkey b hb hne e (.head _)) hrun
    refine ⟨?_, hleft, hrest, ?_⟩
    · have hset : {x | x ∈ X ∧ (e :: rest).head? ≠ some x} = X \ {e} := by
        ext x
        simp [eq_comm]
      rwa [hset]
    · rw [List.length_cons]
      omega

/-- With more than one entry after it in the destination, the one entry that is moved has one with
two children after it. -/
theorem LoopTrees.broken (hL : LoopTrees src dst fs S D) (hone : S.length ≤ 1) (hS : ¬ Harmless fs S D)
    (hrun : Returns (fun fuel => pickresetTree fuel src dst fs) fs') :
    Broken src dst (S.length + D.length) fs' := by
  cases S with
  | nil => exact absurd ⟨Nat.zero_le _, fun _ h => by cases h⟩ hS
  | cons e S =>
    obtain rfl : S = [] := by simpa using hone
    have htwo : 2 ≤ (later fs.key e D).length := by
      by_contra hlt
      refine hS ⟨hone, fun e' he' => ?_⟩
      rw [List.mem_singleton.mp he']
      omega
    have hfresh : ∀ x ∈ D, fs.key x ≠ fs.key e := fun x hx => hL.fresh x hx e (.head _)
    obtain ⟨fs₁, l₁, l₂, hM, hperm, -, hchildren, N, hN⟩ :=
      pickresetTree_joins hL.ne hL.dst hL.src hL.stack hfresh
    obtain ⟨f, hf, hlt, node, hnode, hboth⟩ := hchildren htwo
    have hf₂ : f ∈ l₂ := ((hM.later_iff hperm) f).mpr ⟨hf, hlt⟩
    obtain ⟨M, hrun⟩ := hrun
    have hloop := (hN (max N (max M (l₁ ++ e :: l₂).length)) (le_max_left ..)).symm.trans
      (hrun _ (by omega))
    have hcount : [e].length + D.length = ((l₁ ++ [e]) ++ l₂).length := by
      rw [← List.append_cons, hperm.length_eq, List.length_cons, List.length_cons,
        List.length_nil, Nat.zero_add, Nat.add_comm]
    rw [hcount]
    refine pickresetLoop_broken hL.ne ?_ hM.emptied.count hM.stack ?_
      ⟨f, hf₂, node, hnode, hboth⟩ hloop
    · rw [← List.append_cons]
      exact hM.holds
    · rw [← List.append_cons]
      omega

end loop

/-! ## Both loops -/

/-- What `fileset_pickreset` is to leave behind. -/
structure IsReset (ty : FseType) (fs : Fileset) : Prop where
  noex : fs.TreeHolds (noexTree ty) []
  exist : fs.TreeHolds (existTree ty) []
  free : ∃ l, fs.TreeHolds (freeTree ty) l ∧ l.Perm (fs.fsList ty)
  flags : ∀ e ∈ fs.fsList ty, (fs.flags e).free = true ∧ (fs.fse e).fseOpenCnt = 0

/-- Both loops are harmless, and the free entries that they do not come by are not open. -/
structure Resettable (fs : Fileset) (F N E : List Entry) : Prop where
  noex : Harmless fs N F
  exist : Harmless fs E (N ++ F)
  opened : ∀ f ∈ F, (fs.fse f).fseOpenCnt = 0 ∨ ∃ e ∈ N ++ E, fs.key e < fs.key f

/-- The entries of a type in its three trees. -/
structure TypeTrees (fs : Fileset) (ty : FseType) (F N E : List Entry) : Prop where
  inv : FsInv fs
  ne_dir : ty ≠ .dir
  free : fs.TreeHolds (freeTree ty) F
  noex : fs.TreeHolds (noexTree ty) N
  exist : fs.TreeHolds (existTree ty) E

theorem FsInv.mem_iff {fs : Fileset} (hI : FsInv fs) {t : FsTree} {l : List Entry}
    (hl : fs.TreeHolds t l) (e : Entry) :
    e ∈ l ↔ e ∈ fs.entries ∧ homeTree (fs.flags e) = t := by
  obtain ⟨l', hl', hmem⟩ := hI.held t
  rw [hl.unique hl']
  exact hmem e

namespace TypeTrees

variable {fs fs' : Fileset} {ty : FseType} {F N E : List Entry} {e x : Entry}

theorem trees_ne (hT : TypeTrees fs ty F N E) : noexTree ty ≠ freeTree ty ∧
    existTree ty ≠ freeTree ty ∧ existTree ty ≠ noexTree ty := by
  have hdir := hT.ne_dir
  cases ty
  · decide
  · exact absurd rfl hdir
  · decide

theorem perm (hT : TypeTrees fs ty F N E) : (F ++ N ++ E).Perm (fs.fsList ty) := by
  choose L hL hmem using hT.inv.held
  rw [hT.free.unique (hL _), hT.noex.unique (hL _), hT.exist.unique (hL _)]
  exact hT.inv.partition hL hmem hT.ne_dir

theorem nodup (hT : TypeTrees fs ty F N E) : (F ++ N ++ E).Nodup :=
  hT.perm.nodup_iff.mpr (hT.inv.nodup ty)

theorem disjoint (hT : TypeTrees fs ty F N E) :
    (∀ x ∈ F, x ∉ N) ∧ (∀ x ∈ F, x ∉ E) ∧ ∀ x ∈ N, x ∉ E := by
  obtain ⟨hFN, -, hcross⟩ := List.nodup_append.mp hT.nodup
  obtain ⟨-, -, hcross'⟩ := List.nodup_append.mp hFN
  refine ⟨fun x hF hN => hcross' x hF x hN rfl, fun x hF hE => ?_, fun x hN hE => ?_⟩
  · exact hcross x (List.mem_append_left N hF) x hE rfl
  · exact hcross x (List.mem_append_right F hN) x hE rfl

theorem key_ne (hT : TypeTrees fs ty F N E) (hx : x ∈ F ++ N ++ E) (he : e ∈ F ++ N ++ E)
    (hne : x ≠ e) : fs.key x ≠ fs.key e := fun hkey =>
  hne (hT.inv.indexed ty x (hT.perm.mem_iff.mp hx) e (hT.perm.mem_iff.mp he) hkey)

theorem ne_stack (hT : TypeTrees fs ty F N E) {t : FsTree} {l : List Entry}
    (hl : fs.TreeHolds t l) (hx : x ∈ l) : x ≠ stackEntry := by
  rintro rfl
  obtain ⟨n, hn⟩ := hl.live _ hx
  rw [hT.inv.stack] at hn
  cases hn

/-- Being free is being in the free tree. -/
theorem free_iff (hT : TypeTrees fs ty F N E) (hx : x ∈ F ++ N ++ E) :
    (fs.flags x).free = true ↔ x ∈ F := by
  have hlist := hT.perm.mem_iff.mp hx
  have htype := hT.inv.typed ty x hlist
  rw [hT.inv.mem_iff hT.free, and_iff_right (Fileset.mem_entries.mpr ⟨ty, hlist⟩), homeTree, htype]
  obtain ⟨hne, hne', -⟩ := hT.trees_ne
  split_ifs with hfree hexists
  · exact ⟨fun _ => rfl, fun _ => hfree⟩
  · exact ⟨fun h => absurd h hfree, fun h => absurd h hne'⟩
  · exact ⟨fun h => absurd h hfree, fun h => absurd h hne⟩

theorem loop (hT : TypeTrees fs ty F N E) : LoopTrees (noexTree ty) (freeTree ty) fs N F where
  ne := hT.trees_ne.1
  src := hT.noex
  dst := hT.free
  stack := hT.inv.stack
  fresh x hx e he := hT.key_ne (by simp [hx]) (by simp [he]) fun hxe =>
    hT.disjoint.1 x hx (hxe ▸ he)

/-- The second loop, after a first one that did what it should. -/
theorem loop_joined (hT : TypeTrees fs ty F N E) {D' : List Entry}
    (hM : Moved (noexTree ty) (freeTree ty) D' fs fs') (hperm : D'.Perm (N ++ F)) :
    LoopTrees (existTree ty) (freeTree ty) fs' E D' where
  ne := hT.trees_ne.2.1
  src := by
    rw [Fileset.TreeHolds, hM.tree _ hT.trees_ne.2.2 hT.trees_ne.2.1, hM.key]
    refine hT.exist.frame fun x hx => hM.link x fun hmem => ?_
    rcases List.mem_append.mp (hperm.mem_iff.mp hmem) with hN | hF
    · exact hT.disjoint.2.2 x hN hx
    · exact hT.disjoint.2.1 x hF hx
  dst := hM.holds
  stack := hM.stack
  fresh x hx e he := by
    rw [hM.key]
    rcases List.mem_append.mp (hperm.mem_iff.mp hx) with hN | hF
    · exact hT.key_ne (by simp [hN]) (by simp [he]) fun hxe => hT.disjoint.2.2 x hN (hxe ▸ he)
    · exact hT.key_ne (by simp [hF]) (by simp [he]) fun hxe => hT.disjoint.2.1 x hF (hxe ▸ he)

end TypeTrees

theorem Harmless.congr {fs fs' : Fileset} {S D D' : List Entry} (hkey : fs'.key = fs.key)
    (hperm : D'.Perm D) : Harmless fs' S D' ↔ Harmless fs S D := by
  have hlater : ∀ e, (BinTree.later fs'.key e D').length = (BinTree.later fs.key e D).length := by
    intro e
    rw [hkey]
    exact (hperm.filter _).length_eq
  constructor
  · rintro ⟨hone, h⟩
    exact ⟨hone, fun e he => hlater e ▸ h e he⟩
  · rintro ⟨hone, h⟩
    exact ⟨hone, fun e he => (hlater e).symm ▸ h e he⟩

theorem Remarked.congr {fs fs' : Fileset} {S D D' : List Entry} (hkey : fs'.key = fs.key)
    (hperm : D'.Perm D) (x : Entry) : Remarked fs' S D' x ↔ Remarked fs S D x := by
  rw [Remarked, Remarked, hkey, hperm.mem_iff]

section reset

variable {fs fs' : Fileset} {ty : FseType} {F N E : List Entry}

theorem Resettable.reset (hT : TypeTrees fs ty F N E) (hR : Resettable fs F N E) :
    ∃ fs', Returns (fun fuel => filesetPickreset fuel fs ty) fs' ∧ IsReset ty fs' := by
  obtain ⟨fs₁, hret₁, ⟨D₁, hM₁, hperm₁⟩, hmarked₁, hsame₁, hlist₁⟩ := hT.loop.joined hR.noex
  obtain ⟨fs', hret, ⟨D, hM, hperm⟩, hmarked, hsame, hlist⟩ :=
    (hT.loop_joined hM₁ hperm₁).joined ((Harmless.congr hM₁.key hperm₁).mpr hR.exist)
  refine ⟨fs', (filesetPickreset_returns hT.ne_dir).mpr ⟨fs₁, hret₁, hret⟩, ?_, hM.emptied,
    ⟨D, hM.holds, ?_⟩, fun e he => ?_⟩
  · rw [Fileset.TreeHolds, hM.tree _ hT.trees_ne.2.2.symm hT.trees_ne.1, hM.key]
    exact hM₁.emptied.frame fun x hx => absurd hx List.not_mem_nil
  · rw [hlist, hlist₁]
    refine (hperm.trans (hperm₁.append_left E)).trans (List.Perm.trans ?_ hT.perm)
    exact List.perm_append_comm.trans (List.perm_append_comm.append_right E)
  · rw [hlist, hlist₁, ← hT.perm.mem_iff] at he
    by_cases h₂ : Remarked fs₁ E D₁ e
    · rw [Fileset.flags, hmarked e h₂]
      exact ⟨rfl, rfl⟩
    · rw [Fileset.flags, hsame e h₂]
      by_cases h₁ : Remarked fs N F e
      · rw [hmarked₁ e h₁]
        exact ⟨rfl, rfl⟩
      · rw [hsame₁ e h₁]
        rw [Remarked.congr hM₁.key hperm₁] at h₂
        have hF : e ∈ F := by
          rcases List.mem_append.mp he with he | hE
          · rcases List.mem_append.mp he with hF | hN
            · exact hF
            · exact absurd (.inl hN) h₁
          · exact absurd (.inl hE) h₂
        refine ⟨(hT.free_iff he).mpr hF, (hR.opened e hF).resolve_right ?_⟩
        rintro ⟨e', he', hlt⟩
        rcases List.mem_append.mp he' with hN | hE
        · exact h₁ (.inr ⟨hF, e', hN, hlt⟩)
        · exact h₂ (.inr ⟨List.mem_append_right N hF, e', hE, hlt⟩)

/-- The entries that a loop on the free tree cannot get at. -/
theorem TypeTrees.apart (hT : TypeTrees fs ty F N E) :
    Apart {x | x ∉ F ∧ x ≠ stackEntry} (freeTree ty) fs := by
  obtain ⟨hlinks, hroot⟩ := hT.free.inside
  have hsub : ∀ {o : Option Entry}, Outside {y | y ∉ F} o →
      Outside {x | x ∉ F ∧ x ≠ stackEntry} o := fun h a ha hmem => h a ha hmem.1
  refine ⟨fun a ha n hn => ?_, hsub hroot, hT.inv.stack⟩
  have haF : a ∈ F := by
    by_contra hnot
    refine ha ⟨hnot, ?_⟩
    rintro rfl
    rw [hT.inv.stack] at hn
    cases hn
  have hout := hlinks a haF n hn
  exact ⟨fun d => hsub (hout.child d), hsub hout.parent⟩

/-- What both loops leave alone, whatever they make of the free tree. -/
structure Passed (ty : FseType) (N E : List Entry) (fs fs₁ fs' : Fileset) : Prop where
  exist : fs₁.TreeHolds (existTree ty) E
  noexTree : fs'.fsTree (noexTree ty) = fs₁.fsTree (noexTree ty)
  noexTail : ∀ x ∈ N.tail, fs'.fse x = fs.fse x
  existTail : ∀ x ∈ E.tail, fs'.fse x = fs.fse x
  count : (fs₁.fsTree (freeTree ty)).avlNumnodes + min 1 E.length ≤
    (fs'.fsTree (freeTree ty)).avlNumnodes

theorem TypeTrees.passed {fs₁ : Fileset} (hT : TypeTrees fs ty F N E)
    (hret₁ : Returns (fun fuel => pickresetTree fuel (noexTree ty) (freeTree ty) fs) fs₁)
    (hret₂ : Returns (fun fuel => pickresetTree fuel (existTree ty) (freeTree ty) fs₁) fs') :
    Passed ty N E fs fs₁ fs' := by
  have hN : ∀ {x}, x ∈ N → x ∉ F ∧ x ≠ stackEntry := fun hx =>
    ⟨fun hF => hT.disjoint.1 _ hF hx, hT.ne_stack hT.noex hx⟩
  have hE : ∀ {x}, x ∈ E → x ∉ F ∧ x ≠ stackEntry := fun hx =>
    ⟨fun hF => hT.disjoint.2.1 _ hF hx, hT.ne_stack hT.exist hx⟩
  have hEN : ∀ {x}, x ∈ E → x ∉ N := fun hx hN => hT.disjoint.2.2 _ hN hx
  have hEhead : ∀ {x}, x ∈ E → N.head? ≠ some x := fun hx hhead =>
    hEN hx (List.mem_of_mem_head? hhead)
  -- the first loop cannot get at the other entries
  obtain ⟨hA₁, hleft₁, hrest₁, -⟩ := pickresetTree_reach hT.trees_ne.1 hT.noex hT.apart
    (fun h => h.2 rfl) (fun x hx => hN hx)
    (fun b hb hne e he => by
      have hF : b ∈ F := by_contra fun hF => hb ⟨hF, hne⟩
      exact hT.key_ne (by simp [he]) (by simp [hF]) fun h => hT.disjoint.1 b hF (h ▸ he)) hret₁
  have hE₁ : fs₁.TreeHolds (existTree ty) E := by
    rw [Fileset.TreeHolds, hleft₁.tree _ hT.trees_ne.2.2 hT.trees_ne.2.1, hleft₁.key]
    exact hT.exist.frame fun x hx => hleft₁.link x ⟨hE hx, hEN hx⟩
  obtain ⟨-, hleft₂, hrest₂, hcount₂⟩ := pickresetTree_reach hT.trees_ne.2.1 hE₁ hA₁
    (fun h => h.1.2 rfl) (fun x hx => ⟨hE hx, hEhead hx⟩)
    (fun b hb hne e he => by
      rw [hleft₁.key]
      by_cases hF : b ∈ F
      · exact hT.key_ne (by simp [he]) (by simp [hF]) fun h => hT.disjoint.2.1 b hF (h ▸ he)
      · have hbN : b ∈ N := List.mem_of_mem_head? (by_contra fun h => hb ⟨⟨hF, hne⟩, h⟩)
        exact hT.key_ne (by simp [he]) (by simp [hbN]) fun h => hEN he (h ▸ hbN)) hret₂
  refine ⟨hE₁, hleft₂.tree _ hT.trees_ne.2.2.symm hT.trees_ne.1, fun x hx => ?_, fun x hx => ?_,
    hcount₂⟩
  · have hmem := List.mem_of_mem_tail hx
    have hhead : N.head? ≠ some x := by
      cases N with
      | nil => cases hx
      | cons e N =>
        intro hhead
        obtain rfl := Option.some.inj hhead
        exact (List.nodup_cons.mp hT.noex.nodup).1 hx
    have hxE : x ∉ E := fun hxE => hEN hxE hmem
    exact (hleft₂.fse x ⟨⟨hN hmem, hhead⟩, hxE⟩).trans (hrest₁ x hx)
  · have hmem := List.mem_of_mem_tail hx
    exact (hrest₂ x hx).trans (hleft₁.fse x ⟨hE hmem, hEN hmem⟩)

theorem IsReset.fse_ne (hR : IsReset ty fs') (hT : TypeTrees fs ty F N E)
    (hlist : fs'.fsList = fs.fsList) {x : Entry} (hx : x ∈ N ∨ x ∈ E) : fs'.fse x ≠ fs.fse x := by
  intro hfse
  have hmem : x ∈ F ++ N ++ E := by
    rcases hx with hx | hx <;> simp [hx]
  have hfree := (hR.flags x (hlist ▸ hT.perm.mem_iff.mp hmem)).1
  rw [Fileset.flags, hfse] at hfree
  have hF := (hT.free_iff hmem).mp hfree
  rcases hx with hN | hE
  · exact hT.disjoint.1 x hF hN
  · exact hT.disjoint.2.1 x hF hE

theorem length_le_one_of_tail {l : List Entry} (h : ∀ x, x ∉ l.tail) : l.length ≤ 1 := by
  have hnil := congrArg List.length (List.eq_nil_iff_forall_not_mem.mpr h)
  rw [List.length_tail, List.length_nil] at hnil
  omega

theorem IsReset.resettable (hT : TypeTrees fs ty F N E)
    (hret : Returns (fun fuel => filesetPickreset fuel fs ty) fs') (hR : IsReset ty fs') :
    Resettable fs F N E := by
  obtain ⟨fs₁, hret₁, hret₂⟩ := (filesetPickreset_returns hT.ne_dir).mp hret
  have hlist : fs'.fsList = fs.fsList :=
    (pickresetTree_fsList hret₂).trans (pickresetTree_fsList hret₁)
  have hP := hT.passed hret₁ hret₂
  have hfinal : (fs'.fsTree (freeTree ty)).avlNumnodes = F.length + N.length + E.length := by
    obtain ⟨l, hl, hperm⟩ := hR.free
    rw [hl.count, hperm.length_eq, hlist, ← hT.perm.length_eq, List.length_append,
      List.length_append]
  have hNone : N.length ≤ 1 := length_le_one_of_tail fun x hx =>
    hR.fse_ne hT hlist (.inl (List.mem_of_mem_tail hx)) (hP.noexTail x hx)
  have hEone : E.length ≤ 1 := length_le_one_of_tail fun x hx =>
    hR.fse_ne hT hlist (.inr (List.mem_of_mem_tail hx)) (hP.existTail x hx)
  have hnoex : Harmless fs N F := by
    by_contra hnot
    rcases (hT.loop.broken hNone hnot hret₁).off with hroot | hcount
    · refine hroot ?_
      rw [← hP.noexTree]
      exact hR.noex.root_nil
    · have := hP.count
      omega
  obtain ⟨fs₁', hret₁', ⟨D, hM, hperm⟩, -, hsame₁, -⟩ := hT.loop.joined hnoex
  obtain rfl := hret₁.unique hret₁'
  have hloop₂ := hT.loop_joined hM hperm
  have hexist : Harmless fs₁ E D := by
    by_contra hnot
    have hlen := hperm.length_eq
    rw [List.length_append] at hlen
    rcases (hloop₂.broken hEone hnot hret₂).off with hroot | hcount
    · exact hroot hR.exist.root_nil
    · omega
  obtain ⟨fs₂, hret₂', -, -, hsame₂, -⟩ := hloop₂.joined hexist
  obtain rfl := hret₂.unique hret₂'
  refine ⟨hnoex, (Harmless.congr hM.key hperm).mp hexist, fun f hf => ?_⟩
  by_cases hlater : ∃ e ∈ N ++ E, fs.key e < fs.key f
  · exact .inr hlater
  · left
    have h₁ : ¬ Remarked fs N F f := by
      rintro (hN | ⟨-, e, he, hlt⟩)
      · exact hT.disjoint.1 f hf hN
      · exact hlater ⟨e, List.mem_append_left E he, hlt⟩
    have h₂ : ¬ Remarked fs₁ E D f := by
      rw [Remarked.congr hM.key hperm]
      rintro (hE | ⟨-, e, he, hlt⟩)
      · exact hT.disjoint.2.1 f hf hE
      · exact hlater ⟨e, List.mem_append_right N he, hlt⟩
    have hopen := (hR.flags f (hlist ▸ hT.perm.mem_iff.mp (by simp [hf]))).2
    rwa [hsame₂ f h₂, hsame₁ f h₁] at hopen

end reset

/-! ## From the states of a run -/

/-- Both loops of a type go on in the free tree once they have moved an entry. The reset of a
state that picks and releases reach does what it is to do exactly when neither loop comes by more
than one entry there. -/
theorem filesetPickreset_resets {smp : Samples} {fuel n E L : ℕ} {s : Shm} {fs : Fileset}
    (hpop : filesetPopulate smp fuel (newShm n) E L = some (.ok, s)) (hrun : FsRun s.fs fs) :
    ∃ T : FsTree → List Entry, (∀ t, fs.TreeHolds t (T t)) ∧ ∀ ty, ty ≠ .dir →
      ((∃ fs', Returns (fun fuel => filesetPickreset fuel fs ty) fs' ∧ IsReset ty fs') ↔
        Resettable fs (T (freeTree ty)) (T (noexTree ty)) (T (existTree ty))) := by
  obtain ⟨hI, -⟩ := hrun.inv (filesetPopulate_populated hpop).inv.fsInv
  choose T hT hmem using hI.held
  refine ⟨T, hT, fun ty hty => ?_⟩
  have htrees : TypeTrees fs ty (T (freeTree ty)) (T (noexTree ty)) (T (existTree ty)) :=
    ⟨hI, hty, hT _, hT _, hT _⟩
  constructor
  · rintro ⟨fs', hret, hreset⟩
    exact hreset.resettable htrees hret
  · exact Resettable.reset htrees

/-- The unique pick of a file, after a populate with two. -/
theorem filesetPickreset_resets_one : ∃ (s : Shm) (fs : Fileset),
    (∃ fuel, filesetPopulate (.const 2 2 100) fuel (newShm 0) 2 0 = some (.ok, s)) ∧
    FsRun s.fs fs ∧
    ∃ T : FsTree → List Entry, (∀ t, fs.TreeHolds t (T t)) ∧ ∀ ty, ty ≠ .dir →
      ((∃ fs', Returns (fun fuel => filesetPickreset fuel fs ty) fs' ∧ IsReset ty fs') ↔
        Resettable fs (T (freeTree ty)) (T (noexTree ty)) (T (existTree ty))) := by
  obtain ⟨fuel, s, hpop⟩ := filesetPopulate_const 2 0
  obtain ⟨⟨res, fs⟩, hpick⟩ := filesetPick_total (filesetPopulate_populated hpop).inv.fsInv
    ⟨.file, true, false, false⟩ (show 0 < fseMaxtid by decide) 0 0
  have hrun : FsRun s.fs fs := .single (.pick _ _ _ _ res hpick)
  exact ⟨s, fs, ⟨fuel, hpop⟩, hrun, filesetPickreset_resets hpop hrun⟩
/-- Two files are populated, and each is picked and released as an existing one. -/
theorem filesetPickreset_two_existing : ∃ (s : Shm) (fs : Fileset),
    (∃ fuel, filesetPopulate (.const 2 2 100) fuel (newShm 0) 2 0 = some (.ok, s)) ∧
      FsRun s.fs fs ∧
      ¬ ∃ fs', Returns (fun fuel => filesetPickreset fuel fs .file) fs' ∧ IsReset .file fs' := by
  obtain ⟨fuel, s, hpop⟩ := filesetPopulate_const 2 0
  have hP := filesetPopulate_populated hpop
  have hI := hP.inv.fsInv
  have hlen := hP.files
  have hflags := hP.inv.flags .file
  have hidle : s.fs.fsIdle .file ≠ 0 := by
    rw [hP.inv.idle, hlen]
    decide
  have hmax : maxEntries s.fs .file ≠ 0 := by
    rw [maxEntries, hP.constentries]
    decide
  obtain ⟨x, y, hxy⟩ := List.length_eq_two.mp hlen
  have hne : x ≠ y := by
    have hnodup := hI.nodup .file
    rw [hxy] at hnodup
    simpa using hnodup
  have hx : x ∈ s.fs.fsList .file := by simp [hxy]
  have hfx := hflags x hx
  obtain ⟨fs₁, e₁, hrun₁, he₁, -, hexist₁, hother₁, hidle₁⟩ := hI.preallocate hx (by decide)
    (by rw [hfx]; rfl) (by rw [hfx]; rfl) hidle hmax
  obtain ⟨hI₁, hsame₁⟩ := hrun₁.inv hI
  obtain ⟨f, hf, hfe⟩ : ∃ f ∈ s.fs.fsList .file, f ≠ e₁ := by
    by_cases h : x = e₁
    · exact ⟨y, by simp [hxy], fun hy => hne (h.trans hy.symm)⟩
    · exact ⟨x, hx, h⟩
  have hff : fs₁.flags f = firstFlags .file := (hother₁ f hfe).trans (hflags f hf)
  obtain ⟨fs₂, e₂, hrun₂, he₂, hfree₂, hexist₂, hother₂, -⟩ := hI₁.preallocate
    (hsame₁.list ▸ hf) (by decide) (by rw [hff]; rfl) (by rw [hff]; rfl) (hidle₁ ▸ hidle)
    (hsame₁.maxEntries .file ▸ hmax)
  obtain ⟨hI₂, hsame₂⟩ := hrun₂.inv hI₁
  have hne₁₂ : e₁ ≠ e₂ := by
    rintro rfl
    exact absurd (hexist₁.symm.trans hfree₂) (by decide)
  refine ⟨s, fs₂, ⟨fuel, hpop⟩, hrun₁.trans hrun₂, ?_⟩
  rintro ⟨fs', hret, hreset⟩
  obtain ⟨F, hF, -⟩ := hI₂.held .freeFiles
  obtain ⟨N, hN, -⟩ := hI₂.held .noexFiles
  obtain ⟨E, hE, hmem⟩ := hI₂.held .existFiles
  have htrees : TypeTrees fs₂ .file F N E := ⟨hI₂, by decide, hF, hN, hE⟩
  have hone := (hreset.resettable htrees hret).exist.one
  have h₁ : e₁ ∈ E := by
    refine (hmem e₁).mpr ⟨Fileset.mem_entries.mpr ⟨.file, ?_⟩, ?_⟩
    · rw [hsame₂.list, hsame₁.list]
      exact he₁
    · rw [hother₂ e₁ hne₁₂, hexist₁]
      rfl
  have h₂ : e₂ ∈ E := by
    refine (hmem e₂).mpr ⟨Fileset.mem_entries.mpr ⟨.file, ?_⟩, hexist₂⟩
    rw [hsame₂.list]
    exact he₂
  cases E with
  | nil => cases h₁
  | cons a E =>
    obtain rfl : E = [] := by simpa using hone
    exact hne₁₂ ((List.mem_singleton.mp h₁).trans (List.mem_singleton.mp h₂).symm)

end Filebench

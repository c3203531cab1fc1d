import Filebench.Fileset.PickSpec
import Filebench.Fileset.PopulateTotal

/-! # The order in which a pick searches

From the entry with the least index that is not below the one asked for, or else from the first
entry, around the tree to an entry that is not busy. -/
namespace Filebench

open Avl Fuel Circular

/-- The index that a pick asks for, unless the random number generator refuses one. -/
def pickIndex (fs : Fileset) (flags : PickFlags) (tid : ℕ) (index : ℤ) (random : ℕ) : Option ℕ :=
  if flags.unique then
    if index ≠ 0 then some (toUint index)
    else (filebenchRandomno64 random (maxEntries fs flags.type) 1).map fun n : ℕ => toUint n
  else if flags.byindex then some (toUint index)
  else pickRotor fs flags tid

/-- The entry of the least index that is not below `k`, or the least one if there is none. -/
def IsNearest (key : Entry → ℕ) (k : ℕ) (l : List Entry) : Option Entry → Prop
  | none => l = []
  | some e => e ∈ l ∧ (k ≤ key e ∧ (∀ x ∈ l, k ≤ key x → key e ≤ key x) ∨
      (∀ x ∈ l, key x < k) ∧ ∀ x ∈ l, key e ≤ key x)

/-- The first entry of `c` that is not busy; NULL when all are busy. -/
inductive FirstIdle (fs : Fileset) (c : List Entry) : PickResult → Prop where
  | null (h : ∀ x ∈ c, (fs.flags x).busy = true) : FirstIdle fs c .null
  | entry (l₁ l₂ : List Entry) (e : Entry) (hc : c = l₁ ++ e :: l₂)
      (h : ∀ x ∈ l₁, (fs.flags x).busy = true) (he : (fs.flags e).busy = false) :
      FirstIdle fs c (.entry e)

theorem FirstIdle.null_iff {fs : Fileset} {c : List Entry} {res : PickResult}
    (h : FirstIdle fs c res) : res = .null ↔ ∀ x ∈ c, (fs.flags x).busy = true := by
  cases h with
  | null h => exact iff_of_true rfl h
  | entry l₁ l₂ e hc h he =>
    refine iff_of_false nofun fun hall => ?_
    rw [hall e (by simp [hc])] at he
    cases he

variable {fs : Fileset} {t : FsTree} {l : List Entry}

theorem isNearest_circular (hsorted : l.Pairwise (fs.key · < fs.key ·)) (k : ℕ) :
    IsNearest fs.key k l (circular fs.key k l).head? := by
  rw [head?_circular]
  cases hfind : l.find? fun x => decide (k ≤ fs.key x) with
  | some e =>
    obtain ⟨hk, l₁, l₂, rfl, hbelow⟩ := List.find?_eq_some_iff_append.mp hfind
    refine ⟨by simp, .inl ⟨of_decide_eq_true hk, fun x hx hkx => ?_⟩⟩
    rcases List.mem_append.mp hx with hx | hx
    · exact absurd hkx (by simpa using hbelow x hx)
    · rcases List.mem_cons.mp hx with rfl | hx
      · exact le_rfl
      · have hafter := (List.pairwise_append.mp hsorted).2.1
        exact ((List.pairwise_cons.mp hafter).1 x hx).le
  | none =>
    have hbelow : ∀ x ∈ l, fs.key x < k := by simpa using hfind
    cases l with
    | nil => rfl
    | cons a l =>
      refine ⟨.head _, .inr ⟨hbelow, fun x hx => ?_⟩⟩
      rcases List.mem_cons.mp hx with rfl | hx
      · exact le_rfl
      · exact ((List.pairwise_cons.mp hsorted).1 x hx).le

theorem pickFinish_first (fs fs' : Fileset) (hflags : fs'.flags = fs.flags) (ty : FseType) (k : ℕ) :
    FirstIdle fs (circular fs'.key k l) (pickFinish fs' l ty k).1 := by
  rw [pickFinish, hflags]
  cases hfind : (circular fs'.key k l).find? fun e => !(fs.flags e).busy with
  | none => exact .null (by simpa using hfind)
  | some e =>
    obtain ⟨he, l₁, l₂, hc, hbefore⟩ := List.find?_eq_some_iff_append.mp hfind
    exact .entry l₁ l₂ e hc (by simpa using hbefore) (by simpa using he)

theorem pickView_first {flags : PickFlags} {tid : ℕ} {index : ℤ} {random k : ℕ}
    (hlist : fs.fsList flags.type = [] → l = []) (hidle : fs.fsIdle flags.type ≠ 0)
    (hk : pickIndex fs flags tid index random = some k) :
    ∃ res fs', pickView fs l flags tid index random = some (res, fs') ∧
      FirstIdle fs (circular fs.key k l) res := by
  by_cases hl : l = []
  · subst hl
    refine ⟨.null, fs, ?_, .null (by simp)⟩
    unfold pickView
    by_cases hfs : fs.fsList flags.type = []
    · rw [if_pos hfs]
    · rw [if_neg hfs, if_neg hidle, if_pos rfl]
  · have hfinish : ∀ k', k' = k →
        ∃ res fs', some (pickFinish fs l flags.type k') = some (res, fs') ∧
        FirstIdle fs (circular fs.key k l) res := by
      rintro _ rfl
      exact ⟨_, _, rfl, pickFinish_first fs fs rfl flags.type _⟩
    unfold pickView
    rw [if_neg fun hfs => hl (hlist hfs), if_neg hidle, if_neg hl]
    unfold pickIndex at hk
    split_ifs at hk ⊢ with hunique hindex hby
    · exact hfinish _ (Option.some.inj hk)
    · obtain ⟨n, hn, hk⟩ := Option.map_eq_some_iff.mp hk
      rw [hn]
      exact hfinish _ hk
    · exact hfinish _ (Option.some.inj hk)
    · rw [hk, Option.bind_some]
      cases hc : (circular fs.key k l).head? with
      | none => exact absurd (circular_eq_nil.mp (List.head?_eq_none_iff.mp hc)) hl
      | some e =>
        obtain ⟨s, hs⟩ := setPickRotor_eq fs flags tid (toUint ((fs.key e : ℤ) + 1))
        have hfirst : FirstIdle fs (circular fs.key k l)
            (pickFinish (fs.withRotors s) l flags.type k).1 :=
          pickFinish_first fs (fs.withRotors s) rfl flags.type k
        rw [Option.map_some, hs]
        exact ⟨_, _, rfl, hfirst⟩

/-- The search by index finds the nearest entry, and a pick returns the first idle one from there
on in circular order. It always returns. -/
theorem filesetPick_circular (hl : fs.TreeHolds t l) :
    (∀ k, ∃ r, Returns (fun fuel => filesetFindEntry fuel fs t k) r ∧ IsNearest fs.key k l r) ∧
    ∀ flags tid index random k, pickTree flags = t → (fs.fsList flags.type = [] → l = []) →
      fs.fsIdle flags.type ≠ 0 → pickIndex fs flags tid index random = some k →
      ∃ res fs', Returns (fun fuel => filesetPick fuel fs flags tid index random) (res, fs') ∧
        FirstIdle fs (circular fs.key k l) res ∧
        (res = .null ↔ ∀ x ∈ l, (fs.flags x).busy = true) := by
  constructor
  · intro k
    exact ⟨_, ⟨l.length + 1, fun fuel hfuel => filesetFindEntry_holds hl k hfuel⟩,
      isNearest_circular hl.sorted k⟩
  · rintro flags tid index random k rfl hlist hidle hk
    obtain ⟨res, fs', hview, hfirst⟩ := pickView_first hlist hidle hk
    refine ⟨res, fs', ⟨l.length + 1, fun fuel hfuel => ?_⟩, hfirst, ?_⟩
    · exact (filesetPick_holds hl tid index random hfuel).trans hview
    · simp only [hfirst.null_iff, mem_circular]

/-- The unique pick of a file by the index 2, after a populate with three files. -/
theorem filesetPick_circular_three : ∃ (fs : Fileset) (l : List Entry) (r : Option Entry)
    (res : PickResult) (fs' : Fileset), l.length = 3 ∧
      Returns (fun fuel => filesetFindEntry fuel fs .freeFiles 2) r ∧ IsNearest fs.key 2 l r ∧
      Returns (fun fuel => filesetPick fuel fs ⟨.file, true, false, false⟩ 0 2 0) (res, fs') ∧
      FirstIdle fs (circular fs.key 2 l) res ∧
      (res = .null ↔ ∀ x ∈ l, (fs.flags x).busy = true) := by
  obtain ⟨fuel, s, hpop⟩ := filesetPopulate_const 3 1
  obtain ⟨hfiles, -⟩ := (filesetPopulate_populated hpop).allFree
  obtain ⟨l, hl, hperm⟩ := hfiles.tree
  obtain ⟨hfind, hpick⟩ := filesetPick_circular hl
  obtain ⟨r, hr, hnearest⟩ := hfind 2
  have hidle : s.fs.fsIdle .file ≠ 0 := by
    rw [hfiles.idle]
    decide
  have hlist : s.fs.fsList .file = [] → l = [] := by
    intro h
    have hlength := hfiles.length
    rw [h] at hlength
    cases hlength
  obtain ⟨res, fs', hret, hfirst, hnull⟩ := hpick ⟨.file, true, false, false⟩ 0 2 0 2 rfl hlist
    hidle rfl
  exact ⟨s.fs, l, r, res, fs', hperm.length_eq.trans hfiles.length, hr, hnearest, hret, hfirst,
    hnull⟩

end Filebench

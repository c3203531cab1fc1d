import Filebench.Fileset.Populate
import Filebench.Lib.DirTree

/-! # Making the directories of a path

`fileset_mkdir` cuts names off the end of the path until something exists or hardly anything is
left, and makes the directories on its way back. -/
namespace Filebench

open Directories

/-- The loop of `trunc_dirname` at `s`, which ends before the first character. -/
def truncLoop : ℕ → CString → CString
  | 0, dir => dir
  | s + 1, dir =>
    let c := dir[s + 1]?
    let dir := dir.take (s + 1)
    if c = some '/' then dir else truncLoop s dir

def truncDirname (dir : CString) : CString := truncLoop dir.length dir

theorem truncLoop_append {q x : CString} (hq : q ≠ []) (hx : '/' ∉ x) {j : ℕ}
    (hj : x.length ≤ j) : truncLoop (q.length + j) (q ++ '/' :: x) = q := by
  induction j generalizing x with
  | zero =>
    obtain ⟨n, hn⟩ := Nat.exists_eq_succ_of_ne_zero (List.length_pos_of_ne_nil hq).ne'
    rw [Nat.add_zero, hn, truncLoop]
    rw [← Nat.succ_eq_add_one, ← hn]
    simp
  | succ j ih =>
    rw [← Nat.add_assoc, truncLoop, Nat.add_assoc]
    have hget : (q ++ '/' :: x)[q.length + (j + 1)]? = x[j]? := by
      rw [List.getElem?_append_right (by omega), Nat.add_sub_cancel_left, List.getElem?_cons_succ]
    have htake : (q ++ '/' :: x).take (q.length + (j + 1)) = q ++ '/' :: x.take j := by
      rw [List.take_length_add_append, List.take_succ_cons]
    rw [hget, htake]
    rw [if_neg fun h => hx (List.mem_of_getElem? h)]
    exact ih (fun h => hx (List.mem_of_mem_take h)) (List.length_take_le ..)

theorem truncLoop_cons {c : Char} {x : CString} (hx : '/' ∉ x) {j : ℕ} (hj : x.length ≤ j) :
    truncLoop j (c :: x) = [c] := by
  induction j generalizing x with
  | zero =>
    obtain rfl := List.length_eq_zero_iff.mp (Nat.le_zero.mp hj)
    rfl
  | succ j ih =>
    rw [truncLoop, List.getElem?_cons_succ, List.take_succ_cons]
    rw [if_neg fun h => hx (List.mem_of_getElem? h)]
    exact ih (fun h => hx (List.mem_of_mem_take h)) (List.length_take_le ..)

theorem truncDirname_append {q x : CString} (hq : q ≠ []) (hx : '/' ∉ x) :
    truncDirname (q ++ '/' :: x) = q := by
  rw [truncDirname, List.length_append]
  exact truncLoop_append hq hx (Nat.le_succ _)

theorem truncDirname_cons {c : Char} {x : CString} (hx : '/' ∉ x) :
    truncDirname (c :: x) = [c] := truncLoop_cons hx (Nat.le_succ _)

theorem exists_last_slash {p : CString} (h : '/' ∈ p) :
    ∃ q x, '/' ∉ x ∧ p = q ++ '/' :: x := by
  induction p with
  | nil => cases h
  | cons c p ih =>
    by_cases hp : '/' ∈ p
    · obtain ⟨q, x, hx, rfl⟩ := ih hp
      exact ⟨c :: q, x, hx, rfl⟩
    · rcases List.mem_cons.mp h with rfl | h
      · exact ⟨[], p, hp, rfl⟩
      · exact absurd h hp

/-- What is cut off a path, its last name with a slash or all but the first character. -/
inductive Cut : CString → Prop where
  | slash {q x : CString} (hq : q ≠ []) (hx : '/' ∉ x) : Cut (q ++ '/' :: x)
  | first {c : Char} {x : CString} (hx : '/' ∉ x) : Cut (c :: x)

theorem cut_of_ne_nil {p : CString} (hp : p ≠ []) : Cut p := by
  by_cases h : '/' ∈ p
  · obtain ⟨q, x, hx, rfl⟩ := exists_last_slash h
    cases q with
    | nil => exact .first hx
    | cons c q => exact .slash (List.cons_ne_nil c q) hx
  · obtain ⟨c, x, rfl⟩ := List.exists_cons_of_ne_nil hp
    exact .first fun hx => h (List.mem_cons_of_mem c hx)

theorem truncDirname_length {p : CString} (hp : 2 ≤ p.length) :
    (truncDirname p).length < p.length := by
  cases cut_of_ne_nil (List.ne_nil_of_length_pos (Nat.zero_lt_two.trans_le hp)) with
  | slash hq hx =>
    rw [truncDirname_append hq hx, List.length_append]
    exact Nat.lt_add_of_pos_right (Nat.succ_pos _)
  | first hx =>
    rw [truncDirname_cons hx]
    exact hp

/-- The length of the array `dirs`. -/
def mkdirDirs : ℕ := 65536

/-- `dirs` are the paths in the array, the last one first. Past its end there is no result. -/
def filesetMkdirLoop (strdup : ℕ → Bool) (t : DirTree) (p : CString) (dirs : List CString) :
    Option (Option (List CString)) :=
  if t.stat p then some (some dirs)
  else if h : p.length < 3 then some (some dirs)
  else if mkdirDirs ≤ dirs.length then none
  else if strdup (dirs.length + 1) then
    filesetMkdirLoop strdup t (truncDirname p) (p :: dirs)
  else some none
termination_by p.length
decreasing_by exact truncDirname_length (by omega)

/-- `strdup` tells which copies there is memory for. The modes of the directories are left out. -/
def filesetMkdir (strdup : ℕ → Bool) (t : DirTree) (path : CString) :
    Option (FilebenchRet × DirTree) :=
  if strdup 0 then
    match filesetMkdirLoop strdup t path [] with
    | none => none
    | some none => some (.error, t)
    | some (some dirs) => some (.ok, dirs.foldl DirTree.mkdir t)
  else some (.error, t)

/-- The walk back to the root stops at a missing directory with a name of one character. -/
def Stops (t : DirTree) (path : CString) : Prop :=
  ∃ c rest, path = '/' :: c :: rest ∧ c ≠ '/' ∧ ¬ t.stat ['/', c] ∧
    (rest = [] ∨ ∃ c' rest', rest = '/' :: c' :: rest' ∧ c' ≠ '/')

/-- The path itself or one that a slash follows in it. -/
def IsAncestor (q path : CString) : Prop := q ≠ [] ∧ (q = path ∨ ∃ r, path = q ++ '/' :: r)

section walk

variable {strdup : ℕ → Bool} {t : DirTree} {p : CString} {dirs dirs' : List CString}

theorem components_first {c : Char} (hc : c ≠ '/') : components ['/', c] = [[c]] := by
  rw [show ['/', c] = [] ++ '/' :: [c] from rfl, components_append,
    components_of_notMem (by simpa using hc.symm) (List.cons_ne_nil _ _)]
  rfl

/-- A missing first directory keeps everything under it missing. -/
theorem walk_first {c : Char} (hc : c ≠ '/') (h : ¬ t.stat ['/', c]) (cs : List CString) :
    t.walk ([c] :: cs) = none := by
  have hnone : t.walk [[c]] = none := by
    rw [DirTree.stat, components_first hc] at h
    exact Option.not_isSome_iff_eq_none.mp h
  rw [← List.singleton_append, DirTree.walk_append, hnone, Option.bind_none]

theorem components_under {c : Char} (hc : c ≠ '/') (r : CString) :
    components ('/' :: c :: '/' :: r) = [c] :: components r := by
  rw [show '/' :: c :: '/' :: r = ['/', c] ++ '/' :: r from rfl, components_append,
    components_first hc, List.singleton_append]

theorem Stops.not_stat (h : Stops t p) : ¬ t.stat p := by
  obtain ⟨c, rest, rfl, hc, hmissing, rfl | ⟨c', rest', rfl, -⟩⟩ := h
  · exact hmissing
  · rw [DirTree.stat, components_under hc, walk_first hc hmissing]
    nofun

/-- Under the missing directory nothing is made. -/
theorem Stops.mkdir (h : Stops t p) (hlong : 3 ≤ p.length) : t.mkdir p = t := by
  obtain ⟨c, rest, rfl, hc, hmissing, rfl | ⟨c', rest', rfl, hc'⟩⟩ := h
  · exact absurd hlong (by simp)
  · apply DirTree.mkdir_of_none
    have hne : components (c' :: rest') ≠ [] := by
      rw [components, componentsFrom, if_neg hc']
      exact componentsFrom_ne_nil (List.cons_ne_nil _ _) _
    rw [components_under hc, List.dropLast_cons_of_ne_nil hne]
    exact walk_first hc hmissing _

theorem Stops.truncDirname (h : Stops t p) (hlong : 3 ≤ p.length) :
    Stops t (truncDirname p) := by
  obtain ⟨c, rest, rfl, hc, hmissing, rfl | ⟨c', rest', rfl, hc'⟩⟩ := h
  · exact absurd hlong (by simp)
  · generalize hp : '/' :: c :: '/' :: c' :: rest' = p
    cases cut_of_ne_nil (hp ▸ List.cons_ne_nil _ _) with
    | @slash q x hq hx =>
      rw [truncDirname_append hq hx]
      match q with
      | [] => exact absurd rfl hq
      | [_] =>
        obtain ⟨rfl, rfl, -⟩ := by simpa using hp
        exact absurd rfl hc
      | [_, _] =>
        obtain ⟨rfl, rfl, -⟩ := by simpa using hp
        exact ⟨c, [], rfl, hc, hmissing, .inl rfl⟩
      | [_, _, _] =>
        obtain ⟨rfl, rfl, rfl, rfl, -⟩ := by simpa using hp
        exact absurd rfl hc'
      | _ :: _ :: _ :: _ :: q =>
        obtain ⟨rfl, rfl, rfl, rfl, -⟩ := by simpa using hp
        exact ⟨c, _, rfl, hc, hmissing, .inr ⟨c', q, rfl, hc'⟩⟩
    | @first c₀ x hx =>
      obtain ⟨-, rfl⟩ := List.cons.inj hp
      exact absurd (List.mem_cons_of_mem c List.mem_cons_self) hx

/-- Where the walk stops at the next step, it stops here, or the path ends with the slash. -/
theorem stops_of_truncDirname (h : Stops t (truncDirname p)) (hp : p ≠ []) :
    Stops t p ∨ ∃ c, c ≠ '/' ∧ p = ['/', c, '/'] := by
  cases cut_of_ne_nil hp with
  | @slash q x hq hx =>
    rw [truncDirname_append hq hx] at h
    obtain ⟨c, rest, rfl, hc, hmissing, rfl | ⟨c', rest', rfl, hc'⟩⟩ := h
    · cases x with
      | nil => exact .inr ⟨c, hc, rfl⟩
      | cons c' x =>
        refine .inl ⟨c, '/' :: c' :: x, rfl, hc, hmissing, .inr ⟨c', x, rfl, ?_⟩⟩
        rintro rfl
        exact hx List.mem_cons_self
    · exact .inl ⟨c, _, rfl, hc, hmissing, .inr ⟨c', rest' ++ '/' :: x, rfl, hc'⟩⟩
  | first hx =>
    rw [truncDirname_cons hx] at h
    obtain ⟨c, rest, heq, -⟩ := h
    cases heq

theorem head_truncDirname {r : CString} : ∃ r', truncDirname ('/' :: r) = '/' :: r' := by
  generalize hp : '/' :: r = p
  cases cut_of_ne_nil (hp ▸ List.cons_ne_nil _ _) with
  | @slash q x hq hx =>
    rw [truncDirname_append hq hx]
    cases q with
    | nil => exact absurd rfl hq
    | cons c q =>
      obtain ⟨rfl, -⟩ := List.cons.inj hp
      exact ⟨q, rfl⟩
  | @first c x hx =>
    obtain ⟨rfl, -⟩ := List.cons.inj hp
    exact ⟨[], truncDirname_cons hx⟩

/-- A path that is too short and does not exist is where the walk stops. -/
theorem stops_of_short {r : CString} (hmissing : ¬ t.stat ('/' :: r))
    (hshort : ('/' :: r).length < 3) : Stops t ('/' :: r) := by
  match r with
  | [] => exact absurd rfl hmissing
  | [c] =>
    refine ⟨c, [], rfl, ?_, hmissing, .inl rfl⟩
    rintro rfl
    exact hmissing rfl
  | _ :: _ :: _ => exact absurd hshort (by simp)

/-- After the directory that it was cut to, a path is made. -/
theorem stat_mkdir_of_truncDirname {r : CString} (h : t.stat (truncDirname ('/' :: r))) :
    (t.mkdir ('/' :: r)).stat ('/' :: r) := by
  generalize hp : '/' :: r = p at h ⊢
  cases cut_of_ne_nil (hp ▸ List.cons_ne_nil _ _) with
  | slash hq hx =>
    rw [truncDirname_append hq hx] at h
    exact DirTree.stat_mkdir hx h
  | @first c x hx =>
    obtain ⟨rfl, -⟩ := List.cons.inj hp
    exact DirTree.stat_mkdir (q := []) hx rfl

theorem stat_mkdir_slash {c : Char} (hc : c ≠ '/') :
    (t.mkdir ['/', c, '/']).stat ['/', c, '/'] := by
  have hcomps : components ['/', c, '/'] = components ([] ++ '/' :: [c]) :=
    (components_under hc []).trans (components_first hc).symm
  rw [DirTree.stat, DirTree.mkdir, hcomps]
  exact DirTree.stat_mkdir (q := []) (by simpa using hc.symm) rfl

/-- What the directories that the loop found make of a tree, in terms of one of them. -/
theorem filesetMkdirLoop_spec {r : CString} (habs : p = '/' :: r)
    (h : filesetMkdirLoop strdup t p dirs = some (some dirs')) :
    ∃ t', dirs'.foldl DirTree.mkdir t = dirs.foldl DirTree.mkdir t' ∧
      (Stops t p → t' = t) ∧ (¬ Stops t p → t'.stat p) := by
  fun_induction filesetMkdirLoop strdup t p dirs generalizing r with
  | case1 p dirs hstat =>
    cases h
    exact ⟨t, rfl, fun _ => rfl, fun _ => hstat⟩
  | case2 p dirs hstat hshort =>
    cases h
    subst habs
    exact ⟨t, rfl, fun _ => rfl, fun hstops => absurd (stops_of_short hstat hshort) hstops⟩
  | case3 => cases h
  | case4 p dirs hstat hlong _ _ ih =>
    subst habs
    obtain ⟨r', hr'⟩ := head_truncDirname (r := r)
    obtain ⟨t₁, hfold, hsame, hmade⟩ := ih hr' h
    refine ⟨t₁.mkdir ('/' :: r), hfold, ?_, ?_⟩
    · intro hstops
      rw [hsame (hstops.truncDirname (not_lt.mp hlong)), hstops.mkdir (not_lt.mp hlong)]
    · intro hstops
      by_cases htrunc : Stops t (truncDirname ('/' :: r))
      · rcases stops_of_truncDirname htrunc (List.cons_ne_nil _ _) with h | ⟨c, hc, heq⟩
        · exact absurd h hstops
        · rw [heq]
          exact stat_mkdir_slash hc
      · exact stat_mkdir_of_truncDirname (hmade htrunc)
  | case5 => cases h

/-- A path with fewer slashes than the array is long does not run past its end. -/
theorem filesetMkdirLoop_returns {r : CString} (habs : p = '/' :: r)
    (hcount : dirs.length + p.count '/' ≤ mkdirDirs ∨ t.stat p) :
    filesetMkdirLoop strdup t p dirs ≠ none := by
  fun_induction filesetMkdirLoop strdup t p dirs generalizing r with
  | case1 => nofun
  | case2 => nofun
  | case3 p dirs hstat _ hfull =>
    have hslash : 0 < p.count '/' := List.count_pos_iff.mpr (habs ▸ List.mem_cons_self)
    have hroom := hcount.resolve_right hstat
    omega
  | case4 p dirs hstat _ _ _ ih =>
    have hroom := hcount.resolve_right hstat
    subst habs
    obtain ⟨r', hr'⟩ := head_truncDirname (r := r)
    refine ih hr' ?_
    generalize hp : '/' :: r = p at hroom ⊢
    cases cut_of_ne_nil (hp ▸ List.cons_ne_nil _ _) with
    | @slash q x hq hx =>
      left
      rw [truncDirname_append hq hx, List.length_cons]
      rw [List.count_append, List.count_cons_self] at hroom
      omega
    | @first c x hx =>
      right
      obtain ⟨rfl, -⟩ := List.cons.inj hp
      rw [truncDirname_cons hx]
      rfl
  | case5 => nofun

end walk

theorem filesetMkdir_returns (strdup : ℕ → Bool) (t : DirTree) {path : CString}
    (habs : path.head? = some '/') (hcount : path.count '/' ≤ mkdirDirs) :
    filesetMkdir strdup t path ≠ none := by
  have hloop : filesetMkdirLoop strdup t path [] ≠ none :=
    filesetMkdirLoop_returns (List.cons_head?_tail habs).symm (.inl (by simpa using hcount))
  unfold filesetMkdir
  split_ifs
  · split
    next heq => exact absurd heq hloop
    · nofun
    · nofun
  · nofun

/-- When the call succeeds, the path is there with its ancestors unless the walk stops. -/
theorem filesetMkdir_makes {strdup : ℕ → Bool} {t t' : DirTree} {path : CString}
    (habs : path.head? = some '/') (h : filesetMkdir strdup t path = some (.ok, t')) :
    (∀ q, IsAncestor q path → t'.stat q) ↔ ¬ Stops t path := by
  obtain ⟨r, rfl⟩ : ∃ r, path = '/' :: r := ⟨path.tail, (List.cons_head?_tail habs).symm⟩
  unfold filesetMkdir at h
  split_ifs at h
  · split at h
    · cases h
    · cases h
    next dirs hloop =>
      obtain ⟨t₁, hfold, hsame, hmade⟩ := filesetMkdirLoop_spec rfl hloop
      obtain rfl : dirs.foldl DirTree.mkdir t = t' := by cases h; rfl
      rw [show dirs.foldl DirTree.mkdir t = t₁ from hfold]
      constructor
      · intro hall hstops
        rw [hsame hstops] at hall
        exact hstops.not_stat (hall _ ⟨List.cons_ne_nil _ _, .inl rfl⟩)
      · rintro hstops q ⟨-, rfl | ⟨r', hr'⟩⟩
        · exact hmade hstops
        · have hpath := hmade hstops
          rw [hr'] at hpath
          exact DirTree.stat_of_append hpath
  · cases h

/-- Only the root. -/
def rootOnly : DirTree where
  mem d := d.isEmpty
  root := rfl
  parent _ _ h := nomatch h

theorem filesetMkdir_ab : (rootOnly.mkdir "/ab".toList).stat "/ab".toList := by
  have hcall : filesetMkdir (fun _ => true) rootOnly "/ab".toList =
      some (.ok, rootOnly.mkdir "/ab".toList) := by
    rw [filesetMkdir, if_pos rfl, filesetMkdirLoop, if_neg (by decide), dif_neg (by decide),
      if_neg (by decide), if_pos rfl, filesetMkdirLoop, if_pos (by decide)]
    rfl
  refine (filesetMkdir_makes rfl hcall).mpr ?_ _ ⟨by decide, .inl rfl⟩
  rintro ⟨c, rest, heq, -, -, hrest⟩
  cases heq
  rcases hrest with h | ⟨c', rest', h, -⟩ <;> cases h

theorem filesetMkdir_stops_short :
    filesetMkdir (fun _ => true) rootOnly "/a".toList = some (.ok, rootOnly) ∧
    IsAncestor "/a".toList "/a".toList ∧ ¬ rootOnly.stat "/a".toList := by
  refine ⟨?_, ⟨by decide, .inl rfl⟩, by decide⟩
  rw [filesetMkdir, if_pos rfl, filesetMkdirLoop, if_neg (by decide), dif_pos (by decide)]
  rfl

end Filebench

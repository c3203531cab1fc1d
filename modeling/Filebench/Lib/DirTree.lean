import Filebench.Lib.CString

/-! # Directories

A tree of directories, and how a path leads through it from the root: empty names are skipped,
and the two special names stay or go back. A directory is the list of the names on the way to it,
the last one first. -/
namespace Filebench.Directories

/-- The names between the slashes, without the empty ones. -/
def componentsFrom : CString → CString → List CString
  | name, [] => if name = [] then [] else [name]
  | name, c :: p =>
    if c = '/' then (if name = [] then [] else [name]) ++ componentsFrom [] p
    else componentsFrom (name ++ [c]) p

def components (p : CString) : List CString := componentsFrom [] p

/-- A directory exists with its parent. -/
structure DirTree where
  mem : List CString → Bool
  root : mem []
  parent : ∀ c d, mem (c :: d) → mem d

namespace DirTree

def step (t : DirTree) (d : List CString) (c : CString) : Option (List CString) :=
  if c = ['.'] then some d
  else if c = ['.', '.'] then some d.tail
  else if t.mem (c :: d) then some (c :: d) else none

def walk (t : DirTree) (cs : List CString) : Option (List CString) := cs.foldlM t.step []

/-- Whether an absolute path is that of a directory. -/
def stat (t : DirTree) (p : CString) : Bool := (t.walk (components p)).isSome

/-- A directory for a name in one that exists. -/
def insert (t : DirTree) (c : CString) (d : List CString) : DirTree where
  mem x := t.mem x || (decide (x = c :: d) && t.mem d)
  root := by rw [t.root, Bool.true_or]
  parent c' d' h := by
    rcases Bool.or_eq_true_iff.mp h with h | h
    · rw [t.parent c' d' h, Bool.true_or]
    · obtain ⟨heq, hd⟩ := Bool.and_eq_true_iff.mp h
      obtain ⟨-, rfl⟩ := List.cons.inj (of_decide_eq_true heq)
      rw [hd, Bool.true_or]

/-- A missing directory is made when its parent exists. -/
def mkdir (t : DirTree) (p : CString) : DirTree :=
  match t.walk (components p).dropLast, (components p).getLast? with
  | some d, some c => if c = ['.'] ∨ c = ['.', '.'] then t else t.insert c d
  | _, _ => t

end DirTree

/-! ## Components -/

theorem componentsFrom_append (name a b : CString) :
    componentsFrom name (a ++ '/' :: b) = componentsFrom name a ++ components b := by
  induction a generalizing name with
  | nil => exact if_pos rfl
  | cons c a ih =>
    rw [List.cons_append, componentsFrom, componentsFrom]
    split_ifs
    · rw [ih, List.append_assoc]
    · exact congrArg _ (ih [])
    · exact ih _

theorem components_append (a b : CString) :
    components (a ++ '/' :: b) = components a ++ components b := componentsFrom_append [] a b

theorem componentsFrom_of_notMem {name x : CString} (h : '/' ∉ x) :
    componentsFrom name x = if name ++ x = [] then [] else [name ++ x] := by
  induction x generalizing name with
  | nil => rw [componentsFrom, List.append_nil]
  | cons c x ih =>
    obtain ⟨hc, hx⟩ := not_or.mp (mt List.mem_cons.mpr h)
    rw [componentsFrom, if_neg (Ne.symm hc), ih hx, List.append_assoc, List.singleton_append]

theorem components_of_notMem {x : CString} (h : '/' ∉ x) (hx : x ≠ []) : components x = [x] :=
  (componentsFrom_of_notMem h).trans (if_neg hx)

theorem componentsFrom_ne_nil {name : CString} (h : name ≠ []) (p : CString) :
    componentsFrom name p ≠ [] := by
  induction p generalizing name with
  | nil =>
    rw [componentsFrom, if_neg h]
    exact List.cons_ne_nil _ _
  | cons c p ih =>
    rw [componentsFrom, if_neg h]
    split_ifs
    · exact List.cons_ne_nil _ _
    · exact ih (List.append_ne_nil_of_left_ne_nil h _)

/-! ## Walks -/

namespace DirTree

variable {t t' : DirTree} {d : List CString} {cs : List CString} {p q : CString}

theorem walk_append (cs cs' : List CString) :
    t.walk (cs ++ cs') = (t.walk cs).bind fun d => cs'.foldlM t.step d := List.foldlM_append

/-- What exists in the one exists in the other. -/
def Le (t t' : DirTree) : Prop := ∀ d, t.mem d → t'.mem d

theorem le_insert (t : DirTree) (c : CString) (d : List CString) : Le t (t.insert c d) :=
  fun _ hx => Bool.or_eq_true_iff.mpr (.inl hx)

theorem mem_insert {c : CString} (h : t.mem d) : (t.insert c d).mem (c :: d) := by
  simp [insert, h]

theorem Le.step (h : Le t t') {c : CString} {e : List CString} (he : t.step d c = some e) :
    t'.step d c = some e := by
  unfold DirTree.step at he ⊢
  split_ifs at he with h₁ h₂ hmem
  · rw [if_pos h₁, he]
  · rw [if_neg h₁, if_pos h₂, he]
  · rw [if_neg h₁, if_neg h₂, if_pos (h _ hmem), he]

theorem Le.foldlM (h : Le t t') {e : List CString} (he : cs.foldlM t.step d = some e) :
    cs.foldlM t'.step d = some e := by
  induction cs generalizing d with
  | nil => exact he
  | cons c cs ih =>
    obtain ⟨d', hd', he⟩ := Option.bind_eq_some_iff.mp he
    exact Option.bind_eq_some_iff.mpr ⟨d', h.step hd', ih he⟩

theorem mem_of_step {c : CString} {e : List CString} (hd : t.mem d) (h : t.step d c = some e) :
    t.mem e := by
  unfold step at h
  split_ifs at h with h₁ h₂ hmem
  · exact Option.some.inj h ▸ hd
  · obtain rfl := Option.some.inj h
    cases d with
    | nil => exact hd
    | cons c d => exact t.parent c d hd
  · exact Option.some.inj h ▸ hmem

theorem mem_of_foldlM {e : List CString} (hd : t.mem d) (h : cs.foldlM t.step d = some e) :
    t.mem e := by
  induction cs generalizing d with
  | nil => exact Option.some.inj h ▸ hd
  | cons c cs ih =>
    obtain ⟨d', hd', he⟩ := Option.bind_eq_some_iff.mp h
    exact ih (mem_of_step hd hd') he

theorem stat_iff : t.stat p ↔ ∃ d, t.walk (components p) = some d := Option.isSome_iff_exists

/-- A path exists with its ancestors. -/
theorem stat_of_append {r : CString} (h : t.stat (q ++ '/' :: r)) : t.stat q := by
  rw [stat_iff, components_append, walk_append] at h
  obtain ⟨e, he⟩ := h
  obtain ⟨d, hd, -⟩ := Option.bind_eq_some_iff.mp he
  exact stat_iff.mpr ⟨d, hd⟩

theorem le_mkdir (t : DirTree) (p : CString) : Le t (t.mkdir p) := by
  unfold mkdir
  split
  · split_ifs
    · exact fun _ h => h
    · exact le_insert t _ _
  · exact fun _ h => h

theorem walk_concat (cs : List CString) (c : CString) :
    t.walk (cs ++ [c]) = (t.walk cs).bind fun d => t.step d c := by
  rw [walk_append]
  congr 1
  funext d
  exact bind_pure _

/-- After `mkdir` a path exists when the rest of it did. -/
theorem stat_mkdir {x : CString} (hx : '/' ∉ x) (h : t.stat q) :
    (t.mkdir (q ++ '/' :: x)).stat (q ++ '/' :: x) := by
  obtain ⟨d, hd⟩ := stat_iff.mp h
  have hd' := (le_mkdir t (q ++ '/' :: x)).foldlM hd
  rw [stat_iff]
  by_cases hempty : x = []
  · subst hempty
    rw [components_append]
    exact ⟨d, (congrArg _ (List.append_nil _)).trans hd'⟩
  · have hcomps : components (q ++ '/' :: x) = components q ++ [x] := by
      rw [components_append, components_of_notMem hx hempty]
    rw [hcomps, walk_concat, show (t.mkdir (q ++ '/' :: x)).walk (components q) = some d from hd',
      Option.bind_some]
    unfold step
    split_ifs with h₁ h₂ hmem
    · exact ⟨d, rfl⟩
    · exact ⟨d.tail, rfl⟩
    · exact ⟨x :: d, rfl⟩
    · refine absurd ?_ hmem
      rw [mkdir, hcomps, List.dropLast_concat, List.getLast?_concat, hd]
      dsimp only
      rw [if_neg (not_or.mpr ⟨h₁, h₂⟩)]
      exact mem_insert (mem_of_foldlM t.root hd)

theorem mkdir_of_none (h : t.walk (components p).dropLast = none) : t.mkdir p = t := by
  rw [mkdir, h]

end DirTree

end Filebench.Directories

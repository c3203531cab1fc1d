import Filebench.Lib.CString
import Mathlib.Data.List.TakeWhile

/-! # Strings in memory

Characters at the indices of an array, and the copy loops of the two string routines. Both come
down to one loop, which stops at the end of the source or when the room is used up. -/
namespace Filebench.Chars

/-- An array of characters, with what lies behind it. -/
abbrev CharArray := ℕ → Char

/-- The array begins with `p`, and no null is in it so far. -/
def Begins (b : CharArray) (p : CString) : Prop := ∀ i (h : i < p.length), b i = p[i] ∧ p[i] ≠ nul

/-- The array holds `s` and a null behind it. -/
structure Holds (b : CharArray) (s : CString) : Prop where
  begins : Begins b s
  ends : b s.length = nul

/-- The part of a list that C takes for the string. -/
def cut (s : CString) : CString := s.takeWhile (· ≠ nul)

/-- A string that is passed to a routine. -/
def ofString (s : CString) : CharArray := fun i => s.getD i nul

def put (b : CharArray) (i : ℕ) (c : Char) : CharArray := Function.update b i c

/-- Copies from index `j` of the source to index `i`, at most `n` characters and a null. -/
def copyLoop (src : CharArray) : ℕ → ℕ → ℕ → CharArray → CharArray
  | 0, i, _, dst => put dst i nul
  | n + 1, i, j, dst =>
    if src j = nul then put dst i nul
    else copyLoop src n (i + 1) (j + 1) (put dst i (src j))

/-- The first null from index `i` on, or the last of `n` indices. -/
def findEnd (dst : CharArray) : ℕ → ℕ → ℕ
  | 0, i => i
  | n + 1, i => if dst i = nul then i else findEnd dst n (i + 1)

def fbStrlcpy (dst src : CharArray) (dstsize : ℕ) : CharArray := copyLoop src (dstsize - 1) 0 0 dst

def fbStrlcat (dst src : CharArray) (dstsize : ℕ) : CharArray :=
  let i := findEnd dst (dstsize - 1) 0
  copyLoop src (dstsize - 1 - i) i 0 dst

section copy

variable {src dst : CharArray} {s t p : CString} {c : Char} {n i j : ℕ}

theorem cut_eq (h : nul ∉ s) : cut s = s := by
  refine List.takeWhile_eq_self_iff.mpr fun c hc => ?_
  have hne : c ≠ nul := fun heq => h (heq ▸ hc)
  simpa using hne

theorem begins_nil (b : CharArray) : Begins b [] := fun i h => absurd h (Nat.not_lt_zero i)

theorem holds_ofString (s : CString) : Holds (ofString s) (cut s) := by
  induction s with
  | nil => exact ⟨begins_nil _, rfl⟩
  | cons c s ih =>
    by_cases hc : c = nul
    · have hcut : cut (c :: s) = [] := by simp [cut, hc]
      rw [hcut]
      exact ⟨begins_nil _, hc⟩
    · have hcut : cut (c :: s) = c :: cut s := by simp [cut, hc]
      rw [hcut]
      constructor
      · intro i h
        cases i with
        | zero => exact ⟨rfl, hc⟩
        | succ i => exact ih.begins i (Nat.lt_of_succ_lt_succ h)
      · exact ih.ends

/-- The string ends at its first null. -/
theorem Holds.nul_iff (h : Holds src s) (hj : j ≤ s.length) : src j = nul ↔ j = s.length := by
  constructor
  · intro hnul
    by_contra hne
    obtain ⟨heq, hchar⟩ := h.begins j (lt_of_le_of_ne hj hne)
    exact hchar (heq.symm.trans hnul)
  · rintro rfl
    exact h.ends

theorem Begins.put_nul (h : Begins dst p) : Holds (put dst p.length nul) p := by
  refine ⟨fun i hi => ?_, Function.update_self ..⟩
  rw [put, Function.update_of_ne hi.ne]
  exact h i hi

theorem Begins.put_char (h : Begins dst p) (hc : c ≠ nul) :
    Begins (put dst p.length c) (p ++ [c]) := by
  intro i hi
  by_cases hlast : i = p.length
  · subst hlast
    rw [put, Function.update_self]
    simpa using hc
  · have hlt : i < p.length := by
      rw [List.length_append, List.length_singleton] at hi
      omega
    rw [put, Function.update_of_ne hlast, List.getElem_append_left hlt]
    exact h i hlt

/-- The loop appends what there is room for. -/
theorem Holds.copyLoop (hsrc : Holds src s) (hj : j ≤ s.length) (hdst : Begins dst p) :
    Holds (copyLoop src n p.length j dst) (p ++ (s.drop j).take n) := by
  induction n generalizing j dst p with
  | zero =>
    rw [List.take_zero, List.append_nil]
    exact hdst.put_nul
  | succ n ih =>
    unfold Chars.copyLoop
    by_cases hend : src j = nul
    · rw [if_pos hend]
      obtain rfl := (hsrc.nul_iff hj).mp hend
      rw [List.drop_length, List.take_nil, List.append_nil]
      exact hdst.put_nul
    · rw [if_neg hend]
      have hlt : j < s.length := lt_of_le_of_ne hj fun h => hend ((hsrc.nul_iff hj).mpr h)
      obtain ⟨hchar, hne⟩ := hsrc.begins j hlt
      have hrest := ih hlt (hdst.put_char hne)
      rw [List.length_append, List.length_singleton, List.append_assoc] at hrest
      rw [hchar, List.drop_eq_getElem_cons hlt, List.take_succ_cons]
      exact hrest

theorem Holds.findEnd (h : Holds dst t) (hi : i ≤ t.length) :
    findEnd dst n i = min (i + n) t.length := by
  induction n generalizing i with
  | zero => exact (min_eq_left hi).symm
  | succ n ih =>
    unfold Chars.findEnd
    by_cases hend : dst i = nul
    · rw [if_pos hend, (h.nul_iff hi).mp hend]
      exact (min_eq_right (Nat.le_add_right ..)).symm
    · rw [if_neg hend, ih (lt_of_le_of_ne hi fun h' => hend ((h.nul_iff hi).mpr h'))]
      rw [Nat.succ_add, Nat.add_succ]

theorem Begins.take (h : Begins dst t) (n : ℕ) : Begins dst (t.take n) := by
  intro i hi
  rw [List.getElem_take]
  exact h i (hi.trans_le (List.length_take_le' ..))

/-- `fb_strlcpy` leaves the string that it is meant to. -/
theorem Holds.strlcpy (h : Holds src s) (dst : CharArray) (dstsize : ℕ) :
    Holds (fbStrlcpy dst src dstsize) (Filebench.fbStrlcpy s dstsize) :=
  h.copyLoop (Nat.zero_le _) (begins_nil dst)

theorem Holds.strlcat (hdst : Holds dst t) (hsrc : Holds src s) (dstsize : ℕ) :
    Holds (fbStrlcat dst src dstsize) (Filebench.fbStrlcat t s dstsize) := by
  have hlen : (t.take (dstsize - 1)).length = min (dstsize - 1) t.length := List.length_take
  have hend : Chars.findEnd dst (dstsize - 1) 0 = (t.take (dstsize - 1)).length := by
    rw [hdst.findEnd (Nat.zero_le _), Nat.zero_add, hlen]
  unfold fbStrlcat Filebench.fbStrlcat
  rw [hend, List.take_append]
  dsimp only
  have hcopy := hsrc.copyLoop (n := dstsize - 1 - (t.take (dstsize - 1)).length) (Nat.zero_le _)
    (hdst.begins.take (dstsize - 1))
  rw [List.drop_zero] at hcopy
  convert hcopy using 3
  rw [hlen]
  omega

end copy

end Filebench.Chars

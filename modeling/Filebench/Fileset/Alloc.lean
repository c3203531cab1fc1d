import Filebench.Fileset.Populate
import Filebench.Lib.Program

/-! # Allocation of a file

`fileset_alloc_file` reuses, truncates or writes the file of an entry. What the file system and
the memory allocator reply is left open, within what they do to the file. -/
namespace Filebench

open Prog

/-- The calls that the routine makes. The first argument of `unbusy` is the entry. -/
inductive AllocOp where
  | stat (path : CString)
  | open_ (path : CString) (creat : Bool)
  | freemem (size : ℤ)
  | ftrunc (size : ℤ)
  | close
  | malloc (size : ℤ)
  | write (wsize : ℤ)
  | free
  | unbusy (entry : Entry) (newExist : Option Bool) (openCntIncr : ℤ)

/-- The size that `stat` finds, whether `open` and `malloc` succeed, and what `write` returns. -/
@[reducible] def AllocOp.Reply : AllocOp → Type
  | .stat _ => Option ℕ
  | .open_ _ _ | .malloc _ => Bool
  | .write _ => ℤ
  | .freemem _ | .ftrunc _ | .close | .free | .unbusy _ _ _ => Unit

/-- The sizes of the files that exist, the open file with its offset, and the calls of
`fileset_unbusy`. -/
structure AllocDisk where
  files : CString → Option ℕ
  fd : Option (CString × ℕ)
  unbusied : List (Entry × Option Bool × ℤ)

namespace AllocDisk

def setSize (d : AllocDisk) (path : CString) (n : ℕ) : AllocDisk :=
  { d with files := Function.update d.files path (some n) }

end AllocDisk

section rules

variable {α : Type} {post : AllocDisk → α → Prop} {d : AllocDisk}

end rules

/-- The entry was let go once more, and its file exists with the size of the entry if all went
well. -/
def Allocated (d₀ : AllocDisk) (path : CString) (entry : Entry) (size : ℤ) (d : AllocDisk)
    (ret : FilebenchRet) : Prop :=
  d.unbusied = d₀.unbusied ++ [(entry, some (decide (ret = .ok)), 0)] ∧
    (ret = .ok → d.files path = some size.toNat)

section routine

variable {fileset : AllocAttrs} {entry : Entry} {size : ℤ} {d d₀ : AllocDisk} {path : CString}

/-- The file as it is open in the loop: no shorter than what was written, and otherwise as long as
it was. -/
structure Written (d₀ : AllocDisk) (path : CString) (n₀ : ℕ) (seek : ℤ) (d : AllocDisk) : Prop where
  fd : d.fd = some (path, seek.toNat)
  files : d.files path = some (max n₀ seek.toNat)
  unbusied : d.unbusied = d₀.unbusied

theorem Written.opened {n₀ : ℕ} {seek : ℤ} (h : Written d₀ path n₀ seek d) : d.fd ≠ none :=
  Option.ne_none_iff_exists'.mpr ⟨_, h.fd⟩

/-- A write of all of a block. -/
theorem Written.write {n₀ : ℕ} {seek wsize : ℤ} (h : Written d₀ path n₀ seek d) (hseek : 0 ≤ seek)
    (hwsize : 0 ≤ wsize) :
    Written d₀ path n₀ (seek + wsize)
      { d.setSize path (max (max n₀ seek.toNat) (seek.toNat + wsize.toNat)) with
        fd := some (path, seek.toNat + wsize.toNat) } where
  fd := by rw [Int.toNat_add hseek hwsize]
  files := by
    rw [Int.toNat_add hseek hwsize]
    refine (Function.update_self ..).trans ?_
    rw [max_assoc, max_eq_right (Nat.le_add_right _ _)]
  unbusied := h.unbusied

end routine

end Filebench

import Filebench.Flowop.Release
import Filebench.Vars.Types

/-! # The descriptors of a thread

A thread has two arrays, one of descriptors and one of the entries that these were opened for. They
are set one after the other, and a delete clears the entry only. -/
namespace Filebench

open Prog

/-- The attributes that `flowoplib_filesetup` reads besides those of an open. `filesetName` is the
name of the fileset that an entry belongs to. -/
structure FilesetupArgs where
  flowop : Flowop
  foFilename : Option CString
  foConstwss : ℕ
  fsSize : ℕ
  fseSize : Entry → ℕ
  filesetName : Entry → CString

/-- The descriptor refers to a file of another fileset than the one of the flowop. -/
def FilesetupArgs.conflicts (args : FilesetupArgs) (fd : ℕ) (tf : Threadflow) : Bool :=
  match tf.tfFse fd, args.foFilename with
  | some file, some name => 0 < fd && args.filesetName file != name
  | _, _ => false

/-- The working set size is that of the flowop or else of the file. -/
def filesetupWss (args : FilesetupArgs) (fd : ℕ) : Flow (Except FlowopRet (ℕ × ℕ)) := do
  if args.foConstwss ≠ 0 then return .ok (fd, args.foConstwss)
  else
    let tf ← getTf
    match tf.tfFse fd with
    | some file => return .ok (fd, args.fseSize file)
    | none =>
      if args.flowop.foFileset then return .ok (fd, args.fsSize)
      else Program.request Request.crash nofun

/-- `flowoplib_filesetup`, with the descriptor and the working set size as its results. -/
def flowoplibFilesetup (args : FilesetupArgs) : Flow (Except FlowopRet (ℕ × ℕ)) := do
  let tf ← getTf
  match flowoplibFdnum args.flowop tf with
  | (none, _) => return .error .error
  | (some fd, tf) =>
    setTf tf
    if args.conflicts fd tf then return .error .error
    else if tf.tfFd fd = 0 then
      match ← flowoplibOpenfileCommon args.flowop fd with
      | .ok => filesetupWss args fd
      | ret => return .error ret
    else filesetupWss args fd

/-- The flowops that open, create, close and delete files, and the implicit open of the others. -/
inductive FileFunc where
  | openfile (flowop : Flowop)
  | createfile (flowop : Flowop)
  | closefile (flowop : Flowop)
  | deletefile (flowop : Flowop)
  | filesetup (args : FilesetupArgs)

def FileFunc.run : FileFunc → Flow FlowopRet
  | .openfile flowop => flowoplibOpenfile flowop
  | .createfile flowop => flowoplibCreatefile flowop
  | .closefile flowop => flowoplibClosefile flowop
  | .deletefile flowop => flowoplibDeletefile flowop
  | .filesetup args => do
    match ← flowoplibFilesetup args with
    | .ok _ => return .ok
    | .error ret => return ret

/-- The arrays of a thread, and the entry whose file was last opened on each descriptor. -/
structure Slots where
  tf : Threadflow
  opened : ℕ → Option Entry

/-- A descriptor that is open has an entry, and this is the one whose file is open. -/
def Slots.Right (s : Slots) : Prop :=
  ∀ fd, s.tf.tfFd fd ≠ 0 → ∃ e, s.tf.tfFse fd = some e ∧ (0 < s.tf.tfFd fd → s.opened fd = some e)

def Slots.afterCall (s : Slots) (r : ℤ) : SysCall → Slots
  | .fbOpen fd e =>
    if 0 ≤ r then { s with opened := Function.update s.opened fd (some e) } else s
  | _ => s

/-- The fileset and the file system may reply anything. -/
def slotRule : Protocol Request Reply Slots where
  allow s o := s.Right ∧ o ≠ .crash
  next s o r s' :=
    match o, r with
    | .get, tf => tf = s.tf ∧ s' = s
    | .set tf, _ => s' = { s with tf := tf }
    | .call c, r => s' = s.afterCall r c
    | _, _ => s' = s

/-- A delete does not begin with its descriptor open. -/
def Slots.Meets (s : Slots) : FileFunc → Prop
  | .deletefile flowop => 0 < flowop.foFdnumber → s.tf.tfFd flowop.foFdnumber = 0
  | _ => True

/-- A thread that begins, with no descriptor open. -/
def newSlots (utid : ℕ) : Slots := ⟨⟨utid, fun _ => 0, fun _ => none, 0⟩, fun _ => none⟩

section rules

variable {s : Slots} {α : Type} {post : Slots → α → Prop}

theorem slot_get {k : Threadflow → Flow α} (hs : s.Right) (h : Obeys slotRule post s (k s.tf)) :
    Obeys slotRule post s (getTf >>= k) := by
  refine ⟨⟨hs, nofun⟩, ?_⟩
  rintro tf s' ⟨rfl, rfl⟩
  exact h

theorem slot_set {tf : Threadflow} {k : Unit → Flow α} (hs : s.Right)
    (h : Obeys slotRule post { s with tf := tf } (k ())) :
    Obeys slotRule post s (setTf tf >>= k) := by
  refine ⟨⟨hs, nofun⟩, ?_⟩
  rintro _ s' rfl
  exact h

theorem slot_call {c : SysCall} {k : ℤ → Flow α} (hs : s.Right)
    (h : ∀ r, Obeys slotRule post (s.afterCall r c) (k r)) :
    Obeys slotRule post s (sysCall c >>= k) := by
  refine ⟨⟨hs, nofun⟩, ?_⟩
  rintro r s' rfl
  exact h r

theorem slot_grab {kind : Grab} {e : Entry} {k : Unit → Flow α} (hs : s.Right)
    (h : Obeys slotRule post s (k ())) : Obeys slotRule post s (filesetGrab kind e >>= k) := by
  refine ⟨⟨hs, nofun⟩, ?_⟩
  rintro _ s' rfl
  exact h

theorem slot_unbusy {e : Entry} {newExist : Option Bool} {n : ℤ} {k : Unit → Flow α} (hs : s.Right)
    (h : Obeys slotRule post s (k ())) :
    Obeys slotRule post s (filesetUnbusyReq e newExist n >>= k) := by
  refine ⟨⟨hs, nofun⟩, ?_⟩
  rintro _ s' rfl
  exact h

theorem slot_openCnt {e : Entry} {k : ℤ → Flow α} (hs : s.Right)
    (h : ∀ cnt, Obeys slotRule post s (k cnt)) : Obeys slotRule post s (fseOpenCnt e >>= k) := by
  refine ⟨⟨hs, nofun⟩, ?_⟩
  rintro cnt s' rfl
  exact h cnt

theorem slot_pick {args : PickArgs} {k : Option Entry → Flow α} (hs : s.Right)
    (h : ∀ r, Obeys slotRule post s (k r)) : Obeys slotRule post s (filesetPickReq args >>= k) := by
  refine ⟨⟨hs, nofun⟩, ?_⟩
  rintro r s' rfl
  exact h r

end rules

/-! ## The flowops -/

/-- The program keeps the arrays right, and never uses a null entry. -/
abbrev KeepsRight {α : Type} (s : Slots) (p : Flow α) : Prop :=
  Obeys slotRule (fun s _ => s.Right) s p

section flowops

variable {s : Slots} {fd : ℕ}

/-- A descriptor that is not open may get another entry. -/
theorem Slots.Right.setFse (hs : s.Right) (hfd : s.tf.tfFd fd = 0) (file : Option Entry) :
    Slots.Right { s with tf := { s.tf with tfFse := Function.update s.tf.tfFse fd file } } := by
  intro fd' hopen
  have hne : fd' ≠ fd := by
    rintro rfl
    exact hopen hfd
  obtain ⟨e, he, hopened⟩ := hs fd' hopen
  exact ⟨e, (Function.update_of_ne hne ..).trans he, hopened⟩

theorem Slots.Right.setOpened (hs : s.Right) (hfd : s.tf.tfFd fd = 0) (e : Entry) :
    Slots.Right { s with opened := Function.update s.opened fd (some e) } := by
  intro fd' hopen
  have hne : fd' ≠ fd := by
    rintro rfl
    exact hopen hfd
  obtain ⟨e', he', hopened⟩ := hs fd' hopen
  exact ⟨e', he', fun hpos => (Function.update_of_ne hne ..).trans (hopened hpos)⟩

/-- The descriptor is set after the entry. -/
theorem Slots.Right.setFd (hs : s.Right) {file : Entry} (hfse : s.tf.tfFse fd = some file) {r : ℤ}
    (hopened : 0 ≤ r → s.opened fd = some file) :
    Slots.Right { s with tf := { s.tf with tfFd := Function.update s.tf.tfFd fd r } } := by
  intro fd' hopen
  by_cases hfd : fd' = fd
  · subst hfd
    refine ⟨file, hfse, fun hpos => hopened ?_⟩
    dsimp only at hpos
    rw [Function.update_self] at hpos
    exact hpos.le
  · dsimp only at hopen ⊢
    rw [Function.update_of_ne hfd] at hopen ⊢
    exact hs fd' hopen

theorem Slots.Right.clearFd (hs : s.Right) :
    Slots.Right { s with tf := { s.tf with tfFd := Function.update s.tf.tfFd fd 0 } } := by
  intro fd' hopen
  dsimp only at hopen ⊢
  by_cases hfd : fd' = fd
  · rw [hfd, Function.update_self] at hopen
    exact absurd rfl hopen
  · rw [Function.update_of_ne hfd] at hopen ⊢
    exact hs fd' hopen

theorem slot_mkdir (creat : Bool) (hs : s.Right) :
    Obeys slotRule (fun s' (_ : ℤ) => s' = s) s (do
      if creat then
        let r ← sysCall .stat64
        if r ≠ 0 then sysCall .filesetMkdir else return 0
      else return 0) := by
  cases creat with
  | false => exact rfl
  | true =>
    refine slot_call hs fun r => ?_
    by_cases hr : r ≠ 0
    · rw [if_pos hr]
      exact ⟨⟨hs, nofun⟩, fun _ _ h => h⟩
    · rw [if_neg hr]
      exact rfl

theorem keepsRight_filesetOpenfile {file : Entry} (creat : Bool) (hs : s.Right)
    (hfd : s.tf.tfFd fd = 0) (hfse : s.tf.tfFse fd = some file) :
    KeepsRight s (filesetOpenfile fd file creat) := by
  refine (slot_mkdir creat hs).bind ?_
  rintro s mkdir rfl
  by_cases hmkdir : mkdir < 0
  · rw [if_pos hmkdir]
    exact hs
  rw [if_neg hmkdir]
  refine slot_call hs fun r => ?_
  by_cases hr : 0 ≤ r
  · have hopened := hs.setOpened hfd file
    have hright := hopened.setFd (r := r) hfse fun _ => Function.update_self ..
    rw [Slots.afterCall, if_pos hr]
    refine slot_get hopened (slot_set hopened ?_)
    rw [if_neg (not_lt.mpr hr)]
    exact slot_unbusy hright hright
  · have hright := hs.setFd (r := r) hfse fun hpos => absurd hpos hr
    rw [Slots.afterCall, if_neg hr]
    refine slot_get hs (slot_set hs ?_)
    rw [if_pos (not_le.mp hr)]
    exact slot_unbusy hright hright

theorem keepsRight_openPicked (creat : Bool) (picked : Except FlowopRet Entry) (hs : s.Right)
    (hfd : s.tf.tfFd fd = 0) : KeepsRight s (openPicked fd creat picked) := by
  cases picked with
  | error err => exact hs
  | ok file =>
    refine slot_get hs (slot_set hs ?_)
    exact keepsRight_filesetOpenfile creat (hs.setFse hfd _) hfd (Function.update_self ..)

theorem slot_flowoplibPick (flowop : Flowop) (type : FseType) (noexist : Bool) (tid : ℕ)
    (hs : s.Right) :
    Obeys slotRule (fun s' _ => s' = s) s (flowoplibPick flowop type noexist tid) := by
  unfold flowoplibPick
  split_ifs
  · exact rfl
  · refine slot_pick hs fun r => ?_
    cases r <;> exact rfl

theorem keepsRight_flowoplibOpenfileCommon (flowop : Flowop) (fd : ℕ) (hs : s.Right) :
    KeepsRight s (flowoplibOpenfileCommon flowop fd) := by
  unfold flowoplibOpenfileCommon
  by_cases hset : (!flowop.foFileset || !flowop.fsName) = true
  · rw [if_pos hset]
    exact hs
  rw [if_neg hset]
  refine slot_get hs ?_
  by_cases hopen : s.tf.tfFd fd ≠ 0
  · rw [if_pos hopen]
    exact hs
  · rw [if_neg hopen]
    refine (slot_flowoplibPick flowop .file false _ hs).bind ?_
    rintro s picked rfl
    exact keepsRight_openPicked false picked hs (not_not.mp hopen)

theorem flowoplibFdnum_slots (flowop : Flowop) (hs : s.Right) :
    Slots.Right { s with tf := (flowoplibFdnum flowop s.tf).2 } := by
  unfold flowoplibFdnum
  split_ifs <;> exact hs

theorem keepsRight_flowoplibOpenfile (flowop : Flowop) (hs : s.Right) :
    KeepsRight s (flowoplibOpenfile flowop) := by
  unfold flowoplibOpenfile
  refine slot_get hs ?_
  have hright := flowoplibFdnum_slots flowop hs
  rcases hfd : flowoplibFdnum flowop s.tf with ⟨_ | fd, tf⟩
  · exact hs
  · rw [hfd] at hright
    exact slot_set hs (keepsRight_flowoplibOpenfileCommon flowop fd hright)

theorem keepsRight_flowoplibCreatefile (flowop : Flowop) (hs : s.Right) :
    KeepsRight s (flowoplibCreatefile flowop) := by
  unfold flowoplibCreatefile
  refine slot_get hs ?_
  split_ifs with hopen
  · exact hs
  · exact hs
  · exact hs
  · refine (slot_flowoplibPick flowop .file true 0 hs).bind ?_
    rintro s picked rfl
    exact keepsRight_openPicked true picked hs (not_not.mp hopen)

theorem keepsRight_flowoplibClosefile (flowop : Flowop) (hs : s.Right) :
    KeepsRight s (flowoplibClosefile flowop) := by
  unfold flowoplibClosefile
  refine slot_get hs ?_
  by_cases hopen : s.tf.tfFd flowop.foFdnumber = 0
  · rw [if_pos hopen]
    exact hs
  rw [if_neg hopen]
  obtain ⟨file, hfse, -⟩ := hs _ hopen
  rw [hfse]
  exact slot_grab hs (slot_call hs fun r => slot_unbusy hs (slot_get hs (slot_set hs hs.clearFd)))

theorem keepsRight_deletePicked (fd : ℕ) (picked : Except FlowopRet Entry) (hs : s.Right) :
    KeepsRight s (deletePicked fd picked) := by
  cases picked with
  | error err => exact hs
  | ok file =>
    refine slot_get hs (slot_openCnt hs fun cnt => ?_)
    by_cases hdecline : if 0 < fd ∧ 0 < s.tf.tfFd fd then 1 < cnt else 0 < cnt
    · rw [if_pos hdecline]
      exact slot_unbusy hs hs
    · rw [if_neg hdecline]
      exact slot_call hs fun r => slot_openCnt hs fun cnt => slot_unbusy hs hs

theorem keepsRight_flowoplibDeletefile {flowop : Flowop} (hs : s.Right)
    (hclosed : 0 < flowop.foFdnumber → s.tf.tfFd flowop.foFdnumber = 0) :
    KeepsRight s (flowoplibDeletefile flowop) := by
  unfold flowoplibDeletefile
  refine slot_get hs ?_
  split
  next file hfile =>
    obtain ⟨hpos, -⟩ := Option.ite_none_right_eq_some.mp hfile
    have hright := hs.setFse (hclosed hpos) none
    exact slot_set hs (slot_grab hright (keepsRight_deletePicked _ _ hright))
  next =>
    refine (slot_flowoplibPick flowop .file false 0 hs).bind ?_
    rintro s picked rfl
    exact keepsRight_deletePicked _ picked hs

theorem keepsRight_filesetupWss (args : FilesetupArgs) (hs : s.Right)
    (hfile : s.tf.tfFse fd = none → args.flowop.foFileset = true) :
    KeepsRight s (filesetupWss args fd) := by
  unfold filesetupWss
  by_cases hwss : args.foConstwss ≠ 0
  · rw [if_pos hwss]
    exact hs
  · rw [if_neg hwss]
    refine slot_get hs ?_
    cases hfse : s.tf.tfFse fd with
    | some file => exact hs
    | none =>
      dsimp only
      rw [if_pos (hfile hfse)]
      exact hs

theorem keepsRight_flowoplibFilesetup (args : FilesetupArgs) (hs : s.Right) :
    KeepsRight s (flowoplibFilesetup args) := by
  unfold flowoplibFilesetup
  refine slot_get hs ?_
  have hright := flowoplibFdnum_slots args.flowop hs
  rcases hfd : flowoplibFdnum args.flowop s.tf with ⟨_ | fd, tf⟩
  · exact hs
  rw [hfd] at hright
  refine slot_set hs ?_
  by_cases hconflict : args.conflicts fd tf
  · rw [if_pos hconflict]
    exact hright
  rw [if_neg hconflict]
  by_cases hclosed : tf.tfFd fd = 0
  · rw [if_pos hclosed]
    by_cases hset : args.flowop.foFileset = true
    · refine (keepsRight_flowoplibOpenfileCommon args.flowop fd hright).bind fun s' ret hs' => ?_
      cases ret with
      | ok => exact keepsRight_filesetupWss args hs' fun _ => hset
      | error | norsc => exact hs'
    · rw [flowoplibOpenfileCommon, if_pos (by simp [hset])]
      exact hright
  · rw [if_neg hclosed]
    refine keepsRight_filesetupWss args hright fun hnone => ?_
    obtain ⟨file, hfse, -⟩ := hright fd hclosed
    cases hnone.symm.trans hfse

theorem keepsRight_run (func : FileFunc) (hs : s.Right) (hmeets : s.Meets func) :
    KeepsRight s func.run := by
  cases func with
  | openfile flowop => exact keepsRight_flowoplibOpenfile flowop hs
  | createfile flowop => exact keepsRight_flowoplibCreatefile flowop hs
  | closefile flowop => exact keepsRight_flowoplibClosefile flowop hs
  | deletefile flowop => exact keepsRight_flowoplibDeletefile hs hmeets
  | filesetup args =>
    refine (keepsRight_flowoplibFilesetup args hs).bind fun s' res hs' => ?_
    cases res <;> exact hs'

end flowops

/-! ## A thread -/

/-- The flowops of a thread, one after another. -/
abbrev SlotRun (ok : Slots → FileFunc → Prop) (utid : ℕ) : Slots → Flow FlowopRet → Prop :=
  Sequence slotRule FileFunc.run ok (newSlots utid) .ok

theorem newSlots_right (utid : ℕ) : (newSlots utid).Right := fun _ hopen => absurd rfl hopen

/-- While no delete begins with its descriptor open, every descriptor that is open has the entry
of its file, and no null entry is used. -/
theorem slotRun_right {utid : ℕ} {s : Slots} {p : Flow FlowopRet}
    (h : SlotRun Slots.Meets utid s p) : s.Right ∧ ∀ k, p ≠ .request .crash k := by
  have hobeys := h.obeys (newSlots_right utid) fun s func hs hmeets =>
    keepsRight_run func hs hmeets
  cases p with
  | pure a => exact ⟨hobeys, nofun⟩
  | request o k =>
    refine ⟨hobeys.1.1, ?_⟩
    rintro k' ⟨⟩
    exact hobeys.1.2 rfl

/-! ### Among others -/

/-- The state of a thread is one of a sequence of its flowops. -/
def Thread.Follows (utid : ℕ) (th : Thread) : Prop :=
  ∃ s, SlotRun Slots.Meets utid s th.prog ∧ s.tf = th.tf

/-- The step starts no delete with its descriptor open. -/
def StartsRight (s : Sys) (t : ℕ) (l : Label FileFunc) : Prop :=
  ∀ func, l = .start func → Slots.Meets ⟨(s.thread t).tf, fun _ => none⟩ func

theorem Slots.Meets.congr {s s' : Slots} {func : FileFunc} (h : s.Meets func) (htf : s'.tf = s.tf) :
    s'.Meets func := by
  cases func with
  | deletefile flowop => exact fun hpos => htf ▸ h hpos
  | _ => trivial

theorem Thread.Follows.own {utid : ℕ} {s s' : Sys} {t : ℕ} {l : Label FileFunc}
    (hf : (s.thread t).Follows utid) (h : SysStep FileFunc.run s t l s') (hok : StartsRight s t l) :
    (s'.thread t).Follows utid := by
  obtain ⟨slots, hrun, htf⟩ := hf
  cases h with
  | start func r hp =>
    rw [hp] at hrun
    dsimp only
    rw [Function.update_self]
    exact ⟨slots, .start func hrun ((hok func rfl).congr htf), htf⟩
  | pick args k random res fs' hp hw hret hres =>
    rw [hp] at hrun
    dsimp only
    rw [Function.update_self]
    exact ⟨slots, hrun.reply (o := Request.pick args) res.entry? rfl, htf⟩
  | pickWait args k random fs' hp hw hret =>
    dsimp only
    rw [Function.update_self]
    exact ⟨slots, hrun, htf⟩
  | grab kind e k hp hw hb =>
    rw [hp] at hrun
    dsimp only
    rw [Function.update_self]
    exact ⟨slots, hrun.reply (o := Request.grab kind e) () rfl, htf⟩
  | grabWait kind e k hp hw hb =>
    dsimp only
    rw [Function.update_self]
    exact ⟨slots, hrun, htf⟩
  | unbusy e newExist n k fs' sig thread' hp hret hsig =>
    obtain ⟨w, hw⟩ := hsig.same t
    rw [Function.update_self] at hw
    rw [hp] at hrun
    dsimp only
    rw [hw]
    exact ⟨slots, hrun.reply (o := Request.unbusy e newExist n) () rfl, htf⟩
  | openCnt e k hp =>
    rw [hp] at hrun
    dsimp only
    rw [Function.update_self]
    exact ⟨slots, hrun.reply (o := Request.openCnt e) _ rfl, htf⟩
  | call c r k hp =>
    obtain ⟨f, hf⟩ := unlinked_same c r s.thread t
    rw [hp] at hrun
    dsimp only
    rw [Function.update_self, hf]
    refine ⟨slots.afterCall r c, hrun.reply (o := Request.call c) r rfl, ?_⟩
    cases c with
    | fbOpen fd e =>
      rw [Slots.afterCall]
      split_ifs <;> exact htf
    | _ => exact htf
  | get k hp =>
    rw [hp] at hrun
    dsimp only
    rw [Function.update_self]
    exact ⟨slots, hrun.reply (o := Request.get) _ ⟨htf.symm, rfl⟩, htf⟩
  | set tf k hp =>
    rw [hp] at hrun
    dsimp only
    rw [Function.update_self]
    exact ⟨_, hrun.reply (o := Request.set tf) () rfl, rfl⟩

/-- Among any other threads, a thread only goes through its own flowops. -/
theorem sysRun_follows {s₀ s : Sys} (h₀ : Initial s₀) (h : SysRun FileFunc.run StartsRight s₀ s)
    (t : ℕ) : (s.thread t).Follows (t + 1) := by
  induction h with
  | refl =>
    rw [h₀.threads]
    exact ⟨_, .initial, rfl⟩
  | tail _ hstep ih =>
    obtain ⟨t', l, hok, hstep⟩ := hstep
    by_cases ht : t = t'
    · subst ht
      exact ih.own hstep hok
    · obtain ⟨w, f, hsame⟩ := hstep.thread_of_ne ht
      rw [hsame]
      exact ih

/-- No thread ever uses a null entry. -/
theorem sysRun_no_crash {s₀ s : Sys} (h₀ : Initial s₀) (h : SysRun FileFunc.run StartsRight s₀ s)
    (t fd : ℕ) : ((s.thread t).tf.tfFd fd ≠ 0 → (s.thread t).tf.tfFse fd ≠ none) ∧
      ∀ k, (s.thread t).prog ≠ .request .crash k := by
  obtain ⟨slots, hrun, htf⟩ := sysRun_follows h₀ h t
  obtain ⟨hright, hcrash⟩ := slotRun_right hrun
  refine ⟨fun hopen => ?_, hcrash⟩
  rw [← htf] at hopen ⊢
  obtain ⟨e, he, -⟩ := hright fd hopen
  exact he ▸ nofun

/-! ## A delete of an open file -/

section run

variable {ok : Slots → FileFunc → Prop} {utid : ℕ} {s : Slots}

theorem SlotRun.begin {ret : FlowopRet} (h : SlotRun ok utid s (.pure ret)) (func : FileFunc)
    (hok : ok s func) : SlotRun ok utid s func.run := .start func h hok

theorem SlotRun.reply {s' : Slots} {o : Request} {k : Reply o → Flow FlowopRet}
    (h : SlotRun ok utid s (Program.send o >>= k)) (r : Reply o) (hnext : slotRule.next s o r s') :
    SlotRun ok utid s' (k r) := Sequence.reply r h hnext

theorem SlotRun.get {k : Threadflow → Flow FlowopRet} (h : SlotRun ok utid s (getTf >>= k)) :
    SlotRun ok utid s (k s.tf) := SlotRun.reply h s.tf ⟨rfl, rfl⟩

theorem SlotRun.set {tf : Threadflow} {k : Unit → Flow FlowopRet}
    (h : SlotRun ok utid s (setTf tf >>= k)) : SlotRun ok utid { s with tf := tf } (k ()) :=
  SlotRun.reply h () rfl

theorem SlotRun.pick {args : PickArgs} {k : Option Entry → Flow FlowopRet} (r : Option Entry)
    (h : SlotRun ok utid s (filesetPickReq args >>= k)) : SlotRun ok utid s (k r) :=
  SlotRun.reply h r rfl

theorem SlotRun.grab {kind : Grab} {e : Entry} {k : Unit → Flow FlowopRet}
    (h : SlotRun ok utid s (filesetGrab kind e >>= k)) : SlotRun ok utid s (k ()) :=
  SlotRun.reply h () rfl

theorem SlotRun.openCnt {e : Entry} {k : ℤ → Flow FlowopRet} (cnt : ℤ)
    (h : SlotRun ok utid s (fseOpenCnt e >>= k)) : SlotRun ok utid s (k cnt) :=
  SlotRun.reply h cnt rfl

theorem SlotRun.unbusy {e : Entry} {newExist : Option Bool} {n : ℤ} {k : Unit → Flow FlowopRet}
    (h : SlotRun ok utid s (filesetUnbusyReq e newExist n >>= k)) : SlotRun ok utid s (k ()) :=
  SlotRun.reply h () rfl

theorem SlotRun.call {c : SysCall} {k : ℤ → Flow FlowopRet} (r : ℤ)
    (h : SlotRun ok utid s (sysCall c >>= k)) : SlotRun ok utid (s.afterCall r c) (k r) :=
  SlotRun.reply h r rfl

end run

/-- Flowops on descriptor 1. -/
def slotOne : Flowop := ⟨1, false, true, none, true, false, 1⟩

/-- The thread after an open with the descriptor 5. -/
def openedSlots (utid : ℕ) (e : Entry) : Slots :=
  ⟨⟨utid, Function.update (fun _ => 0) 1 5, Function.update (fun _ => none) 1 (some e), 0⟩,
    Function.update (fun _ => none) 1 (some e)⟩

theorem slotRun_openfile {ok : Slots → FileFunc → Prop} {utid : ℕ} (e : Entry)
    (hok : ok (newSlots utid) (.openfile slotOne)) :
    SlotRun ok utid (openedSlots utid e) (.pure .ok) := by
  have hstart : SlotRun ok utid (newSlots utid) (flowoplibOpenfile slotOne) :=
    SlotRun.begin .initial (.openfile slotOne) hok
  have hpicked := SlotRun.pick (some e) (SlotRun.get (SlotRun.set (SlotRun.get hstart)))
  have hopened := SlotRun.call 5 (SlotRun.set (SlotRun.get hpicked))
  exact SlotRun.unbusy (SlotRun.set (SlotRun.get hopened))

/-- The delete leaves the file alone, which somebody else has open too, and the close crashes. -/
theorem slotRun_crash (e : Entry) : ∃ s, SlotRun (fun _ _ => True) 1 s (.request .crash nofun) := by
  have hopened : SlotRun (fun _ _ => True) 1 (openedSlots 1 e) (.pure .ok) :=
    slotRun_openfile e trivial
  have hdelete : SlotRun _ _ _ (flowoplibDeletefile slotOne) :=
    SlotRun.begin hopened (.deletefile slotOne) trivial
  have hpicked := SlotRun.grab (SlotRun.set (SlotRun.get hdelete))
  have hdeclined := SlotRun.unbusy (SlotRun.openCnt 2 (SlotRun.get hpicked))
  have hclose : SlotRun _ _ _ (flowoplibClosefile slotOne) :=
    SlotRun.begin hdeclined (.closefile slotOne) trivial
  exact ⟨_, SlotRun.get hclose⟩

theorem closefile_crashes : ¬ ∀ utid s p, SlotRun (fun _ _ => True) utid s p →
    s.Right ∧ ∀ k, p ≠ .request .crash k := by
  intro h
  obtain ⟨s, hcrash⟩ := slotRun_crash 1
  exact (h 1 s _ hcrash).2 nofun rfl

/-- An open, which meets the condition. -/
theorem slotRun_right_opened : (openedSlots 1 7).Right ∧
    ∀ k : Empty → Flow FlowopRet, (.pure .ok : Flow FlowopRet) ≠ .request .crash k :=
  slotRun_right (slotRun_openfile 7 trivial)

end Filebench

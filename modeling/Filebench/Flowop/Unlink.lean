import Filebench.Flowop.Release
import Filebench.Lib.AtMost

/-! # Deleting a file that others have open

The open count of an entry bounds the descriptors that refer to its file, up to what the thread
that holds the entry has not booked yet. A delete that sees its own open at most finds no other. -/
namespace Filebench

open Fuel Prog Tally

/-- Where a thread stands with the entry that it marked busy. -/
inductive Stage where
  | idle
  | picked (e : Entry)
  | counted (e : Entry) (cnt : ℤ)
  | opened (e : Entry)
  | closed (e : Entry)
  | unlinked (e : Entry)
  | emptied (e : Entry) (cnt : ℤ)

def Stage.entry : Stage → Option Entry
  | .idle => none
  | .picked e | .counted e _ | .opened e | .closed e | .unlinked e | .emptied e _ => some e

/-- How many descriptors refer to the file, at most, while its open count is `cnt`. -/
def Stage.bound (cnt : ℤ) : Stage → ℤ
  | .idle | .picked _ | .counted _ _ => cnt
  | .opened _ => cnt + 1
  | .closed _ => cnt - 1
  | .unlinked _ | .emptied _ _ => 0

/-- The change of the open count with which the entry is released. -/
def Stage.Books (n : ℤ) : Stage → Prop
  | .picked _ | .counted _ _ => n = 0
  | .opened _ => n = 1
  | .closed _ => n = -1
  | .emptied _ cnt => n = -cnt
  | .idle | .unlinked _ => False

/-- The count that the thread read, while it still holds the entry. -/
def Stage.count : Stage → Option (Entry × ℤ)
  | .counted e cnt | .emptied e cnt => some (e, cnt)
  | _ => none

theorem Stage.entry_of_count {st : Stage} {e : Entry} {cnt : ℤ} (h : st.count = some (e, cnt)) :
    st.entry = some e := by
  cases st with
  | counted | emptied => exact congrArg (Option.map Prod.fst) h
  | _ => cases h

/-- What is on the desk of a thread: its table, its descriptors and the entry at hand. -/
structure Desk where
  tf : Threadflow
  openFd : ℕ → Option Entry
  stage : Stage

/-- What a low open count says of the descriptors of one thread. -/
def FewOpen (openFd : ℕ → Option Entry) (e : Entry) (cnt : ℤ) : Prop :=
  (cnt ≤ 0 → ∀ fd, openFd fd ≠ some e) ∧
    (cnt ≤ 1 → ∀ fd fd', openFd fd = some e → openFd fd' = some e → fd = fd')

/-- What has to be known before a call. -/
def Desk.mayCall (d : Desk) : SysCall → Prop
  | .fbOpen _ e => d.stage = .picked e
  | .fbClose fd => ∃ e, d.stage = .picked e ∧ d.openFd fd = some e
  | .fbUnlink e => ∃ cnt, d.stage = .counted e cnt ∧
      (cnt ≤ 0 ∨ cnt ≤ 1 ∧ ∃ fd, d.openFd fd = some e)
  | _ => True

/-- The desk after a call. An unlink may fail only on a file that the thread has not open. -/
def Desk.afterCall (d : Desk) (r : ℤ) (d' : Desk) : SysCall → Prop
  | .fbOpen fd e => d' = if 0 ≤ r then
      { d with openFd := Function.update d.openFd fd (some e), stage := .opened e } else d
  | .fbClose fd => ∀ e, d.stage = .picked e →
      d' = { d with openFd := Function.update d.openFd fd none, stage := .closed e }
  | .fbUnlink e => (r = 0 ∨ ∀ fd, d.openFd fd ≠ some e) ∧
      d' = { d with
        openFd := fun fd => if d.openFd fd = some e then none else d.openFd fd
        stage := .unlinked e }
  | _ => d' = d

/-- Calls and releases in an order that keeps the open counts right. -/
def careful : Protocol Request Reply Desk where
  allow d o :=
    match o with
    | .pick _ | .grab _ _ => d.stage = .idle
    | .openCnt e => d.stage = .picked e ∨ d.stage = .unlinked e
    | .call c => d.mayCall c
    | .unbusy e _ n => d.stage.entry = some e ∧ d.stage.Books n
    | _ => True
  next d o r d' :=
    match o, r with
    | .pick _, some e => d' = { d with stage := .picked e }
    | .grab _ e, _ => d' = { d with stage := .picked e }
    | .openCnt e, cnt =>
      (d.stage = .picked e ∧ FewOpen d.openFd e cnt ∧ d' = { d with stage := .counted e cnt }) ∨
        (d.stage = .unlinked e ∧ d' = { d with stage := .emptied e cnt })
    | .call c, r => d.afterCall r d' c
    | .unbusy _ _ _, _ => d' = { d with stage := .idle }
    | .get, tf => tf = d.tf ∧ d' = d
    | .set tf, _ => d' = { d with tf := tf }
    | _, _ => d' = d

/-- A slot with a file in it is open. -/
def Aligned (d : Desk) : Prop :=
  ∀ fd e, 0 < d.tf.tfFd fd → d.tf.tfFse fd = some e → d.openFd fd = some e

/-- A thread at rest: nothing at hand, unless an error path left an entry busy. -/
def AtRest (d : Desk) : Prop :=
  Aligned d ∧ (d.stage = .idle ∨ ∃ e, d.stage = .picked e)

abbrev ObeysCareful (d : Desk) (p : Flow FlowopRet) : Prop :=
  Obeys careful (fun d _ => AtRest d) d p

/-- The flowops that go wrong are left out: a close of a descriptor whose open failed, and a
delete through a slot that is open and has lost its entry. -/
def Suits (func : FlowopFunc) (flowop : Flowop) (tf : Threadflow) : Prop :=
  match func with
  | .closefile => 0 ≤ tf.tfFd flowop.foFdnumber
  | .deletefile => 0 < flowop.foFdnumber → 0 < tf.tfFd flowop.foFdnumber →
      tf.tfFse flowop.foFdnumber ≠ none
  | _ => True

section rule

variable {d : Desk} {α : Type} {post : Desk → α → Prop}

theorem careful_call {c : SysCall} {k : ℤ → Flow α} (hmay : d.mayCall c)
    (h : ∀ r d', d.afterCall r d' c → Obeys careful post d' (k r)) :
    Obeys careful post d (sysCall c >>= k) := ⟨hmay, h⟩

theorem careful_get {k : Threadflow → Flow α} (h : Obeys careful post d (k d.tf)) :
    Obeys careful post d (getTf >>= k) := by
  refine ⟨trivial, ?_⟩
  rintro tf d' ⟨rfl, rfl⟩
  exact h

theorem careful_set {tf : Threadflow} {k : Unit → Flow α}
    (h : Obeys careful post { d with tf := tf } (k ())) :
    Obeys careful post d (setTf tf >>= k) := by
  refine ⟨trivial, ?_⟩
  rintro _ d' rfl
  exact h

theorem careful_grab {kind : Grab} {e : Entry} {k : Unit → Flow α} (hidle : d.stage = .idle)
    (h : Obeys careful post { d with stage := .picked e } (k ())) :
    Obeys careful post d (filesetGrab kind e >>= k) := by
  refine ⟨hidle, ?_⟩
  rintro _ d' rfl
  exact h

theorem careful_pick {args : PickArgs} {k : Option Entry → Flow α} (hidle : d.stage = .idle)
    (hnone : Obeys careful post d (k none))
    (hsome : ∀ e, Obeys careful post { d with stage := .picked e } (k (some e))) :
    Obeys careful post d (filesetPickReq args >>= k) := by
  refine ⟨hidle, ?_⟩
  rintro (_ | e) d' rfl
  · exact hnone
  · exact hsome e

/-- The open count is read first while the file is there. -/
theorem careful_openCnt {e : Entry} {k : ℤ → Flow α} (hstage : d.stage = .picked e)
    (h : ∀ cnt, FewOpen d.openFd e cnt →
      Obeys careful post { d with stage := .counted e cnt } (k cnt)) :
    Obeys careful post d (fseOpenCnt e >>= k) := by
  refine ⟨.inl hstage, ?_⟩
  rintro cnt d' (⟨-, hfew, rfl⟩ | ⟨hun, -⟩)
  · exact h cnt hfew
  · rw [hstage] at hun
    cases hun

/-- It is read again when the file is gone. -/
theorem careful_openCnt_again {e : Entry} {k : ℤ → Flow α} (hstage : d.stage = .unlinked e)
    (h : ∀ cnt, Obeys careful post { d with stage := .emptied e cnt } (k cnt)) :
    Obeys careful post d (fseOpenCnt e >>= k) := by
  refine ⟨.inr hstage, ?_⟩
  rintro cnt d' (⟨hpicked, -⟩ | ⟨-, rfl⟩)
  · rw [hstage] at hpicked
    cases hpicked
  · exact h cnt

theorem careful_unbusy {e : Entry} {newExist : Option Bool} {n : ℤ} {k : Unit → Flow α}
    (hallow : careful.allow d (.unbusy e newExist n))
    (h : Obeys careful post { d with stage := .idle } (k ())) :
    Obeys careful post d (filesetUnbusyReq e newExist n >>= k) := by
  refine ⟨hallow, ?_⟩
  rintro _ d' rfl
  exact h

end rule

/-! ## The flowops -/

section flowops

variable {d : Desk}

theorem Aligned.atRest (h : Aligned d) : AtRest { d with stage := .idle } := ⟨h, .inl rfl⟩

def Desk.PickedFrom (d d' : Desk) : Except FlowopRet Entry → Prop
  | .error _ => d' = d
  | .ok e => d' = { d with stage := .picked e }

theorem careful_flowoplibPick (flowop : Flowop) (type : FseType) (noexist : Bool) (tid : ℕ)
    (hidle : d.stage = .idle) :
    Obeys careful d.PickedFrom d (flowoplibPick flowop type noexist tid) := by
  unfold flowoplibPick
  split_ifs
  · exact rfl
  · exact careful_pick hidle rfl fun e => rfl

/-- The parent directories are made or not: the entry stays picked. -/
theorem careful_mkdir (creat : Bool) (d : Desk) :
    Obeys careful (fun d' (_ : ℤ) => d' = d) d (do
      if creat then
        let r ← sysCall .stat64
        if r ≠ 0 then sysCall .filesetMkdir else return 0
      else return 0) := by
  cases creat with
  | false => exact rfl
  | true =>
    refine careful_call trivial ?_
    rintro r d' rfl
    by_cases hr : r = 0
    · subst hr
      exact rfl
    · rw [if_pos hr]
      exact ⟨trivial, fun r d'' h => h⟩

theorem careful_filesetOpenfile {fd : ℕ} {e : Entry} (creat : Bool) (hal : Aligned d)
    (hstage : d.stage = .picked e) (hfse : d.tf.tfFse fd = some e) (hfd : d.tf.tfFd fd = 0) :
    ObeysCareful d (filesetOpenfile fd e creat) := by
  refine (careful_mkdir creat d).bind ?_
  rintro d mkdir rfl
  by_cases hmkdir : mkdir < 0
  · rw [if_pos hmkdir]
    exact ⟨hal, .inr ⟨e, hstage⟩⟩
  rw [if_neg hmkdir]
  refine careful_call hstage ?_
  rintro r d₁ rfl
  refine careful_get (careful_set ?_)
  by_cases hr : r < 0
  · rw [if_pos hr, if_neg (not_le.mpr hr)]
    refine careful_unbusy ⟨?_, ?_⟩ (Aligned.atRest fun fd' e' hpos hfse' => ?_)
    · rw [hstage]
      rfl
    · dsimp only
      rw [hstage]
      exact rfl
    · dsimp only at hpos hfse' ⊢
      rw [Function.update_apply] at hpos
      split_ifs at hpos
      · omega
      · exact hal fd' e' hpos hfse'
  · rw [if_neg hr, if_pos (not_lt.mp hr)]
    refine careful_unbusy ⟨rfl, rfl⟩ (Aligned.atRest fun fd' e' hpos hfse' => ?_)
    dsimp only at hpos hfse' ⊢
    rw [Function.update_apply] at hpos ⊢
    split_ifs at hpos ⊢ with hfd'
    · rw [← hfse', hfd', hfse]
    · exact hal fd' e' hpos hfse'

theorem careful_openPicked {fd : ℕ} {creat : Bool} {res : Except FlowopRet Entry} {d' : Desk}
    (hal : Aligned d) (hidle : d.stage = .idle) (hfd : d.tf.tfFd fd = 0)
    (hres : d.PickedFrom d' res) :
    ObeysCareful d' (openPicked fd creat res) := by
  cases res with
  | error err =>
    obtain rfl := hres
    exact ⟨hal, .inl hidle⟩
  | ok e =>
    obtain rfl := hres
    refine careful_get (careful_set (careful_filesetOpenfile creat ?_ rfl ?_ hfd))
    · intro fd' e' hpos hfse
      dsimp only at hpos hfse ⊢
      rw [Function.update_apply] at hfse
      split_ifs at hfse with hfd'
      · rw [hfd', hfd] at hpos
        exact absurd hpos (lt_irrefl 0)
      · exact hal fd' e' hpos hfse
    · exact Function.update_self ..

theorem flowoplibFdnum_tf (flowop : Flowop) (tf : Threadflow) :
    (flowoplibFdnum flowop tf).2.tfFd = tf.tfFd ∧
      (flowoplibFdnum flowop tf).2.tfFse = tf.tfFse := by
  unfold flowoplibFdnum
  split_ifs <;> exact ⟨rfl, rfl⟩

theorem careful_flowoplibOpenfile (flowop : Flowop) (hal : Aligned d) (hidle : d.stage = .idle) :
    ObeysCareful d (flowoplibOpenfile flowop) := by
  unfold flowoplibOpenfile
  refine careful_get ?_
  rcases hfd : flowoplibFdnum flowop d.tf with ⟨_ | fd, tf'⟩
  · exact ⟨hal, .inl hidle⟩
  obtain ⟨htfFd, htfFse⟩ := flowoplibFdnum_tf flowop d.tf
  rw [hfd] at htfFd htfFse
  have hal' : Aligned { d with tf := tf' } := by
    intro fd' e' hpos hfse
    exact hal fd' e' (htfFd ▸ hpos) (htfFse ▸ hfse)
  refine careful_set ?_
  unfold flowoplibOpenfileCommon
  by_cases hset : (!flowop.foFileset || !flowop.fsName) = true
  · rw [if_pos hset]
    exact ⟨hal', .inl hidle⟩
  rw [if_neg hset]
  refine careful_get ?_
  by_cases hopen : tf'.tfFd fd ≠ 0
  · rw [if_pos hopen]
    exact ⟨hal', .inl hidle⟩
  · rw [if_neg hopen]
    exact (careful_flowoplibPick (d := { d with tf := tf' }) flowop .file false _ hidle).bind
      fun d' res hres => careful_openPicked hal' hidle (not_not.mp hopen) hres

theorem careful_flowoplibCreatefile (flowop : Flowop) (hal : Aligned d) (hidle : d.stage = .idle) :
    ObeysCareful d (flowoplibCreatefile flowop) := by
  unfold flowoplibCreatefile
  refine careful_get ?_
  split_ifs with hopen
  · exact ⟨hal, .inl hidle⟩
  · exact ⟨hal, .inl hidle⟩
  · exact ⟨hal, .inl hidle⟩
  · exact (careful_flowoplibPick flowop .file true 0 hidle).bind
      fun d' res hres => careful_openPicked hal hidle (not_not.mp hopen) hres

/-- A delete of a file that the thread has open through its descriptor, or of one that nobody has
open. -/
theorem careful_deletePicked {fd : ℕ} {file : Entry} (hal : Aligned d)
    (hstage : d.stage = .picked file) (hclear : 0 < fd → d.tf.tfFse fd = none)
    (hopen : 0 < fd → 0 < d.tf.tfFd fd → d.openFd fd = some file) :
    ObeysCareful d (deletePicked fd (.ok file)) := by
  refine careful_get (careful_openCnt hstage fun cnt hfew => ?_)
  by_cases hdecline : (if 0 < fd ∧ 0 < d.tf.tfFd fd then 1 < cnt else 0 < cnt)
  · rw [if_pos hdecline]
    exact careful_unbusy ⟨rfl, rfl⟩ hal.atRest
  rw [if_neg hdecline]
  have hal' : ∀ e' fd', 0 < d.tf.tfFd fd' → d.tf.tfFse fd' = some e' → e' ≠ file := by
    rintro e' fd' hpos hfse rfl
    have hfd' := hal fd' e' hpos hfse
    split_ifs at hdecline with hfd
    · have heq := hfew.2 (not_lt.mp hdecline) fd' fd hfd' (hopen hfd.1 hfd.2)
      rw [heq, hclear hfd.1] at hfse
      cases hfse
    · exact hfew.1 (not_lt.mp hdecline) fd' hfd'
  refine careful_call ⟨cnt, rfl, ?_⟩ ?_
  · split_ifs at hdecline with hfd
    · exact .inr ⟨not_lt.mp hdecline, fd, hopen hfd.1 hfd.2⟩
    · exact .inl (not_lt.mp hdecline)
  · rintro r d' ⟨-, rfl⟩
    refine careful_openCnt_again rfl fun cnt' => careful_unbusy ⟨rfl, rfl⟩ (Aligned.atRest ?_)
    intro fd' e' hpos hfse
    have hfd' := hal fd' e' hpos hfse
    dsimp only
    rw [hfd', if_neg fun h => hal' e' fd' hpos hfse (Option.some.inj h)]

theorem careful_flowoplibDeletefile (flowop : Flowop) (hal : Aligned d) (hidle : d.stage = .idle)
    (hsuits : Suits .deletefile flowop d.tf) : ObeysCareful d (flowoplibDeletefile flowop) := by
  unfold flowoplibDeletefile
  refine careful_get ?_
  cases hfile : (if 0 < flowop.foFdnumber then d.tf.tfFse flowop.foFdnumber else none) with
  | none =>
    refine (careful_flowoplibPick flowop .file false 0 hidle).bind ?_
    have hnone : 0 < flowop.foFdnumber → d.tf.tfFse flowop.foFdnumber = none := by
      intro hpos
      rwa [if_pos hpos] at hfile
    rintro d' (err | file) hres
    · obtain rfl := hres
      exact ⟨hal, .inl hidle⟩
    · obtain rfl := hres
      exact careful_deletePicked hal rfl hnone fun hpos hfd =>
        absurd (hnone hpos) (hsuits hpos hfd)
  | some file =>
    have hpos : 0 < flowop.foFdnumber := by
      by_contra hzero
      rw [if_neg hzero] at hfile
      cases hfile
    rw [if_pos hpos] at hfile
    refine careful_set (careful_grab hidle (careful_deletePicked ?_ rfl (fun _ => ?_) ?_))
    · intro fd' e' hpos' hfse
      dsimp only at hpos' hfse ⊢
      rw [Function.update_apply] at hfse
      split_ifs at hfse
      exact hal fd' e' hpos' hfse
    · exact Function.update_self ..
    · intro _ hfd
      exact hal _ _ hfd hfile

theorem careful_flowoplibClosefile (flowop : Flowop) (hal : Aligned d) (hidle : d.stage = .idle)
    (hsuits : Suits .closefile flowop d.tf) : ObeysCareful d (flowoplibClosefile flowop) := by
  unfold flowoplibClosefile
  refine careful_get ?_
  by_cases hfd : d.tf.tfFd flowop.foFdnumber = 0
  · rw [if_pos hfd]
    exact ⟨hal, .inl hidle⟩
  rw [if_neg hfd]
  cases hfile : d.tf.tfFse flowop.foFdnumber with
  | none => exact ⟨trivial, nofun⟩
  | some file =>
    have hopen : d.openFd flowop.foFdnumber = some file :=
      hal _ _ (lt_of_le_of_ne hsuits (Ne.symm hfd)) hfile
    refine careful_grab hidle (careful_call ⟨file, rfl, hopen⟩ ?_)
    intro r d' hd'
    obtain rfl := hd' file rfl
    refine careful_unbusy ⟨rfl, rfl⟩ (careful_get (careful_set ⟨?_, .inl rfl⟩))
    intro fd' e' hpos hfse
    dsimp only at hpos hfse ⊢
    rw [Function.update_apply] at hpos ⊢
    split_ifs at hpos ⊢
    · omega
    · exact hal fd' e' hpos hfse

theorem careful_leafdirFlowop (flowop : Flowop) {call : Entry → SysCall} (exists_ : Bool)
    (hal : Aligned d) (hidle : d.stage = .idle) (hmay : ∀ d dir, Desk.mayCall d (call dir))
    (hcall : ∀ d r d' dir, Desk.afterCall d r d' (call dir) → d' = d) :
    ObeysCareful d (leafdirFlowop flowop call exists_) := by
  refine (careful_flowoplibPick flowop .leafdir exists_ 0 hidle).bind ?_
  rintro d' (err | dir) hres
  · obtain rfl := hres
    exact ⟨hal, .inl hidle⟩
  · obtain rfl := hres
    refine careful_call trivial ?_
    rintro r d' rfl
    by_cases hr : r ≠ 0
    · rw [if_pos hr]
      exact ⟨hal, .inr ⟨dir, rfl⟩⟩
    · rw [if_neg hr]
      refine careful_call (hmay _ dir) ?_
      intro r' d'' hd''
      obtain rfl := hcall _ _ _ _ hd''
      exact careful_unbusy ⟨rfl, rfl⟩ hal.atRest

theorem careful_flowoplibListdir (flowop : Flowop) (hal : Aligned d) (hidle : d.stage = .idle) :
    ObeysCareful d (flowoplibListdir flowop) := by
  unfold flowoplibListdir
  split_ifs
  · exact ⟨hal, .inl hidle⟩
  refine careful_pick hidle ⟨hal, .inl hidle⟩ fun dir => careful_call trivial ?_
  rintro r d' rfl
  by_cases hr : r ≠ 0
  · rw [if_pos hr]
    exact ⟨hal, .inr ⟨dir, rfl⟩⟩
  rw [if_neg hr]
  refine careful_call trivial ?_
  rintro handle d' rfl
  by_cases hhandle : handle = 0
  · rw [if_pos hhandle]
    exact ⟨hal, .inr ⟨dir, rfl⟩⟩
  rw [if_neg hhandle]
  refine careful_call trivial ?_
  rintro r' d' rfl
  exact careful_unbusy ⟨rfl, rfl⟩ hal.atRest

theorem careful_flowoplibStatfile (flowop : Flowop) (hal : Aligned d) (hidle : d.stage = .idle) :
    ObeysCareful d (flowoplibStatfile flowop) := by
  unfold flowoplibStatfile
  refine careful_get ?_
  split_ifs
  · exact ⟨hal, .inl hidle⟩
  · refine careful_call trivial ?_
    rintro r d' rfl
    exact ⟨hal, .inl hidle⟩
  · refine (careful_flowoplibPick flowop .file false 0 hidle).bind ?_
    rintro d' (err | file) hres
    · obtain rfl := hres
      exact ⟨hal, .inl hidle⟩
    · obtain rfl := hres
      refine careful_call trivial ?_
      rintro r d' rfl
      exact careful_unbusy ⟨rfl, rfl⟩ hal.atRest

theorem careful_run (func : FlowopFunc) (flowop : Flowop) (hal : Aligned d) (hidle : d.stage = .idle)
    (hsuits : Suits func flowop d.tf) : ObeysCareful d (func.run flowop) := by
  cases func with
  | openfile => exact careful_flowoplibOpenfile flowop hal hidle
  | createfile => exact careful_flowoplibCreatefile flowop hal hidle
  | deletefile => exact careful_flowoplibDeletefile flowop hal hidle hsuits
  | closefile => exact careful_flowoplibClosefile flowop hal hidle hsuits
  | makedir =>
    exact careful_leafdirFlowop flowop true hal hidle (fun _ _ => trivial) fun _ _ _ _ => id
  | removedir =>
    exact careful_leafdirFlowop flowop false hal hidle (fun _ _ => trivial) fun _ _ _ _ => id
  | listdir => exact careful_flowoplibListdir flowop hal hidle
  | statfile => exact careful_flowoplibStatfile flowop hal hidle

end flowops

/-! ## Runs -/

/-- A step that does not lead into a delete that goes wrong: the flowop that starts suits the
table, and an unlink fails only on a file that the thread has not open. -/
def DeletesWell (s : Sys) (t : ℕ) : Label (FlowopFunc × Flowop) → Prop
  | .start (func, flowop) => Suits func flowop (s.thread t).tf
  | .call (.fbUnlink e) r => r = 0 ∨ ∀ fd, (s.thread t).openFd fd ≠ some e
  | _ => True

/-- At most `n` descriptors of all threads refer to the file of `e`. -/
def Covered (thread : ℕ → Thread) (e : Entry) (n : ℤ) : Prop :=
  AtMost (fun slot : ℕ × ℕ => (thread slot.1).openFd slot.2 = some e) n

def Thread.desk (th : Thread) (stage : Stage) : Desk := ⟨th.tf, th.openFd, stage⟩

/-- The invariant, with where every thread stands. -/
structure Guarded (fs₀ : Fileset) (s : Sys) (stage : ℕ → Stage) : Prop where
  obeys : ∀ t, ObeysCareful ((s.thread t).desk (stage t)) (s.thread t).prog
  held : ∀ t e, (stage t).entry = some e → e ∈ (s.thread t).held
  count : ∀ t e cnt, (stage t).count = some (e, cnt) → (s.fs.fse e).fseOpenCnt = cnt
  free : ∀ e ∈ fs₀.entries, (∀ t, (stage t).entry ≠ some e) →
    Covered s.thread e (s.fs.fse e).fseOpenCnt
  bound : ∀ t e, (stage t).entry = some e →
    Covered s.thread e ((stage t).bound (s.fs.fse e).fseOpenCnt)

section step

variable {fs₀ : Fileset} {s s' : Sys} {stage : ℕ → Stage} {st : Stage} {t : ℕ}

theorem Covered.few {thread : ℕ → Thread} {e : Entry} {cnt : ℤ} (h : Covered thread e cnt)
    (t : ℕ) : FewOpen (thread t).openFd e cnt := by
  refine ⟨fun hcnt fd => h.none hcnt (t, fd), fun hcnt fd fd' hfd hfd' => ?_⟩
  exact (Prod.mk.inj (h.unique (a := (t, fd)) (b := (t, fd')) hcnt hfd hfd')).2

/-- An entry is at hand for one thread only. -/
theorem Guarded.unique (hG : Guarded fs₀ s stage) (hI : Owned fs₀ s) {t t' : ℕ} {e : Entry}
    (h : (stage t).entry = some e) (h' : (stage t').entry = some e) : t = t' :=
  hI.owners.unique e t t' (List.mem_append_left _ (hG.held t e h))
    (List.mem_append_left _ (hG.held t' e h'))

/-- Before the unlink of a file, no other thread has it open. -/
theorem Guarded.alone (hG : Guarded fs₀ s stage) {e : Entry} {k : ℤ → Flow FlowopRet}
    (hp : (s.thread t).prog = .request (.call (.fbUnlink e)) k) {t' : ℕ} (ht : t' ≠ t) (fd : ℕ) :
    (s.thread t').openFd fd ≠ some e := by
  have hob := hG.obeys t
  rw [hp] at hob
  obtain ⟨cnt, hstage, hcnt⟩ := hob.1
  have hstage' : stage t = .counted e cnt := hstage
  have hbound := hG.bound t e (by rw [hstage']; rfl)
  have hread := hG.count t e cnt (by rw [hstage']; rfl)
  rw [hstage', hread] at hbound
  intro hfd
  rcases hcnt with hcnt | ⟨hcnt, fd', hfd'⟩
  · exact hbound.none hcnt (t', fd) hfd
  · exact ht (Prod.mk.inj (hbound.unique (a := (t', fd)) (b := (t, fd')) hcnt hfd hfd')).1

theorem unbusyView_openCnt (fs : Fileset) (e : Entry) (newExist : Option Bool) (n : ℤ)
    (x : Entry) : ((unbusyView fs e newExist n).1.fse x).fseOpenCnt =
      if x = e then (fs.fse e).fseOpenCnt + n else (fs.fse x).fseOpenCnt := by
  have hclear : ∀ fs' : Fileset, ((clearBusy fs' e).1.fse x).fseOpenCnt =
      (fs'.fse x).fseOpenCnt := by
    intro fs'
    by_cases hb : (fs'.flags e).busy = true
    · rw [clearBusy_of_busy hb, idled, addIdle_fse, Fileset.setFlags, setFse_fse]
      split_ifs with hx
      · rw [hx]
      · rfl
    · rw [clearBusy_of_not_busy hb]
  cases newExist with
  | none =>
    refine (hclear _).trans ?_
    rw [setFse_fse]
    split_ifs <;> rfl
  | some v =>
    refine (hclear _).trans ?_
    simp only [setFse_fse, Fileset.setFlags]
    split_ifs <;> rfl

theorem Guarded.signalled (hG : Guarded fs₀ s stage) {thread' : ℕ → Thread}
    (h : ∀ t, ∃ w, thread' t = { s.thread t with wait := w }) : Guarded fs₀ ⟨s.fs, thread'⟩ stage := by
  have hopen : ∀ t fd, (thread' t).openFd fd = (s.thread t).openFd fd := by
    intro t fd
    obtain ⟨w, hw⟩ := h t
    rw [hw]
  have hcov : ∀ {e n}, Covered s.thread e n → Covered thread' e n := by
    intro e n hcov
    refine hcov.mono (fun slot hslot => ?_) le_rfl
    rwa [hopen] at hslot
  refine ⟨fun t => ?_, fun t e he => ?_, hG.count, fun e hmem he => hcov (hG.free e hmem he),
    fun t e he => hcov (hG.bound t e he)⟩
  · obtain ⟨w, hw⟩ := h t
    dsimp only
    rw [hw]
    exact hG.obeys t
  · obtain ⟨w, hw⟩ := h t
    dsimp only
    rw [hw]
    exact hG.held t e he

section act

variable {fs' : Fileset} {th : Thread}

/-- The thread `t` goes on to the stage `st`. Entries that it does not touch keep their counts
and gain no descriptor. -/
theorem Guarded.act (hG : Guarded fs₀ s stage) (hI : Owned fs₀ s)
    (hobeys : ObeysCareful (th.desk st) th.prog)
    (hheld : ∀ e, st.entry = some e → e ∈ th.held)
    (hcount : ∀ e cnt, st.count = some (e, cnt) → (fs'.fse e).fseOpenCnt = cnt)
    (hnew : ∀ e, st.entry = some e →
      (stage t).entry = some e ∨ ∀ t', (stage t').entry ≠ some e)
    (hcnt : ∀ e, (stage t).entry ≠ some e → st.entry ≠ some e →
      (fs'.fse e).fseOpenCnt = (s.fs.fse e).fseOpenCnt)
    (hfd : ∀ e, (stage t).entry ≠ some e → st.entry ≠ some e →
      ∀ fd, th.openFd fd = some e → (s.thread t).openFd fd = some e)
    (hbound : ∀ e, st.entry = some e →
      Covered (Function.update s.thread t th) e (st.bound (fs'.fse e).fseOpenCnt))
    (hfree : ∀ e, (stage t).entry = some e → st.entry ≠ some e →
      Covered (Function.update s.thread t th) e (fs'.fse e).fseOpenCnt) :
    Guarded fs₀ ⟨fs', Function.update s.thread t th⟩ (Function.update stage t st) := by
  have hexcl : ∀ t', t' ≠ t → ∀ e, (stage t').entry = some e →
      (stage t).entry ≠ some e ∧ st.entry ≠ some e := by
    intro t' ht e he
    have hold : (stage t).entry ≠ some e := fun he' => ht (hG.unique hI he he')
    refine ⟨hold, fun he' => ?_⟩
    rcases hnew e he' with h | h
    · exact hold h
    · exact h t' he
  have hkeep : ∀ e n, (stage t).entry ≠ some e → st.entry ≠ some e → Covered s.thread e n →
      Covered (Function.update s.thread t th) e n := by
    intro e n h h' hcov
    refine hcov.mono (fun slot hslot => ?_) le_rfl
    by_cases ht : slot.1 = t
    · rw [ht] at hslot ⊢
      rw [Function.update_self] at hslot
      exact hfd e h h' _ hslot
    · rwa [Function.update_of_ne ht] at hslot
  refine ⟨fun t' => ?_, fun t' e => ?_, fun t' e cnt => ?_, fun e hmem hnone => ?_, fun t' e => ?_⟩
  · dsimp only
    by_cases ht : t' = t
    · subst ht
      rwa [Function.update_self, Function.update_self]
    · rw [Function.update_of_ne ht, Function.update_of_ne ht]
      exact hG.obeys t'
  · dsimp only
    by_cases ht : t' = t
    · subst ht
      rw [Function.update_self, Function.update_self]
      exact hheld e
    · rw [Function.update_of_ne ht, Function.update_of_ne ht]
      exact hG.held t' e
  · by_cases ht : t' = t
    · subst ht
      rw [Function.update_self]
      exact hcount e cnt
    · rw [Function.update_of_ne ht]
      intro hc
      obtain ⟨h, h'⟩ := hexcl t' ht e (Stage.entry_of_count hc)
      exact (hcnt e h h').trans (hG.count t' e cnt hc)
  · have hst : st.entry ≠ some e := by
      have := hnone t
      rwa [Function.update_self] at this
    by_cases h : (stage t).entry = some e
    · exact hfree e h hst
    · dsimp only
      rw [hcnt e h hst]
      refine hkeep e _ h hst (hG.free e hmem fun t' => ?_)
      by_cases ht : t' = t
      · subst ht
        exact h
      · have := hnone t'
        rwa [Function.update_of_ne ht] at this
  · by_cases ht : t' = t
    · subst ht
      rw [Function.update_self]
      exact hbound e
    · rw [Function.update_of_ne ht]
      intro he
      obtain ⟨h, h'⟩ := hexcl t' ht e he
      dsimp only
      rw [hcnt e h h']
      exact hkeep e _ h h' (hG.bound t' e he)

theorem Covered.update {thread : ℕ → Thread} {e : Entry} {n m : ℤ} (h : Covered thread e n)
    (hfd : th.openFd = (thread t).openFd) (hn : n ≤ m) :
    Covered (Function.update thread t th) e m := by
  refine h.mono (fun slot hslot => ?_) hn
  by_cases ht : slot.1 = t
  · rw [ht] at hslot ⊢
    rwa [Function.update_self, hfd] at hslot
  · rwa [Function.update_of_ne ht] at hslot

variable (st) in
/-- A step that touches neither open counts nor descriptors, with the same entry at hand. -/
theorem Guarded.stay (hG : Guarded fs₀ s stage) (hI : Owned fs₀ s)
    (hentry : st.entry = (stage t).entry) (hst : ∀ c, st.bound c = (stage t).bound c)
    (hcnt : ∀ e, (fs'.fse e).fseOpenCnt = (s.fs.fse e).fseOpenCnt)
    (hfd : th.openFd = (s.thread t).openFd) (hheld : th.held = (s.thread t).held)
    (hobeys : ObeysCareful (th.desk st) th.prog)
    (hcount : ∀ e cnt, st.count = some (e, cnt) → (s.fs.fse e).fseOpenCnt = cnt) :
    Guarded fs₀ ⟨fs', Function.update s.thread t th⟩ (Function.update stage t st) := by
  refine hG.act hI hobeys ?_ ?_ ?_ (fun e _ _ => hcnt e) ?_ ?_ ?_
  · intro e he
    rw [hheld]
    exact hG.held t e (hentry ▸ he)
  · intro e cnt hc
    exact (hcnt e).trans (hcount e cnt hc)
  · exact fun e he => .inl (hentry ▸ he)
  · intro e _ _ fd
    rw [hfd]
    exact id
  · intro e he
    rw [hst, hcnt]
    exact (hG.bound t e (hentry ▸ he)).update hfd le_rfl
  · exact fun e he hne => absurd (hentry.trans he) hne

/-- A step that touches neither open counts nor descriptors, with the same stage. -/
theorem Guarded.stayPut (hG : Guarded fs₀ s stage) (hI : Owned fs₀ s)
    (hcnt : ∀ e, (fs'.fse e).fseOpenCnt = (s.fs.fse e).fseOpenCnt)
    (hfd : th.openFd = (s.thread t).openFd) (hheld : th.held = (s.thread t).held)
    (hobeys : ObeysCareful (th.desk (stage t)) th.prog) :
    ∃ stage', Guarded fs₀ ⟨fs', Function.update s.thread t th⟩ stage' :=
  ⟨_, hG.stay (stage t) hI rfl (fun _ => rfl) hcnt hfd hheld hobeys fun e cnt hc =>
    hG.count t e cnt hc⟩

/-- A thread marks an entry busy that was free. -/
theorem Guarded.take (hG : Guarded fs₀ s stage) (hI : Owned fs₀ s) {e : Entry}
    (hmem : e ∈ fs₀.entries) (hidle : stage t = .idle) (hb : (s.fs.flags e).busy = false)
    (hcnt : ∀ x, (fs'.fse x).fseOpenCnt = (s.fs.fse x).fseOpenCnt)
    (hfd : th.openFd = (s.thread t).openFd) (hheld : th.held = e :: (s.thread t).held)
    (hobeys : ObeysCareful (th.desk (.picked e)) th.prog) :
    Guarded fs₀ ⟨fs', Function.update s.thread t th⟩ (Function.update stage t (.picked e)) := by
  have hnone : ∀ t', (stage t').entry ≠ some e := by
    intro t' he
    have hbusy := ((hI.owners.flag_iff e).mpr ⟨t', List.mem_append_left _ (hG.held t' e he)⟩).2
    rw [hb] at hbusy
    cases hbusy
  have hno : ∀ x, (stage t).entry ≠ some x := by
    intro x
    rw [hidle]
    exact nofun
  refine hG.act hI hobeys ?_ nofun ?_ (fun x _ _ => hcnt x) ?_ ?_
    (fun x hx => absurd hx (hno x))
  · rintro x hx
    obtain rfl := Option.some.inj hx
    rw [hheld]
    exact List.mem_cons_self
  · rintro x hx
    obtain rfl := Option.some.inj hx
    exact .inr hnone
  · intro x _ _ fd
    rw [hfd]
    exact id
  · rintro x hx
    obtain rfl := Option.some.inj hx
    rw [hcnt]
    exact (hG.free e hmem hnone).update hfd le_rfl

/-- The release books what the thread did to the entry. -/
theorem Guarded.release (hG : Guarded fs₀ s stage) (hI : Owned fs₀ s) {e : Entry}
    {newExist : Option Bool} {n : ℤ}
    (hallow : careful.allow ((s.thread t).desk (stage t)) (.unbusy e newExist n))
    (hcnt : ∀ x, (fs'.fse x).fseOpenCnt =
      if x = e then (s.fs.fse e).fseOpenCnt + n else (s.fs.fse x).fseOpenCnt)
    (hfd : th.openFd = (s.thread t).openFd)
    (hobeys : ObeysCareful (th.desk .idle) th.prog) :
    Guarded fs₀ ⟨fs', Function.update s.thread t th⟩ (Function.update stage t .idle) := by
  obtain ⟨hentry, hn⟩ := hallow
  change (stage t).entry = some e at hentry
  change (stage t).Books n at hn
  have hle : (stage t).bound (s.fs.fse e).fseOpenCnt ≤ (s.fs.fse e).fseOpenCnt + n := by
    have hread := hG.count t e
    cases hst : stage t with
    | idle | unlinked x =>
      rw [hst] at hn
      exact hn.elim
    | emptied x cnt =>
      rw [hst] at hn hread hentry
      obtain rfl := Option.some.inj hentry
      have hcnt' := hread cnt rfl
      obtain rfl : n = -cnt := hn
      change (0 : ℤ) ≤ _
      omega
    | picked x | counted x cnt | opened x | closed x =>
      rw [hst] at hn
      obtain rfl : n = _ := hn
      simp [Stage.bound, Int.sub_eq_add_neg]
  refine hG.act hI hobeys nofun nofun nofun ?_ ?_ nofun ?_
  · intro x hx _
    rw [hcnt, if_neg]
    rintro rfl
    exact hx hentry
  · intro x _ _ fd
    rw [hfd]
    exact id
  · intro x hx _
    obtain rfl : e = x := Option.some.inj (hentry.symm.trans hx)
    rw [hcnt, if_pos rfl]
    exact (hG.bound t e hentry).update hfd hle

variable (st) in
/-- A call on the file at hand. -/
theorem Guarded.call (hG : Guarded fs₀ s stage) (hI : Owned fs₀ s) {e : Entry}
    (hentry : (stage t).entry = some e) (hst : st.entry = some e) (hread : st.count = none)
    (hheld : th.held = (s.thread t).held) (hobeys : ObeysCareful (th.desk st) th.prog)
    (hfd : ∀ x, x ≠ e → ∀ fd, th.openFd fd = some x → (s.thread t).openFd fd = some x)
    (hbound : Covered (Function.update s.thread t th) e (st.bound (s.fs.fse e).fseOpenCnt)) :
    Guarded fs₀ ⟨s.fs, Function.update s.thread t th⟩ (Function.update stage t st) := by
  refine hG.act hI hobeys ?_ ?_ ?_ (fun _ _ _ => rfl) ?_ ?_ ?_
  · intro x hx
    rw [hheld]
    exact hG.held t x (hentry.trans (hst.symm.trans hx))
  · intro x cnt hc
    rw [hread] at hc
    cases hc
  · exact fun x hx => .inl (hentry.trans (hst.symm.trans hx))
  · intro x hx _
    refine hfd x ?_
    rintro rfl
    exact hx hentry
  · intro x hx
    obtain rfl := Option.some.inj (hst.symm.trans hx)
    exact hbound
  · exact fun x hx hne => absurd (hst.trans (hentry.symm.trans hx)) hne

/-- An open gives the thread one more descriptor. -/
theorem Covered.fbOpen {thread : ℕ → Thread} {e : Entry} {n : ℤ} (h : Covered thread e n) {fd : ℕ}
    (hfd : th.openFd = Function.update (thread t).openFd fd (some e)) :
    Covered (Function.update thread t th) e (n + 1) := by
  refine AtMost.gain (b := (t, fd)) h ?_
  rintro ⟨t', fd'⟩ hslot
  dsimp only at hslot ⊢
  by_cases ht : t' = t
  · subst ht
    rw [Function.update_self, hfd, Function.update_apply] at hslot
    split_ifs at hslot with hfd'
    · exact .inl (by rw [hfd'])
    · exact .inr hslot
  · rw [Function.update_of_ne ht] at hslot
    exact .inr hslot

/-- A close takes one away. -/
theorem Covered.fbClose {thread : ℕ → Thread} {e : Entry} {n : ℤ} (h : Covered thread e n) {fd : ℕ}
    (hopen : (thread t).openFd fd = some e)
    (hfd : th.openFd = Function.update (thread t).openFd fd none) :
    Covered (Function.update thread t th) e (n - 1) := by
  refine AtMost.lose (b := (t, fd)) h hopen ?_
  rintro ⟨t', fd'⟩ hslot
  dsimp only at hslot ⊢
  by_cases ht : t' = t
  · subst ht
    rw [Function.update_self, hfd, Function.update_apply] at hslot
    split_ifs at hslot with hfd'
    exact ⟨fun heq => hfd' (Prod.mk.inj heq).2, hslot⟩
  · rw [Function.update_of_ne ht] at hslot
    exact ⟨fun heq => ht (Prod.mk.inj heq).1, hslot⟩

end act

/-- An unlink that succeeds, or of a file that nobody has open, leaves the descriptors of the
other threads alone. -/
theorem Guarded.unlinked_eq (hG : Guarded fs₀ s stage) {e : Entry} {k : ℤ → Flow FlowopRet}
    (hp : (s.thread t).prog = .request (.call (.fbUnlink e)) k) {r : ℤ}
    (hr : r = 0 ∨ ∀ fd, (s.thread t).openFd fd ≠ some e) :
    unlinked (.fbUnlink e) r s.thread = Function.update s.thread t { s.thread t with
      openFd := fun fd =>
        if (s.thread t).openFd fd = some e then none else (s.thread t).openFd fd } := by
  have hsame : ∀ th : Thread, (∀ fd, th.openFd fd ≠ some e) →
      { th with openFd := fun fd => if th.openFd fd = some e then none else th.openFd fd } = th := by
    intro th hnone
    have hfun : (fun fd => if th.openFd fd = some e then none else th.openFd fd) = th.openFd :=
      funext fun fd => if_neg (hnone fd)
    rw [hfun]
  by_cases hzero : r = 0
  · subst hzero
    funext t'
    by_cases ht : t' = t
    · subst ht
      rw [Function.update_self]
      rfl
    · rw [Function.update_of_ne ht]
      exact hsame _ (hG.alone hp ht)
  · rw [hsame _ (hr.resolve_left hzero), Function.update_eq_self]
    exact if_neg hzero

theorem Thread.called_fbOpen (th : Thread) {r : ℤ} (hr : 0 ≤ r) (fd : ℕ) (e : Entry) :
    th.called (.fbOpen fd e) r = { th with
      log := th.log ++ [(.fbOpen fd e, r)]
      openFd := Function.update th.openFd fd (some e) } := by
  unfold Thread.called
  simp only [if_pos hr]

theorem Thread.called_fbOpen_error (th : Thread) {r : ℤ} (hr : ¬ 0 ≤ r) (fd : ℕ) (e : Entry) :
    th.called (.fbOpen fd e) r = { th with log := th.log ++ [(.fbOpen fd e, r)] } := by
  unfold Thread.called
  simp only [if_neg hr]

theorem Guarded.stepCall (hG : Guarded fs₀ s stage) (hI : Owned fs₀ s) {c : SysCall} {r : ℤ}
    {k : ℤ → Flow FlowopRet} (hok : DeletesWell s t (.call c r))
    (hp : (s.thread t).prog = .request (.call c) k) :
    ∃ stage', Guarded fs₀ ⟨s.fs, Function.update (unlinked c r s.thread) t
      { (unlinked c r s.thread t).called c r with prog := k r, wait := .ready }⟩ stage' := by
  have hob := hG.obeys t
  rw [hp] at hob
  cases c with
  | fbOpen fd e =>
    have hst : stage t = .picked e := hob.1
    have hentry : (stage t).entry = some e := by
      rw [hst]
      rfl
    by_cases hr : 0 ≤ r
    · have hcov := hG.bound t e hentry
      rw [hst] at hcov
      rw [Thread.called_fbOpen _ hr]
      refine ⟨_, hG.call (.opened e) hI hentry rfl rfl rfl (hob.2 r _ (if_pos hr).symm) ?_
        (hcov.fbOpen rfl)⟩
      intro x hx fd' hfd'
      have hupd : Function.update (s.thread t).openFd fd (some e) fd' = some x := hfd'
      rw [Function.update_apply] at hupd
      split_ifs at hupd
      · exact absurd (Option.some.inj hupd).symm hx
      · exact hupd
    · rw [Thread.called_fbOpen_error _ hr]
      exact hG.stayPut hI (fun _ => rfl) rfl rfl (hob.2 r _ (if_neg hr).symm)
  | fbClose fd =>
    obtain ⟨e, hst, hopen⟩ := hob.1
    have hst' : stage t = .picked e := hst
    have hentry : (stage t).entry = some e := by
      rw [hst']
      rfl
    have hcov := hG.bound t e hentry
    rw [hst'] at hcov
    have hnext : ∀ x, stage t = .picked x → e = x := by
      intro x hx
      rw [hst'] at hx
      exact Stage.picked.inj hx
    refine ⟨_, hG.call (.closed e) hI hentry rfl rfl rfl
      (hob.2 r _ fun x hx => by rw [hnext x hx]; rfl) ?_ (hcov.fbClose hopen rfl)⟩
    intro x hx fd' hfd'
    have hupd : Function.update (s.thread t).openFd fd none fd' = some x := hfd'
    rw [Function.update_apply] at hupd
    split_ifs at hupd
    exact hupd
  | fbUnlink e =>
    obtain ⟨cnt, hst, -⟩ := hob.1
    have hst' : stage t = .counted e cnt := hst
    have hentry : (stage t).entry = some e := by
      rw [hst']
      rfl
    have hnext := hob.2 r _ ⟨hok, rfl⟩
    rw [hG.unlinked_eq hp hok, Function.update_idem, Function.update_self]
    refine ⟨_, hG.call (.unlinked e) hI hentry rfl rfl rfl hnext ?_ (atMost_zero ?_)⟩
    · intro x hx fd' hfd'
      have hcleared : (if (s.thread t).openFd fd' = some e then none
        else (s.thread t).openFd fd') = some x := hfd'
      split_ifs at hcleared
      exact hcleared
    · rintro ⟨t', fd'⟩ hslot
      dsimp only at hslot
      by_cases ht : t' = t
      · subst ht
        rw [Function.update_self] at hslot
        have hcleared : (if (s.thread t').openFd fd' = some e then none
          else (s.thread t').openFd fd') = some e := hslot
        split_ifs at hcleared with h
        exact h hcleared
      · rw [Function.update_of_ne ht] at hslot
        exact hG.alone hp ht fd' hslot
  | _ =>
    exact hG.stayPut hI (fun _ => rfl) rfl rfl (hob.2 r _ rfl)

theorem Guarded.step {l : Label (FlowopFunc × Flowop)} (hG : Guarded fs₀ s stage) (hI : Owned fs₀ s)
    (hok : DeletesWell s t l) (h : SysStep flowopCode s t l s') : ∃ stage', Guarded fs₀ s' stage' := by
  have hob := hG.obeys t
  cases h with
  | start i r hp =>
    rw [hp] at hob
    obtain ⟨hal, hrest⟩ := hob
    refine ⟨Function.update stage t .idle, hG.act hI (careful_run i.1 i.2 hal rfl hok) nofun nofun
      nofun (fun _ _ _ => rfl) (fun _ _ _ _ => id) nofun fun e he _ => ?_⟩
    have hbound := hG.bound t e he
    rcases hrest with hst | ⟨x, hst⟩
    · rw [show stage t = .idle from hst] at he
      cases he
    · rw [show stage t = .picked x from hst] at hbound
      exact hbound.update rfl le_rfl
  | pick args k random res fs' hp hw hret hres =>
    rw [hp] at hob
    have hidle : stage t = .idle := hob.1
    cases filesetPick_effect hI.inv hret with
    | wait => exact absurd rfl hres
    | null r =>
      exact hG.stayPut hI (fun _ => rfl) rfl rfl (hob.2 none _ rfl)
    | nullLocked =>
      exact hG.stayPut hI (fun _ => rfl) rfl rfl (hob.2 none _ rfl)
    | entry r e _ he hhome hb =>
      refine ⟨_, hG.take hI (hI.same.entries ▸ he) hidle hb (fun x => ?_) rfl rfl (hob.2 (some e) _ rfl)⟩
      rw [Fileset.setFlags, setFse_fse]
      split_ifs with hx
      · rw [hx]
        rfl
      · rfl
  | pickWait args k random fs' hp hw hret =>
    cases filesetPick_effect hI.inv hret with
    | wait =>
      exact hG.stayPut hI (fun _ => rfl) rfl rfl hob
  | grab kind e k hp hw hb =>
    have hdisc := (hI.thread t).obeys
    rw [hp] at hob hdisc
    have hmem : e ∈ fs₀.entries := Fileset.mem_entries.mpr ⟨.file, hdisc.1⟩
    refine ⟨_, hG.take hI hmem hob.1 hb (fun x => ?_) rfl rfl (hob.2 () _ rfl)⟩
    rw [grabEntry_eq, addIdle_fse, Fileset.setFlags, setFse_fse]
    split_ifs with hx
    · rw [hx]
    · rfl
  | grabWait kind e k hp hw hb =>
    refine hG.stayPut hI (fun x => ?_) rfl rfl hob
    rw [waitForEntry, Fileset.setFlags, setFse_fse]
    split_ifs with hx
    · rw [hx]
    · rfl
  | unbusy e newExist n k fs' sig thread' hp hret hsig =>
    rw [hp] at hob
    have he : e ∈ s.fs.entries := by
      have hheld := hG.held t e hob.1.1
      exact ((hI.owners.flag_iff e).mpr ⟨t, List.mem_append_left _ hheld⟩).1
    obtain ⟨-, -, link, ts, rfl⟩ := filesetUnbusy_inv hI.inv he hret
    have hG' : Guarded fs₀ ⟨(unbusyView s.fs e newExist n).1.withTrees link ts,
        Function.update s.thread t { s.thread t with
          prog := k ()
          wait := .ready
          held := (s.thread t).held.erase e }⟩ (Function.update stage t .idle) :=
      hG.release hI hob.1 (fun x => unbusyView_openCnt s.fs e newExist n x) rfl (hob.2 () _ rfl)
    exact ⟨_, hG'.signalled hsig.same⟩
  | openCnt e k hp =>
    rw [hp] at hob
    have hread : ∀ e' cnt, some (e, (s.fs.fse e).fseOpenCnt) = some (e', cnt) →
        (s.fs.fse e').fseOpenCnt = cnt := by
      rintro e' cnt ⟨⟩
      rfl
    rcases hob.1 with hst | hst
    · have hst' : stage t = .picked e := hst
      have hfew : FewOpen (s.thread t).openFd e (s.fs.fse e).fseOpenCnt := by
        have hbound := hG.bound t e (by rw [hst']; rfl)
        rw [hst'] at hbound
        exact hbound.few t
      refine ⟨_, hG.stay (.counted e (s.fs.fse e).fseOpenCnt) hI ?_ ?_ (fun _ => rfl) rfl rfl
        (hob.2 _ _ (.inl ⟨hst, hfew, rfl⟩)) hread⟩
      · rw [hst']
        rfl
      · rw [hst']
        exact fun _ => rfl
    · have hst' : stage t = .unlinked e := hst
      refine ⟨_, hG.stay (.emptied e (s.fs.fse e).fseOpenCnt) hI ?_ ?_ (fun _ => rfl) rfl rfl
        (hob.2 _ _ (.inr ⟨hst, rfl⟩)) hread⟩
      · rw [hst']
        rfl
      · rw [hst']
        exact fun _ => rfl
  | call c r k hp => exact hG.stepCall hI hok hp
  | get k hp =>
    rw [hp] at hob
    exact hG.stayPut hI (fun _ => rfl) rfl rfl (hob.2 _ _ ⟨rfl, rfl⟩)
  | set tf k hp =>
    rw [hp] at hob
    exact hG.stayPut hI (fun _ => rfl) rfl rfl (hob.2 () _ rfl)

end step

theorem Initial.guarded {s : Sys} (h : Initial s) : Guarded s.fs s fun _ => .idle := by
  refine ⟨fun t => ?_, nofun, nofun, fun e he _ => ?_, nofun⟩
  · rw [h.threads]
    exact ⟨fun fd e hpos => absurd hpos (lt_irrefl 0), .inl rfl⟩
  · rw [h.created.closed e he]
    refine atMost_zero ?_
    rintro ⟨t, fd⟩ hslot
    dsimp only at hslot
    rw [h.threads] at hslot
    cases hslot

/-- In every run whose steps lead into no delete that goes wrong, nobody but the deleting thread
has a file open at its unlink. -/
theorem sysRun_unlink_alone {s₀ s : Sys} (h₀ : Initial s₀)
    (hrun : SysRun flowopCode DeletesWell s₀ s) {t : ℕ} {e : Entry} {k : ℤ → Flow FlowopRet}
    (hp : (s.thread t).prog = .request (.call (.fbUnlink e)) k) {t' : ℕ} (ht : t' ≠ t) (fd : ℕ) :
    (s.thread t').openFd fd ≠ some e := by
  have hguarded : ∃ stage, Guarded s₀.fs s stage := by
    clear hp
    induction hrun with
    | refl => exact ⟨_, h₀.guarded⟩
    | tail hrun hstep ih =>
      obtain ⟨stage, hG⟩ := ih
      obtain ⟨t', l, hok, hstep⟩ := hstep
      exact hG.step (h₀.owned.run (flowopCode_disciplined _) hrun) hok hstep
  obtain ⟨stage, hG⟩ := hguarded
  exact hG.alone hp ht fd

theorem sysRun_unlink_alone_start : ∃ (s₀ s : Sys) (e : Entry) (k : ℤ → Flow FlowopRet),
    Initial s₀ ∧ (s.thread 0).prog = .request (.call (.fbUnlink e)) k ∧
    ∀ t' ≠ 0, ∀ fd, (s.thread t').openFd fd ≠ some e := by
  obtain ⟨s₀, e, h₀, hF₀⟩ := exists_oneFile
  obtain ⟨fs₁, hF₁, hpick⟩ := hF₀.pick one_ne_zero
  have hstart : SysRun flowopCode DeletesWell s₀ (solo s₀.fs s₀.thread 0 (newThread 1)) := by
    rw [← h₀.threads 0, solo_self]
    exact .refl
  have hsuits : Suits .deletefile ⟨0, false, true, none, true, false, 1⟩ (newThread 1).tf :=
    fun hfd => absurd hfd (lt_irrefl 0)
  have h₁ := hstart.next (solo_start (.deletefile, ⟨0, false, true, none, true, false, 1⟩) rfl)
    (by rwa [DeletesWell, solo_thread])
  have h₂ := (h₁.next (solo_get rfl) trivial).next (solo_pick rfl Wait.noConfusion hpick) trivial
  have h₃ := (h₂.next (solo_get rfl) trivial).next (solo_openCnt rfl) trivial
  rw [hF₁.openCnt] at h₃
  exact ⟨s₀, _, e, _, h₀, solo_prog rfl,
    fun t' ht fd => sysRun_unlink_alone h₀ h₃ (solo_prog rfl) ht fd⟩

/-- The thread after it also deleted the file. Its descriptor stays, without an entry. -/
def deleted (t : ℕ) (e : Entry) : Thread :=
  { opened t e with
    tf := { (opened t e).tf with tfFse := Function.update (opened t e).tf.tfFse 1 none }
    log := [(.fbUnlink e, 0)]
    openFd := fun fd => if (opened t e).openFd fd = some e then none else (opened t e).openFd fd }

theorem solo_deletefile {fs : Fileset} {f : ℕ → Thread} {e : Entry} {idle : ℤ}
    (h : OneFile fs e true false 1 idle) (hquiet : ∀ t, (f t).wait ≠ .blocked)
    (hf : ∀ t fd, (f t).openFd fd ≠ some e) (t : ℕ) :
    ∃ fs', OneFile fs' e false false 0 idle ∧
      FreeRun flowopCode (solo fs f t (opened t e)) (solo fs' f t (deleted t e)) := by
  have hF₁ := h.grab .delete
  obtain ⟨fs₂, sig, hF₂, hunbusy⟩ := hF₁.unbusy (some false) (-1)
  have h₀ : FreeRun flowopCode _ (solo fs f t (opened t e)) := .refl
  have h₁ := (h₀.next (solo_start (.deletefile, fdOne) rfl) trivial).next (solo_get rfl) trivial
  have h₂ := h₁.next (solo_set rfl) trivial
  have h₃ := h₂.next (solo_grab rfl Wait.noConfusion (by rw [h.flags])) trivial
  have h₄ := (h₃.next (solo_get rfl) trivial).next (solo_openCnt rfl) trivial
  rw [hF₁.openCnt] at h₄
  have h₅ := (h₄.next (solo_unlink hf rfl) trivial).next (solo_openCnt rfl) trivial
  rw [hF₁.openCnt] at h₅
  have h₆ := h₅.next (solo_unbusy rfl rfl hquiet hunbusy) trivial
  have hidle : idle + grabIdle .delete fs e + 1 = idle := neg_add_cancel_right idle 1
  rw [hidle] at hF₂
  exact ⟨fs₂, hF₂, h₆⟩

theorem solo_createfile {s : Sys} {e : Entry} {idle : ℤ} (h : OneFile s.fs e false false 0 idle)
    (hidle : idle ≠ 0) (hquiet : ∀ t, (s.thread t).wait ≠ .blocked) {t : ℕ}
    (hnew : s.thread t = newThread (t + 1)) :
    ∃ fs th, OneFile fs e true false 1 idle ∧ FreeRun flowopCode s (solo fs s.thread t th) ∧
      th.openFd 1 = some e := by
  obtain ⟨fs₁, hF₁, hpick⟩ := h.pick hidle
  obtain ⟨fs₂, sig, hF₂, hunbusy⟩ := hF₁.unbusy (some true) 1
  rw [sub_add_cancel] at hF₂
  have h₀ : FreeRun flowopCode s (solo s.fs s.thread t (newThread (t + 1))) := by
    rw [← hnew, solo_self]
    exact .refl
  have h₁ := (h₀.next (solo_start (.createfile, fdOne) rfl) trivial).next (solo_get rfl) trivial
  have h₂ := h₁.next (solo_pick rfl Wait.noConfusion hpick) trivial
  have h₃ := (h₂.next (solo_get rfl) trivial).next (solo_set rfl) trivial
  have h₄ := h₃.next (solo_call (c := .stat64) (by simp) 0 rfl) trivial
  have h₅ := h₄.next (solo_call (c := .fbOpen 1 e) (by simp) 3 rfl) trivial
  have h₆ := (h₅.next (solo_get rfl) trivial).next (solo_set rfl) trivial
  have h₇ := h₆.next (solo_unbusy rfl rfl hquiet hunbusy) trivial
  exact ⟨fs₂, _, hF₂, h₇, rfl⟩

/-- A thread deletes the file it opened, another one creates it again, and the first one, whose
descriptor still counts as an open of its own, unlinks the file of the other. -/
theorem sysRun_unlink_other : ¬ ∀ s₀ s : Sys, Initial s₀ →
    SysRun flowopCode (fun _ _ _ => True) s₀ s → ∀ t e k,
      (s.thread t).prog = .request (.call (.fbUnlink e)) k →
      ∀ t' ≠ t, ∀ fd, (s.thread t').openFd fd ≠ some e := by
  intro hclaim
  obtain ⟨s₀, e, h₀, hF₀⟩ := exists_oneFile
  have hquiet : ∀ t, (s₀.thread t).wait ≠ .blocked := by
    intro t
    rw [h₀.threads]
    exact Wait.noConfusion
  have hclosed : ∀ t fd, (s₀.thread t).openFd fd ≠ some e := by
    intro t fd
    rw [h₀.threads]
    exact (Option.some_ne_none e).symm
  obtain ⟨fs₁, hF₁, hrun₁⟩ := solo_openfile hF₀ one_ne_zero hquiet (h₀.threads 0)
  obtain ⟨fs₂, hF₂, hrun₂⟩ := solo_deletefile hF₁ hquiet hclosed 0
  obtain ⟨fs₃, th, hF₃, hrun₃, hth⟩ := solo_createfile (s := solo fs₂ s₀.thread 0 (deleted 0 e))
    hF₂ one_ne_zero (quiet_update hquiet Wait.noConfusion)
    ((solo_thread_of_ne Nat.one_ne_zero).trans (h₀.threads 1))
  obtain ⟨fs₄, hF₄, hpick⟩ := hF₃.pick one_ne_zero
  have hself : (solo fs₃ (solo fs₂ s₀.thread 0 (deleted 0 e)).thread 1 th).thread 0 =
      deleted 0 e := by
    rw [solo_thread_of_ne Nat.zero_ne_one, solo_thread]
  have hrun := (hrun₁.trans hrun₂).trans hrun₃
  rw [← solo_self (solo fs₃ (solo fs₂ s₀.thread 0 (deleted 0 e)).thread 1 th) 0, hself] at hrun
  -- the delete takes an arbitrary file, since its slot is empty
  have h₁ := (SysRun.next hrun (solo_start (.deletefile, fdOne) rfl) trivial).next (solo_get rfl)
    trivial
  have h₂ := h₁.next (solo_pick rfl Wait.noConfusion hpick) trivial
  have h₃ := (h₂.next (solo_get rfl) trivial).next (solo_openCnt rfl) trivial
  rw [hF₄.openCnt] at h₃
  refine hclaim s₀ _ h₀ h₃ 0 e _ (solo_prog rfl) 1 one_ne_zero 1 ?_
  rw [solo_thread_of_ne Nat.one_ne_zero, solo_thread]
  exact hth

end Filebench

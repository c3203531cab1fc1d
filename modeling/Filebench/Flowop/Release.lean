import Filebench.Fileset.Delete
import Filebench.Flowop.Solo

/-! # What a flowop leaves busy

Every flowop grabs files and releases what it holds. When it returns it holds an entry exactly
if a call failed on one of the paths that leave without a release. -/
namespace Filebench

open Prog

/-- The failures that make a flowop return before it releases the entry that it picked. -/
def Leaks (c : SysCall) (r : ℤ) : Prop :=
  match c with
  | .getdirpath => r ≠ 0
  | .filesetMkdir => r < 0
  | .fbOpendir => r = 0
  | _ => False

/-- No call of the log failed so. -/
def Clean (log : List (SysCall × ℤ)) : Prop := ∀ call ∈ log, ¬ Leaks call.1 call.2

/-- What a thread remembers of its current program. -/
structure Memo where
  held : List Entry
  log : List (SysCall × ℤ)

def Thread.memo (th : Thread) : Memo := ⟨th.held, th.log⟩

def Memo.after (m : Memo) (o : Request) (r : Reply o) : Memo :=
  match o, r with
  | .pick _, some e => { m with held := e :: m.held }
  | .grab _ e, _ => { m with held := e :: m.held }
  | .unbusy e _ _, _ => { m with held := m.held.erase e }
  | .call c, r => { m with log := m.log ++ [((c, r) : SysCall × ℤ)] }
  | _, _ => m

/-- The discipline, with the calls of the program. -/
def flowopRule (L : FseType → List Entry) : Protocol Request Reply Memo where
  allow m o := (discipline L).allow m.held o
  next m o r m' := (discipline L).next m.held o r m'.held ∧ m' = m.after o r

theorem discipline_next {L : FseType → List Entry} {m : Memo} {o : Request} {r : Reply o}
    {held' : List Entry} (h : (discipline L).next m.held o r held') :
    (m.after o r).held = held' := by
  cases o with
  | pick args =>
    cases r with
    | none => exact h.symm
    | some e => exact h.2.symm
  | get => exact h.2.symm
  | crash => cases r
  | _ => exact h.symm

def Tidy (m : Memo) : Prop := m.held = [] ↔ Clean m.log

abbrev ObeysTidy (L : FseType → List Entry) (m : Memo) (p : Flow FlowopRet) : Prop :=
  Obeys (flowopRule L) (fun m _ => Tidy m) m p

section rule

variable {L : FseType → List Entry} {m : Memo} {α : Type} {post : Memo → α → Prop}

theorem obeys_call {c : SysCall} {k : ℤ → Flow α} :
    Obeys (flowopRule L) post m (sysCall c >>= k) ↔
      ∀ r, Obeys (flowopRule L) post { m with log := m.log ++ [(c, r)] } (k r) := by
  constructor
  · intro h r
    exact h.2 r _ ⟨rfl, rfl⟩
  · intro h
    refine ⟨trivial, ?_⟩
    rintro r m' ⟨-, rfl⟩
    exact h r

theorem obeys_get {k : Threadflow → Flow α} :
    Obeys (flowopRule L) post m (getTf >>= k) ↔
      ∀ tf, (∀ fd e, Threadflow.tfFse tf fd = some e → e ∈ L .file) →
        Obeys (flowopRule L) post m (k tf) := by
  constructor
  · intro h tf htf
    exact h.2 tf m ⟨⟨htf, rfl⟩, rfl⟩
  · intro h
    refine ⟨trivial, ?_⟩
    rintro tf m' ⟨⟨htf, -⟩, rfl⟩
    exact h tf htf

theorem obeys_set {tf : Threadflow} {k : Unit → Flow α} :
    Obeys (flowopRule L) post m (setTf tf >>= k) ↔
      (∀ fd e, tf.tfFse fd = some e → e ∈ L .file) ∧ Obeys (flowopRule L) post m (k ()) := by
  constructor
  · intro h
    exact ⟨h.1, h.2 () m ⟨rfl, rfl⟩⟩
  · rintro ⟨htf, h⟩
    refine ⟨htf, ?_⟩
    rintro r m' ⟨-, rfl⟩
    exact h

theorem obeys_openCnt {e : Entry} {k : ℤ → Flow α} :
    Obeys (flowopRule L) post m (fseOpenCnt e >>= k) ↔
      ∀ c, Obeys (flowopRule L) post m (k c) := by
  constructor
  · intro h c
    exact h.2 c m ⟨rfl, rfl⟩
  · intro h
    refine ⟨trivial, ?_⟩
    rintro r m' ⟨-, rfl⟩
    exact h r

theorem obeys_grab {kind : Grab} {e : Entry} {k : Unit → Flow α} :
    Obeys (flowopRule L) post m (filesetGrab kind e >>= k) ↔
      e ∈ L .file ∧ Obeys (flowopRule L) post { m with held := e :: m.held } (k ()) := by
  constructor
  · intro h
    exact ⟨h.1, h.2 () _ ⟨rfl, rfl⟩⟩
  · rintro ⟨he, h⟩
    refine ⟨he, ?_⟩
    rintro r m' ⟨-, rfl⟩
    exact h

theorem obeys_unbusy {e : Entry} {newExist : Option Bool} {n : ℤ} {k : Unit → Flow α} :
    Obeys (flowopRule L) post m (filesetUnbusyReq e newExist n >>= k) ↔
      e ∈ m.held ∧ Obeys (flowopRule L) post { m with held := m.held.erase e } (k ()) := by
  constructor
  · intro h
    exact ⟨h.1, h.2 () _ ⟨rfl, rfl⟩⟩
  · rintro ⟨he, h⟩
    refine ⟨he, ?_⟩
    rintro r m' ⟨-, rfl⟩
    exact h

theorem obeys_pick {args : PickArgs} {k : Option Entry → Flow α} :
    Obeys (flowopRule L) post m (filesetPickReq args >>= k) ↔
      Obeys (flowopRule L) post m (k none) ∧
        ∀ e ∈ L args.flags.type,
          Obeys (flowopRule L) post { m with held := e :: m.held } (k (some e)) := by
  constructor
  · intro h
    exact ⟨h.2 none m ⟨rfl, rfl⟩, fun e he => h.2 (some e) _ ⟨⟨he, rfl⟩, rfl⟩⟩
  · rintro ⟨hnone, hsome⟩
    refine ⟨trivial, ?_⟩
    rintro (_ | e) m' ⟨hnext, rfl⟩
    · exact hnone
    · exact hsome e hnext.1

end rule

/-! ## The flowops -/

section flowops

variable {L : FseType → List Entry} {m : Memo}

theorem Clean.append {log : List (SysCall × ℤ)} (h : Clean log) {c : SysCall} {r : ℤ}
    (hc : ¬ Leaks c r) : Clean (log ++ [(c, r)]) := by
  intro call hcall
  rcases List.mem_append.mp hcall with hcall | hcall
  · exact h call hcall
  · obtain rfl := List.mem_singleton.mp hcall
    exact hc

theorem Clean.tidy {log : List (SysCall × ℤ)} (h : Clean log) : Tidy ⟨[], log⟩ :=
  iff_of_true rfl h

/-- A failure with an entry in hand. -/
theorem tidy_leak (e : Entry) (log : List (SysCall × ℤ)) {c : SysCall} {r : ℤ} (hc : Leaks c r) :
    Tidy ⟨[e], log ++ [(c, r)]⟩ := by
  refine iff_of_false (List.cons_ne_nil e []) fun h => ?_
  exact h (c, r) (List.mem_append_right _ (List.mem_singleton_self _)) hc

/-- The release of the one entry in hand. -/
theorem obeys_release {e : Entry} {log : List (SysCall × ℤ)} {newExist : Option Bool} {n : ℤ}
    {ret : FlowopRet} (h : Clean log) :
    ObeysTidy L ⟨[e], log⟩ (filesetUnbusyReq e newExist n >>= fun _ => return ret) := by
  refine obeys_unbusy.mpr ⟨List.mem_singleton_self e, ?_⟩
  rw [List.erase_cons_head]
  exact h.tidy

/-- What a pick leaves: nothing new, or an entry in hand. -/
def Memo.PickedFrom (m : Memo) (l : List Entry) (m' : Memo) : Except FlowopRet Entry → Prop
  | .error _ => m' = m
  | .ok e => e ∈ l ∧ m' = { m with held := e :: m.held }

theorem obeys_flowoplibPick (flowop : Flowop) (type : FseType) (noexist : Bool) (tid : ℕ) :
    Obeys (flowopRule L) (m.PickedFrom (L type)) m (flowoplibPick flowop type noexist tid) := by
  unfold flowoplibPick
  split_ifs
  · exact rfl
  · exact obeys_pick.mpr ⟨rfl, fun e he => ⟨he, rfl⟩⟩

/-- After an attempt to make the parent directories, the entry is in hand. -/
def Attempted (e : Entry) (m : Memo) (mkdir : ℤ) : Prop :=
  m.held = [e] ∧ if mkdir < 0 then Tidy m else Clean m.log

/-- The attempt to make the parent directories of a file that is created. -/
theorem obeys_mkdir (e : Entry) (creat : Bool) {log : List (SysCall × ℤ)} (hlog : Clean log) :
    Obeys (flowopRule L) (Attempted e) ⟨[e], log⟩ (do
      if creat then
        let r ← sysCall .stat64
        if r ≠ 0 then sysCall .filesetMkdir else return 0
      else return 0) := by
  have hnone : ∀ {log}, Clean log → Attempted e ⟨[e], log⟩ 0 := fun h => ⟨rfl, h⟩
  cases creat with
  | false => exact hnone hlog
  | true =>
    refine obeys_call.mpr fun r => ?_
    by_cases hr : r = 0
    · subst hr
      exact hnone (hlog.append id)
    · rw [if_pos hr]
      refine (obeys_call (k := pure)).mpr fun mkdir => ⟨rfl, ?_⟩
      split_ifs with hmkdir
      · exact tidy_leak e _ hmkdir
      · exact (hlog.append id).append hmkdir

theorem obeys_filesetOpenfile (fd : ℕ) (e : Entry) (creat : Bool) {log : List (SysCall × ℤ)}
    (hlog : Clean log) : ObeysTidy L ⟨[e], log⟩ (filesetOpenfile fd e creat) := by
  refine (obeys_mkdir e creat hlog).bind ?_
  rintro ⟨held, log⟩ mkdir ⟨rfl, hm⟩
  by_cases hmkdir : mkdir < 0
  · rw [if_pos hmkdir] at hm ⊢
    exact hm
  · rw [if_neg hmkdir] at hm ⊢
    refine obeys_call.mpr fun r => obeys_get.mpr fun tf htf => obeys_set.mpr ⟨htf, ?_⟩
    by_cases hr : r < 0
    · rw [if_pos hr]
      exact obeys_release (hm.append id)
    · rw [if_neg hr]
      exact obeys_release (hm.append id)

theorem obeys_openPicked (fd : ℕ) (creat : Bool) {res : Except FlowopRet Entry} {m m' : Memo}
    (hm : m.held = [] ∧ Clean m.log)
    (hres : m.PickedFrom (L .file) m' res) :
    ObeysTidy L m' (openPicked fd creat res) := by
  obtain ⟨held, log⟩ := m
  obtain ⟨rfl, hlog⟩ := hm
  cases res with
  | error err =>
    obtain rfl : _ = _ := hres
    exact hlog.tidy
  | ok e =>
    obtain ⟨he, rfl⟩ := hres
    refine obeys_get.mpr fun tf htf => obeys_set.mpr ⟨?_, obeys_filesetOpenfile fd e creat hlog⟩
    intro fd' e' hfse
    dsimp only at hfse
    rw [Function.update_apply] at hfse
    split_ifs at hfse
    · exact Option.some.inj hfse ▸ he
    · exact htf fd' e' hfse

theorem flowoplibFdnum_tfFse (flowop : Flowop) (tf : Threadflow) :
    (flowoplibFdnum flowop tf).2.tfFse = tf.tfFse := by
  unfold flowoplibFdnum
  split_ifs <;> rfl

theorem clean_nil : Clean [] := by
  rintro _ ⟨⟩

theorem obeys_flowoplibOpenfile (flowop : Flowop) :
    ObeysTidy L ⟨[], []⟩ (flowoplibOpenfile flowop) := by
  unfold flowoplibOpenfile
  refine obeys_get.mpr fun tf htf => ?_
  rcases hfd : flowoplibFdnum flowop tf with ⟨_ | fd, tf'⟩
  · exact clean_nil.tidy
  · have hfse : tf'.tfFse = tf.tfFse := by
      rw [← flowoplibFdnum_tfFse flowop tf, hfd]
    refine obeys_set.mpr ⟨hfse ▸ htf, ?_⟩
    unfold flowoplibOpenfileCommon
    by_cases hset : (!flowop.foFileset || !flowop.fsName) = true
    · rw [if_pos hset]
      exact clean_nil.tidy
    · rw [if_neg hset]
      refine obeys_get.mpr fun tf htf => ?_
      by_cases hopen : tf.tfFd fd ≠ 0
      · rw [if_pos hopen]
        exact clean_nil.tidy
      · rw [if_neg hopen]
        exact (obeys_flowoplibPick flowop .file false _).bind
          fun m' res hres => obeys_openPicked fd false ⟨rfl, clean_nil⟩ hres

theorem obeys_flowoplibCreatefile (flowop : Flowop) :
    ObeysTidy L ⟨[], []⟩ (flowoplibCreatefile flowop) := by
  unfold flowoplibCreatefile
  refine obeys_get.mpr fun tf htf => ?_
  split_ifs
  · exact clean_nil.tidy
  · exact clean_nil.tidy
  · exact clean_nil.tidy
  · exact (obeys_flowoplibPick flowop .file true 0).bind
      fun m' res hres => obeys_openPicked _ true ⟨rfl, clean_nil⟩ hres

theorem obeys_deletePicked (fd : ℕ) {res : Except FlowopRet Entry} {m' : Memo}
    (hres : Memo.PickedFrom ⟨[], []⟩ (L .file) m' res) :
    ObeysTidy L m' (deletePicked fd res) := by
  cases res with
  | error err =>
    subst hres
    exact clean_nil.tidy
  | ok e =>
    obtain ⟨-, rfl⟩ := hres
    refine obeys_get.mpr fun tf htf => obeys_openCnt.mpr fun cnt => ?_
    split_ifs
    · exact obeys_release clean_nil
    · exact obeys_call.mpr fun r => obeys_openCnt.mpr fun cnt => obeys_release (clean_nil.append id)
    · exact obeys_release clean_nil
    · exact obeys_call.mpr fun r => obeys_openCnt.mpr fun cnt => obeys_release (clean_nil.append id)

theorem obeys_flowoplibDeletefile (flowop : Flowop) :
    ObeysTidy L ⟨[], []⟩ (flowoplibDeletefile flowop) := by
  unfold flowoplibDeletefile
  refine obeys_get.mpr fun tf htf => ?_
  cases hfile : (if 0 < flowop.foFdnumber then tf.tfFse flowop.foFdnumber else none) with
  | none =>
    exact (obeys_flowoplibPick flowop .file false 0).bind
      fun m' res hres => obeys_deletePicked _ hres
  | some file =>
    have hmem : file ∈ L .file := by
      split_ifs at hfile
      exact htf _ _ hfile
    refine obeys_set.mpr ⟨fun fd' e' hfse => ?_, obeys_grab.mpr ⟨hmem, ?_⟩⟩
    · dsimp only at hfse
      rw [Function.update_apply] at hfse
      split_ifs at hfse
      exact htf fd' e' hfse
    · exact obeys_deletePicked _ (show Memo.PickedFrom _ _ _ (.ok file) from ⟨hmem, rfl⟩)

theorem obeys_flowoplibClosefile (flowop : Flowop) :
    ObeysTidy L ⟨[], []⟩ (flowoplibClosefile flowop) := by
  unfold flowoplibClosefile
  refine obeys_get.mpr fun tf htf => ?_
  split_ifs
  · exact clean_nil.tidy
  · cases hfile : tf.tfFse flowop.foFdnumber with
    | none => exact ⟨trivial, nofun⟩
    | some file =>
      refine obeys_grab.mpr ⟨htf _ _ hfile, obeys_call.mpr fun r => obeys_unbusy.mpr ⟨?_, ?_⟩⟩
      · exact List.mem_singleton_self file
      · rw [List.erase_cons_head]
        exact obeys_get.mpr fun tf htf => obeys_set.mpr ⟨htf, (clean_nil.append id).tidy⟩

theorem obeys_leafdirFlowop (flowop : Flowop) {call : Entry → SysCall} (exists_ : Bool)
    (hcall : ∀ e r, ¬ Leaks (call e) r) :
    ObeysTidy L ⟨[], []⟩ (leafdirFlowop flowop call exists_) := by
  refine (obeys_flowoplibPick flowop .leafdir exists_ 0).bind ?_
  rintro m' (err | dir) hres
  · subst hres
    exact clean_nil.tidy
  · obtain ⟨-, rfl⟩ := hres
    refine obeys_call.mpr fun r => ?_
    by_cases hr : r ≠ 0
    · rw [if_pos hr]
      exact tidy_leak dir [] hr
    · rw [if_neg hr]
      have hlog : Clean [(.getdirpath, r)] := clean_nil.append (r := r) hr
      exact obeys_call.mpr fun r' => obeys_release (hlog.append (hcall dir r'))

theorem obeys_flowoplibListdir (flowop : Flowop) :
    ObeysTidy L ⟨[], []⟩ (flowoplibListdir flowop) := by
  unfold flowoplibListdir
  split_ifs
  · exact clean_nil.tidy
  · refine obeys_pick.mpr ⟨clean_nil.tidy, fun dir _ => obeys_call.mpr fun r => ?_⟩
    by_cases hr : r ≠ 0
    · rw [if_pos hr]
      exact tidy_leak dir [] hr
    · rw [if_neg hr]
      have hlog : Clean [(.getdirpath, r)] := clean_nil.append (r := r) hr
      refine obeys_call.mpr fun handle => ?_
      by_cases hhandle : handle = 0
      · rw [if_pos hhandle]
        exact tidy_leak dir _ hhandle
      · rw [if_neg hhandle]
        exact obeys_call.mpr fun r' =>
          obeys_release ((hlog.append (c := .fbOpendir) hhandle).append id)

theorem obeys_flowoplibStatfile (flowop : Flowop) :
    ObeysTidy L ⟨[], []⟩ (flowoplibStatfile flowop) := by
  unfold flowoplibStatfile
  refine obeys_get.mpr fun tf htf => ?_
  split_ifs
  · exact clean_nil.tidy
  · exact obeys_call.mpr fun r => (clean_nil.append id).tidy
  · refine (obeys_flowoplibPick flowop .file false 0).bind ?_
    rintro m' (err | file) hres
    · subst hres
      exact clean_nil.tidy
    · obtain ⟨-, rfl⟩ := hres
      exact obeys_call.mpr fun r => obeys_release (clean_nil.append id)

theorem obeys_run (func : FlowopFunc) (flowop : Flowop) :
    ObeysTidy L ⟨[], []⟩ (func.run flowop) := by
  cases func with
  | openfile => exact obeys_flowoplibOpenfile flowop
  | createfile => exact obeys_flowoplibCreatefile flowop
  | deletefile => exact obeys_flowoplibDeletefile flowop
  | closefile => exact obeys_flowoplibClosefile flowop
  | makedir => exact obeys_leafdirFlowop flowop true fun _ _ => id
  | removedir => exact obeys_leafdirFlowop flowop false fun _ _ => id
  | listdir => exact obeys_flowoplibListdir flowop
  | statfile => exact obeys_flowoplibStatfile flowop

/-- The flowops are disciplined programs. -/
theorem flowop_disciplined (func : FlowopFunc) (flowop : Flowop) :
    Disciplined L [] (func.run flowop) := by
  have hsim := (obeys_run (L := L) func flowop).simulate (Q := discipline L)
    (R := fun m held => m.held = held) (u := []) ?_ ?_ rfl
  · exact hsim.mono fun _ _ _ => trivial
  · rintro m _ o rfl h
    exact h
  · rintro m _ o r held' rfl h
    have hheld : (m.after o r).held = held' := discipline_next h
    exact ⟨m.after o r, ⟨hheld ▸ h, rfl⟩, hheld⟩

end flowops

/-! ## Runs -/

/-- The rest of the program of a thread leaves nothing behind unless a call fails badly. -/
def ThreadTidy (L : FseType → List Entry) (th : Thread) : Prop :=
  ObeysTidy L th.memo th.prog

/-- A step of another thread can wake a thread up and make its descriptors dangle. -/
theorem SysStep.thread_of_ne {ι : Type} {code : ι → Flow FlowopRet} {s s' : Sys} {t t' : ℕ}
    {l : Label ι} (h : SysStep code s t l s') (ht : t' ≠ t) :
    ∃ w f, s'.thread t' = { s.thread t' with wait := w, openFd := f } := by
  cases h with
  | unbusy e newExist n k fs' sig thread' hp hret hsig =>
    obtain ⟨w, hw⟩ := hsig.same t'
    rw [Function.update_of_ne ht] at hw
    exact ⟨w, _, hw⟩
  | call c r k hp =>
    obtain ⟨f, hf⟩ := unlinked_same c r s.thread t'
    exact ⟨_, f, (Function.update_of_ne ht _ _).trans hf⟩
  | _ => exact ⟨_, _, Function.update_of_ne ht _ _⟩

/-- What a step does to the program and the memory of its own thread. -/
inductive OwnStep {ι : Type} (L : FseType → List Entry) (code : ι → Flow FlowopRet)
    (th th' : Thread) : Prop where
  | started (i : ι) (hprog : th'.prog = code i) (hmemo : th'.memo = ⟨[], []⟩)
  | waits (hprog : th'.prog = th.prog) (hmemo : th'.memo = th.memo)
  | answered (o : Request) (k : Reply o → Flow FlowopRet) (r : Reply o)
      (hp : th.prog = .request o k) (hnext : (discipline L).next th.held o r th'.held)
      (hprog : th'.prog = k r) (hmemo : th'.memo = th.memo.after o r)

theorem SysStep.ownStep {ι : Type} {code : ι → Flow FlowopRet} {fs₀ : Fileset} {s s' : Sys} {t : ℕ}
    {l : Label ι} (hI : Owned fs₀ s) (h : SysStep code s t l s') :
    OwnStep fs₀.fsList code (s.thread t) (s'.thread t) := by
  cases h with
  | start i r hp =>
    dsimp only
    rw [Function.update_self]
    exact .started i rfl rfl
  | pick args k random res fs' hp hw hret hres =>
    dsimp only
    rw [Function.update_self]
    cases res with
    | wait => exact absurd rfl hres
    | null => exact .answered (.pick args) k none hp rfl rfl rfl
    | nullLocked => exact .answered (.pick args) k none hp rfl rfl rfl
    | entry e =>
      have he := (filesetPick_effect hI.inv hret).mem_list hI.inv
      rw [hI.same.list] at he
      exact .answered (.pick args) k (some e) hp ⟨he, rfl⟩ rfl rfl
  | pickWait args k random fs' hp hw hret =>
    dsimp only
    rw [Function.update_self]
    exact .waits rfl rfl
  | grab kind e k hp hw hb =>
    dsimp only
    rw [Function.update_self]
    exact .answered (.grab kind e) k () hp rfl rfl rfl
  | grabWait kind e k hp hw hb =>
    dsimp only
    rw [Function.update_self]
    exact .waits rfl rfl
  | unbusy e newExist n k fs' sig thread' hp hret hsig =>
    obtain ⟨w, hw⟩ := hsig.same t
    rw [Function.update_self] at hw
    dsimp only
    rw [hw]
    exact .answered (.unbusy e newExist n) k () hp rfl rfl rfl
  | openCnt e k hp =>
    dsimp only
    rw [Function.update_self]
    exact .answered (.openCnt e) k _ hp rfl rfl rfl
  | call c r k hp =>
    obtain ⟨f, hf⟩ := unlinked_same c r s.thread t
    dsimp only
    rw [Function.update_self, hf]
    exact .answered (.call c) k r hp rfl rfl rfl
  | get k hp =>
    dsimp only
    rw [Function.update_self]
    exact .answered Request.get k _ hp ⟨(hI.thread t).tables, rfl⟩ rfl rfl
  | set tf k hp =>
    dsimp only
    rw [Function.update_self]
    exact .answered (.set tf) k () hp rfl rfl rfl

theorem ThreadTidy.step {ι : Type} {code : ι → Flow FlowopRet} {fs₀ : Fileset} {s s' : Sys} {t : ℕ}
    {l : Label ι} (hcode : ∀ i, ObeysTidy fs₀.fsList ⟨[], []⟩ (code i)) (hI : Owned fs₀ s)
    (hT : ∀ t, ThreadTidy fs₀.fsList (s.thread t)) (h : SysStep code s t l s') (t' : ℕ) :
    ThreadTidy fs₀.fsList (s'.thread t') := by
  by_cases ht : t' = t
  · subst ht
    have hob := hT t'
    unfold ThreadTidy at hob ⊢
    cases h.ownStep hI with
    | started i hprog hmemo =>
      rw [hprog, hmemo]
      exact hcode i
    | waits hprog hmemo =>
      rw [hprog, hmemo]
      exact hob
    | answered o k r hp hnext hprog hmemo =>
      rw [hp] at hob
      have hheld := congrArg Memo.held hmemo
      rw [hprog, hmemo]
      exact hob.2 r _ ⟨hheld ▸ hnext, rfl⟩
  · obtain ⟨w, f, hthread⟩ := h.thread_of_ne ht
    rw [hthread]
    exact hT t'

theorem flowopCode_disciplined (L : FseType → List Entry) (p : FlowopFunc × Flowop) :
    Disciplined L [] (flowopCode p) := flowop_disciplined p.1 p.2

theorem flowopCode_tidy (L : FseType → List Entry) (p : FlowopFunc × Flowop) :
    ObeysTidy L ⟨[], []⟩ (flowopCode p) := obeys_run p.1 p.2

theorem flowopRun_tidy {s₀ s : Sys} (h₀ : Initial s₀)
    (hrun : SysRun flowopCode (fun _ _ _ => True) s₀ s) (t : ℕ) :
    ThreadTidy s₀.fs.fsList (s.thread t) := by
  induction hrun generalizing t with
  | refl =>
    rw [h₀.threads]
    exact clean_nil.tidy
  | tail hrun hstep ih =>
    obtain ⟨t', l, -, hstep⟩ := hstep
    have hI := h₀.owned.run (flowopCode_disciplined _) hrun
    exact ThreadTidy.step (flowopCode_tidy _) hI ih hstep t

/-- A thread that lists a directory which it cannot open. -/
theorem exists_listdir : ∃ s₀ s : Sys, Initial s₀ ∧ SysRun flowopCode (fun _ _ _ => True) s₀ s ∧
    (s.thread 0).prog = .pure .error ∧ (s.thread 0).log = [(.getdirpath, 0), (.fbOpendir, 0)] ∧
    ∃ e ∈ (s.thread 0).held, (s.fs.flags e).busy = true := by
  obtain ⟨s₀, n, h₀, hP⟩ := exists_initial 1 0
  have hI := h₀.created.inv
  obtain ⟨smp, fuel, m, E, L, s, hpop, hrun⟩ := h₀.created.run
  obtain ⟨root, hroot, -⟩ := filesetPopulate_root hpop hrun
  have hidle : HasIdle s₀.fs ⟨.dir, false, false, false⟩ := by
    refine ⟨root, Fileset.mem_entries.mpr ⟨_, hroot⟩, ?_, ?_⟩
    · rw [hP.inv.flags _ root hroot]
      rfl
    · rw [hP.inv.flags _ root hroot]
      rfl
  have hcount : s₀.fs.fsIdle .dir ≠ 0 := by
    have hpos := List.length_pos_of_mem hroot
    rw [hP.inv.idle]
    exact_mod_cast hpos.ne'
  obtain ⟨r, e, he, -, hret⟩ := filesetPick_entry hI 0 0 hcount hidle
    (List.ne_nil_of_mem hroot) one_ne_zero
  have hpure : (s₀.thread 0).prog = .pure .ok := by
    rw [h₀.threads]
    rfl
  have hbusy : ((((s₀.fs.withRotors r).addIdle .dir (-1)).setFlags e
      fun f => { f with busy := true }).flags e).busy = true := by
    rw [setFlags_flags_self]
  have hstart : FreeRun flowopCode s₀ (solo s₀.fs s₀.thread 0 (s₀.thread 0)) := by
    rw [solo_self]
    exact .refl
  have h₁ := hstart.next (solo_start (.listdir, ⟨0, false, true, none, true, false, 1⟩) hpure) trivial
  have h₂ := h₁.next (solo_pick rfl Wait.noConfusion hret) trivial
  have h₃ := h₂.next (solo_call (by simp) 0 rfl) trivial
  have h₄ := h₃.next (solo_call (by simp) 0 rfl) trivial
  refine ⟨s₀, _, h₀, h₄, ?_, ?_, e, ?_, ?_⟩
  · rw [solo_thread]
    rfl
  · rw [solo_thread]
    rfl
  · rw [solo_thread]
    exact List.mem_singleton_self e
  · exact hbusy

/-- When a flowop has returned, none of the entries that it marked busy is still busy exactly if
none of its calls failed on a path that leaves without a release. -/
theorem sysRun_released {s₀ s : Sys} (h₀ : Initial s₀)
    (hrun : SysRun flowopCode (fun _ _ _ => True) s₀ s) {t : ℕ} {r : FlowopRet}
    (hret : (s.thread t).prog = .pure r) :
    (∀ e ∈ (s.thread t).held, (s.fs.flags e).busy = false) ↔
      ∀ call ∈ (s.thread t).log, ¬ Leaks call.1 call.2 := by
  have hI := h₀.owned.run (flowopCode_disciplined _) hrun
  have htidy := flowopRun_tidy h₀ hrun t
  unfold ThreadTidy at htidy
  rw [hret] at htidy
  refine Iff.trans ?_ htidy
  constructor
  · intro hfree
    refine List.eq_nil_iff_forall_not_mem.mpr fun e he => ?_
    have hbusy := ((hI.owners.flag_iff e).mpr ⟨t, List.mem_append_left _ he⟩).2
    rw [hfree e he] at hbusy
    cases hbusy
  · intro hnil e he
    change (s.thread t).held = [] at hnil
    rw [hnil] at he
    cases he

theorem sysRun_released_listdir : ∃ s₀ s : Sys, Initial s₀ ∧ (s.thread 0).prog = .pure .error ∧
    ((∀ e ∈ (s.thread 0).held, (s.fs.flags e).busy = false) ↔
      ∀ call ∈ (s.thread 0).log, ¬ Leaks call.1 call.2) := by
  obtain ⟨s₀, s, h₀, hrun, hret, -⟩ := exists_listdir
  exact ⟨s₀, s, h₀, hret, sysRun_released h₀ hrun hret⟩

/-- A failing `opendir` leaves the directory busy. -/
theorem sysRun_listdir_leak : ¬ ∀ s₀ s : Sys, Initial s₀ →
    SysRun flowopCode (fun _ _ _ => True) s₀ s → ∀ t r, (s.thread t).prog = .pure r →
      ∀ e ∈ (s.thread t).held, (s.fs.flags e).busy = false := by
  intro hclaim
  obtain ⟨s₀, s, h₀, hrun, hret, -, e, he, hbusy⟩ := exists_listdir
  have hfree := hclaim s₀ s h₀ hrun 0 _ hret e he
  rw [hbusy] at hfree
  cases hfree

end Filebench

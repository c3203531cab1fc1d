import Filebench.Flowop.Busy

/-! # Wakeups on the idle counts

A release signals one waiter when the count becomes one. No wakeup is lost as long as a
signalled waiter finds the count used up, or leaves nobody behind. -/
namespace Filebench

open Avl Fuel Prog Lock

/-- No thread is blocked on the idle count of `ty` while entries are idle and nobody was
signalled. -/
def NoLostWakeup (ty : FseType) (s : Sys) : Prop :=
  0 < s.fs.fsIdle ty → (∃ t, (s.thread t).IdleWaiter ty .blocked) →
    ∃ t, (s.thread t).IdleWaiter ty .signalled

/-- The tree that a pick selects from has an entry that is not busy. -/
def HasIdle (fs : Fileset) (flags : PickFlags) : Prop :=
  ∃ e ∈ fs.entries, homeTree (fs.flags e) = pickTree flags ∧ (fs.flags e).busy = false

/-- A signalled waiter that resumes finds no idle entry, or leaves another signalled waiter or
no blocked one, or takes the only idle entry. -/
def ResumesWell {ι : Type} (s : Sys) (t : ℕ) (_ : Label ι) : Prop :=
  ∀ args k, (s.thread t).prog = .request (.pick args) k → (s.thread t).wait = .signalled →
    s.fs.fsIdle args.flags.type ≤ 0 ∨
    (∃ t', t' ≠ t ∧ (s.thread t').IdleWaiter args.flags.type .signalled) ∨
    (∀ t', ¬ (s.thread t').IdleWaiter args.flags.type .blocked) ∨
    (s.fs.fsIdle args.flags.type = 1 ∧ HasIdle s.fs args.flags)

/-! ## Waiters -/

theorem idleWaiter_broadcast (thread : ℕ → Thread) (t : ℕ) (ty : FseType) (w : Wait) :
    (broadcast thread t).IdleWaiter ty w ↔ (thread t).IdleWaiter ty w := by
  unfold broadcast
  split
  · next kind e k hp hw =>
    simp only [Thread.IdleWaiter, hp]
    constructor <;> rintro ⟨-, args, k', hk, -⟩ <;> cases hk
  · rfl

theorem idleWaiter_update {thread : ℕ → Thread} {t : ℕ} {th : Thread} {ty : FseType} {w : Wait}
    (hth : ¬ th.IdleWaiter ty w) (t' : ℕ) :
    (Function.update thread t th t').IdleWaiter ty w ↔ t' ≠ t ∧ (thread t').IdleWaiter ty w := by
  by_cases ht : t' = t
  · subst ht
    simp [hth]
  · simp [ht]

theorem not_idleWaiter_of_ready {th : Thread} (h : th.wait = .ready) (ty : FseType) {w : Wait}
    (hw : w ≠ .ready) : ¬ th.IdleWaiter ty w := by
  rintro ⟨hth, -⟩
  exact hw (hth.symm.trans h)

/-- A thread that is not at a pick of the type does not wait for it. -/
theorem not_idleWaiter_of_prog {th : Thread} {ty : FseType} {w : Wait}
    (h : ∀ args k, th.prog = .request (.pick args) k → args.flags.type ≠ ty) :
    ¬ th.IdleWaiter ty w := by
  rintro ⟨-, args, k, hp, hty⟩
  exact h args k hp hty

/-! ## One step -/

section step

variable {ty : FseType} {s : Sys} {t : ℕ}

/-- The thread `t`, which neither waits nor will wait for the type, takes a step that does not
raise the count. -/
theorem NoLostWakeup.keep (hN : NoLostWakeup ty s) {fs' : Fileset} {th : Thread}
    (hidle : fs'.fsIdle ty ≤ s.fs.fsIdle ty) (hnot : ¬ (s.thread t).IdleWaiter ty .signalled)
    (hth : ∀ w, w ≠ .ready → ¬ th.IdleWaiter ty w) :
    NoLostWakeup ty ⟨fs', Function.update s.thread t th⟩ := by
  rintro hpos ⟨t₁, h₁⟩
  have h₁' := (idleWaiter_update (hth _ (by decide)) t₁).mp h₁
  obtain ⟨t₂, h₂⟩ := hN (lt_of_lt_of_le hpos hidle) ⟨t₁, h₁'.2⟩
  refine ⟨t₂, (idleWaiter_update (hth _ (by decide)) t₂).mpr ⟨?_, h₂⟩⟩
  rintro rfl
  exact hnot h₂

theorem NoLostWakeup.congr (hN : NoLostWakeup ty s) {s' : Sys}
    (hidle : s'.fs.fsIdle ty = s.fs.fsIdle ty)
    (hw : ∀ t w, (s'.thread t).IdleWaiter ty w ↔ (s.thread t).IdleWaiter ty w) :
    NoLostWakeup ty s' := by
  rintro hpos ⟨t₁, h₁⟩
  rw [hidle] at hpos
  obtain ⟨t₂, h₂⟩ := hN hpos ⟨t₁, (hw _ _).mp h₁⟩
  exact ⟨t₂, (hw _ _).mpr h₂⟩

/-- A signal for another type. -/
theorem Signalled.idleWaiter_of_ne {sig : Signals} {thread thread' : ℕ → Thread}
    (h : Signalled sig thread thread') (hty : sig.idleCv ≠ some ty) (t : ℕ) (w : Wait) :
    (thread' t).IdleWaiter ty w ↔ (thread t).IdleWaiter ty w := by
  have hfirst : ((if sig.thrdWaitCv then broadcast thread else thread) t).IdleWaiter ty w ↔
      (thread t).IdleWaiter ty w := by
    split_ifs
    · exact idleWaiter_broadcast thread t ty w
    · rfl
  unfold Signalled at h
  dsimp only at h
  split at h
  · rw [h, hfirst]
  · next ty' hsig =>
    cases h with
    | nobody => exact hfirst
    | wake t' ht' =>
      rw [← hfirst]
      by_cases htt : t = t'
      · subst htt
        obtain ⟨-, args, k, hp, htype⟩ := ht'
        have hne : ty' ≠ ty := fun he => hty (by rw [hsig, he])
        have hnot : ∀ th : Thread, th.prog = .request (.pick args) k → ∀ w,
            ¬ th.IdleWaiter ty w := by
          rintro th hth w ⟨-, args', k', hp', htype'⟩
          rw [hth] at hp'
          cases hp'
          exact hne (htype.symm.trans htype')
        rw [Function.update_self]
        refine iff_of_false (hnot _ ?_ w) (hnot _ hp w)
        exact hp
      · rw [Function.update_of_ne htt]

/-- A signal for the type leaves a signalled waiter when there is a blocked one. -/
theorem Signalled.wakes {sig : Signals} {thread thread' : ℕ → Thread}
    (h : Signalled sig thread thread') (hty : sig.idleCv = some ty)
    (hb : ∃ t, (thread' t).IdleWaiter ty .blocked) :
    ∃ t, (thread' t).IdleWaiter ty .signalled := by
  unfold Signalled at h
  simp only [hty] at h
  cases h with
  | nobody h =>
    obtain ⟨t, ht⟩ := hb
    exact absurd ht (h t)
  | wake t ht => exact ⟨t, by simpa [Thread.IdleWaiter] using ht.2⟩

/-- A release never loses a wakeup. -/
theorem NoLostWakeup.unbusy (hN : NoLostWakeup ty s) {e : Entry}
    (hb : (s.fs.flags e).busy = true) {newExist : Option Bool} {n : ℤ} {fs' : Fileset} {th : Thread}
    {thread' : ℕ → Thread} (hidle : fs'.fsIdle = (unbusyView s.fs e newExist n).1.fsIdle)
    (hnot : ∀ w, ¬ (s.thread t).IdleWaiter ty w) (hth : ∀ w, w ≠ .ready → ¬ th.IdleWaiter ty w)
    (hsig : Signalled (unbusyView s.fs e newExist n).2 (Function.update s.thread t th) thread') :
    NoLostWakeup ty ⟨fs', thread'⟩ := by
  obtain ⟨hcount, hcv⟩ := unbusyView_idle hb newExist n
  rw [hcount] at hidle
  have hsame : ∀ (hcv' : (unbusyView s.fs e newExist n).2.idleCv ≠ some ty) t' w, w ≠ .ready →
      ((thread' t').IdleWaiter ty w ↔ (s.thread t').IdleWaiter ty w) := by
    intro hcv' t' w hw
    rw [hsig.idleWaiter_of_ne hcv', idleWaiter_update (hth w hw)]
    refine and_iff_right_of_imp fun h => ?_
    rintro rfl
    exact hnot w h
  by_cases hsignal : (unbusyView s.fs e newExist n).2.idleCv = some ty
  · exact fun _ hblocked => hsig.wakes hsignal hblocked
  · rintro hpos ⟨t₁, h₁⟩
    have hold : 0 < s.fs.fsIdle ty := by
      rw [hidle, Function.update_apply] at hpos
      rw [hcv] at hsignal
      split_ifs at hpos hsignal with hty hone
      · exact absurd (congrArg some hty.symm) hsignal
      · subst hty
        omega
      · exact hpos
      · exact hpos
    obtain ⟨t₂, h₂⟩ := hN hold ⟨t₁, (hsame hsignal t₁ _ (by decide)).mp h₁⟩
    exact ⟨t₂, (hsame hsignal t₂ _ (by decide)).mpr h₂⟩

/-- A fileset with entries of a type was asked for some. -/
theorem Created.maxEntries_ne_zero {fs : Fileset} (h : Created fs) {ty : FseType}
    (hlist : fs.fsList ty ≠ []) : maxEntries fs ty ≠ 0 := by
  obtain ⟨smp, fuel, n, E, L, s, hpop, hrun⟩ := h.run
  have hP := filesetPopulate_populated hpop
  have hsame := (hrun.inv hP.inv.fsInv).2
  rw [hsame.list, ← List.length_pos_iff] at hlist
  rw [hsame.maxEntries]
  cases ty with
  | file => exact (hlist.trans_eq (hP.files.trans hP.constentries.symm)).ne'
  | dir => exact one_ne_zero
  | leafdir => exact (hlist.trans_eq (hP.leafdirs.trans hP.constleafdirs.symm)).ne'

theorem PickEffect.idle {fs fs' : Fileset} {flags : PickFlags} {res : PickResult}
    (h : PickEffect fs flags res fs') : fs'.fsIdle = Function.update fs.fsIdle flags.type
      (fs.fsIdle flags.type - if res.entry?.isSome then 1 else 0) := by
  cases h with
  | entry r e => exact congrArg (Function.update fs.fsIdle flags.type) (sub_eq_add_neg _ _).symm
  | _ =>
    change fs.fsIdle = _
    simp [PickResult.entry?]

/-- A pick that does not wait returns an entry when the tree has an idle one. -/
theorem PickEffect.entry_of_hasIdle {fs fs' : Fileset} {flags : PickFlags} {res : PickResult}
    (h : PickEffect fs flags res fs') (hres : res ≠ .wait) (hidle : HasIdle fs flags)
    (hlist : fs.fsList flags.type ≠ []) (hmax : maxEntries fs flags.type ≠ 0) :
    res.entry?.isSome := by
  obtain ⟨e, he, hhome, hfree⟩ := hidle
  cases h with
  | wait => exact absurd rfl hres
  | null r hnull =>
    rcases hnull with hnull | ⟨-, hbusy⟩
    · exact absurd hnull hlist
    · rw [hbusy e he hhome] at hfree
      cases hfree
  | nullLocked h₁ h₂ h₃ => exact absurd h₃ hmax
  | entry => rfl

/-- A pick that does not wait again. -/
theorem NoLostWakeup.pick {ι : Type} {fs₀ : Fileset} {l : Label ι} (hN : NoLostWakeup ty s)
    (hI : Owned fs₀ s) (hfs₀ : Created fs₀) (hok : ResumesWell s t l) {args : PickArgs}
    {k : Option Entry → Flow FlowopRet} (hp : (s.thread t).prog = .request (.pick args) k)
    {res : PickResult} {fs' : Fileset} (heffect : PickEffect s.fs args.flags res fs')
    (hres : res ≠ .wait) {th : Thread} (hth : th.wait = .ready) :
    NoLostWakeup ty ⟨fs', Function.update s.thread t th⟩ := by
  have hnew : ∀ w, w ≠ .ready → ¬ th.IdleWaiter ty w := fun _ => not_idleWaiter_of_ready hth ty
  have hle : fs'.fsIdle ty ≤ s.fs.fsIdle ty := by
    rw [heffect.idle, Function.update_apply]
    split_ifs with hty
    · rw [hty]
      omega
    · rw [hty]
      omega
    · exact le_rfl
  by_cases hsig : (s.thread t).IdleWaiter ty .signalled
  · obtain ⟨hwait, args', k', hp', hty⟩ := hsig
    rw [hp] at hp'
    cases hp'
    rcases hok args k hp hwait with hzero | ⟨t', ht', hother⟩ | hnone | ⟨hone, hidle⟩
    · intro hpos
      rw [hty] at hzero
      exact absurd (lt_of_lt_of_le hpos (hle.trans hzero)) (lt_irrefl _)
    · rw [hty] at hother
      exact fun _ _ => ⟨t', (idleWaiter_update (hnew _ (by decide)) t').mpr ⟨ht', hother⟩⟩
    · rintro - ⟨t₁, h₁⟩
      rw [hty] at hnone
      exact absurd ((idleWaiter_update (hnew _ (by decide)) t₁).mp h₁).2 (hnone t₁)
    · have hlist : s.fs.fsList args.flags.type ≠ [] := by
        obtain ⟨e, he, hhome, -⟩ := hidle
        have htype : (s.fs.flags e).type = args.flags.type := by
          rw [← homeTree_type, hhome, pickTree_type]
        exact List.ne_nil_of_mem (htype ▸ hI.inv.mem_list he)
      have hmax : maxEntries s.fs args.flags.type ≠ 0 := by
        rw [hI.same.maxEntries]
        rw [hI.same.list] at hlist
        exact hfs₀.maxEntries_ne_zero hlist
      intro hpos
      rw [heffect.idle, hty, Function.update_self, ← hty, hone,
        if_pos (heffect.entry_of_hasIdle hres hidle hlist hmax)] at hpos
      exact absurd hpos (lt_irrefl _)
  · exact hN.keep hle hsig hnew

theorem NoLostWakeup.pickWait (hN : NoLostWakeup ty s) {args : PickArgs}
    {k : Option Entry → Flow FlowopRet} (hp : (s.thread t).prog = .request (.pick args) k)
    (hidle : s.fs.fsIdle args.flags.type = 0) {th : Thread} (hth : th.prog = (s.thread t).prog) :
    NoLostWakeup ty ⟨s.fs, Function.update s.thread t th⟩ := by
  by_cases hty : args.flags.type = ty
  · intro hpos
    rw [← hty, hidle] at hpos
    exact absurd hpos (lt_irrefl _)
  · have hnot : ∀ args' k', (s.thread t).prog = .request (.pick args') k' →
        args'.flags.type ≠ ty := by
      intro args' k' hk
      rw [hp] at hk
      cases hk
      exact hty
    exact hN.keep le_rfl (not_idleWaiter_of_prog hnot)
      fun _ _ => not_idleWaiter_of_prog (hth ▸ hnot)

/-- One step of a thread that does not lose a wakeup by resuming. -/
theorem NoLostWakeup.step {ι : Type} {code : ι → Flow FlowopRet} {fs₀ : Fileset} {l : Label ι}
    {s' : Sys} (hN : NoLostWakeup ty s) (hI : Owned fs₀ s) (hfs₀ : Created fs₀)
    (hok : ResumesWell s t l) (h : SysStep code s t l s') : NoLostWakeup ty s' := by
  have hready : ∀ th : Thread, th.wait = .ready → ∀ w, w ≠ .ready → ¬ th.IdleWaiter ty w :=
    fun th hth _ => not_idleWaiter_of_ready hth ty
  have hother : ∀ {th : Thread} {o k}, th.prog = .request o k → (∀ args, o ≠ .pick args) →
      ∀ w, ¬ th.IdleWaiter ty w := by
    intro th o k hp ho w
    refine not_idleWaiter_of_prog fun args k' hk => ?_
    rw [hp] at hk
    cases hk
    exact absurd rfl (ho args)
  have hgrab : ∀ {fs' fs : Fileset} {n : ℤ}, fs'.fsIdle = fs.fsIdle → n ≤ 0 →
      (fs'.addIdle .file n).fsIdle ty ≤ fs.fsIdle ty := by
    intro fs' fs n heq hn
    rw [addIdle_fsIdle, heq]
    split_ifs with hty
    · rw [hty]
      omega
    · exact le_rfl
  cases h with
  | start i r hp =>
    refine hN.keep le_rfl (not_idleWaiter_of_prog fun args k hk => ?_) (hready _ rfl)
    rw [hp] at hk
    cases hk
  | pick args k random res fs' hp hw hret hres =>
    exact hN.pick hI hfs₀ hok hp (filesetPick_effect hI.inv hret) hres rfl
  | pickWait args k random fs' hp hw hret =>
    cases filesetPick_effect hI.inv hret with
    | wait hlist hidle => exact hN.pickWait hp hidle rfl
  | grab kind e k hp hw hb =>
    refine hN.keep ?_ (hother hp (by rintro _ ⟨⟩) _) (hready _ rfl)
    rw [grabEntry_eq]
    refine hgrab rfl ?_
    cases kind with
    | delete =>
      rw [grabIdle]
      decide
    | close =>
      rw [grabIdle]
      split_ifs <;> decide
  | grabWait kind e k hp hw hb =>
    exact hN.keep le_rfl (hother hp (by rintro _ ⟨⟩) _) fun w _ =>
      @hother { s.thread t with wait := .blocked } _ _ hp (by rintro _ ⟨⟩) w
  | unbusy e newExist n k fs' sig thread' hp hret hsig =>
    have hob := (hI.thread t).obeys
    rw [hp] at hob
    have hbusy := (hI.owners.flag_iff e).mpr ⟨t, List.mem_append_left _ hob.1⟩
    obtain ⟨-, rfl, link, ts, rfl⟩ := filesetUnbusy_inv hI.inv hbusy.1 hret
    exact hN.unbusy hbusy.2 rfl (hother hp (by rintro _ ⟨⟩)) (hready _ rfl) hsig
  | openCnt e k hp => exact hN.keep le_rfl (hother hp (by rintro _ ⟨⟩) _) (hready _ rfl)
  | call c r k hp =>
    have hsame : ∀ t' w, (unlinked c r s.thread t').IdleWaiter ty w ↔
        (s.thread t').IdleWaiter ty w := by
      intro t' w
      obtain ⟨f, hf⟩ := unlinked_same c r s.thread t'
      rw [hf]
      rfl
    have hN' : NoLostWakeup ty ⟨s.fs, unlinked c r s.thread⟩ := hN.congr rfl hsame
    exact hN'.keep le_rfl ((hsame t _).not.mpr (hother hp (by rintro _ ⟨⟩) _)) (hready _ rfl)
  | get k hp => exact hN.keep le_rfl (hother hp (by rintro _ ⟨⟩) _) (hready _ rfl)
  | set tf k hp => exact hN.keep le_rfl (hother hp (by rintro _ ⟨⟩) _) (hready _ rfl)

end step

theorem NoLostWakeup.run {ι : Type} {code : ι → Flow FlowopRet} {fs₀ : Fileset}
    (hcode : ∀ i, Disciplined fs₀.fsList [] (code i)) (hfs₀ : Created fs₀) {ty : FseType}
    {s s' : Sys} (hI : Owned fs₀ s) (hN : NoLostWakeup ty s) (h : SysRun code ResumesWell s s') :
    NoLostWakeup ty s' := by
  induction h with
  | refl => exact hN
  | tail hrun hstep ih =>
    obtain ⟨t, l, hok, hstep⟩ := hstep
    exact ih.step (hI.run hcode hrun) hfs₀ hok hstep

/-- A pick that does not wait and finds an idle entry. -/
theorem filesetPick_entry {fs : Fileset} (hI : FsInv fs) {flags : PickFlags} (index : ℤ)
    (random : ℕ) (hcount : fs.fsIdle flags.type ≠ 0) (hidle : HasIdle fs flags)
    (hlist : fs.fsList flags.type ≠ []) (hmax : maxEntries fs flags.type ≠ 0) :
    ∃ r e, e ∈ fs.entries ∧ homeTree (fs.flags e) = pickTree flags ∧
      Returns (fun fuel => filesetPick fuel fs flags 0 index random)
        (.entry e, ((fs.withRotors r).addIdle flags.type (-1)).setFlags e
          fun f => { f with busy := true }) := by
  obtain ⟨⟨res, fs'⟩, hret⟩ := filesetPick_total hI flags (show 0 < fseMaxtid by decide) index random
  have heffect := filesetPick_effect hI hret
  have hres : res ≠ .wait := by
    rintro rfl
    cases heffect with
    | wait _ hzero => exact hcount hzero
  have hsome := heffect.entry_of_hasIdle hres hidle hlist hmax
  cases heffect with
  | entry r e _ he hhome _ => exact ⟨r, e, he, hhome, hret⟩
  | _ => cases hsome

section lost

variable {L : FseType → List Entry} {s : Sys} {t : ℕ}

end lost

end Filebench

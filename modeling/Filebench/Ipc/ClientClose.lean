import Filebench.Flowop.Abort
import Filebench.Ipc.ClientSync

/-! # The end of a connection

The synchronization server sends some bytes and then closes the connection, or the connection fails.
The client takes no notice of what `recv` returns: only a line end in its array lets it go on. -/
namespace Filebench

/-- A call of `recv` by what it returns: a number of bytes, 0 or -1. -/
inductive RecvCall where
  | bytes (piece : List Char)
  | closed
  | failed
  deriving DecidableEq, Repr

def RecvCall.stored : RecvCall → List Char
  | .bytes piece => piece
  | .closed | .failed => []

/-- The calls, after the last piece those that `fails` tells to fail and else find the connection
closed. -/
def serverCall (pieces : List (List Char)) (fails : ℕ → Bool) (i : ℕ) : RecvCall :=
  pieces[i]?.elim (if fails i then .failed else .closed) .bytes

/-- What the first calls store. -/
def storedCalls (pieces : List (List Char)) (fails : ℕ → Bool) (n : ℕ) : List (List Char) :=
  (List.range n).map fun i => (serverCall pieces fails i).stored

/-- What is returned, together with what was received. -/
def SyncResult.ret : SyncResult → Option (FuncRet × List (List Char))
  | .ok recvs => some (.ok, recvs)
  | .waits | .undefined => none

/-- After some number of calls the result is there, and it tells whether a line end was received. -/
def SyncAnswered (myName behind : CString) (syncPoint : ℤ) (stack : List Char)
    (pieces : List (List Char)) (fails : ℕ → Bool) : Prop :=
  ∃ n ret recvs,
    (mcSyncSynchronize myName behind syncPoint stack (storedCalls pieces fails n)).ret =
      some (ret, recvs) ∧ ret = if ∃ p ∈ recvs, '\n' ∈ p then .ok else .error

/-- A line end comes before the first null: in what was received, or in what lies behind it. -/
def Shown (text stack : List Char) (pieces : List (List Char)) : Prop :=
  strchrNewline (received pieces) = some true ∨
    nul ∉ received pieces ∧ Exposed text stack (longest pieces)

/-- More than the message was received, and nothing in the array ends the search. -/
def Overrun (text stack : List Char) (pieces : List (List Char)) : Prop :=
  text.length < longest pieces ∧
    strchrNewline (received pieces ++ stack.drop (longest pieces)) = none

/-- A line end shows at last, and none before one was received. The search keeps to the array until
then. -/
structure LineShown (text stack : List Char) (pieces : List (List Char)) : Prop where
  shown : ∃ k, Shown text stack (pieces.take k)
  genuine : ∀ k, Shown text stack (pieces.take k) → ∃ p ∈ pieces.take k, '\n' ∈ p
  bounded : ∀ k, Overrun text stack (pieces.take k) → ∃ i < k, Shown text stack (pieces.take i)

/-! ## The calls -/

variable {pieces : List (List Char)} {fails : ℕ → Bool}

theorem storedCalls_succ (n : ℕ) : storedCalls pieces fails (n + 1) =
    storedCalls pieces fails n ++ [(serverCall pieces fails n).stored] := by
  rw [storedCalls, List.range_succ, List.map_append]
  rfl

theorem length_storedCalls (n : ℕ) : (storedCalls pieces fails n).length = n := by
  rw [storedCalls, List.length_map, List.length_range]

theorem take_storedCalls {k n : ℕ} (h : k ≤ n) :
    (storedCalls pieces fails n).take k = storedCalls pieces fails k := by
  rw [storedCalls, ← List.map_take, List.take_range, Nat.min_eq_left h]
  rfl

theorem serverCall_stored (n : ℕ) :
    (serverCall pieces fails n).stored = pieces[n]?.getD [] := by
  rw [serverCall]
  cases pieces[n]? with
  | some piece => rfl
  | none => cases fails n <;> rfl

/-- What follows the last piece stores nothing. -/
theorem received_storedCalls (n : ℕ) :
    received (storedCalls pieces fails n) = received (pieces.take n) := by
  induction n with
  | zero => rfl
  | succ n ih =>
    unfold received at ih ⊢
    rw [storedCalls_succ, serverCall_stored, List.take_add_one, List.foldl_append,
      List.foldl_append, ih]
    cases pieces[n]? with
    | some piece => rfl
    | none => rfl

theorem newline_storedCalls (fails : ℕ → Bool) (n : ℕ) :
    (∃ p ∈ storedCalls pieces fails n, '\n' ∈ p) ↔ ∃ p ∈ pieces.take n, '\n' ∈ p := by
  induction n with
  | zero => rfl
  | succ n ih =>
    rw [storedCalls_succ, serverCall_stored, List.take_add_one]
    cases pieces[n]? with
    | some piece => simp [or_and_right, exists_or, ih]
    | none => simpa using ih

/-! ## The array -/

/-- What the array holds when the first call is made. -/
def clearedMsg (text stack : List Char) : List Char :=
  (text ++ nul :: stack.drop (text.length + 1)).set 0 nul

theorem strchrNewline_append_eq (u v : List Char) :
    strchrNewline (u ++ v) = (strchrNewline u).or (strchrNewline v) := by
  induction u with
  | nil => rfl
  | cons c u ih =>
    rw [List.cons_append, strchrNewline, strchrNewline, ih]
    split_ifs <;> rfl

theorem strchrNewline_eq_none {l : List Char} :
    strchrNewline l = none ↔ '\n' ∉ l ∧ nul ∉ l := by
  induction l with
  | nil => simp [strchrNewline]
  | cons c l ih =>
    rw [strchrNewline, List.mem_cons, List.mem_cons, not_or, not_or]
    split_ifs with hc hnul
    · simp [hc]
    · simp [hnul]
    · rw [ih]
      exact ⟨fun h => ⟨⟨Ne.symm hc, h.1⟩, ⟨Ne.symm hnul, h.2⟩⟩, fun h => ⟨h.1.2, h.2.2⟩⟩

theorem nul_mem_of_strchrNewline {l : List Char} (h : strchrNewline l = some false) : nul ∈ l := by
  induction l with
  | nil => exact absurd h.symm (Option.some_ne_none _)
  | cons c l ih =>
    rw [strchrNewline] at h
    split_ifs at h with hc hnul
    · exact absurd h (by decide)
    · exact hnul ▸ .head _
    · exact .tail _ (ih h)

theorem clearedMsg_drop_past {text stack : List Char} {m : ℕ} (h : text.length < m) :
    (clearedMsg text stack).drop m = stack.drop m := by
  have hpos : 0 < m := Nat.zero_lt_of_lt h
  have hpast : m - text.length = m - text.length - 1 + 1 := by omega
  have hsum : text.length + 1 + (m - text.length - 1) = m := by omega
  rw [clearedMsg, List.drop_set_of_lt hpos, List.drop_append, List.drop_of_length_le h.le,
    List.nil_append, hpast, List.drop_succ_cons, List.drop_drop, hsum]

/-- The null behind the message. -/
theorem nul_mem_clearedMsg {text stack : List Char} (htext : text ≠ []) {m : ℕ}
    (h : m ≤ text.length) : nul ∈ (clearedMsg text stack).drop m := by
  have hget : (clearedMsg text stack)[text.length]? = some nul := by
    rw [clearedMsg, List.getElem?_set_ne (List.length_pos_iff.mpr htext).ne,
      List.getElem?_append_right le_rfl, Nat.sub_self]
    rfl
  rw [← Nat.add_sub_of_le h, ← List.getElem?_drop] at hget
  exact List.mem_of_getElem? hget

variable {text stack : List Char}

theorem stored_received (b : List Char) (ps : List (List Char)) :
    stored b [] ps = received ps ++ b.drop (longest ps) := by
  rw [← length_received]
  rfl

theorem strchrNewline_shown (htext : text ≠ []) (ps : List (List Char)) :
    strchrNewline (stored (clearedMsg text stack) [] ps) = some true ↔ Shown text stack ps := by
  have hdrop : strchrNewline ((clearedMsg text stack).drop (longest ps)) = some true ↔
      Exposed text stack (longest ps) := strchrNewline_drop htext _
  rw [stored_received, strchrNewline_append_eq, Shown, ← hdrop]
  cases hreceived : strchrNewline (received ps) with
  | none => simp [(strchrNewline_eq_none.mp hreceived).2]
  | some found =>
    cases found with
    | true => simp
    | false => simp [nul_mem_of_strchrNewline hreceived]

theorem strchrNewline_overrun (htext : text ≠ []) (ps : List (List Char)) :
    strchrNewline (stored (clearedMsg text stack) [] ps) = none ↔ Overrun text stack ps := by
  rw [stored_received, Overrun]
  rcases Nat.lt_or_ge text.length (longest ps) with hlt | hle
  · rw [clearedMsg_drop_past hlt, and_iff_right hlt]
  · refine iff_of_false (fun hnone => ?_) fun h => absurd h.1 hle.not_gt
    exact (strchrNewline_eq_none.mp hnone).2
      (List.mem_append_right _ (nul_mem_clearedMsg htext hle))

/-! ## The loop -/

theorem SyncResult.recv_eq_ok {r : SyncResult} {piece : List Char} {recvs : List (List Char)} :
    r.recv piece = .ok recvs ↔ ∃ rest, r = .ok rest ∧ recvs = piece :: rest := by
  cases r with
  | ok rest =>
    constructor
    · intro h
      exact ⟨rest, rfl, (SyncResult.ok.inj h).symm⟩
    · rintro ⟨rest, hrest, rfl⟩
      exact congrArg (fun rest => SyncResult.ok (piece :: rest)) (SyncResult.ok.inj hrest)
  | waits =>
    apply iff_of_false SyncResult.noConfusion
    rintro ⟨rest, hrest, -⟩
    exact SyncResult.noConfusion hrest
  | undefined =>
    apply iff_of_false SyncResult.noConfusion
    rintro ⟨rest, hrest, -⟩
    exact SyncResult.noConfusion hrest

/-- The check after the calls `calls.take j` is the first to find a line end, and none before ran
past the array. -/
def EndsAt (b r : List Char) (calls : List (List Char)) (j : ℕ) : Prop :=
  strchrNewline (stored b r (calls.take j)) = some true ∧
    ∀ i < j, strchrNewline (stored b r (calls.take i)) = some false

theorem EndsAt.start {b r : List Char} {calls : List (List Char)} {j : ℕ} (h : EndsAt b r calls j) :
    (strchrNewline (stored b r []) = some true ∧ j = 0) ∨
      (strchrNewline (stored b r []) = some false ∧ 0 < j) := by
  rcases j.eq_zero_or_pos with rfl | hpos
  · exact .inl ⟨h.1, rfl⟩
  · exact .inr ⟨h.2 0 hpos, hpos⟩

theorem endsAt_succ {b r piece : List Char} {calls : List (List Char)} {j : ℕ}
    (h : strchrNewline (stored b r []) = some false) :
    EndsAt b r (piece :: calls) (j + 1) ↔ EndsAt b (recvInto r piece) calls j := by
  refine and_congr_right fun _ => ⟨fun hall i hi => hall (i + 1) (by omega), fun hall i hi => ?_⟩
  rcases i with _ | i
  · exact h
  · exact hall i (by omega)

/-- A loop that does not go on. -/
theorem syncLoop_ok_first {b r : List Char} {calls recvs : List (List Char)}
    (h : strchrNewline (stored b r []) ≠ some false) :
    syncLoop calls (stored b r []) = .ok recvs ↔
      ∃ j ≤ calls.length, EndsAt b r calls j ∧ recvs = calls.take j := by
  cases hcheck : strchrNewline (stored b r []) with
  | none =>
    rw [syncLoop_none hcheck]
    apply iff_of_false SyncResult.noConfusion
    rintro ⟨j, -, hends, -⟩
    rcases hends.start with ⟨hstart, -⟩ | ⟨hstart, -⟩
    · exact Option.some_ne_none _ (hstart.symm.trans hcheck)
    · exact Option.some_ne_none _ (hstart.symm.trans hcheck)
  | some found =>
    obtain rfl : found = true := by
      rw [hcheck] at h
      exact Bool.of_not_eq_false fun hfalse => h (congrArg some hfalse)
    rw [syncLoop_true hcheck]
    constructor
    · intro hok
      exact ⟨0, Nat.zero_le _, ⟨hcheck, fun i hi => absurd hi (Nat.not_lt_zero i)⟩,
        (SyncResult.ok.inj hok).symm⟩
    · rintro ⟨j, -, hends, rfl⟩
      rcases hends.start with ⟨-, rfl⟩ | ⟨hstart, -⟩
      · rfl
      · exact absurd hstart h

theorem syncLoop_ok_iff {b r : List Char} {calls recvs : List (List Char)} :
    syncLoop calls (stored b r []) = .ok recvs ↔
      ∃ j ≤ calls.length, EndsAt b r calls j ∧ recvs = calls.take j := by
  induction calls generalizing r recvs with
  | nil =>
    by_cases hcheck : strchrNewline (stored b r []) = some false
    · rw [syncLoop, hcheck]
      apply iff_of_false SyncResult.noConfusion
      rintro ⟨j, hj, hends, -⟩
      rcases hends.start with ⟨hstart, -⟩ | ⟨-, hpos⟩
      · exact Bool.noConfusion (Option.some.inj (hstart.symm.trans hcheck))
      · exact absurd hpos (Nat.not_lt.mpr hj)
    · exact syncLoop_ok_first hcheck
  | cons piece calls ih =>
    by_cases hcheck : strchrNewline (stored b r []) = some false
    · rw [syncLoop_false hcheck, SyncResult.recv_eq_ok]
      constructor
      · rintro ⟨rest, hrest, rfl⟩
        obtain ⟨j, hj, hends, rfl⟩ := ih.mp hrest
        exact ⟨j + 1, Nat.succ_le_succ hj, (endsAt_succ hcheck).mpr hends, rfl⟩
      · rintro ⟨j, hj, hends, rfl⟩
        rcases hends.start with ⟨hstart, -⟩ | ⟨-, hpos⟩
        · exact Bool.noConfusion (Option.some.inj (hstart.symm.trans hcheck))
        · obtain ⟨j, rfl⟩ : ∃ k, j = k + 1 := ⟨j - 1, by omega⟩
          exact ⟨calls.take j, ih.mpr ⟨j, Nat.le_of_succ_le_succ hj,
            (endsAt_succ hcheck).mp hends, rfl⟩, rfl⟩
    · exact syncLoop_ok_first hcheck

/-! ## The call -/

theorem shown_storedCalls (n : ℕ) :
    Shown text stack (storedCalls pieces fails n) ↔ Shown text stack (pieces.take n) := by
  rw [Shown, Shown, ← length_received, ← length_received, received_storedCalls]

theorem overrun_storedCalls (n : ℕ) :
    Overrun text stack (storedCalls pieces fails n) ↔ Overrun text stack (pieces.take n) := by
  rw [Overrun, Overrun, ← length_received, ← length_received, received_storedCalls]

theorem check_false_iff {o : Option Bool} : o = some false ↔ o ≠ some true ∧ o ≠ none := by
  rcases o with _ | _ | _ <;> decide

/-- The check after the first `j` calls. -/
theorem endsAt_storedCalls (fails : ℕ → Bool) (htext : text ≠ []) {j n : ℕ} (h : j ≤ n) :
    EndsAt (clearedMsg text stack) [] (storedCalls pieces fails n) j ↔
      Shown text stack (pieces.take j) ∧
        ∀ i < j, ¬ Shown text stack (pieces.take i) ∧ ¬ Overrun text stack (pieces.take i) := by
  rw [EndsAt, take_storedCalls h, strchrNewline_shown htext, shown_storedCalls]
  refine and_congr_right fun _ => forall₂_congr fun i hi => ?_
  rw [take_storedCalls (hi.le.trans h), check_false_iff, ne_eq, ne_eq, strchrNewline_shown htext,
    strchrNewline_overrun htext, shown_storedCalls, overrun_storedCalls]

/-- Nothing but a line end brings the result, and it is never an error. -/
theorem mcSyncSynchronize_ret (myName behind : CString) (syncPoint : ℤ) (stack : List Char)
    (n : ℕ) (ret : FuncRet) (recvs : List (List Char)) :
    (mcSyncSynchronize myName behind syncPoint stack (storedCalls pieces fails n)).ret =
        some (ret, recvs) ↔
      ret = .ok ∧ ∃ j ≤ n, EndsAt (clearedMsg (syncMessage (thisClientName myName behind)
        syncPoint) stack) [] (storedCalls pieces fails n) j ∧
          recvs = storedCalls pieces fails j := by
  have hstart : mcSyncSynchronize myName behind syncPoint stack (storedCalls pieces fails n) =
      syncLoop (storedCalls pieces fails n) (stored (clearedMsg (syncMessage (thisClientName myName
        behind) syncPoint) stack) [] []) := rfl
  have hret : ∀ r : SyncResult, r.ret = some (ret, recvs) ↔ ret = .ok ∧ r = .ok recvs := by
    intro r
    cases r with
    | ok recvs' =>
      rw [SyncResult.ret, Option.some_inj, Prod.mk.injEq, SyncResult.ok.injEq]
      exact and_congr_left' eq_comm
    | waits =>
      exact iff_of_false (fun h => Option.some_ne_none _ h.symm) fun h => SyncResult.noConfusion h.2
    | undefined =>
      exact iff_of_false (fun h => Option.some_ne_none _ h.symm) fun h => SyncResult.noConfusion h.2
  rw [hret, hstart, syncLoop_ok_iff, length_storedCalls]
  refine and_congr_right fun _ => exists_congr fun j => and_congr_right fun hj => ?_
  rw [take_storedCalls hj]

theorem Shown.not_overrun (htext : text ≠ []) {ps : List (List Char)} (h : Shown text stack ps) :
    ¬ Overrun text stack ps := by
  rw [← strchrNewline_shown htext] at h
  rw [← strchrNewline_overrun htext, h]
  exact Option.some_ne_none _

/-- An answer comes with the first check that a line end shows at, and one was received by then. -/
theorem SyncAnswered.first {myName behind : CString} {syncPoint : ℤ} {stack : List Char}
    (h : SyncAnswered myName behind syncPoint stack pieces fails) :
    ∃ j, Shown (syncMessage (thisClientName myName behind) syncPoint) stack (pieces.take j) ∧
      (∀ i < j, ¬ Shown (syncMessage (thisClientName myName behind) syncPoint) stack
          (pieces.take i) ∧
        ¬ Overrun (syncMessage (thisClientName myName behind) syncPoint) stack (pieces.take i)) ∧
      ∃ p ∈ pieces.take j, '\n' ∈ p := by
  obtain ⟨n, ret, recvs, hrun, hret⟩ := h
  obtain ⟨rfl, j, hj, hends, rfl⟩ := (mcSyncSynchronize_ret ..).mp hrun
  obtain ⟨hshown, hbefore⟩ := (endsAt_storedCalls _ (syncMessage_ne_nil _ _) hj).mp hends
  refine ⟨j, hshown, hbefore, ?_⟩
  by_contra hnone
  rw [← newline_storedCalls fails] at hnone
  rw [if_neg hnone] at hret
  exact FuncRet.noConfusion hret

/-- The call ends with a line that was received if and only if one shows before any other line end
does, with the search kept to the array. -/
theorem mcSyncSynchronize_answered (myName behind : CString) (syncPoint : ℤ) (stack : List Char)
    (pieces : List (List Char)) (fails : ℕ → Bool) :
    SyncAnswered myName behind syncPoint stack pieces fails ↔
      LineShown (syncMessage (thisClientName myName behind) syncPoint) stack pieces := by
  have hne := syncMessage_ne_nil (thisClientName myName behind) syncPoint
  constructor
  · intro hanswered
    obtain ⟨j, hshown, hbefore, hnewline⟩ := hanswered.first
    refine ⟨⟨j, hshown⟩, fun k hk => ?_, fun k hk => ?_⟩
    · obtain ⟨p, hp, hmem⟩ := hnewline
      have hjk : j ≤ k := by
        by_contra hlt
        exact (hbefore k (by omega)).1 hk
      exact ⟨p, (List.take_prefix_take_left hjk).subset hp, hmem⟩
    · rcases lt_trichotomy k j with hlt | rfl | hgt
      · exact absurd hk (hbefore k hlt).2
      · exact absurd hk (hshown.not_overrun hne)
      · exact ⟨j, hgt, hshown⟩
  · rintro ⟨hshown, hgenuine, hbounded⟩
    -- The first check that a line end shows at.
    classical
    obtain ⟨j, hj, hfirst⟩ : ∃ j, Shown (syncMessage (thisClientName myName behind) syncPoint) stack
        (pieces.take j) ∧ ∀ i < j, ¬ Shown (syncMessage (thisClientName myName behind) syncPoint)
          stack (pieces.take i) :=
      ⟨Nat.find hshown, Nat.find_spec hshown, fun i hi => Nat.find_min hshown hi⟩
    have hends := (endsAt_storedCalls fails hne le_rfl).mpr
      ⟨hj, fun i hi => ⟨hfirst i hi, fun hover => ?_⟩⟩
    · refine ⟨j, .ok, _, (mcSyncSynchronize_ret ..).mpr ⟨rfl, j, le_rfl, hends, rfl⟩, ?_⟩
      rw [if_pos ((newline_storedCalls fails j).mpr (hgenuine j hj))]
    · obtain ⟨k, hk, hshown⟩ := hbounded i hover
      exact hfirst k (hk.trans hi) hshown

/-- A server that closes the connection at once: no number of calls is enough. -/
theorem mcSyncSynchronize_closed :
    (∀ n, (mcSyncSynchronize ['c'] [] 1 (List.replicate mcsMsglength nul)
      (storedCalls [] (fun _ => false) n)).ret = none) ∧
    ¬ SyncAnswered ['c'] [] 1 (List.replicate mcsMsglength nul) [] fun _ => false := by
  refine ⟨fun n => ?_, fun h => ?_⟩
  · by_contra hsome
    obtain ⟨⟨ret, recvs⟩, hrun⟩ := Option.ne_none_iff_exists'.mp hsome
    obtain ⟨-, j, hj, hends, -⟩ := (mcSyncSynchronize_ret ..).mp hrun
    have hshown := ((endsAt_storedCalls _ (syncMessage_ne_nil _ _) hj).mp hends).1
    rw [List.take_nil] at hshown
    rcases hshown with hshown | ⟨-, hexposed⟩
    · exact Option.some_ne_none _ hshown.symm
    · exact absurd hexposed.1 (Nat.lt_irrefl 0)
  · obtain ⟨j, -, -, p, hp, -⟩ := h.first
    rw [List.take_nil] at hp
    exact absurd hp List.not_mem_nil

end Filebench

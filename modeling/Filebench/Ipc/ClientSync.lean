import Filebench.Lib.CString

/-! # Synchronization of clients

A client sends a message to the synchronization server and waits for a line in reply. The replies
are stored over the message that was sent, whose own line end can be taken for that of the reply. -/
namespace Filebench

/-- `MCS_NAMELENGTH` -/
def mcsNamelength : ℕ := 128

/-- `MCS_MSGLENGTH` -/
def mcsMsglength : ℕ := mcsNamelength * 8

/-- `"%d"` -/
def fmtD : ℤ → CString
  | .ofNat n => Nat.toDigits 10 n
  | .negSucc n => '-' :: Nat.toDigits 10 (n + 1)

/-- The string in `this_client_name`. A name that fills the array is not terminated there, and goes
on with what lies behind it. -/
def thisClientName (myName behind : CString) : CString :=
  if myName.length < mcsNamelength then myName else myName.take mcsNamelength ++ behind

/-- The message to be sent, as far as there is room. -/
def syncMessage (clientName : CString) (syncPoint : ℤ) : CString :=
  (['c', 'm', 'd', '=', 'S', 'Y', 'N', 'C', ',', 'i', 'd', '=', 'x', 'y', 'z', 'z', 'y', ','] ++
    (['n', 'a', 'm', 'e', '='] ++ clientName ++
      ([',', 's', 'a', 'm', 'p', 'l', 'e', '='] ++ fmtD syncPoint ++ ['\n']))).take
        (mcsMsglength - 1)

/-- `strchr` in an array: up to the first null, and with no result where there is none. -/
def strchrNewline : List Char → Option Bool
  | [] => none
  | c :: rest => if c = '\n' then some true else if c = nul then some false else strchrNewline rest

/-- `recv` stores at the start of the array, and adds no null. -/
def recvInto (msg piece : List Char) : List Char := piece ++ msg.drop piece.length

/-- `ok` comes with what the calls of `recv` delivered. The loop may wait for more, or read past the
end of the array. -/
inductive SyncResult where
  | ok (recvs : List (List Char))
  | waits
  | undefined
  deriving DecidableEq

def SyncResult.recv (piece : List Char) : SyncResult → SyncResult
  | .ok recvs => .ok (piece :: recvs)
  | r => r

def syncLoop : List (List Char) → List Char → SyncResult
  | [], msg =>
    match strchrNewline msg with
    | none => .undefined
    | some true => .ok []
    | some false => .waits
  | piece :: pieces, msg =>
    match strchrNewline msg with
    | none => .undefined
    | some true => .ok []
    | some false => (syncLoop pieces (recvInto msg piece)).recv piece

/-- `stack` is the array before it is written to, and `pieces` is what `recv` delivers. -/
def mcSyncSynchronize (myName behind : CString) (syncPoint : ℤ) (stack : List Char)
    (pieces : List (List Char)) : SyncResult :=
  let text := syncMessage (thisClientName myName behind) syncPoint
  let msg := text ++ nul :: stack.drop (text.length + 1)
  syncLoop pieces (msg.set 0 nul)

/-- The result comes after a line end was received. -/
def SyncResult.Received (r : SyncResult) : Prop :=
  ∀ recvs, r = .ok recvs → ∃ p ∈ recvs, '\n' ∈ p

/-- A line end of the message, or of the memory behind it, comes before the first null after the
first `m` characters. -/
def Exposed (text stack : List Char) (m : ℕ) : Prop :=
  0 < m ∧ (strchrNewline (text.drop m) = some true ∨
    text.length < m ∧ strchrNewline (stack.drop m) = some true)

def longest (pieces : List (List Char)) : ℕ := pieces.foldl (fun m p => max m p.length) 0

/-- Everything received, as it lies in the array. -/
def received (pieces : List (List Char)) : List Char := pieces.foldl recvInto []

/-! ## The array -/

theorem strchrNewline_true {l : List Char} (h : strchrNewline l = some true) : '\n' ∈ l := by
  induction l with
  | nil => cases h
  | cons c rest ih =>
    rw [strchrNewline] at h
    split_ifs at h with hc hnul
    · exact hc ▸ .head _
    · cases h
    · exact .tail _ (ih h)

theorem strchrNewline_none {l : List Char} (h : strchrNewline l = none) : '\n' ∉ l := by
  induction l with
  | nil => exact List.not_mem_nil
  | cons c rest ih =>
    rw [strchrNewline] at h
    split_ifs at h with hc hnul
    rw [List.mem_cons, not_or]
    exact ⟨Ne.symm hc, ih h⟩

/-- What comes before the first null and has no line end is passed over. -/
theorem strchrNewline_append {u v : List Char} (hu : '\n' ∉ u) :
    strchrNewline (u ++ v) = some true ↔ nul ∉ u ∧ strchrNewline v = some true := by
  induction u with
  | nil => simp
  | cons c u ih =>
    rw [List.mem_cons, not_or] at hu
    rw [List.cons_append, strchrNewline, if_neg (Ne.symm hu.1)]
    by_cases hc : c = nul
    · simp [hc]
    · rw [if_neg hc, ih hu.2, List.mem_cons, not_or]
      exact ⟨fun h => ⟨⟨Ne.symm hc, h.1⟩, h.2⟩, fun h => ⟨h.1.2, h.2⟩⟩

/-- The array while `r` is what was stored over `b`. -/
theorem recvInto_stored (r b piece : List Char) :
    recvInto (r ++ b.drop r.length) piece =
      recvInto r piece ++ b.drop (recvInto r piece).length := by
  rw [recvInto, recvInto, List.drop_append, List.drop_drop, List.length_append, List.length_drop,
    List.append_assoc]
  congr 3
  omega

theorem length_recvInto (r piece : List Char) :
    (recvInto r piece).length = max r.length piece.length := by
  rw [recvInto, List.length_append, List.length_drop]
  omega

theorem length_foldl (r : List Char) (pieces : List (List Char)) :
    (pieces.foldl recvInto r).length = pieces.foldl (fun m p => max m p.length) r.length := by
  induction pieces generalizing r with
  | nil => rfl
  | cons piece pieces ih => rw [List.foldl_cons, ih, length_recvInto, List.foldl_cons]

theorem length_received (pieces : List (List Char)) :
    (received pieces).length = longest pieces := length_foldl [] pieces

theorem length_le_foldl (r : List Char) (pieces : List (List Char)) :
    r.length ≤ (pieces.foldl recvInto r).length := by
  induction pieces generalizing r with
  | nil => exact le_rfl
  | cons piece pieces ih =>
    exact (le_of_le_of_eq (le_max_left ..) (length_recvInto r piece).symm).trans (ih _)

theorem newline_notMem_recvInto {r piece : List Char} (hr : '\n' ∉ r) (hp : '\n' ∉ piece) :
    '\n' ∉ recvInto r piece := by
  rw [recvInto, List.mem_append, not_or]
  exact ⟨hp, fun h => hr (List.mem_of_mem_drop h)⟩

theorem newline_notMem_foldl {r : List Char} {pieces : List (List Char)} (hr : '\n' ∉ r)
    (hp : ∀ p ∈ pieces, '\n' ∉ p) : '\n' ∉ pieces.foldl recvInto r := by
  induction pieces generalizing r with
  | nil => exact hr
  | cons piece pieces ih =>
    exact ih (newline_notMem_recvInto hr (hp _ (.head _))) fun p h => hp p (.tail _ h)

/-! ## The loop -/

theorem SyncResult.received_recv {r : SyncResult} {piece : List Char} :
    (r.recv piece).Received ↔ '\n' ∈ piece ∨ r.Received := by
  cases r with
  | ok recvs =>
    constructor
    · intro h
      obtain ⟨p, hp, hnl⟩ := h _ rfl
      rcases List.mem_cons.mp hp with rfl | hp
      · exact .inl hnl
      · refine .inr ?_
        rintro _ ⟨⟩
        exact ⟨p, hp, hnl⟩
    · rintro (h | h) _ ⟨⟩
      · exact ⟨piece, .head _, h⟩
      · obtain ⟨p, hp, hnl⟩ := h _ rfl
        exact ⟨p, .tail _ hp, hnl⟩
  | waits | undefined => exact iff_of_true nofun (.inr nofun)

theorem syncLoop_none {pieces : List (List Char)} {msg : List Char}
    (h : strchrNewline msg = none) : syncLoop pieces msg = .undefined := by
  cases pieces <;> rw [syncLoop, h]

theorem syncLoop_true {pieces : List (List Char)} {msg : List Char}
    (h : strchrNewline msg = some true) : syncLoop pieces msg = .ok [] := by
  cases pieces <;> rw [syncLoop, h]

theorem SyncResult.not_received_nil : ¬ (SyncResult.ok []).Received := by
  intro h
  obtain ⟨p, hp, -⟩ := h _ rfl
  cases hp

/-- The array after the pieces `pieces`, if `r` was stored over `b` before. -/
def stored (b r : List Char) (pieces : List (List Char)) : List Char :=
  pieces.foldl recvInto r ++ b.drop (pieces.foldl recvInto r).length

theorem syncLoop_false {b r piece : List Char} {pieces : List (List Char)}
    (h : strchrNewline (stored b r []) = some false) :
    syncLoop (piece :: pieces) (stored b r []) =
      (syncLoop pieces (stored b (recvInto r piece) [])).recv piece := by
  rw [syncLoop, h]
  exact congrArg (fun msg => (syncLoop pieces msg).recv piece) (recvInto_stored r b piece)

/-- Where there is no line end there will be none until one is received. -/
theorem strchrNewline_stored {b r : List Char} {pieces : List (List Char)}
    (hnone : strchrNewline (stored b r []) = none) (hr : '\n' ∉ r)
    (hp : ∀ p ∈ pieces, '\n' ∉ p) : strchrNewline (stored b r pieces) ≠ some true := by
  intro h
  have hmem := strchrNewline_true h
  rw [stored, List.mem_append] at hmem
  rcases hmem with hmem | hmem
  · exact newline_notMem_foldl hr hp hmem
  · refine strchrNewline_none hnone (List.mem_append_right _ ?_)
    have hle := length_le_foldl r pieces
    rw [← Nat.add_sub_cancel' hle, ← List.drop_drop] at hmem
    exact List.mem_of_mem_drop hmem

/-- The loop ends too early exactly if a line end is found before one was received. -/
theorem syncLoop_received {b r : List Char} (pieces : List (List Char)) (hr : '\n' ∉ r) :
    (syncLoop pieces (stored b r [])).Received ↔
      ∀ k, (∀ p ∈ pieces.take k, '\n' ∉ p) →
        strchrNewline (stored b r (pieces.take k)) ≠ some true := by
  induction pieces generalizing r with
  | nil =>
    simp only [List.take_nil, List.not_mem_nil, false_imp_iff, implies_true, forall_const]
    cases h : strchrNewline (stored b r []) with
    | none => simp [syncLoop_none h, SyncResult.Received]
    | some found =>
      cases found with
      | true => simp [syncLoop_true h, SyncResult.not_received_nil]
      | false => simp [syncLoop, h, SyncResult.Received]
  | cons piece pieces ih =>
    cases h : strchrNewline (stored b r []) with
    | none =>
      rw [syncLoop_none h]
      refine iff_of_true nofun fun k hp => ?_
      exact strchrNewline_stored h hr hp
    | some found =>
      cases found with
      | true =>
        rw [syncLoop_true h]
        refine iff_of_false SyncResult.not_received_nil fun hall => ?_
        exact hall 0 (fun p hp => absurd hp List.not_mem_nil) h
      | false =>
        rw [syncLoop_false h, SyncResult.received_recv]
        by_cases hpiece : '\n' ∈ piece
        · refine iff_of_true (.inl hpiece) fun k hp => ?_
          cases k with
          | zero =>
            rw [List.take_zero, h]
            decide
          | succ k => exact absurd hpiece (hp piece (.head _))
        · rw [or_iff_right hpiece, ih (newline_notMem_recvInto hr hpiece)]
          constructor
          · intro hall k hp
            cases k with
            | zero =>
              rw [List.take_zero, h]
              decide
            | succ k => exact hall k fun p hmem => hp p (.tail _ hmem)
          · intro hall k hp
            refine hall (k + 1) fun p hmem => ?_
            rcases List.mem_cons.mp hmem with rfl | hmem
            · exact hpiece
            · exact hp p hmem

/-! ## The call -/

theorem syncMessage_ne_nil (clientName : CString) (syncPoint : ℤ) :
    syncMessage clientName syncPoint ≠ [] := by
  simp [syncMessage, mcsMsglength, mcsNamelength]

/-- A null ends the search. -/
theorem strchrNewline_append_nul (u v : List Char) :
    strchrNewline (u ++ nul :: v) = some true ↔ strchrNewline u = some true := by
  induction u with
  | nil =>
    have hnul : nul ≠ '\n' := by decide
    simp [strchrNewline, hnul]
  | cons c u ih =>
    rw [List.cons_append, strchrNewline, strchrNewline]
    split_ifs <;> simp [ih]

/-- What the array holds after the first characters, while only its first character was cleared. -/
theorem strchrNewline_drop {text stack : List Char} (htext : text ≠ []) (m : ℕ) :
    strchrNewline (((text ++ nul :: stack.drop (text.length + 1)).set 0 nul).drop m) = some true ↔
      Exposed text stack m := by
  cases m with
  | zero =>
    obtain ⟨c, text, rfl⟩ := List.exists_cons_of_ne_nil htext
    have hnul : nul ≠ '\n' := by decide
    simp [strchrNewline, Exposed, hnul]
  | succ m =>
    rw [List.drop_set_of_lt (Nat.succ_pos m), List.drop_append]
    rcases Nat.lt_or_ge text.length (m + 1) with hm | hm
    · have hpast : m + 1 - text.length = m - text.length + 1 := by omega
      have hsum : text.length + 1 + (m - text.length) = m + 1 := by omega
      rw [List.drop_of_length_le hm.le, hpast, List.drop_succ_cons, List.drop_drop, hsum, Exposed,
        List.drop_of_length_le hm.le]
      simp [strchrNewline, hm]
    · rw [Nat.sub_eq_zero_of_le hm, List.drop_zero, strchrNewline_append_nul, Exposed]
      simp [Nat.not_lt.mpr hm]

/-- The call returns after the reply exactly if the replies without a line end never leave one of
the message behind them. -/
theorem mcSyncSynchronize_received (myName behind : CString) (syncPoint : ℤ) (stack : List Char)
    (pieces : List (List Char)) :
    (mcSyncSynchronize myName behind syncPoint stack pieces).Received ↔
      ∀ k, (∀ p ∈ pieces.take k, '\n' ∉ p) → nul ∈ received (pieces.take k) ∨
        ¬ Exposed (syncMessage (thisClientName myName behind) syncPoint) stack
          (longest (pieces.take k)) := by
  have hloop := syncLoop_received (r := []) (b := ((syncMessage (thisClientName myName behind)
    syncPoint) ++ nul :: stack.drop ((syncMessage (thisClientName myName behind)
      syncPoint).length + 1)).set 0 nul) pieces List.not_mem_nil
  refine hloop.trans (forall_congr' fun k => imp_congr_right fun hp => ?_)
  rw [stored, Ne, strchrNewline_append (newline_notMem_foldl List.not_mem_nil hp),
    strchrNewline_drop (syncMessage_ne_nil _ _), ← length_received, not_and_or, not_not]
  rfl

/-- The reply `OK` with its line end in two pieces, of which only the first is waited for. -/
theorem mcSyncSynchronize_early : ¬ ∀ myName behind syncPoint stack pieces,
    (mcSyncSynchronize myName behind syncPoint stack pieces).Received := by
  intro h
  have hearly : mcSyncSynchronize ['c'] [] 1 (List.replicate mcsMsglength nul)
      [['O'], ['K', '\n']] = .ok [['O']] := by
    decide +kernel
  obtain ⟨p, hp, hnl⟩ := h _ _ _ _ _ _ hearly
  obtain rfl := List.mem_singleton.mp hp
  exact absurd hnl (by decide)

end Filebench

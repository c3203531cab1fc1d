import Mathlib.Data.List.Forall2

/-! # Phrases with two stages

Reading a phrase may change the state, and prepares a function that is called later, or none.
Reading and calling phrase by phrase does the same as reading all of them first, where reading
them changes nothing and always prepares the same calls. -/
namespace Filebench.Staged

variable {E S : Type}

abbrev Act (E S : Type) := S → Except E S

/-- What reading a phrase in a state leads to. -/
abbrev Phrase (E S : Type) := S → Except E (Option (Act E S) × S)

/-- Both stages of one phrase: what is not prepared is not called. -/
def Phrase.run (c : Phrase E S) : Act E S := fun s => do
  let (k, s) ← c s
  match k with
  | some k => k s
  | none => .ok s

def runAll : List (Phrase E S) → Act E S
  | [], s => .ok s
  | c :: cs, s => do
    let s ← c.run s
    runAll cs s

/-- The first stage of all phrases. -/
def prepareAll : List (Phrase E S) → S → Except E (List (Option (Act E S)) × S)
  | [], s => .ok ([], s)
  | c :: cs, s => do
    let (k, s) ← c s
    let (ks, s) ← prepareAll cs s
    .ok (k :: ks, s)

/-- The second stage of all phrases: to call nothing is an error. -/
def callAll (null : S → E) : List (Option (Act E S)) → Act E S
  | [], s => .ok s
  | some k :: ks, s => do
    let s ← k s
    callAll null ks s
  | none :: _, s => .error (null s)

/-- Where `I` holds, reading the phrase only prepares `k`. -/
def Deferred (I : S → Prop) (c : Phrase E S) (k : Act E S) : Prop :=
  ∀ s, I s → c s = .ok (some k, s)

def Keeps (I : S → Prop) (k : Act E S) : Prop := ∀ s s', I s → k s = .ok s' → I s'

variable {I : S → Prop} {cs cs' : List (Phrase E S)} {ks : List (Act E S)} {null : S → E}

theorem runAll_append (s : S) : runAll (cs ++ cs') s = runAll cs s >>= runAll cs' := by
  induction cs generalizing s with
  | nil => rfl
  | cons c cs ih =>
    simp only [List.cons_append, runAll, bind_assoc]
    exact bind_congr ih

theorem prepareAll_deferred (h : List.Forall₂ (Deferred I) cs ks) {s : S} (hs : I s) :
    prepareAll cs s = .ok (ks.map some, s) := by
  induction h with
  | nil => rfl
  | cons hc _ ih =>
    rw [prepareAll, hc s hs]
    change (prepareAll _ s >>= fun x => _) = _
    rw [ih]
    rfl

theorem Deferred.run {c : Phrase E S} {k : Act E S} (h : Deferred I c k) {s : S} (hs : I s) :
    c.run s = k s := by
  rw [Phrase.run, h s hs]
  rfl

theorem runAll_deferred (h : List.Forall₂ (Deferred I) cs ks) (hks : ∀ k ∈ ks, Keeps I k)
    {s : S} (hs : I s) : runAll cs s = callAll null (ks.map some) s := by
  induction h generalizing s with
  | nil => rfl
  | @cons c k cs ks hc _ ih =>
    rw [runAll, hc.run hs]
    change (k s >>= runAll cs) = (k s >>= callAll null (ks.map some))
    cases hk : k s with
    | error e => rfl
    | ok s' =>
      have hs' := hks k (.head _) s s' hs hk
      exact ih (fun k hk => hks k (.tail _ hk)) hs'

theorem callAll_keeps (hks : ∀ k ∈ ks, Keeps I k) : Keeps I (callAll null (ks.map some)) := by
  induction ks with
  | nil =>
    intro s s' hs h
    cases h
    exact hs
  | cons k ks ih =>
    intro s s' hs h
    change (k s >>= callAll null (ks.map some)) = .ok s' at h
    cases hk : k s with
    | error e =>
      rw [hk] at h
      cases h
    | ok s₁ =>
      rw [hk] at h
      have hs₁ := hks k (.head _) s s₁ hs hk
      exact ih (fun k hk => hks k (.tail _ hk)) s₁ s' hs₁ h

/-- Where something was not prepared, the calls do not come to an end. -/
theorem callAll_null {ks : List (Option (Act E S))} (h : none ∈ ks) (s s' : S) :
    callAll null ks s ≠ .ok s' := by
  induction ks generalizing s with
  | nil => cases h
  | cons k ks ih =>
    cases k with
    | none => nofun
    | some k =>
      have hks : none ∈ ks := by
        cases h with
        | tail _ h => exact h
      change (k s >>= callAll null ks) ≠ .ok s'
      cases k s with
      | error e => nofun
      | ok s₁ => exact ih hks s₁

theorem prepareAll_null {s s' : S} {ks : List (Option (Act E S))} {c : Phrase E S}
    (hc : c ∈ cs) (hnull : ∀ s k s', c s = .ok (k, s') → k = none)
    (h : prepareAll cs s = .ok (ks, s')) : none ∈ ks := by
  induction cs generalizing s ks with
  | nil => cases hc
  | cons c' cs ih =>
    change (c' s >>= fun x => prepareAll cs x.2 >>= fun y => .ok (x.1 :: y.1, y.2)) = _ at h
    cases hread : c' s with
    | error e =>
      rw [hread] at h
      cases h
    | ok x =>
      rw [hread] at h
      change (prepareAll cs x.2 >>= fun y => .ok (x.1 :: y.1, y.2)) = _ at h
      cases hrest : prepareAll cs x.2 with
      | error e =>
        rw [hrest] at h
        cases h
      | ok y =>
        rw [hrest] at h
        cases h
        cases hc with
        | head =>
          rw [hnull s x.1 x.2 hread]
          exact .head _
        | tail _ hc => exact .tail _ (ih hc hrest)

end Filebench.Staged

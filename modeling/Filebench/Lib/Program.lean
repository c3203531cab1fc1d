import Mathlib.Tactic

/-! # Programs that issue requests

A program is a tree of requests with one branch for each reply. A protocol says which requests
are allowed in a state and how a reply changes the state; a program that obeys it does so for
all replies. -/
namespace Filebench.Prog

inductive Program (Op : Type) (Reply : Op → Type) (α : Type) where
  | pure (a : α)
  | request (o : Op) (k : Reply o → Program Op Reply α)

variable {Op : Type} {Reply : Op → Type} {α β : Type}

namespace Program

def bind (p : Program Op Reply α) (f : α → Program Op Reply β) : Program Op Reply β :=
  match p with
  | .pure a => f a
  | .request o k => .request o fun r => (k r).bind f

instance : Monad (Program Op Reply) where
  pure := .pure
  bind := bind

/-- The program of one request. -/
def send (o : Op) : Program Op Reply (Reply o) := .request o .pure

@[simp] theorem pure_bind (a : α) (f : α → Program Op Reply β) :
    (Program.pure a >>= f) = f a := rfl

@[simp] theorem pure_eq (a : α) : (Pure.pure a : Program Op Reply α) = .pure a := rfl

@[simp] theorem request_bind (o : Op) (k : Reply o → Program Op Reply α)
    (f : α → Program Op Reply β) :
    (Program.request o k >>= f) = .request o fun r => k r >>= f := rfl

@[simp] theorem send_bind (o : Op) (f : Reply o → Program Op Reply β) :
    (send o >>= f) = .request o f := rfl

theorem bind_assoc {γ : Type} (p : Program Op Reply α) (f : α → Program Op Reply β)
    (g : β → Program Op Reply γ) : (p >>= f) >>= g = p >>= fun a => f a >>= g := by
  induction p with
  | pure a => rfl
  | request o k ih => exact congrArg (Program.request o) (funext ih)

end Program

/-- Which requests a state allows, and the states after a reply. -/
structure Protocol (Op : Type) (Reply : Op → Type) (σ : Type) where
  allow : σ → Op → Prop
  next : σ → (o : Op) → Reply o → σ → Prop

variable {σ : Type}

/-- Every request of the program is allowed when it is made, and `post` holds at the end. -/
def Obeys (P : Protocol Op Reply σ) (post : σ → α → Prop) : σ → Program Op Reply α → Prop
  | s, .pure a => post s a
  | s, .request o k => P.allow s o ∧ ∀ r s', P.next s o r s' → Obeys P post s' (k r)

variable {P : Protocol Op Reply σ} {post post' : σ → α → Prop} {s : σ}

@[simp] theorem obeys_pure (a : α) : Obeys P post s (.pure a : Program Op Reply α) ↔ post s a :=
  Iff.rfl

@[simp] theorem obeys_request (o : Op) (k : Reply o → Program Op Reply α) :
    Obeys P post s (.request o k) ↔
      P.allow s o ∧ ∀ r s', P.next s o r s' → Obeys P post s' (k r) := Iff.rfl

theorem Obeys.mono {p : Program Op Reply α} (h : Obeys P post s p)
    (hpost : ∀ s a, post s a → post' s a) : Obeys P post' s p := by
  induction p generalizing s with
  | pure a => exact hpost s a h
  | request o k ih => exact ⟨h.1, fun r s' hnext => ih r (h.2 r s' hnext)⟩

theorem Obeys.bind {p : Program Op Reply α} {f : α → Program Op Reply β} {post' : σ → β → Prop}
    (h : Obeys P post s p) (hf : ∀ s a, post s a → Obeys P post' s (f a)) :
    Obeys P post' s (p >>= f) := by
  induction p generalizing s with
  | pure a => exact hf s a h
  | request o k ih => exact ⟨h.1, fun r s' hnext => ih r (h.2 r s' hnext)⟩

/-- A protocol that demands less and whose replies the other one foresees is obeyed too. -/
theorem Obeys.simulate {τ : Type} {Q : Protocol Op Reply τ} {R : σ → τ → Prop}
    (hallow : ∀ s u o, R s u → P.allow s o → Q.allow u o)
    (hnext : ∀ s u o r u', R s u → Q.next u o r u' → ∃ s', P.next s o r s' ∧ R s' u')
    {p : Program Op Reply α} {u : τ} (hR : R s u) (h : Obeys P post s p) :
    Obeys Q (fun u a => ∃ s, R s u ∧ post s a) u p := by
  induction p generalizing s u with
  | pure a => exact ⟨s, hR, h⟩
  | request o k ih =>
    refine ⟨hallow s u o hR h.1, fun r u' hu => ?_⟩
    obtain ⟨s', hs, hR'⟩ := hnext s u o r u' hR hu
    exact ih r hR' (h.2 r s' hs)

/-! ## One program after another -/

/-- What becomes of programs that are started one after another. -/
inductive Sequence {ι : Type} (P : Protocol Op Reply σ) (code : ι → Program Op Reply α)
    (ok : σ → ι → Prop) (s₀ : σ) (a₀ : α) : σ → Program Op Reply α → Prop where
  | initial : Sequence P code ok s₀ a₀ s₀ (.pure a₀)
  | start {s : σ} {a : α} (i : ι) (h : Sequence P code ok s₀ a₀ s (.pure a)) (hok : ok s i) :
      Sequence P code ok s₀ a₀ s (code i)
  | reply {s s' : σ} {o : Op} {k : Reply o → Program Op Reply α} (r : Reply o)
      (h : Sequence P code ok s₀ a₀ s (.request o k)) (hnext : P.next s o r s') :
      Sequence P code ok s₀ a₀ s' (k r)

/-- A condition that every program ends with when it begins with it holds between the programs, and
all requests are allowed. -/
theorem Sequence.obeys {ι : Type} {code : ι → Program Op Reply α} {ok : σ → ι → Prop} {s₀ : σ}
    {a₀ : α} {I : σ → Prop} {p : Program Op Reply α} (h : Sequence P code ok s₀ a₀ s p)
    (h₀ : I s₀) (hcode : ∀ s i, I s → ok s i → Obeys P (fun s _ => I s) s (code i)) :
    Obeys P (fun s _ => I s) s p := by
  induction h with
  | initial => exact h₀
  | start i _ hok ih => exact hcode _ i ih hok
  | reply r _ hnext ih => exact ih.2 r _ hnext

end Filebench.Prog

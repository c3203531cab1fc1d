import Filebench.Flowop.Runtime

/-! # Trees of flowops

The flowops of a thread as a forest: each has the list of its inner flowops and a next one. What
is in memory represents a forest when every list of it is linked. -/
namespace Filebench

open Linked

inductive FlowForest (n : ℕ) where
  | nil
  | cons (p : Fin n) (inner rest : FlowForest n)

namespace FlowForest

variable {n : ℕ}

def nodes : FlowForest n → List (Fin n)
  | nil => []
  | cons p inner rest => p :: (inner.nodes ++ rest.nodes)

theorem nodes_single (p : Fin n) (inner : FlowForest n) :
    (cons p inner nil).nodes = p :: inner.nodes := by
  rw [nodes, nodes, List.append_nil]

theorem cons_ne_nil (p : Fin n) (inner rest : FlowForest n) : cons p inner rest ≠ nil := nofun

/-- The flowops of the list itself. -/
def tops : FlowForest n → List (Fin n)
  | nil => []
  | cons p _ rest => p :: rest.tops

/-- The inner flowops, at any depth. -/
def deep : FlowForest n → List (Fin n)
  | nil => []
  | cons _ inner rest => inner.nodes ++ rest.deep

def size : FlowForest n → ℕ
  | nil => 0
  | cons _ inner rest => 1 + inner.size + rest.size

def depth : FlowForest n → ℕ
  | nil => 0
  | cons _ inner rest => max (1 + inner.depth) rest.depth

def append : FlowForest n → FlowForest n → FlowForest n
  | nil, G => G
  | cons p inner rest, G => cons p inner (rest.append G)

/-- The first `k` flowops, each before its inner ones and these before the next one. -/
def take : ℕ → FlowForest n → FlowForest n
  | 0, _ => nil
  | _ + 1, nil => nil
  | k + 1, cons p inner rest => cons p (inner.take k) (rest.take (k - inner.size))

theorem length_nodes (F : FlowForest n) : F.nodes.length = F.size := by
  induction F with
  | nil => rfl
  | cons p inner rest ihi ihr =>
    rw [nodes, List.length_cons, List.length_append, ihi, ihr, size]
    omega

theorem nodes_perm (F : FlowForest n) : F.nodes.Perm (F.tops ++ F.deep) := by
  induction F with
  | nil => rfl
  | cons p inner rest _ ih =>
    have hswap : (inner.nodes ++ (rest.tops ++ rest.deep)).Perm
        (rest.tops ++ (inner.nodes ++ rest.deep)) := by
      rw [← List.append_assoc, ← List.append_assoc]
      exact List.perm_append_comm.append_right _
    exact .cons p ((ih.append_left _).trans hswap)

theorem mem_nodes {F : FlowForest n} {p : Fin n} : p ∈ F.nodes ↔ p ∈ F.tops ∨ p ∈ F.deep :=
  F.nodes_perm.mem_iff.trans List.mem_append

theorem tops_subset {F : FlowForest n} {p : Fin n} (h : p ∈ F.tops) : p ∈ F.nodes :=
  mem_nodes.mpr (.inl h)

theorem deep_subset {F : FlowForest n} {p : Fin n} (h : p ∈ F.deep) : p ∈ F.nodes :=
  mem_nodes.mpr (.inr h)

theorem tops_disjoint_deep {F : FlowForest n} (h : F.nodes.Nodup) {p : Fin n} (hp : p ∈ F.tops) :
    p ∉ F.deep :=
  fun hdeep => (List.nodup_append.mp (F.nodes_perm.nodup_iff.mp h)).2.2 p hp p hdeep rfl

@[simp] theorem append_nil (F : FlowForest n) : F.append nil = F := by
  induction F with
  | nil => rfl
  | cons p inner rest _ ih => rw [append, ih]

theorem append_assoc (F G H : FlowForest n) : (F.append G).append H = F.append (G.append H) := by
  induction F with
  | nil => rfl
  | cons p inner rest _ ih => rw [append, append, append, ih]

@[simp] theorem nodes_append (F G : FlowForest n) : (F.append G).nodes = F.nodes ++ G.nodes := by
  induction F with
  | nil => rfl
  | cons p inner rest _ ih => rw [append, nodes, nodes, ih, List.cons_append, List.append_assoc]

@[simp] theorem tops_append (F G : FlowForest n) : (F.append G).tops = F.tops ++ G.tops := by
  induction F with
  | nil => rfl
  | cons p inner rest _ ih => rw [append, tops, tops, ih, List.cons_append]

@[simp] theorem size_append (F G : FlowForest n) : (F.append G).size = F.size + G.size := by
  rw [← length_nodes, nodes_append, List.length_append, length_nodes, length_nodes]

@[simp] theorem take_nil (k : ℕ) : (nil : FlowForest n).take k = nil := by cases k <;> rfl

theorem take_of_size_le {F : FlowForest n} {k : ℕ} (h : F.size ≤ k) : F.take k = F := by
  induction F generalizing k with
  | nil => exact take_nil k
  | cons p inner rest ihi ihr =>
    rw [size] at h
    obtain ⟨k, rfl⟩ : ∃ m, k = m + 1 := ⟨k - 1, by omega⟩
    rw [take, ihi (by omega), ihr (by omega)]

theorem take_append (F G : FlowForest n) (k : ℕ) :
    (F.append G).take k = (F.take k).append (G.take (k - F.size)) := by
  induction F generalizing k with
  | nil => rw [append, take_nil, append, size, Nat.sub_zero]
  | cons p inner rest _ ih =>
    cases k with
    | zero => rw [Nat.zero_sub, append, take, take, take, append]
    | succ k =>
      have hk : k + 1 - (1 + inner.size + rest.size) = k - inner.size - rest.size := by omega
      rw [append, take, take, append, ih, size, hk]

/-- The number of flowops up to the last one of the list itself. -/
def upToLast : FlowForest n → ℕ
  | nil => 0
  | cons _ _ nil => 1
  | cons _ inner rest => 1 + inner.size + rest.upToLast

theorem upToLast_cons {p : Fin n} {inner rest : FlowForest n} (h : rest ≠ nil) :
    (cons p inner rest).upToLast = 1 + inner.size + rest.upToLast := by
  cases rest with
  | nil => exact absurd rfl h
  | cons => rw [upToLast]; nofun

theorem upToLast_le_size (F : FlowForest n) : F.upToLast ≤ F.size := by
  induction F with
  | nil => exact le_rfl
  | cons p inner rest _ ih =>
    rw [size]
    by_cases hr : rest = nil
    · rw [hr, upToLast]
      omega
    · rw [upToLast_cons hr]
      omega

theorem upToLast_pos {F : FlowForest n} (h : F ≠ nil) : 0 < F.upToLast := by
  cases F with
  | nil => exact absurd rfl h
  | cons p inner rest =>
    by_cases hr : rest = nil
    · rw [hr, upToLast]
      exact Nat.one_pos
    · rw [upToLast_cons hr]
      omega

end FlowForest

/-! ## Forests in memory -/

section represents

variable {A : Type} {n : ℕ} {s s' : FlowopShm A n}

/-- The lists of inner flowops. Flowops of the library have none. -/
def Nested (s : FlowopShm A n) : FlowForest n → Prop
  | .nil => True
  | .cons p inner rest =>
    IsList s.execNext (s.compFops p) inner.tops ∧
      ((s.flowop p).foMethods = .library → inner = .nil) ∧ Nested s inner ∧ Nested s rest

structure Represents (s : FlowopShm A n) (h : Option (Fin n)) (F : FlowForest n) : Prop where
  tops : IsList s.execNext h F.tops
  nested : Nested s F

theorem Represents.nil : Represents s none .nil := ⟨rfl, trivial⟩

theorem Represents.cons {h : Option (Fin n)} {p : Fin n} {inner rest : FlowForest n}
    (hr : Represents s h (.cons p inner rest)) :
    h = some p ∧ Represents s (s.compFops p) inner ∧ Represents s (s.execNext p) rest :=
  ⟨hr.tops.1, ⟨hr.nested.1, hr.nested.2.2.1⟩, ⟨hr.tops.2, hr.nested.2.2.2⟩⟩

theorem Represents.unique {h : Option (Fin n)} {F G : FlowForest n} (hF : Represents s h F)
    (hG : Represents s h G) : F = G := by
  induction F generalizing h G with
  | nil =>
    obtain rfl : h = none := hF.tops
    cases G with
    | nil => rfl
    | cons p inner rest => cases hG.cons.1
  | cons p inner rest ihi ihr =>
    obtain ⟨rfl, hinner, hrest⟩ := hF.cons
    cases G with
    | nil => cases hG.tops
    | cons q inner' rest' =>
      obtain ⟨hpq, hinner', hrest'⟩ := hG.cons
      obtain rfl := Option.some.inj hpq
      rw [ihi hinner hinner', ihr hrest hrest']

theorem nested_append {F G : FlowForest n} :
    Nested s (F.append G) ↔ Nested s F ∧ Nested s G := by
  induction F with
  | nil => exact ⟨fun h => ⟨trivial, h⟩, fun h => h.2⟩
  | cons p inner rest _ ih => simp only [FlowForest.append, Nested, ih, and_assoc]

theorem Nested.congr {F : FlowForest n} (h : Nested s F)
    (hcomp : ∀ p ∈ F.nodes, s'.compFops p = s.compFops p)
    (hmethods : ∀ p ∈ F.nodes, (s'.flowop p).foMethods = (s.flowop p).foMethods)
    (hexec : ∀ p ∈ F.deep, s'.execNext p = s.execNext p) : Nested s' F := by
  induction F with
  | nil => trivial
  | cons p inner rest ihi ihr =>
    obtain ⟨hlist, hlib, hinner, hrest⟩ := h
    refine ⟨?_, ?_, ihi hinner ?_ ?_ ?_, ihr hrest ?_ ?_ ?_⟩
    · rw [hcomp p (.head _)]
      exact hlist.congr fun q hq =>
        hexec q (List.mem_append_left _ (FlowForest.tops_subset hq))
    · rw [hmethods p (.head _)]
      exact hlib
    · exact fun q hq => hcomp q (.tail _ (List.mem_append_left _ hq))
    · exact fun q hq => hmethods q (.tail _ (List.mem_append_left _ hq))
    · exact fun q hq => hexec q (List.mem_append_left _ (FlowForest.deep_subset hq))
    · exact fun q hq => hcomp q (.tail _ (List.mem_append_right _ hq))
    · exact fun q hq => hmethods q (.tail _ (List.mem_append_right _ hq))
    · exact fun q hq => hexec q (List.mem_append_right _ hq)

theorem Represents.congr {h : Option (Fin n)} {F : FlowForest n} (hr : Represents s h F)
    (hflowop : ∀ p ∈ F.nodes, s'.flowop p = s.flowop p) : Represents s' h F := by
  constructor
  · refine hr.tops.congr fun p hp => ?_
    rw [FlowopShm.execNext, hflowop p (FlowForest.tops_subset hp)]
    rfl
  · refine hr.nested.congr ?_ ?_ ?_
    · intro p hp
      rw [FlowopShm.compFops, hflowop p hp]
      rfl
    · intro p hp
      rw [hflowop p hp]
    · intro p hp
      rw [FlowopShm.execNext, hflowop p (FlowForest.deep_subset hp)]
      rfl

end represents

end Filebench

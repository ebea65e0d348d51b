import Mathlib.Combinatorics.SimpleGraph.Acyclic

/-! # Travelling away from a source in a graph without cycles

`Reaches G o a b k` says that something that started at `o` can stand at `a`, after `k` edges, without
having met `b`. In an acyclic graph this decides the last step: a vertex is reached from one
neighbour only, and whoever goes on without turning back keeps moving away from `o`.
`reachable_induction` is the induction along the way from `o`. Where there is a cycle, `path_of_isCycle`
gives two ways from a vertex to a neighbour.
-/

namespace Foundations
set_option autoImplicit false
set_option maxHeartbeats 250000
open SimpleGraph

variable {V : Type} {G : SimpleGraph V}

def Reaches (G : SimpleGraph V) (o a b : V) (k : ℕ) : Prop :=
  ∃ p : G.Walk o a, p.IsPath ∧ b ∉ p.support ∧ p.length = k

theorem Reaches.start {a b : V} (h : G.Adj a b) : Reaches G a a b 0 := by
  refine ⟨.nil, Walk.IsPath.nil, ?_, rfl⟩
  rw [Walk.support_nil, List.mem_singleton]
  exact h.ne'

theorem Reaches.source_ne {o a b : V} {k : ℕ} (h : Reaches G o a b k) : o ≠ b := by
  obtain ⟨p, _, hb, _⟩ := h
  rintro rfl
  exact hb p.start_mem_support

/-- Going on to another neighbour. -/
theorem Reaches.next (hG : G.IsAcyclic) {o a b c : V} {k : ℕ} (h : Reaches G o a b k)
    (hab : G.Adj a b) (hbc : G.Adj b c) (hca : c ≠ a) : Reaches G o b c (k + 1) := by
  obtain ⟨p, hp, hb, hk⟩ := h
  have hq := hp.concat hb hab
  refine ⟨p.concat hab, hq, fun hc => hca ?_, ?_⟩
  · rw [hG.eq_penultimate_of_adj_end hq hbc hc, Walk.penultimate_concat]
  · rw [Walk.length_concat, hk]

/-- There is one neighbour from which a vertex is reached. -/
theorem Reaches.unique (hG : G.IsAcyclic) {o a a' b : V} {k k' : ℕ} (h : Reaches G o a b k)
    (hab : G.Adj a b) (h' : Reaches G o a' b k') (hab' : G.Adj a' b) : a = a' := by
  obtain ⟨p, hp, hb, _⟩ := h
  obtain ⟨p', hp', hb', _⟩ := h'
  have hu := (hG.subsingleton_path o b).elim ⟨p.concat hab, hp.concat hb hab⟩
    ⟨p'.concat hab', hp'.concat hb' hab'⟩
  have hpen := congrArg (fun q : G.Path o b => q.1.penultimate) hu
  simpa only [Walk.penultimate_concat] using hpen

/-- The last step of a path. -/
theorem reaches_of_isPath {o b : V} {p : G.Walk o b} (hp : p.IsPath) (hob : o ≠ b) :
    ∃ a j, p.length = j + 1 ∧ G.Adj a b ∧ Reaches G o a b j := by
  have hnil : ¬ p.Nil := fun hn => hob hn.eq
  have hadj := p.adj_penultimate hnil
  have hcat := Walk.concat_dropLast (p := p) hadj
  have hlen : p.length = p.dropLast.length + 1 := by
    conv_lhs => rw [← hcat]
    exact Walk.length_concat _ _
  rw [← hcat] at hp
  obtain ⟨hd, hnot⟩ := (Walk.concat_isPath_iff hadj).mp hp
  exact ⟨p.penultimate, p.dropLast.length, hlen, hadj, p.dropLast, hd, hnot, rfl⟩

/-- The step before. -/
theorem Reaches.back {o a b : V} {k : ℕ} (h : Reaches G o a b k) (hoa : o ≠ a) :
    ∃ x j, k = j + 1 ∧ G.Adj x a ∧ Reaches G o x a j := by
  obtain ⟨p, hp, _, hk⟩ := h
  obtain ⟨x, j, hj, hxa, hreach⟩ := reaches_of_isPath hp hoa
  exact ⟨x, j, hk.symm.trans hj, hxa, hreach⟩

/-- An edge is travelled in one direction only. -/
theorem Reaches.asymm (hG : G.IsAcyclic) {o a b : V} {k k' : ℕ} (h : Reaches G o a b k)
    (hab : G.Adj a b) (h' : Reaches G o b a k') : False := by
  obtain ⟨p, hp, hb, _⟩ := h
  obtain ⟨q, hq, ha, _⟩ := h'
  have hu := (hG.subsingleton_path o b).elim ⟨p.concat hab, hp.concat hb hab⟩ ⟨q, hq⟩
  have hsupp : q.support = (p.concat hab).support :=
    congrArg (fun r : G.Path o b => r.1.support) hu.symm
  apply ha
  rw [hsupp, Walk.support_concat]
  exact List.mem_append_left _ p.end_mem_support

theorem Reaches.reachable {o a b : V} {k : ℕ} (h : Reaches G o a b k) : G.Reachable o a := by
  obtain ⟨p, _⟩ := h
  exact p.reachable

/-- A cycle is a path between two neighbours of its base, which it does not meet. -/
theorem path_of_isCycle {v : V} {c : G.Walk v v} (hc : c.IsCycle) :
    ∃ u w, ∃ q : G.Walk u w, G.Adj v u ∧ G.Adj v w ∧ u ≠ w ∧ q.IsPath ∧ v ∉ q.support ∧
      ∀ x ∈ q.support, x ∈ c.support := by
  cases c with
  | nil => exact absurd rfl hc.ne_nil
  | @cons _ u _ h p =>
    obtain ⟨hp, hnot⟩ := (Walk.cons_isCycle_iff p h).mp hc
    have hnil : ¬ p.Nil := fun hn => h.ne hn.eq.symm
    obtain ⟨w, q, hadj, rfl⟩ : ∃ w, ∃ q : G.Walk u w, ∃ hadj : G.Adj w v, q.concat hadj = p :=
      ⟨_, p.dropLast, p.adj_penultimate hnil, Walk.concat_dropLast _⟩
    obtain ⟨hq, hv⟩ := (Walk.concat_isPath_iff hadj).mp hp
    refine ⟨u, w, q, h, hadj.symm, ?_, hq, hv, fun x hx => ?_⟩
    · rintro rfl
      apply hnot
      rw [Walk.edges_concat, Sym2.eq_swap, List.concat_eq_append]
      exact List.mem_concat_self
    · rw [Walk.support_cons, Walk.support_concat]
      exact List.mem_cons_of_mem _ (List.mem_append_left _ hx)

/-- What holds at the source, and goes along with every edge away from it, holds wherever the source
reaches. -/
theorem reachable_induction {o : V} {P : V → Prop} (hsource : P o)
    (hstep : ∀ a b k, G.Adj a b → Reaches G o a b k → P a → P b) {b : V} (h : G.Reachable o b) :
    P b := by
  obtain ⟨p, hp⟩ := h.exists_isPath
  generalize hk : p.length = k
  induction k generalizing b with
  | zero =>
    obtain rfl := Walk.eq_of_length_eq_zero hk
    exact hsource
  | succ k ih =>
    have hob : o ≠ b := by
      rintro rfl
      have hnil := Walk.length_eq_zero_iff.mpr (Walk.isPath_iff_nil.mp hp)
      omega
    obtain ⟨a, j, hj, hab, q, hq, hb, hlen⟩ := reaches_of_isPath hp hob
    have hqk : q.length = k := by omega
    exact hstep a b j hab ⟨q, hq, hb, hlen⟩ (ih q.reachable q hq hqk)

end Foundations

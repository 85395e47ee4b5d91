import Mathlib.Algebra.BigOperators.Group.Finset.Piecewise
import Mathlib.Algebra.GroupWithZero.Nat
import Mathlib.Algebra.Order.BigOperators.Group.Finset
import Mathlib.Data.Fintype.Card
import OsLabs.Runs.Schedule

/-!
# Pools of processes over one shared state

Every process has a local state of its own and runs the same program: a partial function
of the shared state, the local state and an input of the environment. An action of the
pool names the process that moves; its events are tagged with it.

`count` is the number of processes whose local state satisfies a test. One process
moves at a time, so `count_update` is all that an invariant needs to follow it.
-/

namespace OsLabs.Runs

variable {τ σ ω ι ε : Type}

/-- The processes of small pools have numbers. -/
instance neZero_one : NeZero 1 := ⟨Nat.one_ne_zero⟩

instance neZero_two : NeZero 2 := ⟨Nat.succ_ne_zero 1⟩

/-- The shared state and the local states of all processes. -/
structure Conf (τ σ ω : Type) where
  shared : σ
  procs : τ → ω

/-- The step of the pool in which process `a.1` moves with the input `a.2`. -/
def poolStep [DecidableEq τ] (step : σ → ω → ι → Option (σ × ω × List ε))
    (c : Conf τ σ ω) (a : τ × ι) : Option (Conf τ σ ω × List (τ × ε)) :=
  match step c.shared (c.procs a.1) a.2 with
  | none => none
  | some (sh, w, es) => some (⟨sh, Function.update c.procs a.1 w⟩, es.map (Prod.mk a.1))

theorem poolStep_eq_some [DecidableEq τ] {step : σ → ω → ι → Option (σ × ω × List ε)}
    {c c' : Conf τ σ ω} {a : τ × ι} {es : List (τ × ε)}
    (h : poolStep step c a = some (c', es)) :
    ∃ sh w own, step c.shared (c.procs a.1) a.2 = some (sh, w, own) ∧
      c' = ⟨sh, Function.update c.procs a.1 w⟩ ∧ es = own.map (Prod.mk a.1) := by
  unfold poolStep at h
  split at h
  · cases h
  · next sh w own hStep =>
    cases h
    exact ⟨sh, w, own, hStep, rfl, rfl⟩

theorem poolStep_eq_none [DecidableEq τ] {step : σ → ω → ι → Option (σ × ω × List ε)}
    {c : Conf τ σ ω} {a : τ × ι} :
    poolStep step c a = none ↔ step c.shared (c.procs a.1) a.2 = none := by
  unfold poolStep
  split
  · next hNone => simp [hNone]
  · next hSome => simp [hSome]

/-- The induction rule for pools: it is enough to follow the one process that moves. -/
theorem pool_invariant [DecidableEq τ] {step : σ → ω → ι → Option (σ × ω × List ε)}
    {P : Conf τ σ ω → List (τ × ε) → Prop} {c : Conf τ σ ω} (hStart : P c [])
    (hStep : ∀ c h t i sh w es, P c h → step c.shared (c.procs t) i = some (sh, w, es) →
      P ⟨sh, Function.update c.procs t w⟩ (h ++ es.map (Prod.mk t)))
    (sched : List (τ × ι)) :
    P (run (poolStep step) c sched).1 (run (poolStep step) c sched).2 := by
  refine run_invariant hStart ?_ sched
  intro c h a c' es hP hEnabled
  obtain ⟨sh, w, own, hMove, rfl, rfl⟩ := poolStep_eq_some hEnabled
  exact hStep c h a.1 a.2 sh w own hP hMove

/-- The events of a pool without the processes they belong to. -/
theorem map_snd_append (h : List (τ × ε)) (t : τ) (es : List ε) :
    (h ++ es.map (Prod.mk t)).map Prod.snd = h.map Prod.snd ++ es := by
  simp [Function.comp_def]

/-! ## What one process sees -/

/-- The events of process `t` in a history. -/
def own [DecidableEq τ] (t : τ) (h : List (τ × ε)) : List ε :=
  h.filterMap fun e => if e.1 = t then some e.2 else none

theorem own_append_self [DecidableEq τ] (t : τ) (h : List (τ × ε)) (es : List ε) :
    own t (h ++ es.map (Prod.mk t)) = own t h ++ es := by
  simp [own, List.filterMap_append, List.filterMap_map]

theorem own_append_ne [DecidableEq τ] {t u : τ} (hne : t ≠ u) (h : List (τ × ε))
    (es : List ε) : own u (h ++ es.map (Prod.mk t)) = own u h := by
  simp [own, List.filterMap_append, List.filterMap_map, hne]

/-- A relation between the local state and the own events of a process holds of every
process if each step keeps it, whatever the shared state. -/
theorem local_invariant [DecidableEq τ] {step : σ → ω → ι → Option (σ × ω × List ε)}
    {Q : ω → List ε → Prop} {c : Conf τ σ ω} (hStart : ∀ t, Q (c.procs t) [])
    (hStep : ∀ sh w i sh' w' es h, Q w h → step sh w i = some (sh', w', es) → Q w' (h ++ es))
    (sched : List (τ × ι)) (t : τ) :
    Q ((run (poolStep step) c sched).1.procs t) (own t (run (poolStep step) c sched).2) := by
  refine pool_invariant (P := fun c h => ∀ t, Q (c.procs t) (own t h)) hStart ?_ sched t
  intro c h u i sh w es hAll hMove v
  by_cases hv : u = v
  · subst hv
    simp only [own_append_self, Function.update_self]
    exact hStep _ _ _ _ _ _ _ (hAll u) hMove
  · simp only [own_append_ne hv, Function.update_of_ne (Ne.symm hv)]
    exact hAll v

/-! ## Counting processes -/

variable [Fintype τ] (p : ω → Prop) [DecidablePred p]

/-- The number of processes whose local state satisfies `p`. -/
def count (procs : τ → ω) : Nat :=
  (Finset.univ.filter fun t => p (procs t)).card

theorem count_eq_sum (procs : τ → ω) :
    count p procs = ∑ t, if p (procs t) then 1 else 0 :=
  Finset.card_filter _ _

/-- Moving process `t` to `w` changes only its own contribution. -/
theorem count_update [DecidableEq τ] (procs : τ → ω) (t : τ) (w : ω) :
    count p (Function.update procs t w) + (if p (procs t) then 1 else 0) =
      count p procs + (if p w then 1 else 0) := by
  have hOld := Finset.add_sum_erase Finset.univ (fun u => if p (procs u) then 1 else 0)
    (Finset.mem_univ t)
  have hNew := Finset.add_sum_erase Finset.univ
    (fun u => if p (Function.update procs t w u) then 1 else 0) (Finset.mem_univ t)
  have hRest : ∑ u ∈ Finset.univ.erase t, (if p (Function.update procs t w u) then 1 else 0) =
      ∑ u ∈ Finset.univ.erase t, if p (procs u) then 1 else 0 := by
    refine Finset.sum_congr rfl fun u hu => ?_
    rw [Function.update_of_ne (Finset.ne_of_mem_erase hu)]
  rw [hRest, Function.update_self] at hNew
  rw [count_eq_sum, count_eq_sum]
  omega

theorem le_count (procs : τ → ω) (t : τ) : (if p (procs t) then 1 else 0) ≤ count p procs := by
  rw [count_eq_sum]
  exact Finset.single_le_sum (f := fun u => if p (procs u) then 1 else 0)
    (fun _ _ => Nat.zero_le _) (Finset.mem_univ t)

variable {p}

theorem two_le_count {procs : τ → ω} {t u : τ} (hne : t ≠ u) (ht : p (procs t))
    (hu : p (procs u)) : 2 ≤ count p procs := by
  refine Finset.one_lt_card.mpr ⟨t, ?_, u, ?_, hne⟩
  · exact Finset.mem_filter.mpr ⟨Finset.mem_univ t, ht⟩
  · exact Finset.mem_filter.mpr ⟨Finset.mem_univ u, hu⟩

theorem count_eq_zero {procs : τ → ω} : count p procs = 0 ↔ ∀ t, ¬ p (procs t) := by
  simp [count, Finset.filter_eq_empty_iff]

end OsLabs.Runs

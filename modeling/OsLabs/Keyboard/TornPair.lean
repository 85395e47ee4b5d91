import OsLabs.Keyboard.Workqueue

/-!
# The name and the code of one key

A function of the work queue reads the code twice, and a handler may store another one in
between, most likely while `work2_fn` sleeps. Then the name that is recorded belongs to the
first code and the code is the second one. If that does not happen and the functions run one
at a time, then the record is one key's whenever no function is running.
-/

namespace OsLabs.Keyboard.Workqueue

open Runs Deferred

/-- The state of the module. -/
abbrev Module := State Item (BitVec 32) Record (At Reading)

/-- A function runs only while the other one does not. -/
def OneAtATime (s : Module) : Action Item Interrupt → Prop
  | .work k => ∀ j, j ≠ k → s.running j = none
  | .interrupt _ | .handle => True

/-- The `press_code` of a function that has still to read the code. -/
def halfRead : Option (At Reading) → Option Nat
  | some (.before (.sleep press)) | some (.before (.code press)) => some press
  | _ => none

/-- The handler does not give the code of a key with another name to an item whose function
is between its two reads. -/
def Undisturbed (s : Module) : Action Item Interrupt → Prop
  | .handle =>
    match s.handler with
    | some (v, .store k :: _) =>
      ∀ press ∈ halfRead (s.running k), lookup ascii (pressCode v) = lookup ascii press
    | _ => True
  | .interrupt _ | .work _ => True

instance (s : Module) : ∀ a, Decidable (OneAtATime s a)
  | .work k => inferInstanceAs (Decidable (∀ j, j ≠ k → s.running j = none))
  | .interrupt _ | .handle => inferInstanceAs (Decidable True)

instance (s : Module) : ∀ a, Decidable (Undisturbed s a)
  | .handle =>
    match h : s.handler with
    | some (v, .store k :: rest) =>
      decidable_of_iff
        (∀ press ∈ halfRead (s.running k), lookup ascii (pressCode v) = lookup ascii press)
        (by simp only [Undisturbed, h])
    | some (v, .queue k :: rest) => isTrue (by simp only [Undisturbed, h])
    | some (v, []) => isTrue (by simp only [Undisturbed, h])
    | none => isTrue (by simp only [Undisturbed, h])
  | .interrupt _ | .work _ => inferInstanceAs (Decidable True)

/-- When no function is running, the name is that of the code, if there is one. -/
def Matching (s : Module) : Prop :=
  (∀ k, s.running k = none) → s.result.code ≠ -1 → s.result.name = keyName ascii s.result.code

/-! ## Runs without disturbance -/

/-- The record of one key, or the initial one. -/
def OneKey (r : Record) : Prop := r = .init ∨ r = ⟨r.code, keyName ascii r.code⟩

/-- What a running function has done so far. -/
def Stage (code : BitVec 32) (r : Record) : At Reading → Prop
  | .before b => OneKey r ∧ b.Knows fun press => lookup ascii press = lookup ascii (pressCode code)
  | .recording pc l =>
    Fresh ascii l.code l pc ∧ ∀ place, Right ascii l.code r place ∨ Todo pc place

structure Paired (s : Module) : Prop where
  atRest : (∀ k, s.running k = none) → OneKey s.result
  alone : ∀ k w, s.running k = some w → ∀ j, j ≠ k → s.running j = none
  stage : ∀ k w, s.running k = some w → Stage (s.cell k) s.result w

theorem Paired.matching {s : Module} (h : Paired s) : Matching s := by
  intro hRest hCode
  rcases h.atRest hRest with hInit | hPair
  · rw [hInit] at hCode
    exact absurd rfl hCode
  · exact congrArg Record.name hPair

theorem knows_of_halfRead {b : Reading} {Q : Nat → Prop}
    (h : ∀ press, halfRead (some (.before b)) = some press → Q press) : b.Knows Q := by
  cases b with
  | press => trivial
  | sleep press => exact h press rfl
  | code press => exact h press rfl

/-- One statement of the only running function. -/
theorem stage_step {sleeps : Bool} {code : BitVec 32} {r r' : Record} {w : At Reading}
    {next : Option (At Reading)} {es : List Event} (h : Stage code r w)
    (hStep : body ascii (fetch sleeps) code r w = (r', next, es)) :
    (∀ w', next = some w' → Stage code r' w') ∧ (next = none → OneKey r') := by
  obtain ⟨b, b', rfl, hFetch, rfl, rfl, -⟩ | ⟨b, found, press, rfl, hFetch, rfl, rfl, -⟩ |
    ⟨pc, l, next, rfl, hRecord, rfl⟩ := body_cases hStep
  · refine ⟨?_, fun hNone => nomatch hNone⟩
    rintro w' ⟨⟩
    exact ⟨h.1, fetch_next h.2 rfl hFetch⟩
  · refine ⟨?_, fun hNone => nomatch hNone⟩
    rintro w' ⟨⟩
    obtain ⟨rfl, rfl⟩ := fetch_found hFetch
    exact ⟨⟨rfl, h.2, trivial⟩, fun _ => Or.inr trivial⟩
  · obtain ⟨hFresh, hPlaces⟩ := h
    have hNext : ∀ place, Right ascii l.code r' place ∨
        ∃ pc' l', next = some (pc', l') ∧ Todo pc' place := by
      intro place
      rcases hPlaces place with hRight | hTodo
      · exact Or.inl (record_right hFresh hRecord hRight)
      · exact record_todo hFresh hRecord hTodo
    constructor
    · intro w' hw'
      obtain ⟨⟨pc', l'⟩, rfl, rfl⟩ := Option.map_eq_some_iff.mp hw'
      have hFresh' := record_fresh hFresh hRecord
      have hSame : l'.code = l.code := hFresh'.code
      rw [← hSame] at hFresh' hNext
      refine ⟨hFresh', fun place => (hNext place).imp_right ?_⟩
      rintro ⟨pc₁, l₁, hNext', hTodo⟩
      cases hNext'
      exact hTodo
    · intro hNone
      rw [Option.map_eq_none_iff] at hNone
      have hRight : r' = ⟨l.code, keyName ascii l.code⟩ := by
        rw [← right_iff]
        intro place
        refine (hNext place).resolve_right ?_
        rintro ⟨pc', l', hSome, -⟩
        rw [hNone] at hSome
        cases hSome
      refine Or.inr ?_
      rw [hRight]

/-- A step that leaves the functions and the record alone. -/
theorem Paired.keep {s s' : Module} (h : Paired s) (hRunning : s'.running = s.running)
    (hResult : s'.result = s.result)
    (hStage : ∀ k w, s.running k = some w → Stage (s'.cell k) s.result w) : Paired s' := by
  refine ⟨?_, ?_, ?_⟩
  · rw [hRunning, hResult]
    exact h.atRest
  · rw [hRunning]
    exact h.alone
  · rw [hRunning, hResult]
    exact hStage

theorem Paired.store {s : Module} (h : Paired s) {v : BitVec 32} {k : Item}
    {rest : List (Order Item)} (hHandler : s.handler = some (v, .store k :: rest))
    (hCalm : Undisturbed s .handle) :
    Paired { s with handler := some (v, rest), cell := Function.update s.cell k v } := by
  refine h.keep rfl rfl ?_
  intro j w hw
  have hStage := h.stage j w hw
  by_cases hj : j = k
  · subst hj
    show Stage (Function.update s.cell j v j) s.result w
    rw [Function.update_self]
    cases w with
    | before b =>
      refine ⟨hStage.1, knows_of_halfRead fun press hPress => ?_⟩
      rw [Undisturbed, hHandler] at hCalm
      exact (hCalm press (by rw [hw, hPress]; rfl)).symm
    | recording pc l => exact hStage
  · show Stage (Function.update s.cell k v j) s.result w
    rw [Function.update_of_ne hj]
    exact hStage

/-- The only running function goes on, or a function starts while the other is at rest. -/
theorem Paired.run {s s' : Module} {k : Item} {next : Option (At Reading)}
    (hOthers : ∀ j, j ≠ k → s.running j = none) (hCell : s'.cell = s.cell)
    (hRunning : s'.running = Function.update s.running k next)
    (hStage : ∀ w, next = some w → Stage (s.cell k) s'.result w)
    (hRest : next = none → OneKey s'.result) : Paired s' := by
  have hSelf : s'.running k = next := by rw [hRunning, Function.update_self]
  have hOther : ∀ j, j ≠ k → s'.running j = none := by
    intro j hj
    rw [hRunning, Function.update_of_ne hj]
    exact hOthers j hj
  have hOnly : ∀ j w, s'.running j = some w → j = k := by
    intro j w hw
    by_contra hj
    rw [hOther j hj] at hw
    cases hw
  refine ⟨?_, ?_, ?_⟩
  · intro hAll
    apply hRest
    rw [← hSelf]
    exact hAll k
  · intro j w hw
    rw [hOnly j w hw]
    exact hOther
  · intro j w hw
    obtain rfl := hOnly j w hw
    rw [hCell]
    exact hStage w (hSelf.symm.trans hw)

theorem Paired.step {s s' : Module} {a : Action Item Interrupt}
    {es : List (Deferred.Event Item Interrupt Event)} (h : Paired s) (hAlone : OneAtATime s a)
    (hCalm : Undisturbed s a) (hMoves : Moves irqHandler s a s' es) : Paired s' := by
  cases hMoves with
  | reject i => exact h
  | accept i v _ _ => exact h.keep rfl rfl h.stage
  | leave v _ => exact h.keep rfl rfl h.stage
  | store v k rest hHandler => exact h.store hHandler hCalm
  | queue v k rest _ => exact h.keep rfl rfl h.stage
  | start k hIdle hPending =>
    refine Paired.run hAlone rfl rfl ?_ (fun hNone => nomatch hNone)
    rintro w ⟨⟩
    refine ⟨h.atRest fun j => ?_, trivial⟩
    by_cases hj : j = k
    · rw [hj]
      exact hIdle
    · exact hAlone j hj
  | work k w r' next es hRunning hStep =>
    rw [step_eq] at hStep
    obtain ⟨hStage, hRest⟩ := stage_step (h.stage k w hRunning) hStep
    exact Paired.run hAlone rfl rfl hStage hRest

/-- In every run in which the functions run one at a time, and no code of another key is
stored between the two reads of a function, the name and the code match. -/
theorem pair_matches (code : Item → BitVec 32) (sched : List (Action Item Interrupt))
    (hAlong : Along (step irqHandler) (fun s a => OneAtATime s a ∧ Undisturbed s a)
      (.init code .init) sched) :
    Matching (execute code sched).1 := by
  apply Paired.matching
  refine run_invariant_along (P := fun s _ => Paired s) ?_ ?_ hAlong
  · refine ⟨fun _ => Or.inl rfl, ?_, ?_⟩
    · intro k w hw
      cases hw
    · intro k w hw
      cases hw
  · rintro s h a s' es hPaired ⟨hAlone, hCalm⟩ hEnabled
    exact hPaired.step hAlone hCalm (moves_of_step hEnabled)

/-! ## The key Q, and then the key W -/

/-- The key Q is released, and `work1_fn` runs, and `work2_fn` up to its sleep. -/
def releaseQ : List (Action Item Interrupt) :=
  .interrupt ⟨IRQ_NUM, 144⟩ :: List.replicate 5 .handle ++ List.replicate 26 (.work .work1) ++
    List.replicate 2 (.work .work2)

/-- `work2_fn` from its sleep to its end. -/
def wakeUp : List (Action Item Interrupt) := List.replicate 25 (.work .work2)

/-- The key W is released while `work2_fn` sleeps. -/
def torn : List (Action Item Interrupt) :=
  releaseQ ++ .interrupt ⟨IRQ_NUM, 145⟩ :: List.replicate 2 .handle ++ wakeUp

theorem pair_matches_calm : (execute (fun _ => 0) (releaseQ ++ wakeUp)).1.result.name =
    keyName ascii 144 := by
  have hMatching := pair_matches (fun _ => 0) (releaseQ ++ wakeUp) (by decide +kernel)
  have hCode : (execute (fun _ => 0) (releaseQ ++ wakeUp)).1.result.code = 144 := by
    decide +kernel
  rw [hMatching (by decide +kernel) (by rw [hCode]; decide), hCode]

theorem not_matching_torn : ¬ ∀ code sched,
    Along (step irqHandler) OneAtATime (.init code .init) sched →
      Matching (execute code sched).1 := by
  intro h
  have hMatching := h (fun _ => 0) torn (by decide +kernel)
  have hName := congrFun (hMatching (by decide +kernel) (by decide +kernel)) 0
  revert hName
  decide +kernel

end OsLabs.Keyboard.Workqueue

import OsLabs.Runs.Schedule

/-!
# Deferred work

An interrupt handler passes a value on to work items. It stores the value in a cell of each
item and schedules the items, one statement at a time, and the functions of the items run
later, or at the same time, statement by statement as well. Scheduling an item sets its
pending mark, which is cleared before its function starts, and a function does not run twice
at a time. Another interrupt may find items pending or in the middle of their functions, and
overwrites their cells.

`Delivers` says of the functions that one which has seen a single value leaves the right
result for it. Then the result is right for the last value whenever nothing is left to do
(`result_of_quiet`). For, an item that has seen an older value is scheduled once more, and
where the result is not yet right, an item is still going to write.
-/

namespace OsLabs.Runs.Deferred

/-- A statement of the handler. -/
inductive Order (ι : Type) where
  | store (k : ι)
  | queue (k : ι)
deriving DecidableEq

variable {ι I V R W E L : Type}

/-- What the handler does with an interrupt, and the functions of the items. A function makes
one statement at a time, with the value in the cell of its item, until it returns. -/
structure Program (ι I V R W E : Type) where
  accept : I → Option V
  orders : List (Order ι)
  start : ι → W
  step : ι → V → R → W → R × Option W × List E

structure State (ι V R W : Type) where
  handler : Option (V × List (Order ι))
  cell : ι → V
  pending : ι → Bool
  running : ι → Option W
  result : R

inductive Action (ι I : Type) where
  | interrupt (i : I)
  | handle
  | work (k : ι)
deriving DecidableEq

inductive Event (ι I E : Type) where
  | accepted (i : I)
  | did (k : ι) (e : E)

def State.init (cell : ι → V) (r : R) : State ι V R W where
  handler := none
  cell := cell
  pending := fun _ => false
  running := fun _ => none
  result := r

def step [DecidableEq ι] (P : Program ι I V R W E) (s : State ι V R W) :
    Action ι I → Option (State ι V R W × List (Event ι I E))
  | .interrupt i =>
    match s.handler with
    | some _ => none
    | none =>
      match P.accept i with
      | none => some (s, [])
      | some v => some ({ s with handler := some (v, P.orders) }, [.accepted i])
  | .handle =>
    match s.handler with
    | none => none
    | some (_, []) => some ({ s with handler := none }, [])
    | some (v, .store k :: rest) =>
      some ({ s with handler := some (v, rest), cell := Function.update s.cell k v }, [])
    | some (v, .queue k :: rest) =>
      some ({ s with handler := some (v, rest), pending := Function.update s.pending k true }, [])
  | .work k =>
    match s.running k with
    | some w =>
      match P.step k (s.cell k) s.result w with
      | (r, next, es) =>
        some ({ s with result := r, running := Function.update s.running k next },
          es.map (.did k))
    | none =>
      if s.pending k then
        some ({ s with
          pending := Function.update s.pending k false
          running := Function.update s.running k (some (P.start k)) }, [])
      else none

/-- The last interrupt that was accepted. -/
def lastAccepted (h : List (Event ι I E)) : Option I :=
  (h.filterMap fun
    | .accepted i => some i
    | .did _ _ => none).getLast?

/-- No handler is at work, and no item is pending or running. -/
structure State.Quiet (s : State ι V R W) : Prop where
  handler : s.handler = none
  pending : ∀ k, s.pending k = false
  running : ∀ k, s.running k = none

namespace State

/-- The statements that the handler still has to make. -/
def remaining (s : State ι V R W) : List (Order ι) :=
  match s.handler with
  | none => []
  | some (_, rest) => rest

/-- The function of the item is going to start again. -/
def Due (s : State ι V R W) (k : ι) : Prop := s.pending k = true ∨ .queue k ∈ s.remaining

end State

/-- What a step can be. -/
inductive Moves [DecidableEq ι] (P : Program ι I V R W E) (s : State ι V R W) :
    Action ι I → State ι V R W → List (Event ι I E) → Prop where
  | reject (i : I) : Moves P s (.interrupt i) s []
  | accept (i : I) (v : V) (hIdle : s.handler = none) (hAccept : P.accept i = some v) :
      Moves P s (.interrupt i) { s with handler := some (v, P.orders) } [.accepted i]
  | leave (v : V) (hHandler : s.handler = some (v, [])) :
      Moves P s .handle { s with handler := none } []
  | store (v : V) (k : ι) (rest : List (Order ι))
      (hHandler : s.handler = some (v, .store k :: rest)) :
      Moves P s .handle { s with handler := some (v, rest), cell := Function.update s.cell k v } []
  | queue (v : V) (k : ι) (rest : List (Order ι))
      (hHandler : s.handler = some (v, .queue k :: rest)) :
      Moves P s .handle
        { s with handler := some (v, rest), pending := Function.update s.pending k true } []
  | start (k : ι) (hIdle : s.running k = none) (hPending : s.pending k = true) :
      Moves P s (.work k) { s with
        pending := Function.update s.pending k false
        running := Function.update s.running k (some (P.start k)) } []
  | work (k : ι) (w : W) (r : R) (next : Option W) (es : List E) (hRunning : s.running k = some w)
      (hStep : P.step k (s.cell k) s.result w = (r, next, es)) :
      Moves P s (.work k) { s with result := r, running := Function.update s.running k next }
        (es.map (.did k))

theorem moves_of_step [DecidableEq ι] {P : Program ι I V R W E} {s s' : State ι V R W}
    {a : Action ι I} {es : List (Event ι I E)} (h : step P s a = some (s', es)) :
    Moves P s a s' es := by
  cases a with
  | interrupt i =>
    simp only [step] at h
    split at h
    · cases h
    · next hIdle =>
      split at h
      · cases h
        exact .reject i
      · next v hAccept =>
        cases h
        exact .accept i v hIdle hAccept
  | handle =>
    simp only [step] at h
    split at h
    · cases h
    · next v hHandler =>
      cases h
      exact .leave v hHandler
    · next v k rest hHandler =>
      cases h
      exact .store v k rest hHandler
    · next v k rest hHandler =>
      cases h
      exact .queue v k rest hHandler
  | work k =>
    simp only [step] at h
    split at h
    · next w hRunning =>
      cases h
      exact .work k w _ _ _ hRunning rfl
    · next hIdle =>
      split at h
      · next hPending =>
        cases h
        exact .start k hIdle hPending
      · cases h

/-! ## Orders -/

/-- After every store, the item is scheduled. -/
def Ordered : List (Order ι) → Prop
  | [] => True
  | .store k :: rest => .queue k ∈ rest ∧ Ordered rest
  | .queue _ :: rest => Ordered rest

theorem Ordered.queue_mem {orders : List (Order ι)} (h : Ordered orders) {k : ι}
    (hStore : .store k ∈ orders) : .queue k ∈ orders := by
  induction orders with
  | nil => cases hStore
  | cons o rest ih =>
    cases o with
    | store j =>
      rcases List.mem_cons.mp hStore with hHead | hRest
      · cases hHead
        exact List.mem_cons_of_mem _ h.1
      · exact List.mem_cons_of_mem _ (ih h.2 hRest)
    | queue j =>
      rcases List.mem_cons.mp hStore with hHead | hRest
      · cases hHead
      · exact List.mem_cons_of_mem _ (ih h hRest)

/-! ## The result -/

section Result

variable (P : Program ι I V R W E)

/-- The part `l` of the result is the right one for a value. `Fresh v k w`: all that the
function has read so far is `v`. `Todo k w l`: it has not yet written that part. -/
structure Delivers (Right : V → R → L → Prop) (Fresh : V → ι → W → Prop)
    (Todo : ι → W → L → Prop) : Prop where
  start_fresh : ∀ v k, Fresh v k (P.start k)
  start_todo : ∀ k l, Todo k (P.start k) l
  step_fresh : ∀ v k r w r' w' es, Fresh v k w → P.step k v r w = (r', some w', es) → Fresh v k w'
  step_todo : ∀ v k r w r' next es l, Fresh v k w → P.step k v r w = (r', next, es) →
    Todo k w l → Right v r' l ∨ ∃ w', next = some w' ∧ Todo k w' l
  step_right : ∀ v k r w r' next es l, Fresh v k w → P.step k v r w = (r', next, es) →
    Right v r l → Right v r' l

/-- Every item gets the value and is then scheduled, and there is one. -/
structure Complete (orders : List (Order ι)) : Prop where
  ordered : Ordered orders
  store_mem : ∀ k, .store k ∈ orders
  nonempty : Nonempty ι

variable {P} {Right : V → R → L → Prop} {Fresh : V → ι → W → Prop} {Todo : ι → W → L → Prop}

/-- An item is going to write the part `l` with the value `v`. -/
def Coming (Fresh : V → ι → W → Prop) (Todo : ι → W → L → Prop) (v : V) (s : State ι V R W)
    (l : L) (k : ι) : Prop :=
  s.Due k ∨ ∃ w, s.running k = some w ∧ Fresh v k w ∧ Todo k w l

/-- Everything is under way for the value `v`. -/
structure Chases (Right : V → R → L → Prop) (Fresh : V → ι → W → Prop) (Todo : ι → W → L → Prop)
    (v : V) (s : State ι V R W) : Prop where
  value : ∀ u rest, s.handler = some (u, rest) → u = v
  ordered : Ordered s.remaining
  cell : ∀ k, s.cell k = v ∨ .store k ∈ s.remaining
  fresh : ∀ k w, s.running k = some w → Fresh v k w ∨ s.Due k
  right : ∀ l, Right v s.result l ∨ ∃ k, Coming Fresh Todo v s l k

/-- Nothing has been accepted yet. -/
structure Untouched (r : R) (s : State ι V R W) : Prop where
  quiet : s.Quiet
  result : s.result = r

/-- The handler begins: every item is going to be scheduled. -/
theorem chases_accept (hComplete : Complete P.orders) (s : State ι V R W) (v : V) :
    Chases Right Fresh Todo v { s with handler := some (v, P.orders) } := by
  have hDue : ∀ k, State.Due { s with handler := some (v, P.orders) } k :=
    fun k => Or.inr (hComplete.ordered.queue_mem (hComplete.store_mem k))
  obtain ⟨k⟩ := hComplete.nonempty
  refine ⟨?_, hComplete.ordered, fun k => Or.inr (hComplete.store_mem k),
    fun k w _ => Or.inr (hDue k), fun l => Or.inr ⟨k, Or.inl (hDue k)⟩⟩
  intro u rest hHandler
  cases hHandler
  rfl

/-- A step of the handler, after which every item that was due still is. -/
theorem Chases.handler {v : V} {s s' : State ι V R W} (h : Chases Right Fresh Todo v s)
    (hRunning : s'.running = s.running) (hResult : s'.result = s.result)
    (hValue : ∀ u rest, s'.handler = some (u, rest) → u = v) (hOrdered : Ordered s'.remaining)
    (hCell : ∀ k, s'.cell k = v ∨ .store k ∈ s'.remaining) (hDue : ∀ k, s.Due k → s'.Due k) :
    Chases Right Fresh Todo v s' := by
  refine ⟨hValue, hOrdered, hCell, ?_, ?_⟩
  · intro k w hw
    rw [hRunning] at hw
    exact (h.fresh k w hw).imp_right (hDue k)
  · intro l
    rw [hResult]
    apply (h.right l).imp_right
    rintro ⟨k, hComing⟩
    refine ⟨k, hComing.imp (hDue k) ?_⟩
    rw [hRunning]
    exact id

theorem Chases.leave {v : V} {s : State ι V R W} (h : Chases Right Fresh Todo v s) {u : V}
    (hHandler : s.handler = some (u, [])) :
    Chases Right Fresh Todo v { s with handler := none } := by
  have hNone : s.remaining = [] := by rw [State.remaining, hHandler]
  refine h.handler rfl rfl ?_ ?_ ?_ ?_
  · intro u rest hSome
    cases hSome
  · trivial
  · intro k
    have hCell := h.cell k
    rwa [hNone] at hCell
  · intro k hDue
    rwa [State.Due, hNone] at hDue

theorem Chases.store [DecidableEq ι] {v : V} {s : State ι V R W}
    (h : Chases Right Fresh Todo v s) {u : V} {k : ι} {rest : List (Order ι)}
    (hHandler : s.handler = some (u, .store k :: rest)) :
    Chases Right Fresh Todo v
      { s with handler := some (u, rest), cell := Function.update s.cell k u } := by
  have hRest : s.remaining = .store k :: rest := by rw [State.remaining, hHandler]
  have hOrdered := h.ordered
  rw [hRest] at hOrdered
  obtain rfl := h.value u _ hHandler
  refine h.handler rfl rfl ?_ ?_ ?_ ?_
  · intro u' rest' hSome
    cases hSome
    rfl
  · exact hOrdered.2
  · intro j
    by_cases hj : j = k
    · subst hj
      exact Or.inl (Function.update_self j u s.cell)
    · have hCell := h.cell j
      rw [hRest, List.mem_cons] at hCell
      show Function.update s.cell k u j = u ∨ _
      rw [Function.update_of_ne hj]
      refine hCell.imp_right fun hStore => hStore.resolve_left ?_
      simpa using hj
  · intro j hDue
    rw [State.Due, hRest, List.mem_cons] at hDue
    exact hDue.imp_right fun hQueue => hQueue.resolve_left (by simp)

theorem Chases.queue [DecidableEq ι] {v : V} {s : State ι V R W}
    (h : Chases Right Fresh Todo v s) {u : V} {k : ι} {rest : List (Order ι)}
    (hHandler : s.handler = some (u, .queue k :: rest)) :
    Chases Right Fresh Todo v
      { s with handler := some (u, rest), pending := Function.update s.pending k true } := by
  have hRest : s.remaining = .queue k :: rest := by rw [State.remaining, hHandler]
  have hOrdered := h.ordered
  rw [hRest] at hOrdered
  refine h.handler rfl rfl ?_ ?_ ?_ ?_
  · intro u' rest' hSome
    cases hSome
    exact h.value u _ hHandler
  · exact hOrdered
  · intro j
    have hCell := h.cell j
    rw [hRest, List.mem_cons] at hCell
    exact hCell.imp_right fun hStore => hStore.resolve_left (by simp)
  · intro j hDue
    rw [State.Due, hRest, List.mem_cons] at hDue
    by_cases hj : j = k
    · subst hj
      exact Or.inl (Function.update_self j true s.pending)
    · show Function.update s.pending k true j = true ∨ _
      rw [Function.update_of_ne hj]
      refine hDue.imp_right fun hQueue => hQueue.resolve_left ?_
      simpa using hj

theorem Chases.start [DecidableEq ι] (hDelivers : Delivers P Right Fresh Todo) {v : V}
    {s : State ι V R W} (h : Chases Right Fresh Todo v s) {k : ι} :
    Chases Right Fresh Todo v { s with
      pending := Function.update s.pending k false
      running := Function.update s.running k (some (P.start k)) } := by
  -- The other items stay as they are, and the started one has everything before it.
  have hDue : ∀ j, j ≠ k → s.Due j → State.Due { s with
      pending := Function.update s.pending k false
      running := Function.update s.running k (some (P.start k)) } j := by
    intro j hj
    apply Or.imp_left
    intro hPending
    show Function.update s.pending k false j = true
    rwa [Function.update_of_ne hj]
  refine ⟨h.value, h.ordered, h.cell, ?_, ?_⟩
  · intro j w hw
    by_cases hj : j = k
    · subst hj
      obtain rfl : P.start j = w := by simpa using hw
      exact Or.inl (hDelivers.start_fresh v j)
    · simp only [Function.update_of_ne hj] at hw
      exact (h.fresh j w hw).imp_right (hDue j hj)
  · intro l
    apply (h.right l).imp_right
    rintro ⟨j, hComing⟩
    by_cases hj : j = k
    · subst hj
      exact ⟨j, Or.inr ⟨P.start j, Function.update_self .., hDelivers.start_fresh v j,
        hDelivers.start_todo j l⟩⟩
    · refine ⟨j, hComing.imp (hDue j hj) ?_⟩
      rintro ⟨w, hw, hFresh⟩
      exact ⟨w, by rw [← hw]; exact Function.update_of_ne hj .., hFresh⟩

theorem Chases.work [DecidableEq ι] (hDelivers : Delivers P Right Fresh Todo) {v : V}
    {s : State ι V R W} (h : Chases Right Fresh Todo v s) {k : ι} {w : W} {r : R}
    {next : Option W} {es : List E}
    (hRunning : s.running k = some w) (hStep : P.step k (s.cell k) s.result w = (r, next, es)) :
    Chases Right Fresh Todo v
      { s with result := r, running := Function.update s.running k next } := by
  by_cases hDue : s.Due k
  · -- Whatever the function does, it is going to be started again.
    refine ⟨h.value, h.ordered, h.cell, ?_, fun l => Or.inr ⟨k, Or.inl hDue⟩⟩
    intro j u hu
    by_cases hj : j = k
    · subst hj
      exact Or.inr hDue
    · simp only [Function.update_of_ne hj] at hu
      exact h.fresh j u hu
  · have hFresh := (h.fresh k w hRunning).resolve_right hDue
    have hCell : s.cell k = v := by
      refine (h.cell k).resolve_right fun hStore => hDue ?_
      exact Or.inr (h.ordered.queue_mem hStore)
    rw [hCell] at hStep
    refine ⟨h.value, h.ordered, h.cell, ?_, ?_⟩
    · intro j u hu
      by_cases hj : j = k
      · subst hj
        obtain rfl : next = some u := by simpa using hu
        exact Or.inl (hDelivers.step_fresh v j _ w r u es hFresh hStep)
      · simp only [Function.update_of_ne hj] at hu
        exact h.fresh j u hu
    · intro l
      rcases h.right l with hRight | ⟨j, hComing⟩
      · exact Or.inl (hDelivers.step_right v k _ w r next es l hFresh hStep hRight)
      · by_cases hj : j = k
        · subst hj
          rcases hComing with hLater | ⟨u, hu, -, hTodo⟩
          · exact absurd hLater hDue
          · obtain rfl : w = u := Option.some.inj (hRunning.symm.trans hu)
            apply (hDelivers.step_todo v j _ w r next es l hFresh hStep hTodo).imp_right
            rintro ⟨u, rfl, hLeft⟩
            exact ⟨j, Or.inr ⟨u, Function.update_self ..,
              hDelivers.step_fresh v j _ w r u es hFresh hStep, hLeft⟩⟩
        · refine Or.inr ⟨j, hComing.imp_right ?_⟩
          rintro ⟨u, hu, hOther⟩
          exact ⟨u, by rw [← hu]; exact Function.update_of_ne hj .., hOther⟩

/-- The state of a run: nothing has been accepted, or everything is under way for the value
that was accepted last. -/
def Follows (P : Program ι I V R W E) (Right : V → R → L → Prop) (Fresh : V → ι → W → Prop)
    (Todo : ι → W → L → Prop) (r : R) (s : State ι V R W) (h : List (Event ι I E)) : Prop :=
  match lastAccepted h with
  | none => Untouched r s
  | some i => ∃ v, P.accept i = some v ∧ Chases Right Fresh Todo v s

theorem lastAccepted_append_did (h : List (Event ι I E)) (k : ι) (es : List E) :
    lastAccepted (h ++ es.map (.did k)) = lastAccepted h := by
  have hNone : (es.map (Event.did k)).filterMap (fun
      | .accepted i => some i
      | .did _ _ => none) = ([] : List I) := by
    rw [List.filterMap_eq_nil_iff]
    intro e he
    obtain ⟨_, -, rfl⟩ := List.mem_map.mp he
    rfl
  rw [lastAccepted, List.filterMap_append, hNone, List.append_nil]
  rfl

theorem lastAccepted_append_accepted (h : List (Event ι I E)) (i : I) :
    lastAccepted (h ++ [.accepted i]) = some i := by
  simp [lastAccepted]

theorem Untouched.not_handler {r : R} {s : State ι V R W} (h : Untouched r s)
    {x : V × List (Order ι)} : s.handler ≠ some x := by
  rw [h.quiet.handler]
  simp

/-- A step that accepts nothing. -/
theorem Follows.keep {r : R} {s s' : State ι V R W} {h es : List (Event ι I E)}
    (hFollows : Follows P Right Fresh Todo r s h) (hSame : lastAccepted (h ++ es) = lastAccepted h)
    (hUntouched : ¬ Untouched r s)
    (hChases : ∀ v, Chases Right Fresh Todo v s → Chases Right Fresh Todo v s') :
    Follows P Right Fresh Todo r s' (h ++ es) := by
  unfold Follows at hFollows ⊢
  rw [hSame]
  split at hFollows
  · exact absurd hFollows hUntouched
  · obtain ⟨v, hv, hUnderWay⟩ := hFollows
    exact ⟨v, hv, hChases v hUnderWay⟩

theorem Follows.step [DecidableEq ι] (hComplete : Complete P.orders)
    (hDelivers : Delivers P Right Fresh Todo) {r : R} {s s' : State ι V R W} {a : Action ι I}
    {h es : List (Event ι I E)} (hFollows : Follows P Right Fresh Todo r s h)
    (hMoves : Moves P s a s' es) : Follows P Right Fresh Todo r s' (h ++ es) := by
  cases hMoves with
  | reject i => rwa [List.append_nil]
  | accept i v _ hAccept =>
    rw [Follows, lastAccepted_append_accepted]
    exact ⟨v, hAccept, chases_accept hComplete s v⟩
  | leave v hHandler =>
    apply hFollows.keep (by rw [List.append_nil])
    · exact fun hUntouched => hUntouched.not_handler hHandler
    · exact fun _ hChases => hChases.leave hHandler
  | store v k rest hHandler =>
    apply hFollows.keep (by rw [List.append_nil])
    · exact fun hUntouched => hUntouched.not_handler hHandler
    · exact fun _ hChases => hChases.store hHandler
  | queue v k rest hHandler =>
    apply hFollows.keep (by rw [List.append_nil])
    · exact fun hUntouched => hUntouched.not_handler hHandler
    · exact fun _ hChases => hChases.queue hHandler
  | start k hIdle hPending =>
    apply hFollows.keep (by rw [List.append_nil])
    · intro hUntouched
      rw [hUntouched.quiet.pending k] at hPending
      cases hPending
    · exact fun _ hChases => hChases.start hDelivers
  | work k w r' next es hRunning hStep =>
    apply hFollows.keep (lastAccepted_append_did h k es)
    · intro hUntouched
      rw [hUntouched.quiet.running k] at hRunning
      cases hRunning
    · exact fun _ hChases => hChases.work hDelivers hRunning hStep

theorem run_follows [DecidableEq ι] (hComplete : Complete P.orders)
    (hDelivers : Delivers P Right Fresh Todo) (cell : ι → V) (r : R) (sched : List (Action ι I)) :
    Follows P Right Fresh Todo r (run (step P) (.init cell r) sched).1
      (run (step P) (.init cell r) sched).2 := by
  refine run_invariant ?_ ?_ sched
  · exact ⟨⟨rfl, fun _ => rfl, fun _ => rfl⟩, rfl⟩
  · intro s h a s' es hFollows hEnabled
    exact hFollows.step hComplete hDelivers (moves_of_step hEnabled)

/-- When nothing is left to do, the result is that of the value accepted last. -/
theorem Follows.result_of_quiet {r : R} {s : State ι V R W} {h : List (Event ι I E)}
    (hFollows : Follows P Right Fresh Todo r s h) (hQuiet : s.Quiet) :
    match lastAccepted h with
    | none => s.result = r
    | some i => ∃ v, P.accept i = some v ∧ ∀ l, Right v s.result l := by
  unfold Follows at hFollows
  split at hFollows
  · exact hFollows.result
  · obtain ⟨v, hv, hChases⟩ := hFollows
    refine ⟨v, hv, fun l => (hChases.right l).resolve_right ?_⟩
    have hNone : s.remaining = [] := by rw [State.remaining, hQuiet.handler]
    rintro ⟨k, (hPending | hQueue) | ⟨w, hRunning, -⟩⟩
    · rw [hQuiet.pending k] at hPending
      cases hPending
    · rw [hNone] at hQueue
      cases hQueue
    · rw [hQuiet.running k] at hRunning
      cases hRunning

end Result

/-! ## What the functions do with a value that was accepted -/

section Safety

variable (P : Program ι I V R W E)

/-- With a valid value the function keeps its locals in order and does only what is good. -/
structure Respects (Valid : V → Prop) (Ok : ι → W → Prop) (Good : E → Prop) : Prop where
  accept : ∀ i v, P.accept i = some v → Valid v
  start : ∀ k, Ok k (P.start k)
  step : ∀ v k r w r' next es, Valid v → Ok k w → P.step k v r w = (r', next, es) →
    (∀ w', next = some w' → Ok k w') ∧ ∀ e ∈ es, Good e

/-- The item gets a value before it is scheduled. -/
def StoredFirst (k : ι) : List (Order ι) → Prop
  | [] => True
  | .store j :: rest => j = k ∨ StoredFirst k rest
  | .queue j :: rest => j ≠ k ∧ StoredFirst k rest

variable {P} {Valid : V → Prop} {Ok : ι → W → Prop} {Good : E → Prop}

/-- The cell of every item that may run holds a valid value. -/
structure Safe (Valid : V → Prop) (Ok : ι → W → Prop) (s : State ι V R W) : Prop where
  handler : ∀ v rest, s.handler = some (v, rest) → Valid v
  cell : ∀ k, Valid (s.cell k) ∨
    s.pending k = false ∧ s.running k = none ∧ StoredFirst k s.remaining
  ok : ∀ k w, s.running k = some w → Ok k w

theorem Safe.valid_of_running {s : State ι V R W} (h : Safe Valid Ok s) {k : ι} {w : W}
    (hRunning : s.running k = some w) : Valid (s.cell k) := by
  refine (h.cell k).resolve_right fun hIdle => ?_
  rw [hIdle.2.1] at hRunning
  cases hRunning

theorem forall_running_update [DecidableEq ι] {Q : ι → W → Prop} {running : ι → Option W}
    (h : ∀ k w, running k = some w → Q k w) {k : ι} {next : Option W}
    (hNext : ∀ w, next = some w → Q k w) :
    ∀ j w, Function.update running k next j = some w → Q j w := by
  intro j w hw
  by_cases hj : j = k
  · subst hj
    rw [Function.update_self] at hw
    exact hNext w hw
  · rw [Function.update_of_ne hj] at hw
    exact h j w hw

theorem Safe.step [DecidableEq ι] (hFirst : ∀ k, StoredFirst k P.orders)
    (hRespects : Respects P Valid Ok Good) {s s' : State ι V R W} {a : Action ι I}
    {es : List (Event ι I E)} (h : Safe Valid Ok s) (hMoves : Moves P s a s' es) :
    Safe Valid Ok s' := by
  cases hMoves with
  | reject i => exact h
  | accept i v hIdle hAccept =>
    refine ⟨?_, ?_, h.ok⟩
    · intro u rest hSome
      cases hSome
      exact hRespects.accept i v hAccept
    · intro k
      apply (h.cell k).imp_right
      rintro ⟨hPending, hRunning, -⟩
      exact ⟨hPending, hRunning, hFirst k⟩
  | leave v hHandler =>
    refine ⟨?_, ?_, h.ok⟩
    · intro u rest hSome
      cases hSome
    · intro k
      apply (h.cell k).imp_right
      rintro ⟨hPending, hRunning, -⟩
      exact ⟨hPending, hRunning, trivial⟩
  | store v k rest hHandler =>
    have hValid := h.handler v _ hHandler
    have hRest : s.remaining = .store k :: rest := by rw [State.remaining, hHandler]
    refine ⟨?_, ?_, h.ok⟩
    · intro u rest' hSome
      cases hSome
      exact hValid
    · intro j
      by_cases hj : j = k
      · subst hj
        refine Or.inl ?_
        show Valid (Function.update s.cell j v j)
        rwa [Function.update_self]
      · have hCell := h.cell j
        rw [hRest] at hCell
        simp only [Function.update_of_ne hj]
        apply hCell.imp_right
        rintro ⟨hPending, hRunning, hStored⟩
        exact ⟨hPending, hRunning, hStored.resolve_left (Ne.symm hj)⟩
  | queue v k rest hHandler =>
    have hRest : s.remaining = .queue k :: rest := by rw [State.remaining, hHandler]
    refine ⟨?_, ?_, h.ok⟩
    · intro u rest' hSome
      cases hSome
      exact h.handler v _ hHandler
    · intro j
      have hCell := h.cell j
      rw [hRest] at hCell
      apply hCell.imp_right
      rintro ⟨hPending, hRunning, hOther, hStored⟩
      refine ⟨?_, hRunning, hStored⟩
      show Function.update s.pending k true j = false
      rwa [Function.update_of_ne (Ne.symm hOther)]
  | start k hIdle hPending =>
    refine ⟨h.handler, ?_, forall_running_update h.ok ?_⟩
    · intro j
      apply (h.cell j).imp_right
      rintro ⟨hQuiet, hRunning, hStored⟩
      by_cases hj : j = k
      · subst hj
        rw [hQuiet] at hPending
        cases hPending
      · simp only [Function.update_of_ne hj]
        exact ⟨hQuiet, hRunning, hStored⟩
    · intro w hw
      cases hw
      exact hRespects.start k
  | work k w r' next es hRunning hStep =>
    have hNext := (hRespects.step _ k _ w r' next es (h.valid_of_running hRunning)
      (h.ok k w hRunning) hStep).1
    refine ⟨h.handler, ?_, forall_running_update h.ok hNext⟩
    intro j
    by_cases hj : j = k
    · subst hj
      exact Or.inl (h.valid_of_running hRunning)
    · simp only [Function.update_of_ne hj]
      exact h.cell j

theorem Safe.events [DecidableEq ι] (hRespects : Respects P Valid Ok Good) {s s' : State ι V R W}
    {a : Action ι I} {es : List (Event ι I E)} (h : Safe Valid Ok s) (hMoves : Moves P s a s' es)
    {k : ι} {e : E} (he : .did k e ∈ es) : Good e := by
  cases hMoves with
  | reject i => cases he
  | accept i v hIdle hAccept => simp at he
  | leave v hHandler => cases he
  | store v k rest hHandler => cases he
  | queue v k rest hHandler => cases he
  | start k hIdle hPending => cases he
  | work k w r' next es hRunning hStep =>
    obtain ⟨e', he', hSame⟩ := List.mem_map.mp he
    cases hSame
    exact (hRespects.step _ k _ w r' next es (h.valid_of_running hRunning)
      (h.ok k w hRunning) hStep).2 e he'

/-- In every run the functions do only what is good. -/
theorem run_good [DecidableEq ι] (hFirst : ∀ k, StoredFirst k P.orders)
    (hRespects : Respects P Valid Ok Good) (cell : ι → V) (r : R) (sched : List (Action ι I))
    {k : ι} {e : E} (he : .did k e ∈ (run (Deferred.step P) (.init cell r) sched).2) : Good e := by
  refine (run_invariant (P := fun s (h : List (Event ι I E)) => Safe Valid Ok s ∧
    ∀ k e, .did k e ∈ h → Good e) (S := State ι V R W) ?_ ?_ sched).2 k e he
  · refine ⟨⟨?_, fun k => Or.inr ⟨rfl, rfl, trivial⟩, ?_⟩, ?_⟩
    · intro v rest hSome
      cases hSome
    · intro k w hSome
      cases hSome
    · intro k e hMem
      cases hMem
  · rintro s h a s' es ⟨hSafe, hGood⟩ hEnabled
    have hMoves := moves_of_step hEnabled
    refine ⟨hSafe.step hFirst hRespects hMoves, ?_⟩
    intro k e hMem
    rcases List.mem_append.mp hMem with hOld | hNew
    · exact hGood k e hOld
    · exact hSafe.events hRespects hMoves hNew

end Safety

end OsLabs.Runs.Deferred

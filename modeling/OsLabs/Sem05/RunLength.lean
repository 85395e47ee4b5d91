import OsLabs.Sem05.Register

/-!
# Which write ends the run

`count` is copied by `fork`, so every process counts only the wraps that it makes itself, while
the letter is shared. A process sends the signal when it has made two wraps. If the process that
has made the first wrap also makes the second one, then this write sends the signal; otherwise
the signal comes later.
-/

namespace OsLabs.Sem05.ReaderWriter

open Memory Runs SysV RwLock

variable {τ : Type}

/-- How often the letter has wrapped. -/
def wraps (h : List (τ × Event)) : Nat := h.countP fun e => e.2 = .wrap

def NoKill (h : List (τ × Event)) : Prop := ∀ e ∈ h, e.2 ≠ .kill

/-- The latest wrap was made by the write of `t` that is still under way. -/
def WrapUnderWay (t : τ) (h : List (τ × Event)) : Prop :=
  ∃ before after, h = before ++ (t, .wrap) :: after ∧
    ∀ e ∈ after, e.2 ≠ .wrap ∧ ∀ c, e.2 ≠ .completed c

/-- The first signal is sent by the write that makes the second wrap, and no write is completed
between this wrap and the signal. -/
def Prompt (before : List (τ × Event)) (e : τ × Event) : Prop :=
  (e.2 = .kill → NoKill before → wraps before = 2 ∧ WrapUnderWay e.1 before) ∧
    ∀ c, e.2 = .completed c → 2 ≤ wraps before → ¬ NoKill before

/-- The second wrap is made by the process that has made the first one. -/
def SameWrapper [Fintype τ] (c : Conf τ Shared Process) : τ × Input → Prop
  | (t, .run) => (c.procs t).pc = .wrapStore → ∑ u, (c.procs u).count = 1 → (c.procs t).count = 1
  | (_, .sigterm) => True

instance decidableSameWrapper [Fintype τ] (c : Conf τ Shared Process) :
    (a : τ × Input) → Decidable (SameWrapper c a)
  | (t, .run) => inferInstanceAs (Decidable ((c.procs t).pc = .wrapStore →
      ∑ u, (c.procs u).count = 1 → (c.procs t).count = 1))
  | (_, .sigterm) => isTrue trivial

/-! ## What a step does to the count -/

/-- Neither a wrap nor a signal nor the end of a write. -/
def Event.Plain (e : Event) : Prop := e ≠ .wrap ∧ e ≠ .kill ∧ ∀ c, e ≠ .completed c

/-- The steps of a process, seen from `count`. -/
inductive Counts (p p' : Process) : List Event → Prop where
  | wrap (hPc : p.pc = .wrapStore) (hPc' : p'.pc = .killTest) (hCount : p'.count = p.count + 1) :
      Counts p p' [.wrap]
  | test (hPc : p.pc = .killTest) (hCount : p'.count = p.count) :
      Counts p p' (if p.count = 2 then [.kill] else [])
  | complete (c : UInt8) (hRole : p.role = .writing) (hPc : p.pc ≠ .killTest)
      (hCount : p'.count = p.count) : Counts p p' [.completed c]
  | plain {es : List Event} (hPlain : ∀ e ∈ es, e.Plain)
      (hPc : p.pc = .killTest → p'.pc = .killTest) (hCount : p'.count = p.count) : Counts p p' es

theorem plain_nil : ∀ e ∈ ([] : List Event), e.Plain := fun _ he => absurd he List.not_mem_nil

theorem plain_singleton {e : Event} (h : e.Plain) : ∀ x ∈ [e], x.Plain := by
  intro x hx
  rw [List.mem_singleton] at hx
  rwa [hx]

theorem call_counts {sh sh' : Shared} {p p' : Process} {ops : List (Sembuf Sem)} {asleep : Bool}
    {waiting next : Pc} {es : List Event} (hPc : p.pc ≠ .killTest)
    (h : call sh p ops asleep waiting next [] = some (sh', p', es)) : Counts p p' es := by
  obtain ⟨vals, -, ⟨⟩⟩ | ⟨-, ⟨⟩⟩ | ⟨-, ⟨⟩⟩ := attempt_cases h
  · exact .plain nofun (fun hEq => absurd hEq hPc) rfl
  · exact .plain nofun (fun hEq => absurd hEq hPc) rfl
  · exact .plain (plain_singleton ⟨nofun, nofun, nofun⟩) (fun hEq => absurd hEq hPc) rfl

theorem statement_counts {sh sh' : Shared} {p p' : Process} {es : List Event}
    (h : statement sh p = some (sh', p', es)) : Counts p p' es := by
  obtain ⟨pc, flag, count⟩ := p
  cases pc with
  | readLoop | writeLoop | wrapTest =>
    simp only [statement] at h
    split at h
    · cases h
      exact .plain plain_nil (fun hPc => by cases hPc) rfl
    · cases h
      exact .plain plain_nil (fun hPc => by cases hPc) rfl
  | startRead asleep | stopRead asleep | startWrite asleep => exact call_counts (by simp) h
  | readLetter | printLetter =>
    cases h
    exact .plain (plain_singleton (by simp [Event.Plain])) (fun hPc => by cases hPc) rfl
  | incLoad | incStore value =>
    cases h
    exact .plain plain_nil (fun hPc => by cases hPc) rfl
  | wrapStore =>
    cases h
    exact .wrap rfl rfl rfl
  | killTest =>
    cases h
    exact .test rfl rfl
  | stopWrite asleep =>
    obtain ⟨vals, -, ⟨⟩⟩ | ⟨-, ⟨⟩⟩ | ⟨-, ⟨⟩⟩ := attempt_cases h
    · exact .complete _ rfl (by simp) rfl
    · exact .plain plain_nil (fun hPc => by cases hPc) rfl
    · exact .plain (plain_singleton (by simp [Event.Plain])) (fun hPc => by cases hPc) rfl
  | exited => cases h

theorem step_counts {sh sh' : Shared} {p p' : Process} {input : Input} {es : List Event}
    (h : step sh p input = some (sh', p', es)) : Counts p p' es := by
  cases input with
  | run => exact statement_counts h
  | sigterm =>
    simp only [step, deliver] at h
    split at h
    · cases h
    · split at h
      · next hAsleep =>
        cases h
        refine .plain (fun e he => ?_) (fun hPc => ?_) rfl
        · simp only [List.mem_cons, List.not_mem_nil, or_false] at he
          rcases he with rfl | rfl
          · exact ⟨nofun, nofun, nofun⟩
          · exact ⟨nofun, nofun, nofun⟩
        · rw [hPc] at hAsleep
          cases hAsleep
      · cases h
        exact .plain (plain_singleton ⟨nofun, nofun, nofun⟩) id rfl

/-! ## Runs in which one process makes the first two wraps -/

variable [Fintype τ]

/-- Process `t` has made both wraps and is about to send the signal. -/
structure Pending (c : Conf τ Shared Process) (h : List (τ × Event)) (t : τ) : Prop where
  wraps : wraps h = 2
  pc : (c.procs t).pc = .killTest
  count : (c.procs t).count = 2
  underWay : WrapUnderWay t h

/-- As long as the signal has not been sent, there have been fewer than two wraps, or the process
that has made both is about to send it. -/
structure Counted (c : Conf τ Shared Process) (h : List (τ × Event)) : Prop where
  register : Inv c (h.map Prod.snd)
  total : ∑ u, (c.procs u).count = wraps h
  pending : NoKill h → wraps h < 2 ∨ ∃ t, Pending c h t
  prompt : Always Prompt h

theorem counted_init (kind : τ → Kind) : Counted (init kind) [] :=
  ⟨inv_init kind, Finset.sum_eq_zero fun _ _ => rfl, fun _ => Or.inl Nat.two_pos, always_nil _⟩

theorem Inv.alone {c : Conf τ Shared Process} {h : List Event} (hInv : Inv c h) {t u : τ}
    (ht : (c.procs t).role = .writing) (hu : (c.procs u).role = .writing) : u = t := by
  obtain ⟨⟨l, -, hGuarded⟩, -, -⟩ := hInv
  by_contra hne
  have hOut := hGuarded.owned.alone ht (Ne.symm hne)
  rw [hu] at hOut
  cases hOut

omit [Fintype τ] in
theorem wraps_append (h : List (τ × Event)) (t : τ) (es : List Event) :
    wraps (h ++ es.map (Prod.mk t)) = wraps h + es.countP (· = .wrap) := by
  rw [wraps, List.countP_append, List.countP_map]
  rfl

omit [Fintype τ] in
theorem noKill_of_append {h : List (τ × Event)} {es : List (τ × Event)} (hNo : NoKill (h ++ es)) :
    NoKill h :=
  fun e he => hNo e (List.mem_append_left es he)

omit [Fintype τ] in
theorem WrapUnderWay.append {t u : τ} {h : List (τ × Event)} (hWrap : WrapUnderWay t h)
    {es : List Event} (hPlain : ∀ e ∈ es, e.Plain) :
    WrapUnderWay t (h ++ es.map (Prod.mk u)) := by
  obtain ⟨before, after, rfl, hAfter⟩ := hWrap
  refine ⟨before, after ++ es.map (Prod.mk u), by simp, fun e he => ?_⟩
  rcases List.mem_append.mp he with he | he
  · exact hAfter e he
  · obtain ⟨x, hx, rfl⟩ := List.mem_map.mp he
    exact ⟨(hPlain x hx).1, (hPlain x hx).2.2⟩

variable {c : Conf τ Shared Process} {h : List (τ × Event)} {t : τ}

theorem Counted.count_le (hC : Counted c h) (t : τ) : (c.procs t).count ≤ wraps h := by
  rw [← hC.total]
  exact Finset.single_le_sum (f := fun u => (c.procs u).count) (fun _ _ => Nat.zero_le _)
    (Finset.mem_univ t)

/-- The writer inside is the one that is about to send the signal, if there is such a one. -/
theorem Counted.writer (hC : Counted c h) {u : τ} (hPending : Pending c h u)
    (ht : (c.procs t).role = .writing) : t = u := by
  refine hC.register.alone ?_ ht
  simp only [Process.role, hPending.pc]

variable [DecidableEq τ]

/-- Only the process that moves changes its count. -/
theorem total_update (procs : τ → Process) (t : τ) (p : Process) :
    ∑ u, (Function.update procs t p u).count + (procs t).count =
      ∑ u, (procs u).count + p.count := by
  have hOld := Finset.add_sum_erase Finset.univ (fun u => (procs u).count) (Finset.mem_univ t)
  have hNew := Finset.add_sum_erase Finset.univ (fun u => (Function.update procs t p u).count)
    (Finset.mem_univ t)
  have hRest : ∑ u ∈ Finset.univ.erase t, (Function.update procs t p u).count =
      ∑ u ∈ Finset.univ.erase t, (procs u).count := by
    refine Finset.sum_congr rfl fun u hu => ?_
    rw [Function.update_of_ne (Finset.ne_of_mem_erase hu)]
  rw [hRest, Function.update_self] at hNew
  omega

theorem Counted.total_step (hC : Counted c h) {p : Process} {n : Nat} {sh : Shared}
    (hCount : p.count = (c.procs t).count + n) :
    ∑ u, ((⟨sh, Function.update c.procs t p⟩ : Conf τ Shared Process).procs u).count =
      wraps h + n := by
  have hUpdate := total_update c.procs t p
  have hTotal := hC.total
  dsimp only
  omega

theorem Counted.wrap (hC : Counted c h) {sh : Shared} {p : Process}
    (hRegister : Inv ⟨sh, Function.update c.procs t p⟩ ((h ++ [(t, Event.wrap)]).map Prod.snd))
    (hSame : SameWrapper c (t, .run)) (hPc : (c.procs t).pc = .wrapStore)
    (hPc' : p.pc = .killTest) (hCount : p.count = (c.procs t).count + 1) :
    Counted ⟨sh, Function.update c.procs t p⟩ (h ++ [(t, .wrap)]) := by
  have hWraps : wraps (h ++ [(t, .wrap)]) = wraps h + 1 := wraps_append h t [.wrap]
  refine ⟨hRegister, ?_, fun hNo => ?_, always_snoc.mpr ⟨hC.prompt, nofun, nofun⟩⟩
  · rw [hWraps]
    exact hC.total_step hCount
  · rcases hC.pending (noKill_of_append hNo) with hFew | ⟨u, hPending⟩
    · by_cases hFirst : wraps h = 0
      · exact Or.inl (by omega)
      · have hOne : (c.procs t).count = 1 := hSame hPc (hC.total.trans (by omega))
        refine Or.inr ⟨t, by omega, ?_, ?_, h, [], rfl, nofun⟩
        · dsimp only
          rw [Function.update_self]
          exact hPc'
        · dsimp only
          rw [Function.update_self]
          omega
    · obtain rfl := hC.writer hPending (t := t) (by simp only [Process.role, hPc])
      rw [hPending.pc] at hPc
      cases hPc

theorem Counted.test (hC : Counted c h) {sh : Shared} {p : Process}
    (hRegister : Inv ⟨sh, Function.update c.procs t p⟩
      ((h ++ (if (c.procs t).count = 2 then [Event.kill] else []).map (Prod.mk t)).map Prod.snd))
    (hPc : (c.procs t).pc = .killTest) (hCount : p.count = (c.procs t).count) :
    Counted ⟨sh, Function.update c.procs t p⟩
      (h ++ (if (c.procs t).count = 2 then [.kill] else []).map (Prod.mk t)) := by
  have hTotal : ∑ u, ((⟨sh, Function.update c.procs t p⟩ : Conf τ Shared Process).procs u).count =
      wraps h := hC.total_step (n := 0) hCount
  have hWriting : (c.procs t).role = .writing := by simp only [Process.role, hPc]
  by_cases hTwo : (c.procs t).count = 2
  · rw [if_pos hTwo] at hRegister ⊢
    have hWraps : wraps (h ++ [(t, .kill)]) = wraps h := wraps_append h t [.kill]
    refine ⟨hRegister, ?_, fun hNo => ?_, always_snoc.mpr ⟨hC.prompt, fun _ hNo => ?_, nofun⟩⟩
    · rw [List.map_singleton, hWraps]
      exact hTotal
    · exact absurd rfl (hNo (t, .kill) (List.mem_append_right h (List.mem_singleton_self _)))
    · have hLe := hC.count_le t
      rcases hC.pending hNo with hFew | ⟨u, hPending⟩
      · omega
      · obtain rfl := hC.writer hPending hWriting
        exact ⟨hPending.wraps, hPending.underWay⟩
  · rw [if_neg hTwo] at hRegister ⊢
    rw [List.map_nil, List.append_nil] at hRegister ⊢
    refine ⟨hRegister, hTotal, fun hNo => ?_, hC.prompt⟩
    rcases hC.pending hNo with hFew | ⟨u, hPending⟩
    · exact Or.inl hFew
    · obtain rfl := hC.writer hPending hWriting
      exact absurd hPending.count hTwo

theorem Counted.complete (hC : Counted c h) {sh : Shared} {p : Process} {d : UInt8}
    (hRegister : Inv ⟨sh, Function.update c.procs t p⟩
      ((h ++ [(t, Event.completed d)]).map Prod.snd))
    (hRole : (c.procs t).role = .writing) (hPc : (c.procs t).pc ≠ .killTest)
    (hCount : p.count = (c.procs t).count) :
    Counted ⟨sh, Function.update c.procs t p⟩ (h ++ [(t, .completed d)]) := by
  have hWraps : wraps (h ++ [(t, .completed d)]) = wraps h := wraps_append h t [.completed d]
  -- The process that is about to send the signal would be inside, too.
  have hFew (hNo : NoKill h) : wraps h < 2 := by
    rcases hC.pending hNo with hFew | ⟨u, hPending⟩
    · exact hFew
    · obtain rfl := hC.writer hPending hRole
      exact absurd hPending.pc hPc
  refine ⟨hRegister, ?_, fun hNo => ?_, always_snoc.mpr ⟨hC.prompt, nofun, fun _ _ hTwo hNo => ?_⟩⟩
  · rw [hWraps]
    exact hC.total_step (n := 0) hCount
  · rw [hWraps]
    exact Or.inl (hFew (noKill_of_append hNo))
  · have hLt := hFew hNo
    omega

theorem Counted.plain (hC : Counted c h) {sh : Shared} {p : Process} {es : List Event}
    (hRegister : Inv ⟨sh, Function.update c.procs t p⟩
      ((h ++ es.map (Prod.mk t)).map Prod.snd))
    (hPlain : ∀ e ∈ es, e.Plain) (hPc : (c.procs t).pc = .killTest → p.pc = .killTest)
    (hCount : p.count = (c.procs t).count) :
    Counted ⟨sh, Function.update c.procs t p⟩ (h ++ es.map (Prod.mk t)) := by
  have hWraps : wraps (h ++ es.map (Prod.mk t)) = wraps h := by
    rw [wraps_append, List.countP_eq_zero.mpr]
    · rfl
    · intro e he hWrap
      exact (hPlain e he).1 (of_decide_eq_true hWrap)
  refine ⟨hRegister, ?_, fun hNo => ?_, ?_⟩
  · rw [hWraps]
    exact hC.total_step (n := 0) hCount
  · rw [hWraps]
    rcases hC.pending (noKill_of_append hNo) with hFew | ⟨u, hPending⟩
    · exact Or.inl hFew
    · refine Or.inr ⟨u, hWraps.trans hPending.wraps, ?_, ?_, hPending.underWay.append hPlain⟩
      · rcases eq_or_ne u t with rfl | hne
        · dsimp only
          rw [Function.update_self]
          exact hPc hPending.pc
        · dsimp only
          rw [Function.update_of_ne hne]
          exact hPending.pc
      · rcases eq_or_ne u t with rfl | hne
        · dsimp only
          rw [Function.update_self, hCount]
          exact hPending.count
        · dsimp only
          rw [Function.update_of_ne hne]
          exact hPending.count
  · refine always_append hC.prompt ?_
    intro before e after hSplit
    have hMem : e ∈ es.map (Prod.mk t) := by
      rw [hSplit]
      exact List.mem_append_right before List.mem_cons_self
    obtain ⟨x, hx, rfl⟩ := List.mem_map.mp hMem
    exact ⟨fun hKill => absurd hKill (hPlain x hx).2.1,
      fun d hDone => absurd hDone ((hPlain x hx).2.2 d)⟩

theorem Counted.step (hC : Counted c h) {input : Input} {sh : Shared} {p : Process}
    {es : List Event} (hSame : SameWrapper c (t, input))
    (hStep : step c.shared (c.procs t) input = some (sh, p, es)) :
    Counted ⟨sh, Function.update c.procs t p⟩ (h ++ es.map (Prod.mk t)) := by
  have hRegister : Inv ⟨sh, Function.update c.procs t p⟩
      ((h ++ es.map (Prod.mk t)).map Prod.snd) := by
    rw [map_snd_append]
    exact hC.register.step hStep
  have hCounts := step_counts hStep
  cases hCounts with
  | wrap hPc hPc' hCount =>
    cases input with
    | run => exact hC.wrap hRegister hSame hPc hPc' hCount
    | sigterm =>
      simp only [ReaderWriter.step, deliver] at hStep
      split at hStep
      · cases hStep
      · split at hStep <;> cases hStep
  | test hPc hCount => exact hC.test hRegister hPc hCount
  | complete d hRole hPc hCount => exact hC.complete hRegister hRole hPc hCount
  | plain hPlain hPc hCount => exact hC.plain hRegister hPlain hPc hCount

/-- If the process that makes the first wrap makes the second one, too, then its write sends the
first signal. -/
theorem kill_at_second_wrap (kind : τ → Kind) {sched : List (τ × Input)}
    (hSame : Along (poolStep step) SameWrapper (init kind) sched) :
    Always Prompt (execute kind sched).2 := by
  refine (run_invariant_along (P := Counted) (counted_init kind) ?_ hSame).prompt
  intro c h a c' es hC hSame hStep
  obtain ⟨sh, p, own, hMove, rfl, rfl⟩ := poolStep_eq_some hStep
  exact hC.step hSame hMove

/-- As many statements as process `t` needs for `n` writes, and one more for every wrap. -/
def writing (t : τ) (n wraps : Nat) : List (τ × Input) := List.replicate (8 * n + wraps) (t, .run)

/-- Two writers, one of which makes both wraps. -/
def bothWraps : List (Bool × Input) := writing true 5 0 ++ writing false 48 2

theorem kill_at_second_wrap_both :
    Along (poolStep step) SameWrapper (init fun _ : Bool => .writer) bothWraps ∧
      (∃ e ∈ (execute (fun _ : Bool => Kind.writer) bothWraps).2, e.2 = .kill) ∧
      Always Prompt (execute (fun _ : Bool => Kind.writer) bothWraps).2 := by
  have hSame : Along (poolStep step) SameWrapper (init fun _ : Bool => .writer) bothWraps := by
    decide +kernel
  exact ⟨hSame, by decide +kernel, kill_at_second_wrap _ hSame⟩

/-- Two writers, each of which makes one wrap: nobody sends a signal. -/
def oneWrapEach : List (Bool × Input) := writing false 27 1 ++ writing true 26 1

theorem not_prompt_one_wrap_each :
    ¬ Always Prompt (execute (fun _ : Bool => Kind.writer) oneWrapEach).2 := by
  intro hPrompt
  have hNo : ∀ e ∈ (execute (fun _ : Bool => Kind.writer) oneWrapEach).2, e.2 ≠ .kill := by
    decide +kernel
  have hSplit : (execute (fun _ : Bool => Kind.writer) oneWrapEach).2 =
      (execute (fun _ : Bool => Kind.writer) oneWrapEach).2.dropLast ++
        [(true, .completed 'a'.toUInt8)] := by
    decide +kernel
  have hWraps : 2 ≤ wraps (execute (fun _ : Bool => Kind.writer) oneWrapEach).2.dropLast := by
    decide +kernel
  refine (hPrompt _ _ [] hSplit).2 'a'.toUInt8 rfl hWraps fun e he => ?_
  exact hNo e (List.mem_of_mem_dropLast he)

end OsLabs.Sem05.ReaderWriter

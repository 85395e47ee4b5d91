import Mathlib.Data.List.Induction

/-!
# Sequences of calls with their replies

An operation on a state either is undefined or gives the next state and a reply. A sequence
of calls is undefined as soon as one of them is. Two operations correspond under a relation
between their states if related states give the same replies and related states again;
then they do so for every sequence of calls.
-/

namespace OsLabs.Runs

variable {σ σ' γ ρ : Type}

/-- The calls in order, with their replies. -/
def execAll (call : σ → γ → Option (σ × ρ)) (s : σ) : List γ → Option (σ × List ρ)
  | [] => some (s, [])
  | c :: rest =>
    (call s c).bind fun (s, reply) => (execAll call s rest).map (Prod.map id (reply :: ·))

theorem replies_cons {call : σ → γ → Option (σ × ρ)} {s s' : σ} {c : γ} {reply : ρ}
    (h : call s c = some (s', reply)) (rest : List γ) :
    (execAll call s (c :: rest)).map Prod.snd =
      ((execAll call s' rest).map Prod.snd).map (reply :: ·) := by
  rw [execAll, h, Option.bind_some, Option.map_map, Option.map_map]
  rfl

theorem execAll_append (call : σ → γ → Option (σ × ρ)) (s : σ) (xs ys : List γ) :
    execAll call s (xs ++ ys) =
      (execAll call s xs).bind fun (s, replies) =>
        (execAll call s ys).map (Prod.map id (replies ++ ·)) := by
  induction xs generalizing s with
  | nil =>
    simp only [List.nil_append, execAll, Option.bind_some]
    rcases execAll call s ys with _ | ⟨s₁, replies⟩
    · rfl
    · rfl
  | cons c rest ih =>
    simp only [List.cons_append, execAll]
    rcases call s c with _ | ⟨s₁, reply⟩
    · rfl
    · simp only [Option.bind_some, ih]
      rcases execAll call s₁ rest with _ | ⟨s₂, replies⟩
      · rfl
      · simp only [Option.bind_some, Option.map_some, Prod.map_apply, id_eq]
        rcases execAll call s₂ ys with _ | ⟨s₃, more⟩
        · rfl
        · rfl

theorem execAll_cons_eq_some {call : σ → γ → Option (σ × ρ)} {s s' : σ} {c : γ}
    {rest : List γ} {replies : List ρ} :
    execAll call s (c :: rest) = some (s', replies) ↔
      ∃ s₁ reply more, call s c = some (s₁, reply) ∧
        execAll call s₁ rest = some (s', more) ∧ replies = reply :: more := by
  constructor
  · intro h
    obtain ⟨⟨s₁, reply⟩, hCall, hRest⟩ := Option.bind_eq_some_iff.mp h
    obtain ⟨⟨s₂, more⟩, hMore, hEq⟩ := Option.map_eq_some_iff.mp hRest
    cases hEq
    exact ⟨s₁, reply, more, hCall, hMore, rfl⟩
  · rintro ⟨s₁, reply, more, hCall, hMore, rfl⟩
    simp only [execAll, hCall, Option.bind_some, hMore]
    rfl

theorem execAll_append_eq_some {call : σ → γ → Option (σ × ρ)} {s s' : σ} {xs ys : List γ}
    {replies : List ρ} :
    execAll call s (xs ++ ys) = some (s', replies) ↔
      ∃ s₁ first more, execAll call s xs = some (s₁, first) ∧
        execAll call s₁ ys = some (s', more) ∧ replies = first ++ more := by
  rw [execAll_append]
  constructor
  · intro h
    obtain ⟨⟨s₁, first⟩, hFirst, hRest⟩ := Option.bind_eq_some_iff.mp h
    obtain ⟨⟨s₂, more⟩, hMore, hEq⟩ := Option.map_eq_some_iff.mp hRest
    cases hEq
    exact ⟨s₁, first, more, hFirst, hMore, rfl⟩
  · rintro ⟨s₁, first, more, hFirst, hMore, rfl⟩
    simp only [hFirst, Option.bind_some, hMore]
    rfl

theorem execAll_snoc {call : σ → γ → Option (σ × ρ)} {s s' : σ} {calls : List γ} {c : γ}
    {replies : List ρ} :
    execAll call s (calls ++ [c]) = some (s', replies) ↔
      ∃ s₁ first reply, execAll call s calls = some (s₁, first) ∧
        call s₁ c = some (s', reply) ∧ replies = first ++ [reply] := by
  rw [execAll_append_eq_some]
  constructor
  · rintro ⟨s₁, first, more, hFirst, hMore, rfl⟩
    obtain ⟨s₂, reply, rest, hCall, hRest, rfl⟩ := execAll_cons_eq_some.mp hMore
    cases hRest
    exact ⟨s₁, first, reply, hFirst, hCall, rfl⟩
  · rintro ⟨s₁, first, reply, hFirst, hCall, rfl⟩
    exact ⟨s₁, first, [reply], hFirst, execAll_cons_eq_some.mpr ⟨s', reply, [], hCall, rfl, rfl⟩,
      rfl⟩

/-- What the first calls leave and every further call keeps holds after all of them. -/
theorem execAll_invariant {call : σ → γ → Option (σ × ρ)} {P : σ → List γ → List ρ → Prop}
    (hCall : ∀ s calls replies c s' reply, P s calls replies → call s c = some (s', reply) →
      P s' (calls ++ [c]) (replies ++ [reply])) {s s' : σ} (hStart : P s [] [])
    {calls : List γ} {replies : List ρ} (h : execAll call s calls = some (s', replies)) :
    P s' calls replies := by
  induction calls using List.reverseRecOn generalizing s' replies with
  | nil =>
    cases h
    exact hStart
  | append_singleton calls c ih =>
    obtain ⟨s₁, first, reply, hFirst, hLast, rfl⟩ := execAll_snoc.mp h
    exact hCall s₁ calls first c s' reply (ih hFirst) hLast

/-- Both are undefined, or the replies are the same and the states related. -/
def Agree (R : σ → σ' → Prop) {α : Type} (x : Option (σ × α)) (y : Option (σ' × α)) : Prop :=
  Option.Rel (fun a b => R a.1 b.1 ∧ a.2 = b.2) x y

theorem Agree.map {R : σ → σ' → Prop} {α β : Type} {x : Option (σ × α)} {y : Option (σ' × α)}
    (h : Agree R x y) (f : α → β) : Agree R (x.map (Prod.map id f)) (y.map (Prod.map id f)) := by
  cases h with
  | none => exact .none
  | some hBoth => exact .some ⟨hBoth.1, congrArg f hBoth.2⟩

theorem Agree.replies {R : σ → σ' → Prop} {α : Type} {x : Option (σ × α)} {y : Option (σ' × α)}
    (h : Agree R x y) : x.map Prod.snd = y.map Prod.snd := by
  cases h with
  | none => rfl
  | some hBoth => exact congrArg some hBoth.2

/-- What is defined on the one side has a counterpart on the other. -/
theorem Agree.left {R : σ → σ' → Prop} {α : Type} {s : σ} {a : α} {y : Option (σ' × α)}
    (h : Agree R (some (s, a)) y) : ∃ s', y = some (s', a) ∧ R s s' := by
  cases h with
  | @some _ b hBoth =>
    obtain ⟨s', a'⟩ := b
    obtain ⟨hState, rfl⟩ : R s s' ∧ a = a' := hBoth
    exact ⟨s', rfl, hState⟩

theorem Agree.right {R : σ → σ' → Prop} {α : Type} {s' : σ'} {a : α} {x : Option (σ × α)}
    (h : Agree R x (some (s', a))) : ∃ s, x = some (s, a) ∧ R s s' := by
  cases h with
  | @some b _ hBoth =>
    obtain ⟨s, a'⟩ := b
    obtain ⟨hState, rfl⟩ : R s s' ∧ a' = a := hBoth
    exact ⟨s, rfl, hState⟩

theorem execAll_agree {R : σ → σ' → Prop} {call : σ → γ → Option (σ × ρ)}
    {call' : σ' → γ → Option (σ' × ρ)}
    (hCall : ∀ s s' c, R s s' → Agree R (call s c) (call' s' c)) {s : σ} {s' : σ'}
    (h : R s s') (calls : List γ) : Agree R (execAll call s calls) (execAll call' s' calls) := by
  induction calls generalizing s s' with
  | nil => exact .some ⟨h, rfl⟩
  | cons c rest ih =>
    have hFirst := hCall s s' c h
    rw [execAll, execAll]
    generalize call s c = x at *
    generalize call' s' c = y at *
    cases hFirst with
    | none => exact .none
    | @some a b hBoth =>
      obtain ⟨s₁, reply⟩ := a
      obtain ⟨s₁', reply'⟩ := b
      obtain ⟨hNext, rfl⟩ : R s₁ s₁' ∧ reply = reply' := hBoth
      exact (ih hNext).map (reply :: ·)

end OsLabs.Runs

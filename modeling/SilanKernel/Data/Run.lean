import Mathlib.Logic.Basic

/-!
# SilanKernel.Data.Run

**Runs** of a system that takes one action after another.

A system is a state type, an action type and a step function; `none` stands for a
step that never comes to an end or that stops the machine. `run` takes a list of
actions. Two ways to speak about a whole run are used throughout: `Always P`, the
run goes through and `P` holds in every state of it, and `Along G`, the guard `G`
holds of every state and the action taken there. The rules reduce both to facts
about single steps. Where steps have outputs, `simulate` compares a run with the runs
a specification allows.

Below runs stand the rules for single programs.
-/

namespace SilanKernel

namespace Run

variable {σ α : Type*} (step : σ → α → Option σ)

/-- The state after the actions `as`. -/
def run (s : σ) : List α → Option σ
  | [] => some s
  | a :: as => (step s a).bind fun s' => run s' as

/-- Every step is defined and `P` holds in every state, first and last included. -/
def Always (P : σ → Prop) (s : σ) : List α → Prop
  | [] => P s
  | a :: as => P s ∧ ∃ s', step s a = some s' ∧ Always P s' as

/-- `G` holds of every state of the run and the action taken in it. -/
def Along (G : σ → α → Prop) (s : σ) : List α → Prop
  | [] => True
  | a :: as => G s a ∧ ∀ s', step s a = some s' → Along G s' as

variable {step} {P : σ → Prop} {s s' : σ} {as : List α}

theorem Always.head (h : Always step P s as) : P s := by
  cases as with
  | nil => exact h
  | cons a as => exact h.1

theorem Always.imp (hPQ : ∀ s, P s → Q s) (h : Always step P s as) : Always step Q s as := by
  induction as generalizing s with
  | nil => exact hPQ s h
  | cons a as ih =>
    obtain ⟨hs, s', hstep, hrest⟩ := h
    exact ⟨hPQ s hs, s', hstep, ih hrest⟩

/-- **The invariant rule**, for systems whose steps may be undefined: what every step
keeps holds in every state reached. -/
theorem run_invariant (hstep : ∀ s a s', P s → step s a = some s' → P s')
    (hrun : run step s as = some s') (hs : P s) : P s' := by
  induction as generalizing s with
  | nil =>
    obtain rfl := Option.some.inj hrun
    exact hs
  | cons a as ih =>
    obtain ⟨s1, hs1, hrest⟩ := Option.bind_eq_some_iff.mp hrun
    exact ih hrest (hstep s a s1 hs hs1)

/-- The same where a guard says which steps go through. Where the guard holds a step
is defined and keeps `P`; so it is along a run. -/
theorem always_of_along (hstep : ∀ s a, P s → G s a → ∃ s', step s a = some s' ∧ P s')
    (hs : P s) (h : Along step G s as) : Always step P s as := by
  induction as generalizing s with
  | nil => exact hs
  | cons a as ih =>
    obtain ⟨s', hs', hP⟩ := hstep s a hs h.1
    exact ⟨hs, s', hs', ih hP (h.2 s' hs')⟩

/-- The converse, for a guard that no step of a good run can do without. -/
theorem along_of_always (hstep : ∀ s a s', P s → step s a = some s' → P s' → G s a)
    (h : Always step P s as) : Along step G s as := by
  induction as generalizing s with
  | nil => trivial
  | cons a as ih =>
    obtain ⟨hs, s1, hs1, hrest⟩ := h
    refine ⟨hstep s a s1 hs hs1 hrest.head, fun s2 hs2 => ?_⟩
    obtain rfl : s1 = s2 := Option.some.inj (hs1.symm.trans hs2)
    exact ih hrest

/-! ### Runs with outputs -/

section

variable {σ τ α ρ : Type*} (step : σ → α → Option (σ × ρ)) (spec : τ → α → ρ → τ → Prop)

/-- The outputs of a run and the state after it. -/
def outputs (s : σ) : List α → Option (List ρ × σ)
  | [] => some ([], s)
  | a :: as =>
    (step s a).bind fun (s', r) => (outputs s' as).bind fun (rs, s'') => some (r :: rs, s'')

/-- What a specification allows: the actions with these outputs take one state to the other. -/
def Allows (m : τ) : List α → List ρ → τ → Prop
  | [], [], m' => m' = m
  | a :: as, r :: rs, m' => ∃ m₁, spec m a r m₁ ∧ Allows m₁ as rs m'
  | _, _, _ => False

variable {step spec} {R : σ → τ → Prop} {ok : α → Prop}

/-- **The simulation rule.** Where every step from related states is defined and allowed,
and leads to related states, every run is. -/
theorem simulate
    (hstep : ∀ s m a, R s m → ok a → ∃ s' r m', step s a = some (s', r) ∧ spec m a r m' ∧ R s' m')
    {s : σ} {m : τ} (hR : R s m) (as : List α) (hok : ∀ a ∈ as, ok a) :
    ∃ rs s' m', outputs step s as = some (rs, s') ∧ Allows spec m as rs m' ∧ R s' m' := by
  induction as generalizing s m with
  | nil => exact ⟨[], s, m, rfl, rfl, hR⟩
  | cons a as ih =>
    obtain ⟨s1, r, m1, hs1, hspec, hR1⟩ := hstep s m a hR (hok a List.mem_cons_self)
    obtain ⟨rs, s', m', hrun, hall, hR'⟩ :=
      ih hR1 fun a' ha' => hok a' (List.mem_cons_of_mem a ha')
    refine ⟨r :: rs, s', m', ?_, ⟨m1, hspec, hall⟩, hR'⟩
    rw [outputs, hs1]
    simp [hrun]

/-- Every step of a run, as long as the calls are legal in the state of the specification, is
defined and allowed, and the states stay related. -/
def Follows (legal : τ → α → Prop) (R : σ → τ → Prop) (step : σ → α → Option (σ × ρ))
    (spec : τ → α → ρ → τ → Prop) (s : σ) (m : τ) : List α → Prop
  | [] => R s m
  | a :: as => R s m ∧ (legal m a →
      ∃ s' r m', step s a = some (s', r) ∧ spec m a r m' ∧ Follows legal R step spec s' m' as)

/-- The simulation rule for calls that are legal in some states only. -/
theorem follows_of_step {legal : τ → α → Prop} (hstep : ∀ s m a, R s m → legal m a →
      ∃ s' r m', step s a = some (s', r) ∧ spec m a r m' ∧ R s' m')
    {s : σ} {m : τ} (hR : R s m) (as : List α) : Follows legal R step spec s m as := by
  induction as generalizing s m with
  | nil => exact hR
  | cons a as ih =>
    refine ⟨hR, fun hlegal => ?_⟩
    obtain ⟨s', r, m', hs', hspec, hR'⟩ := hstep s m a hR hlegal
    exact ⟨s', r, m', hs', hspec, ih hR'⟩

/-- The same along a run that a guard holds of. -/
theorem follows_of_along {legal : τ → α → Prop} {G : σ → α → Prop}
    (hstep : ∀ s m a, R s m → legal m a → G s a →
      ∃ s' r m', step s a = some (s', r) ∧ spec m a r m' ∧ R s' m')
    {s : σ} {m : τ} (hR : R s m) {as : List α}
      (h : Along (fun s a => (step s a).map Prod.fst) G s as) :
    Follows legal R step spec s m as := by
  induction as generalizing s m with
  | nil => exact hR
  | cons a as ih =>
    refine ⟨hR, fun hlegal => ?_⟩
    obtain ⟨s', r, m', hs', hspec, hR'⟩ := hstep s m a hR hlegal h.1
    exact ⟨s', r, m', hs', hspec, ih hR' (h.2 s' (by simp [hs']))⟩

end

end Run

variable {ε σ α β : Type}

/-!
### Computations in `Option`

**Total correctness** of computations in `Option`.

A model of code in which a null pointer may be followed, a `BUG_ON` may fire or a loop may
not end is a function into `Option`, with `none` for all three. `Ends c Q` says that the
computation `c` comes to an end and that its result is in `Q`; so it never follows from a
computation that faults. The rules are those of a Hoare logic with the state passed by hand.
-/

/-- The computation comes to an end, with a result in `Q`. -/
def Ends (c : Option α) (Q : α → Prop) : Prop := ∃ a, c = some a ∧ Q a

namespace Ends

theorem ret (h : Q a) : Ends (some a) Q := ⟨a, rfl, h⟩

theorem mono (h : Ends c R) (hQ : ∀ a, R a → Q a) : Ends c Q := by
  obtain ⟨a, hc, ha⟩ := h
  exact ⟨a, hc, hQ a ha⟩

/-- **Sequencing.** The second computation starts from any result the first may have. -/
theorem bind {Q : β → Prop} (h : Ends c R) (hk : ∀ a, R a → Ends (k a) Q) : Ends (c >>= k) Q := by
  obtain ⟨a, rfl, ha⟩ := h
  exact hk a ha

/-- Sequencing after a computation whose result is known. -/
theorem bind_eq {Q : β → Prop} (he : c = some a) (hk : Ends (k a) Q) : Ends (c >>= k) Q := by
  subst he
  exact hk

theorem ite {p : Prop} [Decidable p] (h : p → Ends c Q) (h' : ¬ p → Ends c' Q) :
    Ends (if p then c else c') Q := by
  by_cases hp : p
  · rw [if_pos hp]
    exact h hp
  · rw [if_neg hp]
    exact h' hp

end Ends

/-- A computation in `Except` that comes back has come back from its first part. -/
theorem bind_eq_ok {ε : Type} {x : Except ε α} {k : α → Except ε β} {b : β} :
    (x >>= k) = .ok b ↔ ∃ a, x = .ok a ∧ k a = .ok b := by
  cases x with
  | error err => exact iff_of_false nofun (fun ⟨_, h, _⟩ => nomatch h)
  | ok a => exact ⟨fun h => ⟨a, rfl, h⟩, fun ⟨_, ha, h⟩ => Except.ok.inj ha ▸ h⟩

/-!
### Programs with a state

**Hoare triples** for programs that change a state and may stop early.

`Triple P p Q E` says that from a state in `P` the program `p` either comes to its
end with a result in `Q` or stops in a state in `E`. Unlike in a logic of total
results the exceptional postcondition is about the state at the very instruction
that stopped, which is what matters for machine code whose accesses can fault.
-/

variable {k : α → EStateM ε σ β} {p : EStateM ε σ α} {a : α}

/-- The state in which a program ends or stops. -/
def exitState : EStateM.Result ε σ α → σ
  | .ok _ s => s
  | .error _ s => s

/-- A program after one that ends. -/
theorem bind_of_ok (h : p s = .ok a s') : (p >>= k) s = k a s' := by
  simp only [Bind.bind, EStateM.bind, h]

/-- A program after one that stops is not reached. -/
theorem bind_of_error (h : p s = .error e s') : (p >>= k) s = .error e s' := by
  simp only [Bind.bind, EStateM.bind, h]

theorem discard_of_ok (h : p s = .ok a s') : discard p s = .ok () s' := by
  simp only [Functor.discard, Functor.mapConst, EStateM.map, Function.comp, h]

/-- From `P`, the program ends in `Q` or stops in `E`. -/
def Triple (P : σ → Prop) (p : EStateM ε σ α) (Q : α → σ → Prop) (E : σ → Prop) : Prop :=
  ∀ s, P s →
    match p s with
    | .ok a s' => Q a s'
    | .error _ s' => E s'

namespace Triple

variable {R : β → σ → Prop}

theorem pure (h : ∀ s, P s → Q a s) : Triple P (pure a : EStateM ε σ α) Q E :=
  h

/-- **Sequencing.** The second program starts where the first ended. -/
theorem bind (hp : Triple P p Q E) (hk : ∀ a, Triple (Q a) (k a) R E) : Triple P (p >>= k) R E := by
  intro s hs
  have h := hp s hs
  simp only [Bind.bind, EStateM.bind]
  cases hr : p s with
  | ok a s' =>
    rw [hr] at h
    exact hk a s' h
  | error e s' =>
    rw [hr] at h
    exact h

theorem ite {c : Prop} [Decidable c] (hp : c → Triple P p Q E) (hq : ¬ c → Triple P q Q E) :
    Triple P (if c then p else q) Q E := by
  by_cases hc : c
  · rw [if_pos hc]
    exact hp hc
  · rw [if_neg hc]
    exact hq hc

/-- Strengthening the precondition. -/
theorem pre (hp : Triple P p Q E) (h : ∀ s, P' s → P s) : Triple P' p Q E :=
  fun s hs => hp s (h s hs)

/-- Weakening what is said about a program that stops. -/
theorem stops (hp : Triple P p Q E) (h : ∀ s, E s → E' s) : Triple P p Q E' := by
  intro s hs
  have hp := hp s hs
  cases hr : p s with
  | ok a s' =>
    rw [hr] at hp
    exact hp
  | error e s' =>
    rw [hr] at hp
    exact h s' hp

/-- Throwing the result away. -/
theorem discard (hp : Triple P p (fun _ => I) E) : Triple P (discard p) (fun _ => I) E := by
  intro s hs
  have h := hp s hs
  simp only [Functor.discard, Functor.mapConst, EStateM.map, Function.comp]
  cases hr : p s with
  | ok a s' =>
    rw [hr] at h
    exact h
  | error e s' =>
    rw [hr] at h
    exact h

/-- Reading the state: the rest of the program may use what it says. -/
theorem get {k : σ → EStateM ε σ β} (h : ∀ c, P c → Triple (fun s => s = c ∧ P s) (k c) R E) :
    Triple P (MonadState.get >>= k) R E :=
  fun s hs => h s hs s ⟨rfl, hs⟩

theorem modify {f : σ → σ} {Q : PUnit → σ → Prop} (h : ∀ s, P s → Q ⟨⟩ (f s)) :
    Triple P (modify f : EStateM ε σ PUnit) Q E :=
  h

theorem throw (h : ∀ s, P s → E s) : Triple P (throw e : EStateM ε σ α) Q E :=
  h

/-- A condition for both exits holds in the state the program leaves. -/
theorem exitState (hp : Triple P p (fun _ => I) I) (hs : P s) : I (exitState (p s)) := by
  have h := hp s hs
  cases hr : p s with
  | ok a s' =>
    rw [hr] at h
    exact h
  | error e s' =>
    rw [hr] at h
    exact h

end Triple

/-! ### Programs with one result -/

/-- From every state, the program ends with the result `a` and the state moves along `R`. -/
def Gives (R : σ → σ → Prop) (p : EStateM ε σ α) (a : α) : Prop :=
  ∀ s, ∃ s', p s = .ok a s' ∧ R s s'

namespace Gives

variable {R : σ → σ → Prop}

theorem pure (hrefl : ∀ s, R s s) (a : α) : Gives R (pure a : EStateM ε σ α) a :=
  fun s => ⟨s, rfl, hrefl s⟩

theorem bind (htrans : ∀ {s t u}, R s t → R t u → R s u) (hp : Gives R p a) (hk : Gives R (k a) c)
    : Gives R (p >>= k) c := by
  intro s
  obtain ⟨t, ht, hst⟩ := hp s
  obtain ⟨u, hu, htu⟩ := hk t
  exact ⟨u, (bind_of_ok ht).trans hu, htrans hst htu⟩

end Gives

end SilanKernel

import Mathlib.Tactic.Common

namespace Emission

variable {σ ρ ε : Type*}

/-- What one step does: it hands out a result, goes on without one, or stops. -/
inductive Step (σ ρ ε : Type*) where
  | emit (r : ρ) (s : σ)
  | skip (s : σ)
  | stop (e : ε) (s : σ)

/-- The state behind the step. -/
def Step.state : Step σ ρ ε → σ
  | .emit _ s => s
  | .skip s => s
  | .stop _ s => s

def Step.Goes : Step σ ρ ε → Prop
  | .stop _ _ => False
  | _ => True

/-- The results, why the machine stopped and where, within so many steps. -/
def run (step : σ → Step σ ρ ε) : Nat → σ → Option (List ρ × ε × σ)
  | 0, _ => none
  | n + 1, s =>
    match step s with
    | .emit r t => (run step n t).map fun out => (r :: out.1, out.2)
    | .skip t => run step n t
    | .stop e t => some ([], e, t)

/-- The same without a count of the steps. -/
inductive Runs (step : σ → Step σ ρ ε) : σ → List ρ → ε → σ → Prop where
  | emit {s t u r rs e} : step s = .emit r t → Runs step t rs e u → Runs step s (r :: rs) e u
  | skip {s t u rs e} : step s = .skip t → Runs step t rs e u → Runs step s rs e u
  | stop {s t e} : step s = .stop e t → Runs step s [] e t

variable {step : σ → Step σ ρ ε}

theorem runs_of_emit {s t u : σ} {r : ρ} {rs : List ρ} {e : ε} (h : step s = .emit r t) :
    Runs step s (r :: rs) e u ↔ Runs step t rs e u := by
  constructor
  · intro hr
    cases hr with
    | emit h' rest => cases h.symm.trans h'; exact rest
    | skip h' rest => cases h.symm.trans h'
  · exact Runs.emit h

theorem runs_of_skip {s t u : σ} {rs : List ρ} {e : ε} (h : step s = .skip t) :
    Runs step s rs e u ↔ Runs step t rs e u := by
  constructor
  · intro hr
    cases hr with
    | emit h' rest => cases h.symm.trans h'
    | skip h' rest => cases h.symm.trans h'; exact rest
    | stop h' => cases h.symm.trans h'
  · exact Runs.skip h

theorem runs_of_stop {s t u : σ} {rs : List ρ} {e f : ε} (h : step s = .stop e t) :
    Runs step s rs f u ↔ rs = [] ∧ f = e ∧ u = t := by
  constructor
  · intro hr
    cases hr with
    | emit h' rest => cases h.symm.trans h'
    | skip h' rest => cases h.symm.trans h'
    | stop h' => cases h.symm.trans h'; exact ⟨rfl, rfl, rfl⟩
  · rintro ⟨rfl, rfl, rfl⟩
    exact Runs.stop h

/-- Two states with the same step cannot be told apart. -/
theorem runs_congr {s s' u : σ} {rs : List ρ} {e : ε} (h : step s = step s') :
    Runs step s rs e u ↔ Runs step s' rs e u := by
  cases hs : step s' with
  | emit r t =>
    cases rs with
    | nil =>
      constructor <;> intro hr <;> cases hr with
      | skip h' rest => simp [h, hs] at h'
      | stop h' => simp [h, hs] at h'
    | cons r' rs =>
      constructor <;> intro hr <;> cases hr with
      | emit h' rest => exact Runs.emit (by simpa [h] using h') rest
      | skip h' rest => simp [h, hs] at h'
  | skip t => rw [runs_of_skip (h.trans hs), runs_of_skip hs]
  | stop f t => rw [runs_of_stop (h.trans hs), runs_of_stop hs]

theorem runs_of_run {n : Nat} {s u : σ} {rs : List ρ} {e : ε} (h : run step n s = some (rs, e, u)) :
    Runs step s rs e u := by
  induction n generalizing s rs with
  | zero => simp [run] at h
  | succ n ih =>
    rw [run] at h
    cases hs : step s with
    | emit r t =>
      simp only [hs, Option.map_eq_some_iff, Prod.exists] at h
      obtain ⟨rs', e', u', hrest, heq⟩ := h
      obtain ⟨rfl, he⟩ := Prod.mk.inj heq
      obtain ⟨rfl, rfl⟩ := Prod.mk.inj he
      exact Runs.emit hs (ih hrest)
    | skip t =>
      simp only [hs] at h
      exact Runs.skip hs (ih h)
    | stop f t =>
      simp only [hs, Option.some.injEq, Prod.mk.injEq] at h
      obtain ⟨rfl, rfl, rfl⟩ := h
      exact Runs.stop hs

theorem runs_unique {s u u' : σ} {rs rs' : List ρ} {e e' : ε} (h : Runs step s rs e u)
    (h' : Runs step s rs' e' u') : rs = rs' ∧ e = e' ∧ u = u' := by
  induction h generalizing rs' with
  | emit hs rest ih =>
    cases h' with
    | emit hs' rest' =>
      cases hs.symm.trans hs'
      obtain ⟨rfl, rfl, rfl⟩ := ih rest'
      exact ⟨rfl, rfl, rfl⟩
    | skip hs' rest' => cases hs.symm.trans hs'
    | stop hs' => cases hs.symm.trans hs'
  | skip hs rest ih => exact ih ((runs_of_skip hs).mp h')
  | stop hs =>
    obtain ⟨rfl, rfl, rfl⟩ := (runs_of_stop hs).mp h'
    exact ⟨rfl, rfl, rfl⟩

/-- What every step keeps holds where the machine stops. -/
theorem Runs.keeps {P : σ → Prop} (h : ∀ s, P s → P (step s).state) {s u : σ} {rs : List ρ} {e : ε}
    (hr : Runs step s rs e u) (hs : P s) : P u := by
  induction hr with
  | emit hstep rest ih =>
    have hk := h _ hs
    rw [hstep] at hk
    exact ih hk
  | skip hstep rest ih =>
    have hk := h _ hs
    rw [hstep] at hk
    exact ih hk
  | stop hstep =>
    have hk := h _ hs
    rw [hstep] at hk
    exact hk

/-- It is enough that it holds behind the first step. -/
theorem Runs.keeps_behind {P : σ → Prop} (h : ∀ s, P s → P (step s).state) {s u : σ} {rs : List ρ}
    {e : ε} (hr : Runs step s rs e u) (hs : P (step s).state) : P u := by
  cases hr with
  | emit hstep rest =>
    rw [hstep] at hs
    exact rest.keeps h hs
  | skip hstep rest =>
    rw [hstep] at hs
    exact rest.keeps h hs
  | stop hstep =>
    rw [hstep] at hs
    exact hs

/-- A measure that every step lowers bounds the steps. -/
theorem run_isSome {P : σ → Prop} (measure : σ → Nat) (hkeep : ∀ s, P s → P (step s).state)
    (hlower : ∀ s, P s → (step s).Goes → measure (step s).state < measure s)
    {n : Nat} {s : σ} (hs : P s) (h : measure s < n) : (run step n s).isSome := by
  induction n generalizing s with
  | zero => omega
  | succ n ih =>
    have hk := hkeep s hs
    have hl := hlower s hs
    rw [run]
    cases hstep : step s with
    | emit r t =>
      rw [hstep] at hk hl
      have hlt := hl trivial
      rw [Option.isSome_map]
      exact ih hk (by dsimp only [Step.state] at hlt; omega)
    | skip t =>
      rw [hstep] at hk hl
      have hlt := hl trivial
      exact ih hk (by dsimp only [Step.state] at hlt; omega)
    | stop e t => rfl

/-- A run that had steps enough is what the machine does. -/
theorem run_eq_some_iff {n : Nat} {s u : σ} {rs : List ρ} {e : ε} (h : (run step n s).isSome) :
    run step n s = some (rs, e, u) ↔ Runs step s rs e u := by
  constructor
  · exact runs_of_run
  · intro hr
    obtain ⟨⟨rs', e', u'⟩, hout⟩ := Option.isSome_iff_exists.mp h
    obtain ⟨rfl, rfl, rfl⟩ := runs_unique hr (runs_of_run hout)
    exact hout

end Emission

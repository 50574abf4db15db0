/-
Machines whose operations may fail, and one machine standing for another.

A run gives the outputs of its operations in order, and fails with the first
that fails. Where related states answer every operation alike, and stay
related, their runs cannot be told apart.
-/
import Mathlib.Data.Option.Basic

namespace Simulation

variable {σ τ ω ο : Type*}

/-- The outputs of a run, and the state after it. -/
def run (step : σ → ω → Option (ο × σ)) : σ → List ω → Option (List ο × σ)
  | s, [] => some ([], s)
  | s, op :: ops => do
    let (out, s) ← step s op
    let (outs, s) ← run step s ops
    return (out :: outs, s)

/-- Both fail, or both give the same output and related states. -/
inductive Answers (R : σ → τ → Prop) : Option (ο × σ) → Option (ο × τ) → Prop
  | fails : Answers R none none
  | returns {out s t} : R s t → Answers R (some (out, s)) (some (out, t))

/-- A look at the state that leaves it as it is. -/
theorem Answers.look {α : Type*} {R : σ → τ → Prop} {s : σ} {t : τ} (h : R s t) (seen : Option α) (out : α → ο) :
    Answers R (seen.map fun value => (out value, s)) (seen.map fun value => (out value, t)) := by
  cases seen with
  | none => exact .fails
  | some value => exact .returns h

/-- Related states answer the operations of this kind alike. -/
def SimulatesOn (kind : ω → Prop) (R : σ → τ → Prop) (step : σ → ω → Option (ο × σ)) (step' : τ → ω → Option (ο × τ)) :
    Prop :=
  ∀ ⦃s t⦄, R s t → ∀ op, kind op → Answers R (step s op) (step' t op)

/-- Related states answer alike. -/
def Simulates (R : σ → τ → Prop) (step : σ → ω → Option (ο × σ)) (step' : τ → ω → Option (ο × τ)) : Prop :=
  ∀ ⦃s t⦄, R s t → ∀ op, Answers R (step s op) (step' t op)

theorem Answers.bind {ο' : Type*} {R : σ → τ → Prop} {first : Option (ο × σ)} {first' : Option (ο × τ)}
    {next : ο × σ → Option (ο' × σ)} {next' : ο × τ → Option (ο' × τ)} (h : Answers R first first')
    (hnext : ∀ {out s t}, R s t → Answers R (next (out, s)) (next' (out, t))) :
    Answers R (first.bind next) (first'.bind next') := by
  cases h with
  | fails => exact .fails
  | returns hst => exact hnext hst

/-- **A run of related states**: the same outputs, or both fail. -/
theorem SimulatesOn.runs {kind : ω → Prop} {R : σ → τ → Prop} {step : σ → ω → Option (ο × σ)}
    {step' : τ → ω → Option (ο × τ)} (h : SimulatesOn kind R step step') {s : σ} {t : τ} (hst : R s t) {ops : List ω}
    (hops : ∀ op ∈ ops, kind op) : Answers R (run step s ops) (run step' t ops) := by
  induction ops generalizing s t with
  | nil => exact .returns hst
  | cons op ops ih =>
    obtain ⟨hop, hops⟩ := List.forall_mem_cons.mp hops
    exact (h hst op hop).bind fun hst => (ih hst hops).bind fun hst => .returns hst

theorem Simulates.runs {R : σ → τ → Prop} {step : σ → ω → Option (ο × σ)} {step' : τ → ω → Option (ο × τ)}
    (h : Simulates R step step') {s : σ} {t : τ} (hst : R s t) (ops : List ω) :
    Answers R (run step s ops) (run step' t ops) :=
  @SimulatesOn.runs _ _ _ _ (fun _ => True) _ _ _ (fun _ _ hst op _ => h hst op) _ _ hst _ fun _ _ => trivial

/-- What one side returns, the other returns. -/
theorem Answers.of_right {R : σ → τ → Prop} {first : Option (ο × σ)} {first' : Option (ο × τ)}
    (h : Answers R first first') {out : ο} {t : τ} (ht : first' = some (out, t)) :
    ∃ s, first = some (out, s) ∧ R s t := by
  cases h with
  | fails => cases ht
  | @returns out' s t' hst =>
    cases ht
    exact ⟨s, rfl, hst⟩

theorem Answers.outputs {R : σ → τ → Prop} {first : Option (ο × σ)} {first' : Option (ο × τ)} (h : Answers R first first') :
    first.map Prod.fst = first'.map Prod.fst := by
  cases h <;> rfl

end Simulation

import Mathlib.Data.List.Basic
import Mathlib.Data.List.Induction

namespace Levos.Framework

variable {σ ε : Type*}

/-- A run of a labelled step relation, with the labels in the order they happened. -/
inductive Run (step : σ → ε → σ → Prop) : σ → List ε → σ → Prop
  | nil (s : σ) : Run step s [] s
  | cons {s t u : σ} {e : ε} {es : List ε} :
      step s e t → Run step t es u → Run step s (e :: es) u

namespace Run

variable {step step' : σ → ε → σ → Prop} {s t u : σ} {e : ε} {es fs : List ε}

theorem single (h : step s e t) : Run step s [e] t := .cons h (.nil t)

theorem append (h : Run step s es t) (k : Run step t fs u) : Run step s (es ++ fs) u := by
  induction h with
  | nil s => exact k
  | cons hs _ ih => exact .cons hs (ih k)

theorem snoc (h : Run step s es t) (k : step t e u) : Run step s (es ++ [e]) u :=
  h.append (single k)

/-- Any cut of the labels is a cut of the run. -/
theorem split (h : Run step s (es ++ fs) u) : ∃ t, Run step s es t ∧ Run step t fs u := by
  induction es generalizing s with
  | nil => exact ⟨s, .nil s, h⟩
  | cons e es ih =>
    cases h with
    | cons hs hr =>
      obtain ⟨t, h1, h2⟩ := ih hr
      exact ⟨t, .cons hs h1, h2⟩

theorem snoc_cases (h : Run step s (es ++ [e]) u) : ∃ t, Run step s es t ∧ step t e u := by
  obtain ⟨t, h1, h2⟩ := h.split
  cases h2 with
  | cons hst hr =>
    cases hr
    exact ⟨t, h1, hst⟩

/-- What every step preserves, every run preserves. -/
theorem invariant (I : σ → Prop) (hstep : ∀ s e t, I s → step s e t → I t)
    (h : Run step s es t) (hs : I s) : I t := by
  induction h with
  | nil s => exact hs
  | cons hst _ ih => exact ih (hstep _ _ _ hs hst)

/-- An invariant that also speaks of the labels so far. -/
theorem historyInvariant (I : List ε → σ → Prop)
    (hstep : ∀ es s e t, I es s → step s e t → I (es ++ [e]) t)
    (pre : List ε) (h : Run step s es t) (hs : I pre s) : I (pre ++ es) t := by
  induction h generalizing pre with
  | nil s => simpa using hs
  | @cons s t u e es hst _ ih => simpa using ih _ (hstep _ _ _ _ hs hst)

/-- Where each step of one system is matched by a step of another, each run is matched by a run. -/
theorem simulate {σ' ε' : Type*} {a : σ'} (next : σ' → ε' → σ' → Prop) (R : σ → σ' → Prop)
    (label : ε → ε') (hstep : ∀ s e t a, R s a → step s e t → ∃ b, next a (label e) b ∧ R t b)
    (h : Run step s es t) (hs : R s a) : ∃ b, Run next a (es.map label) b ∧ R t b := by
  induction h generalizing a with
  | nil s => exact ⟨a, .nil a, hs⟩
  | cons hst _ ih =>
    obtain ⟨b, hab, hR⟩ := hstep _ _ _ a hs hst
    obtain ⟨c, hbc, hRc⟩ := ih hR
    exact ⟨c, .cons hab hbc, hRc⟩

/-- Every label was the label of a step taken from a state the run had reached. -/
theorem fired (h : Run step s es u) (he : e ∈ es) :
    ∃ pre t t' post, es = pre ++ e :: post ∧ Run step s pre t ∧ step t e t' ∧ Run step t' post u := by
  obtain ⟨pre, post, rfl⟩ := List.append_of_mem he
  obtain ⟨t, h1, h2⟩ := h.split
  cases h2 with
  | cons hst hr => exact ⟨pre, t, _, post, rfl, h1, hst, hr⟩

end Run

/-- `P` holds of every step that a run of the labels `es` from `s` takes. -/
def EachStep (step : σ → ε → σ → Prop) (s : σ) (es : List ε) (P : σ → ε → σ → Prop) : Prop :=
  ∀ pre e post t t', es = pre ++ e :: post → Run step s pre t → step t e t' → P t e t'

/-- A law about the labels so far holds at every point of a run. -/
def AtEveryPoint (step : σ → ε → σ → Prop) (s : σ) (es : List ε) (P : List ε → σ → Prop) : Prop :=
  ∀ pre post t, es = pre ++ post → Run step s pre t → P pre t

/-- `P` holds of the state and the label wherever a run of the labels `es` from `s` comes to a label,
whether the step is taken or not. -/
def EachLabel (step : σ → ε → σ → Prop) (s : σ) (es : List ε) (P : σ → ε → Prop) : Prop :=
  ∀ pre e post t, es = pre ++ e :: post → Run step s pre t → P t e

section Points

variable {step : σ → ε → σ → Prop} {s : σ} {es : List ε} {P : List ε → σ → Prop}
  {Q : σ → ε → σ → Prop}

theorem EachStep.nil : EachStep step s [] Q := by
  intro pre e post t t' hes
  simp at hes

theorem EachStep.cons {e : ε} (h : ∀ t, step s e t → Q s e t)
    (hrest : ∀ t, step s e t → EachStep step t es Q) : EachStep step s (e :: es) Q := by
  intro pre e' post t t' hes hrun hst
  cases hrun with
  | nil =>
    cases hes
    exact h t' hst
  | cons hfirst hpre =>
    obtain ⟨rfl, hcut⟩ := List.cons_eq_cons.mp hes
    exact hrest _ hfirst _ e' post t t' hcut hpre hst

/-- A law that every step of a run goes on with holds at every point. -/
theorem atEveryPoint_of_step (h0 : P [] s)
    (hstep : ∀ pre e post t t', es = pre ++ e :: post → Run step s pre t → P pre t → step t e t' →
      P (pre ++ [e]) t') : AtEveryPoint step s es P := by
  intro pre
  induction pre using List.reverseRecOn with
  | nil =>
    intro post t hes hrun
    cases hrun
    exact h0
  | append_singleton pre e ih =>
    intro post t' hes hrun
    obtain ⟨t, hpre, hst⟩ := hrun.snoc_cases
    have hcut : es = pre ++ e :: post := by simp [hes]
    have hbefore : P pre t := ih (e :: post) t hcut hpre
    exact hstep pre e post t t' hcut hpre hbefore hst

/-- A law that each step goes on with, provided `Q` holds of the step. -/
theorem EachStep.atEveryPoint (h : EachStep step s es Q) (h0 : P [] s)
    (hstep : ∀ pre e t t', P pre t → step t e t' → Q t e t' → P (pre ++ [e]) t') :
    AtEveryPoint step s es P := by
  apply atEveryPoint_of_step h0
  intro pre e post t t' hcut hpre hbefore hst
  exact hstep pre e t t' hbefore hst (h pre e post t t' hcut hpre hst)

/-- Where a step goes on with a law exactly when `Q` holds of it, the law holds at every point of a run
exactly when `Q` holds of every step. -/
theorem atEveryPoint_iff (h0 : P [] s)
    (hstep : ∀ pre e t t', P pre t → step t e t' → (P (pre ++ [e]) t' ↔ Q t e t')) :
    AtEveryPoint step s es P ↔ EachStep step s es Q := by
  constructor
  · intro hall pre e post t t' hes hpre hst
    have hbefore : P pre t := hall pre (e :: post) t hes hpre
    apply (hstep pre e t t' hbefore hst).mp
    exact hall (pre ++ [e]) post t' (by simp [hes]) (hpre.snoc hst)
  · intro hall
    apply hall.atEveryPoint h0
    intro pre e t t' hbefore hst
    exact (hstep pre e t t' hbefore hst).mpr

theorem EachLabel.nil {R : σ → ε → Prop} : EachLabel step s [] R := by
  intro pre e post t hes
  simp at hes

theorem EachLabel.cons {e : ε} {R : σ → ε → Prop} (h : R s e)
    (hrest : ∀ t, step s e t → EachLabel step t es R) : EachLabel step s (e :: es) R := by
  intro pre e' post t hes hrun
  cases hrun with
  | nil =>
    cases hes
    exact h
  | cons hfirst hpre =>
    obtain ⟨rfl, hcut⟩ := List.cons_eq_cons.mp hes
    exact hrest _ hfirst _ e' post t hcut hpre

/-- What holds of a state stays true as long as `P` holds of each label come to. -/
theorem EachLabel.atEveryPoint {I : σ → Prop} {R : σ → ε → Prop} (h : EachLabel step s es R) (h0 : I s)
    (hstep : ∀ t e t', e ∈ es → I t → R t e → step t e t' → I t') :
    AtEveryPoint step s es fun _ t => I t := by
  apply atEveryPoint_of_step (P := fun _ t => I t) h0
  intro pre e post t t' hcut hpre hbefore hst
  have hmem : e ∈ es := by simp [hcut]
  exact hstep t e t' hmem hbefore (h pre e post t hcut hpre) hst

/-- Where two laws of a label agree in the states that the first of them keeps to, they agree of runs. -/
theorem eachLabel_iff {I : σ → Prop} {R S : σ → ε → Prop} (h0 : I s)
    (hiff : ∀ t e, e ∈ es → I t → (R t e ↔ S t e))
    (hstep : ∀ t e t', e ∈ es → I t → R t e → step t e t' → I t') :
    EachLabel step s es R ↔ EachLabel step s es S := by
  constructor
  · intro hall pre e post t hes hrun
    have hstate : I t := hall.atEveryPoint h0 hstep pre (e :: post) t hes hrun
    exact (hiff t e (by simp [hes]) hstate).mp (hall pre e post t hes hrun)
  · intro hall pre e post t hes hrun
    have hstate : I t := by
      refine hall.atEveryPoint h0 ?_ pre (e :: post) t hes hrun
      intro t e t' he hI hS hst
      exact hstep t e t' he hI ((hiff t e he hI).mpr hS) hst
    exact (hiff t e (by simp [hes]) hstate).mpr (hall pre e post t hes hrun)

end Points

end Levos.Framework

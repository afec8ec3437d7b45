import Mathlib.Logic.Function.Iterate
import Mathlib.Logic.Relation

/-! # Invariants over runs

A run is a chain of steps of a transition relation. An invariant is shown once
for a step; `Run.invariant` carries it along every run. -/

namespace Run

variable {σ : Type*} {step : σ → σ → Prop}

/-- `t` is reached from `s` by finitely many steps. -/
abbrev Reaches (step : σ → σ → Prop) : σ → σ → Prop := Relation.ReflTransGen step

/-- What every step preserves, every run preserves. -/
theorem invariant (inv : σ → Prop) (hstep : ∀ s t, inv s → step s t → inv t) {s t : σ}
    (hs : inv s) (h : Reaches step s t) : inv t := by
  induction h with
  | refl => exact hs
  | tail _ hlast ih => exact hstep _ _ ih hlast

/-- A run of a smaller relation is a run of a larger one. -/
theorem mono {step' : σ → σ → Prop} (hsub : ∀ s t, step s t → step' s t) {s t : σ}
    (h : Reaches step s t) : Reaches step' s t :=
  Relation.ReflTransGen.mono hsub _ _ h

/-- Steps that come nearer to a goal by some measure come to it. -/
theorem comes_to {f : σ → σ} {goal : σ → Prop} (inv : σ → Nat → Prop)
    (hnear : ∀ s k, inv s k → goal s ∨ ∃ j, j < k ∧ inv (f s) j) {s : σ} {k : Nat} (hs : inv s k) :
    ∃ n, goal (f^[n] s) := by
  induction k using Nat.strongRecOn generalizing s with
  | ind k ih =>
    rcases hnear s k hs with hgoal | ⟨j, hj, hnext⟩
    · exact ⟨0, hgoal⟩
    · obtain ⟨n, hn⟩ := ih j hj hnext
      exact ⟨n + 1, hn⟩

variable {ι : Type*} {next : σ → ι → σ → Prop} {P Q : σ → ι → Prop}

/-- A property of every input of a run, at the state the input finds. -/
def Throughout (next : σ → ι → σ → Prop) (P : σ → ι → Prop) : σ → List ι → Prop
  | _, [] => True
  | s, i :: is => P s i ∧ ∀ t, next s i t → Throughout next P t is

/-- Throughout the run of a function a decidable property can be checked. -/
instance decidableThroughout {step : σ → ι → Option σ} [∀ s i, Decidable (P s i)] :
    (s : σ) → (is : List ι) → Decidable (Throughout (fun s i t => step s i = some t) P s is)
  | _, [] => isTrue trivial
  | s, i :: is =>
    match hstep : step s i with
    | none => decidable_of_iff (P s i)
        ⟨fun hp => ⟨hp, fun _ ht => absurd (hstep.symm.trans ht) nofun⟩, And.left⟩
    | some t =>
      have _ : Decidable (Throughout (fun s i t => step s i = some t) P t is) :=
        decidableThroughout t is
      decidable_of_iff (P s i ∧ Throughout (fun s i t => step s i = some t) P t is)
        ⟨fun hboth => ⟨hboth.1, fun _ ht => Option.some.inj (hstep.symm.trans ht) ▸ hboth.2⟩,
          fun hall => ⟨hall.1, hall.2 t hstep⟩⟩

variable {R : σ → ι → Prop}

theorem throughout_of_forall (h : ∀ s i, R s i) (s : σ) (is : List ι) : Throughout next R s is := by
  induction is generalizing s with
  | nil => trivial
  | cons i is ih => exact ⟨h s i, fun t _ => ih t⟩

/-- In a run whose inputs are as promised, two properties that agree where the
invariant holds, and keep it, agree throughout. -/
theorem throughout_iff_of (inv : σ → Prop) (hiff : ∀ s i, inv s → R s i → (P s i ↔ Q s i))
    (hstep : ∀ s i t, inv s → R s i → P s i → next s i t → inv t) {s : σ} (hs : inv s)
    {is : List ι} (hpromise : Throughout next R s is) :
    Throughout next P s is ↔ Throughout next Q s is := by
  induction is generalizing s with
  | nil => exact Iff.rfl
  | cons i is ih =>
    obtain ⟨hr, hlater⟩ := hpromise
    constructor
    · intro ⟨hp, hrest⟩
      exact ⟨(hiff s i hs hr).mp hp,
        fun t ht => (ih (hstep s i t hs hr hp ht) (hlater t ht)).mp (hrest t ht)⟩
    · intro ⟨hq, hrest⟩
      have hp := (hiff s i hs hr).mpr hq
      exact ⟨hp, fun t ht => (ih (hstep s i t hs hr hp ht) (hlater t ht)).mpr (hrest t ht)⟩

/-- Two properties that agree where the invariant holds, and keep it, agree
throughout a run. -/
theorem throughout_iff (inv : σ → Prop) (hiff : ∀ s i, inv s → (P s i ↔ Q s i))
    (hstep : ∀ s i t, inv s → P s i → next s i t → inv t) {s : σ} (hs : inv s) (is : List ι) :
    Throughout next P s is ↔ Throughout next Q s is :=
  throughout_iff_of inv (fun s i hinv _ => hiff s i hinv) (fun s i t hinv _ => hstep s i t hinv) hs
    (throughout_of_forall (fun _ _ => trivial) s is)

end Run

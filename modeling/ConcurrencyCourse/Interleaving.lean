import Mathlib.Algebra.GroupWithZero.Nat
import Mathlib.Data.List.Basic
import Mathlib.Data.List.Induction

/-!
Interleaving semantics over an executable step function. A label names one
atomic operation of one thread together with whatever the schedule decides;
`step` answers `none` where that operation cannot happen. Runs restricted by a
condition on the state before each step, run invariants and stuttering
simulations are stated once here for every machine.
-/

namespace ConcurrencyCourse.Interleaving

variable {State Label : Type*}

def guarded (enabled : Prop) [Decidable enabled] (after : State) : Option State :=
  if enabled then some after else none

@[simp] theorem guarded_eq_some {enabled : Prop} [Decidable enabled] {after final : State} :
    guarded enabled after = some final ↔ enabled ∧ after = final := by
  by_cases open' : enabled <;> simp [guarded, open']

@[simp] theorem guarded_isSome {enabled : Prop} [Decidable enabled] {after : State} :
    (guarded enabled after).isSome = true ↔ enabled := by
  by_cases open' : enabled <;> simp [guarded, open']

def run (step : State → Label → Option State) : State → List Label → Option State
  | s, [] => some s
  | s, label :: rest => (step s label).bind fun next => run step next rest

/-- The step function cut down to the steps a condition admits. -/
def restricted (step : State → Label → Option State) (allowed : State → Label → Prop)
    [∀ s label, Decidable (allowed s label)] (s : State) (label : Label) : Option State :=
  if allowed s label then step s label else none

def unrestricted (_ : State) (_ : Label) : Prop := True

/-- `Reaches step allowed init trace s`: some run from `init` performs the
operations of `trace` in order, ends in `s`, and takes every step from a state
in which `allowed` admits it. -/
inductive Reaches (step : State → Label → Option State) (allowed : State → Label → Prop)
    (init : State) : List Label → State → Prop where
  | start : Reaches step allowed init [] init
  | next {trace : List Label} {s after : State} (label : Label)
      (reached : Reaches step allowed init trace s) (admitted : allowed s label)
      (taken : step s label = some after) : Reaches step allowed init (trace ++ [label]) after

section Runs
variable {step : State → Label → Option State} {allowed : State → Label → Prop}
  {init s : State} {trace : List Label}

/-- The run rule: what holds initially and is kept by every admitted step holds
after every run. -/
theorem Reaches.invariant {Inv : State → Prop} (initially : Inv init)
    (kept : ∀ s label after, Inv s → allowed s label → step s label = some after → Inv after)
    (reached : Reaches step allowed init trace s) : Inv s := by
  induction reached with
  | start => exact initially
  | next label _ admitted taken ih => exact kept _ label _ ih admitted taken

theorem Reaches.length_le {Ranked : State → ℕ → Prop} {rank : ℕ} (initially : Ranked init rank)
    (lowers : ∀ s label after above, Ranked s above → allowed s label → step s label = some after →
      ∃ below < above, Ranked after below)
    (reached : Reaches step allowed init trace s) : trace.length ≤ rank := by
  suffices ∃ left, Ranked s left ∧ trace.length + left ≤ rank by
    obtain ⟨left, _, within⟩ := this
    omega
  induction reached with
  | start => exact ⟨rank, initially, by simp⟩
  | next label _ admitted taken ih =>
      obtain ⟨above, ranked, within⟩ := ih
      obtain ⟨below, less, lower⟩ := lowers _ label _ above ranked admitted taken
      refine ⟨below, lower, ?_⟩
      rw [List.length_append, List.length_singleton]
      omega

/-- The budget rule: where every step is paid for, by a charge on its label or out of what
is left to pay with, no run is longer than its charges. -/
theorem Reaches.length_le_charges (left : State → ℕ) (charge : Label → ℕ)
    (initially : left init = 0)
    (pays : ∀ trace s label after, Reaches step allowed init trace s → allowed s label →
      step s label = some after → left after + 1 ≤ left s + charge label)
    (reached : Reaches step allowed init trace s) :
    trace.length + left s ≤ (trace.map charge).sum := by
  induction reached with
  | start => simp [initially]
  | next label reached admitted taken ih =>
      have paid := pays _ _ label _ reached admitted taken
      simp only [List.length_append, List.length_singleton, List.map_append, List.map_cons,
        List.map_nil, List.sum_append_nat, List.sum_cons, List.sum_nil]
      omega

theorem Reaches.weaken {wider : State → Label → Prop}
    (implied : ∀ s label, allowed s label → wider s label)
    (reached : Reaches step allowed init trace s) : Reaches step wider init trace s := by
  induction reached with
  | start => exact .start
  | next label _ admitted taken ih => exact .next label ih (implied _ _ admitted) taken

theorem Reaches.free (reached : Reaches step allowed init trace s) :
    Reaches step unrestricted init trace s :=
  reached.weaken fun _ _ _ => trivial

theorem Reaches.append {middle : State} {rest : List Label}
    (first : Reaches step allowed init trace middle)
    (second : Reaches step allowed middle rest s) :
    Reaches step allowed init (trace ++ rest) s := by
  induction second with
  | start => simpa using first
  | next label _ admitted taken ih =>
      rw [← List.append_assoc]
      exact .next label ih admitted taken

theorem Reaches.cons {middle : State} (label : Label) (admitted : allowed init label)
    (taken : step init label = some middle) (rest : Reaches step allowed middle trace s) :
    Reaches step allowed init (label :: trace) s := by
  have first : Reaches step allowed init [label] middle := .next label .start admitted taken
  simpa using first.append rest

theorem reaches_snoc {label : Label} : Reaches step allowed init (trace ++ [label]) s ↔
    ∃ before, Reaches step allowed init trace before ∧ allowed before label ∧
      step before label = some s := by
  constructor
  · intro reached
    generalize whole : trace ++ [label] = full at reached
    cases reached with
    | start => simp at whole
    | next last reached admitted taken =>
        rcases List.append_inj' whole rfl with ⟨rfl, same⟩
        cases same
        exact ⟨_, reached, admitted, taken⟩
  · rintro ⟨before, reached, admitted, taken⟩
    exact .next label reached admitted taken

theorem Reaches.split {early rest : List Label}
    (reached : Reaches step allowed init (early ++ rest) s) :
    ∃ middle, Reaches step allowed init early middle ∧ Reaches step allowed middle rest s := by
  -- Runs grow at the end, so the induction takes the second part from its end.
  induction rest using List.reverseRecOn generalizing s with
  | nil => exact ⟨s, by simpa using reached, .start⟩
  | append_singleton rest last ih =>
      rw [← List.append_assoc] at reached
      rcases reaches_snoc.mp reached with ⟨before, earlier, admitted, taken⟩
      rcases ih earlier with ⟨middle, first, second⟩
      exact ⟨middle, first, .next last second admitted taken⟩

theorem run_append (early rest : List Label) :
    run step init (early ++ rest) = (run step init early).bind fun s => run step s rest := by
  induction early generalizing init with
  | nil => rfl
  | cons label early ih =>
      simp only [List.cons_append, run, Option.bind_assoc]
      exact Option.bind_congr fun next _ => ih

theorem Reaches.runs (reached : Reaches step allowed init trace s) :
    run step init trace = some s := by
  induction reached with
  | start => rfl
  | next label _ _ taken ih => simp [run_append, ih, run, taken]

theorem Reaches.around {early late : List Label} {label : Label}
    (reached : Reaches step allowed init (early ++ label :: late) s) :
    ∃ before after, Reaches step allowed init early before ∧ allowed before label ∧
      step before label = some after ∧ Reaches step allowed after late s := by
  rw [← List.singleton_append] at reached
  obtain ⟨before, first, rest⟩ := reached.split
  obtain ⟨after, one, last⟩ := rest.split
  obtain ⟨same, still, admitted, taken⟩ := reaches_snoc.mp (List.nil_append [label] ▸ one)
  cases Option.some.inj still.runs
  exact ⟨before, after, first, admitted, taken, last⟩

theorem Reaches.deterministic {other : State → Label → Prop} {s' : State}
    (first : Reaches step allowed init trace s) (second : Reaches step other init trace s') :
    s = s' :=
  Option.some.inj (first.runs.symm.trans second.runs)

theorem Reaches.both {other : State → Label → Prop}
    (first : Reaches step allowed init trace s) (second : Reaches step other init trace s) :
    Reaches step (fun s label => allowed s label ∧ other s label) init trace s := by
  induction first with
  | start => exact .start
  | next label reached admitted taken ih =>
      rcases reaches_snoc.mp second with ⟨before, earlier, also, _⟩
      cases reached.deterministic earlier
      exact .next label (ih earlier) ⟨admitted, also⟩ taken

theorem Reaches.admitting {may : Label → Prop} (reached : Reaches step allowed init trace s)
    (each : ∀ label ∈ trace, may label) :
    Reaches step (fun s label => allowed s label ∧ may label) init trace s := by
  induction reached with
  | start => exact .start
  | next label _ admitted taken ih =>
      have earlier := ih fun other member => each other (List.mem_append_left _ member)
      exact .next label earlier ⟨admitted, each label (by simp)⟩ taken

/-- Among the runs of a wider condition: where an admitted step keeps a property of runs
and a step that is not admitted breaks it at once, the admitted runs are exactly the runs
with the property throughout. -/
theorem reaches_exactly_within {wider : State → Label → Prop} {Good : List Label → State → Prop}
    (good : ∀ trace s, Reaches step (fun s label => wider s label ∧ allowed s label) init trace s →
      Good trace s)
    (bad : ∀ trace s label after,
      Reaches step (fun s label => wider s label ∧ allowed s label) init trace s →
      step s label = some after → ¬ allowed s label → ¬ Good (trace ++ [label]) after) :
    Reaches step (fun s label => wider s label ∧ allowed s label) init trace s ↔
      Reaches step wider init trace s ∧
        ∀ early s', early <+: trace → Reaches step wider init early s' → Good early s' := by
  constructor
  · intro reached
    refine ⟨reached.weaken fun _ _ both => both.1, ?_⟩
    rintro early s' ⟨rest, rfl⟩ early_reached
    rcases reached.split with ⟨middle, first, _⟩
    have same := first.deterministic early_reached
    exact same ▸ good early middle first
  · rintro ⟨reached, throughout⟩
    induction reached with
    | start => exact .start
    | @next trace s after label reached may taken ih =>
        -- The property holds on every prefix, hence on the run without the last step.
        have earlier := ih fun early s' shorter =>
          throughout early s' (shorter.trans (List.prefix_append trace [label]))
        by_cases admitted : allowed s label
        · exact .next label earlier ⟨may, admitted⟩ taken
        · exact absurd (throughout _ after (List.prefix_refl _) (.next label reached may taken))
            (bad trace s label after earlier taken admitted)

theorem reaches_exactly_along {Good : List Label → State → Prop}
    (good : ∀ trace s, Reaches step allowed init trace s → Good trace s)
    (bad : ∀ trace s label after, Reaches step allowed init trace s →
      step s label = some after → ¬ allowed s label → ¬ Good (trace ++ [label]) after) :
    Reaches step allowed init trace s ↔ Reaches step unrestricted init trace s ∧
      ∀ early s', early <+: trace → Reaches step unrestricted init early s' → Good early s' := by
  have free (trace : List Label) (s : State) : Reaches step allowed init trace s ↔
      Reaches step (fun s label => unrestricted s label ∧ allowed s label) init trace s :=
    ⟨fun reached => reached.weaken fun _ _ admitted => ⟨trivial, admitted⟩,
      fun reached => reached.weaken fun _ _ both => both.2⟩
  rw [free]
  exact reaches_exactly_within (fun trace s reached => good trace s ((free trace s).mpr reached))
    fun trace s label after reached => bad trace s label after ((free trace s).mpr reached)

theorem reaches_exactly {Good : State → Prop}
    (good : ∀ trace s, Reaches step allowed init trace s → Good s)
    (bad : ∀ trace s label after, Reaches step allowed init trace s →
      step s label = some after → ¬ allowed s label → ¬ Good after) :
    Reaches step allowed init trace s ↔ Reaches step unrestricted init trace s ∧
      ∀ early s', early <+: trace → Reaches step unrestricted init early s' → Good s' :=
  reaches_exactly_along good bad

/-- A run over the restricted step function is a run whose steps all meet the
condition; this is how a concrete run is evaluated. -/
theorem run_reaches [∀ s label, Decidable (allowed s label)]
    (ran : run (restricted step allowed) init trace = some s) :
    Reaches step allowed init trace s := by
  induction trace generalizing init with
  | nil =>
      cases ran
      exact .start
  | cons label rest ih =>
      obtain ⟨middle, first, later⟩ := Option.bind_eq_some_iff.mp ran
      by_cases admitted : allowed init label
      · rw [restricted, if_pos admitted] at first
        exact .cons label admitted first (ih later)
      · simp [restricted, admitted] at first

theorem run_free (ran : run step init trace = some s) :
    Reaches step unrestricted init trace s := by
  induction trace generalizing init with
  | nil =>
      cases ran
      exact .start
  | cons label rest ih =>
      obtain ⟨middle, first, later⟩ := Option.bind_eq_some_iff.mp ran
      exact .cons label trivial first (ih later)

/-- From here a thread is done after finitely many of its own steps, whichever it
takes, even if nobody else moves. -/
inductive FinishesAlone (step : State → Label → Option State) (own : Label → Prop)
    (done : State → Prop) : State → Prop where
  | finished {s : State} (ended : done s) : FinishesAlone step own done s
  | goes {s : State} (able : ∃ label, own label ∧ (step s label).isSome = true)
      (always : ∀ label after, own label → step s label = some after →
        FinishesAlone step own done after) : FinishesAlone step own done s

theorem FinishesAlone.next {own : Label → Prop} {done : State → Prop} {after : State}
    (finishes : FinishesAlone step own done s) (pending : ¬ done s) {label : Label}
    (mine : own label) (taken : step s label = some after) :
    FinishesAlone step own done after := by
  cases finishes with
  | finished ended => exact absurd ended pending
  | goes _ always => exact always label after mine taken

theorem FinishesAlone.through {own : Label → Prop} {done : State → Prop} {after : State}
    {label : Label} (mine : own label) (taken : step s label = some after)
    (only : ∀ other, own other → other = label ∨ step s other = none)
    (rest : FinishesAlone step own done after) : FinishesAlone step own done s := by
  refine .goes ⟨label, mine, by simp [taken]⟩ ?_
  intro other next also moved
  rcases only other also with rfl | stuck
  · cases taken.symm.trans moved
    exact rest
  · cases stuck.symm.trans moved

theorem FinishesAlone.no_loop {own : Label → Prop} {done : State → Prop}
    (finishes : FinishesAlone step own done s) (pending : ¬ done s) {label : Label}
    (mine : own label) : step s label ≠ some s := by
  induction finishes with
  | finished ended => exact absurd ended pending
  | goes _ _ ih => exact fun loops => ih label _ mine loops pending loops

/-- Stuttering simulation. A label that `observe` hides leaves the abstract
state alone; a visible one is an abstract step that the abstract condition
admits. -/
theorem Reaches.simulates_within {State' Label' : Type*}
    {step' : State' → Label' → Option State'} {allowed' : State' → Label' → Prop}
    {init' : State'} (observe : Label → Option Label') (relate : State → State' → Prop)
    (initially : relate init init')
    (square : ∀ s label after abstract, relate s abstract → allowed s label →
      step s label = some after →
      (observe label = none ∧ relate after abstract) ∨
      ∃ visible next, observe label = some visible ∧ allowed' abstract visible ∧
        step' abstract visible = some next ∧ relate after next)
    (reached : Reaches step allowed init trace s) :
    ∃ abstract, Reaches step' allowed' init' (trace.filterMap observe) abstract ∧
      relate s abstract := by
  induction reached with
  | start => exact ⟨init', .start, initially⟩
  | next label _ admitted taken ih =>
      obtain ⟨abstract, matched, related⟩ := ih
      rcases square _ label _ abstract related admitted taken with
        ⟨hidden, still⟩ | ⟨visible, next, shown, may, moved, still⟩
      · exact ⟨abstract, by simpa [hidden] using matched, still⟩
      · refine ⟨next, ?_, still⟩
        simpa [shown] using Reaches.next visible matched may moved

theorem Reaches.simulates {State' Label' : Type*} {step' : State' → Label' → Option State'}
    {init' : State'} (observe : Label → Option Label') (relate : State → State' → Prop)
    (initially : relate init init')
    (square : ∀ s label after abstract, relate s abstract → allowed s label →
      step s label = some after →
      (observe label = none ∧ relate after abstract) ∨
      ∃ visible next, observe label = some visible ∧ step' abstract visible = some next ∧
        relate after next)
    (reached : Reaches step allowed init trace s) :
    ∃ abstract, Reaches step' unrestricted init' (trace.filterMap observe) abstract ∧
      relate s abstract := by
  refine reached.simulates_within observe relate initially ?_
  intro s label after abstract related admitted taken
  rcases square s label after abstract related admitted taken with
    hidden | ⟨visible, next, shown, moved, still⟩
  · exact .inl hidden
  · exact .inr ⟨visible, next, shown, trivial, moved, still⟩

/-- Taking a call out of a run. While the call goes on (`inside`), `without` is the state
as it would be without it: the call begins where it changes nothing yet, its own steps do
not show, and every other step is the same step there. -/
theorem Reaches.erase (own : Label → Prop) {inside : State → Prop} {begins mute : Label → Prop}
    [DecidablePred own] {without : State → State} (initially : ¬ inside init)
    (square : ∀ trace s label after, Reaches step unrestricted init trace s →
      step s label = some after → inside after →
      (begins label ∧ without after = s) ∨
        (inside s ∧ own label ∧ mute label ∧ without after = without s) ∨
        (inside s ∧ ¬ own label ∧ step (without s) label = some (without after)))
    (reached : Reaches step unrestricted init trace s) (here : inside s) :
    ∃ early call middle, trace = early ++ call :: middle ∧ begins call ∧
      (∀ label ∈ middle, own label → mute label) ∧
      Reaches step unrestricted init (early ++ middle.filter fun label => ¬ own label)
        (without s) := by
  induction reached with
  | start => exact absurd here initially
  | @next trace s after label reached _ taken ih =>
      rcases square trace s label after reached taken here with
        ⟨begun, same⟩ | ⟨was, mine, quiet, same⟩ | ⟨was, other, moved⟩
      · refine ⟨trace, label, [], rfl, begun, nofun, ?_⟩
        simpa [same] using reached
      · obtain ⟨early, call, middle, rfl, begun, mutes, rest⟩ := ih was
        refine ⟨early, call, middle ++ [label], by simp, begun, ?_, ?_⟩
        · intro late member own'
          rcases List.mem_append.mp member with old | last
          · exact mutes late old own'
          · exact List.mem_singleton.mp last ▸ quiet
        · simpa [mine, same] using rest
      · obtain ⟨early, call, middle, rfl, begun, mutes, rest⟩ := ih was
        refine ⟨early, call, middle ++ [label], by simp, begun, ?_, ?_⟩
        · intro late member own'
          rcases List.mem_append.mp member with old | last
          · exact mutes late old own'
          · exact absurd (List.mem_singleton.mp last ▸ own') other
        · simpa [other] using rest.next label trivial moved

theorem reaches_each {Thread : Type*} (holds : State → Prop) (done : Thread → State → Prop)
    (one : ∀ s t, holds s → ∃ trace after, Reaches step unrestricted s trace after ∧
      holds after ∧ done t after ∧ ∀ u, done u s → done u after)
    (threads : List Thread) (here : holds s) :
    ∃ trace after, Reaches step unrestricted s trace after ∧ holds after ∧
      (∀ t ∈ threads, done t after) ∧ ∀ u, done u s → done u after := by
  induction threads generalizing s with
  | nil => exact ⟨[], s, .start, here, by simp, fun _ before => before⟩
  | cons t rest ih =>
      obtain ⟨trace, middle, first, still, finished, kept⟩ := one s t here
      obtain ⟨late, after, second, last, others, kept'⟩ := ih still
      refine ⟨trace ++ late, after, first.append second, last, ?_, fun u before =>
        kept' u (kept u before)⟩
      intro u member
      rcases List.mem_cons.mp member with rfl | later
      · exact kept' u finished
      · exact others u later

/-- What a run shows to an observer who also sees the state before each step. -/
def observed {Seen : Type*} (step : State → Label → Option State)
    (observe : State → Label → Option Seen) : State → List Label → List Seen
  | _, [] => []
  | s, label :: rest =>
      (observe s label).toList ++
        match step s label with
        | some next => observed step observe next rest
        | none => []

theorem observed_snoc {Seen : Type*} (observe : State → Label → Option Seen) {early : State}
    {trace : List Label} (ran : run step early trace = some s) (label : Label) :
    observed step observe early (trace ++ [label]) =
      observed step observe early trace ++ (observe s label).toList := by
  induction trace generalizing early with
  | nil =>
      cases ran
      simp only [List.nil_append, observed]
      cases step s label <;> simp
  | cons first rest ih =>
      obtain ⟨next, taken, ran⟩ := Option.bind_eq_some_iff.mp ran
      simp only [List.cons_append, observed, taken, ih ran, List.append_assoc]

theorem Reaches.simulates_observed {State' Label' : Type*}
    {step' : State' → Label' → Option State'} {init' : State'}
    (observe : State → Label → Option Label') (relate : State → State' → Prop)
    (initially : relate init init')
    (square : ∀ s label after abstract, relate s abstract → step s label = some after →
      (observe s label = none ∧ relate after abstract) ∨
      ∃ visible next, observe s label = some visible ∧ step' abstract visible = some next ∧
        relate after next)
    (reached : Reaches step allowed init trace s) :
    ∃ abstract, Reaches step' unrestricted init' (observed step observe init trace) abstract ∧
      relate s abstract := by
  induction reached with
  | start => exact ⟨init', .start, initially⟩
  | next label before admitted taken ih =>
      obtain ⟨abstract, matched, related⟩ := ih
      rw [observed_snoc observe before.runs]
      rcases square _ label _ abstract related taken with
        ⟨hidden, still⟩ | ⟨visible, next, shown, moved, still⟩
      · exact ⟨abstract, by simpa [hidden] using matched, still⟩
      · refine ⟨next, ?_, still⟩
        simpa [shown] using Reaches.next visible matched trivial moved

end Runs

theorem filterMap_snoc {Seen : Type*} (seen : Label → Option Seen) (trace : List Label)
    (label : Label) : (trace ++ [label]).filterMap seen =
      trace.filterMap seen ++ (seen label).toList := by
  cases shown : seen label <;> simp [shown]

end ConcurrencyCourse.Interleaving

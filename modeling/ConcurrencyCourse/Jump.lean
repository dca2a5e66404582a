import Mathlib.Data.Nat.Basic
import Mathlib.Logic.Function.Basic

/-!
Local jumps of tasks/intro/jump. `Capture` and `JumpTo` are three instructions each; the
function that calls them is any code that leaves the stack pointer and the saved contexts
alone. The readme calls the pair a label and a `goto`: this is the abstract machine here,
and the code is shown to do what it does. Memory has one cell for each aligned address.
-/

namespace ConcurrencyCourse.Jump

abbrev Word := BitVec 64

inductive Register where
  | rax
  | rdi
  | rsp
  deriving DecidableEq

structure Machine (Rest : Type) where
  rip : Word
  registers : Register → Word
  memory : Word → Word
  rest : Rest

/-- `load` is `movq (%base), %into`, `store` is `movq %value, (%base)`; `own` stands for
the instructions of the function that are not calls of `Capture` and `JumpTo`. -/
inductive Instruction (Rest : Type) where
  | load (base into : Register)
  | store (value base : Register)
  | ret
  | call (target : Word)
  | own (does : Machine Rest → Machine Rest)

variable {Rest : Type}

def capture : List (Instruction Rest) := [.load .rsp .rax, .store .rax .rdi, .ret]

def jumpTo : List (Instruction Rest) := [.load .rdi .rax, .store .rax .rsp, .ret]

abbrev Code (Rest : Type) := Word → Option (Instruction Rest × Word)

def execute (m : Machine Rest) (next : Word) : Instruction Rest → Machine Rest
  | .load base into =>
      { m with
        rip := next
        registers := Function.update m.registers into (m.memory (m.registers base)) }
  | .store value base =>
      { m with
        rip := next
        memory := Function.update m.memory (m.registers base) (m.registers value) }
  | .ret =>
      { m with
        rip := m.memory (m.registers .rsp)
        registers := Function.update m.registers .rsp (m.registers .rsp + 8) }
  | .call target =>
      { m with
        rip := target
        registers := Function.update m.registers .rsp (m.registers .rsp - 8)
        memory := Function.update m.memory (m.registers .rsp - 8) next }
  | .own does => does m

def step (code : Code Rest) (m : Machine Rest) : Option (Machine Rest) :=
  (code m.rip).map fun (instruction, next) => execute m next instruction

def steps {State : Type} (step : State → Option State) : ℕ → State → Option State
  | 0, s => some s
  | n + 1, s => (step s).bind (steps step n)

theorem steps_add {State : Type} {step : State → Option State} (n k : ℕ) (s : State) :
    steps step (n + k) s = (steps step n s).bind (steps step k) := by
  induction n generalizing s with
  | zero => simp [steps]
  | succ n ih =>
      rw [Nat.add_right_comm]
      simp only [steps, Option.bind_assoc]
      exact Option.bind_congr fun next _ => ih next

/-- Where the stack pointer stands in the body of the function, which cells hold its
contexts, and which others it uses. The slot of a return address is neither. -/
structure Frame where
  bottom : Word
  context : Word → Bool
  visible : Word → Bool
  apart : ∀ cell, context cell = true → visible cell = false
  slot_visible : visible (bottom - 8) = false
  slot_context : context (bottom - 8) = false

structure Frame.Alike (frame : Frame) (m m' : Machine Rest) : Prop where
  rip : m'.rip = m.rip
  rdi : m'.registers .rdi = m.registers .rdi
  rest : m'.rest = m.rest
  memory : ∀ cell, frame.visible cell = true → m'.memory cell = m.memory cell

structure Frame.Local (frame : Frame) (does : Machine Rest → Machine Rest) : Prop where
  stack : ∀ m, (does m).registers .rsp = m.registers .rsp
  contexts : ∀ m cell, frame.context cell = true → (does m).memory cell = m.memory cell
  alike : ∀ m m', frame.Alike m m' → frame.Alike (does m) (does m')

def Laid (code : Code Rest) : Word → List (Instruction Rest) → Prop
  | _, [] => True
  | entry, instruction :: routine =>
      ∃ next, code entry = some (instruction, next) ∧ Laid code next routine

structure Program (Rest : Type) where
  frame : Frame
  code : Code Rest
  captureEntry : Word
  jumpToEntry : Word
  captureLaid : Laid code captureEntry capture
  jumpToLaid : Laid code jumpToEntry jumpTo
  ownLocal : ∀ address does next, code address = some (.own does, next) → frame.Local does

/-- The machine with labels and `goto`: `labels` is what each context was captured at. -/
structure Labelled (Rest : Type) where
  machine : Machine Rest
  labels : Word → Option Word

/-- `Capture` declares a label behind its call, `JumpTo` goes to it, and nothing else
changes. -/
def gotoStep (program : Program Rest) (g : Labelled Rest) : Option (Labelled Rest) :=
  let m := g.machine
  match program.code m.rip with
  | some (.own does, _) => some { g with machine := does m }
  | some (.call target, next) =>
      if program.frame.context (m.registers .rdi) = true then
        if target = program.captureEntry then
          some
            { machine := { m with rip := next }
              labels := Function.update g.labels (m.registers .rdi) (some next) }
        else if target = program.jumpToEntry then
          (g.labels (m.registers .rdi)).map fun label =>
            { g with machine := { m with rip := label } }
        else none
      else none
  | _ => none

/-- The code agrees with the labelled machine where the body looks, and its contexts hold
the labels. -/
structure Represents (program : Program Rest) (g : Labelled Rest) (m : Machine Rest) : Prop where
  alike : program.frame.Alike g.machine m
  stack : m.registers .rsp = program.frame.bottom
  labels : ∀ cell label, g.labels cell = some label →
    program.frame.context cell = true ∧ m.memory cell = label

section Routines
variable {code : Code Rest} {m : Machine Rest} {entry next : Word}

theorem capture_returns (laid : Laid code entry capture) (here : m.rip = entry)
    (other : m.registers .rdi ≠ m.registers .rsp) :
    steps (step code) 3 m = some
      { rip := m.memory (m.registers .rsp)
        registers := Function.update (Function.update m.registers .rax
          (m.memory (m.registers .rsp))) .rsp (m.registers .rsp + 8)
        memory := Function.update m.memory (m.registers .rdi) (m.memory (m.registers .rsp))
        rest := m.rest } := by
  obtain ⟨second, first', third, second', last, third', -⟩ := laid
  simp [steps, step, here, first', second', third', execute, other.symm]

theorem jumpTo_returns (laid : Laid code entry jumpTo) (here : m.rip = entry) :
    steps (step code) 3 m = some
      { rip := m.memory (m.registers .rdi)
        registers := Function.update (Function.update m.registers .rax
          (m.memory (m.registers .rdi))) .rsp (m.registers .rsp + 8)
        memory := Function.update m.memory (m.registers .rsp) (m.memory (m.registers .rdi))
        rest := m.rest } := by
  obtain ⟨second, first', third, second', last, third', -⟩ := laid
  simp [steps, step, here, first', second', third', execute]

structure Returned (m m' : Machine Rest) (rip : Word) (memory : Word → Word) : Prop where
  rip : m'.rip = rip
  rdi : m'.registers .rdi = m.registers .rdi
  rsp : m'.registers .rsp = m.registers .rsp
  rest : m'.rest = m.rest
  memory : ∀ cell, cell ≠ m.registers .rsp - 8 → m'.memory cell = memory cell

theorem capture_called (laid : Laid code entry capture)
    (calls : code m.rip = some (.call entry, next))
    (apart : m.registers .rdi ≠ m.registers .rsp - 8) :
    ∃ m', steps (step code) 4 m = some m' ∧
      Returned m m' next (Function.update m.memory (m.registers .rdi) next) := by
  -- The return address is in the slot below the stack pointer when the routine starts.
  have first : steps (step code) 1 m = some (execute m next (.call entry)) := by
    simp [steps, step, calls]
  have later := capture_returns (m := execute m next (.call entry)) laid rfl
    (by simpa [execute] using apart)
  have whole : steps (step code) 4 m = some _ :=
    (steps_add 1 3 m).trans (by rw [first, Option.bind_some, later])
  refine ⟨_, whole, by simp [execute], by simp [execute],
    BitVec.sub_add_cancel .., rfl, fun cell other => ?_⟩
  have other' : cell ≠ m.registers .rsp - 8#64 := other
  simp [execute, Function.update_apply, other']

theorem jumpTo_called (laid : Laid code entry jumpTo)
    (calls : code m.rip = some (.call entry, next))
    (apart : m.registers .rdi ≠ m.registers .rsp - 8) :
    ∃ m', steps (step code) 4 m = some m' ∧
      Returned m m' (m.memory (m.registers .rdi)) m.memory := by
  have first : steps (step code) 1 m = some (execute m next (.call entry)) := by
    simp [steps, step, calls]
  have later := jumpTo_returns (m := execute m next (.call entry)) laid rfl
  have whole : steps (step code) 4 m = some _ :=
    (steps_add 1 3 m).trans (by rw [first, Option.bind_some, later])
  have apart' : m.registers .rdi ≠ m.registers .rsp - 8#64 := apart
  refine ⟨_, whole, by simp [execute, apart'], by simp [execute],
    BitVec.sub_add_cancel .., rfl, fun cell other => ?_⟩
  have other' : cell ≠ m.registers .rsp - 8#64 := other
  simp [execute, other']

end Routines

section Refinement
variable {program : Program Rest} {g g' : Labelled Rest} {m : Machine Rest}

theorem Frame.context_slot (frame : Frame) {cell : Word} (context : frame.context cell = true) :
    cell ≠ frame.bottom - 8 := by
  rintro rfl
  rw [frame.slot_context] at context
  cases context

theorem Frame.visible_slot (frame : Frame) {cell : Word} (visible : frame.visible cell = true) :
    cell ≠ frame.bottom - 8 := by
  rintro rfl
  rw [frame.slot_visible] at visible
  cases visible

theorem step_simulates (taken : gotoStep program g = some g')
    (represents : Represents program g m) :
    ∃ k m', 0 < k ∧ k ≤ 4 ∧ steps (step program.code) k m = some m' ∧
      Represents program g' m' := by
  obtain ⟨alike, stack, labels⟩ := represents
  rw [gotoStep] at taken
  simp only [← alike.rip] at taken
  cases fetched : program.code m.rip with
  | none => simp [fetched] at taken
  | some pair =>
      obtain ⟨instruction, next⟩ := pair
      cases instruction with
      | load | store | ret => simp [fetched] at taken
      | own does =>
          simp only [fetched, Option.some.injEq] at taken
          subst taken
          have keeps := program.ownLocal _ _ _ fetched
          refine ⟨1, does m, by omega, by omega, by simp [steps, step, fetched, execute], ?_⟩
          refine ⟨keeps.alike _ _ alike, by rw [keeps.stack, stack], fun cell label saved => ?_⟩
          obtain ⟨context, holds⟩ := labels cell label saved
          exact ⟨context, by rw [keeps.contexts m cell context, holds]⟩
      -- A call and the three instructions of the routine are one step of the labelled machine.
      | call target =>
          simp only [fetched, ← alike.rdi] at taken
          split_ifs at taken with context captures jumps
          · cases taken
            subst captures
            obtain ⟨m', done, returned⟩ := capture_called program.captureLaid fetched
              (stack ▸ program.frame.context_slot context)
            refine ⟨4, m', by omega, le_rfl, done, ⟨returned.rip, returned.rdi.trans alike.rdi,
              returned.rest.trans alike.rest, fun cell sees => ?_⟩, returned.rsp.trans stack,
              fun cell label saved => ?_⟩
            · have other : cell ≠ m.registers .rdi := by
                rintro rfl
                rw [program.frame.apart _ context] at sees
                cases sees
              rw [returned.memory cell (stack ▸ program.frame.visible_slot sees),
                Function.update_of_ne other]
              exact alike.memory cell sees
            · by_cases self : cell = m.registers .rdi
              · subst self
                simp only [Function.update_self, Option.some.injEq] at saved
                refine ⟨context, ?_⟩
                rw [returned.memory _ (stack ▸ program.frame.context_slot context),
                  Function.update_self, saved]
              · simp only [Function.update_of_ne self] at saved
                obtain ⟨context', holds⟩ := labels cell label saved
                refine ⟨context', ?_⟩
                rw [returned.memory _ (stack ▸ program.frame.context_slot context'),
                  Function.update_of_ne self, holds]
          · subst jumps
            obtain ⟨label, saved, rfl⟩ := Option.map_eq_some_iff.mp taken
            obtain ⟨-, holds⟩ := labels _ label saved
            obtain ⟨m', done, returned⟩ := jumpTo_called program.jumpToLaid fetched
              (stack ▸ program.frame.context_slot context)
            refine ⟨4, m', by omega, le_rfl, done, ⟨returned.rip.trans holds,
              returned.rdi.trans alike.rdi, returned.rest.trans alike.rest, fun cell sees => ?_⟩,
              returned.rsp.trans stack, fun cell label' saved' => ?_⟩
            · rw [returned.memory cell (stack ▸ program.frame.visible_slot sees)]
              exact alike.memory cell sees
            · obtain ⟨context', holds'⟩ := labels cell label' saved'
              refine ⟨context', ?_⟩
              rw [returned.memory _ (stack ▸ program.frame.context_slot context'), holds']

/-- Local jumps are labels and `goto`: as long as the labelled machine runs, the code of
the function with `Capture` and `JumpTo` does the same statements, and is where it is with
the same data after each. -/
theorem jumps_refine_goto {n : ℕ} (ran : steps (gotoStep program) n g = some g')
    (represents : Represents program g m) :
    ∃ k m', n ≤ k ∧ k ≤ 4 * n ∧ steps (step program.code) k m = some m' ∧
      Represents program g' m' := by
  induction n generalizing g m with
  | zero =>
      cases ran
      exact ⟨0, m, le_rfl, le_rfl, rfl, represents⟩
  | succ n ih =>
      obtain ⟨middle, first, rest⟩ := Option.bind_eq_some_iff.mp ran
      obtain ⟨k, m', positive, few, done, there⟩ := step_simulates first represents
      obtain ⟨k', last, enough, bound, finished, final⟩ := ih rest there
      refine ⟨k + k', last, by omega, by omega, ?_, final⟩
      rw [steps_add, done, Option.bind_some, finished]

end Refinement

section Looping

def loopingCode (needed : ℕ) : List (Word × Instruction ℕ × Word) :=
  let context : Machine ℕ → Register → Word := fun m => Function.update m.registers .rdi 128
  [(0, .own fun m => { m with rip := 1, registers := context m, rest := 0 }, 1),
    (1, .call 16, 2),
    (2, .own fun m =>
      { m with
        rip := if m.rest + 1 < needed then 3 else 4
        registers := context m
        rest := m.rest + 1 }, 3),
    (3, .call 32, 4),
    (16, .load .rsp .rax, 17), (17, .store .rax .rdi, 18), (18, .ret, 19),
    (32, .load .rdi .rax, 33), (33, .store .rax .rsp, 34), (34, .ret, 35)]

def loopingFrame : Frame where
  bottom := 64
  context cell := cell == 128
  visible cell := cell == 72
  apart := by simp
  slot_visible := by decide
  slot_context := by decide

theorem looping_local (needed : ℕ) (address : Word) (does : Machine ℕ → Machine ℕ) (next : Word)
    (fetched : (loopingCode needed).lookup address = some (.own does, next)) :
    loopingFrame.Local does := by
  have listed : (address, Instruction.own does, next) ∈ loopingCode needed := by
    obtain ⟨before, behind, code, -⟩ := List.lookup_eq_some_iff.mp fetched
    rw [code]
    exact List.mem_append_right _ List.mem_cons_self
  simp only [loopingCode, List.mem_cons, Prod.mk.injEq, Instruction.own.injEq, reduceCtorEq,
    List.not_mem_nil, false_and, and_false, or_false, false_or] at listed
  rcases listed with ⟨-, rfl, -⟩ | ⟨-, rfl, -⟩
  · refine ⟨by simp, by simp, fun m m' alike => ?_⟩
    exact ⟨rfl, by simp, rfl, alike.memory⟩
  · refine ⟨by simp, by simp, fun m m' alike => ?_⟩
    exact ⟨by simp [alike.rest], by simp, by simp [alike.rest], alike.memory⟩

def looping (needed : ℕ) : Program ℕ where
  frame := loopingFrame
  code := fun address => (loopingCode needed).lookup address
  captureEntry := 16
  jumpToEntry := 32
  captureLaid := ⟨17, rfl, 18, rfl, 19, rfl, trivial⟩
  jumpToLaid := ⟨33, rfl, 34, rfl, 35, rfl, trivial⟩
  ownLocal := looping_local needed

def loopingStart : Machine ℕ where
  rip := 0
  registers := Function.update (fun _ => 0) .rsp 64
  memory := fun _ => 0
  rest := 0

/-- Ten rounds of the loop end at the check of `jump_count`. -/
theorem jumps_refine_goto_looping :
    ∃ k m', steps (step (looping 10).code) k loopingStart = some m' ∧
      m'.rip = 4 ∧ m'.rest = 10 := by
  have ran : (steps (gotoStep (looping 10)) 21 ⟨loopingStart, fun _ => none⟩).isSome := rfl
  obtain ⟨k, m', -, -, done, there⟩ := jumps_refine_goto (Option.some_get ran).symm
    (m := loopingStart) ⟨⟨rfl, rfl, rfl, fun _ _ => rfl⟩, rfl, fun _ _ saved => by cases saved⟩
  exact ⟨k, m', done, there.alike.rip, there.alike.rest⟩

end Looping
end ConcurrencyCourse.Jump

import Bnio.Lib.Transition

-- What a worker may do with operations, whichever backend it runs on. Its native context takes what is in
-- the shared queues, gets what is published on its own thread, and hands back or executes what it holds.
namespace Bnio.Posix

variable {ω : Type*} [DecidableEq ω]

structure Custody (ω : Type*) where
  sharedCpu : List ω := []
  sharedIo : List ω := []
  held : Multiset ω := 0
  executed : Multiset ω := 0
  deriving DecidableEq

inductive Move (ω : Type*)
  -- pop_cpu_all and pop_io_all
  | takeCpu
  | takeIo
  -- A receiver publishes on the worker's thread, or timer waits are fetched.
  | receive (ops : List ω)
  | execute (op : ω)
  -- push_cpu_tasks, when the worker has more completions than it keeps for itself
  | spill (ops : List ω)

def Move.received : Move ω → List ω
  | receive ops => ops
  | _           => []

namespace Custody

def step (c : Custody ω) : Move ω → Option (Custody ω)
  | .takeCpu     => some { c with sharedCpu := [], held := c.held + c.sharedCpu }
  | .takeIo      => some { c with sharedIo := [], held := c.held + c.sharedIo }
  | .receive ops => some { c with held := c.held + ops }
  | .execute op  =>
    if op ∈ c.held then some { c with held := c.held.erase op, executed := op ::ₘ c.executed } else none
  | .spill ops   =>
    if (ops : Multiset ω) ≤ c.held then
      some { c with held := c.held - ops, sharedCpu := ops.reverse ++ c.sharedCpu }
    else none

def total (c : Custody ω) : Multiset ω :=
  c.sharedCpu + c.sharedIo + c.held + c.executed

variable {c c' : Custody ω} {m : Move ω}

-- A move loses nothing, doubles nothing and makes up nothing.
theorem total_step (h : c.step m = some c') : c'.total = c.total + m.received := by
  cases m
  case takeCpu =>
    cases h
    simp only [total, Move.received, Multiset.coe_nil]
    abel
  case takeIo =>
    cases h
    simp only [total, Move.received, Multiset.coe_nil]
    abel
  case receive ops =>
    cases h
    simp only [total, Move.received]
    abel
  case execute op =>
    simp only [step] at h
    split at h <;> cases h
    case isTrue hm =>
      have he : c.held = {op} + c.held.erase op := (Multiset.cons_erase hm).symm
      simp only [total, Move.received, Multiset.coe_nil, ← Multiset.singleton_add]
      conv_rhs => rw [he]
      abel
  case spill ops =>
    simp only [step] at h
    split at h <;> cases h
    case isTrue hm =>
      obtain ⟨rest, he⟩ := Multiset.le_iff_exists_add.mp hm
      simp only [total, Move.received, Multiset.coe_nil, ← Multiset.coe_add, Multiset.coe_reverse, he,
        add_tsub_cancel_left]
      abel

-- Only what a worker spills is pushed.
theorem cpu_nil (h : c.step m = some c') (hm : ∀ ops, m ≠ .spill ops) (hc : c.sharedCpu = []) :
    c'.sharedCpu = [] := by
  cases m
  case takeCpu => cases h; rfl
  case takeIo => cases h; exact hc
  case receive => cases h; exact hc
  case execute =>
    simp only [step] at h
    split at h <;> cases h
    exact hc
  case spill ops => exact absurd rfl (hm ops)

theorem io_nil (h : c.step m = some c') (hc : c.sharedIo = []) : c'.sharedIo = [] := by
  cases m
  case takeCpu => cases h; exact hc
  case takeIo => cases h; rfl
  case receive => cases h; exact hc
  all_goals
    simp only [step] at h
    split at h <;> cases h
    exact hc

-- A move does not depend on what has been executed before.
theorem step_executed (h : c.step m = some c') (x : Multiset ω) :
    ∃ y, ({ c with executed := x } : Custody ω).step m = some { c' with executed := y } ∧
      y + c.executed = x + c'.executed := by
  cases m
  case takeCpu => cases h; exact ⟨x, rfl, rfl⟩
  case takeIo => cases h; exact ⟨x, rfl, rfl⟩
  case receive => cases h; exact ⟨x, rfl, rfl⟩
  case execute op =>
    simp only [step] at h
    split at h <;> cases h
    case isTrue hm => exact ⟨op ::ₘ x, if_pos hm, by simp⟩
  case spill ops =>
    simp only [step] at h
    split at h <;> cases h
    case isTrue hm => exact ⟨x, if_pos hm, rfl⟩

-- A step of a worker is a sequence of moves; `new` is what it receives.
def Serves (c : Custody ω) (new : List ω) (c' : Custody ω) : Prop :=
  ∃ ms, System.run step c ms = some c' ∧ ms.flatMap Move.received = new

section Serves

variable {c₁ : Custody ω} {new : List ω}

omit [DecidableEq ω] in
-- What is held follows from what is in the shared queues and what has been executed, for nothing is lost.
theorem held_of_total (ht : c'.total = c.total + new) (hcpu : c'.sharedCpu = c.sharedCpu)
    (hio : c'.sharedIo = c.sharedIo) (hx : c'.executed = c.executed) : c'.held = c.held + new := by
  simp only [total, hcpu, hio, hx] at ht
  have he : (c.sharedCpu + c.sharedIo + c.executed : Multiset ω) + c'.held =
      c.sharedCpu + c.sharedIo + c.executed + (c.held + new) := by
    rw [add_right_comm, ht]
    abel
  exact add_left_cancel he

theorem Serves.receive (hcpu : c'.sharedCpu = c.sharedCpu) (hio : c'.sharedIo = c.sharedIo)
    (hx : c'.executed = c.executed) (ht : c'.total = c.total + new) : c.Serves new c' := by
  refine ⟨[.receive new], ?_, by simp [Move.received]⟩
  simp [System.run_cons, step, ← held_of_total ht hcpu hio hx, ← hcpu, ← hio, ← hx]

-- A move on the shared queues or an execution, and then a receipt.
theorem Serves.after (hm : c.step m = some c₁) (hr : m.received = []) (hcpu : c'.sharedCpu = c₁.sharedCpu)
    (hio : c'.sharedIo = c₁.sharedIo) (hx : c'.executed = c₁.executed)
    (ht : c'.total = c.total + new) : c.Serves new c' := by
  have ht₁ : c₁.total = c.total := by simpa [hr] using total_step hm
  obtain ⟨ms, hrun, hnew⟩ := Serves.receive hcpu hio hx (ht₁ ▸ ht)
  exact ⟨m :: ms, by simp [System.run_cons, hm, hrun], by simp [hr, hnew]⟩

end Serves

end Custody

end Bnio.Posix

import Bnio.Posix.Group

namespace Bnio.Posix

-- Whether the worker has incremented awake_workers on entry.
def Site.counted : Site → Bool
  | .drain _ counted => counted
  | _                => true

theorem Site.counted_of_waiting {site : Site} (h : site.waiting) : site.counted := by
  cases site <;> simp_all [Site.waiting, Site.counted]

namespace Pc

-- Counted in running_workers.
def running : Pc → Bool
  | left | gone => false
  | _           => true

-- Between the increment of awake_workers in `enter_run` and the decrement at the end of `run`.
def entered : Pc → Bool
  | start | .open | enter | release | left | refused | gone => false
  | collect site | notify site | cpu site | exec site | io site | check site => site.counted
  | fetch (.consume site) _ => site.counted
  | abort counted | unregister counted | leave counted => counted
  | _ => true

-- Between the link step of `begin_wait` and the unlink step of `end_wait`.
def linked : Pc → Bool
  | collect site | notify site | cpu site | exec site | io site | check site => site.waiting
  | fetch (.consume site) _ => site.waiting
  | fetch .wait _ | sub | rearm _ | rearmLocal _ | block _ | conclude | unlink _ => true
  | _ => false

-- Between the decrement of awake_workers in `begin_wait` and the increment in `end_wait`.
def asleep : Pc → Bool
  | sub   => false
  | add _ => true
  | pc    => pc.linked

def awake (pc : Pc) : Bool :=
  pc.entered && !pc.asleep

def executing : Pc → Bool
  | exec _ => true
  | _      => false

-- At a call of `run_cpu_batch` at which `awake_workers` does not count the worker.
def sleepsInBatch : Pc → Bool
  | cpu site => !(exec site).awake
  | _        => false

-- `run` has ended its loop.
def hasLeft : Pc → Bool
  | unregister _ | leave _ | release | left => true
  | _                                       => false

-- At the last call of `consume_io_tasks` in a drain, after which `run` ends.
def ending : Pc → Bool
  | io (.drain false _) => true
  | _                   => false

def inLoop : Pc → Bool
  | start | .open | enter | refused | gone => false
  | pc                                     => !pc.hasLeft

-- The worker may block without another look at the shared CPU queue.
def pastCpu : Pc → Bool
  | fetch (.consume .pre) _ | io .pre | check .pre | fetch .wait _ => true
  | cpu (.fetched _) | io (.fetched _) | check (.fetched _) => true
  | rearm _ | rearmLocal _ | block _ => true
  | _ => false

-- The worker may block without another look at the shared I/O queue.
def pastIo : Pc → Bool
  | check .pre | fetch .wait _ => true
  | cpu (.fetched _) | io (.fetched _) | check (.fetched _) => true
  | rearm _ | rearmLocal _ | block _ => true
  | _ => false

-- When the worker may block without another fetch, the deadline it would wait for.
def bound? : Pc → Option TimePoint
  | fetch .wait .failed => some ⊤
  | fetch .wait (.release b []) => some b
  | cpu (.fetched b) | io (.fetched b) | check (.fetched b) => some b
  | rearm b | rearmLocal b | block b => some b
  | _ => none

-- In a wait that has a timeout.
def waitsTimed : Pc → Bool
  | block b => b ≠ ⊤
  | _       => false

-- Nothing the worker has looked at before its next wait counts any more.
def fresh (pc : Pc) : Bool :=
  pc.inLoop && !pc.pastCpu && !pc.pastIo && pc.bound?.isNone

-- Where `wait_for_io_work` goes on after `end_wait`.
def restarts : List Pc :=
  [resume, collect .ready, collect (.drain true true), collect (.post false), collect (.post true),
    cpu (.post false)]

theorem afterWait_mem_restarts (finish : Bool) (next : Next) :
    Loop.afterWait finish next ∈ restarts := by
  rcases next with _ | _ | _ | ⟨_ | _, _ | _⟩ | ⟨_ | _, _ | _⟩ <;> cases finish <;> decide

theorem entered_of_asleep {pc : Pc} (h : pc.asleep) : pc.entered := by
  cases pc <;> simp_all [asleep, linked, entered, Site.counted_of_waiting]
  case fetch caller _ => cases caller <;> simp_all [Site.counted_of_waiting]

theorem running_of_entered {pc : Pc} (h : pc.entered) : pc.running := by
  cases pc <;> simp_all [entered, running]

theorem not_linked_of_executing {pc : Pc} (he : pc.executing) (ha : pc.awake) : ¬pc.linked := by
  cases pc <;> simp_all [executing, awake, asleep]

theorem running_of_linked {pc : Pc} (h : pc.linked) : pc.running := by
  cases pc <;> simp_all [linked, running]

theorem not_hasLeft_of_inLoop {pc : Pc} (h : pc.inLoop) : ¬pc.hasLeft := by
  cases pc <;> simp_all [inLoop, hasLeft]

theorem running_of_inLoop {pc : Pc} (h : pc.inLoop) : pc.running := by
  cases pc <;> simp_all [inLoop, hasLeft, running]

theorem inLoop_of_awake {pc : Pc} (h : pc.awake) (hl : ¬pc.hasLeft) : pc.inLoop := by
  cases pc <;> simp_all [awake, entered, inLoop, hasLeft]

theorem inLoop_of_linked {pc : Pc} (h : pc.linked) : pc.inLoop := by
  cases pc <;> simp_all [linked, inLoop, hasLeft]

theorem inLoop_of_asleep {pc : Pc} (h : pc.asleep) : pc.inLoop := by
  cases pc <;> first | rfl | exact inLoop_of_linked h

theorem asleep_of_pastCpu {pc : Pc} : pc.pastCpu → pc.asleep := by
  unfold pastCpu
  split <;> simp [asleep, linked, Site.waiting]

theorem asleep_of_pastIo {pc : Pc} : pc.pastIo → pc.asleep := by
  unfold pastIo
  split <;> simp [asleep, linked, Site.waiting]

-- What the control flow keeps; the worker has found the shared queues empty, or has fetched, in as
-- far as `cpu`, `io` and `fetch` say so.
structure Moves (pc pc' : Pc) (cpu io fetch : Prop) : Prop where
  running : pc'.running = pc.running
  entered : pc'.entered = pc.entered
  linked  : pc'.linked = pc.linked
  asleep  : pc'.asleep = pc.asleep
  loop    : pc.inLoop → pc'.inLoop ∨ pc'.hasLeft
  fresh   : pc'.inLoop → pc.inLoop ∨ pc'.fresh
  stays   : pc.hasLeft → pc'.hasLeft
  leaves  : pc'.hasLeft → pc.hasLeft ∨ pc.ending
  cpu     : pc'.pastCpu → pc.pastCpu ∨ cpu
  io      : pc'.pastIo → pc.pastIo ∨ io
  bound   : ∀ b, pc'.bound? = some b → pc.bound? = some b ∨ fetch

section

variable {l : Loop} {found : Bool} {site : Site} {pc pc' : Pc} {emptyCpu emptyIo fetched : Prop}

theorem Moves.awake (h : pc.Moves pc' emptyCpu emptyIo fetched) : pc'.awake = pc.awake := by
  simp [Pc.awake, h.entered, h.asleep]

attribute [local simp] running entered linked asleep inLoop hasLeft ending pastCpu pastIo bound? fresh
  Site.counted Site.waiting Loop.toReady Loop.toFinish Loop.toConclude Loop.toBlock

theorem moves_collect : (collect site).Moves (Loop.afterCollect found site) False False False := by
  cases site <;> cases found <;> constructor <;> simp [Loop.afterCollect]

theorem moves_notify : (notify site).Moves (Loop.afterCollect true site) False False False := by
  cases site <;> constructor <;> simp [Loop.afterCollect]

theorem moves_cpu : (cpu site).Moves (l.afterCpu false site) True False False := by
  obtain ⟨_ | _, _⟩ := l <;> rcases site with _ | _ | _ | _ | _ | _ | ⟨_ | _, _⟩ <;>
    constructor <;> simp [Loop.afterCpu]

theorem moves_exec : (exec site).Moves (l.afterCpu true site) False False False := by
  obtain ⟨_ | _, _⟩ := l <;> rcases site with _ | _ | _ | _ | _ | _ | ⟨_ | _, _⟩ <;>
    constructor <;> simp [Loop.afterCpu]

theorem moves_consume {f : Fetch} :
    (fetch (.consume site) f).Moves (Loop.afterConsume found site) False False False := by
  cases site <;> cases found <;> constructor <;> simp [Loop.afterConsume]

variable (l found site) in
theorem moves_io : (io site).Moves (l.afterIo found site) False (found = false) False := by
  obtain ⟨_ | _, _⟩ := l <;> rcases site with _ | _ | _ | _ | _ | ⟨_ | _⟩ | ⟨_ | _, _⟩ <;>
    cases found <;> constructor <;> simp [Loop.afterIo]

theorem moves_toSpin {n : Nat} (hw : site.waiting = false) (hc : site.counted = true) :
    (check site).Moves (l.toSpin n) False False False := by
  unfold Loop.toSpin
  split <;> cases site <;> simp_all <;> constructor <;> simp

theorem moves_check : (check site).Moves (l.afterCheck found site) False False False := by
  cases found
  case true =>
    obtain ⟨_ | _, _⟩ := l <;> cases site <;> constructor <;> simp [Loop.afterCheck]
  case false =>
    cases site
    case ready => exact moves_toSpin rfl rfl
    case spin  => exact moves_toSpin rfl rfl
    case post  => exact moves_toSpin rfl rfl
    all_goals obtain ⟨_ | _, _⟩ := l <;> constructor <;> simp [Loop.afterCheck]

theorem moves_phase {caller : Caller} {f f' : Fetch} :
    (fetch caller f).Moves (fetch caller f') False False (caller = .wait) := by
  obtain ⟨_ | _⟩ | _ := caller <;> constructor <;> simp

theorem moves_afterFetch {caller : Caller} {f : Fetch} {r : Option (TimePoint × List Staged)} :
    (fetch caller f).Moves (l.afterFetch r caller) False False (caller = .wait) := by
  cases caller
  case consume site =>
    have h : (fetch (.consume site) f).Moves (l.afterFetch r (.consume site)) False False False :=
      moves_consume
    exact { h with bound := fun b hb => (h.bound b hb).imp_right False.elim }
  case wait =>
    obtain ⟨_ | _, _⟩ := l <;> rcases r with _ | ⟨_, _ | _⟩ <;> constructor <;>
      simp [Loop.afterFetch]

end

end Pc
end Bnio.Posix

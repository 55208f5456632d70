import Bnio.Lib.Transition

-- `run`, `stop` and `join` of one context, on threads that may be inside several calls at once: a
-- receiver that runs in a loop or in the drain of a stop can call `run` of any context, `stop` or
-- `join`.
namespace Bnio.Posix.StopElection

variable {τ κ : Type*}

-- `entered` is counted and comes to `can_start_run`, `opening` has the native context and comes to the
-- second look at `life_state`. Receivers run in `looping`, which is `ctx.run()`, and in `closing`, in
-- the `queue_exit` of the context's destructor.
inductive RunPhase (κ : Type*)
  | entered
  | opening
  | looping (previous : Option κ)
  | closing
  deriving DecidableEq

-- `begin_stop` has won the election; `waiting` is the loop on `running_workers`, and `draining` executes
-- what is left in the shared queues.
inductive StopPhase
  | aborting | publishing | waiting (selfCount : Nat) | draining
  deriving DecidableEq

-- A call on the stack of a thread. `await` is a `stop` or `join` that has lost the election.
inductive Frame (κ : Type*)
  | run (ctx : κ) (phase : RunPhase κ)
  | stop (phase : StopPhase)
  | await
  deriving DecidableEq

-- `current` is the thread's `current_context_`.
structure Thread (κ : Type*) where
  stack : List (Frame κ) := []
  current : Option κ := none

-- `counted` are the threads behind `running_workers`, one entry for each call of `run`, and `elected`
-- is the thread that is in the elected stop.
structure State (τ κ : Type*) where
  threads : τ → Thread κ := fun _ => {}
  runningWorkers : Nat := 0
  stopRequested : Bool := false
  lifeState : Bool := false
  stopped : Bool := false
  counted : List τ := []
  elected : Option τ := none

-- `closing` is what a thread reads of the `life_state` of another context.
inductive Action (τ κ : Type*)
  | callRun (t : τ) (ctx : κ)
  | canStartRun (t : τ) (closing : Bool)
  | openNative (t : τ) (closing failed : Bool)
  | leaveLoop (t : τ)
  | releaseWorkerSlot (t : τ)
  | callStop (t : τ)
  | abortTimers (t : τ)
  | publishStopping (t : τ)
  | workersGone (t : τ)
  | drained (t : τ)
  | seeStopped (t : τ)

namespace Action

-- The thread that makes the step.
def thread : Action τ κ → τ
  | callRun t _ | canStartRun t _ | openNative t _ _ | leaveLoop t | releaseWorkerSlot t | callStop t
  | abortTimers t | publishStopping t | workersGone t | drained t | seeStopped t => t

end Action

namespace Frame

variable [DecidableEq κ]

def isRun (c : κ) : Frame κ → Bool
  | run ctx _ => ctx = c
  | _         => false

def isStop : Frame κ → Bool
  | stop _ => true
  | _      => false

-- Receivers run in the call.
def runsReceivers : Frame κ → Bool
  | run _ (.looping _) | run _ .closing | stop .draining => true
  | _                                                     => false

end Frame

namespace Thread

variable [DecidableEq κ] (th : Thread κ)

-- User code runs: outside of all calls, or in a receiver.
def free : Bool :=
  match th.stack with
  | []     => true
  | f :: _ => f.runsReceivers

def push (f : Frame κ) : Thread κ :=
  { th with stack := f :: th.stack }

def isInContext (c : κ) : Bool :=
  th.current = some c

-- The calls of `run` of the context that the thread is in.
def runs (c : κ) : Nat :=
  th.stack.countP (·.isRun c)

def stops : Nat :=
  th.stack.countP Frame.isStop

end Thread

namespace State

variable [DecidableEq τ] [DecidableEq κ] (c : κ) (s : State τ κ)

def setThread (t : τ) (th : Thread κ) : State τ κ :=
  { s with threads := Function.update s.threads t th }

-- The counter of the context changes, not the ones of other contexts.
def enter (t : τ) (ctx : κ) : State τ κ :=
  if ctx = c then { s with runningWorkers := s.runningWorkers + 1, counted := t :: s.counted } else s

def release (t : τ) (ctx : κ) : State τ κ :=
  if ctx = c then { s with runningWorkers := s.runningWorkers - 1, counted := s.counted.erase t } else s

def step : Action τ κ → Option (State τ κ)
  | .callRun t ctx =>
    let th := s.threads t
    if th.free then some ((s.enter c t ctx).setThread t (th.push (.run ctx .entered))) else none
  | .canStartRun t closing =>
    let th := s.threads t
    match th.stack with
    | .run ctx .entered :: rest =>
      if ctx = c ∧ closing ≠ s.lifeState then none
      else if closing then some ((s.release c t ctx).setThread t { th with stack := rest })
      else some (s.setThread t { th with stack := .run ctx .opening :: rest })
    | _ => none
  | .openNative t closing failed =>
    let th := s.threads t
    match th.stack with
    | .run ctx .opening :: rest =>
      if ctx = c ∧ closing ≠ s.lifeState then none
      else if closing ∨ failed then some (s.setThread t { th with stack := .run ctx .closing :: rest })
      else
        some (s.setThread t { stack := .run ctx (.looping th.current) :: rest, current := some ctx })
    | _ => none
  | .leaveLoop t =>
    match (s.threads t).stack with
    | .run ctx (.looping previous) :: rest =>
      some (s.setThread t { stack := .run ctx .closing :: rest, current := previous })
    | _ => none
  | .releaseWorkerSlot t =>
    let th := s.threads t
    match th.stack with
    | .run ctx .closing :: rest => some ((s.release c t ctx).setThread t { th with stack := rest })
    | _                         => none
  | .callStop t =>
    let th := s.threads t
    if !th.free then none
    else if s.stopRequested then some (s.setThread t (th.push .await))
    else
      let s := { s with stopRequested := true, elected := some t }
      some (s.setThread t (th.push (.stop .aborting)))
  | .abortTimers t =>
    let th := s.threads t
    match th.stack with
    | .stop .aborting :: rest => some (s.setThread t { th with stack := .stop .publishing :: rest })
    | _                       => none
  | .publishStopping t =>
    let th := s.threads t
    match th.stack with
    | .stop .publishing :: rest =>
      let selfCount := if th.isInContext c then 1 else 0
      some ({ s with lifeState := true }.setThread t
        { th with stack := .stop (.waiting selfCount) :: rest })
    | _ => none
  | .workersGone t =>
    let th := s.threads t
    match th.stack with
    | .stop (.waiting selfCount) :: rest =>
      if s.runningWorkers > selfCount then none
      else some (s.setThread t { th with stack := .stop .draining :: rest })
    | _ => none
  | .drained t =>
    let th := s.threads t
    match th.stack with
    | .stop .draining :: rest =>
      some ({ s with stopped := true, elected := none }.setThread t { th with stack := rest })
    | _ => none
  | .seeStopped t =>
    let th := s.threads t
    match th.stack with
    | .await :: rest => if s.stopped then some (s.setThread t { th with stack := rest }) else none
    | _              => none

-- Somebody can still make the elected stop go on: while it waits for workers, one of them is on
-- another thread and does not wait for the stop itself; and no thread waits for the flag that only the
-- rest of its own stack can set.
structure Live (s : State τ κ) : Prop where
  workers : ∀ u n rest, (s.threads u).stack = .stop (.waiting n) :: rest → n < s.runningWorkers →
    ∃ t, t ≠ u ∧ 0 < (s.threads t).runs c ∧ (s.threads t).stack.head? ≠ some .await
  own : ∀ t, (s.threads t).stack.head? = some .await → s.stopped = false → (s.threads t).stops = 0

-- The elected call is made outside of the context's loop, or directly in it and in no other call of its
-- `run`; a call that loses while the stop is under way is made on a thread that is in no `run` of the
-- context and not in the elected stop.
def Fine (s : State τ κ) : Action τ κ → Prop
  | .callStop t =>
    let th := s.threads t
    if s.stopRequested then s.stopped ∨ th.runs c = 0 ∧ th.stops = 0
    else th.runs c = if th.isInContext c then 1 else 0
  | _ => True

instance (a : Action τ κ) : Decidable (s.Fine c a) :=
  match a with
  | .callStop t => inferInstanceAs <| Decidable <|
    if s.stopRequested then s.stopped ∨ (s.threads t).runs c = 0 ∧ (s.threads t).stops = 0
    else (s.threads t).runs c = if (s.threads t).isInContext c then 1 else 0
  | .callRun .. | .canStartRun .. | .openNative .. | .leaveLoop _ | .releaseWorkerSlot _
  | .abortTimers _ | .publishStopping _ | .workersGone _ | .drained _ | .seeStopped _ =>
    inferInstanceAs (Decidable True)

-- The counters and the election are what the stacks say, and below its last call a thread is in
-- receivers only.
structure Counts (s : State τ κ) : Prop where
  running : s.runningWorkers = s.counted.length
  runs : ∀ t, (s.threads t).runs c = s.counted.count t
  stops : ∀ t, (s.threads t).stops = if s.elected = some t then 1 else 0
  requested : s.elected.isSome ∨ s.stopped → s.stopRequested
  underWay : s.elected.isSome → s.stopped = false
  below : ∀ t, ∀ f ∈ (s.threads t).stack.tail, f.runsReceivers

-- What a thread that stops or waits needs to get out: the elected call does not wait for calls of its
-- own, and one that has lost the election is not what the elected one waits for.
structure Local (c : κ) (stopped : Bool) (th : Thread κ) : Prop where
  self : ∀ {p rest}, th.stack = .stop p :: rest → p = .draining ∨
    th.runs c = (if th.isInContext c then 1 else 0) ∧ ∀ n, p = .waiting n → n = th.runs c
  await : th.stack.head? = some .await → stopped = false → th.runs c = 0 ∧ th.stops = 0

structure Inv (s : State τ κ) : Prop extends Counts c s where
  each : ∀ t, Local c s.stopped (s.threads t)

-- The steps by what they do to the stack of their thread.
inductive Steps (c : κ) (s : State τ κ) : Action τ κ → State τ κ → Prop
  | enter {t ctx} (hf : (s.threads t).free) :
    Steps c s (.callRun t ctx) ((s.enter c t ctx).setThread t ((s.threads t).push (.run ctx .entered)))
  | refuse {t ctx rest} (hs : (s.threads t).stack = .run ctx .entered :: rest) :
    Steps c s (.canStartRun t true)
      ((s.release c t ctx).setThread t { s.threads t with stack := rest })
  | start {t ctx rest} (hs : (s.threads t).stack = .run ctx .entered :: rest)
      (hl : ctx = c → s.lifeState = false) :
    Steps c s (.canStartRun t false)
      (s.setThread t { s.threads t with stack := .run ctx .opening :: rest })
  | skip {t closing failed ctx rest} (hs : (s.threads t).stack = .run ctx .opening :: rest) :
    Steps c s (.openNative t closing failed)
      (s.setThread t { s.threads t with stack := .run ctx .closing :: rest })
  | loop {t closing failed ctx rest} (hs : (s.threads t).stack = .run ctx .opening :: rest) :
    Steps c s (.openNative t closing failed) (s.setThread t
      { stack := .run ctx (.looping (s.threads t).current) :: rest, current := some ctx })
  | leave {t ctx previous rest} (hs : (s.threads t).stack = .run ctx (.looping previous) :: rest) :
    Steps c s (.leaveLoop t) (s.setThread t { stack := .run ctx .closing :: rest, current := previous })
  | release {t ctx rest} (hs : (s.threads t).stack = .run ctx .closing :: rest) :
    Steps c s (.releaseWorkerSlot t)
      ((s.release c t ctx).setThread t { s.threads t with stack := rest })
  | await {t} (hf : (s.threads t).free) (hr : s.stopRequested) :
    Steps c s (.callStop t) (s.setThread t ((s.threads t).push .await))
  | elect {t} (hf : (s.threads t).free) (hr : s.stopRequested = false) :
    Steps c s (.callStop t) (({ s with stopRequested := true, elected := some t } : State τ κ).setThread t
      ((s.threads t).push (.stop .aborting)))
  | abort {t rest} (hs : (s.threads t).stack = .stop .aborting :: rest) :
    Steps c s (.abortTimers t) (s.setThread t { s.threads t with stack := .stop .publishing :: rest })
  | publish {t rest} (hs : (s.threads t).stack = .stop .publishing :: rest) :
    Steps c s (.publishStopping t) (({ s with lifeState := true } : State τ κ).setThread t
      { s.threads t with
        stack := .stop (.waiting (if (s.threads t).isInContext c then 1 else 0)) :: rest })
  | drain {t n rest} (hs : (s.threads t).stack = .stop (.waiting n) :: rest)
      (hn : ¬s.runningWorkers > n) :
    Steps c s (.workersGone t) (s.setThread t { s.threads t with stack := .stop .draining :: rest })
  | finish {t rest} (hs : (s.threads t).stack = .stop .draining :: rest) :
    Steps c s (.drained t) (({ s with stopped := true, elected := none } : State τ κ).setThread t
      { s.threads t with stack := rest })
  | see {t rest} (hs : (s.threads t).stack = .await :: rest) :
    Steps c s (.seeStopped t) (s.setThread t { s.threads t with stack := rest })

variable {c s} {s' : State τ κ} {a : Action τ κ} {t u : τ} {th : Thread κ} {b b' : Bool} {ctx : κ}
  {rest : List (Frame κ)} {f g : Frame κ}

theorem step_steps (hs : s.step c a = some s') : Steps c s a s' := by
  cases a
  all_goals simp only [State.step] at hs
  case callRun t ctx =>
    split at hs <;> cases hs
    case isTrue hf => exact .enter hf
  case canStartRun t closing =>
    split at hs
    case h_1 ctx rest hst =>
      split at hs
      case isTrue => cases hs
      case isFalse hread =>
        -- the flag that is read is the context's own
        split at hs <;> cases hs
        case isTrue hc  => exact hc ▸ .refuse hst
        case isFalse hc =>
          have hc : closing = false := by simpa using hc
          subst hc
          exact .start hst fun he => by simpa [he] using hread
    case h_2 => cases hs
  case openNative t closing failed =>
    split at hs
    case h_1 hst =>
      split at hs
      case isTrue  => cases hs
      case isFalse =>
        split at hs <;> cases hs
        case isTrue  => exact .skip hst
        case isFalse => exact .loop hst
    case h_2 => cases hs
  case leaveLoop t =>
    split at hs <;> cases hs
    case h_1 hst => exact .leave hst
  case releaseWorkerSlot t =>
    split at hs <;> cases hs
    case h_1 hst => exact .release hst
  case callStop t =>
    split at hs
    case isTrue => cases hs
    case isFalse hf =>
      have hf : (s.threads t).free := by simpa using hf
      split at hs <;> cases hs
      case isTrue hr  => exact .await hf hr
      case isFalse hr => exact .elect hf (by simpa using hr)
  case abortTimers t =>
    split at hs <;> cases hs
    case h_1 hst => exact .abort hst
  case publishStopping t =>
    split at hs <;> cases hs
    case h_1 hst => exact .publish hst
  case workersGone t =>
    split at hs
    case h_1 hst =>
      split at hs <;> cases hs
      case isFalse hn => exact .drain hst hn
    case h_2 => cases hs
  case drained t =>
    split at hs <;> cases hs
    case h_1 hst => exact .finish hst
  case seeStopped t =>
    split at hs
    case h_1 hst =>
      split at hs <;> cases hs
      case isTrue => exact .see hst
    case h_2 => cases hs

omit [DecidableEq κ] in
@[simp]
theorem setThread_self : (s.setThread t th).threads t = th :=
  Function.update_self ..

-- A step touches one thread, and keeps the counters and the election in line with its stack.
structure Touches (c : κ) (t : τ) (s s' : State τ κ) : Prop where
  others : ∀ {u}, u ≠ t → s'.threads u = s.threads u
  count : ∀ {u}, u ≠ t → s'.counted.count u = s.counted.count u
  elected : ∀ {u}, u ≠ t → (s'.elected = some u ↔ s.elected = some u)
  stopped : s.stopped → s'.stopped
  running : s'.runningWorkers = s'.counted.length
  runs : (s'.threads t).runs c = s'.counted.count t
  stops : (s'.threads t).stops = if s'.elected = some t then 1 else 0
  requested : s'.elected.isSome ∨ s'.stopped → s'.stopRequested
  underWay : s'.elected.isSome → s'.stopped = false
  below : ∀ f ∈ (s'.threads t).stack.tail, f.runsReceivers

theorem Touches.counts (ht : Touches c t s s') (h : s.Counts c) : s'.Counts c := by
  refine ⟨ht.running, fun u => ?_, fun u => ?_, ht.requested, ht.underWay, fun u => ?_⟩
  all_goals by_cases hu : u = t
  · exact hu ▸ ht.runs
  · rw [ht.others hu, ht.count hu, h.runs]
  · exact hu ▸ ht.stops
  · simp [ht.others hu, ht.elected hu, h.stops u]
  · exact hu ▸ ht.below
  · exact ht.others hu ▸ h.below u

theorem counts_init : Counts c ({} : State τ κ) where
  running := rfl
  runs _ := rfl
  stops _ := by simp [Thread.stops]
  requested := by simp
  underWay := by simp
  below := by simp

namespace Counts

variable (h : s.Counts c)
include h

-- The counter, the counted threads and the election stay as they are.
theorem setThread (hr : th.runs c = (s.threads t).runs c) (hst : th.stops = (s.threads t).stops)
    (hb : ∀ f ∈ th.stack.tail, f.runsReceivers) :
    Touches c t s (({ s with lifeState := b } : State τ κ).setThread t th) where
  others hu := by simp [State.setThread, hu]
  count _ := rfl
  elected _ := .rfl
  stopped := id
  running := h.running
  runs := by rw [setThread_self]; exact hr.trans (h.runs t)
  stops := by rw [setThread_self]; exact hst.trans (h.stops t)
  requested := h.requested
  underWay := h.underWay
  below := by rwa [setThread_self]

theorem below_rest (hs : (s.threads t).stack = f :: rest) : ∀ g ∈ rest, g.runsReceivers := by
  simpa [hs] using h.below t

-- The last call of the thread goes on.
theorem setTop {current : Option κ} (hs : (s.threads t).stack = f :: rest)
    (hrun : g.isRun c = f.isRun c) (hstop : g.isStop = f.isStop) :
    Touches c t s (({ s with lifeState := b } : State τ κ).setThread t { stack := g :: rest, current }) :=
  h.setThread (by simp [Thread.runs, hs, List.countP_cons, hrun])
    (by simp [Thread.stops, hs, List.countP_cons, hstop]) (h.below_rest hs)

theorem below_push (hf : (s.threads t).free) : ∀ f ∈ (s.threads t).stack, f.runsReceivers := by
  cases hs : (s.threads t).stack
  case nil         => simp
  case cons f rest =>
    have hf : f.runsReceivers := by simpa [Thread.free, hs] using hf
    simpa [hf] using h.below_rest hs

-- The thread that returns from a call is in a receiver again, or outside of all calls.
theorem free_of_pop (hs : (s.threads t).stack = f :: rest) :
    Thread.free { s.threads t with stack := rest } := by
  have hb := h.below_rest hs
  cases rest
  case nil  => rfl
  case cons => exact hb _ List.mem_cons_self

theorem elected_of_mem {p : StopPhase} (hm : .stop p ∈ (s.threads t).stack) : s.elected = some t := by
  by_contra hne
  have hz := h.stops t
  rw [if_neg hne] at hz
  exact List.countP_eq_zero.mp hz _ hm rfl

theorem elected_of_stop {p : StopPhase} (hs : (s.threads t).stack = .stop p :: rest) :
    s.elected = some t :=
  h.elected_of_mem (hs ▸ List.mem_cons_self)

theorem countP_isStop_of_stop {p : StopPhase} (hs : (s.threads t).stack = .stop p :: rest) :
    rest.countP Frame.isStop = 0 := by
  have hone := h.stops t
  rw [if_pos (h.elected_of_stop hs), Thread.stops, hs, List.countP_cons_of_pos rfl] at hone
  omega

theorem elected_eq_none (hr : s.stopRequested = false) : s.elected = none := by
  by_contra hne
  have := h.requested (.inl (Option.isSome_iff_ne_none.mpr hne))
  simp [hr] at this

theorem enter (hf : (s.threads t).free) :
    Touches c t s ((s.enter c t ctx).setThread t ((s.threads t).push (.run ctx .entered))) := by
  have hruns := h.runs t
  have hstops : ((s.threads t).push (.run ctx .entered)).stops = (s.threads t).stops := by
    simp [Thread.stops, Thread.push, Frame.isStop]
  unfold State.enter
  by_cases hc : ctx = c
  case neg =>
    rw [if_neg hc]
    exact h.setThread (by simp [Thread.runs, Thread.push, Frame.isRun, hc]) hstops (h.below_push hf)
  case pos =>
    rw [if_pos hc]
    exact {
      others := fun hu => by simp [State.setThread, hu]
      count := fun hu => by simp [State.setThread, Ne.symm hu]
      elected := fun _ => .rfl
      stopped := id
      running := by simp [State.setThread, h.running]
      runs := by
        rw [setThread_self]
        simpa [State.setThread, Thread.runs, Thread.push, Frame.isRun, hc] using hruns
      stops := by rw [setThread_self]; exact hstops.trans (h.stops t)
      requested := h.requested
      underWay := h.underWay
      below := by rw [setThread_self]; exact h.below_push hf }

theorem release {p : RunPhase κ} (hs : (s.threads t).stack = .run ctx p :: rest) :
    Touches c t s ((s.release c t ctx).setThread t { s.threads t with stack := rest }) := by
  have hruns : rest.countP (·.isRun c) + (if ctx = c then 1 else 0) = s.counted.count t := by
    simpa [Thread.runs, hs, List.countP_cons, Frame.isRun] using h.runs t
  have hstops : Thread.stops { s.threads t with stack := rest } = (s.threads t).stops := by
    simp [Thread.stops, hs, Frame.isStop]
  have hbelow : ∀ f ∈ rest.tail, f.runsReceivers := fun f hf =>
    h.below_rest hs f (List.mem_of_mem_tail hf)
  unfold State.release
  by_cases hc : ctx = c
  case neg =>
    rw [if_neg hc] at hruns ⊢
    exact h.setThread (hruns.trans (h.runs t).symm) hstops hbelow
  case pos =>
    rw [if_pos hc] at hruns ⊢
    have hm : t ∈ s.counted := List.count_pos_iff.mp (by omega)
    exact {
      others := fun hu => by simp [State.setThread, hu]
      count := fun hu => by simp [State.setThread, List.count_erase_of_ne hu]
      elected := fun _ => .rfl
      stopped := id
      running := by simp [State.setThread, h.running, List.length_erase_of_mem hm]
      runs := by
        simp only [State.setThread, Function.update_self, Thread.runs, List.count_erase_self]
        omega
      stops := by rw [setThread_self]; exact hstops.trans (h.stops t)
      requested := h.requested
      underWay := h.underWay
      below := by rwa [setThread_self] }

theorem elect (hf : (s.threads t).free) (hr : s.stopRequested = false) :
    Touches c t s (({ s with stopRequested := true, elected := some t } : State τ κ).setThread t
      ((s.threads t).push (.stop .aborting))) := by
  have hnone := h.elected_eq_none hr
  have hstops : (s.threads t).stops = 0 := by simpa [hnone] using h.stops t
  exact {
    others := fun hu => by simp [State.setThread, hu]
    count := fun _ => rfl
    elected := fun hu => by simp [State.setThread, hnone, Ne.symm hu]
    stopped := id
    running := h.running
    runs := by simpa [State.setThread, Thread.runs, Thread.push, Frame.isRun] using h.runs t
    stops := by
      rw [Thread.stops] at hstops
      simp [State.setThread, Thread.stops, Thread.push, List.countP_cons, hstops, Frame.isStop]
    requested := fun _ => rfl
    underWay := fun _ => by
      by_contra hne
      have := h.requested (.inr (by simpa [State.setThread] using hne))
      simp [hr] at this
    below := by rw [setThread_self]; exact h.below_push hf }

theorem finish {p : StopPhase} (hs : (s.threads t).stack = .stop p :: rest) :
    Touches c t s (({ s with stopped := true, elected := none } : State τ κ).setThread t
      { s.threads t with stack := rest }) := by
  have he := h.elected_of_stop hs
  exact {
    others := fun hu => by simp [State.setThread, hu]
    count := fun _ => rfl
    elected := fun hu => by simp [State.setThread, he, Ne.symm hu]
    stopped := fun _ => rfl
    running := h.running
    runs := by simpa [State.setThread, Thread.runs, hs, Frame.isRun] using h.runs t
    stops := by simpa [State.setThread, Thread.stops] using h.countP_isStop_of_stop hs
    requested := fun _ => h.requested (.inl (by simp [he]))
    underWay := nofun
    below := by
      rw [setThread_self]
      exact fun f hf => h.below_rest hs f (List.mem_of_mem_tail hf) }

theorem touches (hs : Steps c s a s') : Touches c a.thread s s' := by
  cases hs
  all_goals simp only [Action.thread]
  case enter hf               => exact h.enter hf
  case refuse hs | release hs => exact h.release hs
  case start hs _ | skip hs | loop hs | leave hs | abort hs | publish hs | drain hs _ =>
    exact h.setTop hs rfl rfl
  case elect hf hr => exact h.elect hf hr
  case finish hs   => exact h.finish hs
  case await hf hr =>
    exact h.setThread (by simp [Thread.runs, Thread.push, Frame.isRun])
      (by simp [Thread.stops, Thread.push, Frame.isStop]) (h.below_push hf)
  case see hs =>
    exact h.setThread (by simp [Thread.runs, hs, Frame.isRun]) (by simp [Thread.stops, hs, Frame.isStop])
      fun f hf => h.below_rest hs f (List.mem_of_mem_tail hf)

end Counts

omit [DecidableEq τ] in
theorem Local.of_free (hf : th.free) : Local c b th where
  self {p _} hs := by
    have hr : (Frame.stop p : Frame κ).runsReceivers := by simpa [Thread.free, hs] using hf
    cases p <;> first | exact .inl rfl | cases hr
  await ha := by
    obtain ⟨rest, hs⟩ := List.head?_eq_some_iff.mp ha
    simp [Thread.free, hs, Frame.runsReceivers] at hf

omit [DecidableEq τ] in
theorem Local.of_run {p : RunPhase κ} (hs : th.stack = .run ctx p :: rest) : Local c b th :=
  ⟨by simp [hs], by simp [hs]⟩

omit [DecidableEq τ] in
theorem Local.mono (h : Local c b th) (hb : b → b') : Local c b' th :=
  ⟨h.self, fun ha hb' => h.await ha (Bool.eq_false_iff.mpr fun h => by simp [hb h] at hb')⟩

omit [DecidableEq τ] in
theorem Local.setPhase {p q : StopPhase} (h : Local c b th) (hs : th.stack = .stop p :: rest)
    (hp : p ≠ .draining) (hq : ∀ n, q = .waiting n → n = if th.isInContext c then 1 else 0) :
    Local c b' { th with stack := .stop q :: rest } where
  self {q' _} he := by
    obtain rfl : q = q' := Frame.stop.inj (List.cons.inj he).1
    have hr : Thread.runs { th with stack := .stop q :: rest } c = th.runs c := by
      simp [Thread.runs, hs, Frame.isRun]
    have hn := ((h.self hs).resolve_left hp).1
    exact .inr ⟨hr.trans hn, fun n hw => (hq n hw).trans (hr.trans hn).symm⟩
  await := nofun

theorem Inv.acts (h : s.Inv c) (hf : s.Fine c a) (hs : Steps c s a s') :
    Local c s'.stopped (s'.threads a.thread) := by
  cases hs
  all_goals simp only [Action.thread, setThread_self]
  case enter | start | skip | loop | leave => exact .of_run rfl
  case refuse hs | release hs | finish hs | see hs => exact .of_free (h.free_of_pop hs)
  case drain => exact .of_free rfl
  case abort t rest hs   => exact (h.each t).setPhase hs nofun nofun
  case publish t rest hs =>
    exact (h.each t).setPhase hs nofun fun n hn => (StopPhase.waiting.inj hn).symm
  case await t hfree hr =>
    simp only [Fine, if_pos hr] at hf
    refine ⟨nofun, fun _ hb => ?_⟩
    have hf := hf.resolve_left (by simpa [State.setThread] using hb)
    simpa [Thread.runs, Thread.stops, Thread.push, Frame.isRun, Frame.isStop] using hf
  case elect t hfree hr =>
    simp only [Fine, hr, Bool.false_eq_true, if_false] at hf
    refine ⟨fun {p _} he => .inr ?_, nofun⟩
    obtain rfl : .aborting = p := Frame.stop.inj (List.cons.inj he).1
    have hruns : ((s.threads t).push (.stop .aborting)).runs c = (s.threads t).runs c := by
      simp [Thread.runs, Thread.push, Frame.isRun]
    exact ⟨hruns.trans hf, nofun⟩

theorem inv_init : Inv c ({} : State τ κ) :=
  ⟨counts_init, fun _ => .of_free rfl⟩

theorem Inv.step (h : s.Inv c) (hf : s.Fine c a) (hs : s.step c a = some s') : s'.Inv c := by
  have hs := step_steps hs
  have ht := h.touches hs
  refine ⟨ht.counts h.toCounts, fun u => ?_⟩
  by_cases hu : u = a.thread
  case pos => exact hu ▸ h.acts hf hs
  case neg => exact ht.others hu ▸ (h.each u).mono ht.stopped

theorem Inv.live (h : s.Inv c) : s.Live c where
  workers u n rest hs hn := by
    have hcount : n = s.counted.count u :=
      (((h.each u).self hs).resolve_left nofun).2 n rfl |>.trans (h.runs u)
    have ⟨t, ht, hne⟩ : ∃ t ∈ s.counted, t ≠ u := by
      by_contra hno
      have : s.counted.count u = s.counted.length :=
        List.count_eq_length.mpr fun t ht => by_contra fun hne => hno ⟨t, ht, Ne.symm hne⟩
      have := h.running
      omega
    have hpos : 0 < (s.threads t).runs c := h.runs t ▸ List.count_pos_iff.mpr ht
    refine ⟨t, hne, hpos, fun ha => ?_⟩
    have hopen := h.underWay (by simp [h.elected_of_stop hs])
    have := ((h.each t).await ha hopen).1
    omega
  own t ha hb := ((h.each t).await ha hb).2

theorem always_live_of_fine {as : List (Action τ κ)} (h : System.Along (step c) (Fine c) {} as) :
    System.Always (step c) (Live c) ({} : State τ κ) as :=
  h.always (I := Inv c) Inv.step Inv.live inv_init

end State

-- A worker enters its loop.
def enters (t ctx : Nat) : List (Action Nat Nat) :=
  [.callRun t ctx, .canStartRun t false, .openNative t false false]

-- A stop from outside, with a worker that leaves.
def stopWorker : List (Action Nat Nat) :=
  enters 1 0 ++ [.callStop 2, .abortTimers 2, .publishStopping 2, .leaveLoop 1, .releaseWorkerSlot 1,
    .workersGone 2, .drained 2]

theorem always_live_of_stopWorker :
    System.Always (State.step 0) (State.Live 0) ({} : State Nat Nat) stopWorker :=
  State.always_live_of_fine (by decide)

-- The same, but a receiver in the worker's loop also calls `stop`: the stop waits for the worker, and the
-- worker for the stop.
def stopTwice : List (Action Nat Nat) :=
  enters 1 0 ++ [.callStop 2, .abortTimers 2, .publishStopping 2, .callStop 1]

theorem stopTwice_not_live :
    ∃ s, System.run (State.step 0) ({} : State Nat Nat) stopTwice = some s ∧ ¬s.Live 0 := by
  refine ⟨_, rfl, fun h => ?_⟩
  have ⟨t, hne, hr, ha⟩ := h.workers 2 0 [] rfl (by decide)
  by_cases ht : t = 1
  case pos =>
    subst ht
    exact ha rfl
  case neg => simp [State.setThread, State.enter, hne, ht, Thread.runs] at hr

end Bnio.Posix.StopElection

import Bnio.Kqueue.Conservation

namespace Bnio.Kqueue

-- A publication by a thread that is not the worker's.
def WorkerAction.foreign : WorkerAction → Bool
  | .publishIo .. | .publishCpu _ => true
  | _                             => false

def WorkerAction.isWork : WorkerAction → Bool
  | .work _ => true
  | _       => false

-- The two phases of `finish`.
def Site.tearing : Site → Bool
  | .finish | .drain => true
  | _                => false

namespace Pc

-- The positions of `finish`, and of `queue_exit` on a context that has not finished.
def tearing : Pc → Bool
  | .collect .finish | .process .finish | .abort | .finished => true
  | .timers site | .cpu site | .exec site | .io site => site.tearing
  | _ => false

-- The inflight operations have been aborted.
def aborted : Pc → Bool
  | .timers .drain | .cpu .drain | .exec .drain | .io .drain | .finished => true
  | _ => false

-- The steps left while no operation is executed or taken off an I/O queue: `events` is what is left of
-- the batch of events, `idle` tells whether the batch of tasks is done.
def remaining (window events : Nat) (idle : Bool) : Pc → Nat
  | .collect _      => window + 14
  | .process _      => events + 13
  | .timers .finish => 12
  | .cpu .finish    => 11
  | .exec .finish   => if idle then window + 15 else 10
  | .io .finish     => 10
  | .abort          => 9
  | .timers _       => 5
  | .cpu _          => 4
  | .exec _         => if idle then 6 else 3
  | .io _           => 2
  | _               => 0

end Pc

namespace Worker

variable {w w' : Worker} {i : Input} {a : WorkerAction} {pc : Pc} {site : Site}

section Potential

def pending (w : Worker) : Nat :=
  w.held.length - w.executed.length

def queuedIo (w : Worker) : Nat :=
  w.localIo.length + w.sharedIo.length

-- What it costs to execute one operation, or to take some off an I/O queue, and to come back.
def turn (w : Worker) : Nat :=
  w.options.eventBatchWindow + 20

def ahead (w : Worker) : Nat :=
  w.queuedIo * w.turn +
    w.pc.remaining w.options.eventBatchWindow w.events.length w.batch.isEmpty

def potential (w : Worker) : Nat :=
  w.pending * w.turn + w.ahead

-- A step of `finish` that executes nothing.
structure Nears (w w' : Worker) : Prop where
  tearing : w'.pc.tearing
  options : w'.options = w.options
  executed : w'.executed = w.executed
  ahead : w'.ahead < w.ahead

theorem Nears.of_remaining (ht : w'.pc.tearing) (ho : w'.options = w.options)
    (he : w'.executed = w.executed) (hq : w'.queuedIo ≤ w.queuedIo)
    (hd : w'.pc.remaining w.options.eventBatchWindow w'.events.length w'.batch.isEmpty <
      w.pc.remaining w.options.eventBatchWindow w.events.length w.batch.isEmpty) : Nears w w' := by
  refine ⟨ht, ho, he, ?_⟩
  have := Nat.mul_le_mul_right w.turn hq
  rw [Worker.ahead, Worker.ahead, turn, ho, ← turn]
  omega

-- Taking something off an I/O queue pays for a turn.
theorem Nears.of_queuedIo (ht : w'.pc.tearing) (ho : w'.options = w.options)
    (he : w'.executed = w.executed) (hq : w'.queuedIo < w.queuedIo)
    (hd : w'.pc.remaining w.options.eventBatchWindow w'.events.length w'.batch.isEmpty < w.turn) :
    Nears w w' := by
  refine ⟨ht, ho, he, ?_⟩
  have := Nat.mul_le_mul_right w.turn hq
  rw [Nat.succ_mul] at this
  rw [Worker.ahead, Worker.ahead, turn, ho, ← turn]
  omega

theorem collect_nears (hp : w.pc = .collect .finish) (hr : w.Reports i.events) :
    Nears w (w.workStep i) := by
  simp only [Reports, hp] at hr
  simp only [workStep, hp]
  refine .of_remaining rfl rfl rfl (Nat.le_refl _) ?_
  simp only [goto, hp, Pc.remaining]
  omega

theorem process_nears (hp : w.pc = .process .finish) : Nears w (w.workStep i) := by
  simp only [workStep, hp, processStep]
  split
  case h_1 e es he =>
    rw [processEvent_eq]
    refine .of_remaining rfl rfl rfl (Nat.le_refl _) ?_
    simp [hp, he, Pc.remaining]
  case h_2 he =>
    split
    case isTrue  =>
      exact .of_remaining rfl rfl rfl (Nat.le_refl _) (by simp [hp, afterCollect, goto, Pc.remaining])
    case isFalse =>
      obtain ⟨_, _, _, hd, _⟩ := w.dispatchEventTasks_eq
      rw [hd]
      exact .of_remaining rfl rfl rfl (Nat.le_refl _) (by simp [hp, afterCollect, goto, Pc.remaining])

-- What `consume_timeout_operations` touches.
theorem timers_eq (hp : w.pc = .timers site) :
    ∃ s b, w.workStep i = { w with ctx := s }.afterTimers b site ∧ s.inflight = w.ctx.inflight := by
  simp only [workStep, hp, Context.pushCpuList_eq]
  split
  all_goals
    refine ⟨_, _, rfl, ?_⟩
    rfl

theorem timers_nears (hp : w.pc = .timers site) (ht : site.tearing) : Nears w (w.workStep i) := by
  have ⟨s, b, he, _⟩ := timers_eq (i := i) hp
  rw [he]
  cases site
  case finish =>
    exact .of_remaining rfl rfl rfl (Nat.le_refl _) (by simp [hp, afterTimers, goto, Pc.remaining])
  case drain  =>
    exact .of_remaining rfl rfl rfl (Nat.le_refl _) (by simp [hp, afterTimers, goto, Pc.remaining])
  all_goals cases ht

-- What `fetch_cpu_task` touches.
theorem fetchCpuTask_eq (h : ¬(w.ctx.localCpu = [] ∧ w.sharedCpu = [])) :
    ∃ l q batch, w.fetchCpuTask = { w with ctx := { w.ctx with localCpu := l }, sharedCpu := q, batch } ∧
      batch.isEmpty = false := by
  unfold fetchCpuTask
  split
  case isTrue hl  => exact ⟨_, _, _, rfl, by simpa using hl⟩
  case isFalse hl =>
    refine ⟨_, _, _, rfl, ?_⟩
    have hnil := not_not.mp hl
    simpa using fun hs => h ⟨hnil, hs⟩

theorem cpu_nears (hp : w.pc = .cpu site) (ht : site.tearing) : Nears w (w.workStep i) := by
  simp only [workStep, hp]
  split
  case isTrue =>
    cases site
    case finish =>
      exact .of_remaining rfl rfl rfl (Nat.le_refl _) (by simp [hp, afterCpu, goto, Pc.remaining])
    case drain  =>
      exact .of_remaining rfl rfl rfl (Nat.le_refl _) (by simp [hp, afterCpu, goto, Pc.remaining])
    all_goals cases ht
  case isFalse hc =>
    obtain ⟨_, _, batch, hf, hne⟩ := fetchCpuTask_eq hc
    rw [hf]
    refine .of_remaining ht rfl rfl (Nat.le_refl _) ?_
    cases site
    case finish => simp [hp, goto, hne, Pc.remaining]
    case drain  => simp [hp, goto, hne, Pc.remaining]
    all_goals cases ht

theorem exec_nears (hp : w.pc = .exec site) (ht : site.tearing) (hb : w.batch = []) :
    Nears w (w.workStep i) := by
  simp only [workStep, hp, hb, if_true]
  cases site
  case finish =>
    refine .of_remaining rfl rfl rfl (Nat.le_refl _) ?_
    simp [hp, hb, afterCpu, toFinish, goto, Pc.remaining]
  case drain  =>
    exact .of_remaining rfl rfl rfl (Nat.le_refl _) (by simp [hp, hb, afterCpu, goto, Pc.remaining])
  all_goals cases ht

-- `consume_io_tasks` empties a queue when it finds something, and else both queues are empty.
theorem consumeIoTasks_eq (w : Worker) (env : OpId → Env) : ∃ s l q,
    (w.consumeIoTasks env).1 = { w with ctx := s, localIo := l, sharedIo := q } ∧
      ((w.consumeIoTasks env).2 = true → l.length + q.length < w.queuedIo) ∧
      ((w.consumeIoTasks env).2 = false →
        w.localIo = [] ∧ w.sharedIo = [] ∧ s = w.ctx ∧ l = [] ∧ q = []) := by
  unfold consumeIoTasks
  split
  case isTrue =>
    refine ⟨_, _, _, rfl, fun h => ?_, fun h => ?_⟩
    · simp only [Bool.not_eq_true', Bool.and_eq_false_iff, List.isEmpty_eq_false_iff] at h
      have := h.imp List.length_pos_iff.mpr List.length_pos_iff.mpr
      simp only [queuedIo, List.length_nil]
      omega
    · simp only [Bool.not_eq_false', Bool.and_eq_true, List.isEmpty_iff] at h
      refine ⟨h.1, h.2, ?_, rfl, rfl⟩
      simp [h, Context.drainIoListCompleteStopped]
  case isFalse =>
    by_cases hl : w.localIo = []
    case pos =>
      simp only [popIo, hl, ne_eq, not_true_eq_false, if_false]
      refine ⟨_, _, _, rfl, fun h => ?_, fun h => ?_⟩
      · simp only [Bool.not_eq_true', List.isEmpty_eq_false_iff] at h
        have := List.length_pos_iff.mpr h
        simp only [queuedIo, hl, List.length_nil]
        omega
      · simp only [Bool.not_eq_false', List.isEmpty_iff] at h
        exact ⟨trivial, h, by simp [h], rfl, rfl⟩
    case neg =>
      simp only [popIo, hl, ne_eq, not_false_eq_true, if_true]
      refine ⟨_, _, _, rfl, fun _ => ?_, fun h => ?_⟩
      · have := List.length_pos_iff.mpr hl
        simp only [queuedIo, List.length_nil]
        omega
      · simp [hl] at h

theorem io_nears (hp : w.pc = .io site) (ht : site.tearing) : Nears w (w.workStep i) := by
  obtain ⟨s, l, q, he, hfound, hnot⟩ := w.consumeIoTasks_eq i.env
  simp only [workStep, hp]
  cases hf : (w.consumeIoTasks i.env).2
  case true  =>
    have hlt := hfound hf
    rw [he]
    cases site
    case finish =>
      exact .of_queuedIo rfl rfl rfl hlt (by simp [afterIo, toFinish, goto, Pc.remaining, turn])
    case drain  => exact .of_queuedIo rfl rfl rfl hlt (by simp [afterIo, goto, Pc.remaining, turn])
    all_goals cases ht
  case false =>
    obtain ⟨_, _, _, hl, hq⟩ := hnot hf
    have hle : l.length + q.length ≤ w.queuedIo := by simp [hl, hq]
    rw [he]
    cases site
    case finish => exact .of_remaining rfl rfl rfl hle (by simp [hp, afterIo, goto, Pc.remaining])
    case drain  => exact .of_remaining rfl rfl rfl hle (by simp [hp, afterIo, Pc.remaining])
    all_goals cases ht

theorem abort_nears (hp : w.pc = .abort) : Nears w (w.workStep i) := by
  simp only [workStep, hp]
  refine .of_remaining rfl rfl rfl (Nat.zero_le _) ?_
  simp [hp, goto, abortInflightIo, stopQueuedIo, Pc.remaining]

theorem foldl_publishLocalIo_eq (ps : List (OpId × Request)) (w : Worker) : ∃ f,
    ps.foldl publishLocalIo w = { w with
      ctx := { w.ctx with ops := f }, localIo := (ps.map Prod.fst).reverse ++ w.localIo } := by
  induction ps generalizing w
  case nil          => exact ⟨_, rfl⟩
  case cons p ps hi =>
    have ⟨f, h⟩ := hi (w.publishLocalIo p)
    exact ⟨f, by rw [List.foldl_cons, h]; simp [publishLocalIo, Context.setOp]⟩

theorem executeNext_eq {op : OpId} {l : List OpId} (hb : w.batch = op :: l) : ∃ f,
    w.executeNext i = { w with
      ctx := { w.ctx with ops := f, localCpu := i.publishedCpu.reverse ++ w.ctx.localCpu }
      localIo := (i.publishedIo.map Prod.fst).reverse ++ w.localIo
      batch := l
      executed := op :: w.executed } := by
  simp only [executeNext, hb, Context.pushCpuList_eq]
  exact foldl_publishLocalIo_eq ..

-- An execution pays for a whole turn; an I/O operation costs one more when it is taken off its queue.
theorem executeNext_potential (h : w.Kept) (hp : w.pc = .exec site) (ht : site.tearing)
    (hb : w.batch ≠ []) (hf : w.Fresh (w.started i)) : (w.executeNext i).potential <
      w.potential + (i.publishedIo.map Prod.fst ++ i.publishedCpu).length * (2 * w.turn) := by
  have ⟨op, l, hl⟩ := List.exists_cons_of_ne_nil hb
  have hlen := (h.execute hf hp hl).held.length_eq
  have ⟨f, he⟩ := executeNext_eq (i := i) hl
  have hle : w.executed.length + w.batch.length ≤ w.held.length := by
    simp only [held, List.length_append]
    omega
  have hpend : (w.executeNext i).pending + 1 =
      w.pending + (i.publishedIo.map Prod.fst ++ i.publishedCpu).length := by
    rw [hl, List.length_cons] at hle
    rw [pending, hlen, he, pending, List.length_append]
    simp only [List.length_cons]
    omega
  have hio : (w.executeNext i).queuedIo = w.queuedIo + i.publishedIo.length := by
    rw [he]
    simp only [queuedIo, List.length_append, List.length_reverse, List.length_map]
    omega
  have hturn : (w.executeNext i).turn = w.turn := by rw [he]; rfl
  have hrem : ∀ events idle,
      (w.executeNext i).pc.remaining (w.executeNext i).options.eventBatchWindow events idle < w.turn := by
    intro events idle
    rw [he, turn]
    cases site
    case finish => cases idle <;> simp [hp, Pc.remaining]
    case drain  => cases idle <;> simp [hp, Pc.remaining]
    all_goals cases ht
  have hrem := hrem (w.executeNext i).events.length (w.executeNext i).batch.isEmpty
  have h₁ := congrArg (· * w.turn) hpend
  have h₂ := Nat.mul_le_mul_right w.turn (Nat.le_add_right i.publishedIo.length i.publishedCpu.length)
  simp only [Nat.add_mul, Nat.one_mul, List.length_append, List.length_map] at h₁ h₂
  rw [potential, potential, ahead, ahead, hturn, hio, List.length_append, List.length_map,
    Nat.mul_left_comm, Nat.two_mul, Nat.add_mul, Nat.add_mul]
  omega

theorem Nears.potential (h : w.Nears w') {n : Nat} (hlen : w'.held.length = n + w.held.length) :
    w'.potential < w.potential + n * (2 * w.turn) := by
  have hle : w.executed.length ≤ w.held.length := by
    simp only [held, List.length_append]
    omega
  have hpend : w'.pending = w.pending + n := by
    rw [pending, pending, h.executed, hlen]
    omega
  have hturn : w'.turn = w.turn := by rw [turn, h.options, turn]
  have := h.ahead
  rw [Worker.potential, Worker.potential, hturn, hpend, Nat.mul_left_comm, Nat.two_mul, Nat.add_mul]
  omega

-- Every step of the worker brings `finish` closer to its end, up to what it publishes.
theorem workStep_potential (h : w.Kept) (ht : w.pc.tearing) (hn : w.pc ≠ .finished)
    (hf : w.Fresh (w.started i)) (hr : w.Reports i.events)
    (hlen : (w.workStep i).held.length = (w.publishes (.work i)).length + w.held.length) :
    (w.workStep i).pc.tearing ∧ (w.workStep i).options = w.options ∧
      (w.workStep i).potential < w.potential + (w.publishes (.work i)).length * (2 * w.turn) := by
  have hnears : w.Nears (w.workStep i) → (w.workStep i).pc.tearing ∧ (w.workStep i).options = w.options ∧
      (w.workStep i).potential < w.potential + (w.publishes (.work i)).length * (2 * w.turn) :=
    fun hn => ⟨hn.tearing, hn.options, hn.potential hlen⟩
  unfold Pc.tearing at ht
  split at ht
  case h_1 hp => exact hnears (collect_nears hp hr)
  case h_2 hp => exact hnears (process_nears hp)
  case h_3 hp => exact hnears (abort_nears hp)
  case h_4 hp => exact absurd hp hn
  case h_5 hp => exact hnears (timers_nears hp ht)
  case h_6 hp => exact hnears (cpu_nears hp ht)
  case h_7 hp =>
    by_cases hb : w.batch = []
    case pos => exact hnears (exec_nears hp ht hb)
    case neg =>
      have hstep : w.workStep i = w.executeNext i := by simp only [workStep, hp, hb, if_false]
      have hpub : w.publishes (.work i) = i.publishedIo.map Prod.fst ++ i.publishedCpu := by
        simp only [publishes, publishesIo, publishesCpu, hp, hb, if_false]
      obtain ⟨op, l, hl⟩ := List.exists_cons_of_ne_nil hb
      obtain ⟨f, he⟩ := executeNext_eq (i := i) hl
      rw [hstep, hpub]
      refine ⟨?_, ?_, executeNext_potential h hp ht hb hf⟩
      · rw [he]
        simp only [hp]
        exact ht
      · rw [he]
  case h_8 hp => exact hnears (io_nears hp ht)
  case h_9 => cases ht

end Potential

section Run

-- The operations that wait for being executed.
def queued (w : Worker) : List OpId :=
  w.ctx.inflight ++ w.localIo ++ w.sharedIo ++ w.tasks ++ w.ctx.localCpu ++ w.sharedCpu ++ w.batch

theorem tearing_working (ht : w.pc.tearing) (hn : w.pc ≠ .finished) : Working w.pc := by
  generalize w.pc = pc at *
  cases pc
  case finished => exact absurd rfl hn
  all_goals first
    | rfl
    | cases ht

-- Nobody else publishes, and `finish` has not returned.
def Undisturbed (w : Worker) (a : WorkerAction) : Prop :=
  a.foreign = false ∧ w.pc ≠ .finished

instance : Decidable (w.Undisturbed a) :=
  inferInstanceAs (Decidable (_ ∧ _))

-- What the last phase rests on: nothing gets inflight between two aborts, and the last look at the I/O
-- queues follows one that has found the CPU queues empty. Nothing is left at the end.
structure Ending (w : Worker) : Prop where
  inflight : w.pc.aborted → w.ctx.inflight = []
  last : w.pc = .io .drain → w.ctx.localCpu = [] ∧ w.sharedCpu = []
  finished : w.pc = .finished → w.queued = []

theorem Ending.of_not_aborted (h : w.pc.aborted = false) : w.Ending :=
  have hne : ∀ {pc : Pc}, pc.aborted → w.pc ≠ pc := fun ha hp => by simp [← hp, h] at ha
  ⟨fun ha => absurd ha (by simp [h]), fun hp => absurd hp (hne rfl), fun hp => absurd hp (hne rfl)⟩

theorem Ending.of_inflight (hi : w.ctx.inflight = []) (hio : w.pc ≠ .io .drain)
    (hn : w.pc ≠ .finished) : w.Ending :=
  ⟨fun _ => hi, fun hp => absurd hp hio, fun hp => absurd hp hn⟩

theorem Ending.consumeIo (h : w.Ending) (hk : w.Kept) (hp : w.pc = .io .drain) :
    (w.workStep i).Ending := by
  obtain ⟨_, ht, hb⟩ : w.events = [] ∧ w.tasks = [] ∧ w.batch = [] := by
    simpa [Tidy, hp] using hk.tidy
  obtain ⟨hlocal, hshared⟩ := h.last hp
  have hi := h.inflight (by rw [hp]; rfl)
  obtain ⟨s, l, q, he, _, hnot⟩ := w.consumeIoTasks_eq i.env
  simp only [workStep, hp]
  cases hf : (w.consumeIoTasks i.env).2
  case true  => exact .of_not_aborted rfl
  case false =>
    obtain ⟨_, _, hs, hl, hq⟩ := hnot hf
    rw [he, hs, hl, hq]
    refine ⟨fun _ => hi, fun hp => (by cases hp), fun _ => ?_⟩
    simp [queued, afterIo, hi, ht, hb, hlocal, hshared]

theorem Ending.work (h : w.Ending) (hk : w.Kept) (ht : w.pc.tearing) (hn : w.pc ≠ .finished) :
    (w.workStep i).Ending := by
  unfold Pc.tearing at ht
  split at ht
  case h_1 hp => exact .of_not_aborted (by simp only [workStep, hp]; rfl)
  case h_2 hp =>
    refine .of_not_aborted ?_
    simp only [workStep, hp, processStep]
    split
    case h_1 => rw [processEvent_eq]; rfl
    case h_2 => split <;> rfl
  case h_3 hp =>
    obtain ⟨h₀, hi, _⟩ := hk.threaded.abort
    obtain ⟨h₁, h₂, _⟩ := h₀.stopList (l := w.localIo)
    obtain ⟨_, h₃, _⟩ := h₁.stopList (l := w.sharedIo)
    simp only [workStep, hp]
    exact .of_inflight (h₃.trans (h₂.trans hi)) (by simp [goto]) (by simp [goto])
  case h_4 hp => exact absurd hp hn
  case h_5 site hp =>
    obtain ⟨s, b, he, hs⟩ := timers_eq (i := i) hp
    rw [he]
    cases site
    case finish => exact .of_not_aborted rfl
    case drain  =>
      exact .of_inflight (hs.trans (h.inflight (by rw [hp]; rfl))) (by simp [afterTimers, goto])
        (by simp [afterTimers, goto])
    all_goals cases ht
  case h_6 site hp =>
    simp only [workStep, hp]
    split
    case isTrue hc =>
      cases site
      case finish => exact .of_not_aborted rfl
      case drain  => exact ⟨fun _ => h.inflight (by rw [hp]; rfl), fun _ => hc, fun hp => by cases hp⟩
      all_goals cases ht
    case isFalse hc =>
      obtain ⟨_, _, _, hf, _⟩ := fetchCpuTask_eq hc
      rw [hf]
      cases site
      case finish => exact .of_not_aborted rfl
      case drain  => exact .of_inflight (h.inflight (by rw [hp]; rfl)) (by simp [goto]) (by simp [goto])
      all_goals cases ht
  case h_7 site hp =>
    simp only [workStep, hp]
    split
    case isTrue =>
      cases site
      case finish => exact .of_not_aborted rfl
      case drain  =>
        exact .of_inflight (h.inflight (by rw [hp]; rfl)) (by simp [afterCpu, goto])
          (by simp [afterCpu, goto])
      all_goals cases ht
    case isFalse hb =>
      obtain ⟨op, l, hl⟩ := List.exists_cons_of_ne_nil hb
      obtain ⟨f, he⟩ := executeNext_eq (i := i) hl
      rw [he]
      exact ⟨fun ha => h.inflight ha, by simp [hp], by simp [hp]⟩
  case h_8 site hp =>
    cases site
    case finish =>
      refine .of_not_aborted ?_
      simp only [workStep, hp]
      cases (w.consumeIoTasks i.env).2 <;> rfl
    case drain => exact h.consumeIo hk hp
    all_goals cases ht
  case h_9 => cases ht

-- A worker in its shutdown.
structure Tears (w : Worker) : Prop where
  kept : w.Kept
  tearing : w.pc.tearing
  ending : w.Ending

theorem Tears.step (h : w.Tears) (good : w.Undisturbed a) (hs : Worker.step w a = some w') :
    w'.Tears ∧ w'.options = w.options ∧ w'.potential + (if a.isWork then 1 else 0) ≤
      w.potential + (w.publishes a).length * (2 * w.turn) := by
  obtain ⟨hk, hheld⟩ := h.kept.next hs
  have hwork := tearing_working h.tearing good.2
  -- the flags that others set are not read here
  have hflag : ∀ (state : RunState) (life : Bool), w' = { w with state, lifeState := life } →
      a.isWork = false → w'.Tears ∧ w'.options = w.options ∧ w'.potential + (if a.isWork then 1 else 0) ≤
        w.potential + (w.publishes a).length * (2 * w.turn) := fun state life he hn => by
    subst he
    refine ⟨⟨hk, h.tearing, h.ending.1, h.ending.2, h.ending.3⟩, rfl, ?_⟩
    rw [hn]
    exact Nat.le_add_right w.potential _
  cases a
  case publishIo  => exact absurd good.1 (by simp [WorkerAction.foreign])
  case publishCpu => exact absurd good.1 (by simp [WorkerAction.foreign])
  case stop =>
    refine hflag w'.state w'.lifeState ?_ rfl
    simp only [Worker.step] at hs
    split at hs <;> cases hs <;> rfl
  case close => exact hflag w.state true (Option.some.inj hs).symm rfl
  case run =>
    obtain ⟨hg, _⟩ := Option.ite_none_right_eq_some.mp hs
    rw [hg.1] at hwork
    cases hwork
  case queueExit =>
    simp only [Worker.step] at hs
    split at hs
    case h_1 hp => rw [hp] at hwork; cases hwork
    case h_2 hp => rw [hp] at hwork; cases hwork
    case h_3    => cases hs
  case work i =>
    obtain ⟨⟨_, hf, hr⟩, he⟩ := Option.ite_none_right_eq_some.mp hs
    cases Option.some.inj he
    have hlen := hheld.length_eq.trans List.length_append
    obtain ⟨ht, ho, hlt⟩ := workStep_potential h.kept h.tearing good.2 hf hr hlen
    exact ⟨⟨hk, ht, h.ending.work h.kept h.tearing good.2⟩, ho, hlt⟩

-- `finish` is called, or `queue_exit` on a context that has not finished.
def EntersShutdown (w : Worker) : Prop :=
  w.pc = .collect .finish ∨ w.pc = .abort

instance : Decidable w.EntersShutdown :=
  inferInstanceAs (Decidable (_ ∨ _))

-- The actions `bs` lead from the entry `w` of a shutdown to `w'`. The worker makes no more steps than
-- what was pending and what has been published since allow, it can go on until the end, and there it
-- has emptied every container and executed each operation once.
structure ShutsDown (w : Worker) (bs : List WorkerAction) (w' : Worker) : Prop where
  terminates : bs.countP WorkerAction.isWork ≤
    w.potential + (System.gathered Worker.step publishes w bs).length * (2 * w.turn)
  continues : w'.pc ≠ .finished → (Worker.step w' (.work {})).isSome
  empty : w'.pc = .finished → w'.queued = []
  once : w'.pc = .finished → ∀ op ∈ w.queued ++ System.gathered Worker.step publishes w bs,
    w'.executed.count op = 1

theorem Kept.tears (h : w.Kept) (he : w.EntersShutdown) : w.Tears := by
  rcases he with hp | hp
  all_goals exact ⟨h, by rw [hp]; rfl, .of_not_aborted (by rw [hp]; rfl)⟩

theorem Tears.shutsDown {bs : List WorkerAction} (h : w.Tears)
    (along : System.Along Worker.step Undisturbed w bs) (hr : System.run Worker.step w bs = some w') :
    w.ShutsDown bs w' := by
  have ht : w'.Tears := along.invariant (fun hv good hs => (hv.step good hs).1) h hr
  have hheld := System.gathered_perm (fun hv hs => hv.next hs) h.kept hr
  refine ⟨?_, fun hn => ?_, ht.ending.finished, fun hp op hop => ?_⟩
  · have hcost : w'.potential + bs.countP WorkerAction.isWork ≤
        w.potential + (System.gathered Worker.step publishes w bs).length * (2 * w.turn) := by
      refine along.amortized (I := fun v => v.Tears ∧ v.options = w.options)
        (fun {v} _ _ hv good hs => ?_) ⟨h, rfl⟩ hr
      have ⟨ht, hopt, hlt⟩ := hv.1.step good hs
      have hturn : v.turn = w.turn := by rw [turn, hv.2, turn]
      exact ⟨⟨ht, hopt.trans hv.2⟩, hturn ▸ hlt⟩
    exact Nat.le_trans (Nat.le_add_left ..) hcost
  · have hnil : w'.started {} = [] := by
      unfold started
      split <;> rfl
    have hfresh : w'.Fresh (w'.started {}) := by
      rw [hnil]
      exact ⟨.nil, by simp⟩
    have hrep : w'.Reports [] := by
      unfold Reports
      split
      case h_1 => exact ⟨Nat.zero_le _, by simp, .nil⟩
      case h_2 => exact ⟨Nat.zero_le _, by simp, .nil⟩
      case h_3 => trivial
    have hstep : Worker.step w' (.work {}) = some (w'.workStep {}) :=
      if_pos ⟨tearing_working ht.tearing hn, hfresh, hrep⟩
    rw [hstep]
    rfl
  · have hnil := ht.ending.finished hp
    have heq : w'.held = w'.queued ++ w'.executed := rfl
    rw [heq, hnil, List.nil_append] at hheld
    have hnodup : w'.executed.Nodup := by
      have hd := ht.kept.nodup
      rwa [heq, hnil, List.nil_append] at hd
    refine List.count_eq_one_of_mem hnodup (hheld.symm.mem_iff.mp ?_)
    have hsub : w.held = w.queued ++ w.executed := rfl
    rw [hsub]
    rcases List.mem_append.mp hop with hop | hop
    · exact List.mem_append_right _ (List.mem_append_left _ hop)
    · exact List.mem_append_left _ hop

end Run

end Worker
end Bnio.Kqueue

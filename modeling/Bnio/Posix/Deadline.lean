import Bnio.Posix.TimerDeadline
import Bnio.Posix.Wakeup

namespace Bnio.Posix

-- A timer call that still has to look whether everybody sleeps, or a pending wake.
def Call.alerting (c : Call) : Bool :=
  c = .wakeIfAll || c = .allSleeping || c.pending

-- The thread outside of the group that acts.
def Action.thread? : Action → Option Nat
  | .publish t _ _ | .timer t _ _ | .client t _ => some t
  | _                                           => none

namespace Pc

-- The worker may block without another fetch.
def hasFetched (pc : Pc) : Bool :=
  pc.bound?.isSome

-- Holds the gate `timeout_fetching`.
def holdsGate : Pc → Bool
  | fetch _ .gate => false
  | fetch _ _     => true
  | _             => false

theorem inLoop_of_holdsGate {pc : Pc} (h : pc.holdsGate) : pc.inLoop := by
  cases pc <;> simp_all [holdsGate, inLoop, hasLeft]

end Pc

namespace Group

variable {s s' : Group} {i t : Nat} {w w' : Worker} {input : Input} {a : Action} {awakeFirst : Bool}

theorem past_hasFetched : Past Pc.hasFetched where
  collect _    := by simp [Pc.hasFetched, Pc.bound?]
  fresh h      := by simp_all [Pc.hasFetched, Pc.fresh]
  asleep {pc}  := by
    unfold Pc.hasFetched Pc.bound?
    split <;> simp [Pc.asleep, Pc.linked, Site.waiting]

-- Nothing is staged, and some worker that has fetched will wait no longer than to the deadline.
structure Settled (s : Group) : Prop where
  ready : s.timers.ready = []
  bound : s.timers.heapDeadline = ⊤ ∨
            ∃ w ∈ s.workers, ∃ b, w.pc.bound? = some b ∧ b ≤ s.timers.heapDeadline

theorem Settled.quiet (h : s.Settled) (hq : s.timers.Quiet s'.timers) (pcs : s'.pcs = s.pcs) :
    s'.Settled := by
  refine ⟨hq.ready.trans h.ready, h.bound.imp (fun hd => ?_) fun ⟨w, hw, b, hb, hle⟩ => ?_⟩
  · exact top_le_iff.mp (hd ▸ hq.deadline)
  · have hm : w.pc ∈ s'.pcs := pcs ▸ List.mem_map_of_mem hw
    have ⟨w', hw', hp⟩ := List.mem_map.mp hm
    exact ⟨w', hw', b, hp ▸ hb, hle.trans hq.deadline⟩

-- The timers are settled, or somebody will look at them.
def Tended (s : Group) : Prop :=
  s.Settled ∨ (∃ t, (s.calls t).alerting) ∨ s.Watched Pc.hasFetched

-- The fetch before a wait is not refused for good: the mutex is free, and a closed gate is held by a
-- worker that has its fetch still ahead or does not block after it. No signal interrupts a kevent call
-- that has a timeout, and nobody leaves the loop.
def Fetches (s : Group) : Action → Prop
  | .work i input =>
    ∀ w ∈ s.workers[i]?, ¬w.pc.ending ∧ ¬s.Interrupts w input ∧
      (w.pc = .fetch .wait .gate → s.fetching → ∃ v ∈ s.workers, v.pc.holdsGate ∧ ¬v.pc.hasFetched) ∧
      (w.pc = .fetch .wait .tryLock → s.mutex = none)
  | .close => False
  | _ => True

instance : Decidable (s.Fetches a) :=
  match a with
  | .work i input => inferInstanceAs (Decidable (∀ w ∈ s.workers[i]?, ¬w.pc.ending ∧
      ¬s.Interrupts w input ∧
      (w.pc = .fetch .wait .gate → s.fetching → ∃ v ∈ s.workers, v.pc.holdsGate ∧ ¬v.pc.hasFetched) ∧
      (w.pc = .fetch .wait .tryLock → s.mutex = none)))
  | .close => .isFalse id
  | .run | .publish .. | .timer .. | .client .. | .foreign .. => .isTrue trivial

structure Timely (s : Group) : Prop where
  accounted : s.Accounted
  timers    : s.timers.WellFormed
  running   : s.lifeState = false
  loops     : s.NoneLeft
  tended    : s.Tended

-- Only a fetch and a second wait give a worker a deadline.
theorem Works.bound (h : Works s i w input s' w') (hf : ∀ caller f, w.pc ≠ .fetch caller f)
    (hi : ¬s.Interrupts w input) :
    s'.timers = s.timers ∧ ∀ b, w'.pc.bound? = some b → w.pc.bound? = some b := by
  have of_moves {pc} {emptyCpu emptyIo fetched : Prop}
      (hm : w.pc.Moves pc emptyCpu emptyIo fetched) (hn : ¬fetched) :
      ∀ b, pc.bound? = some b → w.pc.bound? = some b := fun b hb =>
    (hm.bound b hb).resolve_right hn
  cases h
  case moves hm _   => exact ⟨rfl, of_moves hm hi⟩
  case signal h _ _ => exact ⟨rfl, of_moves (h ▸ Pc.moves_notify) id⟩
  case io site h    =>
    have hm := Pc.moves_io s.loop (s.consumeIo input).2 site
    refine ⟨?_, of_moves (h ▸ hm) id⟩
    obtain he | he := s.consumeIo_cases input <;> rw [he]
  case fetch h      => exact absurd h (hf _ _)
  case drainShared  => exact ⟨rfl, fun _ => id⟩
  case drainWorker  => exact ⟨rfl, fun _ => id⟩
  case add next _   =>
    have hn : ∀ pc ∈ Pc.restarts, pc.bound? = none := by decide
    refine ⟨rfl, fun b hb => ?_⟩
    rw [hn _ (Pc.afterWait_mem_restarts ..)] at hb
    cases hb
  all_goals exact ⟨rfl, nofun⟩

-- What a worker that has fetched knows after its step: nothing has changed, or it has just fetched, or
-- somebody else will.
theorem fetchStep_bound {caller : Caller} {f : Fetch} (now : Nat) (h : w.pc = .fetch caller f)
    (hg : w.pc = .fetch .wait .gate → s.fetching → ∃ v ∈ s.workers, v.pc.holdsGate ∧ ¬v.pc.hasFetched)
    (hm : w.pc = .fetch .wait .tryLock → s.mutex = none)
    (hb : (s.fetchStep w caller now f).2.pc.hasFetched) :
    ((s.fetchStep w caller now f).1.timers = s.timers ∧
      (s.fetchStep w caller now f).2.pc.bound? = w.pc.bound?) ∨
    ((s.fetchStep w caller now f).1.timers.ready = [] ∧
      (s.fetchStep w caller now f).2.pc.bound? =
        some (s.fetchStep w caller now f).1.timers.heapDeadline) ∨
    (¬w.pc.holdsGate ∧ ∃ v ∈ s.workers, v.pc.holdsGate ∧ ¬v.pc.hasFetched) := by
  cases caller
  case consume site =>
    obtain ⟨b, hb⟩ := Option.isSome_iff_exists.mp hb
    obtain hc | hc := (fetchStep_moves now h).bound b hb
    · simp [h, Pc.bound?] at hc
    · cases hc
  case wait =>
    cases f <;> simp only [fetchStep] at hb ⊢
    case gate =>
      split at hb
      case isFalse => simp [Pc.hasFetched, Pc.bound?] at hb
      case isTrue hs => exact .inr (.inr ⟨by simp [h, Pc.holdsGate], hg h hs⟩)
    case tryLock =>
      rw [hm h] at hb
      simp [Pc.hasFetched, Pc.bound?] at hb
    case locked =>
      obtain ⟨hr, hd⟩ := s.timers.fetchTimeoutOperations_spec now
      refine .inr (.inl ⟨hr, ?_⟩)
      cases ho : (s.timers.fetchTimeoutOperations now).2.2 <;>
        simp_all [Pc.hasFetched, Pc.bound?]
    case failed =>
      refine .inl ⟨trivial, ?_⟩
      cases hl : s.loop.backend <;> simp [h, Loop.afterFetch, Loop.toBlock, hl, Pc.bound?]
    case release b ops =>
      refine .inl ⟨trivial, ?_⟩
      cases hl : s.loop.backend <;> cases ops <;>
        simp_all [Loop.afterFetch, Loop.toConclude, Pc.hasFetched, Pc.bound?]

theorem Tended.keep (h : s.Tended) (hw : s.workers[i]? = some w) (hh : Heeds s w s' w')
    (hn : (s'.setWorker i w').NoneLeft) (timers : s'.timers = s.timers) (calls : s'.calls = s.calls)
    (hb : w'.pc.bound? = w.pc.bound?) : (s'.setWorker i w').Tended := by
  obtain h | h | h := h
  · refine .inl ⟨timers ▸ h.ready, ?_⟩
    have hd : (s'.setWorker i w').timers.heapDeadline = s.timers.heapDeadline :=
      congrArg Timers.heapDeadline timers
    rw [hd]
    refine h.bound.imp_right fun ⟨v, hv, b, hvb, hle⟩ => ?_
    obtain hv | rfl := mem_setWorker w' hw hh.workers hv
    · exact ⟨v, hv, b, hvb, hle⟩
    · exact ⟨w', self_mem_setWorker hw hh.workers, b, hb.trans hvb, hle⟩
  · exact .inr (.inl (calls ▸ h))
  · exact .inr (.inr (h.work past_hasFetched hw hh (by simp [Pc.hasFetched, hb]) hn))

theorem Tended.work (h : s.Tended) (hw : s.workers[i]? = some w)
    (hs : s.workStep i w input = some (s', w')) (hf : s.Fetches (.work i input))
    (hn : (s'.setWorker i w').NoneLeft) : (s'.setWorker i w').Tended := by
  have hx := workStep_works hs
  have hh := hx.heeds
  have hm : w' ∈ (s'.setWorker i w').workers := self_mem_setWorker hw hh.workers
  by_cases hc : ∃ caller f, w.pc = .fetch caller f
  case neg =>
    have ⟨timers, bound⟩ := hx.bound (fun caller f hp => hc ⟨caller, f, hp⟩) (hf w hw).2.1
    by_cases hb : w'.pc.bound? = w.pc.bound?
    case pos => exact h.keep hw hh hn timers hx.frame.1 hb
    case neg =>
      -- The worker has given up its deadline, so it will fetch again.
      have hb' : w'.pc.bound? = none := by
        refine Option.eq_none_iff_forall_ne_some.mpr fun b hb' => hb ?_
        rw [hb', bound b hb']
      have hp : w.pc.hasFetched := Option.isSome_iff_ne_none.mpr fun hn => hb (hb'.trans hn.symm)
      have hl := hh.loop (Pc.inLoop_of_asleep (past_hasFetched.asleep hp)) |>.resolve_right (hn w' hm)
      exact .inr (.inr (.of_mem hm hl (.inl (by simp [Pc.hasFetched, hb']))))
  case pos =>
    obtain ⟨caller, f, hp⟩ := hc
    have ⟨_, _, hg, ht⟩ := hf w hw
    simp only [workStep, hp, Option.some.injEq] at hs
    by_cases hb : w'.pc.hasFetched
    case neg =>
      have hl : w'.pc.inLoop := (hh.loop (by rw [hp]; rfl)).resolve_right (hn w' hm)
      exact .inr (.inr (.of_mem hm hl (.inl hb)))
    case pos =>
      have hb' := hs ▸ fetchStep_bound input.now hp hg ht
      obtain ⟨timers, hb⟩ | ⟨hr, hb⟩ | ⟨hw', v, hv, hvg, hvf⟩ := hb' hb
      · exact h.keep hw hh hn timers hx.frame.1 hb
      · exact .inl ⟨hr, .inr ⟨w', hm, _, hb, le_rfl⟩⟩
      · obtain hv | rfl := mem_setWorker w' hw hh.workers hv
        · exact .inr (.inr (.of_mem hv (Pc.inLoop_of_holdsGate hvg) (.inl hvf)))
        · exact absurd hvg hw'

-- A step of the thread `t` that wakes nobody on account of the timers.
theorem Tended.client (h : s.Tended) (quiet : s.timers.Quiet s'.timers) (pcs : s'.pcs = s.pcs)
    (calls : ∀ u ≠ t, s'.calls u = s.calls u)
    (watched : s.Watched Pc.hasFetched → s'.Watched Pc.hasFetched)
    (alerting : (s.calls t).alerting → s'.Watched Pc.hasFetched ∨ (s'.calls t).alerting) :
    s'.Tended := by
  obtain h | ⟨u, hu⟩ | h := h
  · exact .inl (h.quiet quiet pcs)
  · by_cases hut : u = t
    case pos => exact (alerting (hut ▸ hu)).elim (.inr ∘ .inr) (fun h => .inr (.inl ⟨t, h⟩))
    case neg => exact .inr (.inl ⟨u, calls u hut ▸ hu⟩)
  · exact .inr (.inr (watched h))

theorem quiet_wakeStep {wk : Wake} : s.timers.Quiet (s.wakeStep t awakeFirst wk).timers := by
  have ⟨_, _, _, _, _, he⟩ := s.wakeStep_frame t awakeFirst wk
  rw [he]
  exact .rfl

-- A step of the thread `t` that nobody counts on.
theorem Tended.idle (h : s.Tended) (quiet : s.timers.Quiet s'.timers)
    (workers : s'.workers = s.workers) (shared : s'.sharedWake = s.sharedWake)
    (calls : ∀ u ≠ t, s'.calls u = s.calls u) (hc : ¬(s.calls t).alerting) : s'.Tended :=
  h.client (t := t) quiet (congrArg (List.map _) workers) calls (·.congr workers (shared ▸ ·))
    fun hp => absurd hp hc

theorem Tended.clientStep (h : s.Tended) (ha : s.Accounted) (ht : s.timers.WellFormed)
    (hn : s.NoneLeft) (hl : s.lifeState = false) (hs : s.clientStep t awakeFirst = some s') :
    s'.Tended := by
  cases hc : s.calls t <;> simp only [Group.clientStep, hc] at hs
  case idle => cases hs
  case wake wk =>
    cases hs
    refine h.client quiet_wakeStep pcs_wakeStep (fun _ => calls_wakeStep)
      (·.wakeStep past_hasFetched hn) fun hp => ?_
    have hp : (Call.wake wk).pending := by simpa [hc, Call.alerting] using hp
    exact (ha.wakeStep_pending past_hasFetched hn hl hp).imp_right fun h => by
      simp [Call.alerting, h]
  case push q op =>
    rw [hl] at hs
    cases hs
    exact .inr (.inl ⟨t, by simp [setCall, Call.alerting, Call.pending]⟩)
  case locked c now =>
    cases hs
    cases hq : (c.apply s.timers now).2
    case true  => exact .inr (.inl ⟨t, by simp [setCall, Call.alerting]⟩)
    case false =>
      exact h.idle (t := t) (TimerCall.quiet_apply ht hq) rfl rfl (fun u hu => by simp [setCall, hu])
        (by simp [hc, Call.alerting, Call.pending])
  case wakeIfAll =>
    split at hs <;> cases hs
    exact .inr (.inl ⟨t, by simp [setCall, Call.alerting]⟩)
  case allSleeping =>
    split at hs <;> cases hs
    case isTrue hz =>
      have := ha.balanced.awake_nonneg
      exact .inr (.inr ((ha.watched_of_awake past_hasFetched hn (by omega)).congr rfl id))
    case isFalse => exact .inr (.inl ⟨t, by simp [setCall, Call.alerting, Call.pending]⟩)
  all_goals
    split at hs <;> cases hs
    exact h.idle (t := t) .rfl rfl rfl (fun u hu => by simp [setCall, hu])
      (by simp [hc, Call.alerting, Call.pending])

theorem timers_clientStep (hs : s.clientStep t awakeFirst = some s') (ht : s.timers.WellFormed) :
    s'.timers.WellFormed := by
  cases hc : s.calls t <;> simp only [clientStep, hc] at hs
  case wake wk =>
    obtain ⟨_, _, _, _, _, he⟩ := s.wakeStep_frame t awakeFirst wk
    rw [← Option.some.inj hs, he]
    exact ht
  case locked => cases hs; exact TimerCall.wellFormed_apply ht
  case push q op => split at hs <;> cases hs <;> cases q <;> exact ht
  all_goals try split at hs
  all_goals cases hs
  all_goals exact ht

theorem timers_fetchStep {caller : Caller} {f : Fetch} {now : Nat} (ht : s.timers.WellFormed) :
    (s.fetchStep w caller now f).1.timers.WellFormed := by
  cases f <;> simp only [fetchStep] <;> try split
  case locked => exact ht.fetchTimeoutOperations
  all_goals exact ht

theorem Works.timers (h : Works s i w input s' w') (ht : s.timers.WellFormed) :
    s'.timers.WellFormed := by
  cases h
  case fetch => exact timers_fetchStep ht
  case io    => obtain he | he := s.consumeIo_cases input <;> rw [he] <;> exact ht
  all_goals exact ht

theorem NoneLeft.work (hn : s.NoneLeft) (hw : s.workers[i]? = some w) (h : Works s i w input s' w')
    (he : ¬w.pc.ending) : (s'.setWorker i w').NoneLeft := by
  intro v hv hl
  rw [setWorker, h.heeds.workers] at hv
  obtain hv | rfl := List.mem_or_eq_of_mem_set hv
  · exact hn v hv hl
  · exact (h.heeds.leaves hl).elim (hn w (List.mem_of_getElem? hw)) he

theorem Timely.step (h : s.Timely) (hf : s.Fetches a) (hs : s.step a = some s') : s'.Timely := by
  have ha := h.accounted.step hs
  cases a
  case close  => cases hf
  case client =>
    exact ⟨ha, timers_clientStep hs h.timers, lifeState_clientStep hs ▸ h.running,
      h.loops.congr (pcs_clientStep hs),
      h.tended.clientStep h.accounted h.timers h.loops h.running hs⟩
  case work i input =>
    have ⟨w, s₁, w', hw, hx, he⟩ := step_work hs
    have hn := h.loops.work hw (workStep_works hx) (hf w hw).1
    subst he
    exact ⟨ha, (workStep_works hx).timers h.timers, (workStep_works hx).frame.2 ▸ h.running, hn,
      h.tended.work hw hx hf hn⟩
  case run =>
    cases hs
    refine ⟨ha, h.timers, h.running, fun v hv => ?_, ?_⟩
    · obtain hv | hv := List.mem_append.mp hv
      · exact h.loops v hv
      · simp [List.mem_singleton.mp hv, Pc.hasLeft]
    · refine h.tended.imp (fun h => ?_) (Or.imp id (·.run rfl rfl))
      exact ⟨h.ready, h.bound.imp_right fun ⟨v, hv, hb⟩ => ⟨v, List.mem_append_left _ hv, hb⟩⟩
  case foreign r v =>
    simp only [Group.step] at hs
    split at hs <;> cases hs
    rename_i hc
    have hq : s.timers.Quiet (s.timers.setSlot r v) :=
      ⟨rfl, Eq.ge <| Timers.heapDeadline_congr rfl fun r' hr' =>
        congrArg Slot.expiry <| Timers.setSlot_of_ne fun he =>
          hc.1 (he ▸ (h.timers.of_mem_heap hr').1)⟩
    refine ⟨ha, h.timers.foreign hc.1 hc.2.1 hc.2.2, h.running, h.loops, ?_⟩
    exact h.tended.imp (·.quiet hq rfl) (Or.imp id (·.congr rfl id))
  case publish t q op =>
    simp only [Group.step] at hs
    split at hs <;> cases hs
    rename_i hc
    exact ⟨ha, h.timers, h.running, h.loops, h.tended.idle (t := t) .rfl rfl rfl
      (fun u hu => by simp [setCall, hu]) (by simp [hc, Call.alerting, Call.pending])⟩
  case timer t c now =>
    simp only [Group.step] at hs
    split at hs <;> cases hs
    rename_i hc
    exact ⟨ha, h.timers, h.running, h.loops, h.tended.idle (t := t) .rfl rfl rfl
      (fun u hu => by simp [setCall, hu]) (by simp [hc, Call.alerting, Call.pending])⟩

theorem timely_init (loop : Loop) : ({ loop } : Group).Timely where
  accounted := accounted_init loop
  timers    := Timers.wellFormed_init
  running   := rfl
  loops     := nofun
  tended    := .inl ⟨rfl, .inl rfl⟩

-- Every worker that runs is blocked, nobody has signalled and no client call is under way.
structure AtRest (s : Group) : Prop where
  runs    : ∃ w ∈ s.workers, w.pc.running
  blocked : ∀ w ∈ s.workers, w.pc.running → (∃ b, w.pc = .block b) ∧ w.wake = false
  shared  : s.sharedWake = false
  calls   : ∀ t, s.calls t = .idle

-- Nothing is staged, and some worker wakes up by the first expiry in the heap.
structure Punctual (s : Group) : Prop where
  ready : s.timers.ready = []
  bound : s.timers.heap.members ≠ [] →
            ∃ w ∈ s.workers, ∃ b, w.pc = .block b ∧ b ≤ s.timers.heapDeadline

theorem Timely.punctual (h : s.Timely) (hr : s.AtRest) : s.Punctual := by
  have ⟨w, hw, hwr⟩ := hr.runs
  have ⟨⟨b, hb⟩, _⟩ := hr.blocked w hw hwr
  obtain h | ⟨t, ht⟩ | hs | ⟨v, hv, hl, h⟩ | h := h.tended
  · refine ⟨h.ready, fun _ => h.bound.elim (fun hd => ?_) fun ⟨v, hv, c, hvb, hle⟩ => ?_⟩
    · exact ⟨w, hw, b, hb, hd ▸ le_top⟩
    · have hl := Pc.inLoop_of_asleep (past_hasFetched.asleep (Option.isSome_of_eq_some hvb))
      have ⟨⟨d, hd⟩, _⟩ := hr.blocked v hv (Pc.running_of_inLoop hl)
      have hdc : d = c := by simpa [hd, Pc.bound?] using hvb
      exact ⟨v, hv, d, hd, hdc ▸ hle⟩
  · simp [hr.calls t, Call.alerting, Call.pending] at ht
  · simp [hr.shared] at hs
  · have ⟨⟨d, hd⟩, hvw⟩ := hr.blocked v hv (Pc.running_of_inLoop hl)
    simp [hd, hvw, Pc.hasFetched, Pc.bound?] at h
  · exact absurd (by rw [hb]; rfl) (h w hw)

-- A group that sleeps misses no deadline, as long as no fetch before a wait is refused for good and no
-- kevent call with a timeout is interrupted.
theorem always_punctual_of_fetches (loop : Loop) {actions : List Action}
    (h : System.Along step Fetches { loop } actions) :
    System.Always step (fun s => s.AtRest → s.Punctual) { loop } actions :=
  h.always Timely.step Timely.punctual (timely_init loop)

-- A step changes the call of one thread at most.
theorem calls_of_step {u : Nat} (hs : s.step a = some s') (hu : a.thread? ≠ some u) :
    s'.calls u = s.calls u := by
  cases a
  case work =>
    have ⟨w, s₁, w', _, hx, he⟩ := step_work hs
    rw [he]
    exact congrFun (workStep_works hx).frame.1 u
  case client t awakeFirst =>
    have hu : u ≠ t := fun he => hu (by rw [he]; rfl)
    cases hc : s.calls t <;> simp only [step, clientStep, hc] at hs
    case wake   => cases hs; exact calls_wakeStep hu
    case push q op => split at hs <;> cases hs <;> cases q <;> simp [setCall, unlock, push, hu]
    all_goals try split at hs
    all_goals cases hs
    all_goals simp [setCall, unlock, hu]
  case publish t _ _ =>
    have hu : u ≠ t := fun he => hu (by rw [he]; rfl)
    simp only [step] at hs
    split at hs <;> cases hs
    simp [setCall, hu]
  case timer t _ _ =>
    have hu : u ≠ t := fun he => hu (by rw [he]; rfl)
    simp only [step] at hs
    split at hs <;> cases hs
    simp [setCall, hu]
  case run => cases hs; rfl
  all_goals
    simp only [step] at hs
    split at hs <;> cases hs
    rfl

theorem calls_of_run {u : Nat} {actions : List Action}
    (hs : System.run step s actions = some s') (hu : ∀ a ∈ actions, a.thread? ≠ some u) :
    s'.calls u = s.calls u := by
  induction actions generalizing s
  case nil          => cases hs; rfl
  case cons a as hi =>
    have ⟨m, hm, hr⟩ := System.run_cons_eq_some step |>.mp hs
    exact (hi hr fun a ha => hu a (by simp [ha])).trans (calls_of_step hm (hu a (by simp)))

-- A timer with the expiry 100 is registered, and a worker runs up to the fetch before its wait.
def armed : List Action :=
  .foreign 5 { expiry := (100 : Nat) } :: .timer 1 (.register 5) 0 ::
    List.replicate 7 (.client 1 true) ++ .run :: List.replicate 23 (.work 0 {})

-- In the meantime somebody asks for the expiry of the timer.
def asked : List Action :=
  armed ++ [.timer 2 (.expiry 5) 0, .client 2 true] ++ List.replicate 4 (.work 0 {}) ++
    [.client 2 true]

-- A kqueue worker waits with the timeout 100, and a signal interrupts it at 90.
def interrupted : List Action :=
  armed ++ List.replicate 6 (.work 0 {}) ++ [.work 0 { outcome := .again, now := 90 }]

-- What there is to see of a group with the threads 1 and 2 around it.
structure Summary where
  pcs : List Pc
  wakes : List Bool
  sharedWake : Bool
  calls : Call × Call
  heap : List SlotId
  deadline : TimePoint
  deriving DecidableEq

def summary (s : Group) : Summary :=
  ⟨s.pcs, s.workers.map (·.wake), s.sharedWake, (s.calls 1, s.calls 2), s.timers.heap.members,
    s.timers.heapDeadline⟩

-- One worker sleeps until `b`; the first timer expires at `d`.
def Summary.resting (b d : TimePoint) : Summary :=
  ⟨[.block b], [false], false, (.idle, .idle), [5], d⟩

theorem atRest_of_run {loop : Loop} {actions : List Action} {b d : TimePoint}
    (hs : System.run step { loop } actions = some s)
    (h : s.summary = .resting b d)
    (ht : ∀ a ∈ actions, a.thread? = none ∨ a.thread? = some 1 ∨ a.thread? = some 2) : s.AtRest := by
  simp only [summary, Summary.resting, Summary.mk.injEq, Prod.mk.injEq, pcs] at h
  obtain ⟨hp, hw, hk, ⟨h₁, h₂⟩, -, -⟩ := h
  obtain ⟨w, hl, hb⟩ := List.map_eq_singleton_iff.mp hp
  have hw : w.wake = false := by simpa [hl] using hw
  refine ⟨⟨w, by simp [hl], by rw [hb]; rfl⟩, fun v hv _ => ?_, hk, fun t => ?_⟩
  · obtain rfl : v = w := by simpa [hl] using hv
    exact ⟨⟨b, hb⟩, hw⟩
  · by_cases h1 : t = 1
    case pos => exact h1 ▸ h₁
    case neg =>
      by_cases h2 : t = 2
      case pos => exact h2 ▸ h₂
      case neg =>
        exact calls_of_run hs fun a ha he => by
          obtain h | h | h := ht a ha <;> simp_all

theorem punctual_of_armed : ∃ s,
    System.run step { loop := ⟨.uring, 0⟩ } (armed ++ List.replicate 8 (.work 0 {})) = some s ∧
      s.AtRest ∧ s.pcs = [.block (100 : Nat)] ∧ s.Punctual := by
  have ⟨s, hr, hs⟩ := Option.map_eq_some_iff.mp
    (by decide +kernel : (System.run step { loop := ⟨.uring, 0⟩ }
      (armed ++ List.replicate 8 (.work 0 {}))).map summary =
        some (.resting (100 : Nat) (100 : Nat)))
  have ha := atRest_of_run hr hs (by decide +kernel)
  exact ⟨s, hr, ha, congrArg Summary.pcs hs,
    (always_punctual_of_fetches _ (by decide +kernel)).last hr ha⟩

theorem not_punctual_of_resting {b d : TimePoint} (h : s.summary = .resting b d) (hlt : d < b) :
    ¬s.Punctual := by
  intro hp
  simp only [summary, Summary.resting, Summary.mk.injEq, pcs] at h
  obtain ⟨hl, -, -, -, hm, hd⟩ := h
  obtain ⟨w, hw, c, hc, hle⟩ := hp.bound (by simp [hm])
  have hb : w.pc = .block b := by
    have : w.pc ∈ s.workers.map (·.pc) := List.mem_map_of_mem hw
    simpa [hl] using this
  cases hc.symm.trans hb
  exact absurd (hd ▸ hle) (not_le_of_gt hlt)

-- The fetch that has been refused leaves a worker without a deadline, and after the signal the worker
-- waits for another 100.
theorem not_always_punctual_of_asked_or_interrupted :
    ¬System.Always step (fun s => s.AtRest → s.Punctual) { loop := ⟨.uring, 0⟩ } asked ∧
      ¬System.Always step (fun s => s.AtRest → s.Punctual) { loop := ⟨.kqueue, 0⟩ } interrupted := by
  have late : ∀ {loop : Loop} {actions : List Action} {b d : TimePoint}, d < b →
      (System.run step { loop } actions).map summary = some (.resting b d) →
      (∀ a ∈ actions, a.thread? = none ∨ a.thread? = some 1 ∨ a.thread? = some 2) →
      ¬System.Always step (fun s => s.AtRest → s.Punctual) { loop } actions := by
    intro loop actions b d hlt hm ht h
    obtain ⟨s, hr, hs⟩ := Option.map_eq_some_iff.mp hm
    exact not_punctual_of_resting hs hlt (h.last hr (atRest_of_run hr hs ht))
  constructor
  · exact late (b := ⊤) (d := (100 : Nat)) (by decide) (by decide +kernel) (by decide +kernel)
  · exact late (b := (190 : Nat)) (d := (100 : Nat)) (by decide) (by decide +kernel)
      (by decide +kernel)

end Group
end Bnio.Posix

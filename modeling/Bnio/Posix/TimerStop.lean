import Bnio.Posix.TimerOrder

-- The timers of a context while it stops. `begin_stop` aborts the waits in one critical section, and the
-- drain looks at `timers_.ready` until a pass finds nothing; timers are made and waits are started at any
-- time.
namespace Bnio.Posix

open System

-- `aborted` tells whether `abort_pending_timer_waits` has been called, `drained` whether the last pass of
-- `drain_shared_queues_for_stop` is over.
structure TimerStop where
  service : TimerService := {}
  aborted : Bool := false
  drained : Bool := false

inductive TimerStopAction
  -- A call of a user, or a fetch or an execution by a worker or by the drain.
  | timer (a : TimerAction)
  | abort
  -- A pass of the drain takes `timers_.ready`; `hadWork` tells whether it has found other work.
  | drainReady (hadWork : Bool)
  deriving DecidableEq, Repr

namespace TimerService

variable (s : TimerService)

def takeReady : TimerService :=
  { s with data := { s.data with ready := [] }, fetched := s.fetched ++ s.data.ready }

-- The operation has been made of a registered timer.
def captured (op : OpId) : Bool :=
  s.operations[op]?.any WaitOperation.captured

-- `start_timer_wait` puts the operation into its slot.
def links (op : OpId) : Bool :=
  s.operations[op]?.any fun o =>
    o.captured && (s.data.slots o.slot).context = some .this && (s.data.slots o.slot).active

end TimerService

namespace TimerStop

variable (n : Nat)

def step : System TimerStop TimerStopAction
  | s, .timer a            =>
    if a = .call .abort then none
    else (s.service.step n a).map fun service => { s with service }
  | s, .abort              =>
    if s.aborted then none
    else (s.service.step n (.call .abort)).map fun service => { s with service, aborted := true }
  | s, .drainReady hadWork =>
    if s.aborted ∧ !s.drained then
      some { s with
        service := s.service.takeReady
        drained := s.service.data.ready.isEmpty && !hadWork }
    else none

-- The waits nobody looks for: put into a slot after the abort, or started after the last pass.
def late (s : TimerStop) : TimerStopAction → List OpId
  | .timer (.start op stopRequested) =>
    if s.drained ∧ s.service.captured op ∨ s.aborted ∧ !stopRequested ∧ s.service.links op then [op]
    else []
  | _ => []

end TimerStop

namespace Timers

variable {t : Timers} {s : SlotId} {n now : Nat} {stages : Bool}

theorem erase_heap_of_nil (h : t.heap.members = []) : (t.erase s).heap.members = [] := by
  have he : t.heap.erase t.expiry s = t.heap := PairingHeap.erase_of_not_mem (by simp [h])
  cases ha : (t.slots s).active <;> simp [erase, eraseHeap, eraseInactive, setSlot, ha, he, h]

-- A round takes one slot out of the heap.
theorem emptyHeap_heap {rounds : Nat} (h : t.WellFormed) (hr : t.heap.members.length ≤ rounds) :
    (emptyHeap stages rounds t).heap.members = [] := by
  induction rounds generalizing t
  case zero           => exact List.length_eq_zero_iff.mp (Nat.le_zero.mp hr)
  case succ rounds hi =>
    unfold emptyHeap
    split
    case h_2 hf   => exact PairingHeap.members_eq_nil.mpr hf
    case h_1 s hf =>
      have hs := PairingHeap.front_mem hf
      have hl := h.length_releaseSlot_heap stages hs
      exact hi (h.releaseSlot (h.of_mem_heap hs).1) (by omega)

theorem emptyInactive_heap {rounds : Nat} (h : t.heap.members = []) :
    (emptyInactive stages rounds t).heap.members = [] := by
  induction rounds generalizing t
  case zero           => exact h
  case succ rounds hi =>
    unfold emptyInactive
    split
    case h_1 => exact hi (by rw [releaseSlot_heap]; exact erase_heap_of_nil h)
    case h_2 => exact h

theorem abortPendingTimerWaits_heap (h : t.WellFormed) : t.abortPendingTimerWaits.heap.members = [] :=
  emptyInactive_heap (emptyHeap_heap h le_rfl)

-- A wait is staged at once, or put into the slot of an active timer.
theorem startTimerWaitLocked_cases (t : Timers) (op : OpId) (s : SlotId) :
    (∃ kind, (t.startTimerWaitLocked op s).1 = t.enqueueTimerOperations [op] kind) ∨
      (t.slots s).context = some .this ∧ (t.slots s).active ∧ (t.startTimerWaitLocked op s).1 =
        t.setSlot s { t.slots s with submitted := op :: (t.slots s).submitted } := by
  unfold startTimerWaitLocked
  split
  case isTrue     => exact .inl ⟨_, rfl⟩
  case isFalse hc =>
    split
    case isTrue     => exact .inl ⟨_, rfl⟩
    case isFalse ha => exact .inr ⟨by simpa using hc, by simpa using ha, rfl⟩

theorem Thins.subset {t' : Timers} (h : t.Thins t') {op : OpId} (hop : op ∈ (t'.slots s).submitted) :
    op ∈ (t.slots s).submitted := by
  obtain he | he := h s
  · exact he ▸ hop
  · simp [he] at hop

end Timers

namespace TimerService

variable {n : Nat} {s s' : TimerService} {t t' : Timers} {a : TimerAction}

-- No wait is left in a slot.
theorem Inv.abort (h : s.Inv n t) (hx : Acts n s t (.call .abort) s' t') (i : SlotId) :
    (s'.data.slots i).submitted.ops = [] := by
  have h' := h.step hx
  cases hx
  refine (h'.refines.submitted i).trans (h'.bound.submitted_of_not_mem h'.wellFormed ?_)
  rw [show (t.call s.clock .abort).1 = t.abortPendingTimerWaits from rfl,
    Timers.abortPendingTimerWaits_heap h.wellFormed]
  exact List.not_mem_nil

-- What a step puts into a slot has been started by it.
theorem Inv.submitted (h : s.Inv n t) (hx : Acts n s t a s' t') (i : SlotId) :
    ∀ op ∈ (s'.data.slots i).submitted.ops, op ∈ (s.data.slots i).submitted.ops ∨
      a = .start op false ∧ s.links op := by
  intro op hop
  have h' := h.step hx
  have hthins : t.Thins t' → op ∈ (s.data.slots i).submitted.ops := fun ht => by
    rw [h'.refines.submitted] at hop
    rw [h.refines.submitted]
    exact ht.subset hop
  cases hx
  case tick | connect | inline | execute => exact .inl hop
  case stopped => exact .inl (hthins (.of_eq fun _ => rfl))
  case call => exact .inl (hthins .call)
  case fetch =>
    obtain ⟨popped, hd⟩ := h.wellFormed.drains s.clock le_rfl
    exact .inl (hthins hd.thins)
  case wait op' o d ho _ hc hd =>
    obtain ⟨kind, he⟩ | ⟨hctx, ha, he⟩ := t.startTimerWaitLocked_cases op' o.slot
    · exact .inl (hthins (he ▸ .of_eq fun _ => rfl))
    · rw [h'.refines.submitted, he] at hop
      rw [h.refines.submitted]
      by_cases hi : i = o.slot
      case neg => exact .inl (by simpa [Timers.setSlot_of_ne hi] using hop)
      case pos =>
        subst hi
        simp only [Timers.setSlot_self, List.mem_cons] at hop
        obtain rfl | hop := hop
        · exact .inr ⟨rfl, by simp [links, ho, hc, h.refines.context, h.refines.active, hctx, ha]⟩
        · exact .inl hop

-- What a step stages has been in a slot or is started by it.
theorem Inv.ready (h : s.Inv n t) (hx : Acts n s t a s' t') :
    ∀ x ∈ s'.data.ready, x ∈ s.data.ready ∨ (∃ i, x.op ∈ (s.data.slots i).submitted.ops) ∨
      ∃ token, a = .start x.op token ∧ s.captured x.op := by
  intro x hx'
  cases hx
  case tick | connect | inline | execute => exact .inl hx'
  case stopped op o d ho _ hc hd =>
    have hr : d.ready = ⟨op, .stopped⟩ :: t.ready := hd.ready
    obtain rfl | hx' := List.mem_cons.mp (hr ▸ hx')
    · exact .inr (.inr ⟨true, rfl, by simp [captured, ho, hc]⟩)
    · exact .inl (h.refines.ready ▸ hx')
  case call c d _ hd =>
    obtain ⟨l, hl, hk⟩ : Timers.Stages (c.Cancels ·) .canceled t (t.call s.clock c).1 :=
      Timers.stages_call
    obtain hx' | hx' := List.mem_append.mp (hl ▸ hd.ready ▸ hx')
    · obtain ⟨-, i, -, hop⟩ := hk x hx'
      exact .inr (.inl ⟨i, h.refines.submitted i ▸ hop⟩)
    · exact .inl (h.refines.ready ▸ hx')
  case fetch d hd =>
    have hr : d.ready = [] := hd.ready
    simp [hr] at hx'
  case wait op o d ho _ hc hd =>
    rw [hd.ready] at hx'
    obtain ⟨kind, he⟩ | ⟨-, -, he⟩ := t.startTimerWaitLocked_cases op o.slot
    · rw [he] at hx'
      obtain rfl | hx' := List.mem_cons.mp hx'
      · exact .inr (.inr ⟨false, rfl, by simp [captured, ho, hc]⟩)
      · exact .inl (h.refines.ready ▸ hx')
    · rw [he] at hx'
      exact .inl (h.refines.ready ▸ hx')

-- The pass of the drain moves the staged waits.
theorem Balanced.takeReady (h : s.Balanced n) : s.takeReady.Balanced n := by
  obtain ⟨t, ht, hp⟩ := h
  have hw := ht.wellFormed
  refine ⟨{ t with ready := [] }, ⟨ht.refines.clearReady, ?_, ?_, ht.nodup⟩, List.Perm.trans ?_ hp⟩
  · exact ⟨⟨hw.containers.heap, hw.containers.nodup, hw.containers.inactive⟩,
      fun r => (hw.slot r).congr .rfl .rfl rfl⟩
  · exact ht.bound.congr (fun _ => ⟨rfl, rfl⟩) fun _ => .inl
  · refine List.perm_iff_count.mpr fun op => ?_
    simp only [TimerService.places, TimerService.takeReady, Timers.waits, ht.refines.ready,
      List.map_append, List.map_nil, List.append_nil, List.count_append]
    omega

end TimerService

namespace TimerStop

open TimerService

variable {n : Nat} {s s' : TimerStop} {a : TimerStopAction} {l : List OpId}

-- What no later pass finds is in `l`.
structure Settled (n : Nat) (s : TimerStop) (l : List OpId) : Prop where
  balanced : s.service.Balanced n
  slots    : s.aborted → ∀ i, (s.service.data.slots i).submitted.ops ⊆ l
  ready    : s.drained → s.service.data.ready.map Staged.op ⊆ l
  aborted  : s.drained → s.aborted

theorem Settled.init : Settled n {} [] :=
  ⟨.init, by simp, by simp, by simp⟩

theorem late_of_links {op : OpId} (ha : s.aborted) (hl : s.service.links op) :
    op ∈ s.late (.timer (.start op false)) := by
  simp [late, ha, hl]

theorem late_of_drained {op : OpId} {token : Bool} (hd : s.drained) (hc : s.service.captured op) :
    op ∈ s.late (.timer (.start op token)) := by
  simp [late, hd, hc]

theorem Settled.timer {a : TimerAction} {t' : TimerService} (h : s.Settled n l)
    (hs : s.service.step n a = some t') :
    Settled n { s with service := t' } (l ++ s.late (.timer a)) := by
  obtain ⟨t, ht, -⟩ := h.balanced
  obtain ⟨_, hx⟩ := ht.acts_of_step hs
  refine ⟨h.balanced.step hs, fun ha i op hop => ?_, fun hd op hop => ?_, h.aborted⟩
  · obtain hop | ⟨rfl, hl⟩ := ht.submitted hx i op hop
    · exact List.mem_append_left _ (h.slots ha i hop)
    · exact List.mem_append_right _ (late_of_links ha hl)
  · obtain ⟨x, hx', rfl⟩ := List.mem_map.mp hop
    obtain hr | ⟨i, hi⟩ | ⟨token, rfl, hc⟩ := ht.ready hx x hx'
    · exact List.mem_append_left _ (h.ready hd (List.mem_map_of_mem hr))
    · exact List.mem_append_left _ (h.slots (h.aborted hd) i hi)
    · exact List.mem_append_right _ (late_of_drained hd hc)

theorem Settled.step (h : s.Settled n l) (hs : step n s a = some s') : s'.Settled n (l ++ s.late a) := by
  cases a <;> simp only [TimerStop.step, Option.ite_none_left_eq_some, Option.ite_none_right_eq_some,
    Option.map_eq_some_iff, Option.some.injEq] at hs
  case timer a      =>
    obtain ⟨-, t', ht, rfl⟩ := hs
    exact h.timer ht
  case abort        =>
    obtain ⟨hna, t', hs, rfl⟩ := hs
    obtain ⟨t, ht, -⟩ := h.balanced
    obtain ⟨_, hx⟩ := ht.acts_of_step hs
    refine ⟨h.balanced.step hs, fun _ i => ?_, fun hd => absurd (h.aborted hd) hna, fun _ => rfl⟩
    rw [ht.abort hx i]
    exact List.nil_subset _
  case drainReady w =>
    obtain ⟨⟨ha, -⟩, rfl⟩ := hs
    refine ⟨h.balanced.takeReady, fun _ i => ?_, fun _ => List.nil_subset _, fun _ => ha⟩
    exact fun op hop => List.mem_append_left _ (h.slots ha i hop)

-- Once the last pass is over and what has been taken has been executed, every started wait has been
-- delivered exactly once, except those that nobody looks for.
theorem stop_delivers (n : Nat) (as : List TimerStopAction) (s : TimerStop)
    (hr : run (step n) {} as = some s) (hd : s.drained) (hf : s.service.fetched = []) :
    (s.service.delivered.map Prod.fst).Nodup ∧ ∀ op ∈ s.service.started,
      op ∈ s.service.delivered.map Prod.fst ∨ op ∈ gathered (step n) late {} as := by
  have along : Along (step n) (fun _ _ => True) {} as :=
    .of_invariant (I := fun _ => True) (fun _ _ => trivial) (fun _ => trivial) trivial
  have h : s.Settled n ([] ++ gathered (step n) late {} as) :=
    along.gathered_invariant (J := Settled n) (fun h _ hs => h.step hs) .init hr
  obtain ⟨t, ht, hp⟩ := h.balanced
  obtain ⟨hn, hp⟩ := ht.conserved hp
  refine ⟨(hp.nodup_iff.mpr hn).sublist (List.sublist_append_right ..), fun op hop => ?_⟩
  have hop := hp.mem_iff.mpr hop
  simp only [hf, List.map_nil, List.append_nil, List.mem_append, TimerService.pending,
    List.mem_flatMap] at hop
  obtain (⟨i, -, hi⟩ | hop) | hop := hop
  · exact .inr (h.slots (h.aborted hd) i hi)
  · exact .inr (h.ready hd hop)
  · exact .inl hop

-- The wait on the first timer is aborted; the timer made between the abort and the drain keeps its wait.
def lateTimer : List TimerStopAction :=
  [.timer (.call (.expiresAt 0 5)), .timer (.call (.register 0)), .timer (.connect 0),
    .timer (.start 0 false), .abort, .timer (.call (.register 0)), .timer (.connect 0),
    .timer (.start 1 false), .drainReady false, .timer (.execute 0), .drainReady false]

theorem stop_delivers_lateTimer :
    ∃ s, run (step 1) {} lateTimer = some s ∧ s.service.delivered = [(0, .setCanceled)] ∧
      (∀ op ∈ s.service.started, op = 0 ∨ op ∈ gathered (step 1) late {} lateTimer) ∧
      gathered (step 1) late {} lateTimer = [1] := by
  obtain ⟨s, hr, hs⟩ := Option.any_eq_true .. |>.mp
    (by decide +kernel : (run (step 1) {} lateTimer).any fun s => decide <|
      s.drained ∧ s.service.fetched = [] ∧ s.service.delivered = [(0, .setCanceled)])
  obtain ⟨hd, hf, he⟩ := of_decide_eq_true hs
  refine ⟨s, hr, he, fun op hop => ?_, by decide +kernel⟩
  simpa [he] using (stop_delivers 1 lateTimer s hr hd hf).2 op hop

end TimerStop

end Bnio.Posix

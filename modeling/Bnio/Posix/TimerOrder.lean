import Bnio.Posix.TimerFetch
import Bnio.Uring.Agreement
import Bnio.Kqueue.Conservation

namespace Bnio.Posix

open System

section Pairs

variable {α β : Type*} {a b : α} {l : List α}

private theorem pair_sublist (ha : a ∈ l) (hb : b ∈ l) (hne : a ≠ b) :
    [a, b].Sublist l ∨ [b, a].Sublist l := by
  induction l
  case nil         => cases ha
  case cons c l hi =>
    cases ha
    case head    =>
      have hb := (List.mem_cons.mp hb).resolve_left hne.symm
      exact .inl (.cons_cons _ (List.singleton_sublist.mpr hb))
    case tail ha =>
      cases hb
      case head    => exact .inr (.cons_cons _ (List.singleton_sublist.mpr ha))
      case tail hb => exact (hi ha hb).imp (.cons c) (.cons c)

private theorem pair_sublist_asymm (hn : l.Nodup) (h : [a, b].Sublist l) : ¬[b, a].Sublist l := by
  induction l
  case nil         => cases h
  case cons c l hi =>
    have ⟨hc, hn⟩ := List.nodup_cons.mp hn
    intro h'
    cases h
    case cons h      =>
      cases h'
      case cons h'      => exact hi hn h h'
      case cons_cons h' => exact hc (h.subset (by simp))
    case cons_cons h =>
      cases h'
      case cons h'      => exact hc (h'.subset (by simp))
      case cons_cons h' => exact hc (h.subset (by simp))

private theorem pair_sublist_flatMap {f : α → List β} {x y : β} (h : [a, b].Sublist l)
    (hx : x ∈ f a) (hy : y ∈ f b) : [x, y].Sublist (l.flatMap f) := by
  have hf : (f a ++ f b).Sublist (l.flatMap f) := by simpa using h.flatMap f
  exact ((List.singleton_sublist.mpr hx).append (List.singleton_sublist.mpr hy)).trans hf

end Pairs

namespace Timers

variable {t t' : Timers} {s r other : SlotId} {v : Slot} {kind : CompletionKind} {now : Nat}
variable {popped : List SlotId}

-- A slot keeps the waits it has, in their order, or gives all of them away.
def Thins (t t' : Timers) : Prop :=
  ∀ r, (t'.slots r).submitted = (t.slots r).submitted ∨ (t'.slots r).submitted = []

namespace Thins

theorem of_eq (h : ∀ r, (t'.slots r).submitted = (t.slots r).submitted) : Thins t t' :=
  fun r => .inl (h r)

theorem trans {t'' : Timers} (h : Thins t t') (h' : Thins t' t'') : Thins t t'' := fun r => by
  rcases h' r with he | he
  · exact (h r).imp he.trans he.trans
  · exact .inr he

theorem setSlot (hv : v.submitted = (t.slots s).submitted ∨ v.submitted = []) :
    Thins t (t.setSlot s v) := fun r => by
  by_cases hr : r = s
  case pos => subst hr; simpa using hv
  case neg => exact .inl (by rw [setSlot_of_ne hr])

theorem erase : Thins t (t.erase s) := .of_eq fun r => by
  by_cases hr : r = s
  case pos => subst hr; simp [erase_slots]
  case neg => simp [erase_slots, hr]

theorem insert : Thins t (t.insert s now) := by
  unfold Timers.insert pushHeap pushInactive
  split
  · split
    · exact .of_eq fun _ => rfl
    · exact (setSlot (.inl (by rfl))).trans (.of_eq fun _ => rfl)
  · split <;> exact .of_eq fun _ => rfl

theorem stageSubmitted : Thins t (t.stageSubmitted s kind) :=
  (setSlot (.inr (by rfl))).trans (.of_eq fun _ => rfl)

theorem registerTimerLocked : Thins t (t.registerTimerLocked s now).1 := by
  unfold Timers.registerTimerLocked
  split
  · exact .of_eq fun _ => rfl
  · exact (setSlot (.inr (by rfl))).trans insert

theorem unregisterTimerLocked : Thins t (t.unregisterTimerLocked s).1 := by
  unfold Timers.unregisterTimerLocked
  split
  · exact .of_eq fun _ => rfl
  · exact (erase.trans (setSlot (.inl (by rfl)))).trans stageSubmitted

theorem cancelTimerLocked : Thins t (t.cancelTimerLocked s).1 := by
  unfold Timers.cancelTimerLocked
  split
  · exact .of_eq fun _ => rfl
  · exact stageSubmitted

theorem setTimerExpiryLocked {e : TimePoint} : Thins t (t.setTimerExpiryLocked s e now).1 := by
  unfold Timers.setTimerExpiryLocked
  split
  · exact .of_eq fun _ => rfl
  · exact ((erase.trans (setSlot (.inl (by rfl)))).trans stageSubmitted).trans insert

theorem transferFrom : Thins t (t.transferFrom now s other) := by
  unfold Timers.transferFrom
  split
  · exact .of_eq fun _ => rfl
  · exact (unregisterTimerLocked.trans (setSlot (.inl (by rfl)))).trans registerTimerLocked

theorem releaseSlot {stages : Bool} : Thins t (t.releaseSlot stages s) := by
  unfold Timers.releaseSlot
  split
  · exact (erase.trans (setSlot (.inr (by rfl)))).trans (.of_eq fun _ => rfl)
  · exact erase.trans (setSlot (.inr (by rfl)))

theorem emptyHeap {stages : Bool} {rounds : Nat} : Thins t (Timers.emptyHeap stages rounds t) := by
  induction rounds generalizing t
  case zero           => exact .of_eq fun _ => rfl
  case succ rounds hi =>
    unfold Timers.emptyHeap
    split
    · exact releaseSlot.trans hi
    · exact .of_eq fun _ => rfl

theorem emptyInactive {stages : Bool} {rounds : Nat} :
    Thins t (Timers.emptyInactive stages rounds t) := by
  induction rounds generalizing t
  case zero           => exact .of_eq fun _ => rfl
  case succ rounds hi =>
    unfold Timers.emptyInactive
    split
    · exact releaseSlot.trans hi
    · exact .of_eq fun _ => rfl

theorem expiresAt {e : TimePoint} : Thins t (t.expiresAt now s e).1 := by
  unfold Timers.expiresAt
  split
  · exact setSlot (.inl (by rfl))
  · exact setTimerExpiryLocked

theorem moveAssign : Thins t (t.moveAssign now s other) := by
  unfold Timers.moveAssign
  split
  · exact .of_eq fun _ => rfl
  · dsimp only
    split
    · exact unregisterTimerLocked.trans transferFrom
    · exact transferFrom

theorem call {c : SlotCall} : Thins t (t.call now c).1 := by
  cases c
  case register      => exact registerTimerLocked
  case unregister    => exact unregisterTimerLocked
  case cancel        => exact cancelTimerLocked
  case expiresAt     => exact expiresAt
  case moveConstruct => exact (setSlot (.inr (by rfl))).trans transferFrom
  case moveAssign    => exact moveAssign
  case abort         => exact emptyHeap.trans emptyInactive

end Thins

theorem startTimerWaitLocked_submitted (t : Timers) (op : OpId) (s r : SlotId) :
    ((t.startTimerWaitLocked op s).1.slots r).submitted = (t.slots r).submitted ∨
      ((t.startTimerWaitLocked op s).1.slots r).submitted = op :: (t.slots r).submitted := by
  unfold startTimerWaitLocked
  split
  · exact .inl rfl
  · split
    · exact .inl rfl
    · by_cases hr : r = s
      case pos => subst hr; exact .inr (by simp)
      case neg => exact .inl (by simp [setSlot_of_ne hr])

theorem Drains.thins (h : Drains now t t' popped) : Thins t t' := fun r => by
  rw [h.slots]
  split
  · exact .inr rfl
  · exact .inl rfl

end Timers

namespace TimedService

variable {n : Nat} {s s' : TimedService} {t t' : Timers} {a : TimedAction}

-- The slot is in the heap, and a fetch at this moment finds it expired.
def Due (s : TimedService) (i : SlotId) : Prop :=
  (s.data.slots i).context ≠ none ∧ (s.data.slots i).active = true ∧ s.data.expiry i ≤ s.clock

instance {s : TimedService} {i : SlotId} : Decidable (s.Due i) := by
  unfold Due
  infer_instance

-- The list has the waits of the due timers in the order of the expiries.
def InExpiryOrder (s : TimedService) (l : List OpId) : Prop :=
  ∀ i j, s.Due i → s.Due j → s.data.expiry i < s.data.expiry j →
    ∀ a ∈ (s.data.slots i).submitted.ops, ∀ b ∈ (s.data.slots j).submitted.ops, [a, b].Sublist l

-- The list has the waits of each due timer in the order in which they have been started.
def InStartOrder (s : TimedService) (l : List OpId) : Prop :=
  ∀ i, s.Due i → ∀ a ∈ (s.data.slots i).submitted.ops, ∀ b ∈ (s.data.slots i).submitted.ops,
    [a, b].Sublist s.started.reverse → [a, b].Sublist l

-- What the worker runs after `consume_timeout_operations` has pushed the returned list.
def uringBatch (c : Uring.Context) (ops : List Staged) : List OpId :=
  (c.pushCpuList (ops.map Staged.op)).fetchCpuTask.batch

def kqueueBatch (w : Kqueue.Worker) (ops : List Staged) : List OpId :=
  { w with ctx := w.ctx.pushCpuList (ops.map Staged.op) }.fetchCpuTask.batch

-- The push reverses the list, and the fetch of the tasks reverses it again.
theorem uringBatch_eq {c : Uring.Context} {ops : List Staged} (hc : c.localCpu = [])
    (hn : ops ≠ []) : uringBatch c ops = ops.map Staged.op := by
  simp [uringBatch, Uring.Context.pushCpuList_eq, Uring.Context.fetchCpuTask, hc, hn]

theorem kqueueBatch_eq {w : Kqueue.Worker} {ops : List Staged} (hw : w.ctx.localCpu = [])
    (hn : ops ≠ []) : kqueueBatch w ops = ops.map Staged.op := by
  simp [kqueueBatch, Kqueue.Context.pushCpuList_eq, Kqueue.Worker.fetchCpuTask, hw, hn]

-- A new wait is the head of the queue of its slot.
def Stacked (s : TimedService) (t : Timers) : Prop :=
  ∀ i, (t.slots i).submitted.Sublist s.started

theorem Stacked.thins (h : s.Stacked t) (hs : s.started.Sublist s'.started) (ht : t.Thins t') :
    s'.Stacked t' := fun i => by
  rcases ht i with he | he
  · exact he ▸ (h i).trans hs
  · exact he ▸ List.nil_sublist _

theorem Stacked.step (h : s.Stacked t) (hi : s.Inv n t) (hx : Acts n s t a s' t') : s'.Stacked t' := by
  cases hx
  case read       => exact h
  case call       => exact h.thins (.refl _) .call
  case act a u hx =>
    cases hx
    case tick | connect | execute => exact h
    case call    => exact h.thins (.refl _) .call
    case fetch   =>
      have ⟨popped, hd⟩ := hi.inv.wellFormed.drains s.clock le_rfl
      exact h.thins (.refl _) hd.thins
    case inline  => exact h.thins (List.sublist_cons_self ..) (.of_eq fun _ => rfl)
    case stopped => exact h.thins (List.sublist_cons_self ..) (.of_eq fun _ => rfl)
    case wait op o _ _ _ _ _ =>
      intro i
      rcases t.startTimerWaitLocked_submitted op o.slot i with he | he
      · exact he ▸ (h i).cons op
      · exact he ▸ (h i).cons_cons op

section Fetched

variable {popped : List SlotId} {ops : List Staged} {l : List OpId}

-- The slots have been taken from the heap in the order of `popped`.
structure Fetched (n : Nat) (s : TimedService) (t : Timers) (popped : List SlotId) (ops : List Staged) :
    Prop where
  inv    : s.Inv n t
  stack  : s.Stacked t
  drains : Timers.Drains s.clock t (Timers.drainExpired s.clock t.heap.members.length t) popped
  list   : ops.map Staged.op =
    (t.ready.map Staged.op).reverse ++ popped.flatMap fun i => (t.slots i).submitted
  once   : (ops.map Staged.op).Nodup

namespace Fetched

theorem due_iff {i : SlotId} (h : Fetched n s t popped ops) : s.Due i ↔ i ∈ popped := by
  have hm : i ∈ t.heap.members ↔ _ := h.inv.inv.holds.mem_tree i
  rw [Due, ← and_assoc, ← hm, h.inv.inv.refines.expiry]
  exact ⟨fun hd => (h.drains.mem_popped hd.1).mpr hd.2, fun hi =>
    have hm := h.drains.members.mem_iff.mpr (List.mem_append_left _ hi)
    ⟨hm, (h.drains.mem_popped hm).mp hi⟩⟩

-- The waits of a due slot are fetched as they stand in its queue.
theorem sublist {i : SlotId} (h : Fetched n s t popped ops) (hi : i ∈ popped) :
    (t.slots i).submitted.Sublist (ops.map Staged.op) := by
  have hf := (List.singleton_sublist.mpr hi).flatMap fun i => (t.slots i).submitted
  rw [h.list]
  simpa using hf.trans (List.sublist_append_right _ _)

theorem ne_nil {i : SlotId} {a : OpId} (h : Fetched n s t popped ops) (hi : i ∈ popped)
    (ha : a ∈ (t.slots i).submitted) : ops ≠ [] := fun he => by
  simpa [he] using (h.sublist hi).subset ha

theorem inExpiryOrder (h : Fetched n s t popped ops) (hl : ops ≠ [] → l = ops.map Staged.op) :
    s.InExpiryOrder l := by
  intro i j hi hj hlt a ha b hb
  rw [h.inv.inv.refines.expiry] at hlt
  rw [h.inv.inv.refines.submitted] at ha hb
  have hi := h.due_iff.mp hi
  have hj := h.due_iff.mp hj
  have hp : [i, j].Sublist popped := by
    refine (pair_sublist hi hj fun he => (he ▸ hlt).false).resolve_right fun hp => ?_
    have hs := h.drains.sorted.sublist hp
    exact (List.rel_of_pairwise_cons hs List.mem_cons_self).not_gt hlt
  rw [hl (h.ne_nil hi ha), h.list]
  exact (pair_sublist_flatMap hp ha hb).trans (List.sublist_append_right _ _)

theorem inStartOrder_iff (h : Fetched n s t popped ops) (hl : ops ≠ [] → l = ops.map Staged.op) :
    s.InStartOrder l ↔ ∀ i, s.Due i → (s.data.slots i).submitted.ops.length ≤ 1 := by
  simp only [InStartOrder, h.inv.inv.refines.submitted]
  refine ⟨fun ho i hi => ?_, fun hc i hi a ha b hb hab => ?_⟩
  · have hm := h.due_iff.mp hi
    by_contra hlen
    obtain ⟨a, b, r, hr⟩ : ∃ a b r, (t.slots i).submitted = a :: b :: r := by
      rcases hr : (t.slots i).submitted with _ | ⟨a, _ | ⟨b, r⟩⟩
      · simp [hr] at hlen
      · simp [hr] at hlen
      · exact ⟨a, b, r, rfl⟩
    -- the wait at the head of the queue is the later one
    have hs : [a, b].Sublist (t.slots i).submitted := hr ▸ by simp
    have hst : [b, a].Sublist s.started.reverse := by simpa using (hs.trans (h.stack i)).reverse
    have hb := ho i hi b (by simp [hr]) a (by simp [hr]) hst
    rw [hl (h.ne_nil hm (a := a) (by simp [hr]))] at hb
    exact pair_sublist_asymm h.once (hs.trans (h.sublist hm)) hb
  · -- there is only one wait
    have hlen := hc i hi
    have he : a = b := by
      rcases hr : (t.slots i).submitted with _ | ⟨c, _ | ⟨d, r⟩⟩
      · simp [hr] at ha
      · simp only [hr, List.mem_singleton] at ha hb
        exact ha.trans hb.symm
      · simp [hr] at hlen
    have hn := List.nodup_reverse.mpr h.inv.inv.nodup
    exact absurd (he ▸ hab) (pair_sublist_asymm hn hab)

end Fetched

theorem Inv.fetched {d : TimerData} {deadline : TimePoint} (h : s.Inv n t) (hs : s.Stacked t)
    (hf : s.data.fetchTimeoutOperations n s.clock = some (d, deadline, ops)) :
    ∃ popped, Fetched n s t popped ops := by
  have ⟨d', he, hd⟩ := h.inv.refines.fetchTimeoutOperations s.clock h.inv.wellFormed h.inv.length_le
  have ⟨_, _, ops', he', hx⟩ := h.fetches
  have ⟨popped, hp⟩ := h.inv.wellFormed.drains s.clock le_rfl
  have hops : ops = (Timers.drainExpired s.clock t.heap.members.length t).ready.reverse :=
    congrArg (·.2.2) (Option.some.inj (hf.symm.trans he))
  have ho : ops = ops' := congrArg (·.2.2) (Option.some.inj (hf.symm.trans he'))
  refine ⟨popped, h, hs, hp, ?_, ho ▸ hx.once⟩
  rw [hops, hp.ready]
  simp [Function.comp_def, List.map_flatMap]

end Fetched

-- A timer with more than one wait has its waits run in the reverse order of their starts.
theorem fetched_in_order_iff (n : Nat) (as : List TimedAction) {s : TimedService}
    (hr : System.run (step n) {} as = some s) {d : TimerData} {deadline : TimePoint}
    {ops : List Staged} (hf : s.data.fetchTimeoutOperations n s.clock = some (d, deadline, ops))
    {c : Uring.Context} (hc : c.localCpu = []) {w : Kqueue.Worker} (hw : w.ctx.localCpu = []) :
    ∀ l ∈ [uringBatch c ops, kqueueBatch w ops],
      (s.InExpiryOrder l ∧ s.InStartOrder l ↔
        ∀ i, s.Due i → (s.data.slots i).submitted.ops.length ≤ 1) := by
  have ⟨t, hi, hs⟩ := System.invariant (I := fun s => ∃ t, s.Inv n t ∧ s.Stacked t)
    (fun ⟨_, hi, hs⟩ hx =>
      have ⟨_, hx⟩ := hi.acts hx
      ⟨_, hi.step hx, hs.step hi hx⟩)
    ⟨_, .init, fun _ => List.nil_sublist _⟩ hr
  have ⟨popped, h⟩ := hi.fetched hs hf
  have hu : ops ≠ [] → uringBatch c ops = ops.map Staged.op := uringBatch_eq hc
  have hk : ops ≠ [] → kqueueBatch w ops = ops.map Staged.op := kqueueBatch_eq hw
  have hl {l} (hl : ops ≠ [] → l = ops.map Staged.op) :=
    (and_iff_right (h.inExpiryOrder hl)).trans (h.inStartOrder_iff hl)
  simpa using ⟨hl hu, hl hk⟩

-- Waits 0 and 1 are started on one timer, in this order.
private def twoWaits : List TimedAction :=
  [.act (.call (.register 0)), .act (.call (.expiresAt 0 (5 : Nat))), .act (.connect 0),
    .act (.connect 0), .act (.start 0 false), .act (.start 1 false), .act (.tick 5)]

theorem started_first_runs_last : ∃ s d deadline ops,
    System.run (step 1) {} twoWaits = some s ∧
      s.data.fetchTimeoutOperations 1 s.clock = some (d, deadline, ops) ∧
      (∀ c : Uring.Context, c.localCpu = [] → uringBatch c ops = [1, 0]) ∧
      (∀ w : Kqueue.Worker, w.ctx.localCpu = [] → kqueueBatch w ops = [1, 0]) ∧
      ¬s.InStartOrder [1, 0] := by
  have ⟨s, hr, hp⟩ := Option.map_eq_some_iff.mp (by decide +kernel :
    (System.run (step 1) {} twoWaits).map (fun s =>
      ((s.data.fetchTimeoutOperations 1 s.clock).map (·.2.2), (s.data.slots 0).submitted.ops,
        s.started, decide (s.Due 0))) =
      some (some [⟨1, .value⟩, ⟨0, .value⟩], [1, 0], [1, 0], true))
  simp only [Prod.mk.injEq, decide_eq_true_eq] at hp
  have ⟨hf, hops, hst, hd₀⟩ := hp
  have ⟨⟨d, deadline, ops⟩, hf, hd⟩ := Option.map_eq_some_iff.mp hf
  obtain rfl : ops = _ := hd
  refine ⟨s, d, deadline, _, hr, hf, fun c hc => uringBatch_eq hc (by simp), fun w hw =>
    kqueueBatch_eq hw (by simp), fun ho => ?_⟩
  have hs := ho 0 hd₀ 0 (by simp [hops]) 1 (by simp [hops]) (by simp [hst])
  exact absurd hs (by decide)

-- One wait on each of two timers.
private def twoTimers : List TimedAction :=
  [.act (.call (.register 0)), .act (.call (.expiresAt 0 (7 : Nat))), .act (.call (.register 1)),
    .act (.call (.expiresAt 1 (5 : Nat))), .act (.connect 0), .act (.connect 1),
    .act (.start 0 false), .act (.start 1 false), .act (.tick 9)]

theorem fetched_in_order_twoTimers : ∃ s, System.run (step 2) {} twoTimers = some s ∧
    s.InExpiryOrder [1, 0] ∧ s.InStartOrder [1, 0] := by
  have ⟨s, hr, hp⟩ := Option.map_eq_some_iff.mp (by decide +kernel :
    (System.run (step 2) {} twoTimers).map (fun s =>
      ((s.data.fetchTimeoutOperations 2 s.clock).map (·.2.2), (s.data.slots 0).submitted.ops,
        (s.data.slots 1).submitted.ops)) =
      some (some [⟨1, .value⟩, ⟨0, .value⟩], [0], [1]))
  simp only [Prod.mk.injEq] at hp
  have ⟨hf, h₀, h₁⟩ := hp
  have ⟨⟨d, deadline, ops⟩, hf, hd⟩ := Option.map_eq_some_iff.mp hf
  obtain rfl : ops = _ := hd
  have hi := fetched_in_order_iff 2 twoTimers hr hf (c := {}) rfl
    (w := { ctx := { ops := fun _ => { request := .unset }, regs := fun _ => {} } }) rfl _
    List.mem_cons_self
  have ⟨t, ht⟩ := System.invariant (I := fun s => ∃ t, s.Inv 2 t)
    (fun ⟨_, hi⟩ hx => have ⟨_, hx⟩ := hi.acts hx; ⟨_, hi.step hx⟩) ⟨_, .init⟩ hr
  refine ⟨s, hr, hi.mpr fun i hd => ?_⟩
  have hb := (ht.inv.bound.context i).resolve_left fun hn => hd.1 (ht.inv.refines.context i ▸ hn)
  rcases Nat.le_one_iff_eq_zero_or_eq_one.mp (Nat.lt_succ_iff.mp hb.2) with rfl | rfl
  · simp [h₀]
  · simp [h₁]

end TimedService
end Bnio.Posix

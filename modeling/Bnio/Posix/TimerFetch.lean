import Bnio.Posix.WaitLedger

namespace Bnio.Posix

open System

namespace Timers

variable {t t' : Timers} {s r : SlotId} {now : Nat} {popped : List SlotId}

-- What `drain_expired_timers_locked` does: the slots `popped` leave the heap in the order of their
-- expiries, and their waits are staged in this order.
structure Drains (now : Nat) (t t' : Timers) (popped : List SlotId) : Prop where
  sorted   : popped.Pairwise fun s r => t.expiry s ≤ t.expiry r
  members  : t.heap.members.Perm (popped ++ t'.heap.members)
  due      : ∀ s ∈ popped, t.expiry s ≤ now
  later    : ∀ s ∈ t'.heap.members, (now : TimePoint) < t.expiry s
  slots    : ∀ r, t'.slots r =
    if r ∈ popped then { t.slots r with active := false, submitted := [] } else t.slots r
  inactive : t'.inactive = popped.reverse ++ t.inactive
  ready    : t'.ready =
    (popped.flatMap fun s => (t.slots s).submitted.map (Staged.mk · .value)).reverse ++ t.ready

theorem Drains.stop (h : ∀ s ∈ t.heap.members, (now : TimePoint) < t.expiry s) :
    Drains now t t [] :=
  ⟨.nil, .refl _, by simp, h, by simp, rfl, rfl⟩

theorem expire_slots_eq : (t.expire s).slots r =
    if r = s then { t.slots r with active := false, submitted := [] } else t.slots r := by
  have he : (t.expire s).slots = ((t.eraseHeap s).stageSubmitted s .value).slots := by
    unfold expire pushInactive
    split <;> rfl
  rw [he, stageSubmitted_slots, eraseHeap_slots]
  split
  case isTrue h  => subst h; simp
  case isFalse h => simp [h]

namespace WellFormed

-- The slot is in neither container when it is pushed to the inactive ones.
theorem expire_containers (h : t.WellFormed) (hs : s ∈ t.heap.members) :
    (t.expire s).heap = t.heap.erase t.expiry s ∧ (t.expire s).inactive = s :: t.inactive := by
  have ha := (h.of_mem_heap hs).2
  have hi : s ∉ t.inactive := by simp [(h.slot s).inactive, ha]
  unfold Timers.expire pushInactive
  simp [hi, Timers.eraseHeap, ha]

theorem expire_members (h : t.WellFormed) (hs : s ∈ t.heap.members) :
    t.heap.members.Perm (s :: (t.expire s).heap.members) :=
  (h.expire_containers hs).1 ▸ h.containers.heap.tree.erase_members t.expiry hs

end WellFormed

theorem Drains.expire (h : t.WellFormed) (hf : t.heap.front? = some s) (hs : t.expiry s ≤ now)
    (hd : Drains now (t.expire s) t' popped) : Drains now t t' (s :: popped) := by
  have hm := PairingHeap.front_mem hf
  have hp := h.expire_members hm
  have hi : ∀ r, (t.expire s).expiry r = t.expiry r := fun r => (expire_slots r).2
  have hn : s ∉ popped := fun hs =>
    (List.nodup_cons.mp (hp.nodup_iff.mp h.containers.nodup)).1 <|
      hd.members.mem_iff.mpr (List.mem_append_left _ hs)
  have ho : ∀ r ∈ popped, (t.expire s).slots r = t.slots r := fun r hr => by
    rw [expire_slots_eq, if_neg (ne_of_mem_of_not_mem hr hn)]
  refine ⟨List.pairwise_cons.mpr ⟨fun r hr => ?_, ?_⟩, ?_, ?_, ?_, fun r => ?_, ?_, ?_⟩
  · exact h.containers.heap.front_le hf <|
      hp.mem_iff.mpr <| .tail _ <| hd.members.mem_iff.mpr (List.mem_append_left _ hr)
  · exact hd.sorted.imp fun hle => by simpa only [hi] using hle
  · exact hp.trans (hd.members.cons s)
  · exact List.forall_mem_cons.mpr ⟨hs, fun r hr => hi r ▸ hd.due r hr⟩
  · exact fun r hr => hi r ▸ hd.later r hr
  · rw [hd.slots, expire_slots_eq]
    by_cases hr : r = s
    case pos => subst hr; simp [hn]
    case neg => simp [hr]
  · rw [hd.inactive, (h.expire_containers hm).2]
    simp
  · have hl := List.flatMap_congr (l := popped)
      (f := fun r => ((t.expire s).slots r).submitted.map (Staged.mk · .value))
      (g := fun r => (t.slots r).submitted.map (Staged.mk · .value)) fun r hr => by rw [ho r hr]
    rw [hd.ready, hl, expire_ready]
    simp

-- The loop runs until the front of the heap is in the future.
theorem WellFormed.drains (now : Nat) (h : t.WellFormed) {rounds : Nat}
    (hr : t.heap.members.length ≤ rounds) :
    ∃ popped, Drains now t (Timers.drainExpired now rounds t) popped := by
  induction rounds generalizing t
  case zero           =>
    have he : t.heap.members = [] := List.eq_nil_of_length_eq_zero (by omega)
    exact ⟨[], .stop (by simp [he])⟩
  case succ rounds hi =>
    unfold Timers.drainExpired
    split
    case h_2 hf   =>
      have he : t.heap.members = [] := PairingHeap.members_eq_nil.mpr hf
      exact ⟨[], .stop (by simp [he])⟩
    case h_1 s hf =>
      have hm := PairingHeap.front_mem hf
      split
      case isTrue hs  =>
        have hl := (h.expire_members hm).length_eq
        rw [List.length_cons] at hl
        have ⟨popped, hd⟩ := hi (h.expire hm) (by omega)
        exact ⟨s :: popped, hd.expire h hf hs⟩
      case isFalse hs =>
        exact ⟨[], .stop fun r hr => (not_le.mp hs).trans_le (h.containers.heap.front_le hf hr)⟩

theorem heapDeadline_eq (hw : t.heap.WellFormed t.expiry) :
    t.heapDeadline = (t.heap.members.map t.expiry).foldr min ⊤ := by
  have hm {l : List TimePoint} {d : TimePoint} : d ≤ l.foldr min ⊤ ↔ ∀ e ∈ l, d ≤ e := by
    induction l
    case nil         => simp
    case cons e l hi => simp [hi]
  refine eq_of_forall_le_iff fun d => ?_
  rw [le_heapDeadline_iff hw, hm]
  simp

theorem startTimerWaitLocked_inactive {op : OpId} :
    (t.startTimerWaitLocked op s).1.inactive = t.inactive := by
  unfold startTimerWaitLocked
  split
  · rfl
  · split <;> rfl

namespace Drains

variable (h : Drains now t t' popped)
include h

theorem mem_popped (hs : s ∈ t.heap.members) : s ∈ popped ↔ t.expiry s ≤ now :=
  ⟨h.due s, fun hd => (List.mem_append.mp (h.members.mem_iff.mp hs)).resolve_right
    fun hl => (h.later s hl).not_ge hd⟩

theorem expiry : t'.expiry = t.expiry :=
  funext fun r => by
    simp only [Timers.expiry, h.slots]
    split <;> rfl

theorem popped_perm : popped.Perm (t.heap.members.filter fun s => t.expiry s ≤ now) := by
  have hp := h.members.filter fun s => decide (t.expiry s ≤ now)
  have hd : popped.filter (fun s => decide (t.expiry s ≤ now)) = popped :=
    List.filter_eq_self.mpr fun s hs => by simpa using h.due s hs
  have hl : t'.heap.members.filter (fun s => decide (t.expiry s ≤ now)) = [] :=
    List.filter_eq_nil_iff.mpr fun s hs => by simpa using h.later s hs
  rw [List.filter_append, hd, hl, List.append_nil] at hp
  exact hp.symm

theorem left_perm :
    t'.heap.members.Perm (t.heap.members.filter fun s => (now : TimePoint) < t.expiry s) := by
  have hp := h.members.filter fun s => decide ((now : TimePoint) < t.expiry s)
  have hd : popped.filter (fun s => decide ((now : TimePoint) < t.expiry s)) = [] :=
    List.filter_eq_nil_iff.mpr fun s hs => by simpa using h.due s hs
  have hl : t'.heap.members.filter (fun s => decide ((now : TimePoint) < t.expiry s)) =
      t'.heap.members :=
    List.filter_eq_self.mpr fun s hs => by simpa using h.later s hs
  rw [List.filter_append, hd, hl, List.nil_append] at hp
  exact hp.symm

end Drains
end Timers

-- Calls read the clock before they take `timers_.mutex`. The readings are kept from then on, so that a
-- call may use an old one.
structure TimedService extends TimerService where
  readings : List Nat := []

inductive TimedAction
  | read
  -- the critical section of a call that has read the clock before
  | call (c : SlotCall) (reading : Nat)
  | act (a : TimerAction)
  deriving DecidableEq, Repr

-- A fetch reads the clock in its critical section.
def TimerAction.reads : TimerAction → Bool
  | .call _ | .fetch => true
  | _                => false

namespace TimedService

variable (n : Nat)

def step : System TimedService TimedAction
  | s, .read           => some { s with readings := s.clock :: s.readings }
  | s, .call c reading =>
    if reading ∈ s.readings ∧ c.Fits n s.data.context then do
      let (data, returned) ← s.data.call n reading c
      some { s with data, returned }
    else none
  | s, .act a          => do
    let s' ← TimerService.step n s.toTimerService a
    some { s' with readings := if a.reads then s.clock :: s.readings else s.readings }

-- A wait is newly staged with `value` only if a reading of the clock has reached the expiry of its timer.
def StagesOnTime (s s' : TimedService) : Prop :=
  ∀ x ∈ s'.staged, x.kind = .value → x ∈ s.staged ∨
    ∃ i, ∃ r ∈ s'.readings, s.data.expiry i ≤ r ∧
      (x.op ∈ (s.data.slots i).submitted.ops ∨
        x.op ∉ s.started ∧ (s.operations[x.op]?).map WaitOperation.slot = some i)

-- What a fetch at `now` does to the containers `tree` and `list` and what it returns.
structure Fetches (now : Nat) (d : TimerData) (tree : PairingHeap SlotId) (list : List SlotId)
    (d' : TimerData) (deadline : TimePoint) (ops : List Staged) : Prop where
  expiry  : d'.expiry = d.expiry
  holds   : ∃ tree' list', d'.Holds tree' list' ∧
    tree'.members.Perm (tree.members.filter fun i => (now : TimePoint) < d.expiry i) ∧
    list'.Perm ((tree.members.filter fun i => d.expiry i ≤ now) ++ list) ∧
    deadline = (tree'.members.map d.expiry).foldr min ⊤
  returns : ops.Perm (d.ready ++ (tree.members.filter fun i => d.expiry i ≤ now).flatMap fun i =>
    (d.slots i).submitted.ops.map (Staged.mk · .value))
  once    : (ops.map Staged.op).Nodup
  ready   : d'.ready = []

structure Inv (s : TimedService) (t : Timers) : Prop where
  inv      : s.toTimerService.Inv n t
  places   : (s.places t).Perm s.started
  readings : ∀ r ∈ s.readings, r ≤ s.clock
  -- what is inactive has been found expired by one of the readings
  latest   : ∃ m, t.Bound n m ∧ (∀ r ∈ s.readings, r ≤ m) ∧
    (s.readings = [] ∧ t.inactive = [] ∨ m ∈ s.readings)

variable {n} {s s' : TimedService} {t t' : Timers} {a : TimedAction}

namespace Inv

theorem init : Inv n {} {} :=
  ⟨.init, .refl _, by simp, 0, Timers.bound_init, by simp, .inl ⟨rfl, rfl⟩⟩

-- The clock is a reading.
theorem latest_clock (h : s.Inv n t) : ∃ m, t.Bound n m ∧ (∀ r ∈ s.clock :: s.readings, r ≤ m) ∧
    (s.clock :: s.readings = [] ∧ t.inactive = [] ∨ m ∈ s.clock :: s.readings) :=
  ⟨s.clock, h.inv.bound, List.forall_mem_cons.mpr ⟨le_rfl, h.readings⟩, .inr List.mem_cons_self⟩

theorem expired (h : s.Inv n t) {i : SlotId} (hi : i ∈ t.inactive) :
    ∃ r ∈ s.readings, t.expiry i ≤ r := by
  have ⟨m, hb, _, hm⟩ := h.latest
  rcases hm with ⟨_, hn⟩ | hm
  · simp [hn] at hi
  · exact ⟨m, hm, hb.expired i hi⟩

theorem read (h : s.Inv n t) : Inv n { s with readings := s.clock :: s.readings } t :=
  ⟨h.inv, h.places, List.forall_mem_cons.mpr ⟨le_rfl, h.readings⟩, h.latest_clock⟩

theorem call {c : SlotCall} {reading : Nat} {d : TimerData} (h : s.Inv n t) (hr : reading ∈ s.readings)
    (hf : c.Fits n t.context) (hd : d.Refines (t.call reading c).1) :
    Inv n { s with data := d, returned := (t.call reading c).2 } (t.call reading c).1 := by
  have hk := Timers.keeps_call h.inv.wellFormed h.inv.bound (h.readings _ hr) hf
  have ⟨m, hb, hm, he⟩ := h.latest
  have hk' := Timers.keeps_call h.inv.wellFormed hb (hm _ hr) hf
  refine ⟨⟨hd, hk.wellFormed, hk.bound, h.inv.nodup⟩, ?_, h.readings, m, hk'.bound, hm, .inr ?_⟩
  · exact ((hk.waits.append_right _).append_right _).trans h.places
  · exact he.resolve_left fun he => by simp [he.1] at hr

theorem act {a : TimerAction} {u : TimerService} (h : s.Inv n t)
    (hx : TimerService.Acts n s.toTimerService t a u t') :
    Inv n { u with readings := if a.reads then s.clock :: s.readings else s.readings } t' := by
  have hi := h.inv.step hx
  have ⟨l, hl, hp⟩ := h.inv.places hx
  have hp : (u.places t').Perm u.started := hl ▸ hp.trans (h.places.append_left l)
  have ⟨m, hb, hm⟩ := h.latest
  cases hx
  case call | fetch =>
    exact ⟨hi, hp, List.forall_mem_cons.mpr ⟨le_rfl, h.readings⟩, _, hi.bound,
      List.forall_mem_cons.mpr ⟨le_rfl, h.readings⟩, .inr List.mem_cons_self⟩
  case tick         =>
    exact ⟨hi, hp, fun r hr => (h.readings r hr).trans (Nat.le_add_right ..), m, hb, hm⟩
  case connect | inline | execute => exact ⟨hi, hp, h.readings, m, hb, hm⟩
  case stopped      => exact ⟨hi, hp, h.readings, m, hb.enqueue, hm⟩
  case wait         =>
    refine ⟨hi, hp, h.readings, m, hb.startTimerWaitLocked, ?_⟩
    rwa [Timers.startTimerWaitLocked_inactive]

end Inv

-- What a step does, to the data and to the timers they refine.
inductive Acts (n : Nat) (s : TimedService) (t : Timers) : TimedAction → TimedService → Timers → Prop
  | read : Acts n s t .read { s with readings := s.clock :: s.readings } t
  | call {c reading d} : reading ∈ s.readings → c.Fits n t.context →
      d.Refines (t.call reading c).1 →
      Acts n s t (.call c reading) { s with data := d, returned := (t.call reading c).2 }
        (t.call reading c).1
  | act {a u t'} : TimerService.Acts n s.toTimerService t a u t' →
      Acts n s t (.act a)
        { u with readings := if a.reads then s.clock :: s.readings else s.readings } t'

namespace Inv

theorem acts (h : s.Inv n t) (hs : step n s a = some s') : ∃ t', Acts n s t a s' t' := by
  cases a
  case read           =>
    obtain rfl := Option.some.inj hs
    exact ⟨t, .read⟩
  case call c reading =>
    simp only [TimedService.step] at hs
    split at hs
    case isFalse   => cases hs
    case isTrue hc =>
      have hf : c.Fits n t.context := h.inv.context ▸ hc.2
      have ⟨d, he, hd⟩ := h.inv.refines.call reading h.inv.wellFormed h.inv.bound hf
      simp only [he, Option.bind_eq_bind, Option.bind_some, Option.some.injEq] at hs
      obtain rfl := hs
      exact ⟨_, .call hc.1 hf hd⟩
  case act a          =>
    have ⟨u, hu, he⟩ := Option.bind_eq_some_iff.mp hs
    obtain rfl := Option.some.inj he
    have ⟨t', hx⟩ := h.inv.acts_of_step hu
    exact ⟨t', .act hx⟩

theorem step (h : s.Inv n t) (hx : Acts n s t a s' t') : s'.Inv n t' := by
  cases hx
  case read          => exact h.read
  case call hr hf hd => exact h.call hr hf hd
  case act hx        => exact h.act hx

theorem stagesOnTime_start {op : OpId} {o : WaitOperation} {d : TimerData} (h : s.Inv n t)
    (ho : s.operations[op]? = some o) (hop : op ∉ s.started)
    (hd : d.Refines (t.startTimerWaitLocked op o.slot).1) :
    StagesOnTime s { s with started := op :: s.started, data := d } := by
  intro x hx hv
  rcases List.mem_append.mp hx with hx | hx
  case inr => exact .inl (List.mem_append_right _ hx)
  case inl =>
    have hx : x ∈ (t.startTimerWaitLocked op o.slot).1.ready := hd.ready ▸ hx
    have hr : x ∈ t.ready → x ∈ s.staged := fun hx =>
      List.mem_append_left _ (h.inv.refines.ready.symm ▸ hx)
    unfold Timers.startTimerWaitLocked at hx
    split at hx
    case isTrue     =>
      refine (List.mem_cons.mp hx).elim (fun he => ?_) fun hx => .inl (hr hx)
      simp [he] at hv
    case isFalse hc =>
      split at hx
      case isFalse   => exact .inl (hr hx)
      case isTrue ha =>
        rcases List.mem_cons.mp hx with rfl | hx
        · have hi := (h.inv.wellFormed.slot o.slot).inactive.mpr ⟨not_not.mp hc, ha⟩
          have ⟨r, hr, he⟩ := h.expired hi
          exact .inr ⟨o.slot, r, hr, h.inv.refines.expiry ▸ he, .inr ⟨hop, by simp [ho]⟩⟩
        · exact .inl (hr hx)

theorem stagesOnTime (h : s.Inv n t) (hx : Acts n s t a s' t') : s.StagesOnTime s' := by
  cases hx
  case read                    => exact fun x hx _ => .inl hx
  case call c reading d hr hf hd =>
    intro x hx hv
    obtain ⟨l, hl, hk⟩ : Timers.Stages c.Cancels .canceled t (t.call reading c).1 := Timers.stages_call
    refine .inl <| List.mem_append.mpr <| (List.mem_append.mp hx).imp_left fun hx => ?_
    rcases List.mem_append.mp (hl ▸ hd.ready ▸ hx) with hx | hx
    · simp [(hk x hx).1] at hv
    · exact h.inv.refines.ready.symm ▸ hx
  case act a u hx              =>
    by_cases ha : ∃ op, a = .start op false
    case pos =>
      obtain ⟨op, rfl⟩ := ha
      cases hx
      case inline => exact fun x hx _ => .inl hx
      case wait   => exact h.stagesOnTime_start ‹_› ‹_› ‹_›
    case neg =>
      have he := h.inv.explains (h.inv.conserved h.places) hx
      intro x hx hv
      refine (he.stages x hx).imp_right fun hc => ?_
      simp only [TimerService.Causes, hv] at hc
      obtain ⟨i, hi, hc⟩ := hc
      have hc := hc.resolve_right fun hc => ha ⟨x.op, hc.1⟩
      exact ⟨i, s.clock, by simp [hc.1, TimerAction.reads], hi, .inl hc.2⟩

theorem fetches (h : s.Inv n t) : ∃ d deadline ops,
    s.data.fetchTimeoutOperations n s.clock = some (d, deadline, ops) ∧
      Fetches s.clock s.data t.heap t.inactive d deadline ops := by
  have ⟨d, he, hd⟩ := h.inv.refines.fetchTimeoutOperations s.clock h.inv.wellFormed h.inv.length_le
  have ⟨popped, hp⟩ := h.inv.wellFormed.drains s.clock le_rfl
  have hx := h.step (.act (.fetch hd))
  have hw : (t.fetchTimeoutOperations s.clock).1.WellFormed := hx.inv.wellFormed
  have hs : (fun i => (s.data.slots i).submitted.ops.map (Staged.mk · .value)) =
      fun i => (t.slots i).submitted.map (Staged.mk · .value) :=
    funext fun i => by rw [h.inv.refines.submitted]
  refine ⟨d, _, _, he, ?_, ⟨_, _, hx.inv.holds, ?_, ?_, ?_⟩, ?_, ?_, hd.ready⟩
  · rw [hd.expiry, h.inv.refines.expiry]
    exact hp.expiry
  · rw [h.inv.refines.expiry]
    exact hp.left_perm
  · rw [h.inv.refines.expiry]
    exact hp.inactive ▸ ((List.reverse_perm _).trans hp.popped_perm).append_right _
  · rw [h.inv.refines.expiry, ← hp.expiry]
    exact Timers.heapDeadline_eq hw.containers.heap
  · rw [h.inv.refines.ready, h.inv.refines.expiry, hs]
    rw [hp.ready, List.reverse_append, List.reverse_reverse]
    exact (List.reverse_perm _).append (hp.popped_perm.flatMap_right _)
  · have hn := hx.places.nodup_iff.mpr hx.inv.nodup
    have hn := (List.nodup_append'.mp (List.nodup_append'.mp hn).1).2.1
    rw [List.map_append] at hn
    exact (List.nodup_append'.mp hn).2.1

end Inv

-- Over every history, no wait is staged early, and a fetch that gets the lock is complete.
theorem always_punctual (n : Nat) (as : List TimedAction) :
    Always (step n) (fun s =>
      (∀ a s', step n s a = some s' → s.StagesOnTime s') ∧
      ∃ tree list, s.data.Holds tree list ∧ ∃ d deadline ops,
        s.data.fetchTimeoutOperations n s.clock = some (d, deadline, ops) ∧
          Fetches s.clock s.data tree list d deadline ops) {} as :=
  .of_invariant (I := fun s => ∃ t, s.Inv n t)
    (fun ⟨_, h⟩ hs => have ⟨_, hx⟩ := h.acts hs; ⟨_, h.step hx⟩)
    (fun ⟨_, h⟩ => ⟨fun _ _ hs => have ⟨_, hx⟩ := h.acts hs; h.stagesOnTime hx,
      _, _, h.inv.holds, h.fetches⟩)
    ⟨_, .init⟩

end TimedService
end Bnio.Posix

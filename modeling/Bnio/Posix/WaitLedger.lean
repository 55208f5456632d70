import Bnio.Posix.Membership

namespace Bnio.Posix

open System

-- Elements without an image do not count.
private theorem flatMap_perm {α β : Type*} {l l' : List α} {f : α → List β} (hn : l.Nodup)
    (hn' : l'.Nodup) (hs : l ⊆ l') (he : ∀ a ∉ l, f a = []) : (l'.flatMap f).Perm (l.flatMap f) := by
  have ⟨m, hm, hs⟩ := List.subperm_of_subset hn hs
  have ⟨r, hr⟩ := hs.exists_perm_append
  have hr := hr.trans (hm.append_right r)
  have hd := List.nodup_append'.mp (hr.nodup_iff.mp hn')
  have hf : r.flatMap f = [] := List.flatMap_eq_nil_iff.mpr fun a ha => he a fun hl => hd.2.2 hl ha
  simpa [hf] using hr.flatMap_right f

namespace Timers

variable {t : Timers} {i : SlotId} {n now : Nat}

theorem Bound.submitted_of_context (h : t.Bound n now) (ht : t.WellFormed)
    (hc : (t.slots i).context ≠ some .this) : (t.slots i).submitted = [] :=
  h.submitted_of_not_mem ht fun hm => hc (ht.of_mem_heap hm).1

-- What `cancel` stages and returns, registered or not.
theorem Bound.call_cancel (h : t.Bound n now) (ht : t.WellFormed) :
    (t.call now (.cancel i)).1.ready =
        ((t.slots i).submitted.map (Staged.mk · .canceled)).reverse ++ t.ready ∧
      (t.call now (.cancel i)).2 = (t.slots i).submitted.length := by
  by_cases hc : (t.slots i).context = some .this
  case pos => exact ⟨cancelTimerLocked_ready hc, by simp [call, Timers.cancelTimerLocked, hc]⟩
  case neg => simp [call, Timers.cancelTimerLocked, hc, h.submitted_of_context ht hc]

theorem Bound.call_expiresAt {e : TimePoint} (h : t.Bound n now) (ht : t.WellFormed) :
    (t.call now (.expiresAt i e)).1.ready =
        ((t.slots i).submitted.map (Staged.mk · .canceled)).reverse ++ t.ready ∧
      (t.call now (.expiresAt i e)).2 = (t.slots i).submitted.length := by
  by_cases hc : (t.slots i).context = some .this
  case pos =>
    simp only [call, expiresAt, hc, reduceCtorEq, if_false]
    exact ⟨setTimerExpiryLocked_ready hc, by simp [Timers.setTimerExpiryLocked, hc]⟩
  case neg =>
    have hn := (h.context i).resolve_right (hc ·.1)
    simp [call, expiresAt, hn, h.submitted_of_context ht hc]

end Timers

namespace TimerService

variable {n : Nat} {s s' : TimerService} {t t' : Timers} {a : TimerAction}

-- The waits in the slots.
def pending (n : Nat) (s : TimerService) : List OpId :=
  (List.range n).flatMap fun i => (s.data.slots i).submitted.ops

-- The waits that have a completion kind but have not been delivered.
def staged (s : TimerService) : List Staged :=
  s.data.ready ++ s.fetched

-- Every started wait is in one place, once.
structure Conserved (n : Nat) (s : TimerService) : Prop where
  nodup : s.started.Nodup
  perm  : (s.pending n ++ s.data.ready.map Staged.op ++ s.fetched.map Staged.op ++
            s.delivered.map Prod.fst).Perm s.started

-- Why an action stages a wait with its kind.
def Causes (s : TimerService) (a : TimerAction) (x : Staged) : Prop :=
  match x.kind with
  | .value    => ∃ i, s.data.expiry i ≤ s.clock ∧
      (a = .fetch ∧ x.op ∈ (s.data.slots i).submitted.ops ∨
        a = .start x.op false ∧ (s.operations[x.op]?).map WaitOperation.slot = some i)
  | .canceled => ∃ i,
      (∃ c, a = .call c ∧ c.Cancels i ∧ x.op ∈ (s.data.slots i).submitted.ops) ∨
        a = .start x.op false ∧ (s.operations[x.op]?).map WaitOperation.slot = some i ∧
          (s.data.slots i).context = none
  | .stopped  => a = .start x.op true

-- Why an action delivers a wait: it has been fetched, or its operation has not captured a context.
def Delivers (s : TimerService) (a : TimerAction) (p : OpId × Signal) : Prop :=
  (∃ x ∈ s.fetched, a = .execute x.op ∧ p = (x.op, x.kind.signal)) ∨
    ∃ token, a = .start p.1 token ∧ (s.operations[p.1]?).map WaitOperation.captured = some false ∧
      p.2 = if token then .setStopped else .setCanceled

-- What the step does to the waits that were there before, and where the new entries come from.
structure Explains (n : Nat) (s : TimerService) (a : TimerAction) (s' : TimerService) : Prop where
  keeps    : ∀ x ∈ s.staged, x ∈ s'.staged ∨ (x.op, x.kind.signal) ∈ s'.delivered
  stages   : ∀ x ∈ s'.staged, x ∈ s.staged ∨ s.Causes a x
  delivers : ∃ l, s'.delivered = l ++ s.delivered ∧ ∀ p ∈ l, s.Delivers a p
  fetches  : a = .fetch → s'.data.ready = []
  cancels  : ∀ i e, a = .call (.cancel i) ∨ a = .call (.expiresAt i e) →
    s'.returned = ((s.pending n).filter fun op => ⟨op, .canceled⟩ ∈ s'.data.ready).length

namespace Inv

theorem pending (h : s.Inv n t) :
    (s.pending n).Perm (t.heap.members.flatMap fun i => (t.slots i).submitted) := by
  have he : s.pending n = (List.range n).flatMap fun i => (t.slots i).submitted := by
    simp only [TimerService.pending, h.refines.submitted]
  rw [he]
  refine flatMap_perm h.wellFormed.containers.nodup List.nodup_range (fun i hi => ?_) fun i =>
    h.bound.submitted_of_not_mem h.wellFormed
  have hc := (h.wellFormed.of_mem_heap hi).1
  exact List.mem_range.mpr ((h.bound.context i).resolve_left (by simp [hc])).2

theorem conserved (h : s.Inv n t) (hp : (s.places t).Perm s.started) : s.Conserved n where
  nodup := h.nodup
  perm  := by
    refine List.Perm.trans ?_ hp
    rw [h.refines.ready]
    exact ((h.pending.append_right _).append_right _).append_right _

-- The waits moved by a call are those of its slot.
theorem cancels {i : SlotId} (h : s.Inv n t) (hc : s.Conserved n)
    {ready : List Staged}
    (hr : ready = ((t.slots i).submitted.map (Staged.mk · .canceled)).reverse ++ t.ready) :
    (t.slots i).submitted.length = ((s.pending n).filter fun op => ⟨op, .canceled⟩ ∈ ready).length := by
  have hn := hc.perm.nodup_iff.mpr hc.nodup
  have hn := List.nodup_append'.mp (List.nodup_append'.mp (List.nodup_append'.mp hn).1).1
  have hw : t.waits.Nodup := (h.pending.append_right (t.ready.map Staged.op)).nodup_iff.mp <| by
    rw [← h.refines.ready]
    exact List.nodup_append'.mpr hn
  refine List.Perm.length_eq <| (List.perm_ext_iff_of_nodup (h.bound.queued h.wellFormed hw).1
    (hn.1.filter _)).mpr fun op => ?_
  have hd : op ∈ s.pending n → ∀ kind, ⟨op, kind⟩ ∉ t.ready := fun hp kind hk =>
    hn.2.2 hp (h.refines.ready ▸ List.mem_map_of_mem hk)
  have hs : op ∈ (t.slots i).submitted → op ∈ s.pending n := fun hop => by
    have hi : i ∈ t.heap.members := by
      by_contra hi
      simp [h.bound.submitted_of_not_mem h.wellFormed hi] at hop
    exact h.pending.mem_iff.mpr <| List.mem_flatMap.mpr ⟨i, hi, hop⟩
  simp only [List.mem_filter, hr, decide_eq_true_eq, List.mem_append, List.mem_reverse, List.mem_map,
    Staged.mk.injEq, and_true, exists_eq_right]
  exact ⟨fun hop => ⟨hs hop, .inl hop⟩, fun hop => hop.2.resolve_right (hd hop.1 _)⟩

theorem causes_start {op : OpId} {o : WaitOperation} (h : s.Inv n t)
    (ho : s.operations[op]? = some o) :
    ∀ x ∈ (t.startTimerWaitLocked op o.slot).1.ready, x ∈ t.ready ∨ s.Causes (.start op false) x := by
  intro x hx
  unfold Timers.startTimerWaitLocked at hx
  split at hx
  case isTrue hc =>
    rcases List.mem_cons.mp hx with rfl | hx
    · refine .inr ⟨o.slot, .inr ⟨rfl, by simp [ho], ?_⟩⟩
      exact h.refines.context _ ▸ (h.bound.context _).resolve_right (hc ·.1)
    · exact .inl hx
  case isFalse hc =>
    split at hx
    case isTrue ha =>
      rcases List.mem_cons.mp hx with rfl | hx
      · refine .inr ⟨o.slot, ?_, .inr ⟨rfl, by simp [ho]⟩⟩
        have hi := (h.wellFormed.slot o.slot).inactive.mpr ⟨not_not.mp hc, ha⟩
        exact h.refines.expiry ▸ h.bound.expired _ hi
      · exact .inl hx
    case isFalse => exact .inl hx

theorem startTimerWaitLocked_ready {op : OpId} {i : SlotId} :
    t.ready ⊆ (t.startTimerWaitLocked op i).1.ready := by
  unfold Timers.startTimerWaitLocked
  split
  · exact List.subset_cons_self ..
  · split
    · exact List.subset_cons_self ..
    · exact List.Subset.refl _

theorem cancels_call {c : SlotCall} {i : SlotId} {e : TimePoint} {d : TimerData} (h : s.Inv n t)
    (hc : s.Conserved n) (hd : d.Refines (t.call s.clock c).1)
    (hce : c = .cancel i ∨ c = .expiresAt i e) :
    (t.call s.clock c).2 = ((s.pending n).filter fun op => ⟨op, .canceled⟩ ∈ d.ready).length := by
  have hr : (t.call s.clock c).1.ready =
        ((t.slots i).submitted.map (Staged.mk · .canceled)).reverse ++ t.ready ∧
      (t.call s.clock c).2 = (t.slots i).submitted.length := by
    rcases hce with rfl | rfl
    · exact h.bound.call_cancel h.wellFormed
    · exact h.bound.call_expiresAt h.wellFormed
  rw [hr.2, hd.ready]
  exact h.cancels hc hr.1

-- A step that leaves the fetched and the delivered waits alone.
theorem explains_of_ready {d : TimerData} (h : s.Inv n t) (hd : s'.data = d)
    (hf : s'.fetched = s.fetched) (hl : s'.delivered = s.delivered) (ha : a ≠ .fetch)
    (hk : t.ready ⊆ d.ready) (hr : ∀ x ∈ d.ready, x ∈ t.ready ∨ s.Causes a x)
    (hn : ∀ i e, a = .call (.cancel i) ∨ a = .call (.expiresAt i e) →
      s'.returned = ((s.pending n).filter fun op => ⟨op, .canceled⟩ ∈ d.ready).length) :
    s.Explains n a s' where
  keeps x hx := by
    simp only [staged, hf, hd, List.mem_append, h.refines.ready] at hx ⊢
    exact .inl (hx.imp_left (hk ·))
  stages x hx := by
    simp only [staged, hf, hd, List.mem_append, h.refines.ready] at hx ⊢
    rcases hx with hx | hx
    · exact (hr x hx).imp_left .inl
    · exact .inl (.inr hx)
  delivers  := ⟨[], hl, by simp⟩
  fetches h := absurd h ha
  cancels   := hd ▸ hn

theorem explains_fetch {d : TimerData} (h : s.Inv n t)
    (hd : d.Refines (t.fetchTimeoutOperations s.clock).1) :
    s.Explains n .fetch
      { s with data := d, fetched := s.fetched ++ (t.fetchTimeoutOperations s.clock).2.2 } := by
  have hr : d.ready = [] := hd.ready
  have hs : Timers.Stages (fun i => t.expiry i ≤ s.clock) .value t
      (Timers.drainExpired s.clock t.heap.members.length t) := Timers.stages_drainExpired
  have he : (t.fetchTimeoutOperations s.clock).2.2 =
      (Timers.drainExpired s.clock t.heap.members.length t).ready.reverse := rfl
  refine ⟨fun x hx => .inl ?_, fun x hx => ?_, ⟨[], rfl, by simp⟩, fun _ => hr, nofun⟩
  · simp only [staged, hr, he, List.mem_append, List.mem_reverse, h.refines.ready] at hx ⊢
    exact .inr (hx.symm.imp_right (hs.subset ·))
  · simp only [staged, hr, he, List.mem_append, List.mem_reverse, List.not_mem_nil, false_or,
      h.refines.ready] at hx ⊢
    rcases hx with hx | hx
    · exact .inl (.inr hx)
    · have ⟨l, hl, hk⟩ := hs
      rcases List.mem_append.mp (hl ▸ hx) with hx | hx
      · have ⟨hv, i, hi, hop⟩ := hk x hx
        refine .inr ?_
        simp only [Causes, hv]
        exact ⟨i, h.refines.expiry ▸ hi, .inl ⟨trivial, h.refines.submitted i ▸ hop⟩⟩
      · exact .inl (.inl hx)

theorem explains_execute {x : Staged} (hx : x ∈ s.fetched) :
    s.Explains n (.execute x.op)
      { s with fetched := s.fetched.erase x, delivered := (x.op, x.kind.signal) :: s.delivered } := by
  refine ⟨fun y hy => ?_, fun y hy => .inl ?_, ⟨[_], rfl, by simpa using .inl ⟨x, hx, rfl, rfl⟩⟩,
    nofun, nofun⟩
  · by_cases hne : y = x
    case pos => exact .inr (hne ▸ List.mem_cons_self)
    case neg =>
      refine .inl <| List.mem_append.mpr <| (List.mem_append.mp hy).imp_right fun hy => ?_
      exact (List.mem_erase_of_ne hne).mpr hy
  · exact List.mem_append.mpr <| (List.mem_append.mp hy).imp_right List.mem_of_mem_erase

theorem explains (h : s.Inv n t) (hc : s.Conserved n) (hx : Acts n s t a s' t') :
    s.Explains n a s' := by
  cases hx
  case tick | connect =>
    exact ⟨fun x => .inl, fun x => .inl, ⟨[], rfl, by simp⟩, nofun, nofun⟩
  case inline op o token ho _ hca =>
    refine ⟨fun x => .inl, fun x => .inl, ⟨[_], rfl, fun p hp => .inr ⟨token, ?_⟩⟩, nofun, nofun⟩
    obtain rfl := List.mem_singleton.mp hp
    simp [ho, hca]
  case stopped op o d _ _ _ hd =>
    have hr : d.ready = ⟨op, .stopped⟩ :: t.ready := hd.ready
    refine h.explains_of_ready rfl rfl rfl nofun (by simp [hr]) (fun x hx => ?_) nofun
    rcases List.mem_cons.mp (hr ▸ hx) with rfl | hx
    · exact .inr rfl
    · exact .inl hx
  case wait op o d ho _ _ hd =>
    refine h.explains_of_ready rfl rfl rfl nofun ?_ (fun x hx => ?_) nofun
    · exact hd.ready ▸ startTimerWaitLocked_ready
    · exact h.causes_start ho x (hd.ready ▸ hx)
  case call c d _ hd =>
    have hs : Timers.Stages (c.Cancels ·) .canceled t (t.call s.clock c).1 := Timers.stages_call
    refine h.explains_of_ready rfl rfl rfl nofun (hd.ready ▸ hs.subset) (fun x hx => ?_)
      fun i e hce => h.cancels_call hc hd (by simpa using hce)
    have ⟨l, hl, hk⟩ := hs
    rcases List.mem_append.mp (hl ▸ hd.ready ▸ hx) with hx | hx
    · have ⟨hv, i, hi, hop⟩ := hk x hx
      refine .inr ?_
      simp only [Causes, hv]
      exact ⟨i, .inl ⟨c, rfl, hi, h.refines.submitted i ▸ hop⟩⟩
    · exact .inl hx
  case fetch d hd   => exact h.explains_fetch hd
  case execute x hx => exact explains_execute hx

end Inv

-- Until the context is cleared, no started wait gets lost.
def Balanced (n : Nat) (s : TimerService) : Prop :=
  ∃ t, s.Inv n t ∧ (s.places t).Perm s.started

theorem Balanced.init : Balanced n {} :=
  ⟨{}, .init, .refl _⟩

theorem Balanced.step (h : s.Balanced n) (hs : step n s a = some s') : s'.Balanced n := by
  have ⟨t, ht, hp⟩ := h
  have ⟨t', hx⟩ := ht.acts_of_step hs
  have ⟨l, hl, hp'⟩ := ht.places hx
  exact ⟨t', ht.step hx, hl ▸ hp'.trans (hp.append_left l)⟩

end TimerService
end Bnio.Posix

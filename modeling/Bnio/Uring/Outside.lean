import Bnio.Uring.Drain

namespace Bnio.Uring

namespace Worker

variable {w w' : Worker} {i : Input} {a : Action} {op : OpId}

-- What the others leave alone.
structure Apart (w w' : Worker) : Prop where
  inflight : w'.ctx.inflight = w.ctx.inflight
  cqeTasks : w'.ctx.cqeTasks = w.ctx.cqeTasks
  localCpu : w'.ctx.localCpu = w.ctx.localCpu
  batch : w'.ctx.batch = w.ctx.batch
  localTaskBudget : w'.ctx.localTaskBudget = w.ctx.localTaskBudget
  options : w'.ctx.options = w.ctx.options
  taken : w.ctx.taken ⊆ w'.ctx.taken
  executed : w.ctx.executed ⊆ w'.ctx.executed
  ops : ∀ op ∈ w.ctx.held, op ∉ w.ctx.ioSources → w'.ctx.ops op = w.ctx.ops op

-- What they leave alone while the worker works.
structure ApartWorking (w w' : Worker) : Prop where
  pc : w'.pc = w.pc
  isOpen : w'.ctx.ring.isOpen = w.ctx.ring.isOpen
  cq : ∃ l, w'.ctx.ring.cq = w.ctx.ring.cq ++ l
  ready : w.ctx.ready ⊆ w'.ctx.ready

theorem outside_apart (h : step w a = some w') (hw : ∀ i, a ≠ .work i) : Apart w w' := by
  have hfresh : ∀ {op o : OpId}, o ∈ w.ctx.held → w.ctx.Fresh [op] → o ≠ op :=
    fun ho hf he => hf.2 _ (List.mem_singleton_self _) (he ▸ ho)
  cases a
  case work i => exact absurd rfl (hw i)
  case publishIo op kind =>
    obtain ⟨hg, he⟩ := Option.ite_none_right_eq_some.mp h
    exact Option.some.inj he ▸ ⟨rfl, rfl, rfl, rfl, rfl, rfl, List.Subset.refl _,
      List.Subset.refl _, fun o ho _ => Context.setOp_ops (hfresh ho hg.2)⟩
  case takeIo =>
    exact Option.some.inj h ▸ ⟨rfl, rfl, rfl, rfl, rfl, rfl, List.subset_append_right ..,
      List.Subset.refl _, fun _ _ _ => rfl⟩
  case takeCpu =>
    exact Option.some.inj h ▸ ⟨rfl, rfl, rfl, rfl, rfl, rfl, List.subset_append_right ..,
      List.Subset.refl _, fun _ _ _ => rfl⟩
  case drainIo =>
    simp only [step] at h
    split at h
    case h_1 => cases h
    case h_2 op l hl =>
      obtain ⟨hg, he⟩ := Option.ite_none_right_eq_some.mp h
      refine Option.some.inj he ▸ ⟨rfl, rfl, rfl, rfl, rfl, rfl, List.Subset.refl _,
        List.subset_cons_self .., fun o _ ho => ?_⟩
      have hne : o ≠ op := fun h => ho (by simp [Context.ioSources, hl, h])
      exact (Context.setOp_ops hne).trans (Context.setOp_ops hne)
  case drainCpu =>
    simp only [step] at h
    split at h
    case h_1 => cases h
    case h_2 op l hl =>
      obtain ⟨hg, he⟩ := Option.ite_none_right_eq_some.mp h
      exact Option.some.inj he ▸ ⟨rfl, rfl, rfl, rfl, rfl, rfl, List.Subset.refl _,
        List.subset_cons_self .., fun _ _ _ => rfl⟩
  all_goals
    simp only [step] at h
    repeat' split at h
    all_goals cases h
    all_goals exact ⟨rfl, rfl, rfl, rfl, rfl, rfl, List.Subset.refl _, List.Subset.refl _,
      fun _ _ _ => rfl⟩

theorem outside_apart_working (h : step w a = some w') (hw : ∀ i, a ≠ .work i)
    (hwork : Working w.pc) : ApartWorking w w' := by
  have hready : ∀ {s s' : Context}, s'.cqeTasks = s.cqeTasks → s'.localCpu = s.localCpu →
      s'.batch = s.batch →
      (∀ op, op ∈ s.sharedCpu ∨ op ∈ s.taken → op ∈ s'.sharedCpu ∨ op ∈ s'.taken) →
      s.ready ⊆ s'.ready := by
    intro s s' h₁ h₂ h₃ h₄ op hop
    have := h₄ op
    simp only [Context.ready, List.mem_append, h₁, h₂, h₃] at hop ⊢
    tauto
  cases a
  case work i => exact absurd rfl (hw i)
  case publishCpu op =>
    obtain ⟨_, he⟩ := Option.ite_none_right_eq_some.mp h
    exact Option.some.inj he ▸ ⟨rfl, rfl, ⟨[], by simp⟩, hready rfl rfl rfl fun o ho =>
      ho.imp_left (List.mem_cons_of_mem _)⟩
  case takeIo =>
    exact Option.some.inj h ▸ ⟨rfl, rfl, ⟨[], by simp⟩, hready rfl rfl rfl fun o ho =>
      ho.imp_right (List.mem_append_right _)⟩
  case takeCpu =>
    exact Option.some.inj h ▸ ⟨rfl, rfl, ⟨[], by simp⟩, hready rfl rfl rfl fun o ho =>
      .inr (List.mem_append.mpr ho)⟩
  case complete data result flags =>
    obtain ⟨_, he⟩ := Option.ite_none_right_eq_some.mp h
    exact Option.some.inj he ▸ ⟨rfl, rfl, ⟨_, rfl⟩, List.Subset.refl _⟩
  case drainIo =>
    simp only [step] at h
    split at h
    case h_1 => cases h
    case h_2 => simp [hwork] at h
  case drainCpu =>
    simp only [step] at h
    split at h
    case h_1 => cases h
    case h_2 => simp [hwork] at h
  case run enabled =>
    obtain ⟨hg, _⟩ := Option.ite_none_right_eq_some.mp h
    rw [hg.1] at hwork
    cases hwork
  case queueExit =>
    simp only [step] at h
    split at h
    case h_1 hp => rw [hp] at hwork; cases hwork
    case h_2 hp => rw [hp] at hwork; cases hwork
    case h_3    => cases h
  all_goals
    simp only [step] at h
    repeat' split at h
    all_goals cases h
    all_goals exact ⟨rfl, rfl, ⟨[], (List.append_nil _).symm⟩, List.Subset.refl _⟩

theorem outside_pc (h : step w a = some w') (hw : ∀ i, a ≠ .work i) (hp : w.pc ≠ .idle) :
    w'.pc = w.pc ∨ w'.pc = .closed := by
  cases a
  case work i => exact absurd rfl (hw i)
  case run enabled =>
    have ⟨hg, _⟩ := Option.ite_none_right_eq_some.mp h
    exact absurd hg.1 hp
  case queueExit =>
    simp only [step] at h
    split at h
    case h_1 hi => exact absurd hi hp
    case h_2    => exact .inr (Option.some.inj h ▸ rfl)
    case h_3    => cases h
  all_goals
    simp only [step] at h
    repeat' split at h
    all_goals cases h
    all_goals exact .inl rfl

theorem outside_held (h : step w a = some w') (hw : ∀ i, a ≠ .work i) :
    w.ctx.Fresh (w.publishes a) ∧
      ∀ op, w'.ctx.held.count op = w.ctx.held.count op + (w.publishes a).count op := by
  by_cases hq : a = .queueExit
  case neg =>
    have ⟨fresh, keeps⟩ := outside_keeps h hw fun he => absurd he hq
    exact ⟨fresh, keeps.held⟩
  case pos =>
    subst hq
    simp only [step] at h
    split at h
    case h_3 => cases h
    all_goals exact ⟨fresh_nil, Option.some.inj h ▸ fun _ => rfl⟩

end Worker
end Bnio.Uring

import Bnio.Uring.Conservation

namespace Bnio.Uring

-- A publication by a thread that is not the worker's.
def Action.foreign : Action → Bool
  | .publishIo .. | .publishCpu _ => true
  | _                             => false

def Action.isWork : Action → Bool
  | .work _ => true
  | _       => false

namespace Pc

-- The positions of `finish`, and of `queue_exit` on a context that has not finished.
def tearing : Pc → Bool
  | .collect (.drain true) _ | .abort | .finished => true
  | .timers (.drain _) | .cpu (.drain _) | .exec (.drain _) | .io (.drain _) => true
  | _ => false

-- The steps left while no operation is executed: `busy` tells whether `consume_io_tasks` would find an
-- operation, which costs one more turn of the last loop, `idle` whether the batch is done.
def remaining (window : Nat) (busy idle : Bool) : Pc → Nat
  | .collect _ left       => left + 13
  | .timers (.drain true) => 12
  | .cpu (.drain true)    => 11
  | .exec (.drain true)   => if idle then window + 14 else 10
  | .abort                => 9
  | .timers _             => 8 * busy.toNat + 5
  | .cpu _                => 8 * busy.toNat + 4
  | .exec _               => if idle then window + 14 else 8 * busy.toNat + 3
  | .io _                 => 8 * busy.toNat + 2
  | _                     => 0

theorem remaining_mono {window : Nat} {busy busy' idle : Bool} (h : busy' → busy) (pc : Pc) :
    pc.remaining window busy' idle ≤ pc.remaining window busy idle := by
  have hle : busy'.toNat ≤ busy.toNat := by
    cases busy' <;> cases busy <;> simp_all
  unfold remaining
  split
  all_goals first
    | omega
    | split <;> omega

end Pc

namespace Worker

variable {w w' : Worker} {i : Input} {a : Action} {s : Context} {pc : Pc} {b : Bool}
  {new : List OpId}

section Potential

-- The operations the worker still has to bring to an end.
def pending (s : Context) : Nat :=
  s.held.length - s.executed.length - s.taken.length

theorem held_length {s s' : Context} (h : ∀ op, s'.held.count op = s.held.count op) :
    s'.held.length = s.held.length :=
  (List.perm_iff_count.mpr h).length_eq

theorem pending_eq {s s' : Context} (h : ∀ op, s'.held.count op = s.held.count op)
    (he : s'.executed = s.executed) (ht : s'.taken = s.taken) : pending s' = pending s := by
  rw [pending, held_length h, he, ht, pending]

theorem fetchCpuTask_batch {s : Context} (h : ¬(s.localCpu = [] ∧ s.sharedCpu = [])) :
    s.fetchCpuTask.batch ≠ [] := by
  unfold Context.fetchCpuTask
  split
  case isTrue hl  => simpa using hl
  case isFalse hl =>
    have hnil := not_not.mp hl
    simpa using fun hs => h ⟨hnil, hs⟩

theorem fetchCpuTask_pending {s : Context} (hb : s.batch = []) :
    pending s.fetchCpuTask = pending s := by
  have hk := (Context.fetchCpuTask_keeps hb).held
  obtain ⟨_, _, _, he⟩ := s.fetchCpuTask_eq
  rw [he] at hk ⊢
  exact pending_eq hk rfl rfl

theorem fetchCpuTask_queues {s : Context} : s.fetchCpuTask.ioSources = s.ioSources ∧
    s.fetchCpuTask.options = s.options := by
  obtain ⟨_, _, _, he⟩ := s.fetchCpuTask_eq
  rw [he]
  exact ⟨rfl, rfl⟩

theorem consumeIoTasks_idle {s : Context} {answer : Int} (h : s.ioSources = []) :
    (s.consumeIoTasks answer).2 = false := by
  simp only [Context.ioSources, List.append_eq_nil_iff] at h
  unfold Context.consumeIoTasks
  split
  case isTrue  => simp [h]
  case isFalse => simp [Context.preparePass, Context.Pass.prepare, Context.Pass.takeLocal,
      Context.Pass.takeShared, h]

-- What it costs to execute one operation and to come back to where it was found.
def turn (w : Worker) : Nat :=
  w.window + 20

-- Every pending operation may cost one turn.
def potential (w : Worker) : Nat :=
  pending w.ctx * w.turn +
    w.pc.remaining w.window (!w.ctx.ioSources.isEmpty) w.ctx.batch.isEmpty

theorem held_length_add {s s' : Context}
    (h : ∀ op, s'.held.count op = s.held.count op + new.count op) :
    s'.held.length = s.held.length + new.length :=
  (List.perm_iff_count.mpr fun op => (h op).trans List.count_append.symm).length_eq.trans
    List.length_append

theorem pending_add {s s' : Context} (h : ∀ op, s'.held.count op = s.held.count op + new.count op)
    (he : s'.executed = s.executed) (ht : s'.taken = s.taken) :
    pending s' = pending s + new.length := by
  have hle : s.executed.length + s.taken.length ≤ s.held.length := by
    simp only [Context.held, List.length_append, List.length_map]
    omega
  rw [pending, pending, he, ht, held_length_add h]
  omega

-- `w'` is closer to the end than `w`, up to the operations `new` that have been published.
structure Nears (w w' : Worker) (new : List OpId) : Prop where
  tearing : w'.pc.tearing
  options : w'.ctx.options = w.ctx.options
  lt : w'.potential < w.potential + new.length * w.turn

theorem Nears.of_remaining (ht : pc.tearing) (ho : s.options = w.ctx.options)
    (hp : pending s = pending w.ctx + new.length)
    (hd : pc.remaining w.window (!s.ioSources.isEmpty) s.batch.isEmpty <
      w.pc.remaining w.window (!w.ctx.ioSources.isEmpty) w.ctx.batch.isEmpty) :
    Nears w ⟨s, pc⟩ new := by
  have hw : window ⟨s, pc⟩ = w.window := by rw [window, ho, window]
  refine ⟨ht, ho, ?_⟩
  have ht : turn ⟨s, pc⟩ = w.turn := by rw [turn, hw, turn]
  rw [potential, potential, ht, hw, hp, Nat.add_mul]
  simp only
  omega

theorem collectStep_nears {left : Nat} (h : w.Conserving) (hp : w.pc = .collect (.drain true) left) :
    Nears w (w.collectStep (.drain true) left i.answer) [] := by
  have ha := h.agree (by rw [hp]; exact Bool.false_ne_true)
  have hlt : ∀ busy idle, (Pc.timers (.drain true)).remaining w.window busy idle <
      w.pc.remaining w.window (!w.ctx.ioSources.isEmpty) w.ctx.batch.isEmpty := fun busy idle => by
    rw [hp]
    simp only [Pc.remaining]
    omega
  unfold collectStep
  simp only
  split
  case h_1 left c cq ho hcq =>
    have hk := Context.collectCqe_keeps i.answer ha hcq
    have hcol := Context.collectCqe_collects (w.ctx.setRing w.ctx.ring.advance) c i.answer
    refine .of_remaining rfl hcol.options (pending_add hk.held hcol.executed hcol.taken) ?_
    rw [hp]
    simp [Pc.remaining]
  case h_2 =>
    split
    case isTrue  => exact .of_remaining rfl rfl rfl (hlt ..)
    case isFalse =>
      have hk := Context.dispatchCqeTasks_keeps (s := w.ctx)
      have ⟨_, _, _, he⟩ := Context.dispatchCqeTasks_eq w.ctx
      rw [he] at hk ⊢
      exact .of_remaining rfl rfl (pending_add hk.held rfl rfl) (hlt ..)

theorem timers_nears {ops : List OpId} (hp : w.pc = .timers (.drain b)) :
    Nears w ⟨w.ctx.pushCpuList ops, .cpu (.drain b)⟩ ops := by
  have hk := Context.pushCpuList_keeps w.ctx ops
  rw [Context.pushCpuList_eq] at hk ⊢
  refine .of_remaining rfl rfl (pending_add hk.held rfl rfl) ?_
  rw [hp]
  cases b
  case false => exact Nat.lt_succ_self _
  case true  => exact Nat.lt_succ_self _

theorem cpu_nears (h : w.Conserving) (hp : w.pc = .cpu (.drain b)) : Nears w (w.workStep i) [] := by
  rw [workStep, hp]
  simp only
  split
  case isTrue =>
    cases b
    case false => exact .of_remaining rfl rfl rfl (by rw [hp]; simp [Pc.remaining])
    case true  => exact .of_remaining rfl rfl rfl (by rw [hp]; simp [Pc.remaining])
  case isFalse hc =>
    have hb := h.settled (by simp [hp])
    obtain ⟨hsrc, hopt⟩ := fetchCpuTask_queues (s := w.ctx)
    refine .of_remaining rfl hopt (fetchCpuTask_pending hb) ?_
    rw [hp, List.isEmpty_eq_false_iff.mpr (fetchCpuTask_batch hc), hsrc]
    cases b
    case false => exact Nat.lt_succ_self _
    case true  => exact Nat.lt_succ_self _

theorem executeNext_nears (hp : w.pc = .exec (.drain b)) (hb : w.ctx.batch ≠ []) :
    Nears w { w with ctx := w.ctx.executeNext i } (i.publishedCpu ++ i.publishedIo.map Prod.fst) := by
  have hk := Context.executeNext_keeps (i := i) hb
  have ⟨o, l, hl⟩ := List.exists_cons_of_ne_nil hb
  have ⟨f, q, he, _⟩ := Context.executeNext_cons (i := i) hl
  have hle : w.ctx.executed.length + w.ctx.taken.length + w.ctx.batch.length ≤ w.ctx.held.length := by
    simp only [Context.held, List.length_append, List.length_map]
    omega
  have hpend : pending (w.ctx.executeNext i) + 1 = pending w.ctx +
      (i.publishedCpu ++ i.publishedIo.map Prod.fst).length := by
    rw [hl, List.length_cons] at hle
    rw [pending, held_length_add hk.held, he, pending]
    simp only [List.length_cons]
    omega
  have hopt : (w.ctx.executeNext i).options = w.ctx.options := by rw [he]
  have hw : window { w with ctx := w.ctx.executeNext i } = w.window := by rw [window, hopt, window]
  refine ⟨by rw [hp]; rfl, hopt, ?_⟩
  -- the operation that has been executed pays for a whole turn
  have hd : ∀ busy idle, w.pc.remaining w.window busy idle < w.turn := fun busy idle => by
    have := busy.toNat_le
    rw [hp, turn]
    cases b <;> simp only [Pc.remaining] <;> split <;> omega
  have hlt := hd (!(w.ctx.executeNext i).ioSources.isEmpty) (w.ctx.executeNext i).batch.isEmpty
  have hmul : pending (w.ctx.executeNext i) * w.turn + w.turn = pending w.ctx * w.turn +
      (i.publishedCpu ++ i.publishedIo.map Prod.fst).length * w.turn := by
    rw [← Nat.add_mul, ← hpend, Nat.succ_mul]
  have ht : turn { w with ctx := w.ctx.executeNext i } = w.turn := by rw [turn, hw, turn]
  rw [potential, potential, ht, hw]
  simp only
  omega

theorem io_nears (h : w.Conserving) (hp : w.pc = .io (.drain b)) : Nears w (w.workStep i) [] := by
  have frame := Context.consumeIoTasks_frame w.ctx i.answer
  have hpend : pending (w.ctx.consumeIoTasks i.answer).1 = pending w.ctx :=
    pending_eq (Context.consumeIoTasks_held i.answer h.once) frame.executed frame.taken
  rw [workStep, hp]
  simp only
  cases hf : (w.ctx.consumeIoTasks i.answer).2
  case false =>
    refine .of_remaining rfl frame.options hpend ?_
    rw [hp]
    exact Nat.succ_pos _
  case true  =>
    -- what has been found was in one of the queues
    have hbusy : w.ctx.ioSources.isEmpty = false := by
      rw [List.isEmpty_eq_false_iff]
      intro hnil
      rw [consumeIoTasks_idle hnil] at hf
      cases hf
    refine .of_remaining rfl frame.options hpend ?_
    rw [hp, hbusy]
    simp [Pc.remaining]

theorem abort_nears (hp : w.pc = .abort) : Nears w (w.workStep i) [] := by
  have hheld := Context.abortInflightIo_held (s := w.ctx)
  have ⟨_, _, he⟩ := Context.abortInflightIo_eq w.ctx
  rw [workStep, hp]
  simp only
  rw [he] at hheld ⊢
  refine .of_remaining rfl rfl (pending_add hheld rfl rfl) ?_
  rw [hp]
  simp [Pc.remaining, Context.ioSources]

-- Every step of the worker brings `finish` closer to its end, up to what it publishes.
theorem workStep_nears (h : w.Conserving) (ht : w.pc.tearing) (hn : w.pc ≠ .finished) :
    Nears w (w.workStep i) (w.publishes (.work i)) := by
  rw [publishes_work]
  unfold Pc.tearing at ht
  split at ht
  case h_1 left hp =>
    rw [hp, workStep, hp]
    exact collectStep_nears h hp
  case h_2 hp => rw [hp]; exact abort_nears hp
  case h_3 hp => exact absurd hp hn
  case h_4 b hp =>
    rw [hp, workStep, hp]
    simp only
    split
    case isTrue hf => rw [if_pos hf.1]; exact timers_nears hp
    case isFalse hf =>
      have hnil : (if i.fetched then i.timers else []) = [] := by
        split
        case isTrue hi => exact not_not.mp fun ht => hf ⟨hi, ht⟩
        case isFalse   => rfl
      have hnears : Nears w ⟨w.ctx.pushCpuList [], .cpu (.drain b)⟩ [] := timers_nears hp
      rw [hnil]
      exact hnears
  case h_5 b hp => rw [hp]; exact cpu_nears h hp
  case h_6 b hp =>
    rw [hp, workStep, hp]
    simp only
    split
    case isFalse hb => rw [← hp]; exact executeNext_nears hp hb
    case isTrue hb  =>
      cases b
      case false =>
        refine .of_remaining rfl rfl rfl ?_
        have := (!w.ctx.ioSources.isEmpty).toNat_le
        have hw : 1 ≤ w.window := Nat.le_max_left ..
        rw [hp, hb]
        simp only [Pc.remaining, List.isEmpty_nil, if_true]
        omega
      case true  =>
        refine .of_remaining rfl rfl rfl ?_
        rw [hp, hb]
        exact Nat.lt_succ_self _
  case h_7 b hp => rw [hp]; exact io_nears h hp
  case h_8 => cases ht

end Potential

section Run

-- While the worker works, the others take operations off the shared queues; they execute none.
structure TakesOnly (w w' : Worker) : Prop where
  executed : w'.ctx.executed = w.ctx.executed
  taken : w.ctx.taken.length ≤ w'.ctx.taken.length
  ioSources : w'.ctx.ioSources ⊆ w.ctx.ioSources
  sharedCpu : w'.ctx.sharedCpu ⊆ w.ctx.sharedCpu

theorem outside_takesOnly (hs : step w a = some w') (hw : ∀ i, a ≠ .work i) (hf : ¬a.foreign)
    (hwork : Working w.pc) : TakesOnly w w' := by
  have hsame : ∀ {s : Context}, s.executed = w.ctx.executed → s.taken = w.ctx.taken →
      s.ioSources = w.ctx.ioSources → s.sharedCpu = w.ctx.sharedCpu → TakesOnly w { w with ctx := s } :=
    fun h₁ h₂ h₃ h₄ => ⟨h₁, h₂ ▸ Nat.le_refl _, h₃ ▸ List.Subset.refl _, h₄ ▸ List.Subset.refl _⟩
  cases a
  case work i => exact absurd rfl (hw i)
  case publishIo  => exact absurd rfl hf
  case publishCpu => exact absurd rfl hf
  case takeIo =>
    cases hs
    refine ⟨rfl, by simp, fun op hop => ?_, List.Subset.refl _⟩
    simp only [Context.ioSources, List.mem_append, List.append_nil] at hop ⊢
    exact .inl hop
  case takeCpu =>
    cases hs
    exact ⟨rfl, by simp, List.Subset.refl _, List.nil_subset _⟩
  case complete =>
    obtain ⟨_, he⟩ := Option.ite_none_right_eq_some.mp hs
    exact Option.some.inj he ▸ hsame rfl rfl rfl rfl
  case stop =>
    simp only [step] at hs
    split at hs <;> exact Option.some.inj hs ▸ hsame rfl rfl rfl rfl
  case close => exact Option.some.inj hs ▸ hsame rfl rfl rfl rfl
  case drainIo | drainCpu =>
    simp only [step, hwork] at hs
    split at hs <;> simp at hs
  case run =>
    obtain ⟨hg, _⟩ := Option.ite_none_right_eq_some.mp hs
    rw [hg.1] at hwork
    cases hwork
  case queueExit =>
    simp only [step] at hs
    split at hs
    case h_1 hp => rw [hp] at hwork; cases hwork
    case h_2 hp => rw [hp] at hwork; cases hwork
    case h_3    => cases hs

theorem tearing_working (ht : w.pc.tearing) (hn : w.pc ≠ .finished) : Working w.pc := by
  generalize w.pc = pc at *
  cases pc
  case finished => exact absurd rfl hn
  all_goals first
    | rfl
    | cases ht

-- A step that starts nothing needs no fresh operation.
theorem step_quiet (hw : Working w.pc) : step w (.work {}) = some (w.workStep {}) := by
  have hnil : w.started {} = [] := by
    unfold started
    split <;> rfl
  have hfresh : w.ctx.Fresh (w.started {}) := by
    rw [hnil]
    exact fresh_nil
  exact if_pos ⟨hw, hfresh⟩

theorem publishes_quiet : w.publishes (.work {}) = [] := by
  rw [publishes_work]
  split
  all_goals simp

theorem outside_potential (hs : step w a = some w') (hw : ∀ i, a ≠ .work i) (hf : ¬a.foreign)
    (hwork : Working w.pc) : w'.potential ≤ w.potential := by
  have quiet := outside_takesOnly hs hw hf hwork
  have apart := outside_apart hs hw
  have hwin : w'.window = w.window := by rw [window, apart.options, window]
  have hpend : pending w'.ctx ≤ pending w.ctx := by
    have hnil : w.publishes a = [] := by
      cases a <;> first | rfl | exact absurd rfl hf | exact absurd rfl (hw _)
    have hlen := held_length_add (outside_held hs hw).2
    have := quiet.taken
    rw [hnil, List.length_nil] at hlen
    rw [pending, pending, hlen, quiet.executed]
    omega
  have hbusy : !w'.ctx.ioSources.isEmpty → !w.ctx.ioSources.isEmpty := by
    simp only [Bool.not_eq_true', List.isEmpty_eq_false_iff]
    exact fun h hnil => h (List.subset_nil.mp (hnil ▸ quiet.ioSources))
  rw [potential, potential, turn, turn, hwin, apart.batch, (outside_apart_working hs hw hwork).pc]
  exact Nat.add_le_add (Nat.mul_le_mul_right _ hpend) (Pc.remaining_mono hbusy _)

-- Nobody else publishes, and `finish` has not returned.
def Undisturbed (w : Worker) (a : Action) : Prop :=
  a.foreign = false ∧ w.pc ≠ .finished

instance : Decidable (w.Undisturbed a) :=
  inferInstanceAs (Decidable (_ ∧ _))

-- A worker in its shutdown: nothing is left in the shared queues either.
structure Tears (w : Worker) : Prop where
  ending : w.Ending
  tearing : w.pc.tearing
  sharedCpu : w.pc.late → w.ctx.sharedCpu = []
  sharedIo : w.pc = .finished → w.ctx.sharedIo = []

theorem Tears.conserving (h : w.Tears) : w.Conserving :=
  h.ending.conserving

theorem Tears.finished (h : w.Tears) (hp : w.pc = .finished) :
    w.ctx.queued = [] ∧ w.ctx.cqeTasks = [] :=
  Context.queued_eq_nil (h.ending.finished hp) (h.sharedCpu (by rw [hp]; rfl)) (h.sharedIo hp)

theorem submitsLooping_of_io (h : ∀ site, w.pc = .io site → (Pc.io site).stage ≠ .looping) :
    w.SubmitsLooping a := by
  unfold SubmitsLooping
  split
  case h_1 site i hp => exact fun hl => absurd hl (h site hp)
  case h_2           => trivial

theorem tearing_submits (ht : w.pc.tearing) : w.SubmitsLooping a :=
  submitsLooping_of_io fun site hp => by
    rw [hp] at ht
    cases site
    case drain => exact Stage.noConfusion
    all_goals cases ht

theorem torn_submits (ht : w.pc.torn) : w.SubmitsLooping a :=
  submitsLooping_of_io fun site hp => by
    rw [hp] at ht
    cases site
    case drain => exact Stage.noConfusion
    all_goals cases ht

theorem Tears.late_work (h : w.Tears) (hn : w.pc ≠ .finished) (hl : (w.workStep i).pc.late) :
    (w.workStep i).ctx.sharedCpu = [] ∧
      ((w.workStep i).pc = .finished → (w.workStep i).ctx.sharedIo = []) := by
  rcases workStep_late (tearing_working h.tearing hn) hl with ⟨_, hcpu, _, he⟩ | ⟨b, hp, hsrc, he⟩ <;>
    rw [he]
  · exact ⟨hcpu, fun hp => by cases hp⟩
  · simp only [Context.ioSources, List.append_eq_nil_iff] at hsrc
    exact ⟨h.sharedCpu (by rw [hp]; rfl), fun _ => hsrc.2⟩

theorem Tears.step (h : w.Tears) (good : w.Undisturbed a) (hs : Worker.step w a = some w') :
    w'.Tears ∧ w'.ctx.options = w.ctx.options ∧
      w'.potential + (if a.isWork then 1 else 0) ≤
        w.potential + (w.publishes a).length * w.turn := by
  have hend := h.ending.step (tearing_submits h.tearing) hs
  have hwork := tearing_working h.tearing good.2
  by_cases hw : ∃ i, a = .work i
  case pos =>
    have ⟨i, ha⟩ := hw
    subst ha
    have ⟨_, he⟩ := Option.ite_none_right_eq_some.mp hs
    cases Option.some.inj he
    have nears := workStep_nears (i := i) h.conserving h.tearing good.2
    refine ⟨⟨hend, nears.tearing, fun hl => (h.late_work good.2 hl).1, fun hp => ?_⟩, nears.options,
      nears.lt⟩
    exact (h.late_work good.2 (by rw [hp]; rfl)).2 hp
  case neg =>
    have hw : ∀ i, a ≠ .work i := fun i ha => hw ⟨i, ha⟩
    have hf : ¬a.foreign := Bool.eq_false_iff.mp good.1
    have hpc := (outside_apart_working hs hw hwork).pc
    have quiet := outside_takesOnly hs hw hf hwork
    have hnot : a.isWork = false := by
      cases a <;> first | rfl | exact absurd rfl (hw _)
    refine ⟨⟨hend, hpc ▸ h.tearing, fun hl => ?_, fun hp => absurd (hpc.symm.trans hp) good.2⟩,
      (outside_apart hs hw).options, ?_⟩
    · exact List.subset_nil.mp (h.sharedCpu (hpc ▸ hl) ▸ quiet.sharedCpu)
    · rw [hnot, if_neg Bool.false_ne_true]
      have hle := outside_potential hs hw hf hwork
      omega

-- Without new work `finish` gets to its end, and to whatever every quiet step preserves.
theorem Tears.ends {P : Worker → Prop} (h : w.Tears) (hP : P w)
    (keep : ∀ {v : Worker}, v.Tears → P v → v.pc ≠ .finished → P (v.workStep {})) :
    ∃ n w', System.run Worker.step w (List.replicate n (.work {})) = some w' ∧
      w'.pc = .finished ∧ P w' := by
  -- By induction on the potential.
  generalize hm : w.potential = m
  induction m using Nat.strongRecOn generalizing w
  case ind m hi =>
    by_cases hf : w.pc = .finished
    case pos => exact ⟨0, w, rfl, hf, hP⟩
    case neg =>
      have hs := step_quiet (tearing_working h.tearing hf)
      obtain ⟨hnext, _, hlt⟩ := h.step ⟨rfl, hf⟩ hs
      have hlt : (w.workStep {}).potential < m := by
        simpa [publishes_quiet, Action.isWork, hm] using hlt
      obtain ⟨n, w', hr, hw'⟩ := hi _ hlt hnext (keep h hP hf) rfl
      exact ⟨n + 1, w', (System.run_cons_eq_some _).mpr ⟨_, hs, hr⟩, hw'⟩

-- `finish` is called, or `queue_exit` on a context that has not finished.
def EntersShutdown (w : Worker) : Prop :=
  w.pc = .collect (.drain true) w.window ∨ w.pc = .abort

instance : Decidable w.EntersShutdown :=
  inferInstanceAs (Decidable (_ ∨ _))

-- The actions `bs` lead from the entry `w` of a shutdown to `w'`. The worker makes no more steps than
-- what was pending and what has been published since allow, it can go on until the end, and there it
-- has emptied every container and executed each operation once. An operation that another worker has
-- taken off a shared queue is executed there.
structure ShutsDown (w : Worker) (bs : List Action) (w' : Worker) : Prop where
  terminates : bs.countP Action.isWork ≤
    w.potential + (System.gathered Worker.step publishes w bs).length * w.turn
  continues : w'.pc ≠ .finished → (Worker.step w' (.work {})).isSome
  empty : w'.pc = .finished → w'.ctx.queued = [] ∧ w'.ctx.cqeTasks = []
  once : w'.pc = .finished → ∀ op ∈ w.ctx.queued ++ w.ctx.cqeTasks ++
    System.gathered Worker.step publishes w bs, op ∉ w'.ctx.taken →
      (w'.ctx.executed.map Delivery.op).count op = 1

theorem Conserving.tears (h : w.Conserving) (he : w.EntersShutdown) : w.Tears := by
  rcases he with hp | hp
  all_goals
    exact ⟨⟨h, by simp [hp], by simp [hp]⟩, by rw [hp]; rfl, by simp [hp, Pc.late], by simp [hp]⟩

theorem Tears.shutsDown {bs : List Action} (h : w.Tears)
    (along : System.Along Worker.step Undisturbed w bs) (hr : System.run Worker.step w bs = some w') :
    w.ShutsDown bs w' := by
  have hkeep : w'.Tears ∧ ∀ op, w'.ctx.held.count op =
      w.ctx.held.count op + ([] ++ System.gathered Worker.step publishes w bs).count op := by
    refine along.gathered_invariant (J := fun v l => v.Tears ∧ ∀ op, v.ctx.held.count op =
      w.ctx.held.count op + l.count op) (fun hv good hs => ?_) (l := []) ⟨h, fun _ => rfl⟩ hr
    obtain ⟨_, hheld⟩ := hv.1.conserving.step (tearing_submits hv.1.tearing) hs
    exact ⟨(hv.1.step good hs).1, fun op => by rw [hheld, hv.2, List.count_append, Nat.add_assoc]⟩
  obtain ⟨ht, hheld⟩ := hkeep
  rw [List.nil_append] at hheld
  refine ⟨?_, fun hn => ?_, ht.finished, fun hp op hop htaken => ?_⟩
  · have hcost : w'.potential + bs.countP Action.isWork ≤
        w.potential + (System.gathered Worker.step publishes w bs).length * w.turn := by
      refine along.amortized (I := fun v => v.Tears ∧ v.ctx.options = w.ctx.options)
        (fun {v} _ _ hv good hs => ?_) ⟨h, rfl⟩ hr
      obtain ⟨ht, hopt, hlt⟩ := hv.1.step good hs
      have hturn : v.turn = w.turn := by rw [turn, window, hv.2, turn, window]
      exact ⟨⟨ht, hopt.trans hv.2⟩, hturn ▸ hlt⟩
    exact Nat.le_trans (Nat.le_add_left ..) hcost
  · rw [step_quiet (tearing_working ht.tearing hn)]
    rfl
  · obtain ⟨hq, hc⟩ := ht.finished hp
    have hpos : 0 < w'.ctx.held.count op := by
      have := List.count_pos_iff.mpr hop
      rw [hheld]
      simp only [Context.held, Context.queued, List.count_append] at this ⊢
      omega
    have honce := ht.conserving.once op
    have hin := mem_queued_of_held (List.count_pos_iff.mp hpos)
    simp only [hq, hc, List.not_mem_nil, false_or, htaken, or_false] at hin
    have := List.count_pos_iff.mpr hin
    simp only [Context.held, List.count_append] at honce
    omega

end Run

end Worker
end Bnio.Uring

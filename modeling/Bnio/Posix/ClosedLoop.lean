import Bnio.Posix.Custody
import Bnio.Posix.Group
import Bnio.Posix.StopSafety

-- Publishers, workers and the stop of one context in one system: `submit_lock`, the stopping state, the
-- counter of the workers, the shared queues and what the native contexts of each thread hold.
namespace Bnio.Posix.ClosedLoop

open StopElection (Frame Thread)

variable {τ κ ω : Type*}

-- Where a call of `publish_cpu` or `publish_io` is that does not take the fast path: before the lock,
-- behind it, and behind the check of `life_state`.
inductive Phase
  | called | locked | checked
  deriving DecidableEq

structure Publish (ω : Type*) where
  queue : Queue
  op : ω
  phase : Phase := .called

-- `accepted` and `rejected` are the two results of a publish. An operation is published at most once.
inductive Status (τ : Type*)
  | fresh
  | publishing (t : τ)
  | accepted
  | rejected
  deriving DecidableEq

-- How far a pass of `drain_shared_queues_for_stop` is.
inductive DrainStage
  | popCpu | cpu | popIo | io | ready | done
  deriving DecidableEq

-- The pass has popped the shared io queue.
def DrainStage.ioPopped : DrainStage → Bool
  | io | ready | done    => true
  | popCpu | cpu | popIo => false

-- `rest` is what is left of the list that has been popped.
structure Drain (ω : Type*) where
  stage : DrainStage := .popCpu
  rest : List ω := []
  hadWork : Bool := false

-- `held` are the operations in the native contexts of the threads. `outside` tells whether the elected
-- stop has been called on a thread that is in no `run` of the context.
structure State (τ κ ω : Type*) where
  election : StopElection.State τ κ := {}
  submitLock : Option τ := none
  publishing : τ → Option (Publish ω) := fun _ => none
  status : ω → Status τ := fun _ => .fresh
  sharedCpu : List ω := []
  sharedIo : List ω := []
  held : Multiset (τ × ω) := 0
  executed : Multiset ω := 0
  drain : Drain ω := {}
  outside : Bool := false

inductive Action (τ κ ω : Type*)
  -- A step of `run`, `stop` or `join`.
  | elect (a : StopElection.Action τ κ)
  | publish (t : τ) (q : Queue) (op : ω)
  | lockSubmit (t : τ)
  | checkLifeState (t : τ)
  | push (t : τ)
  -- The native context of the thread's last call makes a move.
  | work (t : τ) (m : Move ω)
  -- The next step of the drain; `found` tells whether there are timer waits to deliver.
  | drain (t : τ) (found : Bool)

namespace State

variable [DecidableEq τ] [DecidableEq κ] [DecidableEq ω] (c : κ) (s : State τ κ ω)

-- What the native contexts of one thread hold, and what those of the others do.
def mine (t : τ) : Multiset ω :=
  (s.held.filter (·.1 = t)).map Prod.snd

def others (t : τ) : Multiset (τ × ω) :=
  s.held.filter (·.1 ≠ t)

def custody (t : τ) : Custody ω where
  sharedCpu := s.sharedCpu
  sharedIo  := s.sharedIo
  held      := s.mine t
  executed  := s.executed

def setCustody (t : τ) (k : Custody ω) : State τ κ ω :=
  { s with
    sharedCpu := k.sharedCpu
    sharedIo := k.sharedIo
    held := s.others t + k.held.map (t, ·)
    executed := k.executed }

def accept (ops : List ω) : State τ κ ω :=
  { s with status := fun op => if op ∈ ops then .accepted else s.status op }

def Fresh (ops : List ω) : Prop :=
  ops.Nodup ∧ ∀ op ∈ ops, s.status op = .fresh

instance (ops : List ω) : Decidable (s.Fresh ops) :=
  inferInstanceAs (Decidable (_ ∧ _))

def move (t : τ) (m : Move ω) : Option (State τ κ ω) :=
  if s.Fresh m.received then
    ((s.custody t).step m).map fun k => (s.setCustody t k).accept m.received
  else none

def setPublish (t : τ) (p : Option (Publish ω)) : State τ κ ω :=
  { s with publishing := Function.update s.publishing t p }

def setStatus (op : ω) (v : Status τ) : State τ κ ω :=
  { s with status := Function.update s.status op v }

def enqueue (q : Queue) (op : ω) : State τ κ ω :=
  match q with
  | .cpu => { s with sharedCpu := op :: s.sharedCpu }
  | .io  => { s with sharedIo := op :: s.sharedIo }

-- What a step of the election needs besides: `begin_stop` publishes the stopping state under the submit
-- lock, and the stop returns after a pass of the drain that has found nothing.
def Enabled : StopElection.Action τ κ → Prop
  | .publishStopping _ => s.submitLock = none
  | .drained _         => s.drain.stage = .done
  | _                  => True

instance (a : StopElection.Action τ κ) : Decidable (s.Enabled a) :=
  match a with
  | .publishStopping _ => inferInstanceAs (Decidable (s.submitLock = none))
  | .drained _         => inferInstanceAs (Decidable (s.drain.stage = .done))
  | .callRun .. | .canStartRun .. | .openNative .. | .leaveLoop _ | .releaseWorkerSlot _ | .callStop _
  | .abortTimers _ | .workersGone _ | .seeStopped _ => .isTrue trivial

def afterElection : StopElection.Action τ κ → State τ κ ω
  | .callStop t    =>
    if s.election.stopRequested then s else { s with outside := (s.election.threads t).runs c = 0 }
  | .workersGone _ => { s with drain := {} }
  | _              => s

def drainStep (found : Bool) : Option (State τ κ ω) :=
  let d := s.drain
  match d.stage, d.rest with
  | .popCpu, _    =>
    some { s with sharedCpu := [], drain := { d with stage := .cpu, rest := s.sharedCpu } }
  | .popIo, _     => some { s with sharedIo := [], drain := { d with stage := .io, rest := s.sharedIo } }
  | .cpu, []      => some { s with drain := { d with stage := .popIo } }
  | .io, []       => some { s with drain := { d with stage := .ready } }
  | .cpu, op :: l | .io, op :: l =>
    some { s with executed := op ::ₘ s.executed, drain := { d with rest := l, hadWork := true } }
  | .ready, _     =>
    if d.hadWork || found then some { s with drain := { d with stage := .popCpu, hadWork := false } }
    else some { s with drain := { d with stage := .done } }
  | .done, _      => none

def step : Action τ κ ω → Option (State τ κ ω)
  | .elect a =>
    if (s.publishing a.thread).isNone ∧ s.Enabled a then
      (s.election.step c a).map fun e => { s.afterElection c a with election := e }
    else none
  | .publish t q op =>
    let th := s.election.threads t
    if ¬(th.free ∧ (s.publishing t).isNone) then none
    -- running_worker_native
    else if th.isInContext c then s.move t (.receive [op])
    else if s.status op = .fresh then
      some ((s.setPublish t (some { queue := q, op })).setStatus op (.publishing t))
    else none
  | .lockSubmit t =>
    match s.publishing t with
    | some ⟨q, op, .called⟩ =>
      if s.submitLock = none then
        some { s.setPublish t (some ⟨q, op, .locked⟩) with submitLock := some t }
      else none
    | _ => none
  | .checkLifeState t =>
    match s.publishing t with
    | some ⟨q, op, .locked⟩ =>
      if s.election.lifeState then
        some { (s.setPublish t none).setStatus op .rejected with submitLock := none }
      else some (s.setPublish t (some ⟨q, op, .checked⟩))
    | _ => none
  | .push t =>
    match s.publishing t with
    | some ⟨q, op, .checked⟩ =>
      some { ((s.enqueue q op).setPublish t none).setStatus op .accepted with submitLock := none }
    | _ => none
  | .work t m =>
    match (s.election.threads t).stack with
    | f :: _ => if f.isLive c ∧ (s.publishing t).isNone then s.move t m else none
    | []     => none
  | .drain t found =>
    match (s.election.threads t).stack with
    | .stop .draining :: _ => if (s.publishing t).isNone then s.drainStep found else none
    | _                    => none

-- Everything that operations can be in.
def places : Multiset ω :=
  s.sharedCpu + s.sharedIo + s.held.map Prod.snd + s.drain.rest + s.executed

-- Nothing is pushed to the shared queues any more.
def Settling : Prop :=
  (∃ u, (s.election.threads u).Draining) ∨ s.election.stopped ∧ s.outside

-- `count` says that an accepted operation is in exactly one place, and any other in none.
structure Safe : Prop where
  election : s.election.Safe c
  locked : ∀ {t p}, s.publishing t = some p → p.phase ≠ .called → s.submitLock = some t
  checked : ∀ {t p}, s.publishing t = some p → p.phase = .checked → s.election.lifeState = false
  status : ∀ {t p}, s.publishing t = some p → s.status p.op = .publishing t
  count : ∀ op, s.places.count op = if s.status op = .accepted then 1 else 0
  walks : s.drain.rest ≠ [] →
    (s.drain.stage = .cpu ∨ s.drain.stage = .io) ∧ ∃ u, (s.election.threads u).Draining
  emptied : ∀ {u}, (s.election.threads u).Draining →
    (s.drain.stage ≠ .popCpu → s.sharedCpu = []) ∧ (s.drain.stage.ioPopped → s.sharedIo = [])
  outside : s.outside → ∀ {u}, s.election.elected = some u ∨ s.election.stopped →
    (s.election.threads u).Gone c
  settled : s.election.stopped → s.outside → s.sharedCpu = [] ∧ s.sharedIo = [] ∧ s.drain.rest = []

variable {c s} {s' : State τ κ ω} {t u : τ} {m : Move ω} {k : Custody ω} {ops : List ω}

theorem safe_init : Safe c ({} : State τ κ ω) where
  election := StopElection.State.safe_init
  locked h := by simp at h
  checked h := by simp at h
  status h := by simp at h
  count op := by simp [places]
  walks h := by simp at h
  emptied _ := ⟨fun _ => rfl, fun _ => rfl⟩
  outside h := by simp at h
  settled h := by simp at h

omit [DecidableEq κ] [DecidableEq ω] in
theorem places_eq : s.places = (s.custody t).total + (s.others t).map Prod.snd + s.drain.rest := by
  have hh : s.held.map Prod.snd = s.mine t + (s.others t).map Prod.snd := by
    conv_lhs => rw [← Multiset.filter_add_not (·.1 = t) s.held, Multiset.map_add]
    rfl
  simp only [places, custody, Custody.total, hh]
  abel

omit [DecidableEq κ] [DecidableEq ω] in
theorem places_setCustody :
    (s.setCustody t k).places = k.total + (s.others t).map Prod.snd + s.drain.rest := by
  have hk : (k.held.map (t, ·)).map Prod.snd = k.held := by simp
  simp only [places, setCustody, Custody.total, Multiset.map_add, hk]
  abel

omit [DecidableEq κ] [DecidableEq ω] in
theorem mine_setCustody_self : (s.setCustody t k).mine t = k.held := by
  simp [mine, others, setCustody, Multiset.filter_add, Multiset.filter_map, Multiset.filter_filter]

omit [DecidableEq κ] [DecidableEq ω] in
theorem mine_setCustody_of_ne (h : u ≠ t) : (s.setCustody t k).mine u = s.mine u := by
  have hk : (k.held.map (t, ·)).filter (·.1 = u) = 0 := by
    simp [Multiset.filter_map, h.symm]
  have ho : (s.others t).filter (·.1 = u) = s.held.filter (·.1 = u) := by
    rw [others, Multiset.filter_filter]
    exact Multiset.filter_congr fun x _ => ⟨And.left, fun hx => ⟨hx, hx ▸ h⟩⟩
  simp [mine, setCustody, hk, ho]

omit [DecidableEq κ] in
theorem move_eq (h : s.move t m = some s') : s.Fresh m.received ∧
    ∃ k, (s.custody t).step m = some k ∧ s' = (s.setCustody t k).accept m.received := by
  unfold move at h
  split at h
  case isTrue hf =>
    obtain ⟨k, hk, rfl⟩ := Option.map_eq_some_iff.mp h
    exact ⟨hf, k, hk, rfl⟩
  case isFalse => cases h

omit [DecidableEq κ] in
theorem places_move (h : s.move t m = some s') : s'.places = s.places + m.received := by
  obtain ⟨-, k, hk, rfl⟩ := move_eq h
  have hs' : ((s.setCustody t k).accept m.received).places = (s.setCustody t k).places := rfl
  rw [hs', places_setCustody, Custody.total_step hk, places_eq (t := t)]
  abel

-- An operation that is published gets into one place.
theorem Safe.count_accept (h : s.Safe c) (hf : s.Fresh ops) (op : ω) :
    (s.places + ops).count op = if (s.accept ops).status op = .accepted then 1 else 0 := by
  rw [Multiset.count_add, h.count, Multiset.coe_count]
  by_cases hop : op ∈ ops
  case pos => simp [accept, hop, hf.2 op hop, List.count_eq_one_of_mem hf.1 hop]
  case neg => simp [accept, hop, List.count_eq_zero_of_not_mem hop]

theorem Safe.not_settling_of_live {f : Frame κ} {rest : List (Frame κ)} (h : s.Safe c)
    (hs : (s.election.threads t).stack = f :: rest) (hf : f.isLive c) : ¬s.Settling := by
  have hin := Frame.isInside_of_isLive hf
  have hgone : ¬(s.election.threads t).Gone c := Thread.Live.not_gone ⟨f, hs ▸ List.mem_cons_self, hf⟩
  rintro (⟨u, hd⟩ | ⟨hstop, hout⟩)
  · by_cases hu : t = u
    case pos =>
      subst hu
      have hd' := hd
      rw [Thread.Draining, hs] at hd'
      obtain rfl | hm := List.mem_cons.mp hd'
      · cases hf
      · simp [(h.election.sound t).not_inside_top hs hm] at hin
    case neg => exact hgone (h.election.exclusive hd hu)
  · exact hgone (h.outside hout (.inr hstop))

theorem Safe.lifeState_of_settling (h : s.Safe c) (hs : s.Settling) : s.election.lifeState := by
  obtain ⟨u, hd⟩ | ⟨hstop, -⟩ := hs
  · exact (h.election.sound u).drains hd
  · exact h.election.stopped hstop

theorem Safe.move (h : s.Safe c) (hm : s.move t m = some s')
    (hsp : ∀ ops, m = .spill ops → ¬s.Settling) : s'.Safe c := by
  have hp := places_move hm
  obtain ⟨hf, k, hk, rfl⟩ := move_eq hm
  have hquiet : s.Settling → ∀ ops, m ≠ .spill ops := fun hs ops he => hsp ops he hs
  exact
    { h with
      status := fun {u p} hpub => by
        have hop : p.op ∉ m.received := fun hop => by simpa [h.status hpub] using hf.2 _ hop
        simpa [accept, setCustody, hop] using h.status hpub
      count := fun op => hp ▸ h.count_accept hf op
      emptied := fun {u} hd => by
        have hne := hquiet (.inl ⟨u, hd⟩)
        exact ⟨fun hst => Custody.cpu_nil hk hne ((h.emptied hd).1 hst),
          fun hst => Custody.io_nil hk ((h.emptied hd).2 hst)⟩
      settled := fun hst hout => by
        have hne := hquiet (.inr ⟨hst, hout⟩)
        obtain ⟨hc, hio, hr⟩ := h.settled hst hout
        exact ⟨Custody.cpu_nil hk hne hc, Custody.io_nil hk hio, hr⟩ }

-- A step of `publish_cpu` or `publish_io` on a thread that is not a worker.
theorem Safe.publishes {q : Option (Publish ω)} {lock : Option τ} {status : ω → Status τ}
    (h : s.Safe c) (cpu io : List ω)
    (hlock : ∀ {u}, u ≠ t → s.submitLock = some u → lock = some u)
    (hphase : ∀ {p}, q = some p → (p.phase ≠ .called → lock = some t) ∧
      (p.phase = .checked → s.election.lifeState = false) ∧ status p.op = .publishing t)
    (hstatus : ∀ {u op}, u ≠ t → s.status op = .publishing u → status op = .publishing u)
    (hcount : ∀ op, (s.places + cpu + io).count op = if status op = .accepted then 1 else 0)
    (hset : s.Settling → cpu = [] ∧ io = []) :
    Safe c
      { s with
        publishing := Function.update s.publishing t q
        submitLock := lock
        status := status
        sharedCpu := cpu ++ s.sharedCpu
        sharedIo := io ++ s.sharedIo } := by
  have hpub : ∀ {u p}, Function.update s.publishing t q u = some p →
      u = t ∧ q = some p ∨ u ≠ t ∧ s.publishing u = some p := by
    intro u p hp
    by_cases hu : u = t
    case pos => exact .inl ⟨hu, by simpa [hu] using hp⟩
    case neg => exact .inr ⟨hu, by simpa [hu] using hp⟩
  exact
    { h with
      locked := fun hp hne => by
        obtain ⟨rfl, hq⟩ | ⟨hu, hp⟩ := hpub hp
        · exact (hphase hq).1 hne
        · exact hlock hu (h.locked hp hne)
      checked := fun hp hch => by
        obtain ⟨rfl, hq⟩ | ⟨hu, hp⟩ := hpub hp
        · exact (hphase hq).2.1 hch
        · exact h.checked hp hch
      status := fun hp => by
        obtain ⟨rfl, hq⟩ | ⟨hu, hp⟩ := hpub hp
        · exact (hphase hq).2.2
        · exact hstatus hu (h.status hp)
      count := fun op => by
        rw [← hcount op]
        congr 1
        simp only [places, ← Multiset.coe_add]
        abel
      emptied := fun hd => by
        obtain ⟨rfl, rfl⟩ := hset (.inl ⟨_, hd⟩)
        exact h.emptied hd
      settled := fun hst hout => by
        obtain ⟨rfl, rfl⟩ := hset (.inr ⟨hst, hout⟩)
        exact h.settled hst hout }

variable {q : Queue} {op : ω} {v : Status τ}

omit [DecidableEq τ] [DecidableEq κ] in
theorem update_publishing (hop : s.status op ≠ .publishing u) {op' : ω}
    (h : s.status op' = .publishing u) : Function.update s.status op v op' = .publishing u := by
  have hne : op' ≠ op := fun he => hop (he ▸ h)
  rwa [Function.update_of_ne hne]

theorem Safe.count_same (h : s.Safe c) (op : ω) : (s.places + ([] : List ω) + ([] : List ω)).count op =
    if s.status op = .accepted then 1 else 0 := by
  rw [Multiset.coe_nil, add_zero, add_zero, h.count]

theorem Safe.count_update (h : s.Safe c) (hop : s.status op ≠ .accepted) (hv : v ≠ .accepted) (op' : ω) :
    (s.places + ([] : List ω) + ([] : List ω)).count op' =
      if Function.update s.status op v op' = .accepted then 1 else 0 := by
  rw [h.count_same]
  by_cases he : op' = op
  case pos => simp [he, hop, hv]
  case neg => simp [he]

theorem Safe.publish {p : Publish ω} (h : s.Safe c) (hc : p.phase = .called)
    (hf : s.status p.op = .fresh) :
    ((s.setPublish t (some p)).setStatus p.op (.publishing t)).Safe c := by
  refine h.publishes [] [] (fun _ => id) ?_ (fun _ => update_publishing (by simp [hf]))
    (h.count_update (by simp [hf]) (by simp)) (by simp)
  rintro _ ⟨⟩
  exact ⟨fun hne => absurd hc hne, by simp [hc], Function.update_self ..⟩

theorem Safe.lockSubmit (h : s.Safe c) (hp : s.publishing t = some ⟨q, op, .called⟩)
    (hl : s.submitLock = none) :
    Safe c { s.setPublish t (some ⟨q, op, .locked⟩) with submitLock := some t } := by
  have hop : s.status op = .publishing t := h.status hp
  refine h.publishes [] [] (by simp [hl]) ?_ (fun _ => id) h.count_same (by simp)
  rintro _ ⟨⟩
  exact ⟨fun _ => rfl, by simp, hop⟩

-- The other calls are before the lock.
theorem Safe.lock_of_ne {p : Publish ω} (h : s.Safe c) (hp : s.publishing t = some p)
    (hne : p.phase ≠ .called) (hu : u ≠ t) : s.submitLock ≠ some u := by
  rw [h.locked hp hne]
  simpa using hu.symm

theorem Safe.reject (h : s.Safe c) (hp : s.publishing t = some ⟨q, op, .locked⟩) :
    Safe c { (s.setPublish t none).setStatus op .rejected with submitLock := none } := by
  have hop : s.status op = .publishing t := h.status hp
  exact h.publishes [] [] (fun hu hl => absurd hl (h.lock_of_ne hp (by simp) hu)) (by simp)
    (fun hu => update_publishing (by simpa [hop] using hu.symm))
    (h.count_update (by simp [hop]) (by simp))
    (by simp)

theorem Safe.pass (h : s.Safe c) (hp : s.publishing t = some ⟨q, op, .locked⟩)
    (hl : s.election.lifeState = false) : (s.setPublish t (some ⟨q, op, .checked⟩)).Safe c := by
  have hop : s.status op = .publishing t := h.status hp
  refine h.publishes [] [] (fun _ => id) ?_ (fun _ => id) h.count_same (by simp)
  rintro _ ⟨⟩
  exact ⟨fun _ => h.locked hp (by simp), fun _ => hl, hop⟩

-- The check is still true at the push: the lock has been held since.
theorem Safe.push (h : s.Safe c) (hp : s.publishing t = some ⟨q, op, .checked⟩) :
    Safe c { ((s.enqueue q op).setPublish t none).setStatus op .accepted with submitLock := none } := by
  have hop : s.status op = .publishing t := h.status hp
  have hlock : ∀ {u}, u ≠ t → s.submitLock = some u → none = some u := fun hu hl =>
    absurd hl (h.lock_of_ne hp (by simp) hu)
  have hset : ¬s.Settling := fun hs => by simpa [h.checked hp rfl] using h.lifeState_of_settling hs
  have hstatus : ∀ {u op'}, u ≠ t → s.status op' = .publishing u →
      Function.update s.status op .accepted op' = .publishing u := fun hu =>
    update_publishing (by simpa [hop] using hu.symm)
  have hcount : ∀ op', (s.places + ([op] : List ω)).count op' =
      if Function.update s.status op .accepted op' = .accepted then 1 else 0 := by
    intro op'
    by_cases he : op' = op
    case pos => simp [he, h.count, hop]
    case neg => simp [he, h.count]
  cases q
  case cpu =>
    refine h.publishes [op] [] hlock (by simp) hstatus (fun op' => ?_) fun hs => absurd hs hset
    rw [Multiset.coe_nil, add_zero]
    exact hcount op'
  case io =>
    refine h.publishes [] [op] hlock (by simp) hstatus (fun op' => ?_) fun hs => absurd hs hset
    rw [Multiset.coe_nil, add_zero]
    exact hcount op'

-- A step of `drain_shared_queues_for_stop`.
theorem Safe.drains {cpu io : List ω} {executed : Multiset ω} {d : Drain ω} (h : s.Safe c)
    (ht : (s.election.threads t).Draining)
    (hp : (cpu : Multiset ω) + io + d.rest + executed =
      s.sharedCpu + s.sharedIo + s.drain.rest + s.executed)
    (he : s.executed ≤ executed) (hw : d.rest ≠ [] → d.stage = .cpu ∨ d.stage = .io)
    (hcpu : d.stage ≠ .popCpu → (s.drain.stage ≠ .popCpu → s.sharedCpu = []) → cpu = [])
    (hio : d.stage.ioPopped → (s.drain.stage.ioPopped → s.sharedIo = []) → io = []) :
    Safe c { s with sharedCpu := cpu, sharedIo := io, executed, drain := d } :=
  { h with
    count := fun op => by
      rw [← h.count op]
      congr 1
      calc (cpu : Multiset ω) + io + s.held.map Prod.snd + d.rest + executed
        _ = (cpu : Multiset ω) + io + d.rest + executed + s.held.map Prod.snd := by abel
        _ = s.places := by rw [hp, places]; abel
    walks := fun hne => ⟨hw hne, t, ht⟩
    emptied := fun hd => ⟨fun hst => hcpu hst (h.emptied hd).1, fun hst => hio hst (h.emptied hd).2⟩
    settled := fun hst hout => by
      obtain ⟨hc, hi, hr⟩ := h.settled hst hout
      have hz : (cpu : Multiset ω) + io + d.rest + executed = s.executed := by simpa [hc, hi, hr] using hp
      simpa [and_assoc] using hz.trans_le he }

theorem Safe.drainStep {found : Bool} (h : s.Safe c) (ht : (s.election.threads t).Draining)
    (hs : s.drainStep found = some s') : s'.Safe c := by
  have hrest : s.drain.stage ≠ .cpu → s.drain.stage ≠ .io → s.drain.rest = [] := fun hc hi => by
    by_contra hne
    obtain ⟨hc', -⟩ := h.walks hne
    tauto
  have hpop : ∀ {op l}, s.drain.rest = op :: l →
      (s.sharedCpu : Multiset ω) + s.sharedIo + l + (op ::ₘ s.executed) =
        s.sharedCpu + s.sharedIo + s.drain.rest + s.executed := fun {op l} hr => by
    rw [hr, ← Multiset.cons_coe, ← Multiset.singleton_add, ← Multiset.singleton_add]
    abel
  unfold State.drainStep at hs
  simp only at hs
  split at hs
  case h_1 hst =>
    cases hs
    refine h.drains ht ?_ le_rfl (fun _ => .inl rfl) (fun _ _ => rfl) (by simp [DrainStage.ioPopped])
    rw [hrest (by simp [hst]) (by simp [hst]), Multiset.coe_nil]
    abel
  case h_2 hst =>
    cases hs
    refine h.drains ht ?_ le_rfl (fun _ => .inr rfl) (fun _ hc => hc (by simp [hst])) fun _ _ => rfl
    rw [hrest (by simp [hst]) (by simp [hst]), Multiset.coe_nil]
    abel
  case h_3 hst hr =>
    cases hs
    exact h.drains ht rfl le_rfl (absurd hr) (fun _ hc => hc (by simp [hst]))
      (by simp [DrainStage.ioPopped])
  case h_4 hst hr =>
    cases hs
    exact h.drains ht rfl le_rfl (absurd hr) (fun _ hc => hc (by simp [hst])) fun _ hi =>
      hi (by simp [hst, DrainStage.ioPopped])
  case h_5 op l hst hr =>
    cases hs
    exact h.drains ht (hpop hr) (Multiset.le_cons_self ..) (fun _ => .inl hst) (fun hne hc => hc hne)
      fun hp hi => hi hp
  case h_6 op l hst hr =>
    cases hs
    exact h.drains ht (hpop hr) (Multiset.le_cons_self ..) (fun _ => .inr hst) (fun hne hc => hc hne)
      fun hp hi => hi hp
  case h_7 hst =>
    have hr := hrest (by simp [hst]) (by simp [hst])
    split at hs <;> cases hs
    case isTrue =>
      exact h.drains ht rfl le_rfl (absurd hr) (by simp) (by simp [DrainStage.ioPopped])
    case isFalse =>
      exact h.drains ht rfl le_rfl (absurd hr) (fun _ hc => hc (by simp [hst])) fun _ hi =>
        hi (by simp [hst, DrainStage.ioPopped])
  case h_8 => cases hs

omit [DecidableEq τ] [DecidableEq ω] in
-- What a step of the election does to the rest of the state.
theorem afterElection_eq (a : StopElection.Action τ κ) :
    ∃ d o, s.afterElection c a = { s with drain := d, outside := o } ∧
      ((∃ t, a = .workersGone t) ∧ d = {} ∨ (∀ t, a ≠ .workersGone t) ∧ d = s.drain) ∧
      ((s.election.stopRequested = false → ∀ t, a ≠ .callStop t) ∧ o = s.outside ∨
        ∃ t, a = .callStop t ∧ s.election.stopRequested = false ∧
          o = decide ((s.election.threads t).runs c = 0)) := by
  cases a
  case callStop t =>
    cases hr : s.election.stopRequested
    case true => exact ⟨s.drain, s.outside, by simp [afterElection, hr], by simp, by simp⟩
    case false => exact ⟨s.drain, _, by simp [afterElection, hr], by simp, .inr ⟨t, rfl, rfl, rfl⟩⟩
  case workersGone t => exact ⟨{}, s.outside, rfl, by simp, by simp⟩
  all_goals exact ⟨s.drain, s.outside, rfl, by simp, by simp⟩

-- A stop that still waits is the only one, so no pass of the drain is under way.
theorem Safe.rest_of_workersGone {e : StopElection.State τ κ} (h : s.Safe c)
    (he : s.election.step c (.workersGone t) = some e) : s.drain.rest = [] := by
  by_contra hne
  obtain ⟨-, u, hd⟩ := h.walks hne
  cases StopElection.State.step_steps he
  case drain hs => exact h.election.not_draining_of_waiting hs hd

variable {a : StopElection.Action τ κ} {e : StopElection.State τ κ}

theorem Safe.drained (h : s.Safe c) (hen : s.Enabled (.drained t)) :
    s.drain.stage = .done ∧ s.drain.rest = [] := by
  have hst : s.drain.stage = .done := hen
  refine ⟨hst, ?_⟩
  by_contra hne
  simpa [hst] using (h.walks hne).1

-- The elected thread does not get into the loop, and once the context has stopped no thread does.
theorem Safe.gone (h : s.Safe c) (he : s.election.step c a = some e)
    (hel : s.election.elected = some u ∨ s.election.stopped) (hgone : (s.election.threads u).Gone c) :
    (e.threads u).Gone c := by
  have hg := h.election.goes he
  by_cases hu : u = a.thread
  case neg => exact hg.others hu ▸ hgone
  case pos =>
    subst hu
    refine hg.gone ?_ hgone
    by_cases hl : s.election.lifeState
    case pos => exact .inl hl
    case neg =>
      obtain hel | hst := hel
      · exact .inr (h.election.stops_of_elected hel (by simpa using hl))
      · exact absurd (h.election.stopped hst) hl

-- The thread was elected before, or it is now, or the step ends the stop.
theorem Safe.elect_outside {o : Bool} (h : s.Safe c) (he : s.election.step c a = some e)
    (ho : (s.election.stopRequested = false → ∀ t, a ≠ .callStop t) ∧ o = s.outside ∨
      ∃ t, a = .callStop t ∧ s.election.stopRequested = false ∧
        o = decide ((s.election.threads t).runs c = 0))
    (hout : o) (hel : e.elected = some u ∨ e.stopped) : (e.threads u).Gone c := by
  have hg := h.election.goes he
  have hsame : s.election.stopRequested → s.outside := fun hr => by
    obtain ⟨-, ho⟩ | ⟨-, -, hr', -⟩ := ho
    · exact ho ▸ hout
    · simp [hr] at hr'
  have hold : s.election.elected = some u ∨ s.election.stopped → (e.threads u).Gone c := fun hel => by
    have hreq := h.election.requested (hel.imp_left fun hel => by simp [hel])
    exact h.gone he hel (h.outside (hsame hreq) hel)
  obtain hel | hst := hel
  · by_cases hu : u = a.thread
    case neg => exact hold (.inl ((hg.elected hu).mp hel))
    case pos =>
      subst hu
      obtain hel | ⟨ha, hreq, hgone⟩ := hg.elects hel
      · exact hold (.inl hel)
      · obtain ⟨hne, -⟩ | ⟨t, ha', -, ho⟩ := ho
        · exact absurd ha (hne hreq _)
        · have ht : a.thread = t := by rw [ha']; rfl
          exact hgone (ht ▸ Thread.gone_of_runs (of_decide_eq_true (ho ▸ hout)))
  · obtain hst | ⟨ha, hd⟩ := hg.ends hst
    · exact hold (.inr hst)
    · have hel := h.election.elected_of_mem hd
      by_cases hu : u = a.thread
      case pos => exact hold (.inl (hu ▸ hel))
      case neg => exact hg.others hu ▸ h.election.exclusive hd hu

theorem Safe.elect (h : s.Safe c) (hen : s.Enabled a) (he : s.election.step c a = some e) :
    Safe c { s.afterElection c a with election := e } := by
  have hg := h.election.goes he
  obtain ⟨d, o, hafter, hd, ho⟩ := s.afterElection_eq a (c := c)
  rw [hafter]
  have hrest : d.rest = s.drain.rest := by
    obtain ⟨⟨t, rfl⟩, rfl⟩ | ⟨-, rfl⟩ := hd
    · exact (h.rest_of_workersGone he).symm
    · rfl
  exact
    { h with
      election := hg.safe h.election
      checked := fun hp hch => by
        by_contra hl
        obtain hl | ha := hg.closed (by simpa using hl)
        · simp [h.checked hp hch] at hl
        · rw [ha] at hen
          have hlock : s.submitLock = none := hen
          simp [h.locked hp (by simp [hch])] at hlock
      count := fun op => by
        rw [← h.count op]
        simp only [places, hrest]
      walks := fun hne => by
        obtain ⟨-, rfl⟩ | ⟨-, rfl⟩ := hd
        · exact absurd rfl hne
        · obtain ⟨hst, u, hu⟩ := h.walks hne
          refine ⟨hst, u, ?_⟩
          by_cases hut : u = a.thread
          case neg => exact hg.others hut ▸ hu
          case pos =>
            subst hut
            refine (hg.keeps hu).resolve_right fun ha => ?_
            rw [ha] at hen
            exact hne (h.drained hen).2
      emptied := fun {u} hu => by
        obtain ⟨-, rfl⟩ | ⟨ha, rfl⟩ := hd
        · simp [DrainStage.ioPopped]
        · refine h.emptied (u := u) ?_
          by_cases hut : u = a.thread
          case neg => exact hg.others hut ▸ hu
          case pos =>
            subst hut
            exact (hg.drains hu).resolve_right fun hw => ha _ hw.1
      outside := fun hout _ hel => h.elect_outside he ho hout hel
      settled := fun hst hout => by
        rw [hrest]
        obtain hold | ⟨ha, hdr⟩ := hg.ends hst
        · have hreq := h.election.requested (.inr hold)
          obtain ⟨-, rfl⟩ | ⟨-, -, hreq', -⟩ := ho
          · exact h.settled hold hout
          · simp [hreq] at hreq'
        · rw [ha] at hen
          obtain ⟨hstage, hr⟩ := h.drained hen
          have hempty := h.emptied hdr
          rw [hstage] at hempty
          exact ⟨hempty.1 (by simp), hempty.2 rfl, hr⟩ }

theorem Safe.step {a : Action τ κ ω} (h : s.Safe c) (hs : s.step c a = some s') : s'.Safe c := by
  cases a
  case elect a =>
    simp only [State.step] at hs
    split at hs
    case isTrue hen =>
      obtain ⟨e, he, rfl⟩ := Option.map_eq_some_iff.mp hs
      exact h.elect hen.2 he
    case isFalse => cases hs
  case publish t q op =>
    simp only [State.step] at hs
    split at hs
    case isTrue => cases hs
    case isFalse =>
      split at hs
      case isTrue => exact h.move hs (by simp)
      case isFalse =>
        split at hs <;> cases hs
        case isTrue hf => exact h.publish rfl hf
  case lockSubmit t =>
    simp only [State.step] at hs
    split at hs
    case h_1 hp =>
      split at hs <;> cases hs
      case isTrue hl => exact h.lockSubmit hp hl
    case h_2 => cases hs
  case checkLifeState t =>
    simp only [State.step] at hs
    split at hs
    case h_1 hp =>
      split at hs <;> cases hs
      case isTrue => exact h.reject hp
      case isFalse hl => exact h.pass hp (by simpa using hl)
    case h_2 => cases hs
  case push t =>
    simp only [State.step] at hs
    split at hs <;> cases hs
    case h_1 hp => exact h.push hp
  case work t m =>
    simp only [State.step] at hs
    split at hs
    case h_1 f rest hst =>
      split at hs
      case isTrue hf => exact h.move hs fun _ _ => h.not_settling_of_live hst hf.1
      case isFalse => cases hs
    case h_2 => cases hs
  case drain t found =>
    simp only [State.step] at hs
    split at hs
    case h_1 hst =>
      split at hs
      case isTrue => exact h.drainStep (hst ▸ List.mem_cons_self) hs
      case isFalse => cases hs
    case h_2 => cases hs

-- What a thread's native contexts hold, it holds in one of them.
def Kept (c : κ) (s : State τ κ ω) : Prop :=
  ∀ t, s.mine t ≠ 0 → (s.election.threads t).Live c

-- The contract of the destructor of a native context: when the last one of a thread is gone, the thread
-- holds nothing.
def Emptied (c : κ) (s : State τ κ ω) : Action τ κ ω → Prop
  | .elect (.releaseWorkerSlot t) =>
    (s.election.threads t).stack.tail.all (!·.isLive c) → s.mine t = 0
  | _ => True

instance (a : Action τ κ ω) : Decidable (s.Emptied c a) :=
  match a with
  | .elect (.releaseWorkerSlot t) =>
    inferInstanceAs (Decidable ((s.election.threads t).stack.tail.all (!·.isLive c) → s.mine t = 0))
  | .elect (.callRun ..) | .elect (.canStartRun ..) | .elect (.openNative ..) | .elect (.leaveLoop _)
  | .elect (.callStop _) | .elect (.abortTimers _) | .elect (.publishStopping _) | .elect (.workersGone _)
  | .elect (.drained _) | .elect (.seeStopped _) | .publish .. | .lockSubmit _ | .checkLifeState _
  | .push _ | .work .. | .drain .. => .isTrue trivial

theorem Kept.move (hk : s.Kept c) (ht : (s.election.threads t).Live c) (hm : s.move t m = some s') :
    s'.Kept c := by
  obtain ⟨-, k, -, rfl⟩ := move_eq hm
  intro u hu
  by_cases hut : u = t
  case pos => exact hut ▸ ht
  case neg =>
    have hmine : ((s.setCustody t k).accept m.received).mine u = s.mine u := mine_setCustody_of_ne hut
    exact hk u (hmine ▸ hu)

theorem Kept.elect (h : s.Safe c) (hk : s.Kept c) (hem : s.Emptied c (.elect a))
    (he : s.election.step c a = some e) : Kept c { s.afterElection c a with election := e } := by
  have hg := h.election.goes he
  obtain ⟨d, o, hafter, -, -⟩ := s.afterElection_eq a (c := c)
  rw [hafter]
  intro u hu
  have hu : s.mine u ≠ 0 := hu
  by_cases hut : u = a.thread
  case neg => exact hg.others hut ▸ hk u hu
  case pos =>
    subst hut
    by_contra hdead
    obtain ⟨ha, hst⟩ := (hg.live (hk _ hu)).resolve_left hdead
    rw [ha] at hem
    refine hu (hem ?_)
    rw [hst]
    simpa [Thread.Live] using hdead

theorem Kept.step {a : Action τ κ ω} (h : s.Safe c) (hk : s.Kept c) (hem : s.Emptied c a)
    (hs : s.step c a = some s') : s'.Kept c := by
  cases a
  case elect a =>
    simp only [State.step] at hs
    split at hs
    case isTrue =>
      obtain ⟨e, he, rfl⟩ := Option.map_eq_some_iff.mp hs
      exact hk.elect h hem he
    case isFalse => cases hs
  case publish t q op =>
    simp only [State.step] at hs
    split at hs
    case isTrue => cases hs
    case isFalse =>
      split at hs
      case isTrue hin => exact hk.move ((h.election.sound t).live hin) hs
      case isFalse =>
        split at hs <;> cases hs
        exact hk
  case work t m =>
    simp only [State.step] at hs
    split at hs
    case h_1 f rest hst =>
      split at hs
      case isTrue hf => exact hk.move ⟨f, hst ▸ List.mem_cons_self, hf.1⟩ hs
      case isFalse => cases hs
    case h_2 => cases hs
  case push t =>
    simp only [State.step] at hs
    split at hs <;> cases hs
    case h_1 q _ _ => cases q <;> exact hk
  case drain t found =>
    simp only [State.step, drainStep] at hs
    split at hs
    case h_1 =>
      split at hs
      case isTrue =>
        split at hs
        case h_7 => split at hs <;> cases hs <;> exact hk
        case h_8 => cases hs
        all_goals cases hs; exact hk
      case isFalse => cases hs
    case h_2 => cases hs
  all_goals
    simp only [State.step] at hs
    split at hs
    case h_1 => split at hs <;> cases hs <;> exact hk
    case h_2 => cases hs

-- Nothing is left to execute.
theorem Safe.places_of_stopped (h : s.Safe c) (hk : s.Kept c) (hst : s.election.stopped)
    (hout : s.outside) : s.places = s.executed := by
  have hheld : s.held = 0 := by
    refine Multiset.eq_zero_of_forall_notMem fun x hx => ?_
    have hm : s.mine x.1 ≠ 0 := by
      have hx : x.2 ∈ s.mine x.1 := Multiset.mem_map.mpr ⟨x, Multiset.mem_filter.mpr ⟨hx, rfl⟩, rfl⟩
      exact fun hz => Multiset.notMem_zero _ (hz ▸ hx)
    exact (hk _ hm).not_gone (h.outside hout (.inr hst))
  obtain ⟨hc, hi, hr⟩ := h.settled hst hout
  simp [places, hheld, hc, hi, hr]

section Works

variable {k' : Custody ω} {ms : List (Move ω)}

-- The last call of the thread is in its native context.
def Serving (c : κ) (s : State τ κ ω) (t : τ) : Prop :=
  (s.election.threads t).stack.head?.any (·.isLive c) ∧ (s.publishing t).isNone

-- `k` is what the thread's native context holds and sees.
def Holds (s : State τ κ ω) (t : τ) (k : Custody ω) : Prop :=
  s.sharedCpu = k.sharedCpu ∧ s.sharedIo = k.sharedIo ∧ s.mine t = k.held

instance : Decidable (s.Serving c t) :=
  inferInstanceAs (Decidable (_ ∧ _))

instance : Decidable (s.Holds t k) :=
  inferInstanceAs (Decidable (_ ∧ _ ∧ _))

-- The thread goes from `k` to `k'`; what the others hold stays as it is.
structure Follows (s : State τ κ ω) (t : τ) (k k' : Custody ω) (s' : State τ κ ω) : Prop where
  holds : s'.Holds t k'
  executed : s'.executed + k.executed = s.executed + k'.executed
  others : ∀ u ≠ t, s'.mine u = s.mine u
  election : s'.election = s.election
  publishing : s'.publishing = s.publishing

-- By moves of its own the thread gets from `k` to `k'`.
def Works (c : κ) (s : State τ κ ω) (t : τ) (k k' : Custody ω) : Prop :=
  ∃ (ms : List (Move ω)) (s' : State τ κ ω),
    System.run (State.step c) s (ms.map (.work t)) = some s' ∧ s.Follows t k k' s'

omit [DecidableEq τ] [DecidableEq κ] in
theorem Fresh.accept {ops ops' : List ω} (h : s.Fresh (ops ++ ops')) :
    s.Fresh ops ∧ (s.accept ops).Fresh ops' := by
  obtain ⟨hnd, hfresh⟩ := h
  obtain ⟨h₁, h₂, hdis⟩ := List.nodup_append.mp hnd
  refine ⟨⟨h₁, fun op hop => hfresh op (by simp [hop])⟩, h₂, fun op hop => ?_⟩
  have hne : op ∉ ops := fun hop' => hdis op hop' op hop rfl
  simpa [State.accept, hne] using hfresh op (by simp [hop])

omit [DecidableEq κ] in
theorem Holds.move (h : s.Holds t k) (hm : k.step m = some k') (hf : s.Fresh m.received) :
    ∃ s', s.move t m = some s' ∧ s.Follows t k k' s' ∧ s'.status = (s.accept m.received).status := by
  obtain ⟨hcpu, hio, hheld⟩ := h
  have hk : s.custody t = { k with executed := s.executed } := by simp [custody, hcpu, hio, hheld]
  obtain ⟨y, hstep, hy⟩ := Custody.step_executed hm s.executed
  have hmove : s.move t m = some ((s.setCustody t { k' with executed := y }).accept m.received) := by
    rw [State.move, if_pos hf, hk, hstep]
    rfl
  refine ⟨_, hmove, ⟨⟨rfl, rfl, ?_⟩, hy, fun u hu => ?_, rfl, rfl⟩, rfl⟩
  · exact mine_setCustody_self
  · exact mine_setCustody_of_ne hu

theorem Serving.work (h : s.Serving c t) : s.step c (.work t m) = s.move t m := by
  obtain ⟨hlive, hpub⟩ := h
  simp only [State.step]
  split
  case h_1 f rest hst =>
    rw [hst] at hlive
    exact if_pos ⟨by simpa using hlive, hpub⟩
  case h_2 hst => simp [hst] at hlive

theorem Holds.run (h : s.Holds t k) (hs : s.Serving c t) (hr : System.run Custody.step k ms = some k')
    (hf : s.Fresh (ms.flatMap Move.received)) :
    ∃ s', System.run (State.step c) s (ms.map (.work t)) = some s' ∧ s.Follows t k k' s' := by
  induction ms generalizing s k
  case nil =>
    cases hr
    exact ⟨s, rfl, h, rfl, fun _ _ => rfl, rfl, rfl⟩
  case cons m ms hi =>
    obtain ⟨k₁, hm, hr⟩ := System.run_cons_eq_some Custody.step |>.mp hr
    rw [List.flatMap_cons] at hf
    obtain ⟨hf, hf'⟩ := hf.accept
    obtain ⟨s₁, hs₁, hfol, hst⟩ := h.move hm hf
    have hserv : s₁.Serving c t := by
      rw [Serving, hfol.election, hfol.publishing]
      exact hs
    have hfresh : s₁.Fresh (ms.flatMap Move.received) := by
      rw [Fresh, hst]
      exact hf'
    obtain ⟨s', hrun, hfol'⟩ := hi hfol.holds hserv hr hfresh
    refine ⟨s', ?_, hfol'.holds, ?_, fun u hu => (hfol'.others u hu).trans (hfol.others u hu),
      hfol'.election.trans hfol.election, hfol'.publishing.trans hfol.publishing⟩
    · rw [List.map_cons, System.run_cons, hs.work, hs₁]
      exact hrun
    · ext op
      have h₁ := congrArg (Multiset.count op) hfol.executed
      have h₂ := congrArg (Multiset.count op) hfol'.executed
      simp only [Multiset.count_add] at h₁ h₂ ⊢
      omega

-- What a worker does with its native context, its thread does in the loop of publishers and stop.
theorem Holds.works {new : List ω} (h : s.Holds t k) (hs : s.Serving c t) (hk : k.Serves new k')
    (hf : s.Fresh new) : s.Works c t k k' := by
  obtain ⟨ms, hr, rfl⟩ := hk
  obtain ⟨s', hrun, hfol⟩ := h.run hs hr hf
  exact ⟨ms, s', hrun, hfol⟩

end Works

end State

variable [DecidableEq τ] [DecidableEq κ] [DecidableEq ω]

-- Whatever the threads do, and in whatever order: an operation that has been accepted is in exactly one
-- place, and one that has been rejected in none. When a stop has ended that was called on a thread
-- outside of the context, nothing is left in the shared queues, and nothing gets there any more.
theorem accepted_in_one_place (c : κ) (as : List (Action τ κ ω)) :
    System.Always (State.step c)
      (fun s => (∀ op, s.places.count op = if s.status op = .accepted then 1 else 0) ∧
        (s.election.stopped → s.outside → s.sharedCpu = [] ∧ s.sharedIo = [] ∧ s.drain.rest = []))
      {} as :=
  .of_invariant State.Safe.step (fun h => ⟨h.count, h.settled⟩) State.safe_init

-- What has been accepted when the stop has ended has been executed, once.
theorem executed_once (c : κ) (as : List (Action τ κ ω))
    (h : System.Along (State.step c) (State.Emptied c) {} as) :
    System.Always (State.step c)
      (fun s => s.election.stopped → s.outside →
        ∀ op, s.executed.count op = if s.status op = .accepted then 1 else 0)
      {} as := by
  refine h.always (I := fun s => s.Safe c ∧ s.Kept c) (fun hi hem hs => ?_) (fun hi hst hout op => ?_) ?_
  · exact ⟨hi.1.step hs, hi.2.step hi.1 hem hs⟩
  · rw [← hi.1.places_of_stopped hi.2 hst hout]
    exact hi.1.count op
  · exact ⟨State.safe_init, fun _ hm => absurd rfl hm⟩

-- A worker (1) executes the first operation, the stop (3) drains the second, and the third is rejected.
def lateStop : List (Action Nat Nat Nat) :=
  [.elect (.callRun 1 0), .elect (.canStartRun 1 false), .elect (.openNative 1 false false),
    .publish 2 .cpu 10, .lockSubmit 2, .checkLifeState 2, .push 2, .work 1 .takeCpu,
    .work 1 (.execute 10), .publish 2 .io 20, .lockSubmit 2, .checkLifeState 2, .elect (.callStop 3),
    .push 2, .publish 2 .cpu 30,
    .elect (.abortTimers 3), .elect (.publishStopping 3), .lockSubmit 2, .checkLifeState 2,
    .elect (.leaveLoop 1), .elect (.releaseWorkerSlot 1), .elect (.workersGone 3),
    .drain 3 false, .drain 3 false, .drain 3 false, .drain 3 false, .drain 3 false, .drain 3 false,
    .drain 3 false, .drain 3 false, .drain 3 false, .drain 3 false, .drain 3 false, .elect (.drained 3)]

theorem executed_once_lateStop :
    System.Along (State.step 0) (State.Emptied 0) {} lateStop ∧
      ∃ s, System.run (State.step 0) {} lateStop = some s ∧ s.election.stopped ∧ s.outside ∧
        (s.status 20 = .accepted ∧ s.status 30 = .rejected) ∧
        ∀ op, s.executed.count op = if s.status op = .accepted then 1 else 0 := by
  have halong : System.Along (State.step 0) (State.Emptied 0) {} lateStop := by decide +kernel
  obtain ⟨s, hs, hw⟩ := Option.any_eq_true .. |>.mp
    (by decide +kernel : (System.run (State.step 0) {} lateStop).any fun s =>
      s.election.stopped ∧ s.outside ∧ s.status 20 = .accepted ∧ s.status 30 = .rejected)
  obtain ⟨hst, hout, hstatus⟩ := of_decide_eq_true hw
  exact ⟨halong, s, hs, hst, hout, hstatus, (executed_once 0 lateStop halong).last hs hst hout⟩

end Bnio.Posix.ClosedLoop

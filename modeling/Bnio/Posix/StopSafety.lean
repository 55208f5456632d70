import Bnio.Posix.StopElection

-- What holds of `run` and `stop` whoever calls them: the thread that drains the shared queues is alone.
namespace Bnio.Posix.StopElection

variable {τ κ : Type*} [DecidableEq τ] [DecidableEq κ]

namespace Frame

-- The call is in `run_native_loop` of the context.
def isInside (c : κ) : Frame κ → Bool
  | run _ .entered => false
  | run ctx _      => ctx = c
  | _              => false

-- The native context of the call takes operations and executes them.
def isLive (c : κ) : Frame κ → Bool
  | run ctx (.looping _) | run ctx .closing => ctx = c
  | _                                       => false

theorem isInside_of_isLive {c : κ} {f : Frame κ} (h : f.isLive c) : f.isInside c := by
  cases f
  case run _ p => cases p <;> simp_all [isLive, isInside]
  case stop    => cases h
  case await   => cases h

end Frame

-- The context whose loop is the innermost one.
def looper : List (Frame κ) → Option κ
  | []                         => none
  | .run ctx (.looping _) :: _ => some ctx
  | _ :: rest                  => looper rest

-- Every loop has saved the context of the loop around it.
def Chained : List (Frame κ) → Prop
  | []                                   => True
  | .run _ (.looping previous) :: rest   => previous = looper rest ∧ Chained rest
  | _ :: rest                            => Chained rest

omit [DecidableEq κ] in
theorem looper_cons {f : Frame κ} {rest : List (Frame κ)} (h : ∀ ctx p, f ≠ .run ctx (.looping p)) :
    looper (f :: rest) = looper rest := by
  cases f
  case run ctx p =>
    cases p
    case looping p => exact absurd rfl (h ctx p)
    all_goals rfl
  all_goals rfl

omit [DecidableEq κ] in
theorem chained_cons {f : Frame κ} {rest : List (Frame κ)} (h : ∀ ctx p, f ≠ .run ctx (.looping p)) :
    Chained (f :: rest) = Chained rest := by
  cases f
  case run ctx p =>
    cases p
    case looping p => exact absurd rfl (h ctx p)
    all_goals rfl
  all_goals rfl

theorem exists_live_of_looper {c : κ} {l : List (Frame κ)} (h : looper l = some c) :
    ∃ f ∈ l, f.isLive c := by
  induction l
  case nil => cases h
  case cons f rest hi =>
    by_cases hf : ∃ ctx p, f = .run ctx (.looping p)
    case pos =>
      obtain ⟨ctx, p, rfl⟩ := hf
      have hc : ctx = c := Option.some.inj h
      exact ⟨_, List.mem_cons_self, by simp [Frame.isLive, hc]⟩
    case neg =>
      have hf : ∀ ctx p, f ≠ .run ctx (.looping p) := fun ctx p he => hf ⟨ctx, p, he⟩
      obtain ⟨g, hg, hl⟩ := hi (looper_cons hf ▸ h)
      exact ⟨g, List.mem_cons_of_mem _ hg, hl⟩

namespace Thread

variable (c : κ) (th : Thread κ)

-- The thread is not in `run_native_loop` of the context.
def Gone : Prop :=
  ∀ f ∈ th.stack, f.isInside c = false

-- The thread has a native context of the context.
def Live : Prop :=
  ∃ f ∈ th.stack, f.isLive c

-- The thread is in `drain_shared_queues_for_stop`.
def Draining : Prop :=
  .stop .draining ∈ th.stack

-- What a receiver of the drain calls does not get into `run_native_loop`.
structure Sound (lifeState : Bool) : Prop where
  current : th.current = looper th.stack
  chained : Chained th.stack
  waits : ∀ {n rest}, th.stack = .stop (.waiting n) :: rest →
    lifeState ∧ n = if th.isInContext c then 1 else 0
  drains : th.Draining → lifeState
  above : th.stack.Pairwise fun f g => g = .stop .draining → f.isInside c = false

variable {c th} {b : Bool} {f g : Frame κ} {rest : List (Frame κ)}

theorem Sound.closed (h : th.Sound c b) : th.Sound c true :=
  ⟨h.current, h.chained, fun hs => ⟨rfl, (h.waits hs).2⟩, fun _ => rfl, h.above⟩

theorem Sound.live (h : th.Sound c b) (hc : th.isInContext c) : th.Live c :=
  exists_live_of_looper (by simpa [Thread.isInContext, h.current] using hc)

theorem Sound.runs_pos (h : th.Sound c b) (hc : th.isInContext c) : 0 < th.runs c := by
  obtain ⟨f, hf, hlive⟩ := h.live hc
  refine List.countP_pos_iff.mpr ⟨f, hf, ?_⟩
  cases f
  case run _ p => cases p <;> simp_all [Frame.isLive, Frame.isRun]
  case stop    => cases hlive
  case await   => cases hlive

-- A call that user code makes.
theorem Sound.push (h : th.Sound c b) (hg : ∀ ctx p, g ≠ .run ctx (.looping p))
    (hw : ∀ p, g = .stop p → p = .aborting) (hi : g.isInside c = false) : (th.push g).Sound c b where
  current := (looper_cons hg).symm ▸ h.current
  chained := (chained_cons hg).symm ▸ h.chained
  waits hs := by
    have hp := hw _ (List.cons.inj hs).1
    cases hp
  drains hm := by
    obtain hm | hm := List.mem_cons.mp hm
    · cases hw _ hm.symm
    · exact h.drains hm
  above := List.pairwise_cons.mpr ⟨fun _ _ _ => hi, h.above⟩

-- The thread returns from its last call into a receiver, or out of all calls.
theorem Sound.pop (h : th.Sound c b) (hs : th.stack = f :: rest)
    (hf : ∀ ctx p, f ≠ .run ctx (.looping p)) (hfree : Thread.free { th with stack := rest }) :
    Sound c { th with stack := rest } b where
  current := by rw [h.current, hs, looper_cons hf]
  chained := by
    have hc := h.chained
    rwa [hs, chained_cons hf] at hc
  waits he := by simp [Thread.free, show rest = _ from he, Frame.runsReceivers] at hfree
  drains hm := h.drains (by rw [Draining, hs]; exact List.mem_cons_of_mem _ hm)
  above := by
    have ha := h.above
    rw [hs] at ha
    exact ha.of_cons

-- The last call goes on to another phase.
theorem Sound.setTop {current : Option κ} (h : th.Sound c b) (hs : th.stack = f :: rest)
    (hcur : current = looper (g :: rest)) (hch : Chained (g :: rest))
    (hw : ∀ n, g = .stop (.waiting n) → b ∧ n = if current = some c then 1 else 0)
    (hd : g = .stop .draining → b) (hi : .stop .draining ∈ rest → g.isInside c = false) :
    Sound c { stack := g :: rest, current } b where
  current := hcur
  chained := hch
  waits {n _} he := by
    obtain ⟨he, -⟩ := List.cons.inj he
    simpa [Thread.isInContext] using hw n he
  drains hm := by
    obtain hm | hm := List.mem_cons.mp hm
    · exact hd hm.symm
    · exact h.drains (by rw [Draining, hs]; exact List.mem_cons_of_mem _ hm)
  above := by
    have ha := h.above
    rw [hs] at ha
    exact List.pairwise_cons.mpr ⟨fun f hf he => hi (he ▸ hf), ha.of_cons⟩

theorem Sound.not_inside_top (h : th.Sound c b) (hs : th.stack = f :: rest)
    (hm : .stop .draining ∈ rest) : f.isInside c = false := by
  have ha := h.above
  rw [hs] at ha
  exact (List.pairwise_cons.mp ha).1 _ hm rfl

theorem Live.not_gone (h : th.Live c) : ¬th.Gone c := by
  obtain ⟨f, hf, hl⟩ := h
  intro hg
  have hin := Frame.isInside_of_isLive hl
  simp [hg f hf] at hin

theorem gone_of_runs (h : th.runs c = 0) : th.Gone c := by
  intro f hf
  have hr := List.countP_eq_zero.mp h f hf
  cases f
  case run _ p => cases p <;> simp_all [Frame.isRun, Frame.isInside]
  all_goals rfl

theorem Gone.of_subset {th' : Thread κ} (h : th.Gone c) (hs : ∀ f ∈ th'.stack, f ∈ th.stack) :
    th'.Gone c :=
  fun f hf => h f (hs f hf)

theorem Gone.push (h : th.Gone c) (hg : g.isInside c = false) : (th.push g).Gone c := by
  intro f hf
  obtain rfl | hf := List.mem_cons.mp hf
  · exact hg
  · exact h f hf

theorem Live.push (h : th.Live c) : (th.push g).Live c := by
  obtain ⟨f, hf, hl⟩ := h
  exact ⟨f, List.mem_cons_of_mem _ hf, hl⟩

omit [DecidableEq κ] in
theorem draining_push (hg : g ≠ .stop .draining) : (th.push g).Draining ↔ th.Draining :=
  ⟨fun hd => (List.mem_cons.mp hd).resolve_left (Ne.symm hg), List.mem_cons_of_mem _⟩

end Thread

namespace State

variable (c : κ) (s : State τ κ)

structure Safe : Prop extends Counts c s where
  stopped : s.stopped → s.lifeState
  sound : ∀ t, (s.threads t).Sound c s.lifeState
  exclusive : ∀ {t u}, (s.threads u).Draining → t ≠ u → (s.threads t).Gone c

-- The last call of the thread is one of `stop`.
def Stops (t : τ) : Prop :=
  ∃ p rest, (s.threads t).stack = .stop p :: rest

-- A step of one thread. Once the stopping state is published nobody gets into `run_native_loop`, a
-- native context is left by `release_worker_slot` only, and a thread begins to drain when the others are
-- gone and goes on until the stop is over.
structure Goes (a : Action τ κ) (t : τ) (s s' : State τ κ) : Prop extends Touches c t s s' where
  closes : s.lifeState → s'.lifeState
  closed : s'.lifeState → s.lifeState ∨ a = .publishStopping t
  elects : s'.elected = some t → s.elected = some t ∨ a = .callStop t ∧ s.stopRequested = false ∧
    ((s.threads t).Gone c → (s'.threads t).Gone c)
  ends : s'.stopped → s.stopped ∨ a = .drained t ∧ (s.threads t).Draining
  sound : (s'.threads t).Sound c s'.lifeState
  gone : s.lifeState ∨ s.Stops t → (s.threads t).Gone c → (s'.threads t).Gone c
  live : (s.threads t).Live c → (s'.threads t).Live c ∨
    a = .releaseWorkerSlot t ∧ (s.threads t).stack = .run c .closing :: (s'.threads t).stack
  drains : (s'.threads t).Draining → (s.threads t).Draining ∨
    a = .workersGone t ∧ ∀ u ≠ t, (s.threads u).Gone c
  keeps : (s.threads t).Draining → (s'.threads t).Draining ∨ a = .drained t

variable {c s} {s' : State τ κ} {a : Action τ κ} {t u : τ} {th : Thread κ} {b : Bool} {ctx : κ}
  {r : State τ κ} {rest : List (Frame κ)} {f g : Frame κ}

theorem safe_init : Safe c ({} : State τ κ) where
  toCounts := counts_init
  stopped := by simp
  sound _ := ⟨rfl, trivial, by simp, by simp [Thread.Draining], .nil⟩
  exclusive h := by simp [Thread.Draining] at h

-- Until the stopping state is published the elected thread is in the call of `stop`, not in a receiver.
theorem Safe.stops_of_elected (h : s.Safe c) (he : s.elected = some t) (hl : s.lifeState = false) :
    s.Stops t := by
  have hone := h.stops t
  rw [if_pos he] at hone
  obtain ⟨f, hf, hstop⟩ := List.countP_pos_iff.mp (show 0 < (s.threads t).stops by omega)
  obtain ⟨p, rfl⟩ : ∃ p, f = .stop p := by
    cases f
    case stop p => exact ⟨p, rfl⟩
    all_goals cases hstop
  cases hs : (s.threads t).stack
  case nil => simp [hs] at hf
  case cons g rest =>
    rw [hs] at hf
    obtain rfl | hf := List.mem_cons.mp hf
    · exact ⟨p, rest, hs⟩
    · have hr := h.below_rest hs (.stop p) hf
      obtain rfl : p = .draining := by cases p <;> first | rfl | cases hr
      have hd := (h.sound t).drains (by rw [Thread.Draining, hs]; exact List.mem_cons_of_mem _ hf)
      simp [hl] at hd

-- A stop that still waits is the only one.
theorem Safe.not_draining_of_waiting {n : Nat} (h : s.Safe c)
    (hs : (s.threads t).stack = .stop (.waiting n) :: rest) : ¬(s.threads u).Draining := by
  intro hd
  have he := h.elected_of_stop hs
  obtain rfl : t = u := Option.some.inj (he.symm.trans (h.elected_of_mem hd))
  rw [Thread.Draining, hs] at hd
  exact List.countP_eq_zero.mp (h.countP_isStop_of_stop hs) _
    ((List.mem_cons.mp hd).resolve_left (by simp)) rfl

theorem Safe.sound_of_closes (h : s.Safe c) (hb : s.lifeState → b) : (s.threads t).Sound c b := by
  have hs := h.sound t
  cases hl : s.lifeState
  case true  => exact hb hl ▸ hl ▸ hs
  case false =>
    rw [hl] at hs
    cases b
    case true  => exact hs.closed
    case false => exact hs

theorem Goes.safe (hg : Goes c a t s s') (h : s.Safe c) : s'.Safe c where
  toCounts := hg.counts h.toCounts
  stopped hst := by
    obtain hst | ⟨-, hd⟩ := hg.ends hst
    · exact hg.closes (h.stopped hst)
    · exact hg.closes ((h.sound t).drains hd)
  sound u := by
    by_cases hu : u = t
    case pos => exact hu ▸ hg.sound
    case neg => exact hg.others hu ▸ h.sound_of_closes hg.closes
  exclusive {v u} hd hv := by
    by_cases hu : u = t
    case pos =>
      subst hu
      rw [hg.others hv]
      obtain hd | ⟨-, hall⟩ := hg.drains hd
      · exact h.exclusive hd hv
      · exact hall v hv
    case neg =>
      rw [hg.others hu] at hd
      have hgone := h.exclusive hd hv
      by_cases hvt : v = t
      case pos =>
        subst hvt
        exact hg.gone (.inl ((h.sound u).drains hd)) hgone
      case neg => exact hg.others hvt ▸ hgone

-- The election and the flags but for the stopping state stay as they are.
theorem Goes.setThread (ht : Touches c t s (r.setThread t th)) (he : r.elected = s.elected)
    (hst : r.stopped = s.stopped) (hb : s.lifeState → r.lifeState)
    (hb' : r.lifeState → s.lifeState ∨ a = .publishStopping t) (hs : th.Sound c r.lifeState)
    (hg : s.lifeState ∨ s.Stops t → (s.threads t).Gone c → th.Gone c)
    (hl : (s.threads t).Live c → th.Live c ∨
      a = .releaseWorkerSlot t ∧ (s.threads t).stack = .run c .closing :: th.stack)
    (hd : th.Draining → (s.threads t).Draining ∨ a = .workersGone t ∧ ∀ u ≠ t, (s.threads u).Gone c)
    (hk : (s.threads t).Draining → th.Draining) : Goes c a t s (r.setThread t th) where
  toTouches := ht
  closes := hb
  closed := hb'
  elects hel := .inl (he ▸ hel)
  ends hst' := .inl (hst ▸ hst')
  sound := by rwa [setThread_self]
  gone := by rwa [setThread_self]
  live := by rwa [setThread_self]
  drains := by rwa [setThread_self]
  keeps hd := .inl (by rw [setThread_self]; exact hk hd)

omit [DecidableEq τ] in
theorem enter_frame : (s.enter c t ctx).elected = s.elected ∧ (s.enter c t ctx).stopped = s.stopped ∧
    (s.enter c t ctx).lifeState = s.lifeState := by
  unfold enter
  split <;> exact ⟨rfl, rfl, rfl⟩

theorem release_frame : (s.release c t ctx).elected = s.elected ∧
    (s.release c t ctx).stopped = s.stopped ∧ (s.release c t ctx).lifeState = s.lifeState := by
  unfold release
  split <;> exact ⟨rfl, rfl, rfl⟩

-- The thread returns from its last call, which is no stop.
theorem Safe.pop (h : s.Safe c) (hs : (s.threads t).stack = f :: rest)
    (ht : Touches c t s (r.setThread t { s.threads t with stack := rest }))
    (hr : r.elected = s.elected ∧ r.stopped = s.stopped ∧ r.lifeState = s.lifeState)
    (hf : ∀ ctx p, f ≠ .run ctx (.looping p)) (hd : f ≠ .stop .draining)
    (hl : f.isLive c → a = .releaseWorkerSlot t ∧ f = .run c .closing) :
    Goes c a t s (r.setThread t { s.threads t with stack := rest }) := by
  obtain ⟨he, hst, hlife⟩ := hr
  have hsub : ∀ f ∈ rest, f ∈ (s.threads t).stack := fun f hf => hs ▸ List.mem_cons_of_mem _ hf
  refine .setThread ht he hst (hlife ▸ id) (hlife ▸ .inl)
    (hlife ▸ (h.sound t).pop hs hf (h.free_of_pop hs)) (fun _ hg => hg.of_subset hsub) ?_
    (fun hd => .inl (hsub _ hd)) fun hm => ?_
  · rintro ⟨g, hg, hlive⟩
    rw [hs] at hg ⊢
    obtain rfl | hg := List.mem_cons.mp hg
    · exact .inr ((hl hlive).imp_right fun hf => by rw [hf])
    · exact .inl ⟨g, hg, hlive⟩
  · rw [Thread.Draining, hs] at hm
    exact (List.mem_cons.mp hm).resolve_left (Ne.symm hd)

-- The thread makes a call that neither drains nor is inside of the loop.
theorem Safe.push (h : s.Safe c) (ht : Touches c t s (r.setThread t ((s.threads t).push g)))
    (hr : r.elected = s.elected ∧ r.stopped = s.stopped ∧ r.lifeState = s.lifeState)
    (hin : g.isInside c = false) (hlp : ∀ ctx p, g ≠ .run ctx (.looping p)) (hw : ∀ p, g ≠ .stop p) :
    Goes c a t s (r.setThread t ((s.threads t).push g)) := by
  obtain ⟨he, hst, hlife⟩ := hr
  exact .setThread ht he hst (hlife ▸ id) (hlife ▸ .inl)
    (hlife ▸ (h.sound t).push hlp (fun p hp => absurd hp (hw p)) hin) (fun _ hg => hg.push hin)
    (fun hl => .inl hl.push) (fun hd => .inl ((Thread.draining_push (hw _)).mp hd))
    (Thread.draining_push (hw _)).mpr

-- The last call of the thread goes on, without beginning to drain.
theorem Safe.setTop {current : Option κ} (h : s.Safe c) (hs : (s.threads t).stack = f :: rest)
    (ht : Touches c t s (({ s with lifeState := b } : State τ κ).setThread t
      { stack := g :: rest, current }))
    (hb : s.lifeState → b) (hb' : b → s.lifeState ∨ a = .publishStopping t) (hf : f ≠ .stop .draining)
    (hcur : current = looper (g :: rest)) (hch : Chained (g :: rest))
    (hw : ∀ n, g = .stop (.waiting n) → b ∧ n = if current = some c then 1 else 0)
    (hd : g ≠ .stop .draining)
    (hi : s.lifeState ∨ f.isStop → f.isInside c = false → g.isInside c = false)
    (hl : f.isLive c → g.isLive c) :
    Goes c a t s (({ s with lifeState := b } : State τ κ).setThread t
      { stack := g :: rest, current }) := by
  have hsound := h.sound t
  refine .setThread ht rfl rfl hb hb' ?_ (fun hlife hg => ?_) ?_ (fun hm => .inl ?_) fun hm => ?_
  · refine (h.sound_of_closes hb).setTop hs hcur hch hw (fun he => absurd he hd) fun hm => ?_
    have hl := hsound.drains (by rw [Thread.Draining, hs]; exact List.mem_cons_of_mem _ hm)
    exact hi (.inl hl) (hsound.not_inside_top hs hm)
  · intro x hx
    obtain rfl | hx := List.mem_cons.mp hx
    · refine hi (hlife.imp_right ?_) (hg f (hs ▸ List.mem_cons_self))
      rintro ⟨p, l, he⟩
      rw [hs] at he
      rw [(List.cons.inj he).1]
      rfl
    · exact hg x (hs ▸ List.mem_cons_of_mem _ hx)
  · rintro ⟨x, hx, hlx⟩
    rw [hs] at hx
    obtain rfl | hx := List.mem_cons.mp hx
    · exact .inl ⟨g, List.mem_cons_self, hl hlx⟩
    · exact .inl ⟨x, List.mem_cons_of_mem _ hx, hlx⟩
  · obtain hm | hm := List.mem_cons.mp hm
    · exact absurd hm.symm hd
    · rw [Thread.Draining, hs]
      exact List.mem_cons_of_mem _ hm
  · rw [Thread.Draining, hs] at hm
    exact List.mem_cons_of_mem _ ((List.mem_cons.mp hm).resolve_left (Ne.symm hf))

theorem Safe.setRun {p q : RunPhase κ} {current : Option κ} (h : s.Safe c)
    (hs : (s.threads t).stack = .run ctx p :: rest)
    (ht : Touches c t s (s.setThread t { stack := .run ctx q :: rest, current }))
    (hcur : current = looper (.run ctx q :: rest)) (hch : Chained (.run ctx q :: rest))
    (hi : s.lifeState → (Frame.run ctx p).isInside c = false → (Frame.run ctx q).isInside c = false)
    (hl : (Frame.run ctx p).isLive c → (Frame.run ctx q).isLive c) :
    Goes c a t s (s.setThread t { stack := .run ctx q :: rest, current }) :=
  h.setTop hs ht id .inl (by simp) hcur hch nofun nofun (fun hl => hi (hl.resolve_right nofun)) hl

theorem Safe.setStop {p q : StopPhase} (h : s.Safe c) (hs : (s.threads t).stack = .stop p :: rest)
    (ht : Touches c t s (({ s with lifeState := b } : State τ κ).setThread t
      { s.threads t with stack := .stop q :: rest }))
    (hb : s.lifeState → b) (hb' : b → s.lifeState ∨ a = .publishStopping t)
    (hp : p ≠ .draining) (hq : q ≠ .draining)
    (hw : ∀ n, q = .waiting n → b ∧ n = if (s.threads t).isInContext c then 1 else 0) :
    Goes c a t s (({ s with lifeState := b } : State τ κ).setThread t
      { s.threads t with stack := .stop q :: rest }) := by
  have hcur := (h.sound t).current
  have hch := (h.sound t).chained
  rw [hs] at hcur hch
  refine h.setTop hs ht hb hb' (fun he => hp (Frame.stop.inj he)) hcur hch (fun n hn => ?_)
    (fun he => hq (Frame.stop.inj he)) (fun _ _ => rfl) nofun
  simpa [Thread.isInContext] using hw n (Frame.stop.inj hn)

-- The wait for the workers ends: what is left of the counter is the thread's own.
theorem Safe.others_gone {n : Nat} (h : s.Safe c) (hs : (s.threads u).stack = .stop (.waiting n) :: rest)
    (hn : ¬s.runningWorkers > n) : ∀ t ≠ u, (s.threads t).Gone c := by
  intro t ht
  have hsu := h.sound u
  obtain ⟨-, hself⟩ := hsu.waits hs
  have hcount : s.counted.count t = 0 := by
    have hlen : s.counted.count t + s.counted.count u ≤ s.counted.length := by
      have := List.count_le_length (a := t) (l := s.counted.filter (· ≠ u))
      have hf : (s.counted.filter (· ≠ u)).count t = s.counted.count t :=
        List.count_filter (by simpa using ht)
      have hsplit := List.length_eq_countP_add_countP (· ≠ u) (l := s.counted)
      have hu : s.counted.countP (fun x => ¬(decide (x ≠ u)) = true) = s.counted.count u := by
        rw [List.count]
        congr 1
        funext x
        simp [beq_eq_decide]
      rw [← List.countP_eq_length_filter] at this
      omega
    have hrun := h.running
    by_cases hc : (s.threads u).isInContext c
    case pos =>
      have hpos := hsu.runs_pos hc
      rw [h.runs u] at hpos
      rw [if_pos hc] at hself
      omega
    case neg =>
      rw [if_neg hc] at hself
      omega
  exact Thread.gone_of_runs ((h.runs t).trans hcount)

theorem Safe.drain {n : Nat} (h : s.Safe c) (hs : (s.threads t).stack = .stop (.waiting n) :: rest)
    (hn : ¬s.runningWorkers > n)
    (ht : Touches c t s (s.setThread t { s.threads t with stack := .stop .draining :: rest })) :
    Goes c (.workersGone t) t s
      (s.setThread t { s.threads t with stack := .stop .draining :: rest }) := by
  have hsound := h.sound t
  have hlife := (hsound.waits hs).1
  have hch : Chained rest := by simpa [hs, Chained] using hsound.chained
  refine .setThread ht rfl rfl id .inl (hsound.setTop hs ?_ hch nofun (fun _ => hlife) fun _ => rfl)
    (fun _ hg => ?_) ?_ (fun _ => .inr ⟨rfl, h.others_gone hs hn⟩) fun _ => List.mem_cons_self
  · simp [hsound.current, hs, looper]
  · intro f hf
    obtain rfl | hf := List.mem_cons.mp hf
    · rfl
    · exact hg f (hs ▸ List.mem_cons_of_mem _ hf)
  · rintro ⟨f, hf, hl⟩
    rw [hs] at hf
    obtain rfl | hf := List.mem_cons.mp hf
    · cases hl
    · exact .inl ⟨f, List.mem_cons_of_mem _ hf, hl⟩

theorem Safe.finish (h : s.Safe c) (hs : (s.threads t).stack = .stop .draining :: rest)
    (ht : Touches c t s (({ s with stopped := true, elected := none } : State τ κ).setThread t
      { s.threads t with stack := rest })) :
    Goes c (.drained t) t s (({ s with stopped := true, elected := none } : State τ κ).setThread t
      { s.threads t with stack := rest }) := by
  have hd : (s.threads t).Draining := by rw [Thread.Draining, hs]; exact List.mem_cons_self
  have hsub : ∀ f ∈ rest, f ∈ (s.threads t).stack := fun f hf => hs ▸ List.mem_cons_of_mem _ hf
  exact {
    toTouches := ht
    closes := id
    closed := .inl
    elects := by simp [State.setThread]
    ends := fun _ => .inr ⟨rfl, hd⟩
    sound := by rw [setThread_self]; exact (h.sound t).pop hs (by simp) (h.free_of_pop hs)
    gone := fun _ hg => by rw [setThread_self]; exact hg.of_subset hsub
    live := by
      rintro ⟨f, hf, hl⟩
      rw [hs] at hf
      obtain rfl | hf := List.mem_cons.mp hf
      · cases hl
      · exact .inl ⟨f, by rwa [setThread_self], hl⟩
    drains := fun _ => .inl hd
    keeps := fun _ => .inr rfl }

theorem Safe.elect (h : s.Safe c) (hr : s.stopRequested = false)
    (ht : Touches c t s (({ s with stopRequested := true, elected := some t } : State τ κ).setThread t
      ((s.threads t).push (.stop .aborting)))) :
    Goes c (.callStop t) t s
      (({ s with stopRequested := true, elected := some t } : State τ κ).setThread t
        ((s.threads t).push (.stop .aborting))) where
  toTouches := ht
  closes := id
  closed := .inl
  elects _ := .inr ⟨rfl, hr, by rw [setThread_self]; exact fun hg => hg.push rfl⟩
  ends := .inl
  sound := by rw [setThread_self]; exact (h.sound t).push (by simp) (by simp) rfl
  gone _ hg := by rw [setThread_self]; exact hg.push rfl
  live hl := .inl (by rw [setThread_self]; exact hl.push)
  drains hd := .inl (by rwa [setThread_self, Thread.draining_push (by simp)] at hd)
  keeps hd := .inl (by rwa [setThread_self, Thread.draining_push (by simp)])

theorem Safe.goes (h : s.Safe c) (hs : s.step c a = some s') : Goes c a a.thread s s' := by
  replace hs := step_steps hs
  have ht := h.touches hs
  have hcur := fun t => (h.sound t).current
  have hch := fun t => (h.sound t).chained
  cases hs
  all_goals simp only [Action.thread] at ht ⊢
  case enter hf       => exact h.push ht enter_frame rfl (by simp) (by simp)
  case await hf hr    => exact h.push ht ⟨rfl, rfl, rfl⟩ rfl (by simp) (by simp)
  case elect hf hr    => exact h.elect hr ht
  case refuse hs      => exact h.pop hs ht release_frame (by simp) (by simp) (by simp [Frame.isLive])
  case release hs     => exact h.pop hs ht release_frame (by simp) (by simp) (by simp [Frame.isLive])
  case see hs         => exact h.pop hs ht ⟨rfl, rfl, rfl⟩ (by simp) (by simp) (by simp [Frame.isLive])
  case start t ctx rest hs hl =>
    refine h.setRun hs ht (by simpa [hs, looper] using hcur t) (by simpa [hs, Chained] using hch t)
      (fun hlife _ => ?_) (by simp [Frame.isLive])
    -- the flag is read: the stopping state would have sent the call back
    by_cases he : ctx = c
    case pos => simp [hl he] at hlife
    case neg => simp [Frame.isInside, he]
  case skip t _ _ ctx rest hs =>
    exact h.setRun hs ht (by simpa [hs, looper] using hcur t) (by simpa [hs, Chained] using hch t)
      (fun _ hf => hf) (by simp [Frame.isLive])
  case loop t _ _ ctx rest hs =>
    refine h.setRun hs ht rfl ⟨by simpa [hs, looper] using hcur t, ?_⟩ (fun _ hf => hf)
      (by simp [Frame.isLive])
    simpa [hs, Chained] using hch t
  case leave t ctx previous rest hs =>
    have hch := hch t
    rw [hs] at hch
    exact h.setRun hs ht hch.1 hch.2 (fun _ hf => hf) id
  case abort hs   => exact h.setStop hs ht id .inl (by simp) (by simp) (by simp)
  case publish hs =>
    exact h.setStop hs ht (fun _ => rfl) (fun _ => .inr rfl) (by simp) (by simp) fun n hn =>
      ⟨rfl, (StopPhase.waiting.inj hn).symm⟩
  case drain hs hn => exact h.drain hs hn ht
  case finish hs   => exact h.finish hs ht

theorem Safe.step (h : s.Safe c) (hs : s.step c a = some s') : s'.Safe c :=
  (h.goes hs).safe h

end State

-- While a thread drains the shared queues, no other thread is in `run_native_loop` of the context.
theorem drain_exclusive (c : κ) (as : List (Action τ κ)) :
    System.Always (State.step c)
      (fun s => ∀ t u, (s.threads u).Draining → t ≠ u → (s.threads t).Gone c) {} as :=
  .of_invariant State.Safe.step (fun h _ _ => h.exclusive) State.safe_init

end Bnio.Posix.StopElection

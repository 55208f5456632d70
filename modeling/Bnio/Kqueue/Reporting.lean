import Bnio.Kqueue.Results

namespace Bnio.Kqueue

-- What a receiver is told. An error code is an errno of the generic category.
inductive Delivery
  | setValue (ec : Option Int) (result : Int) (flags : Nat)
  | setStopped
  deriving DecidableEq, Repr

def errnoResult (result : Int) : Option Int :=
  some (-result)

namespace Operation

-- `native_io_operation::execute`. `stopRequested` is the state of the receiver's stop token.
def execute (o : Operation) (stopRequested : Bool) : Delivery :=
  match o.completion with
  | .value   =>
    if o.result < 0 then .setValue (errnoResult o.result) o.result o.flags
    else .setValue none o.result o.flags
  | .error r => .setValue (errnoResult r) o.result o.flags
  | .stopped => if stopRequested then .setStopped else .setValue (some ecanceled) (-1) 0

-- An operation that waits has made only I/O steps that had nothing to do.
def Waits (o : Operation) (calls : List Int) : Prop :=
  o.completion = .value ∧ ∀ c ∈ calls, c = -eagain

-- An operation that is over holds the result of the I/O step that did something, which is its last
-- one, or there was no such step and it holds no success.
def Told (o : Operation) (calls : List Int) : Prop :=
  (∃ blocked, calls = blocked ++ [o.result] ∧ (∀ c ∈ blocked, c = -eagain) ∧ o.result ≠ -eagain ∧
    o.completion = .value) ∨
  (∀ c ∈ calls, c = -eagain) ∧ (o.request.moves → o.completion = .value → o.result < 0)

variable {o o' : Operation} {calls new : List Int}

theorem Waits.stays (h : o.Waits calls) (hs : o.Stays o') (hn : ∀ c ∈ new, c = -eagain) :
    o'.Waits (calls ++ new) := by
  refine ⟨hs.2.trans h.1, fun c hc => ?_⟩
  obtain hc | hc := List.mem_append.mp hc
  · exact h.2 c hc
  · exact hn c hc

theorem Waits.drops (h : o.Waits calls) (hd : o.Drops o') : o'.Told calls := by
  refine .inr ⟨h.2, fun hm hv => ?_⟩
  obtain ⟨r, _, he⟩ | he | ⟨_, hno⟩ := hd.2
  · simp [he] at hv
  · simp [he] at hv
  · rw [hd.1, hno] at hm
    cases hm

theorem Waits.answers (h : o.Waits calls) (hs : o.Stays o')
    (ha : Context.Answers o.request.prepare.task new o'.result) : o'.Told (calls ++ new) := by
  obtain ⟨hr, rfl⟩ | ⟨hn, hr⟩ := ha
  · exact .inl ⟨calls, rfl, h.2, hr, hs.2.trans h.1⟩
  · refine .inr ⟨(h.stays hs hn).2, fun hm _ => hr ?_⟩
    exact (Context.prepare_of_moves (hs.1 ▸ hm)).2.2

theorem Told.congr (h : o.Told calls) (he : o'.outcome = o.outcome) : o'.Told calls := by
  have hs := Stays.of_outcome he
  unfold Told
  rw [hs.1, hs.2, result_eq he]
  exact h

theorem execute_of_value (h : o.completion = .value) (token : Bool) : o.execute token =
    .setValue (if o.result < 0 then errnoResult o.result else none) o.result o.flags := by
  simp only [execute, h]
  split <;> rfl

-- A success that is delivered is the result of the operation.
theorem value_of_execute {token : Bool} {r : Int} {flags : Nat}
    (h : o.execute token = .setValue none r flags) : o.completion = .value ∧ o.result = r ∧ 0 ≤ r := by
  cases hc : o.completion
  case value     =>
    rw [execute_of_value hc] at h
    obtain ⟨he, rfl, -⟩ := Delivery.setValue.inj h
    refine ⟨rfl, rfl, Int.not_lt.mp fun hneg => ?_⟩
    simp [hneg, errnoResult] at he
  case error e   => simp [execute, hc, errnoResult] at h
  case stopped   => cases token <;> simp [execute, hc] at h

theorem Told.delivers (h : o.Told calls) (token : Bool) :
    (∀ c ∈ calls.dropLast, c = -eagain) ∧
      (∀ r, calls.getLast? = some r → r ≠ -eagain → o.execute token =
        .setValue (if r < 0 then errnoResult r else none) r o.flags) ∧
      (o.request.moves → ∀ r flags, o.execute token = .setValue none r flags →
        calls.getLast? = some r) := by
  obtain ⟨blocked, rfl, hb, hr, hv⟩ | ⟨hb, hm⟩ := h
  · refine ⟨by simpa using hb, fun r hl _ => ?_, fun _ r _ he => ?_⟩
    · obtain rfl : o.result = r := by simpa using hl
      exact execute_of_value hv token
    · simpa using (value_of_execute he).2.1
  · refine ⟨fun c hc => hb c (List.mem_of_mem_dropLast hc), fun r hl hr => ?_, fun hmoves r _ he => ?_⟩
    · exact absurd (hb r (List.mem_of_getLast? hl)) hr
    · obtain ⟨hv, rfl, hpos⟩ := value_of_execute he
      exact absurd (hm hmoves hv) (Int.not_lt.mpr hpos)

end Operation

-- What the log `l` holds of an operation.
def calls (l : List (OpId × Int)) (op : OpId) : List Int :=
  (l.filter (·.1 = op)).map Prod.snd

theorem calls_append {l l' : List (OpId × Int)} {op : OpId} :
    calls (l ++ l') op = calls l op ++ calls l' op := by
  simp [calls]

-- An event that the kernel may report.
def WorkerAction.Sound : WorkerAction → Prop
  | .work i => ∀ e ∈ i.events, e.Sound
  | _       => True

instance (a : WorkerAction) : Decidable a.Sound := by
  unfold WorkerAction.Sound
  split <;> infer_instance

namespace Worker

variable {w w' : Worker} {a : WorkerAction} {i : Input} {site : Site} {l L : List (OpId × Int)}
  {P : List (OpId × Request)}

-- The I/O steps of a step of the worker, with what they return.
def performed (w : Worker) : WorkerAction → List (OpId × Int)
  | .work i =>
    match w.pc, w.events with
    | .process _, e :: _ =>
      match e.udata with
      | .operation op =>
        match w.ctx.findFiredNode op e.filter with
        | some n => (Context.steps (i.env op) e op (w.ctx.regs n).task).map (op, ·)
        | none   => []
      | _             => []
    | _,          _      => []
  | _       => []

-- What becomes of the records of the operations in a step that starts those of `P` and makes the I/O
-- steps of `L`.
structure Turns (w w' : Worker) (P : List (OpId × Request)) (L : List (OpId × Int)) : Prop where
  starts : ∀ {op r}, (op, r) ∈ P → w'.ctx.ops op = { request := r } ∧ op ∈ w'.waiting ∧ calls L op = []
  stays : ∀ {op}, op ∉ P.map Prod.fst → op ∈ w'.waiting →
    (w.ctx.ops op).Stays (w'.ctx.ops op) ∧ ∀ c ∈ calls L op, c = -eagain
  ends : ∀ {op}, op ∈ w.waiting → op ∈ w'.pushed →
    (w.ctx.ops op).Drops (w'.ctx.ops op) ∧ calls L op = [] ∨
    (w.ctx.ops op).Stays (w'.ctx.ops op) ∧
      Context.Answers (w.ctx.ops op).request.prepare.task (calls L op) (w'.ctx.ops op).result
  same : ∀ {op}, op ∉ P.map Prod.fst → op ∉ w.waiting →
    (w'.ctx.ops op).outcome = (w.ctx.ops op).outcome ∧ calls L op = []

structure Reported (w : Worker) (l : List (OpId × Int)) : Prop where
  kept : w.Kept
  sound : ∀ e ∈ w.events, e.Sound
  tasked : w.ctx.Tasked
  fresh : ∀ {op}, op ∉ w.held → (w.ctx.ops op).request.moves = false ∧
    (w.ctx.ops op).completion = .value ∧ calls l op = []
  waiting : ∀ {op}, op ∈ w.waiting → (w.ctx.ops op).Waits (calls l op)
  pushed : ∀ {op}, op ∈ w.pushed → (w.ctx.ops op).Told (calls l op)

theorem mem_held {op : OpId} : op ∈ w.held ↔ op ∈ w.waiting ∨ op ∈ w.pushed := by
  rw [held_eq, List.mem_append]

theorem Kept.disjoint {op : OpId} (h : w.Kept) (hw : op ∈ w.waiting) : op ∉ w.pushed := fun hp =>
  (List.nodup_append.mp (held_eq ▸ h.nodup)).2.2 op hw op hp rfl

theorem Reported.next (h : w.Reported l) (hs : Worker.step w a = some w') (ht : w.Turns w' P L)
    (hP : w.publishesIo a = P.map Prod.fst) (hsound : ∀ e ∈ w'.events, e.Sound) (htask : w'.ctx.Tasked) :
    w'.Reported (l ++ L) := by
  obtain ⟨hk, hheld⟩ := h.kept.next hs
  obtain ⟨M, hM, -⟩ := (h.kept.step hs).1.moved
  have hwas : ∀ {op}, op ∉ P.map Prod.fst → op ∈ w'.waiting → op ∈ w.waiting := fun {op} hop hw => by
    have hm := hM.mem_iff.mpr (List.mem_append_right M hw)
    rw [hP] at hm
    exact (List.mem_append.mp hm).resolve_left hop
  have hstart : ∀ {op}, op ∈ P.map Prod.fst → op ∈ w'.waiting := fun hop => by
    obtain ⟨⟨op, r⟩, hp, rfl⟩ := List.mem_map.mp hop
    exact (ht.starts hp).2.1
  have hsub : ∀ {op}, op ∈ w.held → op ∈ w'.held := fun hop =>
    hheld.mem_iff.mpr (List.mem_append_right _ hop)
  refine ⟨hk, hsound, htask, fun {op} hop => ?_, fun {op} hop => ?_, fun {op} hop => ?_⟩ <;>
    rw [calls_append]
  · have hnP : op ∉ P.map Prod.fst := fun hm => hop (mem_held.mpr (.inl (hstart hm)))
    have hnw : op ∉ w.waiting := fun hm => hop (hsub (mem_held.mpr (.inl hm)))
    obtain ⟨ho, hc⟩ := ht.same hnP hnw
    obtain ⟨h₁, h₂, h₃⟩ := h.fresh fun hm => hop (hsub hm)
    obtain ⟨hq, hcomp⟩ := Operation.Stays.of_outcome ho
    exact ⟨hq ▸ h₁, hcomp.trans h₂, by rw [hc, h₃]; rfl⟩
  · by_cases hnP : op ∈ P.map Prod.fst
    case pos =>
      obtain ⟨⟨op, r⟩, hp, rfl⟩ := List.mem_map.mp hnP
      obtain ⟨ho, -, hc⟩ := ht.starts hp
      have hf := (h.kept.step hs).2.2 op (List.mem_append_left _ (hP ▸ hnP))
      rw [ho, hc, (h.fresh hf).2.2]
      exact ⟨rfl, by simp⟩
    case neg =>
      obtain ⟨ho, hc⟩ := ht.stays hnP hop
      exact (h.waiting (hwas hnP hop)).stays ho hc
  · have hnP : op ∉ P.map Prod.fst := fun hm => hk.disjoint (hstart hm) hop
    by_cases hw : op ∈ w.waiting
    case pos =>
      obtain ⟨hd, hc⟩ | ⟨ho, ha⟩ := ht.ends hw hop
      · rw [hc, List.append_nil]
        exact (h.waiting hw).drops hd
      · exact (h.waiting hw).answers ho ha
    case neg =>
      obtain ⟨ho, hc⟩ := ht.same hnP hw
      rw [hc, List.append_nil]
      refine Operation.Told.congr ?_ ho
      by_cases hp : op ∈ w.pushed
      case pos => exact h.pushed hp
      case neg =>
        obtain ⟨h₁, -, h₃⟩ := h.fresh fun hm => (mem_held.mp hm).elim hw hp
        exact .inr ⟨by simp [h₃], by simp [h₁]⟩

-- Neither a record nor the waiting operations change.
theorem Turns.of_ops (hk : w'.Kept) (ho : w'.ctx.ops = w.ctx.ops) (hw : w'.waiting = w.waiting) :
    w.Turns w' [] [] where
  starts     := by simp
  stays _ _  := by rw [ho]; exact ⟨⟨rfl, rfl⟩, by simp [calls]⟩
  ends hm hp := absurd hp (hk.disjoint (hw ▸ hm))
  same _ _   := by rw [ho]; exact ⟨rfl, rfl⟩

-- The operations of `F` are given up, those of `T` are completed by the I/O steps of `L`.
theorem Turns.of_records {X T F : List OpId} (hk : w.Kept) (hk' : w'.Kept) (hheld : w'.held.Perm w.held)
    (hr : w.ctx.Records w'.ctx X F) (hX : X ⊆ w.waiting) (hp : w'.pushed.Perm (T ++ (F ++ w.pushed)))
    (hL : ∀ {op}, op ∉ X → calls L op = []) (hF : ∀ {op}, op ∈ F → calls L op = [])
    (hagain : ∀ {op}, op ∈ w'.waiting → ∀ c ∈ calls L op, c = -eagain)
    (hT : ∀ {op}, op ∈ T → Context.Answers (w.ctx.ops op).request.prepare.task (calls L op)
      (w'.ctx.ops op).result) : w.Turns w' [] L := by
  have hnd : (T ++ (F ++ w.pushed)).Nodup :=
    hp.nodup_iff.mp (List.nodup_append.mp (held_eq ▸ hk'.nodup)).2.1
  have hFp : ∀ {op}, op ∈ F → op ∉ w.pushed := fun hm hp =>
    (List.nodup_append.mp (List.nodup_append.mp hnd).2.1).2.2 _ hm _ hp rfl
  have hF' : ∀ {op}, op ∈ F → op ∈ w'.pushed := fun hm => hp.mem_iff.mpr (by simp [hm])
  refine ⟨by simp, fun {op} _ hw => ?_, fun {op} hw hpush => ?_, fun {op} _ hw => ?_⟩
  · exact ⟨hr.stays fun hm => hk'.disjoint hw (hF' hm), hagain hw⟩
  · obtain hm | hm : op ∈ T ∨ op ∈ F := by
      have hm := hp.mem_iff.mp hpush
      simp only [List.mem_append] at hm
      exact hm.imp_right (·.resolve_right (hk.disjoint hw))
    · have hnF : op ∉ F := fun hf =>
        (List.nodup_append.mp hnd).2.2 _ hm _ (List.mem_append_left _ hf) rfl
      exact .inr ⟨hr.stays hnF, hT hm⟩
    · exact .inl ⟨hr.drops hm, hF hm⟩
  · have hnX : op ∉ X := fun hm => hw (hX hm)
    have hnF : op ∉ F := fun hm => by
      have hh := hheld.mem_iff.mp (mem_held.mpr (.inr (hF' hm)))
      exact hFp hm ((mem_held.mp hh).resolve_left hw)
    exact ⟨hr.same hnX hnF, hL hnX⟩

theorem Resumes.frame (h : w.Resumes w') : w'.ctx = w.ctx ∧ w'.events = w.events ∧
    w'.waiting = w.waiting ∧ w'.pushed = w.pushed := by
  obtain ⟨pc, b, st, rfl, -⟩ := h
  exact ⟨rfl, rfl, rfl, rfl⟩

theorem stopQueuedIo_records (ht : w.ctx.Tasked) :
    w.ctx.Records w.stopQueuedIo.ctx [] (w.sharedIo.reverse ++ w.localIo.reverse) ∧
      w.stopQueuedIo.ctx.Tasked ∧
      w.stopQueuedIo.pushed.Perm (w.sharedIo.reverse ++ w.localIo.reverse ++ w.pushed) := by
  have hr := (w.ctx.records_stopList w.localIo (X := [])).trans
    ((w.ctx.drainIoListCompleteStopped w.localIo).records_stopList w.sharedIo)
  refine ⟨hr, (ht.stopList w.localIo).stopList w.sharedIo, perm_of_count fun o => ?_⟩
  have := hr.localCpu.count_eq o
  simp only [pushed, stopQueuedIo, List.count_append] at *
  omega

-- The records of operations that are published.
def startAll (s : Context) (ps : List (OpId × Request)) : Context :=
  ps.foldl (fun s p => s.setOp p.1 { request := p.2 }) s

theorem publishLocalIo_fold {ps : List (OpId × Request)} : ps.foldl publishLocalIo w =
    { w with ctx := startAll w.ctx ps, localIo := (ps.map Prod.fst).reverse ++ w.localIo } := by
  induction ps generalizing w
  case nil          => rfl
  case cons p ps hi =>
    rw [List.foldl_cons, hi]
    simp [publishLocalIo, startAll]

theorem startAll_frame {s : Context} {ps : List (OpId × Request)} :
    (startAll s ps).inflight = s.inflight ∧ (startAll s ps).regs = s.regs := by
  induction ps generalizing s
  case nil          => exact ⟨rfl, rfl⟩
  case cons p ps hi => exact hi (s := s.setOp p.1 { request := p.2 })

theorem startAll_ops {s : Context} {ps : List (OpId × Request)} {op : OpId}
    (h : op ∉ ps.map Prod.fst) : (startAll s ps).ops op = s.ops op := by
  induction ps generalizing s
  case nil          => rfl
  case cons p ps hi =>
    simp only [List.map_cons, List.mem_cons, not_or] at h
    refine (hi (s := s.setOp p.1 { request := p.2 }) h.2).trans ?_
    simp [h.1]

theorem startAll_ops_of_mem {s : Context} {ps : List (OpId × Request)} {op : OpId} {r : Request}
    (hd : (ps.map Prod.fst).Nodup) (h : (op, r) ∈ ps) : (startAll s ps).ops op = { request := r } := by
  induction ps generalizing s
  case nil          => cases h
  case cons p ps hi =>
    simp only [List.map_cons, List.nodup_cons] at hd
    obtain rfl | h := List.mem_cons.mp h
    · refine (startAll_ops (s := s.setOp op { request := r }) hd.1).trans ?_
      simp
    · exact hi (s := s.setOp p.1 { request := p.2 }) hd.2 h

theorem calls_steps {env : Env} {e : Event} {op o : OpId} {task : Task} :
    calls ((Context.steps env e op task).map (op, ·)) o =
      if o = op then Context.steps env e op task else [] := by
  unfold Context.steps calls
  by_cases ho : op = o <;> split <;> simp [ho, Ne.symm]

namespace Reported

-- A step that leaves the records and the waiting operations as they are.
theorem quiet (h : w.Reported l) (hs : Worker.step w a = some w') (hP : w.publishesIo a = [])
    (ho : w'.ctx.ops = w.ctx.ops) (hr : w'.ctx.regs = w.ctx.regs) (hw : w'.waiting = w.waiting)
    (hsound : ∀ e ∈ w'.events, e.Sound) : w'.Reported l := by
  have ht : w.Turns w' [] [] := .of_ops (h.kept.next hs).1 ho hw
  exact List.append_nil l ▸ h.next hs ht hP hsound (h.tasked.congr hr fun _ => by rw [ho])

theorem resume {v : Worker} (h : w.Reported l) (hs : Worker.step w a = some w') (hv : v.Resumes w')
    (hP : w.publishesIo a = []) (ho : v.ctx.ops = w.ctx.ops) (hr : v.ctx.regs = w.ctx.regs)
    (hw : v.waiting = w.waiting) (he : v.events = w.events) : w'.Reported l := by
  obtain ⟨hc, he', hw', -⟩ := hv.frame
  exact h.quiet hs hP (hc ▸ ho) (hc ▸ hr) (hw'.trans hw) ((he'.trans he) ▸ h.sound)

-- Operations are taken off the queues and registered or given up.
theorem give {v : Worker} {X F : List OpId} (h : w.Reported l) (hs : Worker.step w a = some w')
    (hv : v.Resumes w') (hnone : w.publishes a = []) (hr : w.ctx.Records v.ctx X F) (hX : X ⊆ w.waiting)
    (ht : v.ctx.Tasked) (hp : v.pushed.Perm (F ++ w.pushed)) (he : v.events = w.events) :
    w'.Reported l := by
  obtain ⟨hc, he', -, hp'⟩ := hv.frame
  obtain ⟨hk, hheld⟩ := h.kept.next hs
  rw [hnone] at hheld
  have ht' : w.Turns w' [] [] := .of_records (T := []) h.kept hk hheld (hc ▸ hr) hX (hp' ▸ hp)
    (fun _ => rfl) (fun _ => rfl) (by simp [calls]) (by simp)
  refine List.append_nil l ▸ h.next hs ht' ?_ ((he'.trans he) ▸ h.sound) (hc ▸ ht)
  exact (List.append_eq_nil_iff.mp hnone).1

theorem consume (h : w.Reported l) (hpc : w.pc = .io site)
    (hs : Worker.step w (.work i) = some w') (hw : w.workStep i = w') : w'.Reported l := by
  have hnone : w.publishes (.work i) = [] := by simp [publishes, publishesIo, publishesCpu, hpc]
  simp only [workStep, hpc, consumeIoTasks] at hw
  split at hw <;> subst hw
  case isTrue  =>
    obtain ⟨hr, ht, hp⟩ := stopQueuedIo_records h.tasked
    exact h.give hs .afterIo hnone hr (by simp) ht hp rfl
  case isFalse =>
    -- one of the two queues is taken as a whole
    have hpop : ∃ v l, w.popIo = (v, l) ∧ v.ctx = w.ctx ∧ v.events = w.events ∧ v.pushed = w.pushed ∧
        l ⊆ w.waiting := by
      unfold popIo
      split
      · exact ⟨_, _, rfl, rfl, rfl, rfl, by simp [Worker.waiting]⟩
      · exact ⟨_, _, rfl, rfl, rfl, rfl, by simp [Worker.waiting]⟩
    obtain ⟨v, l, hv, hc, he, hp, hl⟩ := hpop
    rw [hv] at hs ⊢
    obtain ⟨F, hr, ht⟩ := Context.Tasked.consumeList i.env l.reverse (hc.symm ▸ h.tasked)
    refine h.give hs .afterIo hnone (by rw [← hc]; exact hr) (by simpa using hl) ht
      (perm_of_count fun o => ?_) he
    have := congrArg (List.count o) hp
    have := hr.localCpu.count_eq o
    simp only [Worker.pushed, List.count_append] at *
    omega

theorem abort (h : w.Reported l) (hpc : w.pc = .abort)
    (hs : Worker.step w (.work i) = some w') (hw : w.workStep i = w') : w'.Reported l := by
  have hnone : w.publishes (.work i) = [] := by simp [publishes, publishesIo, publishesCpu, hpc]
  have hr₀ := Context.records_abortInflightIo (s := w.ctx) (X := [])
  obtain ⟨hr, ht, hp⟩ := stopQueuedIo_records (w := { w with ctx := w.ctx.abortInflightIo })
    h.tasked.abortInflightIo
  simp only [workStep, hpc] at hw
  subst hw
  refine h.give (v := w.abortInflightIo) hs (.goto (by simp) (by simp)) hnone (hr₀.trans hr) (by simp) ht
    (perm_of_count fun o => ?_) rfl
  have := hr₀.localCpu.count_eq o
  have := hp.count_eq o
  simp only [Worker.pushed, abortInflightIo, List.count_append] at *
  omega

-- The event has found the node `n`.
theorem fired {e : Event} {es : List Event} {n : Node} (h : w.Reported l) (hpc : w.pc = .process site)
    (he : w.events = e :: es) (hu : e.udata = .operation n.op)
    (hn : w.ctx.findFiredNode n.op e.filter = some n)
    (hs : Worker.step w (.work i) = some w') (hw : w.workStep i = w') :
    w'.Reported (l ++ w.performed (.work i)) := by
  have hnone : w.publishes (.work i) = [] := by simp [publishes, publishesIo, publishesCpu, hpc]
  have hsound : ∀ e ∈ es, e.Sound := fun e' he' => h.sound e' (by simp [he, he'])
  have hfound := List.find?_some hn
  simp only [Bool.and_eq_true, decide_eq_true_eq] at hfound
  have harmed := h.kept.awaits.armed (by simp [he]) hu hfound.1 hfound.2
  obtain ⟨G, hG⟩ := h.kept.threaded.processFired (i.env n.op) (e := e) harmed
  obtain ⟨F, hr, ht, hset⟩ := h.kept.threaded.settles (i.env n.op) harmed (h.sound e (by simp [he]))
    h.tasked
  have hpe : w.ctx.processEvent (e.udata.op?.elim {} i.env) e =
      w.ctx.processFired (i.env n.op) e n.op n := by
    simp only [Context.processEvent, hu, hn, Udata.op?, Option.elim_some]
  have hl : w.performed (.work i) =
      (Context.steps (i.env n.op) e n.op (w.ctx.regs n).task).map (n.op, ·) := by
    simp only [performed, hpc, he, hu, hn]
  simp only [workStep, hpc, processStep, he, processEvent_eq] at hw
  rw [hpe] at hw
  rw [hl]
  generalize w.ctx.processFired (i.env n.op) e n.op n = r at hG hr ht hset hw
  have hin : n.op ∈ w.waiting := by
    have hm := (h.kept.threaded.active hfound.1).resolve_right (by simp)
    simp [Worker.waiting, hm]
  obtain ⟨hk, hheld⟩ := h.kept.next hs
  rw [hnone] at hheld
  have hctx : w'.ctx = r.1 := by rw [← hw]
  have hp : w'.pushed.Perm (Context.completedTask e r.2 ++ (F ++ w.pushed)) := by
    refine perm_of_count fun o => ?_
    have := hr.localCpu.count_eq o
    subst hw
    simp only [Worker.pushed, List.count_append] at *
    omega
  have hF : ∀ {op}, op ∈ F → op ∈ w'.pushed := fun hm => hp.mem_iff.mpr (by simp [hm])
  have hcases : n.op ∉ F ∧ (r.2 = true → n.op ∉ w'.waiting) := by
    cases h₂ : r.2
    case false =>
      obtain ⟨-, ho, -⟩ := hG.again h₂
      have hm := (hG.threaded.active (ho ▸ hfound.1)).resolve_right (by simp)
      have hw' : n.op ∈ w'.waiting := by simp [Worker.waiting, hctx, hm]
      exact ⟨fun hf => hk.disjoint hw' (hF hf), by simp⟩
    case true  =>
      have hT : n.op ∈ Context.completedTask e r.2 := by simp [Context.completedTask, h₂, hu, Udata.op?]
      have hnd := hp.nodup_iff.mp (List.nodup_append.mp (held_eq ▸ hk.nodup)).2.1
      refine ⟨fun hf => ?_, fun _ hm => hk.disjoint hm (hp.mem_iff.mpr (by simp [hT]))⟩
      exact (List.nodup_append.mp hnd).2.2 _ hT _ (List.mem_append_left _ hf) rfl
  obtain ⟨hnF, hnw⟩ := hcases
  have hset := hset hnF
  refine h.next hs ?_ (List.append_eq_nil_iff.mp hnone).1 (by rw [← hw]; exact hsound) (hctx ▸ ht)
    (P := [])
  refine .of_records (X := [n.op]) h.kept hk hheld (hctx ▸ hr) (by simpa using hin) hp
    (fun hm => ?_) (fun {op} hm => ?_) (fun {op} hm => ?_) (fun {op} hm => ?_)
  · rw [calls_steps, if_neg (by simpa using hm)]
  · rw [calls_steps, if_neg fun ho : op = n.op => hnF (ho ▸ hm)]
  · rw [calls_steps]
    split
    case isFalse => simp
    case isTrue ho =>
      have h₂ : r.2 = false := Bool.eq_false_iff.mpr fun h₂ => hnw h₂ (ho ▸ hm)
      simpa [Context.Settles, h₂] using hset
  · have h₂ : r.2 = true := by
      cases h₂ : r.2
      case false => simp [Context.completedTask, h₂] at hm
      case true  => rfl
    obtain rfl : op = n.op := by simpa [Context.completedTask, h₂, hu, Udata.op?] using hm
    rw [calls_steps, if_pos rfl, ← h.tasked n hfound.1, hctx]
    simpa [Context.Settles, h₂] using hset

theorem event {e : Event} {es : List Event} (h : w.Reported l) (hpc : w.pc = .process site)
    (he : w.events = e :: es) (hs : Worker.step w (.work i) = some w') (hw : w.workStep i = w') :
    w'.Reported (l ++ w.performed (.work i)) := by
  -- the wake channels and the stale events
  have hstale : (∀ env, w.ctx.processEvent env e = (w.ctx, false)) → w.performed (.work i) = [] →
      w'.Reported (l ++ w.performed (.work i)) := fun hpe hl => by
    rw [hl, List.append_nil]
    simp only [workStep, hpc, processStep, he, processEvent_eq, hpe] at hw
    subst hw
    refine h.quiet hs (by simp [publishesIo, hpc]) rfl rfl rfl fun e' he' => ?_
    exact h.sound e' (by simp [he, show e' ∈ es from he'])
  cases hu : e.udata
  case operation op =>
    cases hn : w.ctx.findFiredNode op e.filter
    case none   =>
      exact hstale (fun env => by simp only [Context.processEvent, hu, hn])
        (by simp [performed, hpc, he, hu, hn])
    case some n =>
      obtain rfl := (Context.mem_nodesOf.mp <| List.mem_of_find?_eq_some hn).1
      exact h.fired hpc he hu hn hs hw
  all_goals
    exact hstale (fun env => by simp only [Context.processEvent, hu]) (by simp [performed, hpc, he, hu])

theorem execute (h : w.Reported l) (hpc : w.pc = .exec site) (hb : w.batch ≠ [])
    (hs : Worker.step w (.work i) = some w') (hf : w.Fresh (w.started i)) (hw : w.executeNext i = w') :
    w'.Reported l := by
  have hk := (h.kept.next hs).1
  have hnd : (i.publishedIo.map Prod.fst).Nodup := by
    have hn := hf.1
    simp only [started, hpc] at hn
    exact (List.nodup_append.mp hn).2.1
  obtain ⟨op, l', hb'⟩ := List.exists_cons_of_ne_nil hb
  simp only [executeNext, hb', publishLocalIo_fold, Context.pushCpuList_eq] at hw
  have hin : ∀ {o}, o ∈ w.waiting → o ∈ w'.waiting := fun {o} hm => by
    subst hw
    simp only [Worker.waiting, startAll_frame, List.mem_append] at hm ⊢
    exact hm.imp_left (.imp_right .inr)
  have hops : ∀ {o}, o ∉ i.publishedIo.map Prod.fst → w'.ctx.ops o = w.ctx.ops o := fun hm => by
    subst hw
    exact startAll_ops hm
  have ht : w.Turns w' i.publishedIo [] := by
    refine ⟨fun {o r} hm => ?_, fun hm _ => ?_, fun hm hp => ?_, fun hm _ => ?_⟩
    · subst hw
      refine ⟨startAll_ops_of_mem hnd hm, ?_, rfl⟩
      have ho : o ∈ i.publishedIo.map Prod.fst := List.mem_map_of_mem hm
      simp only [Worker.waiting, List.mem_append, List.mem_reverse]
      exact .inl (.inr (.inl ho))
    · rw [hops hm]
      exact ⟨⟨rfl, rfl⟩, by simp [calls]⟩
    · exact absurd hp (hk.disjoint (hin hm))
    · rw [hops hm]
      exact ⟨rfl, rfl⟩
  have hev : ∀ e ∈ w'.events, e.Sound := by
    subst hw
    exact h.sound
  have htask : w'.ctx.Tasked := fun n hn => by
    have hm := (hk.threaded.active hn).resolve_right (by simp)
    subst hw
    simp only [startAll_frame] at hn hm ⊢
    have ho : n.op ∉ i.publishedIo.map Prod.fst := fun ho => by
      refine hf.2 n.op ?_ (mem_held.mpr (.inl (by simp [Worker.waiting, hm])))
      simp only [started, hpc]
      exact List.mem_append_right _ ho
    rw [startAll_ops ho]
    exact h.tasked n hn
  have hP : w.publishesIo (.work i) = i.publishedIo.map Prod.fst := by simp [publishesIo, hpc, hb]
  exact List.append_nil l ▸ h.next hs ht hP hev htask

theorem process (h : w.Reported l) (hpc : w.pc = .process site)
    (hs : Worker.step w (.work i) = some w') (hw : w.workStep i = w') :
    w'.Reported (l ++ w.performed (.work i)) := by
  have hP : w.publishesIo (.work i) = [] := by simp [publishesIo, hpc]
  cases he : w.events
  case cons e es => exact h.event hpc he hs hw
  case nil       =>
    have hl : w.performed (.work i) = [] := by simp [performed, hpc, he]
    rw [hl, List.append_nil]
    simp only [workStep, hpc, processStep, he] at hw
    split at hw <;> subst hw
    case isTrue  => exact h.resume hs .afterCollect hP rfl rfl rfl rfl
    case isFalse =>
      obtain ⟨s, b, l', hd, -⟩ := w.dispatchEventTasks_eq
      refine h.resume hs (v := w.dispatchEventTasks) .afterCollect hP ?_ ?_ ?_ ?_
      all_goals rw [hd]
      rfl

theorem work (h : w.Reported l) (ha : (WorkerAction.work i).Sound)
    (hs : Worker.step w (.work i) = some w') : w'.Reported (l ++ w.performed (.work i)) := by
  have hstep := hs
  simp only [Worker.step, Option.ite_none_right_eq_some, Option.some.injEq] at hstep
  obtain ⟨⟨hwork, hf, -⟩, hw⟩ := hstep
  by_cases hp : ∃ site, w.pc = .process site
  case pos =>
    obtain ⟨site, hpc⟩ := hp
    exact h.process hpc hs hw
  case neg =>
    have hl : w.performed (.work i) = [] := by
      cases hpc : w.pc <;> simp_all [performed]
    rw [hl, List.append_nil]
    have hquiet : ∀ {v : Worker}, w.publishesIo (.work i) = [] → v.Resumes w' →
        v.ctx.ops = w.ctx.ops ∧ v.ctx.regs = w.ctx.regs ∧ v.waiting = w.waiting ∧ v.events = w.events →
        w'.Reported l := fun hP hv hc => h.resume hs hv hP hc.1 hc.2.1 hc.2.2.1 hc.2.2.2
    have hsame : w.ctx.ops = w.ctx.ops ∧ w.ctx.regs = w.ctx.regs ∧ w.waiting = w.waiting ∧
        w.events = w.events := ⟨rfl, rfl, rfl, rfl⟩
    have hpush : ∀ {ops}, let v := { w with ctx := w.ctx.pushCpuList ops }
        v.ctx.ops = w.ctx.ops ∧ v.ctx.regs = w.ctx.regs ∧ v.waiting = w.waiting ∧ v.events = w.events :=
      fun {ops} => by
        rw [Context.pushCpuList_eq]
        exact ⟨rfl, rfl, rfl, rfl⟩
    cases hpc : w.pc
    case process site => exact absurd ⟨site, hpc⟩ hp
    case io           => exact h.consume hpc hs hw
    case abort        => exact h.abort hpc hs hw
    all_goals simp only [workStep, hpc] at hw
    all_goals simp only [publishesIo, hpc] at hquiet
    case idle | finished | closed => simp [Working, hpc] at hwork
    case collect | block =>
      subst hw
      exact h.quiet hs (by simp [publishesIo, hpc]) rfl rfl rfl ha
    case cpu =>
      split at hw <;> subst hw
      case isTrue  => exact hquiet trivial .afterCpu hsame
      case isFalse =>
        refine h.quiet hs (by simp [publishesIo, hpc]) ?_ ?_ ?_ ?_ <;> unfold fetchCpuTask <;> split
        all_goals first | rfl | exact h.sound
    case exec =>
      split at hw
      case isTrue hb  =>
        subst hw
        exact hquiet (if_pos hb) .afterCpu hsame
      case isFalse hb => exact h.execute hpc hb hs hf hw
    case timers =>
      split at hw <;> subst hw
      case isTrue  => exact hquiet trivial .afterTimers hpush
      case isFalse => exact hquiet trivial .afterTimers hsame
    case check =>
      subst hw
      exact hquiet trivial .afterCheck hsame
    case resume =>
      split at hw <;> subst hw
      case isTrue  => exact hquiet trivial .toFinish hsame
      case isFalse => exact hquiet trivial .toReady hsame
    case fetch =>
      split at hw
      case isTrue  =>
        subst hw
        exact hquiet trivial (.goto (by simp) (by simp)) hsame
      case isFalse =>
        split at hw <;> subst hw
        case isTrue  => exact hquiet trivial (.goto (by simp) (by simp)) hpush
        case isFalse => exact hquiet trivial (.goto (by simp) (by simp)) hsame

theorem step (h : w.Reported l) (ha : a.Sound) (hs : Worker.step w a = some w') :
    w'.Reported (l ++ w.performed a) := by
  cases a
  case work i => exact h.work ha hs
  all_goals
    simp only [performed, List.append_nil]
    have hstep := hs
  case publishIo op r =>
    simp only [Worker.step, Option.ite_none_right_eq_some, Option.some.injEq] at hstep
    obtain ⟨⟨_, _, hf⟩, hw⟩ := hstep
    have hk := (h.kept.next hs).1
    have hops : ∀ {o}, o ≠ op → w'.ctx.ops o = w.ctx.ops o := fun ho => by simp [← hw, ho]
    have ht : w.Turns w' [(op, r)] [] := by
      refine ⟨fun hm => ?_, fun hm _ => ?_, fun hm hp => ?_, fun hm _ => ?_⟩
      · obtain ⟨rfl, rfl⟩ := Prod.mk.inj (List.mem_singleton.mp hm)
        subst hw
        exact ⟨by simp, by simp [Worker.waiting], rfl⟩
      · rw [hops (by simpa using hm)]
        exact ⟨⟨rfl, rfl⟩, by simp [calls]⟩
      · refine absurd hp (hk.disjoint ?_)
        subst hw
        simp only [Worker.waiting, Context.setOp_inflight, List.mem_append, List.mem_cons] at hm ⊢
        exact hm.imp_right .inr
      · rw [hops (by simpa using hm)]
        exact ⟨rfl, rfl⟩
    refine List.append_nil l ▸ h.next hs ht rfl (by subst hw; exact h.sound) fun n hn => ?_
    subst hw
    have hm := (h.kept.threaded.active hn).resolve_right (by simp)
    have ho : n.op ≠ op := fun ho => by
      refine hf.2 op (by simp) (mem_held.mpr (.inl ?_))
      simp [Worker.waiting, ← ho, hm]
    simpa [ho] using h.tasked n hn
  case publishCpu op =>
    simp only [Worker.step, Option.ite_none_right_eq_some, Option.some.injEq] at hstep
    obtain ⟨_, rfl⟩ := hstep
    exact h.quiet hs rfl rfl rfl rfl h.sound
  case stop =>
    simp only [Worker.step] at hstep
    split at hstep <;> obtain rfl := Option.some.inj hstep <;> exact h.quiet hs rfl rfl rfl rfl h.sound
  case close =>
    obtain rfl := Option.some.inj hstep
    exact h.quiet hs rfl rfl rfl rfl h.sound
  case run =>
    simp only [Worker.step, Option.ite_none_right_eq_some, Option.some.injEq] at hstep
    obtain ⟨_, rfl⟩ := hstep
    exact h.resume hs .toReady rfl rfl rfl rfl rfl
  case queueExit =>
    simp only [Worker.step] at hstep
    split at hstep
    case h_3 => cases hstep
    all_goals
      obtain rfl := Option.some.inj hstep
      exact h.quiet hs rfl rfl rfl rfl h.sound

theorem init (options : Options) (hasShared : Bool) : (Worker.init options hasShared).Reported [] where
  kept    := init_kept options hasShared
  sound   := by simp [Worker.init]
  tasked  := fun n hn => by simp [Worker.init, Loop.init] at hn
  fresh _ := ⟨rfl, rfl, rfl⟩
  waiting := by simp [Worker.init, Loop.init, Worker.waiting]
  pushed  := by simp [Worker.init, Loop.init, Worker.pushed]

end Reported

-- On every run: of the I/O steps of an operation all but the last one had nothing to do; what a step
-- that did something returns is what the receiver is told; and the receiver of a read or a write is
-- told of a success only if the last step returned it.
theorem steps_reported {options : Options} {hasShared : Bool} {as : List WorkerAction} {op : OpId}
    (along : System.Along step (fun _ a => a.Sound) (init options hasShared) as)
    (hr : System.run step (init options hasShared) as = some w) (hop : op ∈ w.executed) (token : Bool) :
    let made := calls (System.gathered step performed (init options hasShared) as) op
    let told := (w.ctx.ops op).execute token
    (∀ c ∈ made.dropLast, c = -eagain) ∧
      (∀ r, made.getLast? = some r → r ≠ -eagain →
        told = .setValue (if r < 0 then errnoResult r else none) r (w.ctx.ops op).flags) ∧
      ((w.ctx.ops op).request.moves → ∀ r flags, told = .setValue none r flags →
        made.getLast? = some r) := by
  intro made told
  have hrep : w.Reported ([] ++ System.gathered step performed (init options hasShared) as) :=
    along.gathered_invariant (J := Reported) (fun h ha hs => h.step ha hs) (.init options hasShared) hr
  have htold : (w.ctx.ops op).Told made := hrep.pushed (by simp [pushed, hop])
  exact htold.delivers token

-- Two reads of one descriptor. The first one finds nothing to read at its first event, waits behind the
-- second one and is completed by its next event.
def readAfterRetry : List WorkerAction :=
  let event (op : OpId) : Event := { udata := .operation op, ident := 3, filter := evfiltRead }
  let answer (r : Int) : OpId → Env := fun _ => { ownsIoStep := fun _ => true, performIo := fun _ => r }
  [.publishIo 0 (.read 3), .publishIo 1 (.read 3), .run, .work {}, .work {}, .work {},
    .work { events := [event 0] }, .work { env := answer (-eagain) }, .work {}, .work {}, .work {},
    .work {}, .work {},
    .work { events := [event 1] }, .work { env := answer 7 }, .work {}, .work {},
    .work { events := [event 0] }, .work { env := answer 5 }, .work {}, .work {}, .work {}, .work {}]

theorem steps_reported_readAfterRetry :
    ∃ w, System.run step (init {} true) readAfterRetry = some w ∧ 0 ∈ w.executed ∧
      calls (System.gathered step performed (init {} true) readAfterRetry) 0 = [-eagain, 5] ∧
      (w.ctx.ops 0).execute false = .setValue none 5 (w.ctx.ops 0).flags := by
  obtain ⟨w, hr, he⟩ := Option.any_eq_true .. |>.mp (by decide +kernel :
    (System.run step (init {} true) readAfterRetry).any fun w => decide (0 ∈ w.executed))
  have hcalls : calls (System.gathered step performed (init {} true) readAfterRetry) 0 =
      [-eagain, 5] := by
    decide +kernel
  obtain ⟨-, hlast, -⟩ := steps_reported (by decide +kernel) hr (of_decide_eq_true he) false
  exact ⟨w, hr, of_decide_eq_true he, hcalls, hlast 5 (by rw [hcalls]; rfl) (by decide)⟩

end Worker
end Bnio.Kqueue

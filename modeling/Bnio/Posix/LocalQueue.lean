import Bnio.Lib.Chain
import Bnio.Lib.Transition

-- The CPU queue of a worker's local task queue state, with `fetch_cpu_task`, `reverse_tasks` and
-- `execute_tasks` behind it; the two backends have the same code.
namespace Bnio.Posix.LocalQueue

-- Where `run_cpu_batch` is.
inductive Pc (ω : Type*)
  | idle
  | reverse (tasks reversed : Option ω)
  | execute (tasks : Option ω)

-- `operations` is the rest of the list in `push_cpu(list)`. `pushed` and `executed` are the operations
-- in the order in which they are handed to `push_cpu` and executed, and the other lists are what the
-- chains in memory stand for: the rest of the current batch, the queue and the rest of the list.
structure State (ω : Type*) where
  cpuHead : Option ω := none
  next : ω → Option ω := fun _ => none
  operations : Option ω := none
  pc : Pc ω := .idle
  executed : List ω := []
  pushed : List ω := []
  batch : List ω := []
  pending : List ω := []
  listed : List ω := []

inductive Action (ω : Type*)
  | push (op : ω)
  | pushList (l : List ω)
  | pushNext
  | runCpuBatch
  | reverseNext
  | reverseDone
  | executeNext
  | executeDone
  -- the link of an operation outside of the queue is used for something else
  | write (op : ω) (v : Option ω)

variable {ω : Type*} [DecidableEq ω]

namespace State

variable (s : State ω)

-- The operation belongs to none of the lists.
def free (op : ω) : Bool :=
  op ∉ s.listed ∧ op ∉ s.pending ∧ op ∉ s.batch

def setNext (op : ω) (v : Option ω) : State ω :=
  { s with next := Function.update s.next op v }

def pushCpu (op : ω) : State ω :=
  { s.setNext op s.cpuHead with
    cpuHead := some op
    pending := s.pending ++ [op] }

-- The worker's own code runs between two batches, and in the operations of a batch.
def runs : Bool :=
  match s.pc with
  | .reverse _ _ => false
  | _            => true

def step : Action ω → Option (State ω)
  | .push op =>
    if s.runs ∧ s.operations = none ∧ s.free op then
      some { s.pushCpu op with pushed := s.pushed ++ [op] }
    else none
  | .pushList l =>
    if s.runs ∧ s.operations = none ∧ l.Nodup ∧ (∀ op ∈ l, s.free op) ∧ Linked s.next l.head? l then
      some { s with operations := l.head?, listed := l, pushed := s.pushed ++ l }
    else none
  | .pushNext =>
    match s.operations with
    | some op =>
      let s := { s with operations := s.next op, listed := s.listed.tail }
      some ((s.setNext op none).pushCpu op)
    | none    => none
  | .runCpuBatch =>
    match s.pc, s.operations, s.cpuHead with
    | .idle, none, some op =>
      some { s with cpuHead := none, pc := .reverse (some op) none, batch := s.pending, pending := [] }
    | .idle, none, none    => some s
    | _,     _,    _       => none
  | .reverseNext =>
    match s.pc with
    | .reverse (some op) reversed =>
      some { s.setNext op reversed with pc := .reverse (s.next op) (some op) }
    | _ => none
  | .reverseDone =>
    match s.pc with
    | .reverse none reversed => some { s with pc := .execute reversed }
    | _                      => none
  | .executeNext =>
    match s.pc, s.operations with
    | .execute (some op), none =>
      some { s.setNext op none with
        pc := .execute (s.next op), executed := s.executed ++ [op], batch := s.batch.tail }
    | _, _ => none
  | .executeDone =>
    match s.pc, s.operations with
    | .execute none, none => some { s with pc := .idle }
    | _,             _    => none
  | .write op v => if s.free op then some (s.setNext op v) else none

-- What the links of the current batch look like.
def Batch (s : State ω) : Pc ω → Prop
  | .idle                   => s.batch = []
  | .reverse tasks reversed => ∃ l r, Linked s.next tasks l ∧ Linked s.next reversed r ∧
    l.reverse ++ r = s.batch
  | .execute tasks          => Linked s.next tasks s.batch

structure Inv (s : State ω) : Prop where
  queue : Linked s.next s.cpuHead s.pending.reverse
  list : Linked s.next s.operations s.listed
  batch : s.Batch s.pc
  nodup : (s.listed ++ (s.pending ++ s.batch)).Nodup
  order : s.executed ++ s.batch ++ s.pending ++ s.listed = s.pushed

variable {s} {s' : State ω} {a : Action ω} {op : ω} {v : Option ω}

omit [DecidableEq ω] in
theorem inv_init : ({} : State ω).Inv :=
  ⟨rfl, rfl, rfl, .nil, rfl⟩

theorem free_iff : s.free op ↔ op ∉ s.listed ∧ op ∉ s.pending ∧ op ∉ s.batch := by
  simp [free]

theorem Batch.setNext {pc : Pc ω} (h : s.Batch pc) (hn : op ∉ s.batch) :
    (s.setNext op v).Batch pc := by
  cases pc
  case idle    => exact h
  case execute => exact Linked.update h hn
  case reverse =>
    have ⟨l, r, hl, hr, he⟩ := h
    have ⟨hnl, hnr⟩ : op ∉ l ∧ op ∉ r := by simpa [← he] using hn
    exact ⟨l, r, hl.update hnl, hr.update hnr, he⟩

theorem Inv.setNext (h : s.Inv) (hf : s.free op) : (s.setNext op v).Inv := by
  have ⟨hl, hp, hb⟩ := free_iff.mp hf
  exact ⟨h.queue.update (by simpa using hp), h.list.update hl, h.batch.setNext hb, h.nodup, h.order⟩

omit [DecidableEq ω] in
theorem Inv.batch_of_idle (h : s.Inv) (hp : s.pc = .idle) : s.batch = [] := by
  have := h.batch
  rwa [hp] at this

omit [DecidableEq ω] in
theorem Inv.linked_of_execute {tasks : Option ω} (h : s.Inv) (hp : s.pc = .execute tasks) :
    Linked s.next tasks s.batch := by
  have := h.batch
  rwa [hp] at this

omit [DecidableEq ω] in
theorem Inv.listed_of_none (h : s.Inv) (ho : s.operations = none) : s.listed = [] :=
  (ho ▸ h.list).of_none

omit [DecidableEq ω] in
theorem Inv.pending_of_none (h : s.Inv) (hc : s.cpuHead = none) : s.pending = [] :=
  List.reverse_eq_nil_iff.mp (hc ▸ h.queue).of_none

omit [DecidableEq ω] in
theorem Inv.nodup_batch (h : s.Inv) : s.batch.Nodup :=
  (List.nodup_append.mp (List.nodup_append.mp h.nodup).2.1).2.1

omit [DecidableEq ω] in
theorem Inv.not_mem_of_batch (h : s.Inv) (hb : op ∈ s.batch) : op ∉ s.listed ∧ op ∉ s.pending := by
  have ⟨_, hd, hlb⟩ := List.nodup_append.mp h.nodup
  have ⟨_, _, hpb⟩ := List.nodup_append.mp hd
  exact ⟨fun hl => hlb op hl op (by simp [hb]) rfl, fun hp => hpb op hp op hb rfl⟩

-- The operation goes to the queue, with the order of all the pushes left to the caller.
theorem Inv.pushCpu {pushed : List ω} (h : s.Inv) (hf : s.free op)
    (ho : s.executed ++ s.batch ++ (s.pending ++ [op]) ++ s.listed = pushed) :
    Inv { s.pushCpu op with pushed := pushed } := by
  have ⟨hl, hp, hb⟩ := free_iff.mp hf
  have hperm : (s.listed ++ (s.pending ++ [op] ++ s.batch)).Perm
      (op :: (s.listed ++ (s.pending ++ s.batch))) := by
    simp only [List.append_assoc, List.singleton_append]
    exact (List.perm_middle.append_left _).trans List.perm_middle
  refine ⟨?_, h.list.update hl, h.batch.setNext hb, ?_, ho⟩
  · simpa [State.pushCpu, State.setNext] using h.queue.push (n := op) (by simpa using hp)
  · exact hperm.nodup_iff.mpr (List.nodup_cons.mpr ⟨by simp [hl, hp, hb], h.nodup⟩)

theorem Inv.pushList {l : List ω} (h : s.Inv) (ho : s.operations = none) (hd : l.Nodup)
    (hf : ∀ op ∈ l, s.free op) (hl : Linked s.next l.head? l) :
    Inv { s with operations := l.head?, listed := l, pushed := s.pushed ++ l } where
  queue := h.queue
  list := hl
  batch := h.batch
  nodup := by
    have hd' : (s.pending ++ s.batch).Nodup := (List.nodup_append.mp h.nodup).2.1
    refine List.nodup_append.mpr ⟨hd, hd', fun a ha b hb he => ?_⟩
    have ⟨_, hp, hb'⟩ := free_iff.mp (hf a ha)
    exact (List.mem_append.mp (he ▸ hb)).elim hp hb'
  order := by simp [← h.order, h.listed_of_none ho]

theorem Inv.pushNext (h : s.Inv) (ho : s.operations = some op) :
    ((State.setNext { s with operations := s.next op, listed := s.listed.tail } op none).pushCpu
      op).Inv := by
  obtain ⟨l, hlisted, hl⟩ := (ho ▸ h.list).of_some
  have hd : (op :: (l ++ (s.pending ++ s.batch))).Nodup := by simpa [hlisted] using h.nodup
  have ⟨hn, hd⟩ := List.nodup_cons.mp hd
  have hf : free { s with operations := s.next op, listed := s.listed.tail } op :=
    free_iff.mpr (by simpa [hlisted] using hn)
  -- the order is not that of an invariant state before the operation is in the queue again
  have hi : State.Inv { s with
      operations := s.next op, listed := s.listed.tail,
      pushed := s.executed ++ s.batch ++ s.pending ++ l } :=
    ⟨h.queue, by simpa [hlisted] using hl, h.batch, by simpa [hlisted] using hd, by simp [hlisted]⟩
  refine (hi.setNext (v := none) hf).pushCpu hf ?_
  simp [State.setNext, ← h.order, hlisted]

omit [DecidableEq ω] in
theorem Inv.runCpuBatch (h : s.Inv) (hp : s.pc = .idle) (hc : s.cpuHead = some op) :
    State.Inv { s with
      cpuHead := none, pc := .reverse (some op) none, batch := s.pending, pending := [] } := by
  have hb := h.batch_of_idle hp
  refine ⟨rfl, h.list, ⟨s.pending.reverse, [], hc ▸ h.queue, rfl, by simp⟩, ?_, ?_⟩
  · simpa [hb] using h.nodup
  · simpa [hb] using h.order

theorem Inv.reverseNext {reversed : Option ω} (h : s.Inv)
    (hp : s.pc = .reverse (some op) reversed) :
    State.Inv { s.setNext op reversed with pc := .reverse (s.next op) (some op) } := by
  obtain ⟨l, r, hl, hr, he⟩ := hp ▸ h.batch
  obtain ⟨l, rfl, hl'⟩ := hl.of_some
  have hm : op ∈ s.batch := by simp [← he]
  have ⟨hnl, hnp⟩ := h.not_mem_of_batch hm
  have hperm : ((op :: l).reverse ++ r).Perm (op :: (l.reverse ++ r)) := by simp
  have ⟨hn, _⟩ := List.nodup_cons.mp (hperm.nodup_iff.mp (he ▸ h.nodup_batch))
  have ⟨hnl', hnr⟩ : op ∉ l ∧ op ∉ r := by simpa using hn
  exact ⟨h.queue.update (by simpa using hnp), h.list.update hnl,
    ⟨l, op :: r, hl'.update hnl', hr.push hnr, by simp [← he, State.setNext]⟩, h.nodup, h.order⟩

omit [DecidableEq ω] in
theorem Inv.reverseDone {reversed : Option ω} (h : s.Inv) (hp : s.pc = .reverse none reversed) :
    State.Inv { s with pc := .execute reversed } := by
  obtain ⟨l, r, hl, hr, he⟩ := hp ▸ h.batch
  obtain rfl := hl.of_none
  exact ⟨h.queue, h.list, by simpa [Batch, ← he] using hr, h.nodup, h.order⟩

theorem Inv.executeNext (h : s.Inv) (hp : s.pc = .execute (some op)) :
    State.Inv { s.setNext op none with
      pc := .execute (s.next op), executed := s.executed ++ [op], batch := s.batch.tail } := by
  obtain ⟨b, hb, hl⟩ := (h.linked_of_execute hp).of_some
  have hm : op ∈ s.batch := by simp [hb]
  have ⟨hnl, hnp⟩ := h.not_mem_of_batch hm
  have hd : (op :: b).Nodup := hb ▸ h.nodup_batch
  refine ⟨h.queue.update (by simpa using hnp), h.list.update hnl, ?_, ?_, ?_⟩
  · have hl := hl.update (v := none) (List.nodup_cons.mp hd).1
    simpa [Batch, State.setNext, hb] using hl
  · exact h.nodup.sublist (((List.tail_sublist s.batch).append_left s.pending).append_left s.listed)
  · simpa [hb, State.setNext] using h.order

omit [DecidableEq ω] in
theorem Inv.executeDone (h : s.Inv) (hp : s.pc = .execute none) :
    State.Inv { s with pc := .idle } :=
  ⟨h.queue, h.list, (h.linked_of_execute hp).of_none, h.nodup, h.order⟩

theorem Inv.step (h : s.Inv) (hs : s.step a = some s') : s'.Inv := by
  cases a <;> simp only [State.step] at hs
  case push op =>
    split at hs <;> cases hs
    case isTrue hg => exact h.pushCpu hg.2.2 (by simp [← h.order, h.listed_of_none hg.2.1])
  case pushList l =>
    split at hs <;> cases hs
    case isTrue hg => exact h.pushList hg.2.1 hg.2.2.1 hg.2.2.2.1 hg.2.2.2.2
  case pushNext =>
    split at hs <;> cases hs
    case h_1 ho => exact h.pushNext ho
  case runCpuBatch =>
    split at hs <;> cases hs
    case h_1 hp _ hc => exact h.runCpuBatch hp hc
    case h_2         => exact h
  case reverseNext =>
    split at hs <;> cases hs
    case h_1 hp => exact h.reverseNext hp
  case reverseDone =>
    split at hs <;> cases hs
    case h_1 hp => exact h.reverseDone hp
  case executeNext =>
    split at hs <;> cases hs
    case h_1 hp _ => exact h.executeNext hp
  case executeDone =>
    split at hs <;> cases hs
    case h_1 hp _ => exact h.executeDone hp
  case write op v =>
    split at hs <;> cases hs
    case isTrue hf => exact h.setNext hf

end State

-- The queue as a FIFO: the batch that `run_cpu_batch` takes is all that has been pushed and not been
-- executed, from the first one on.
structure Fifo (ω : Type*) where
  pushed : List ω
  executed : List ω
  batch : List ω

def Fifo.step (q : Fifo ω) : Action ω → Option (Fifo ω)
  | .push op     => some { q with pushed := q.pushed ++ [op] }
  | .pushList l  => some { q with pushed := q.pushed ++ l }
  | .runCpuBatch =>
    match q.batch with
    | [] => some { q with batch := q.pushed.drop q.executed.length }
    | _  => none
  | .executeNext =>
    match q.batch with
    | op :: b => some { q with executed := q.executed ++ [op], batch := b }
    | []      => none
  | _ => some q

-- What `push_cpu` and `run_cpu_batch` do on their own.
def Action.own : Action ω → Bool
  | .pushNext | .runCpuBatch | .reverseNext | .reverseDone | .executeNext | .executeDone => true
  | _ => false

namespace State

def fifo (s : State ω) : Fifo ω :=
  ⟨s.pushed, s.executed, s.batch⟩

def Refines (s : State ω) (a : Action ω) : Prop :=
  ∀ s', s.step a = some s' → s.fifo.step a = some s'.fifo

variable {s s' s'' : State ω} {a : Action ω} {op : ω}

omit [DecidableEq ω] in
theorem Inv.drop_executed (h : s.Inv) (hp : s.pc = .idle) (ho : s.operations = none) :
    s.pushed.drop s.executed.length = s.pending := by
  simp [← h.order, h.batch_of_idle hp, h.listed_of_none ho]

theorem Inv.refines (h : s.Inv) : s.Refines a := by
  intro s' hs
  cases a <;> simp only [State.step] at hs
  case push       => split at hs <;> cases hs; rfl
  case pushList   => split at hs <;> cases hs; rfl
  case pushNext   => split at hs <;> cases hs; rfl
  case runCpuBatch =>
    split at hs <;> cases hs
    case h_1 hp ho _ => simp [Fifo.step, fifo, h.batch_of_idle hp, h.drop_executed hp ho]
    case h_2 hp ho hc =>
      simp [Fifo.step, fifo, h.batch_of_idle hp, h.drop_executed hp ho, h.pending_of_none hc]
  case reverseNext => split at hs <;> cases hs; rfl
  case reverseDone => split at hs <;> cases hs; rfl
  case executeNext =>
    split at hs <;> cases hs
    case h_1 hp _ =>
      have ⟨b, hb, _⟩ := (h.linked_of_execute hp).of_some
      simp [Fifo.step, fifo, State.setNext, hb]
  case executeDone => split at hs <;> cases hs; rfl
  case write       => split at hs <;> cases hs; rfl

-- The worker gets from one state to the other with nothing pushed on the way.
def Reaches (s s' : State ω) : Prop :=
  ∃ as, (∀ a ∈ as, a.own) ∧ System.run step s as = some s'

theorem Reaches.refl : s.Reaches s :=
  ⟨[], by simp, rfl⟩

theorem Reaches.head (ha : a.own) (hs : s.step a = some s') (h : s'.Reaches s'') :
    s.Reaches s'' := by
  have ⟨as, has, hr⟩ := h
  exact ⟨a :: as, by simpa [ha] using has, by simpa [System.run_cons, hs] using hr⟩

theorem Reaches.trans (h : s.Reaches s') (h' : s'.Reaches s'') : s.Reaches s'' := by
  have ⟨as, has, hr⟩ := h
  have ⟨bs, hbs, hr'⟩ := h'
  refine ⟨as ++ bs, fun a ha => (List.mem_append.mp ha).elim (has a) (hbs a), ?_⟩
  simpa [System.run_append, hr] using hr'

-- `push_cpu(list)` comes to its end.
theorem Inv.reaches_pushed (h : s.Inv) :
    ∃ s', s.Reaches s' ∧ s'.Inv ∧ s'.operations = none ∧ s'.pushed = s.pushed ∧ s'.pc = s.pc := by
  generalize hl : s.listed = l
  induction l generalizing s
  case nil =>
    have ho : Linked s.next s.operations [] := hl ▸ h.list
    exact ⟨s, .refl, h, ho, rfl, rfl⟩
  case cons op l hi =>
    have ho : s.operations = some op := (hl ▸ h.list).1
    have ⟨s', hr, hinv, hn, hp, hpc⟩ := hi (h.pushNext ho) (by simp [State.pushCpu, State.setNext, hl])
    exact ⟨s', hr.head (a := .pushNext) rfl (by simp [State.step, ho]), hinv, hn, hp, hpc⟩

-- So does `reverse_tasks`,
theorem Inv.reaches_reversed {tasks reversed : Option ω} (h : s.Inv)
    (hp : s.pc = .reverse tasks reversed) : ∃ s' tasks', s.Reaches s' ∧ s'.Inv ∧
      s'.pc = .execute tasks' ∧ s'.operations = s.operations ∧ s'.pushed = s.pushed ∧
      s'.cpuHead = s.cpuHead := by
  obtain ⟨l, r, hl, -, he⟩ := hp ▸ h.batch
  have hd : l.Nodup := List.nodup_reverse.mp (List.nodup_append.mp (he ▸ h.nodup_batch)).1
  clear he
  induction l generalizing s tasks reversed
  case nil =>
    obtain rfl : tasks = none := hl
    exact ⟨_, reversed, .head (a := .reverseDone) rfl (by simp only [State.step, hp]) .refl,
      h.reverseDone hp, rfl, rfl, rfl, rfl⟩
  case cons op l hi =>
    obtain ⟨rfl, hl⟩ := hl
    have ⟨hn, hd⟩ := List.nodup_cons.mp hd
    have ⟨s', tasks', hr, hs'⟩ := hi (h.reverseNext hp) rfl (hl.update hn) hd
    exact ⟨s', tasks', hr.head (a := .reverseNext) rfl (by simp only [State.step, hp]), hs'⟩

-- and `execute_tasks`.
theorem Inv.reaches_executed {tasks : Option ω} (h : s.Inv) (hp : s.pc = .execute tasks)
    (ho : s.operations = none) :
    ∃ s', s.Reaches s' ∧ s'.Inv ∧ s'.pc = .idle ∧ s'.operations = none ∧ s'.pushed = s.pushed ∧
      s'.cpuHead = s.cpuHead := by
  generalize hb : s.batch = b
  induction b generalizing s tasks
  case nil =>
    have ht : Linked s.next tasks [] := hb ▸ h.linked_of_execute hp
    obtain rfl : tasks = none := ht
    exact ⟨_, .head (a := .executeDone) rfl (by simp only [State.step, hp, ho]) .refl,
      h.executeDone hp, rfl, ho, rfl, rfl⟩
  case cons op b hi =>
    obtain rfl : tasks = some op := (hb ▸ h.linked_of_execute hp).1
    have ⟨s', hr, hs'⟩ := hi (h.executeNext hp) rfl ho (by simp [hb])
    exact ⟨s', hr.head (a := .executeNext) rfl (by simp only [State.step, hp, ho]), hs'⟩

theorem Inv.reaches_idle (h : s.Inv) : ∃ s', s.Reaches s' ∧ s'.Inv ∧ s'.pc = .idle ∧
    s'.operations = none ∧ s'.pushed = s.pushed := by
  have ⟨m, hm, inv, ho, hpu, hpc⟩ := h.reaches_pushed
  cases hp : m.pc
  case idle          => exact ⟨m, hm, inv, hp, ho, hpu⟩
  case execute tasks =>
    have ⟨s', hr, inv, hp, ho, hpu', _⟩ := inv.reaches_executed hp ho
    exact ⟨s', hm.trans hr, inv, hp, ho, hpu'.trans hpu⟩
  case reverse tasks reversed =>
    have ⟨n, _, hn, inv, hp, ho', hpu', _⟩ := inv.reaches_reversed hp
    have ⟨s', hr, inv, hp, ho, hpu'', _⟩ := inv.reaches_executed hp (ho'.trans ho)
    exact ⟨s', (hm.trans hn).trans hr, inv, hp, ho, hpu''.trans (hpu'.trans hpu)⟩

-- Nothing stays in the queue: `run_cpu_batch` can always be called until everything pushed so far is
-- executed.
def Drains (s : State ω) : Prop :=
  ∃ s', s.Reaches s' ∧ s'.pc = .idle ∧ s'.pushed = s.pushed ∧ s'.executed = s.pushed

omit [DecidableEq ω] in
theorem Inv.executed_of_idle (h : s.Inv) (hp : s.pc = .idle) (ho : s.operations = none)
    (hc : s.cpuHead = none) : s.executed = s.pushed := by
  simpa [h.batch_of_idle hp, h.listed_of_none ho, h.pending_of_none hc] using h.order

theorem Inv.drains (h : s.Inv) : s.Drains := by
  have ⟨m, hm, inv, hp, ho, hpu⟩ := h.reaches_idle
  cases hc : m.cpuHead
  case none    => exact ⟨m, hm, hp, hpu, (inv.executed_of_idle hp ho hc).trans hpu⟩
  case some op =>
    -- one more batch empties the queue
    have ⟨n, _, hn, inv, hpn, hon, hpun, hcn⟩ := (inv.runCpuBatch hp hc).reaches_reversed rfl
    have ⟨s', hs', inv, hp', ho', hpu', hc'⟩ := inv.reaches_executed hpn (hon.trans ho)
    have hb : m.Reaches n := hn.head (a := .runCpuBatch) rfl (by simp only [State.step, hp, ho, hc])
    have hpu : s'.pushed = s.pushed := hpu'.trans (hpun.trans hpu)
    exact ⟨s', (hm.trans hb).trans hs', hp', hpu,
      (inv.executed_of_idle hp' ho' (hc'.trans hcn)).trans hpu⟩

-- The executed operations are the first of the pushed ones, with the batch right behind them; outside
-- of a batch and with nothing in the queue they are all of them.
structure InOrder (s : State ω) : Prop where
  order : s.executed ++ s.batch <+: s.pushed
  idle : s.pc = .idle → s.batch = []
  empty : s.pc = .idle → s.operations = none → s.cpuHead = none → s.executed = s.pushed
  drains : s.Drains

theorem Inv.inOrder (h : s.Inv) : s.InOrder where
  order := ⟨s.pending ++ s.listed, by simp [← h.order]⟩
  idle := h.batch_of_idle
  empty := h.executed_of_idle
  drains := h.drains

theorem local_queue_fifo (as : List (Action ω)) :
    System.Along step Refines ({} : State ω) as ∧ System.Always step InOrder ({} : State ω) as :=
  ⟨.of_invariant Inv.step Inv.refines inv_init, .of_invariant Inv.step Inv.inOrder inv_init⟩

end State
end Bnio.Posix.LocalQueue

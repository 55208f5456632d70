import Bnio.Lib.Chain
import Bnio.Lib.Transition

-- The shared queues of the task queue states: the CPU and the I/O queue of both backends are the same
-- code over different link fields.
namespace Bnio.Posix.SharedQueue

variable {ω : Type*} [DecidableEq ω]

-- A thread in `push_cpu` or `push_io`: its operation, its local `head`, and whether it has written the
-- link and is about to compare and exchange.
structure Pusher (ω : Type*) where
  op : ω
  head : Option ω
  linked : Bool := false

-- A thread that has called `pop_cpu_all` or `pop_io_all` and walks over the list it has got: what it has
-- taken off it and the pointer to the rest. `batch` is what the call has to return.
structure Popper (ω : Type*) where
  rest : Option ω
  taken : List ω := []
  batch : List ω

-- Who may touch an operation.
inductive Holder
  | free | pusher (t : Nat) | queue | popper (t : Nat)
  deriving DecidableEq

-- `pushes` are the operations in the order of their successful compare-exchanges; those since the last
-- exchange are `queue`, the latest one first, and those before it are cut into `batches`.
structure State (ω : Type*) where
  head : Option ω := none
  next : ω → Option ω := fun _ => none
  pushers : Nat → Option (Pusher ω) := fun _ => none
  poppers : Nat → Option (Popper ω) := fun _ => none
  holder : ω → Holder := fun _ => .free
  pushes : List ω := []
  queue : List ω := []
  batches : List (List ω) := []

inductive Action (ω : Type*)
  | load (t : Nat) (op : ω)
  | link (t : Nat)
  -- `compare_exchange_weak`, which may fail although the values are equal
  | compareExchange (t : Nat) (fails : Bool)
  | exchange (t : Nat)
  -- the walk goes on to the next operation, and the one it leaves may be executed and pushed again
  | take (t : Nat)
  | finish (t : Nat)
  -- the link of an operation outside of the queue is used for something else
  | write (op : ω) (v : Option ω)

namespace State

variable (s : State ω)

def setPusher (t : Nat) (p : Option (Pusher ω)) : State ω :=
  { s with pushers := Function.update s.pushers t p }

def setPopper (t : Nat) (p : Option (Popper ω)) : State ω :=
  { s with poppers := Function.update s.poppers t p }

def setNext (op : ω) (v : Option ω) : State ω :=
  { s with next := Function.update s.next op v }

def setHolder (op : ω) (h : Holder) : State ω :=
  { s with holder := Function.update s.holder op h }

def step : Action ω → Option (State ω)
  | .load t op =>
    match s.pushers t, s.holder op with
    | none, .free => some ((s.setPusher t (some { op, head := s.head })).setHolder op (.pusher t))
    | _,    _     => none
  | .link t =>
    match s.pushers t with
    | some ⟨op, head, false⟩ => some ((s.setNext op head).setPusher t (some ⟨op, head, true⟩))
    | _                      => none
  | .compareExchange t fails =>
    match s.pushers t with
    | some ⟨op, head, true⟩ =>
      if s.head = head ∧ ¬fails then
        some <| setHolder { s.setPusher t none with
          head := some op, pushes := s.pushes ++ [op], queue := op :: s.queue } op .queue
      else some (s.setPusher t (some ⟨op, s.head, false⟩))
    | _ => none
  | .exchange t =>
    match s.poppers t with
    | none =>
      some { s.setPopper t (some { rest := s.head, batch := s.queue }) with
        head := none, queue := [], batches := s.batches ++ [s.queue]
        holder := fun op => if op ∈ s.queue then .popper t else s.holder op }
    | _    => none
  | .take t =>
    match s.poppers t with
    | some ⟨some op, taken, batch⟩ =>
      some ((s.setPopper t (some ⟨s.next op, taken ++ [op], batch⟩)).setHolder op .free)
    | _ => none
  | .finish t =>
    match s.poppers t with
    | some ⟨none, _, _⟩ => some (s.setPopper t none)
    | _                 => none
  | .write op v => if s.holder op = .free then some (s.setNext op v) else none

-- The list that a popper still has to walk over.
structure Walks (s : State ω) (t : Nat) (p : Popper ω) (l : List ω) : Prop where
  linked : Linked s.next p.rest l
  eq : p.taken ++ l = p.batch
  nodup : p.batch.Nodup
  mem : p.batch ∈ s.batches
  held : ∀ op ∈ l, s.holder op = .popper t

structure Inv (s : State ω) : Prop where
  linked : Linked s.next s.head s.queue
  nodup : s.queue.Nodup
  held : ∀ op, op ∈ s.queue ↔ s.holder op = .queue
  pushers : ∀ {t p}, s.pushers t = some p → s.holder p.op = .pusher t ∧ (p.linked → s.next p.op = p.head)
  poppers : ∀ {t p}, s.poppers t = some p → ∃ l, s.Walks t p l
  history : (s.batches.map List.reverse).flatten ++ s.queue.reverse = s.pushes

variable {s} {s' : State ω} {a : Action ω}

omit [DecidableEq ω] in
theorem inv_init : ({} : State ω).Inv :=
  ⟨rfl, .nil, by simp, nofun, nofun, rfl⟩

omit [DecidableEq ω] in
-- A popper owns what it has not walked over yet.
theorem Walks.frame {t : Nat} {p : Popper ω} {l : List ω} (h : s.Walks t p l)
    (hs : ∀ op, s.holder op = .popper t → s'.next op = s.next op ∧ s'.holder op = .popper t)
    (hb : s.batches ⊆ s'.batches) : s'.Walks t p l :=
  ⟨h.linked.congr fun op hop => (hs op (h.held op hop)).1, h.eq, h.nodup, hb h.mem,
    fun op hop => (hs op (h.held op hop)).2⟩

theorem Inv.load {t : Nat} {op : ω} (h : s.Inv) (hp : s.pushers t = none) (ho : s.holder op = .free) :
    ((s.setPusher t (some { op, head := s.head })).setHolder op (.pusher t)).Inv where
  linked := h.linked
  nodup := h.nodup
  held o := by
    by_cases he : o = op
    case pos => simp [he, setHolder, setPusher, h.held, ho]
    case neg => simp [he, setHolder, setPusher, h.held]
  pushers {u p} hu := by
    by_cases he : u = t
    case pos =>
      subst he
      obtain rfl : _ = p := by simpa [setHolder, setPusher] using hu
      simp [setHolder]
    case neg =>
      have hu : s.pushers u = some p := by simpa [setHolder, setPusher, he] using hu
      have ⟨hh, hl⟩ := h.pushers hu
      have hne : p.op ≠ op := fun he => by simp [he, ho] at hh
      simpa [setHolder, setPusher, hne] using ⟨hh, hl⟩
  poppers hu := by
    have ⟨l, hw⟩ := h.poppers hu
    refine ⟨l, hw.frame (fun o hh => ⟨rfl, ?_⟩) fun _ => id⟩
    have hne : o ≠ op := fun he => by simp [he, ho] at hh
    simpa [setHolder, setPusher, hne] using hh
  history := h.history

-- Writing the link of an operation that is neither in the queue nor in a list that is walked over.
theorem Inv.setNext {op : ω} (h : s.Inv) (v : Option ω) (hq : s.holder op ≠ .queue)
    (hw : ∀ t, s.holder op ≠ .popper t)
    (hp : ∀ t p, s.pushers t = some p → p.op = op → p.linked = false) : (s.setNext op v).Inv where
  linked := h.linked.update fun hm => hq ((h.held op).mp hm)
  nodup := h.nodup
  held := h.held
  pushers {u p} hu := by
    have ⟨hh, hl⟩ := h.pushers hu
    refine ⟨hh, fun hlinked => ?_⟩
    have hne : p.op ≠ op := fun he => by simp [hp u p hu he] at hlinked
    simpa [State.setNext, hne] using hl hlinked
  poppers {u p} hu := by
    have ⟨l, hl⟩ := h.poppers hu
    refine ⟨l, hl.frame (fun o hh => ⟨?_, hh⟩) fun _ => id⟩
    have hne : o ≠ op := fun he => hw u (he ▸ hh)
    simp [State.setNext, hne]
  history := h.history

omit [DecidableEq ω] in
theorem Inv.setPusher {t : Nat} {p p' : Pusher ω} (h : s.Inv) (hp : s.pushers t = some p)
    (hop : p'.op = p.op) (hl : p'.linked → s.next p'.op = p'.head) : (s.setPusher t (some p')).Inv where
  linked := h.linked
  nodup := h.nodup
  held := h.held
  pushers {u q} hu := by
    by_cases he : u = t
    case pos =>
      subst he
      obtain rfl : p' = q := by simpa [State.setPusher] using hu
      exact ⟨hop ▸ (h.pushers hp).1, hl⟩
    case neg => exact h.pushers (by simpa [State.setPusher, he] using hu)
  poppers hu := by
    have ⟨l, hw⟩ := h.poppers hu
    exact ⟨l, hw.frame (fun _ hh => ⟨rfl, hh⟩) fun _ => id⟩
  history := h.history

theorem Inv.link {t : Nat} {op : ω} {head : Option ω} (h : s.Inv)
    (hp : s.pushers t = some ⟨op, head, false⟩) :
    ((s.setNext op head).setPusher t (some ⟨op, head, true⟩)).Inv := by
  have hh : s.holder op = .pusher t := (h.pushers hp).1
  have hnext : (s.setNext op head).Inv := by
    refine h.setNext head (by simp [hh]) (by simp [hh]) fun u p hu hop => ?_
    have hu' := (h.pushers hu).1
    rw [hop, hh] at hu'
    cases hu'
    obtain rfl : _ = p := Option.some.inj (hp.symm.trans hu)
    rfl
  exact hnext.setPusher (p := ⟨op, head, false⟩) hp rfl fun _ => by simp [State.setNext]

-- The private link of a pusher is right when its compare-exchange succeeds: the head is the one it has
-- read, whatever has happened to the queue in between.
theorem Inv.push {t : Nat} {op : ω} (h : s.Inv) (hp : s.pushers t = some ⟨op, s.head, true⟩) :
    (setHolder { s.setPusher t none with
      head := some op, pushes := s.pushes ++ [op], queue := op :: s.queue } op .queue).Inv := by
  have ⟨hh, hl⟩ := h.pushers hp
  have hn : op ∉ s.queue := fun hm => by
    have := (h.held op).mp hm
    simp_all
  refine ⟨⟨rfl, ?_⟩, List.nodup_cons.mpr ⟨hn, h.nodup⟩, fun o => ?_, fun {u p} hu => ?_,
    fun {u p} hu => ?_, ?_⟩
  · exact hl rfl ▸ h.linked
  · by_cases he : o = op
    case pos => simp [he, setHolder]
    case neg => simp [he, setHolder, State.setPusher, h.held]
  · have hne : u ≠ t := fun he => by simp [he, setHolder, State.setPusher] at hu
    have hu : s.pushers u = some p := by simpa [setHolder, State.setPusher, hne] using hu
    have ⟨hh', hl'⟩ := h.pushers hu
    have hop : p.op ≠ op := fun he => hne (by simpa [he, hh] using hh'.symm)
    simpa [setHolder, State.setPusher, hop] using ⟨hh', hl'⟩
  · have ⟨l, hw⟩ := h.poppers hu
    refine ⟨l, hw.frame (fun o ho => ⟨rfl, ?_⟩) fun _ => id⟩
    have hne : o ≠ op := fun he => by simp [he, hh] at ho
    simpa [setHolder, State.setPusher, hne] using ho
  · simp [setHolder, State.setPusher, ← h.history]

theorem Inv.exchange {t : Nat} (h : s.Inv) (hp : s.poppers t = none) :
    State.Inv { s.setPopper t (some { rest := s.head, batch := s.queue }) with
      head := none, queue := [], batches := s.batches ++ [s.queue]
      holder := fun op => if op ∈ s.queue then .popper t else s.holder op } := by
  refine ⟨rfl, .nil, fun o => ?_, fun {u p} hu => ?_, fun {u p} hu => ?_, ?_⟩
  · by_cases hm : o ∈ s.queue
    case pos => simp [hm]
    case neg => simpa [hm] using fun he => hm ((h.held o).mpr he)
  · have ⟨hh, hl⟩ := h.pushers hu
    have hm : p.op ∉ s.queue := fun hm => by simp [(h.held _).mp hm] at hh
    exact ⟨by simpa [hm] using hh, hl⟩
  · by_cases he : u = t
    case pos =>
      subst he
      obtain rfl : _ = p := by simpa [setPopper] using hu
      exact ⟨s.queue, h.linked, rfl, h.nodup, by simp, fun o hm => by simp [hm]⟩
    case neg =>
      have hu : s.poppers u = some p := by simpa [setPopper, he] using hu
      have ⟨l, hw⟩ := h.poppers hu
      refine ⟨l, hw.frame (fun o ho => ⟨rfl, ?_⟩) (by simp)⟩
      have hm : o ∉ s.queue := fun hm => by simp [(h.held _).mp hm] at ho
      simpa [hm] using ho
  · simpa [setPopper] using h.history

theorem Inv.take {t : Nat} {op : ω} {taken batch : List ω} (h : s.Inv)
    (hp : s.poppers t = some ⟨some op, taken, batch⟩) :
    ((s.setPopper t (some ⟨s.next op, taken ++ [op], batch⟩)).setHolder op .free).Inv := by
  have ⟨l, hw⟩ := h.poppers hp
  obtain ⟨l, rfl, hl⟩ := hw.linked.of_some
  have hh : s.holder op = .popper t := hw.held op (by simp)
  refine ⟨h.linked, h.nodup, fun o => ?_, fun {u p} hu => ?_, fun {u p} hu => ?_, h.history⟩
  · by_cases he : o = op
    case pos => simp [he, setHolder, setPopper, h.held, hh]
    case neg => simp [he, setHolder, setPopper, h.held]
  · have ⟨hh', hl'⟩ := h.pushers hu
    have hne : p.op ≠ op := fun he => by simp [he, hh] at hh'
    simpa [setHolder, setPopper, hne] using ⟨hh', hl'⟩
  · by_cases he : u = t
    case pos =>
      subst he
      obtain rfl : _ = p := by simpa [setHolder, setPopper] using hu
      have hnodup : (op :: l).Nodup := (List.nodup_append.mp (hw.eq ▸ hw.nodup)).2.1
      refine ⟨l, hl, by simpa using hw.eq, hw.nodup, hw.mem, fun o hm => ?_⟩
      have hne : o ≠ op := ne_of_mem_of_not_mem hm (List.nodup_cons.mp hnodup).1
      simpa [setHolder, setPopper, hne] using hw.held o (by simp [hm])
    case neg =>
      have hu : s.poppers u = some p := by simpa [setHolder, setPopper, he] using hu
      have ⟨l, hw⟩ := h.poppers hu
      refine ⟨l, hw.frame (fun o ho => ⟨rfl, ?_⟩) fun _ => id⟩
      have hne : o ≠ op := fun hop => he (by simpa [hop, hh] using ho.symm)
      simpa [setHolder, setPopper, hne] using ho

omit [DecidableEq ω] in
theorem Inv.finish {t : Nat} (h : s.Inv) : (s.setPopper t none).Inv := by
  refine ⟨h.linked, h.nodup, h.held, h.pushers, fun {u p} hu => ?_, h.history⟩
  have hne : u ≠ t := fun he => by simp [he, setPopper] at hu
  have hu : s.poppers u = some p := by simpa [setPopper, hne] using hu
  have ⟨l, hw⟩ := h.poppers hu
  exact ⟨l, hw.frame (fun _ hh => ⟨rfl, hh⟩) fun _ => id⟩

theorem Inv.step (h : s.Inv) (hs : s.step a = some s') : s'.Inv := by
  cases a <;> simp only [State.step] at hs
  case load t op =>
    split at hs <;> cases hs
    case h_1 hp ho => exact h.load hp ho
  case link t =>
    split at hs <;> cases hs
    case h_1 hp => exact h.link hp
  case compareExchange t fails =>
    split at hs
    case h_1 op head hp =>
      split at hs <;> cases hs
      case isTrue hc => exact h.push (hc.1 ▸ hp)
      case isFalse   => exact h.setPusher hp rfl nofun
    case h_2 => cases hs
  case exchange t =>
    split at hs <;> cases hs
    case h_1 hp => exact h.exchange hp
  case take t =>
    split at hs <;> cases hs
    case h_1 hp => exact h.take hp
  case finish t =>
    split at hs <;> cases hs
    case h_1 => exact h.finish
  case write op v =>
    split at hs <;> cases hs
    case isTrue ho =>
      refine h.setNext v (by simp [ho]) (by simp [ho]) fun u p hu hop => ?_
      have := (h.pushers hu).1
      simp [hop, ho] at this

-- The queue in memory, and what the calls have returned: the lists that the exchanges have cut off are
-- the operations pushed since the one before, the latest one first, and a thread that walks over its
-- list gets to the end of it with exactly these.
structure Sound (s : State ω) : Prop where
  history : (s.batches.map List.reverse).flatten ++ s.queue.reverse = s.pushes
  queue : Linked s.next s.head s.queue ∧ s.queue.Nodup
  returned : ∀ t p, s.poppers t = some p → p.batch ∈ s.batches ∧ p.batch.Nodup ∧
    ∃ l, Linked s.next p.rest l ∧ p.taken ++ l = p.batch
  walked : ∀ t p, s.poppers t = some p → ∃ n s', System.run step s (.replicate n (.take t)) = some s' ∧
    s'.poppers t = some ⟨none, p.batch, p.batch⟩

theorem Inv.walked {t : Nat} {p : Popper ω} (h : s.Inv) (hp : s.poppers t = some p) :
    ∃ n s', System.run State.step s (.replicate n (.take t)) = some s' ∧
      s'.poppers t = some ⟨none, p.batch, p.batch⟩ := by
  obtain ⟨l, hw⟩ := h.poppers hp
  have hl := hw.linked
  have he := hw.eq
  clear hw
  induction l generalizing s p
  case nil =>
    obtain ⟨rest, taken, batch⟩ := p
    obtain rfl : rest = none := hl
    obtain rfl : taken = batch := by simpa using he
    exact ⟨0, s, rfl, hp⟩
  case cons op l hi =>
    obtain ⟨rest, taken, batch⟩ := p
    obtain ⟨rfl, hl⟩ : rest = some op ∧ Linked s.next (s.next op) l := hl
    have hstep : s.step (.take t) =
        some ((s.setPopper t (some ⟨s.next op, taken ++ [op], batch⟩)).setHolder op .free) := by
      simp only [State.step, hp]
    have ⟨n, s', hr, hs'⟩ := hi (h.take hp) (p := ⟨s.next op, taken ++ [op], batch⟩)
      (by simp [setHolder, setPopper]) hl (by simpa using he)
    exact ⟨n + 1, s', by rw [List.replicate_succ, System.run_cons, hstep]; exact hr, hs'⟩

theorem Inv.sound (h : s.Inv) : s.Sound where
  history := h.history
  queue := ⟨h.linked, h.nodup⟩
  returned _ _ hp :=
    have ⟨l, hw⟩ := h.poppers hp
    ⟨hw.mem, hw.nodup, l, hw.linked, hw.eq⟩
  walked _ _ := h.walked

end State

-- The queue as a bag: a push puts its operation in front of the contents, if the first of them is still
-- the one it has seen, and an exchange returns all of them.
structure Bag (ω : Type*) where
  contents : List ω
  pushers : Nat → Option (Pusher ω)
  -- the list that a thread has got, and what it has taken off it
  walks : Nat → Option (List ω × List ω)
  holder : ω → Holder
  pushes : List ω
  batches : List (List ω)

namespace Bag

variable (b : Bag ω)

def setPusher (t : Nat) (p : Option (Pusher ω)) : Bag ω :=
  { b with pushers := Function.update b.pushers t p }

def setWalk (t : Nat) (w : Option (List ω × List ω)) : Bag ω :=
  { b with walks := Function.update b.walks t w }

def setHolder (op : ω) (h : Holder) : Bag ω :=
  { b with holder := Function.update b.holder op h }

def step : Action ω → Option (Bag ω)
  | .load t op =>
    if b.pushers t = none ∧ b.holder op = .free then
      some ((b.setPusher t (some { op, head := b.contents.head? })).setHolder op (.pusher t))
    else none
  | .link t =>
    (b.pushers t).bind fun p =>
      if p.linked then none else some (b.setPusher t (some { p with linked := true }))
  | .compareExchange t fails =>
    (b.pushers t).bind fun p =>
      if !p.linked then none
      else if b.contents.head? = p.head ∧ ¬fails then
        some <| setHolder { b.setPusher t none with
          contents := p.op :: b.contents, pushes := b.pushes ++ [p.op] } p.op .queue
      else some (b.setPusher t (some { p with head := b.contents.head?, linked := false }))
  | .exchange t =>
    if b.walks t = none then
      some { b.setWalk t (some (b.contents, [])) with
        contents := [], batches := b.batches ++ [b.contents]
        holder := fun op => if op ∈ b.contents then .popper t else b.holder op }
    else none
  | .take t =>
    (b.walks t).bind fun w =>
      (w.1.drop w.2.length).head?.map fun op => (b.setWalk t (some (w.1, w.2 ++ [op]))).setHolder op .free
  | .finish t =>
    (b.walks t).bind fun w => if w.2 = w.1 then some (b.setWalk t none) else none
  | .write op _ => if b.holder op = .free then some b else none

end Bag

namespace State

def bag (s : State ω) : Bag ω where
  contents := s.queue
  pushers := s.pushers
  walks t := (s.poppers t).map fun p => (p.batch, p.taken)
  holder := s.holder
  pushes := s.pushes
  batches := s.batches

-- Whatever a call does to the links in memory, it does the same to the bag.
def Refines (s : State ω) (a : Action ω) : Prop :=
  (s.step a).map bag = s.bag.step a

variable {s s' : State ω} {a : Action ω} {t : Nat} {op : ω}

omit [DecidableEq ω] in
theorem bag_setPopper {p : Option (Popper ω)} :
    (s.setPopper t p).bag = s.bag.setWalk t (p.map fun p => (p.batch, p.taken)) := by
  simp only [bag, Bag.setWalk, setPopper, Bag.mk.injEq, true_and, and_true]
  exact Function.comp_update (Option.map _) ..

omit [DecidableEq ω] in
theorem Inv.head?_contents (h : s.Inv) : s.bag.contents.head? = s.head :=
  h.linked.head?_eq

theorem Inv.refines_load (h : s.Inv) : s.Refines (.load t op) := by
  unfold Refines
  by_cases hg : s.pushers t = none ∧ s.holder op = .free
  case pos =>
    have hb : s.bag.pushers t = none ∧ s.bag.holder op = .free := hg
    simp only [State.step, Bag.step, hg, if_pos hb, h.head?_contents]
    rfl
  case neg =>
    have hb : ¬(s.bag.pushers t = none ∧ s.bag.holder op = .free) := hg
    simp only [State.step, Bag.step, if_neg hb]
    split
    case h_1 hp ho => exact absurd ⟨hp, ho⟩ hg
    case h_2       => rfl

theorem refines_link : s.Refines (.link t) := by
  unfold Refines
  cases hp : s.pushers t
  case none   => simp [State.step, Bag.step, hp, show s.bag.pushers t = none from hp]
  case some p =>
    have hb : s.bag.pushers t = some p := hp
    obtain ⟨op, head, linked⟩ := p
    cases linked
    case false => simp only [State.step, Bag.step, hp, hb]; rfl
    case true  => simp only [State.step, Bag.step, hp, hb]; rfl

theorem Inv.refines_compareExchange {fails : Bool} (h : s.Inv) :
    s.Refines (.compareExchange t fails) := by
  unfold Refines
  cases hp : s.pushers t
  case none   => simp [State.step, Bag.step, hp, show s.bag.pushers t = none from hp]
  case some p =>
    have hb : s.bag.pushers t = some p := hp
    obtain ⟨op, head, linked⟩ := p
    cases linked
    case false => simp only [State.step, Bag.step, hp, hb]; rfl
    case true  =>
      by_cases hs : s.head = head ∧ ¬fails
      case pos =>
        simp only [State.step, Bag.step, hp, hb, Option.bind_some, h.head?_contents, if_pos hs]
        rfl
      case neg =>
        simp only [State.step, Bag.step, hp, hb, Option.bind_some, h.head?_contents, if_neg hs]
        rfl

theorem refines_exchange : s.Refines (.exchange t) := by
  unfold Refines
  cases hp : s.poppers t
  case none =>
    have hb : s.bag.walks t = none := by simp [bag, hp]
    simp only [State.step, Bag.step, hp, hb, if_true, Option.map_some]
    exact congrArg (fun b : Bag ω => some { b with
      contents := [], batches := s.batches ++ [s.queue]
      holder := fun op => if op ∈ s.queue then .popper t else s.holder op }) bag_setPopper
  case some p =>
    have hb : s.bag.walks t ≠ none := by simp [bag, hp]
    simp only [State.step, Bag.step, hp, hb, if_false, Option.map_none]

-- A walk is at the end of its list in memory when it has taken all of its batch.
theorem Inv.refines_take (h : s.Inv) : s.Refines (.take t) := by
  unfold Refines
  cases hp : s.poppers t
  case none   => simp [State.step, Bag.step, hp, bag]
  case some p =>
    obtain ⟨l, hw⟩ := h.poppers hp
    obtain ⟨rest, taken, batch⟩ := p
    have hb : s.bag.walks t = some (batch, taken) := by simp [bag, hp]
    have hl : batch.drop taken.length = l := by
      rw [show batch = taken ++ l from hw.eq.symm, List.drop_left]
    have hrest : l.head? = rest := hw.linked.head?_eq
    cases rest
    case none    =>
      simp only [State.step, Bag.step, hp, hb, Option.bind_some, hl, hrest, Option.map_none]
    case some op =>
      simp only [State.step, Bag.step, hp, hb, Option.bind_some, hl, hrest, Option.map_some]
      exact congrArg (fun b : Bag ω => some (b.setHolder op .free)) bag_setPopper

theorem Inv.refines_finish (h : s.Inv) : s.Refines (.finish t) := by
  unfold Refines
  cases hp : s.poppers t
  case none   => simp [State.step, Bag.step, hp, bag]
  case some p =>
    obtain ⟨l, hw⟩ := h.poppers hp
    obtain ⟨rest, taken, batch⟩ := p
    have hb : s.bag.walks t = some (batch, taken) := by simp [bag, hp]
    cases rest
    case none =>
      obtain rfl := hw.linked.of_none
      have he : taken = batch := by simpa using hw.eq
      simp only [State.step, Bag.step, hp, hb, Option.bind_some, if_pos he, Option.map_some]
      exact congrArg some bag_setPopper
    case some op =>
      obtain ⟨l, rfl, -⟩ := hw.linked.of_some
      have he : taken ≠ batch := fun he => by simpa [he] using hw.eq
      simp only [State.step, Bag.step, hp, hb, Option.bind_some, if_neg he, Option.map_none]

theorem refines_write {v : Option ω} : s.Refines (.write op v) := by
  unfold Refines
  by_cases ho : s.holder op = .free
  case pos =>
    simp only [State.step, Bag.step, if_pos ho, if_pos (show s.bag.holder op = .free from ho)]
    rfl
  case neg => simp only [State.step, Bag.step, if_neg ho, if_neg (show ¬s.bag.holder op = .free from ho),
    Option.map_none]

theorem Inv.refines (h : s.Inv) : s.Refines a := by
  cases a
  case load            => exact h.refines_load
  case link            => exact refines_link
  case compareExchange => exact h.refines_compareExchange
  case exchange        => exact refines_exchange
  case take            => exact h.refines_take
  case finish          => exact h.refines_finish
  case write           => exact refines_write

theorem shared_queue_bag (as : List (Action ω)) :
    System.Along step Refines ({} : State ω) as ∧ System.Always step Sound ({} : State ω) as :=
  ⟨.of_invariant Inv.step Inv.refines inv_init, .of_invariant Inv.step Inv.sound inv_init⟩

end State
end Bnio.Posix.SharedQueue

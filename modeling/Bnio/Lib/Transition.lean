import Mathlib

-- A guarded system is a step function: `step s a = none` when the action `a` is not enabled in `s`.
-- Actions carry every choice of the environment, so a list of actions determines a run.
abbrev System (σ α : Type*) := σ → α → Option σ

namespace System

variable {σ α : Type*} (step : System σ α) {s s' : σ} {a : α} {as bs : List α}

def run : σ → List α → Option σ
  | s, []      => some s
  | s, a :: as => (step s a).bind (run · as)

-- Every step taken on the way from `s` satisfies `good`.
def Along (good : σ → α → Prop) : σ → List α → Prop
  | _, []      => True
  | s, a :: as => good s a ∧ ∀ s', step s a = some s' → Along good s' as

-- Every state visited on the way from `s` (the first and the last one included) satisfies `P`.
def Always (P : σ → Prop) : σ → List α → Prop
  | s, []      => P s
  | s, a :: as => P s ∧ ∀ s', step s a = some s' → Always P s' as

-- What the steps taken on the way from `s` record, from the first one on.
def gathered {β : Type*} (log : σ → α → List β) : σ → List α → List β
  | _, []      => []
  | s, a :: as => log s a ++ (step s a).elim [] (gathered log · as)

@[simp]
theorem run_nil : run step s [] = some s :=
  rfl

theorem run_cons : run step s (a :: as) = (step s a).bind (run step · as) :=
  rfl

theorem run_cons_eq_some :
    run step s (a :: as) = some s' ↔ ∃ m, step s a = some m ∧ run step m as = some s' := by
  simp [run_cons, Option.bind_eq_some_iff]

theorem run_append : run step s (as ++ bs) = (run step s as).bind (run step · bs) := by
  induction as generalizing s
  case nil          => rfl
  case cons a as hi =>
    cases h : step s a
    case none   => simp [run_cons, h]
    case some m => simp [run_cons, h, hi]

variable {step} {good : σ → α → Prop} {P I : σ → Prop}

instance Along.decidable [∀ s a, Decidable (good s a)] :
    (s : σ) → (as : List α) → Decidable (Along step good s as)
  | _, []      => .isTrue trivial
  | s, a :: as =>
    match h : step s a with
    | none   => decidable_of_iff (good s a) ⟨(⟨·, by simp [h]⟩), And.left⟩
    | some m =>
      have := Along.decidable m as
      decidable_of_iff (good s a ∧ Along step good m as) <|
        and_congr_right fun _ => ⟨fun hm s' hs => Option.some.inj (h.symm.trans hs) ▸ hm, (· m h)⟩

theorem along_append (hr : run step s as = some s') :
    Along step good s (as ++ bs) ↔ Along step good s as ∧ Along step good s' bs := by
  induction as generalizing s
  case nil          => simp [Along, Option.some.inj hr]
  case cons a as hi =>
    have ⟨m, hm, hr⟩ := run_cons_eq_some step |>.mp hr
    simp only [List.cons_append, Along, hm, Option.some.injEq, forall_eq', hi hr, and_assoc]

theorem Along.of_forall {good : α → Prop} (h : ∀ a ∈ as, good a) :
    Along step (fun _ => good) s as := by
  induction as generalizing s
  case nil          => trivial
  case cons a as hi =>
    have ⟨ha, has⟩ := List.forall_mem_cons.mp h
    exact ⟨ha, fun _ _ => hi has⟩

-- The invariant rule: what the first state has and every good step keeps holds after every run of
-- good steps.
theorem Along.invariant
    (keep : ∀ {s a s'}, I s → good s a → step s a = some s' → I s') (init : I s)
    (along : Along step good s as) (h : run step s as = some s') : I s' := by
  induction as generalizing s
  case nil          => exact (Option.some.inj h) ▸ init
  case cons a as hi =>
    have ⟨m, hm, hr⟩ := run_cons_eq_some step |>.mp h
    exact hi (keep init along.left hm) (along.right m hm) hr

-- What a good step implies in the states of an invariant holds of every step of a run of good steps.
theorem Along.imp {good' : σ → α → Prop}
    (keep : ∀ {s a s'}, I s → good s a → step s a = some s' → I s')
    (imp : ∀ {s a}, I s → good s a → good' s a) (init : I s) (along : Along step good s as) :
    Along step good' s as := by
  induction as generalizing s
  case nil          => trivial
  case cons a as hi =>
    exact ⟨imp init along.left, fun m hm => hi (keep init along.left hm) (along.right m hm)⟩

theorem invariant
    (keep : ∀ {s a s'}, I s → step s a = some s' → I s') (init : I s)
    (h : run step s as = some s') : I s' := by
  induction as generalizing s
  case nil          => exact (Option.some.inj h) ▸ init
  case cons a as hi =>
    have ⟨m, hm, hr⟩ := run_cons_eq_some step |>.mp h
    exact hi (keep init hm) hr

theorem Always.head : Always step P s as → P s := by
  cases as
  case nil  => exact id
  case cons => exact And.left

theorem Always.last (h : Always step P s as) (hr : run step s as = some s') : P s' := by
  induction as generalizing s
  case nil          => exact (Option.some.inj hr) ▸ h
  case cons a as hi =>
    have ⟨m, hm, hr⟩ := run_cons_eq_some step |>.mp hr
    exact hi (h.right m hm) hr

-- Along a run of good steps `P` holds everywhere, once `P` follows from an invariant.
theorem Along.always
    (keep : ∀ {s a s'}, I s → good s a → step s a = some s' → I s')
    (imp : ∀ {s}, I s → P s) (init : I s) (along : Along step good s as) :
    Always step P s as := by
  induction as generalizing s
  case nil          => exact imp init
  case cons a as hi =>
    exact ⟨imp init, fun m hm => hi (keep init along.left hm) (along.right m hm)⟩

theorem Always.of_invariant
    (keep : ∀ {s a s'}, I s → step s a = some s' → I s') (imp : ∀ {s}, I s → P s)
    (init : I s) : Always step P s as := by
  induction as generalizing s
  case nil          => exact imp init
  case cons a as hi => exact ⟨imp init, fun m hm => hi (keep init hm)⟩

theorem Along.of_invariant
    (keep : ∀ {s a s'}, I s → step s a = some s' → I s') (imp : ∀ {s a}, I s → good s a)
    (init : I s) : Along step good s as := by
  induction as generalizing s
  case nil          => trivial
  case cons a as hi => exact ⟨imp init, fun m hm => hi (keep init hm)⟩

-- When moreover every enabled step that is not good leaves `P`, the good runs are exactly the
-- runs that stay in `P`.
theorem always_iff_along
    (keep : ∀ {s a s'}, I s → good s a → step s a = some s' → I s')
    (imp : ∀ {s}, I s → P s)
    (sharp : ∀ {s a s'}, I s → step s a = some s' → P s' → good s a)
    (init : I s) (h : run step s as = some s') :
    Always step P s as ↔ Along step good s as := by
  refine ⟨fun always => ?_, Along.always keep imp init⟩
  induction as generalizing s
  case nil          => trivial
  case cons a as hi =>
    have ⟨m, hm, hr⟩ := run_cons_eq_some step |>.mp h
    have good_a := sharp init hm (always.right m hm).head
    refine ⟨good_a, fun m' hm' => ?_⟩
    cases hm.symm.trans hm'
    exact hi (keep init good_a hm) hr (always.right m hm)

theorem gathered_cons {β : Type*} {log : σ → α → List β} (h : step s a = some s') :
    gathered step log s (a :: as) = log s a ++ gathered step log s' as := by
  simp [gathered, h]

-- The invariant rule for properties that also speak of what has been recorded so far.
theorem Along.gathered_invariant {β : Type*} {log : σ → α → List β} {J : σ → List β → Prop}
    (keep : ∀ {s a s' l}, J s l → good s a → step s a = some s' → J s' (l ++ log s a))
    {l : List β} (init : J s l) (along : Along step good s as) (h : run step s as = some s') :
    J s' (l ++ gathered step log s as) := by
  induction as generalizing s l
  case nil          => simpa [gathered, ← Option.some.inj h] using init
  case cons a as hi =>
    have ⟨m, hm, hr⟩ := run_cons_eq_some step |>.mp h
    rw [gathered_cons hm, ← List.append_assoc]
    exact hi (keep init along.left hm) (along.right m hm) hr

-- Amortised cost: when every good step is paid for by a potential, and only what it records adds to the
-- potential, the steps of a run that `counts` names are bounded by what the run starts with and records.
theorem Along.amortized {β : Type*} {log : σ → α → List β} {Φ : σ → Nat} {counts : α → Bool} {c : Nat}
    (keep : ∀ {s a s'}, I s → good s a → step s a = some s' → I s' ∧
      Φ s' + (if counts a then 1 else 0) ≤ Φ s + (log s a).length * c)
    (init : I s) (along : Along step good s as) (h : run step s as = some s') :
    Φ s' + as.countP counts ≤ Φ s + (gathered step log s as).length * c := by
  induction as generalizing s
  case nil          => simp [gathered, Option.some.inj h]
  case cons a as hi =>
    have ⟨m, hm, hr⟩ := run_cons_eq_some step |>.mp h
    have ⟨inv, hpay⟩ := keep init along.left hm
    have hrest := hi inv (along.right m hm) hr
    rw [gathered_cons hm, List.length_append, Nat.add_mul, List.countP_cons]
    omega

-- Conservation: when every step adds to `held` what it records, and nothing else, then so does every
-- run.
theorem gathered_perm {β : Type*} {log : σ → α → List β} {held : σ → List β}
    (keep : ∀ {s a s'}, I s → step s a = some s' → I s' ∧ (held s').Perm (log s a ++ held s))
    (init : I s) (h : run step s as = some s') :
    (held s').Perm (gathered step log s as ++ held s) := by
  induction as generalizing s
  case nil          => exact (Option.some.inj h) ▸ .refl _
  case cons a as hi =>
    have ⟨m, hm, hr⟩ := run_cons_eq_some step |>.mp h
    have ⟨inv, hp⟩ := keep init hm
    rw [gathered_cons hm]
    calc held s'
      _ |>.Perm (gathered step log m as ++ held m) := hi inv hr
      _ |>.Perm (gathered step log m as ++ (log s a ++ held s)) := hp.append_left _
      _ |>.Perm (log s a ++ gathered step log m as ++ held s) := by
        rw [← List.append_assoc]
        exact List.perm_append_comm.append_right _

end System

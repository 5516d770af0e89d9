import Mathlib.Data.List.Count
import Mathlib.Data.List.Induction
import Mathlib.Tactic.Common

/-!
# Machines that consume a schedule

A machine takes one input at a time, may fail, and emits a list of outputs.  `run`
feeds it a list of inputs.  `deliveries` turns per-sender programs and a schedule
of sender names into such a list: the `n`-th occurrence of a sender in the
schedule delivers that sender's `n`-th message.  The lists it produces are exactly
the interleavings that keep every sender's own order, so a statement about every
schedule is a statement about every such interleaving.

## Main definitions

* `run step s is` — the state and the outputs after the inputs `is`.
* `deliveries prog sched` — the interleaving of the programs that `sched` names.
* `run_invariant`, `run_along`, `run_loop`, `run_total` — the invariant rules for runs.
* `run_along_length_le`, `run_length_le` — the rules for runs that end.
* `Throughout` — a property of every event of a history.
* `run_deliveries_induction` — the invariant rule for schedules: what the empty schedule
  establishes and one more delivery keeps, every schedule reaches without failing.
-/

namespace FlexPS.Lib

variable {σ ι ω μ : Type}

/-- Feed the inputs in order, collecting the outputs; `none` once a step fails. -/
def run (step : σ → ι → Option (σ × List ω)) : σ → List ι → Option (σ × List ω)
  | s, [] => some (s, [])
  | s, i :: is => do
      let (s₁, o₁) ← step s i
      let (s₂, o₂) ← run step s₁ is
      some (s₂, o₁ ++ o₂)

@[simp] theorem run_nil (step : σ → ι → Option (σ × List ω)) (s : σ) :
    run step s [] = some (s, []) := rfl

theorem run_cons (step : σ → ι → Option (σ × List ω)) (s : σ) (i : ι) (is : List ι) :
    run step s (i :: is) = (step s i).bind fun p =>
      (run step p.1 is).bind fun q => some (q.1, p.2 ++ q.2) := rfl

theorem run_append (step : σ → ι → Option (σ × List ω)) (s : σ) (is js : List ι) :
    run step s (is ++ js) = (run step s is).bind fun p =>
      (run step p.1 js).bind fun q => some (q.1, p.2 ++ q.2) := by
  induction is generalizing s with
  | nil =>
      cases h : run step s js <;> simp [h]
  | cons i is ih =>
      simp only [List.cons_append, run_cons]
      cases hstep : step s i with
      | none => rfl
      | some p =>
          simp only [Option.bind_some, ih]
          cases hrun : run step p.1 is with
          | none => rfl
          | some q =>
              simp only [Option.bind_some]
              cases hjs : run step q.1 js <;> simp [List.append_assoc]

/-- Two runs, one after the other. -/
theorem run_trans {step : σ → ι → Option (σ × List ω)} {s s₁ s₂ : σ} {is js : List ι}
    {o₁ o₂ : List ω} (hfirst : run step s is = some (s₁, o₁))
    (hlast : run step s₁ js = some (s₂, o₂)) :
    run step s (is ++ js) = some (s₂, o₁ ++ o₂) := by
  simp [run_append, hfirst, hlast]

/-- One more input at the end of a run. -/
theorem run_snoc {step : σ → ι → Option (σ × List ω)} {s s₁ s₂ : σ} {is : List ι} {i : ι}
    {o₁ o₂ : List ω} (hrun : run step s is = some (s₁, o₁)) (hstep : step s₁ i = some (s₂, o₂)) :
    run step s (is ++ [i]) = some (s₂, o₁ ++ o₂) := by
  simp [run_append, run_cons, hrun, hstep]

/-- **The invariant rule for runs.**  What every step keeps holds after every run, and
what every step guarantees of its outputs holds of all outputs, each for some input. -/
theorem run_invariant {step : σ → ι → Option (σ × List ω)} {I : σ → Prop} {Q : ι → ω → Prop}
    (hstep : ∀ {s i s' o}, I s → step s i = some (s', o) → I s' ∧ ∀ x ∈ o, Q i x) {s s' : σ}
    {is : List ι} {out : List ω} (hs : I s) (h : run step s is = some (s', out)) :
    I s' ∧ ∀ x ∈ out, ∃ i ∈ is, Q i x := by
  induction is generalizing s s' out with
  | nil =>
      simp only [run_nil, Option.some.injEq, Prod.mk.injEq] at h
      rw [← h.1, ← h.2]
      exact ⟨hs, by simp⟩
  | cons i is ih =>
      rw [run_cons, Option.bind_eq_some_iff] at h
      obtain ⟨⟨s₁, o₁⟩, hfirst, h⟩ := h
      rw [Option.bind_eq_some_iff] at h
      obtain ⟨⟨s₂, o₂⟩, hrest, h⟩ := h
      simp only [Option.some.injEq, Prod.mk.injEq] at h
      obtain ⟨hs₁, hQ₁⟩ := hstep hs hfirst
      obtain ⟨hs₂, hQ₂⟩ := ih hs₁ hrest
      rw [← h.1, ← h.2]
      refine ⟨hs₂, fun x hx => ?_⟩
      rcases List.mem_append.mp hx with hx | hx
      · exact ⟨i, by simp, hQ₁ x hx⟩
      · obtain ⟨j, hj, hQ⟩ := hQ₂ x hx
        exact ⟨j, by simp [hj], hQ⟩

/-- What holds of the outputs of every step holds of the outputs of a run. -/
theorem run_outputs {step : σ → ι → Option (σ × List ω)} {Q : ι → ω → Prop}
    (hstep : ∀ {s i s' o}, step s i = some (s', o) → ∀ x ∈ o, Q i x) {s s' : σ} {is : List ι}
    {out : List ω} (h : run step s is = some (s', out)) : ∀ x ∈ out, ∃ i ∈ is, Q i x :=
  (run_invariant (I := fun _ => True) (fun _ hi => ⟨trivial, hstep hi⟩) trivial h).2

/-- Every step of a run satisfies `P`: the outputs so far, the state and the input. -/
def Along (step : σ → ι → Option (σ × List ω)) (P : List ω → σ → ι → Prop) :
    List ω → σ → List ι → Prop
  | _, _, [] => True
  | before, s, i :: is =>
      P before s i ∧ ∀ s' o, step s i = some (s', o) → Along step P (before ++ o) s' is

/-- The first step of a run, known by its result. -/
theorem along_cons {step : σ → ι → Option (σ × List ω)} {P : List ω → σ → ι → Prop}
    {before o : List ω} {s s' : σ} {i : ι} {is : List ι} (hstep : step s i = some (s', o))
    (hP : P before s i) (hrest : Along step P (before ++ o) s' is) :
    Along step P before s (i :: is) := by
  refine ⟨hP, fun s₁ o₁ hstep₁ => ?_⟩
  obtain ⟨rfl, rfl⟩ := Prod.mk.inj (Option.some.inj (hstep.symm.trans hstep₁))
  exact hrest

/-- A condition on the steps of a run can be tested by running it. -/
instance decidableAlong {step : σ → ι → Option (σ × List ω)} {P : List ω → σ → ι → Prop}
    [∀ before s i, Decidable (P before s i)] :
    ∀ (is : List ι) (before : List ω) (s : σ), Decidable (Along step P before s is)
  | [], _, _ => .isTrue trivial
  | i :: is, before, s =>
      match hstep : step s i with
      | none => decidable_of_iff (P before s i)
          ⟨fun h => ⟨h, fun _ _ heq => by rw [hstep] at heq; cases heq⟩, And.left⟩
      | some (s', o) =>
          have : Decidable (Along step P (before ++ o) s' is) := decidableAlong is (before ++ o) s'
          decidable_of_iff (P before s i ∧ Along step P (before ++ o) s' is)
            ⟨fun h => along_cons hstep h.1 h.2, fun h => ⟨h.1, h.2 s' o hstep⟩⟩

theorem along_of_forall {step : σ → ι → Option (σ × List ω)} {P : ι → Prop} {is : List ι}
    (hok : ∀ i ∈ is, P i) (before : List ω) (s : σ) :
    Along step (fun _ _ i => P i) before s is := by
  induction is generalizing before s with
  | nil => trivial
  | cons i is ih =>
      exact ⟨hok i (by simp), fun s' o _ => ih (fun j hj => hok j (by simp [hj])) _ s'⟩

theorem Along.and {step : σ → ι → Option (σ × List ω)} {P Q : List ω → σ → ι → Prop}
    {before : List ω} {s : σ} {is : List ι} (hP : Along step P before s is)
    (hQ : Along step Q before s is) :
    Along step (fun before s i => P before s i ∧ Q before s i) before s is := by
  induction is generalizing before s with
  | nil => trivial
  | cons i is ih =>
      exact ⟨⟨hP.1, hQ.1⟩, fun s' o hfirst => ih (hP.2 s' o hfirst) (hQ.2 s' o hfirst)⟩

/-- One more step at the end of a run. -/
theorem Along.snoc {step : σ → ι → Option (σ × List ω)} {P : List ω → σ → ι → Prop}
    {before : List ω} {s : σ} {is : List ι} {i : ι} (h : Along step P before s is)
    (hlast : ∀ s' out, run step s is = some (s', out) → P (before ++ out) s' i) :
    Along step P before s (is ++ [i]) := by
  induction is generalizing before s with
  | nil =>
      have hi := hlast s [] rfl
      rw [List.append_nil] at hi
      exact ⟨hi, fun _ _ _ => trivial⟩
  | cons j is ih =>
      refine ⟨h.1, fun s₁ o₁ hfirst => ih (h.2 s₁ o₁ hfirst) fun s' out hrun => ?_⟩
      rw [List.append_assoc]
      refine hlast s' (o₁ ++ out) ?_
      rw [run_cons, hfirst, Option.bind_some, hrun, Option.bind_some]

/-- What the steps of a run satisfy may use what every step keeps. -/
theorem Along.imp_of_inv {step : σ → ι → Option (σ × List ω)} {P Q : List ω → σ → ι → Prop}
    {I : σ → Prop} {before : List ω} {s : σ} {is : List ι} (h : Along step P before s is)
    (hstep : ∀ {s i s' o}, I s → step s i = some (s', o) → I s')
    (hQ : ∀ {before s i}, I s → P before s i → Q before s i) (hs : I s) :
    Along step Q before s is := by
  induction is generalizing before s with
  | nil => trivial
  | cons i is ih => exact ⟨hQ hs h.1, fun s' o hfirst => ih (h.2 s' o hfirst) (hstep hs hfirst)⟩

/-- **The invariant rule for runs with a history.**  The invariant may speak about all outputs
so far, and a step may be assumed to satisfy `P`. -/
theorem run_along {step : σ → ι → Option (σ × List ω)} {P : List ω → σ → ι → Prop}
    {I : List ω → σ → Prop}
    (hstep : ∀ {out s i s' o}, I out s → P out s i → step s i = some (s', o) → I (out ++ o) s')
    {before out : List ω} {s s' : σ} {is : List ι} (hs : I before s)
    (halong : Along step P before s is) (h : run step s is = some (s', out)) :
    I (before ++ out) s' := by
  induction is generalizing s before out with
  | nil =>
      obtain ⟨rfl, rfl⟩ := Prod.mk.inj (Option.some.inj h)
      rwa [List.append_nil]
  | cons i is ih =>
      rw [run_cons, Option.bind_eq_some_iff] at h
      obtain ⟨⟨s₁, o₁⟩, hfirst, h⟩ := h
      rw [Option.bind_eq_some_iff] at h
      obtain ⟨⟨s₂, o₂⟩, hrest, h⟩ := h
      obtain ⟨rfl, rfl⟩ := Prod.mk.inj (Option.some.inj h)
      rw [← List.append_assoc]
      exact ih (hstep hs halong.1 hfirst) (halong.2 _ _ hfirst) hrest

/-- **The rule for runs that end, with a history.**  When every step makes a measure smaller, a run has
no more steps than the measure allows. -/
theorem run_along_length_le {step : σ → ι → Option (σ × List ω)} {P : List ω → σ → ι → Prop}
    {I : List ω → σ → Prop} {m : List ω → σ → ℕ}
    (hstep : ∀ {out s i s' o}, I out s → P out s i → step s i = some (s', o) →
      I (out ++ o) s' ∧ m (out ++ o) s' < m out s)
    {before out : List ω} {s s' : σ} {is : List ι} (hs : I before s)
    (halong : Along step P before s is) (h : run step s is = some (s', out)) :
    I (before ++ out) s' ∧ is.length + m (before ++ out) s' ≤ m before s := by
  induction is generalizing s before out with
  | nil =>
      obtain ⟨rfl, rfl⟩ := Prod.mk.inj (Option.some.inj h)
      rw [List.append_nil]
      exact ⟨hs, Nat.le_of_eq (Nat.zero_add _)⟩
  | cons i is ih =>
      rw [run_cons, Option.bind_eq_some_iff] at h
      obtain ⟨⟨s₁, o₁⟩, hfirst, h⟩ := h
      obtain ⟨⟨s₂, o₂⟩, hrest, h⟩ := Option.bind_eq_some_iff.mp h
      obtain ⟨rfl, rfl⟩ := Prod.mk.inj (Option.some.inj h)
      obtain ⟨hs₁, hlt⟩ := hstep hs halong.1 hfirst
      obtain ⟨hs₂, hle⟩ := ih hs₁ (halong.2 _ _ hfirst) hrest
      rw [← List.append_assoc, List.length_cons, Nat.add_right_comm]
      exact ⟨hs₂, Nat.le_trans (Nat.succ_le_succ hle) hlt⟩

/-- **The rule for runs that end**, when the measure is one of states. -/
theorem run_length_le {step : σ → ι → Option (σ × List ω)} {I : σ → Prop} {measure : σ → ℕ}
    (hstep : ∀ {s i s' o}, I s → step s i = some (s', o) → I s' ∧ measure s' < measure s)
    {s s' : σ} {is : List ι} {out : List ω} (hs : I s) (h : run step s is = some (s', out)) :
    I s' ∧ is.length + measure s' ≤ measure s :=
  run_along_length_le (P := fun _ _ _ => True) (I := fun _ s => I s) (m := fun _ s => measure s)
    (fun hs _ hstep' => hstep hs hstep') hs
    (along_of_forall (P := fun _ => True) (fun _ _ => trivial) [] s) h

/-- **The invariant rule for loops.**  The invariant may speak about the inputs that have been
dealt with, and a step knows where in the list its input is. -/
theorem run_loop {step : σ → ι → Option (σ × List ω)} {I : List ι → List ω → σ → Prop}
    {before out : List ω} {s s' : σ} {is : List ι}
    (hstep : ∀ {done i rest out s s' o}, is = done ++ i :: rest → I done out s →
      step s i = some (s', o) → I (done ++ [i]) (out ++ o) s')
    (hs : I [] before s) (h : run step s is = some (s', out)) : I is (before ++ out) s' := by
  have hrest : ∀ (rest done : List ι) (before out : List ω) (s : σ), is = done ++ rest →
      I done before s → run step s rest = some (s', out) → I is (before ++ out) s' := by
    intro rest
    induction rest with
    | nil =>
        intro done before out s his hs h
        obtain ⟨rfl, rfl⟩ := Prod.mk.inj (Option.some.inj h)
        rw [List.append_nil] at his ⊢
        rwa [his]
    | cons i rest ih =>
        intro done before out s his hs h
        rw [run_cons, Option.bind_eq_some_iff] at h
        obtain ⟨⟨s₁, o₁⟩, hfirst, h⟩ := h
        rw [Option.bind_eq_some_iff] at h
        obtain ⟨⟨s₂, o₂⟩, hlast, h⟩ := h
        obtain ⟨rfl, rfl⟩ := Prod.mk.inj (Option.some.inj h)
        rw [← List.append_assoc]
        refine ih (done ++ [i]) (before ++ o₁) o₂ s₁ ?_ (hstep his hs hfirst) hlast
        rw [his, List.append_assoc, List.singleton_append]
  exact hrest is [] before out s rfl hs h

/-- The invariant rule for runs whose inputs are all admissible. -/
theorem run_keeps {step : σ → ι → Option (σ × List ω)} {I : σ → Prop} {P : ι → Prop}
    (hstep : ∀ {s i s' o}, P i → I s → step s i = some (s', o) → I s') {s s' : σ} {is : List ι}
    {out : List ω} (hok : ∀ i ∈ is, P i) (hs : I s) (h : run step s is = some (s', out)) :
    I s' := by
  refine run_along (I := fun _ s => I s) (fun hI hi hs' => ?_) hs (along_of_forall hok [] s) h
  exact hstep hi hI hs'

/-- **The invariant rule for runs that do not fail.**  A step that may be assumed to satisfy `P`
succeeds. -/
theorem run_total {step : σ → ι → Option (σ × List ω)} {P : List ω → σ → ι → Prop}
    {I : List ω → σ → Prop}
    (hstep : ∀ {out s i}, I out s → P out s i → ∃ s' o, step s i = some (s', o) ∧ I (out ++ o) s')
    {before : List ω} {s : σ} {is : List ι} (hs : I before s) (halong : Along step P before s is) :
    ∃ s' out, run step s is = some (s', out) ∧ I (before ++ out) s' := by
  induction is generalizing s before with
  | nil => exact ⟨s, [], rfl, by rwa [List.append_nil]⟩
  | cons i is ih =>
      obtain ⟨s₁, o₁, hfirst, hs₁⟩ := hstep hs halong.1
      obtain ⟨s₂, o₂, hrest, hs₂⟩ := ih hs₁ (halong.2 _ _ hfirst)
      refine ⟨s₂, o₁ ++ o₂, ?_, by rwa [← List.append_assoc]⟩
      rw [run_cons, hfirst, Option.bind_some, hrest, Option.bind_some]

/-- Every event of a history satisfies `Q` together with the history before it. -/
def Throughout (Q : List ω → ω → Prop) (history : List ω) : Prop :=
  ∀ before e after, history = before ++ e :: after → Q before e

theorem throughout_nil (Q : List ω → ω → Prop) : Throughout Q [] := by
  intro before e after h
  simp at h

theorem throughout_snoc {Q : List ω → ω → Prop} {history : List ω} {e : ω} :
    Throughout Q (history ++ [e]) ↔ Throughout Q history ∧ Q history e := by
  constructor
  · intro h
    refine ⟨fun before x after heq => ?_, h history e [] rfl⟩
    exact h before x (after ++ [e]) (by rw [heq, List.append_assoc, List.cons_append])
  · intro ⟨h, he⟩ before x after heq
    rcases List.eq_nil_or_concat after with rfl | ⟨after, y, rfl⟩
    · obtain ⟨rfl, hx⟩ := List.append_inj' heq rfl
      rw [List.cons.injEq] at hx
      exact hx.1 ▸ he
    · refine h before x after ?_
      rw [List.concat_eq_append, ← List.cons_append, ← List.append_assoc] at heq
      exact (List.append_inj' heq rfl).1

theorem Throughout.imp {Q Q' : List ω → ω → Prop} {history : List ω} (h : Throughout Q history)
    (hQ : ∀ before e, Q before e → Q' before e) : Throughout Q' history :=
  fun before e after heq => hQ before e (h before e after heq)

section Deliveries

variable [DecidableEq ι]

/-- The deliveries of a schedule when the senders in `seen` were scheduled before. -/
def deliveriesAfter (prog : ι → ℕ → μ) : List ι → List ι → List μ
  | _, [] => []
  | seen, w :: ws => prog w (seen.count w) :: deliveriesAfter prog (w :: seen) ws

/-- The messages a schedule delivers: the `n`-th time a sender is scheduled, its
`n`-th message arrives. -/
def deliveries (prog : ι → ℕ → μ) (sched : List ι) : List μ := deliveriesAfter prog [] sched

@[simp] theorem deliveries_nil (prog : ι → ℕ → μ) : deliveries prog [] = [] := rfl

private theorem deliveriesAfter_snoc (prog : ι → ℕ → μ) (seen sched : List ι) (w : ι) :
    deliveriesAfter prog seen (sched ++ [w]) =
      deliveriesAfter prog seen sched ++ [prog w (seen.count w + sched.count w)] := by
  induction sched generalizing seen with
  | nil => simp [deliveriesAfter]
  | cons v sched ih =>
      simp only [List.cons_append, deliveriesAfter, ih, List.count_cons]
      congr 4
      omega

@[simp] theorem deliveries_snoc (prog : ι → ℕ → μ) (sched : List ι) (w : ι) :
    deliveries prog (sched ++ [w]) = deliveries prog sched ++ [prog w (sched.count w)] := by
  simp [deliveries, deliveriesAfter_snoc]

/-- **The invariant rule for schedules.**  An invariant that holds before any
delivery, and that every delivery from an admissible sender keeps without failing,
holds after every schedule of admissible senders. -/
theorem run_deliveries_induction {step : σ → μ → Option (σ × List ω)} {s₀ : σ}
    {prog : ι → ℕ → μ} (ok : ι → Prop) (Inv : List ι → σ → List ω → Prop)
    (hinit : Inv [] s₀ [])
    (hstep : ∀ sched w s out, ok w → Inv sched s out →
      ∃ s' new, step s (prog w (sched.count w)) = some (s', new) ∧
        Inv (sched ++ [w]) s' (out ++ new))
    (sched : List ι) (hok : ∀ w ∈ sched, ok w) :
    ∃ s out, run step s₀ (deliveries prog sched) = some (s, out) ∧ Inv sched s out := by
  induction sched using List.reverseRecOn with
  | nil => exact ⟨s₀, [], rfl, hinit⟩
  | append_singleton sched w ih =>
      obtain ⟨s, out, hrun, hinv⟩ := ih fun v hv => hok v (by simp [hv])
      obtain ⟨s', new, hs', hinv'⟩ := hstep sched w s out (hok w (by simp)) hinv
      refine ⟨s', out ++ new, ?_, hinv'⟩
      rw [deliveries_snoc]
      exact run_snoc hrun hs'

end Deliveries

end FlexPS.Lib

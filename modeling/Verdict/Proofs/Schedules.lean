import Mathlib
import Verdict.Report.Basic

/-! # Schedules of a pool

Whatever a pool does, every job is in exactly one place: it waits, it has been taken, it is running, its
result has been sent, or its result has been collected. A result is the outcome of its job, a job is given
up only if the pool has been stopped, and unless the pool is stopped from outside it is stopped only by a
bad result that has been collected. All of this is preserved by every step (`Pool.Consistent.step`,
`Pool.Earned.step`), so it holds after every schedule.

A pool that can do nothing more is done (`Pool.isDone_of_atRest`), and after `4 * n` steps a pool with `n`
jobs can do nothing more (`Pool.length_le_of_happens`). So what is collected does not depend on the
schedule (`Pool.results_eq`, `Pool.results_sublist`, `Pool.exists_isBad`). -/

namespace Verdict

namespace Pool

variable {n : ℕ} {α : Type} {r : Rules n α} {p q : Pool n α} {e : Event n}

/-! ### Steps -/

/-- The jobs of a pool, wherever they are. -/
def jobs (p : Pool n α) : List (Fin n) :=
  p.waiting ++ p.taken ++ p.running ++ p.sent.map Prod.fst ++ p.collected.map Prod.fst

/-- What a step can do. -/
theorem of_step (h : p.step r e = some q) :
    (∃ i rest, e = .take ∧ p.waiting = i :: rest ∧
      q = { p with waiting := rest, taken := p.taken ++ [i] }) ∨
    (∃ i ∈ p.taken, e = .start i ∧ p.stopped = true ∧
      q = { p with taken := p.taken.erase i, sent := p.sent ++ [(i, none)] }) ∨
    (∃ i ∈ p.taken, e = .start i ∧
      q = { p with taken := p.taken.erase i, running := p.running ++ [i] }) ∨
    (∃ i ∈ p.running, e = .finish i ∧
      q = { p with
        running := p.running.erase i, sent := p.sent ++ [(i, some (r.outcome i))] }) ∨
    (∃ i ∈ p.running, e = .giveUp i ∧ p.stopped = true ∧
      q = { p with running := p.running.erase i, sent := p.sent ++ [(i, none)] }) ∨
    (∃ i a rest, e = .collect ∧ p.sent = (i, a) :: rest ∧
      q = { p with
        sent := rest, collected := p.collected ++ [(i, a)], stopped := p.stopped || r.stops a }) ∨
    (e = .cancel ∧ q = { p with stopped := true }) := by
  cases e with
  | take =>
    left
    simp only [step] at h
    split at h
    · next i rest hwaiting =>
      split_ifs at h
      exact ⟨i, rest, rfl, hwaiting, (Option.some.inj h).symm⟩
    · cases h
  | start i =>
    simp only [step] at h
    split_ifs at h with hi hstopped
    · exact .inr (.inl ⟨i, hi, rfl, hstopped, (Option.some.inj h).symm⟩)
    · exact .inr (.inr (.inl ⟨i, hi, rfl, (Option.some.inj h).symm⟩))
  | finish i =>
    simp only [step] at h
    split_ifs at h with hi
    exact .inr (.inr (.inr (.inl ⟨i, hi, rfl, (Option.some.inj h).symm⟩)))
  | giveUp i =>
    simp only [step] at h
    split_ifs at h with hi
    exact .inr (.inr (.inr (.inr (.inl ⟨i, hi.1, rfl, hi.2, (Option.some.inj h).symm⟩))))
  | collect =>
    simp only [step] at h
    split at h
    · next i a rest hsent =>
      exact .inr (.inr (.inr (.inr (.inr (.inl ⟨i, a, rest, rfl, hsent,
        (Option.some.inj h).symm⟩)))))
    · cases h
  | cancel => exact .inr (.inr (.inr (.inr (.inr (.inr ⟨rfl, (Option.some.inj h).symm⟩)))))

variable {schedule : List (Event n)}

/-- What every step of a schedule preserves is true after the schedule. -/
theorem run_of_step {P : Pool n α → Prop} (hstep : ∀ e ∈ schedule, ∀ p q, P p → p.step r e = some q → P q)
    (h : P p) : P (p.run r schedule) := by
  induction schedule generalizing p with
  | nil => exact h
  | cons e es ih =>
    refine ih (fun e' he' => hstep e' (List.mem_cons_of_mem e he')) ?_
    cases hq : p.step r e with
    | none => simpa [hq] using h
    | some q => simpa [hq] using hstep e List.mem_cons_self p q h hq

/-! ### What is true at any time -/

/-- Whether every job is in one place, results are outcomes, and jobs are given up only in a pool that
has been stopped. -/
structure Consistent (r : Rules n α) (p : Pool n α) : Prop where
  once : ∀ i, p.jobs.count i = 1
  outcome : ∀ i a, (i, some a) ∈ p.sent ++ p.collected → a = r.outcome i
  givenUp : ∀ i, (i, none) ∈ p.sent ++ p.collected → p.stopped = true

/-- Whether the pool has only been stopped by a bad result. -/
def Earned (r : Rules n α) (p : Pool n α) : Prop :=
  p.stopped = true → r.stopAtBad = true ∧ ∃ i a, (i, some a) ∈ p.collected ∧ r.isBad a = true

theorem consistent_initial (r : Rules n α) : (initial n α).Consistent r := by
  refine ⟨fun i => ?_, by simp [initial], by simp [initial]⟩
  simp [initial, jobs]

theorem earned_initial (r : Rules n α) : (initial n α).Earned r := by
  simp [Earned, initial]

/-- No step loses a job or deals with it twice. -/
theorem count_jobs_step (h : p.step r e = some q) (i : Fin n) : q.jobs.count i = p.jobs.count i := by
  have herase : ∀ (j : Fin n) (js : List (Fin n)), j ∈ js →
      (js.erase j).count i + [j].count i = js.count i := by
    intro j js hj
    have hperm := (List.perm_cons_erase hj).count_eq i
    rw [List.count_cons] at hperm
    rw [List.count_singleton]
    omega
  rcases of_step h with ⟨j, rest, -, hw, rfl⟩ | ⟨j, hj, -, -, rfl⟩ | ⟨j, hj, -, rfl⟩ |
    ⟨j, hj, -, rfl⟩ | ⟨j, hj, -, -, rfl⟩ | ⟨j, a, rest, -, hs, rfl⟩ | ⟨-, rfl⟩
  · simp only [jobs, hw, List.count_append, List.count_cons, List.count_nil]
    omega
  -- A job is moved from one list to another, or is done.
  iterate 4
    · have := herase j _ hj
      simp only [jobs, List.map_append, List.map_cons, List.map_nil, List.count_append] at this ⊢
      omega
  · simp only [jobs, hs, List.map_append, List.map_cons, List.map_nil, List.count_append,
      List.count_cons, List.count_nil]
    omega
  · rfl

theorem Consistent.step (hp : p.Consistent r) (h : p.step r e = some q) : q.Consistent r := by
  refine ⟨fun i => (count_jobs_step h i).trans (hp.once i), ?_, ?_⟩
  · rcases of_step h with ⟨j, rest, -, -, rfl⟩ | ⟨j, -, -, -, rfl⟩ | ⟨j, -, -, rfl⟩ |
      ⟨j, -, -, rfl⟩ | ⟨j, -, -, -, rfl⟩ | ⟨j, a, rest, -, hs, rfl⟩ | ⟨-, rfl⟩
    all_goals have ho := hp.outcome
    · exact ho
    · intro i a hi
      exact ho i a (by simpa [or_assoc] using hi)
    · exact ho
    · intro i a hi
      simp only [List.append_assoc, List.mem_append, List.mem_cons, List.not_mem_nil, or_false,
        Prod.mk.injEq, Option.some.injEq] at hi
      rcases hi with hi | ⟨rfl, rfl⟩ | hi
      · exact ho i a (List.mem_append_left _ hi)
      · rfl
      · exact ho i a (List.mem_append_right _ hi)
    · intro i a hi
      exact ho i a (by simpa [or_assoc] using hi)
    · intro i b hi
      refine ho i b ?_
      simp only [List.mem_append, List.mem_cons, List.not_mem_nil, or_false, hs] at hi ⊢
      tauto
    · exact ho
  · rcases of_step h with ⟨j, rest, -, -, rfl⟩ | ⟨j, -, -, hstopped, rfl⟩ | ⟨j, -, -, rfl⟩ |
      ⟨j, -, -, rfl⟩ | ⟨j, -, -, hstopped, rfl⟩ | ⟨j, a, rest, -, hs, rfl⟩ | ⟨-, rfl⟩
    all_goals have hg := hp.givenUp
    · exact hg
    · exact fun _ _ => hstopped
    · exact hg
    · intro i hi
      exact hg i (by simpa using hi)
    · exact fun _ _ => hstopped
    · intro i hi
      have hstopped : p.stopped = true := by
        refine hg i ?_
        simp only [List.mem_append, List.mem_cons, List.not_mem_nil, or_false, hs] at hi ⊢
        tauto
      simp [hstopped]
    · exact fun _ _ => rfl

theorem Earned.step (hp : p.Earned r) (he : e ≠ .cancel) (h : p.step r e = some q) :
    q.Earned r := by
  rcases of_step h with ⟨j, rest, -, -, rfl⟩ | ⟨j, -, -, -, rfl⟩ | ⟨j, -, -, rfl⟩ |
    ⟨j, -, -, rfl⟩ | ⟨j, -, -, -, rfl⟩ | ⟨j, a, rest, -, hs, rfl⟩ | ⟨rfl, -⟩
  · exact hp
  · exact hp
  · exact hp
  · exact hp
  · exact hp
  · intro hstopped
    rcases Bool.or_eq_true_iff.mp hstopped with hold | hnew
    · obtain ⟨hbad, i, b, hi, hb⟩ := hp hold
      exact ⟨hbad, i, b, List.mem_append_left _ hi, hb⟩
    · -- The result that is collected now stops the pool.
      cases a with
      | none => cases hnew
      | some b =>
        obtain ⟨hbad, hb⟩ := Bool.and_eq_true_iff.mp hnew
        exact ⟨hbad, j, b, List.mem_append_right _ List.mem_cons_self, hb⟩
  · exact absurd rfl he

theorem consistent_run (r : Rules n α) (schedule : List (Event n)) :
    ((initial n α).run r schedule).Consistent r :=
  run_of_step (fun _ _ _ _ hp h => hp.step h) (consistent_initial r)

theorem earned_run (h : .cancel ∉ schedule) : ((initial n α).run r schedule).Earned r :=
  run_of_step (fun _ he _ _ hp hq => hp.step (fun hc => h (hc ▸ he)) hq) (earned_initial r)

/-! ### Every pool comes to rest -/

/-- Whether a pool can do nothing more, unless it is stopped from outside. -/
def AtRest (r : Rules n α) (p : Pool n α) : Prop := ∀ e, e ≠ .cancel → p.step r e = none

/-- A pool that can do nothing more has dealt with all its jobs. -/
theorem isDone_of_atRest (h : p.AtRest r) : p.isDone = true := by
  have hsent : p.sent = [] := by
    cases hs : p.sent with
    | nil => rfl
    | cons ia rest => simpa [step, hs] using h .collect (by simp)
  have hrunning : p.running = [] := by
    cases hr : p.running with
    | nil => rfl
    | cons i rest => simpa [step, hr] using h (.finish i) (by simp)
  have htaken : p.taken = [] := by
    cases ht : p.taken with
    | nil => rfl
    | cons i rest =>
      have := h (.start i) (by simp)
      simp only [step, ht, List.mem_cons, true_or, if_true] at this
      split_ifs at this
  have hwaiting : p.waiting = [] := by
    cases hw : p.waiting with
    | nil => rfl
    | cons i rest => simpa [step, hw, htaken, hrunning] using h .take (by simp)
  simp [isDone, hsent, hrunning, htaken, hwaiting]

theorem atRest_of_isDone (h : p.isDone = true) : p.AtRest r := by
  simp only [isDone, Bool.and_eq_true, List.isEmpty_iff] at h
  obtain ⟨⟨⟨hwaiting, htaken⟩, hrunning⟩, hsent⟩ := h
  intro e he
  cases e with
  | cancel => exact absurd rfl he
  | _ => simp [step, hwaiting, htaken, hrunning, hsent]

/-- How many steps the jobs of a pool can still take. -/
def work (p : Pool n α) : ℕ :=
  4 * p.waiting.length + 3 * p.taken.length + 2 * p.running.length + p.sent.length

theorem work_step (he : e ≠ .cancel) (h : p.step r e = some q) : q.work < p.work := by
  have herase : ∀ (j : Fin n) (js : List (Fin n)), j ∈ js →
      (js.erase j).length + 1 = js.length := by
    intro j js hj
    have hlength := List.length_erase_of_mem hj
    have hpos := List.length_pos_of_mem hj
    omega
  rcases of_step h with ⟨j, rest, -, hw, rfl⟩ | ⟨j, hj, -, -, rfl⟩ | ⟨j, hj, -, rfl⟩ |
    ⟨j, hj, -, rfl⟩ | ⟨j, hj, -, -, rfl⟩ | ⟨j, a, rest, -, hs, rfl⟩ | ⟨rfl, -⟩
  · simp only [work, hw, List.length_append, List.length_cons, List.length_nil]
    omega
  iterate 4
    · have := herase j _ hj
      simp only [work, List.length_append, List.length_cons, List.length_nil]
      omega
  · simp only [work, hs, List.length_cons]
    omega
  · exact absurd rfl he

/-- Whether the events of a schedule can happen one after the other. -/
def Happens (r : Rules n α) (p : Pool n α) : List (Event n) → Prop
  | [] => True
  | e :: es => ∃ q, p.step r e = some q ∧ Happens r q es

theorem length_le_work (hcancel : .cancel ∉ schedule) (h : p.Happens r schedule) :
    schedule.length ≤ p.work := by
  induction schedule generalizing p with
  | nil => exact Nat.zero_le _
  | cons e es ih =>
    obtain ⟨q, hq, hes⟩ := h
    have hrest := ih (fun hc => hcancel (List.mem_cons_of_mem e hc)) hes
    have hless := work_step (fun hc => hcancel (hc ▸ List.mem_cons_self)) hq
    rw [List.length_cons]
    omega

/-- A pool that is left alone is at rest after at most four steps for each job. -/
theorem length_le_of_happens (hcancel : .cancel ∉ schedule) (h : (initial n α).Happens r schedule) :
    schedule.length ≤ 4 * n := by
  simpa [initial, work] using length_le_work hcancel h

/-! ### What is collected -/

theorem collectedFor_of_mem {l : List (Fin n × Option α)} (hl : (l.map Prod.fst).Nodup) {i : Fin n}
    {a : Option α} (h : (i, a) ∈ l) : collectedFor i l = a := by
  induction l with
  | nil => cases h
  | cons x l ih =>
    obtain ⟨j, b⟩ := x
    rw [List.map_cons, List.nodup_cons] at hl
    rcases List.mem_cons.mp h with heq | h
    · cases heq
      simp [collectedFor]
    · have hne : j ≠ i := by
        rintro rfl
        exact hl.1 (List.mem_map.mpr ⟨_, h, rfl⟩)
      simp [collectedFor, hne, ih hl.2 h]

theorem filterMap_sublist_map {β : Type} {f : β → Option α} {g : β → α} {l : List β}
    (h : ∀ b ∈ l, f b = some (g b) ∨ f b = none) : (l.filterMap f).Sublist (l.map g) := by
  induction l with
  | nil => exact .slnil
  | cons b l ih =>
    have ih' := ih fun c hc => h c (List.mem_cons_of_mem b hc)
    rw [List.filterMap_cons, List.map_cons]
    rcases h b List.mem_cons_self with hb | hb
    · rw [hb]
      exact ih'.cons_cons _
    · rw [hb]
      exact ih'.cons _

section AtRest

variable (hp : p.Consistent r) (hrest : p.AtRest r)
include hp hrest

/-- A pool at rest has collected something for every job, once. -/
theorem count_collected (i : Fin n) : (p.collected.map Prod.fst).count i = 1 := by
  have hdone := isDone_of_atRest hrest
  simp only [isDone, Bool.and_eq_true, List.isEmpty_iff] at hdone
  obtain ⟨⟨⟨hwaiting, htaken⟩, hrunning⟩, hsent⟩ := hdone
  simpa [jobs, hwaiting, htaken, hrunning, hsent] using hp.once i

theorem collectedFor_of_mem_collected {i : Fin n} {a : Option α} (h : (i, a) ∈ p.collected) :
    collectedFor i p.collected = a :=
  collectedFor_of_mem (List.nodup_iff_count_le_one.mpr fun j => (count_collected hp hrest j).le) h

/-- A job of a pool at rest has its outcome, or it has been given up. -/
theorem collectedFor_eq (i : Fin n) :
    collectedFor i p.collected = some (r.outcome i) ∨
      collectedFor i p.collected = none ∧ p.stopped = true := by
  have hmem : i ∈ p.collected.map Prod.fst := by
    rw [← List.count_pos_iff, count_collected hp hrest i]
    omega
  obtain ⟨⟨j, a⟩, hja, rfl⟩ := List.mem_map.mp hmem
  rw [collectedFor_of_mem_collected hp hrest hja]
  cases a with
  | none => exact .inr ⟨rfl, hp.givenUp j (List.mem_append_right _ hja)⟩
  | some a => exact .inl (congrArg some (hp.outcome j a (List.mem_append_right _ hja)))

theorem mem_results_iff {a : α} :
    a ∈ p.results ↔ ∃ i, collectedFor i p.collected = some a ∧ a = r.outcome i := by
  simp only [results, List.mem_filterMap, List.mem_finRange, true_and]
  refine exists_congr fun i => ⟨fun h => ⟨h, ?_⟩, fun h => h.1⟩
  rcases collectedFor_eq hp hrest i with hi | ⟨hi, -⟩
  · exact Option.mem_unique h hi
  · rw [hi] at h
    cases h

/-- The results are outcomes, in the order of the jobs. -/
theorem results_sublist : p.results.Sublist ((List.finRange n).map r.outcome) :=
  filterMap_sublist_map fun i _ => (collectedFor_eq hp hrest i).imp_right And.left

/-- A pool that is not stopped has a result for every job. -/
theorem results_eq (hstopped : p.stopped = false) :
    p.results = (List.finRange n).map r.outcome := by
  rw [← List.filterMap_eq_map]
  refine List.filterMap_congr fun i _ => (collectedFor_eq hp hrest i).resolve_right fun h => ?_
  rw [hstopped] at h
  cases h.2

/-- A pool that has been stopped has a bad result, unless it was stopped from outside. -/
theorem exists_isBad (hearned : p.Earned r) (hstopped : p.stopped = true) :
    r.stopAtBad = true ∧ ∃ a ∈ p.results, r.isBad a = true := by
  obtain ⟨hstop, j, a, hja, hbad⟩ := hearned hstopped
  exact ⟨hstop, a, (mem_results_iff hp hrest).mpr ⟨j, collectedFor_of_mem_collected hp hrest hja,
    hp.outcome j a (List.mem_append_right _ hja)⟩, hbad⟩

end AtRest

end Pool

end Verdict

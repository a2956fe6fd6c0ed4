/-! # Pools of workers

A pool of workers deals with the jobs `0, 1, …, n - 1`. A worker takes the next job, starts it, and sends
what comes of it to the collector. If the pool is stopped, jobs that have not been started are given
up, and those that have been started may be. The collector stops the pool at the first bad result, if it
is told to.

A schedule is a sequence of events. Whatever the schedule, what comes of a job is the same; a schedule
only decides which jobs are given up. -/

namespace Verdict

/-- What a pool is told. -/
structure Pool.Rules (n : Nat) (α : Type) where
  /-- The number of workers, of which there is always one. -/
  workers : Nat
  /-- Whether a bad result stops the pool. -/
  stopAtBad : Bool
  /-- What comes of a job that is finished. -/
  outcome : Fin n → α
  /-- Whether a result is bad. -/
  isBad : α → Bool

/-- The state of a pool. A job that has been given up has no result. -/
structure Pool (n : Nat) (α : Type) where
  /-- The jobs that nobody has taken. -/
  waiting : List (Fin n)
  /-- The jobs that have been taken and not started. -/
  taken : List (Fin n)
  /-- The jobs that have been started. -/
  running : List (Fin n)
  /-- What has been sent and not collected. -/
  sent : List (Fin n × Option α)
  /-- What has been collected. -/
  collected : List (Fin n × Option α)
  /-- Whether the pool has been stopped. -/
  stopped : Bool

/-- What happens in a pool. -/
inductive Pool.Event (n : Nat) where
  /-- A free worker takes the next job. -/
  | take
  /-- The worker with a job starts it, or gives it up if the pool has been stopped. -/
  | start (job : Fin n)
  /-- The worker with a job finishes it. -/
  | finish (job : Fin n)
  /-- The worker with a job gives it up after it has been started. -/
  | giveUp (job : Fin n)
  /-- The collector collects what was sent first. -/
  | collect
  /-- The pool is stopped from outside. -/
  | cancel
deriving DecidableEq, Repr

namespace Pool

variable {n : Nat} {α : Type}

/-- The pool before anything happens. -/
def initial (n : Nat) (α : Type) : Pool n α := ⟨List.finRange n, [], [], [], [], false⟩

/-- The pool in which a result has been sent. -/
def send (p : Pool n α) (job : Fin n) (result : Option α) : Pool n α :=
  { p with sent := p.sent ++ [(job, result)] }

/-- Whether a collected result stops the pool. -/
def Rules.stops (r : Rules n α) : Option α → Bool
  | some a => r.stopAtBad && r.isBad a
  | none => false

/-- The pool after an event, if it can happen. -/
def step (r : Rules n α) (p : Pool n α) : Event n → Option (Pool n α)
  | .take =>
    match p.waiting with
    | i :: waiting =>
      if p.taken.length + p.running.length < max 1 r.workers then
        some { p with waiting, taken := p.taken ++ [i] }
      else none
    | [] => none
  | .start i =>
    if i ∈ p.taken then
      let q := { p with taken := p.taken.erase i }
      if p.stopped then some (q.send i none) else some { q with running := p.running ++ [i] }
    else none
  | .finish i =>
    if i ∈ p.running then
      some ({ p with running := p.running.erase i }.send i (some (r.outcome i)))
    else none
  | .giveUp i =>
    if i ∈ p.running ∧ p.stopped then some ({ p with running := p.running.erase i }.send i none)
    else none
  | .collect =>
    match p.sent with
    | (i, a) :: sent =>
      let collected := p.collected ++ [(i, a)]
      some { p with sent, collected, stopped := p.stopped || r.stops a }
    | [] => none
  | .cancel => some { p with stopped := true }

/-- The pool after a schedule. An event that cannot happen is passed over. -/
def run (r : Rules n α) (p : Pool n α) (schedule : List (Event n)) : Pool n α :=
  schedule.foldl (fun p e => (p.step r e).getD p) p

/-- Whether every job has been collected. -/
def isDone (p : Pool n α) : Bool :=
  p.waiting.isEmpty && p.taken.isEmpty && p.running.isEmpty && p.sent.isEmpty

/-- What has been collected for a job. -/
def collectedFor (job : Fin n) : List (Fin n × Option α) → Option α
  | [] => none
  | (i, a) :: rest => if i = job then a else collectedFor job rest

/-- The results of the jobs that have not been given up, in the order of the jobs. -/
def results (p : Pool n α) : List α :=
  (List.finRange n).filterMap fun i => collectedFor i p.collected

/-- The schedule that deals with one job after another. -/
def inTurn (n : Nat) : List (Event n) :=
  (List.finRange n).flatMap fun i => [.take, .start i, .finish i, .collect]

end Pool

end Verdict

import FbuThreadPool.Pool.Properties
/-!
# Shutdown of `fbu::ThreadPool`: the lost termination wakeup

`~ThreadPool` writes `mTerminate` and calls `mJobAvailableCV.notify_all()` without taking
`mJobsQueueMutex`. A worker that has found the wait predicate false, and still holds the lock
on its way into the wait set, misses both: it enters the wait set after the notification,
and the destructor then joins a thread that nothing but a spurious wakeup will wake.

* `terminate_notify_lost`: with one worker, five steps reach the destructor joining a
  blocked worker;
* `stranded_reachable`: the same for every pool with at least one worker;
* `dtor_stuck_of_stranded`: from there, along every schedule that wakes the worker neither
  spuriously nor by the `notify_one` of a push, the destructor never finishes.
-/

namespace FbuThreadPool

/-- Action `a` can unblock worker `w`: a spurious wakeup, or the `notify_one` of a push that
picks `w`. -/
def Action.wakes {α : Type} (w : Nat) : Action α → Bool
  | .wakeWorker v | .addJob _ (some v) | .executorSubmit _ _ (some v) => v == w
  | _ => false

namespace Pool

variable {α : Type} {n d : Nat} {ex : List Nat}

/-- Worker 0 finds the queue empty; the destructor writes `mTerminate` and notifies before
worker 0 enters the wait set. -/
def lostWakeup : List (Action α) :=
  [.loopTest 0, .testJobAvailable 0, .setTerminate, .notifyAll, .waitJobAvailable 0]

theorem run_lostWakeup (m d : Nat) (ex : List Nat) :
    (init (m + 1) d ex : Pool α).run lostWakeup =
      some { (init (m + 1) d ex : Pool α) with
              workers := .blocked :: List.replicate m .loop, terminate := true,
              dtor := .joining 0 } := by
  simp [lostWakeup, run, step, init, loopTest, testJobAvailable, setTerminate, notifyAll,
    waitJobAvailable, List.replicate_succ, lockFree, WorkerPc.holdsLock, WorkerPc.notify,
    List.map_replicate]

/-- With one worker and an empty queue, the destructor reaches the join of a worker blocked
in `mJobAvailableCV`. -/
theorem terminate_notify_lost :
    Reachable (init 1 0 [] : Pool Nat)
      { workers := [.blocked], jobsQueue := [], numBusyThreads := 0, terminate := true,
        drainers := [], dtor := .joining 0, executors := [], log := [], assertFailed := false } :=
  reachable_of_run (run_lostWakeup 0 0 [])

/-! ## A stranded worker blocks the destructor -/

/-- The destructor has not yet joined worker `v`, which sleeps in `mJobAvailableCV`. -/
def Stranded (v : Nat) (s : Pool α) : Prop :=
  (∃ k ≤ v, s.dtor = .joining k) ∧ s.workers[v]? = some .blocked

/-- In every pool with a worker, the destructor can reach the join of worker 0 while worker
0 sleeps in `mJobAvailableCV`. -/
theorem stranded_reachable (hn : 0 < n) :
    ∃ s, Reachable (init n d ex : Pool α) s ∧ s.Stranded 0 := by
  obtain ⟨m, rfl⟩ : ∃ m, n = m + 1 := ⟨n - 1, by omega⟩
  have hr := reachable_of_run (run_lostWakeup (α := α) m d ex)
  exact ⟨_, hr, ⟨0, le_rfl, rfl⟩, List.getElem?_cons_zero⟩

theorem getElem?_set_of_ne_blocked {ws : List (WorkerPc α)} {w v : Nat} {p x : WorkerPc α}
    (hw : ws[w]? = some p) (hb : ws[v]? = some .blocked) (hp : p ≠ .blocked) :
    (ws.set w x)[v]? = ws[v]? :=
  List.getElem?_set_ne (by rintro rfl; exact hp (Option.some.inj (hw.symm.trans hb)))

theorem notifyOne_getElem? {ws ws' : List (WorkerPc α)} {wake : Option Nat} {v : Nat}
    (h : notifyOne ws wake = some ws') (hv : wake ≠ some v) : ws'[v]? = ws[v]? := by
  rcases notifyOne_eq_some h with ⟨-, rfl⟩ | ⟨u, rfl, -, rfl⟩
  · rfl
  · exact List.getElem?_set_ne (by rintro rfl; exact hv rfl)

theorem addJob_getElem? {s s' : Pool α} {job : Job α} {wake : Option Nat} {v : Nat}
    (h : s.addJob job wake = some s') (hv : wake ≠ some v) :
    s'.dtor = s.dtor ∧ s'.workers[v]? = s.workers[v]? := by
  obtain ⟨-, ws, hws, rfl⟩ := addJob_eq_some h
  exact ⟨rfl, notifyOne_getElem? hws hv⟩

theorem Stranded.of_eq {v : Nat} {s s' : Pool α} (hs : s.Stranded v) (hd : s'.dtor = s.dtor)
    (hw : s'.workers[v]? = s.workers[v]?) : s'.Stranded v :=
  ⟨hd ▸ hs.1, hw ▸ hs.2⟩

/-- One step that does not wake worker `v` leaves it stranded. -/
theorem Stranded.step {v : Nat} {s s' : Pool α} {a : Action α} (hs : s.Stranded v)
    (ha : a.wakes v = false) (h : s.step a = some s') : s'.Stranded v := by
  have hb := hs.2
  have frame {w : Nat} {p x : WorkerPc α} (hw : s.workers[w]? = some p) (hp : p ≠ .blocked) :
      ({ s with workers := s.workers.set w x } : Pool α).Stranded v :=
    hs.of_eq rfl (getElem?_set_of_ne_blocked hw hb hp)
  have hwake {wake : Option Nat} (hw : ∀ u, wake = some u → (u == v) = false) :
      wake ≠ some v := fun h => by simpa using hw v h
  cases a with
  | addJob j wake =>
    have := addJob_getElem? h (hwake fun u hu => by subst hu; exact ha)
    exact hs.of_eq this.1 this.2
  | loopTest w => obtain ⟨hw, rfl⟩ := loopTest_eq_some h; exact frame hw nofun
  | testJobAvailable w =>
    obtain ⟨hw, -, rfl⟩ := testJobAvailable_eq_some h; exact frame hw nofun
  | waitJobAvailable w => obtain ⟨hw, rfl⟩ := waitJobAvailable_eq_some h; exact frame hw nofun
  | wakeWorker w =>
    obtain ⟨-, rfl⟩ := wakeWorker_eq_some h
    exact hs.of_eq rfl (List.getElem?_set_ne fun h => by simp [Action.wakes, h] at ha)
  | grabNextJob w =>
    obtain ⟨hw, ⟨-, rfl⟩ | ⟨-, _, _, -, rfl⟩ | ⟨-, -, rfl⟩⟩ := grabNextJob_eq_some h
    · exact (frame hw nofun).of_eq rfl rfl
    · exact (frame hw nofun).of_eq rfl rfl
    · exact hs.of_eq rfl rfl
  | runJob w =>
    obtain ⟨hw, rfl⟩ | ⟨_, hw, rfl⟩ | ⟨_, _, _, hw, -, rfl⟩ := runJob_eq_some h <;>
      exact (frame hw nofun).of_eq rfl rfl
  | finishWrapper w =>
    obtain ⟨_, _, _, hw, -, rfl⟩ := finishWrapper_eq_some h
    exact (frame hw nofun).of_eq rfl rfl
  | jobDone w =>
    obtain ⟨_, hw, -, rfl⟩ := jobDone_eq_some h; exact (frame hw nofun).of_eq rfl rfl
  | waitForCompletion t =>
    obtain ⟨-, -, rfl⟩ := waitForCompletion_eq_some h; exact hs.of_eq rfl rfl
  | wakeDrainer t => obtain ⟨-, rfl⟩ := wakeDrainer_eq_some h; exact hs.of_eq rfl rfl
  | setTerminate =>
    obtain ⟨⟨k, -, hk⟩, -⟩ := hs
    obtain ⟨hd, -⟩ := setTerminate_eq_some h
    cases hk.symm.trans hd
  | notifyAll =>
    obtain ⟨⟨k, -, hk⟩, -⟩ := hs
    obtain ⟨hd, -⟩ := notifyAll_eq_some h
    cases hk.symm.trans hd
  | join =>
    obtain ⟨⟨k, hkv, hk⟩, -⟩ := hs
    obtain ⟨k', hd, hex, rfl⟩ := join_eq_some h
    cases hk.symm.trans hd
    have hne : k ≠ v := by rintro rfl; cases hex.symm.trans hb
    exact ⟨⟨k + 1, by omega, rfl⟩, hb⟩
  | assertIdle =>
    obtain ⟨⟨k, hkv, hk⟩, -⟩ := hs
    obtain ⟨hd, -⟩ := assertIdle_eq_some h
    cases hk.symm.trans hd
    have := (List.getElem?_eq_some_iff.1 hb).1
    omega
  | executorAddJob e j => obtain ⟨_, -, rfl⟩ := executorAddJob_eq_some h; exact hs.of_eq rfl rfl
  | executorSubmit e k wake =>
    obtain ⟨_, _, _, -, -, h₁, rfl⟩ := executorSubmit_eq_some h
    have := addJob_getElem? h₁ (hwake fun u hu => by subst hu; exact ha)
    exact hs.of_eq this.1 this.2
  | executorWait e t =>
    obtain ⟨_, _, -, -, rfl⟩ := executorWait_eq_some h; exact hs.of_eq rfl rfl
  | executorWake e t =>
    obtain ⟨_, _, -, -, rfl⟩ := executorWake_eq_some h; exact hs.of_eq rfl rfl

/-- Past `notify_all`, a stranded worker keeps `~ThreadPool` from finishing along every
schedule that wakes it neither spuriously nor by a push. -/
theorem dtor_stuck_of_stranded {v : Nat} {s s' : Pool α} {as : List (Action α)}
    (hs : s.Stranded v) (has : ∀ a ∈ as, a.wakes v = false) (hr : s.run as = some s') :
    s'.Stranded v ∧ s'.dtor ≠ .done := by
  induction as generalizing s with
  | nil =>
    cases hr
    exact ⟨hs, fun h => by obtain ⟨⟨k, -, hk⟩, -⟩ := hs; cases hk.symm.trans h⟩
  | cons a as ih =>
    obtain ⟨s₁, h₁, h₂⟩ := Option.bind_eq_some.1 hr
    exact ih (hs.step (has a (List.mem_cons_self a as)) h₁)
      (fun b hb => has b (List.mem_cons_of_mem a hb)) h₂

theorem dtor_stuck_of_stranded_two :
    ∃ s s' : Pool Nat, Reachable (init 2 0 []) s ∧ s.Stranded 0 ∧
      (∀ a ∈ [(.loopTest 1 : Action Nat)], a.wakes 0 = false) ∧
      s.run [.loopTest 1] = some s' ∧
      s'.workers[1]? = some .exited ∧ s'.Stranded 0 ∧ s'.dtor ≠ .done := by
  have hr := reachable_of_run (run_lostWakeup (α := Nat) 1 0 [])
  have hs : Stranded 0 { (init 2 0 [] : Pool Nat) with
      workers := [.blocked, .loop], terminate := true, dtor := .joining 0 } :=
    ⟨⟨0, le_rfl, rfl⟩, rfl⟩
  have has : ∀ a ∈ [(.loopTest 1 : Action Nat)], a.wakes 0 = false := by decide
  exact ⟨_, _, hr, hs, has, rfl, rfl, dtor_stuck_of_stranded hs has rfl⟩

end Pool

end FbuThreadPool

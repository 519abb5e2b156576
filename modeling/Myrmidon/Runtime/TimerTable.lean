import Myrmidon.Runtime.Timers

namespace Myrmidon

open Transition

/-- A timer with its delay or interval, the ended task of one whose interval could
    not be made, and a call of `cancel_timer`. -/
inductive TimerTask where
  | scheduled (ms : BitVec 64) (timer : Timer)
  | panicked (timer : Timer)
  | cancel (id : BitVec 64) (stage : CancelStage)
  deriving DecidableEq

/-- `tokio::time::interval`, the first thing that the task of an interval does,
    panics on a zero period. -/
def Timer.panics (timer : Timer) (ms : BitVec 64) : Prop := timer.repeating = true ∧ ms = 0 ∧ timer.stage = .select

instance (timer : Timer) (ms : BitVec 64) : Decidable (timer.panics ms) :=
  inferInstanceAs (Decidable (timer.repeating = true ∧ ms = 0 ∧ timer.stage = .select))

def timerTasks : Program TimerTable TimerTask Branch (Runtime → Runtime) where
  starts
    | .scheduled _ timer => decide (timer.stage = .count)
    | .cancel _ stage => decide (stage = .remove)
    | .panicked _ => false
  step number t task branch :=
    match task with
    | .scheduled ms timer =>
      if timer.panics ms then some (t, .panicked timer, [])
      else (timer.step number t branch).map fun (t, timer) => (t, .scheduled ms timer, [])
    | .panicked _ => none
    | .cancel id stage => (stage.step t id).map fun (t, stage) => (t, .cancel id stage, [])
  ambient t change := some { t with runtime := change t.runtime }

namespace TimerTask

/-- Everything one step of a task can do to the table of timers and its counter. -/
inductive Steps (number : Nat) (t later : TimerTable) : TimerTask → TimerTask → Prop where
  | counts {ms : BitVec 64} {timer : Timer} (stage : timer.stage = .count) (timers : later.timers = t.timers)
      (counter : later.counter = t.counter + 1) :
      Steps number t later (.scheduled ms timer)
        (.scheduled ms { timer with id := t.counter + 1, stage := .insert })
  | inserts {ms : BitVec 64} {timer : Timer} (stage : timer.stage = .insert)
      (timers : later.timers = t.timers.insert timer.id number) (counter : later.counter = t.counter) :
      Steps number t later (.scheduled ms timer) (.scheduled ms { timer with stage := .select })
  | waits {ms : BitVec 64} {timer : Timer} {next : TimerStage} (stage : timer.stage = .select ∨ timer.stage = .send)
      (after : next = .select ∨ next = .send ∨ next = .remove)
      (once : timer.stage = .send → timer.repeating = false → next = .remove)
      (timers : later.timers = t.timers) (counter : later.counter = t.counter) :
      Steps number t later (.scheduled ms timer) (.scheduled ms { timer with stage := next })
  | panics {ms : BitVec 64} {timer : Timer} (panics : timer.panics ms) (same : later = t) :
      Steps number t later (.scheduled ms timer) (.panicked timer)
  | removes {ms : BitVec 64} {timer : Timer} (stage : timer.stage = .remove)
      (timers : later.timers = t.timers.erase timer.id) (counter : later.counter = t.counter) :
      Steps number t later (.scheduled ms timer) (.scheduled ms { timer with stage := .done })
  | misses {id : BitVec 64} (same : later = t) :
      Steps number t later (.cancel id .remove) (.cancel id (.returned false))
  | takes {id : BitVec 64} {timer : Nat} (found : t.timers.lookup id = some timer)
      (timers : later.timers = t.timers.erase id) (counter : later.counter = t.counter) :
      Steps number t later (.cancel id .remove) (.cancel id (.signal timer))
  | signals {id : BitVec 64} {timer : Nat} (timers : later.timers = t.timers) (counter : later.counter = t.counter) :
      Steps number t later (.cancel id (.signal timer)) (.cancel id (.returned true))

theorem dropSender_counter (t : TimerTable) (id : BitVec 64) : (t.dropSender id).counter = t.counter := by
  unfold TimerTable.dropSender
  split <;> rfl

theorem steps_of_timer {number : Nat} {branch : Branch} {t later : TimerTable} {ms : BitVec 64} {timer next : Timer}
    (stepped : timer.step number t branch = some (later, next)) :
    Steps number t later (.scheduled ms timer) (.scheduled ms next) := by
  cases stage : timer.stage with
  | count =>
    simp only [Timer.step, stage] at stepped
    cases stepped
    exact .counts stage rfl rfl
  | insert =>
    simp only [Timer.step, stage] at stepped
    cases stepped
    exact .inserts stage rfl (dropSender_counter t timer.id)
  | select =>
    simp only [Timer.step, stage] at stepped
    cases branch with
    | deadline =>
      cases stepped
      exact .waits (.inl stage) (.inr (.inl rfl)) (by simp [stage]) rfl rfl
    | cancelled =>
      simp only at stepped
      split at stepped
      · cases stepped
        exact .waits (.inl stage) (.inr (.inr rfl)) (by simp [stage]) rfl rfl
      · cases stepped
  | send =>
    simp only [Timer.step, stage] at stepped
    cases stepped
    refine .waits (.inr stage) ?_ (by simp +contextual) rfl rfl
    cases timer.repeating <;> simp
  | remove =>
    simp only [Timer.step, stage] at stepped
    cases stepped
    exact .removes stage rfl (dropSender_counter t timer.id)
  | done =>
    simp only [Timer.step, stage] at stepped
    cases stepped

theorem steps_of_step {number : Nat} {branch : Branch} {t later : TimerTable} {task next : TimerTask}
    {new : List TimerTask} (stepped : timerTasks.step number t task branch = some (later, next, new)) :
    new = [] ∧ Steps number t later task next := by
  cases task with
  | scheduled ms timer =>
    simp only [timerTasks] at stepped
    split at stepped
    · rename_i panics
      cases stepped
      exact ⟨rfl, .panics panics rfl⟩
    · obtain ⟨⟨table, moved⟩, taken, same⟩ := Option.map_eq_some_iff.mp stepped
      cases same
      exact ⟨rfl, steps_of_timer taken⟩
  | panicked timer => cases stepped
  | cancel id stage =>
    obtain ⟨⟨table, moved⟩, taken, same⟩ := Option.map_eq_some_iff.mp stepped
    cases same
    refine ⟨rfl, ?_⟩
    cases stage with
    | remove =>
      simp only [CancelStage.step] at taken
      split at taken
      · cases taken
        exact .misses rfl
      · rename_i timer found
        cases taken
        exact .takes found rfl rfl
    | signal timer =>
      cases taken
      exact .signals rfl rfl
    | returned found => cases taken

def isTimer : TimerTask → Nat
  | .scheduled _ _ | .panicked _ => 1
  | .cancel _ _ => 0

/-- The id, once the call has drawn it. -/
def id? : TimerTask → Option (BitVec 64)
  | .scheduled _ timer => if timer.stage = .count then none else some timer.id
  | .panicked timer => some timer.id
  | .cancel _ _ => none

def counted (task : TimerTask) : Nat := if task.id?.isSome then 1 else 0

def named (id : BitVec 64) (task : TimerTask) : Nat := if task.id? = some id then 1 else 0

/-- The id is about to be entered, or was taken out by this call of `cancel_timer`. -/
def claims (id : BitVec 64) : TimerTask → Nat
  | .scheduled _ timer => if timer.stage = .insert ∧ timer.id = id then 1 else 0
  | .cancel other (.signal _) | .cancel other (.returned true) => if other = id then 1 else 0
  | .cancel _ .remove | .cancel _ (.returned false) | .panicked _ => 0

/-- The task of a timer that is in the table under its id. -/
def Holds (id : BitVec 64) : TimerTask → Prop
  | .scheduled _ timer => timer.id = id ∧ (timer.stage = .select ∨ timer.stage = .send ∨ timer.stage = .remove)
  | .panicked timer => timer.id = id
  | .cancel _ _ => False

/-- The last step of the task is behind it. -/
def Ended : TimerTask → Prop
  | .scheduled _ timer => timer.stage = .done
  | .panicked _ => True
  | .cancel _ _ => False

end TimerTask

namespace TimerTable

/-- How often the id is in the table. -/
def held (t : TimerTable) (id : BitVec 64) : Nat := if id ∈ t.timers then 1 else 0

theorem held_eq_of_timers {t later : TimerTable} (timers : later.timers = t.timers) (id : BitVec 64) :
    later.held id = t.held id := by
  rw [held, held, timers]

theorem held_of_insert {t later : TimerTable} {id : BitVec 64} {number : Nat}
    (timers : later.timers = t.timers.insert id number) (other : BitVec 64) :
    later.held other ≤ t.held other + if id = other then 1 else 0 := by
  simp only [held, timers, AList.mem_insert]
  by_cases same : other = id
  · rw [if_pos (.inl same), if_pos same.symm]
    omega
  · rw [if_neg (Ne.symm same)]
    simp [same]

theorem held_of_erase {t later : TimerTable} {id : BitVec 64} (timers : later.timers = t.timers.erase id)
    (other : BitVec 64) : later.held other + (if id = other then t.held id else 0) = t.held other := by
  simp only [held, timers, AList.mem_erase]
  by_cases same : other = id
  · simp [same]
  · simp [same, Ne.symm same]

end TimerTable

namespace TimerTask

/-- A step draws the next id, or moves an id between the table and those who claim it. -/
theorem Steps.effect {number : Nat} {t later : TimerTable} {task next : TimerTask}
    (steps : Steps number t later task next) :
    (task.id? = none ∧ next.id? = some (t.counter + 1) ∧ later.counter = t.counter + 1 ∧
      ∀ id, task.claims id = 0 ∧ next.claims id = (if t.counter + 1 = id then 1 else 0) ∧ later.held id = t.held id) ∨
    (next.id? = task.id? ∧ later.counter = t.counter ∧
      ∀ id, next.claims id + later.held id ≤ task.claims id + t.held id) := by
  cases steps with
  | counts stage timers counter =>
    refine .inl ⟨by simp [id?, stage], by simp [id?], counter, fun id => ⟨by simp [claims, stage], ?_, ?_⟩⟩
    · simp [claims]
    · exact TimerTable.held_eq_of_timers timers id
  | @inserts ms timer stage timers counter =>
    refine .inr ⟨by simp [id?, stage], counter, fun id => ?_⟩
    have grown := TimerTable.held_of_insert timers id
    simp only [claims, stage, reduceCtorEq, false_and, if_false, true_and]
    omega
  | @waits ms timer next stage after once timers counter =>
    refine .inr ⟨?_, counter, fun id => ?_⟩
    · rcases stage with stage | stage <;> rcases after with after | after | after <;> simp [id?, stage, after]
    · rw [TimerTable.held_eq_of_timers timers id]
      rcases after with after | after | after <;> simp [claims, after]
  | @panics ms timer panics same =>
    subst same
    refine .inr ⟨by simp [id?, panics.2.2], rfl, fun id => ?_⟩
    simp [claims]
  | @removes ms timer stage timers counter =>
    refine .inr ⟨by simp [id?, stage], counter, fun id => ?_⟩
    have left := TimerTable.held_of_erase timers id
    simp only [claims, stage, reduceCtorEq, false_and, if_false]
    omega
  | misses same =>
    subst same
    exact .inr ⟨rfl, rfl, fun id => Nat.le_refl _⟩
  | @takes id timer found timers counter =>
    refine .inr ⟨rfl, counter, fun other => ?_⟩
    have left := TimerTable.held_of_erase timers other
    have present : t.held id = 1 := by
      rw [TimerTable.held, if_pos]
      exact AList.lookup_isSome.mp (by simp [found])
    simp only [claims]
    split at left
    · rename_i same
      rw [if_pos same]
      omega
    · rename_i different
      rw [if_neg different]
      omega
  | signals timers counter =>
    refine .inr ⟨rfl, counter, fun id => ?_⟩
    rw [TimerTable.held_eq_of_timers timers id]
    exact Nat.le_refl _

/-- What is in the table after a step: the task's own entry, or an entry that it has not ended. -/
theorem Steps.entries {number : Nat} {t later : TimerTable} {task next : TimerTask}
    (steps : Steps number t later task next) {id : BitVec 64} {other : Nat}
    (found : later.timers.lookup id = some other) :
    (other = number ∧ next.Holds id) ∨ (t.timers.lookup id = some other ∧ (task.Holds id → next.Holds id)) := by
  cases steps with
  | counts stage timers counter =>
    rw [timers] at found
    exact .inr ⟨found, by simp [Holds, stage]⟩
  | @inserts ms timer stage timers counter =>
    rw [timers] at found
    by_cases same : id = timer.id
    · subst same
      rw [AList.lookup_insert] at found
      cases found
      exact .inl ⟨rfl, rfl, .inl rfl⟩
    · rw [AList.lookup_insert_ne same] at found
      exact .inr ⟨found, by simp [Holds, stage]⟩
  | waits stage after once timers counter =>
    rw [timers] at found
    exact .inr ⟨found, fun holds => ⟨holds.1, after⟩⟩
  | panics panics same =>
    rw [same] at found
    exact .inr ⟨found, fun holds => holds.1⟩
  | @removes ms timer stage timers counter =>
    rw [timers] at found
    refine .inr ⟨lookup_of_erase found, fun holds => ?_⟩
    rw [← holds.1, AList.lookup_erase] at found
    cases found
  | misses same =>
    rw [same] at found
    exact .inr ⟨found, False.elim⟩
  | takes taken timers counter =>
    rw [timers] at found
    exact .inr ⟨lookup_of_erase found, False.elim⟩
  | signals timers counter =>
    rw [timers] at found
    exact .inr ⟨found, False.elim⟩

end TimerTask

open TimerTask

/-- The invariant: the counter numbers the calls, no id is drawn twice, an id is
    in the table or claimed at most once, and what is in the table belongs to a task. -/
structure Tracked (c : Config TimerTable TimerTask) : Prop where
  counter : c.shared.counter.toNat = Program.total counted c.threads
  unused : ∀ id, c.shared.counter.toNat < id.toNat →
    Program.total (named id) c.threads = 0 ∧ Program.total (claims id) c.threads + c.shared.held id = 0
  distinct : ∀ id, Program.total (named id) c.threads ≤ 1
  once : ∀ id, Program.total (claims id) c.threads + c.shared.held id ≤ 1
  entries : ∀ id number, c.shared.timers.lookup id = some number →
    ∃ task, c.threads[number]? = some task ∧ task.Holds id

theorem total_replaced {τ : Type} (weight : τ → Nat) (before after : List τ) (thread next : τ) :
    Program.total weight (before ++ next :: after) + weight thread =
      Program.total weight (before ++ thread :: after) + weight next := by
  simp only [Program.total_append, Program.total_cons]
  omega

theorem counted_le_isTimer (task : TimerTask) : task.counted ≤ task.isTimer := by
  cases task with
  | scheduled ms timer =>
    simp only [counted, isTimer]
    split <;> omega
  | panicked timer => exact Nat.le_refl _
  | cancel id stage => exact Nat.le_refl _

theorem total_counted_le (threads : List TimerTask) : Program.total counted threads ≤ Program.total isTimer threads := by
  induction threads with
  | nil => exact Nat.le_refl _
  | cons task rest ih =>
    have one := counted_le_isTimer task
    rw [Program.total_cons, Program.total_cons]
    omega

namespace Tracked

variable {t later : TimerTable} {before after : List TimerTask} {task next : TimerTask}

theorem step_entries (tracked : Tracked ⟨t, before ++ task :: after⟩) (steps : Steps before.length t later task next) :
    ∀ id number, later.timers.lookup id = some number →
      ∃ other, (before ++ next :: after)[number]? = some other ∧ other.Holds id := by
  intro id number found
  have own : (before ++ next :: after)[before.length]? = some next := by simp
  rcases steps.entries found with ⟨same, holds⟩ | ⟨old, kept⟩
  · exact ⟨next, same ▸ own, holds⟩
  · obtain ⟨other, present, holds⟩ := tracked.entries id number old
    have moved := Program.getElem?_moved before after [] task next present
    rw [List.append_nil] at moved
    by_cases mine : number = before.length
    · subst mine
      have same : task = other := by simpa using present
      exact ⟨next, own, kept (same ▸ holds)⟩
    · rw [if_neg mine] at moved
      exact ⟨other, moved, holds⟩

/-- The next id is one that nobody has. -/
theorem draws (tracked : Tracked ⟨t, before ++ task :: after⟩) (steps : Steps before.length t later task next)
    (few : Program.total isTimer (before ++ next :: after) < 2 ^ 64) (undrawn : task.id? = none)
    (drawn : next.id? = some (t.counter + 1)) (counter : later.counter = t.counter + 1)
    (claimed : ∀ id, task.claims id = 0 ∧ next.claims id = (if t.counter + 1 = id then 1 else 0) ∧
      later.held id = t.held id) : Tracked ⟨later, before ++ next :: after⟩ := by
  have numbered := total_replaced counted before after task next
  have bound := total_counted_le (before ++ next :: after)
  have old : t.counter.toNat = Program.total counted (before ++ task :: after) := tracked.counter
  have first : task.counted = 0 ∧ next.counted = 1 := by simp [counted, undrawn, drawn]
  have grown : (t.counter + 1).toNat = t.counter.toNat + 1 := by bv_omega
  have names : ∀ id, task.named id = 0 ∧ next.named id = if t.counter + 1 = id then 1 else 0 := fun id => by
    simp [named, undrawn, drawn]
  have totals := fun id => total_replaced (named id) before after task next
  have ids := fun id => total_replaced (claims id) before after task next
  -- For an id that is not the next one nothing changes, and the next one is unused so far.
  have fresh := tracked.unused (t.counter + 1) (by simp only; omega)
  refine ⟨?_, ?_, ?_, ?_, tracked.step_entries steps⟩
  · simp only [counter]
    omega
  · intro id above
    simp only [counter] at above
    have other : t.counter + 1 ≠ id := by
      intro same
      rw [same] at above
      omega
    have unused := tracked.unused id (by simp only; omega)
    have claim := claimed id
    have name := names id
    rw [if_neg other] at claim name
    have total := totals id
    have claims := ids id
    simp only at unused ⊢
    omega
  · intro id
    have distinct := tracked.distinct id
    have name := names id
    have total := totals id
    simp only at distinct fresh ⊢
    by_cases mine : t.counter + 1 = id
    · subst mine
      rw [if_pos rfl] at name
      omega
    · rw [if_neg mine] at name
      omega
  · intro id
    have once := tracked.once id
    have claim := claimed id
    have total := ids id
    simp only at once fresh ⊢
    by_cases mine : t.counter + 1 = id
    · subst mine
      rw [if_pos rfl] at claim
      omega
    · rw [if_neg mine] at claim
      omega

theorem step (tracked : Tracked ⟨t, before ++ task :: after⟩) (steps : Steps before.length t later task next)
    (few : Program.total isTimer (before ++ next :: after) < 2 ^ 64) : Tracked ⟨later, before ++ next :: after⟩ := by
  have entries := tracked.step_entries steps
  rcases steps.effect with ⟨undrawn, drawn, counter, claimed⟩ | ⟨same, counter, claimed⟩
  · exact tracked.draws steps few undrawn drawn counter claimed
  · have counted' : next.counted = task.counted := by rw [counted, counted, same]
    have named' : ∀ id, next.named id = task.named id := fun id => by rw [named, named, same]
    have numbered := total_replaced counted before after task next
    have totals := fun id => total_replaced (named id) before after task next
    have ids := fun id => total_replaced (claims id) before after task next
    have old : t.counter.toNat = Program.total counted (before ++ task :: after) := tracked.counter
    refine ⟨?_, ?_, ?_, ?_, entries⟩
    · simp only [counter]
      omega
    · intro id above
      simp only [counter] at above
      have unused := tracked.unused id above
      have effect := claimed id
      have name := totals id
      have claim := ids id
      rw [named' id] at name
      simp only at unused ⊢
      omega
    · intro id
      have distinct := tracked.distinct id
      have name := totals id
      rw [named' id] at name
      simp only at distinct ⊢
      omega
    · intro id
      have once := tracked.once id
      have effect := claimed id
      have claim := ids id
      simp only at once ⊢
      omega

theorem start {threads : List TimerTask} (tracked : Tracked ⟨t, threads⟩) (allowed : timerTasks.starts task = true) :
    Tracked ⟨t, threads ++ [task]⟩ := by
  have idle : task.id? = none ∧ ∀ id, task.claims id = 0 := by
    cases task with
    | scheduled ms timer =>
      have stage : timer.stage = .count := of_decide_eq_true allowed
      simp [id?, claims, stage]
    | panicked timer => cases allowed
    | cancel id stage =>
      have stage : stage = .remove := of_decide_eq_true allowed
      simp [id?, claims, stage]
  have same : ∀ weight : TimerTask → Nat, weight task = 0 →
      Program.total weight (threads ++ [task]) = Program.total weight threads := by
    intro weight zero
    rw [Program.total_append, Program.total_cons, zero]
    rfl
  have names : ∀ id, task.named id = 0 := fun id => by simp [named, idle.1]
  refine ⟨?_, ?_, ?_, ?_, ?_⟩
  · rw [same counted (by simp [counted, idle.1])]
    exact tracked.counter
  · intro id above
    rw [same (named id) (names id), same (claims id) (idle.2 id)]
    exact tracked.unused id above
  · intro id
    rw [same (named id) (names id)]
    exact tracked.distinct id
  · intro id
    rw [same (claims id) (idle.2 id)]
    exact tracked.once id
  · intro id number found
    obtain ⟨other, present, holds⟩ := tracked.entries id number found
    have inside := (List.getElem?_eq_some_iff.mp present).1
    exact ⟨other, (List.getElem?_append_left inside).trans present, holds⟩

theorem move {c d : Config TimerTable TimerTask} {move : Move TimerTask Branch (Runtime → Runtime)}
    (tracked : Program.total isTimer c.threads < 2 ^ 64 → Tracked c) (moves : timerTasks.Moves c move d)
    (few : Program.total isTimer d.threads < 2 ^ 64) : Tracked d := by
  cases moves with
  | start allowed =>
    rw [Program.total_append] at few
    exact (tracked (Nat.lt_of_le_of_lt (Nat.le_add_right _ _) few)).start allowed
  | @step t later before after new task next branch stepped =>
    obtain ⟨rfl, steps⟩ := TimerTask.steps_of_step stepped
    rw [List.append_nil] at few ⊢
    have same : next.isTimer = task.isTimer := by cases steps <;> rfl
    have total := total_replaced isTimer before after task next
    have before' : Program.total isTimer (before ++ task :: after) < 2 ^ 64 := by
      simp only at few
      omega
    exact (tracked before').step steps few
  | ambient done =>
    cases done
    have kept := tracked few
    exact ⟨kept.counter, kept.unused, kept.distinct, kept.once, kept.entries⟩

theorem of_run {runtime : Runtime} {moves : List (Move TimerTask Branch (Runtime → Runtime))}
    {c : Config TimerTable TimerTask} (reached : timerTasks.machine.run ⟨.new runtime, []⟩ moves = some c)
    (few : Program.total isTimer c.threads < 2 ^ 64) : Tracked c := by
  have initial : Tracked ⟨.new runtime, []⟩ :=
    ⟨rfl, fun _ _ => ⟨rfl, rfl⟩, fun _ => Nat.zero_le _, fun _ => Nat.zero_le _, by simp [TimerTable.new]⟩
  exact timerTasks.machine.run_invariant (P := fun c => Program.total isTimer c.threads < 2 ^ 64 → Tracked c)
    (fun _ _ _ hold stepped => move hold (timerTasks.moves_of_step stepped)) (fun _ => initial) reached few

end Tracked

/-- Two threads at different places count twice. -/
theorem eq_of_total_le_one {τ : Type} {weight : τ → Nat} {threads : List τ} (one : Program.total weight threads ≤ 1)
    {i j : Nat} {a b : τ} (first : threads[i]? = some a) (second : threads[j]? = some b) (left : weight a = 1)
    (right : weight b = 1) : i = j := by
  by_contra different
  have other : b ∈ threads.eraseIdx i := List.mem_eraseIdx_iff_getElem?.mpr ⟨j, Ne.symm different, second⟩
  obtain ⟨before, after, rfl, rfl⟩ := Program.exists_split_of_getElem? first
  have rest : (before ++ a :: after).eraseIdx before.length = before ++ after := by
    simp [List.eraseIdx_append_of_length_le]
  rw [rest] at other
  have positive : 0 < Program.total weight (before ++ after) := Program.total_pos_of_mem other (by omega)
  simp only [Program.total_append, Program.total_cons] at one positive
  omega

def TimerTask.sending : TimerTask → Bool
  | .scheduled _ timer => decide (timer.stage = .send)
  | .panicked _ | .cancel _ _ => false

/-- The move is the one in which this timer sends its message. -/
def sends (number : Nat) (c : Config TimerTable TimerTask) : Move TimerTask Branch (Runtime → Runtime) → Nat
  | .step index _ => if index = number ∧ (c.threads[number]?).any TimerTask.sending then 1 else 0
  | .start _ | .ambient _ => 0

/-- A timer that sends once has not sent before it is at its last step. -/
def SentOnce (number count : Nat) (c : Config TimerTable TimerTask) : Prop :=
  match c.threads[number]? with
  | none => count = 0
  | some (.scheduled _ timer) => timer.repeating = false →
      count ≤ if timer.stage = .remove ∨ timer.stage = .done then 1 else 0
  | some (.panicked _) | some (.cancel _ _) => True

theorem sentOnce_zero (number : Nat) (c : Config TimerTable TimerTask) : SentOnce number 0 c := by
  unfold SentOnce
  split
  · rfl
  · exact fun _ => Nat.zero_le _
  · trivial
  · trivial

theorem SentOnce.step {number count : Nat} {t later : TimerTable} {branch : Branch} {task next : TimerTask}
    {threads moved : List TimerTask} (sent : SentOnce number count ⟨t, threads⟩) (present : threads[number]? = some task)
    (steps : TimerTask.Steps number t later task next) (after : moved[number]? = some next) :
    SentOnce number (count + sends number ⟨t, threads⟩ (.step number branch)) ⟨later, moved⟩ := by
  simp only [SentOnce, present] at sent
  simp only [SentOnce, after, sends, present]
  cases steps with
  | counts stage _ _ | inserts stage _ _ =>
    intro single
    have none := sent single
    simp [stage] at none
    simp [none, sending, stage]
  | waits stage after once _ _ =>
    intro single
    have none := sent single
    rcases stage with stage | stage
    · simp [stage] at none
      simp [none, sending, stage]
    · simp [stage] at none
      simp [none, sending, stage, once stage single]
  | removes stage _ _ =>
    intro single
    have none := sent single
    simp [stage] at none
    simp [sending, stage, none]
  | panics _ _ | misses _ | takes _ _ _ | signals _ _ => trivial

theorem SentOnce.move {number count : Nat} {c d : Config TimerTable TimerTask}
    {move : Move TimerTask Branch (Runtime → Runtime)} (sent : SentOnce number count c)
    (moves : timerTasks.Moves c move d) : SentOnce number (count + sends number c move) d := by
  cases present : c.threads[number]? with
  | some task =>
    rcases moves.thread_at present with ⟨branch, next, new, rfl, stepped, after⟩ | ⟨other, after⟩
    · exact sent.step present (TimerTask.steps_of_step stepped).2 after
    · have silent : sends number c move = 0 := by
        cases move with
        | step index branch =>
          have different : index ≠ number := fun same => other branch (same ▸ rfl)
          simp [sends, different]
        | start _ | ambient _ => rfl
      rw [silent]
      simp only [SentOnce, present] at sent
      simp only [SentOnce, after]
      exact sent
  | none =>
    have zero : count = 0 := by simpa only [SentOnce, present] using sent
    have silent : sends number c move = 0 := by
      cases move with
      | step index branch => simp [sends, present]
      | start _ | ambient _ => rfl
    rw [zero, silent]
    exact sentOnce_zero number d

/-- No interval is started with a period of zero. -/
def PositivePeriod (_ : Config TimerTable TimerTask) : Move TimerTask Branch (Runtime → Runtime) → Prop
  | .start (.scheduled ms timer) => timer.repeating = true → ms ≠ 0
  | .start (.panicked _) | .start (.cancel _ _) | .step _ _ | .ambient _ => True

instance (c : Config TimerTable TimerTask) : DecidablePred (PositivePeriod c)
  | .start (.scheduled ms timer) => inferInstanceAs (Decidable (timer.repeating = true → ms ≠ 0))
  | .start (.panicked _) | .start (.cancel _ _) | .step _ _ | .ambient _ => .isTrue trivial

def TimerTask.Sound : TimerTask → Prop
  | .scheduled ms timer => timer.repeating = true → ms ≠ 0
  | .panicked _ => False
  | .cancel _ _ => True

theorem sound_of_run {runtime : Runtime} {moves : List (Move TimerTask Branch (Runtime → Runtime))}
    {c : Config TimerTable TimerTask} (meets : timerTasks.machine.Meets PositivePeriod ⟨.new runtime, []⟩ moves)
    (reached : timerTasks.machine.run ⟨.new runtime, []⟩ moves = some c) : ∀ task ∈ c.threads, task.Sound := by
  refine timerTasks.run_invariant_of_meets (I := fun c => ∀ task ∈ c.threads, task.Sound) ?_ (by simp) meets reached
  intro c move d sound positive moved
  apply moved.forall_threads sound
  · intro task same allowed
    subst same
    cases task with
    | scheduled ms timer => exact positive
    | panicked timer => cases allowed
    | cancel id stage => trivial
  · intro index task branch later next new sound stepped
    obtain ⟨rfl, steps⟩ := TimerTask.steps_of_step stepped
    refine ⟨?_, by simp⟩
    cases steps with
    | counts _ _ _ | inserts _ _ _ | waits _ _ _ _ _ | removes _ _ _ => exact sound
    | panics panics _ => exact absurd panics.2.1 (sound panics.1)
    | misses _ | takes _ _ _ | signals _ _ => trivial

/-- In every interleaving of fewer than 2^64 timers with calls of `cancel_timer`,
    no id is drawn twice, a timer that sends once does so once, and one call for
    an id returns true. As long as no interval has a period of zero, the id of
    an ended task is not in the table, and what is there belongs to a task
    that has not ended. -/
theorem timer_table_tracks_tasks (runtime : Runtime) (moves : List (Move TimerTask Branch (Runtime → Runtime)))
    (c : Config TimerTable TimerTask) (reached : timerTasks.machine.run ⟨.new runtime, []⟩ moves = some c)
    (few : Program.total TimerTask.isTimer c.threads < 2 ^ 64) :
    (∀ (i j : Nat) (a b : TimerTask) (id : BitVec 64), c.threads[i]? = some a → c.threads[j]? = some b →
        a.id? = some id → b.id? = some id → i = j) ∧
      (∀ (number : Nat) (ms : BitVec 64) (timer : Timer), c.threads[number]? = some (.scheduled ms timer) →
        timer.repeating = false → timerTasks.machine.tally (sends number) ⟨.new runtime, []⟩ moves ≤ 1) ∧
      (∀ (i j : Nat) (id : BitVec 64), c.threads[i]? = some (.cancel id (.returned true)) →
        c.threads[j]? = some (.cancel id (.returned true)) → i = j) ∧
      (timerTasks.machine.Meets PositivePeriod ⟨.new runtime, []⟩ moves →
        (∀ task ∈ c.threads, task.Ended → ∀ id, task.id? = some id → id ∉ c.shared.timers) ∧
        ∀ id number, c.shared.timers.lookup id = some number →
          ∃ task, c.threads[number]? = some task ∧ task.id? = some id ∧ ¬ task.Ended) := by
  have tracked := Tracked.of_run reached few
  refine ⟨?_, ?_, ?_, ?_⟩
  · intro i j a b id first second left right
    exact eq_of_total_le_one (tracked.distinct id) first second (by simp [named, left]) (by simp [named, right])
  · intro number ms timer present single
    have sent := timerTasks.machine.run_tally_of_meets (sends number) (n := 0) (P := SentOnce number)
      (fun _ _ _ _ sent _ stepped => sent.move (timerTasks.moves_of_step stepped))
      (sentOnce_zero number _) (timerTasks.machine.meets_true _ moves) reached
    simp only [SentOnce, present, Nat.zero_add] at sent
    have bound := sent single
    split at bound <;> omega
  · intro i j id first second
    have once := tracked.once id
    have one : Program.total (claims id) c.threads ≤ 1 := by omega
    exact eq_of_total_le_one one first second (by simp [claims]) (by simp [claims])
  · intro meets
    have sound := sound_of_run meets reached
    have live : ∀ id number, c.shared.timers.lookup id = some number →
        ∃ task, c.threads[number]? = some task ∧ task.id? = some id ∧ ¬ task.Ended := by
      intro id number found
      obtain ⟨task, present, holds⟩ := tracked.entries id number found
      refine ⟨task, present, ?_⟩
      cases task with
      | scheduled ms timer =>
        obtain ⟨own, stage⟩ := holds
        rcases stage with stage | stage | stage <;> simp [id?, Ended, stage, own]
      | panicked timer => exact (sound _ (List.mem_of_getElem? present)).elim
      | cancel id stage => exact holds.elim
    refine ⟨?_, live⟩
    intro task member ended id mine inside
    obtain ⟨number, found⟩ := Option.isSome_iff_exists.mp (AList.lookup_isSome.mpr inside)
    obtain ⟨other, present, theirs, running⟩ := live id number found
    obtain ⟨index, here⟩ := List.getElem?_of_mem member
    have same := eq_of_total_le_one (tracked.distinct id) here present (by simp [named, mine]) (by simp [named, theirs])
    subst same
    cases here.symm.trans present
    exact running ended

/-- An interval of five milliseconds that is cancelled, and a timer that fires. -/
def intervalAndTimer : List (Move TimerTask Branch (Runtime → Runtime)) :=
  [.start (.scheduled 5 (sendInterval 1 (.user [7]))), .start (.scheduled 0 (sendAfter 1 (.user [8]))),
    .start (.cancel 1 .remove), .step 0 .deadline, .step 1 .deadline, .step 0 .deadline, .step 1 .deadline,
    .step 0 .deadline, .step 1 .deadline, .step 0 .deadline, .step 1 .deadline, .step 2 .deadline, .step 2 .deadline,
    .step 1 .deadline, .step 0 .cancelled]

theorem timer_table_tracks_tasks_interval :
    ∃ c, timerTasks.machine.run ⟨.new oneActor, []⟩ intervalAndTimer = some c ∧
      c.threads[1]? = some (.scheduled 0 ⟨false, 1, .user [8], 2, .done⟩) ∧ 2 ∉ c.shared.timers := by
  have checked : ∃ c, timerTasks.machine.run ⟨.new oneActor, []⟩ intervalAndTimer = some c ∧
      (c.threads[1]? = some (.scheduled 0 ⟨false, 1, .user [8], 2, .done⟩) ∧
        Program.total TimerTask.isTimer c.threads < 2 ^ 64) :=
    Machine.exists_of_check _ (by decide +kernel)
  obtain ⟨c, reached, ended, few⟩ := checked
  have meets : timerTasks.machine.Meets PositivePeriod ⟨.new oneActor, []⟩ intervalAndTimer :=
    Machine.meets_of_checks _ (by decide +kernel)
  have gone := (timer_table_tracks_tasks oneActor intervalAndTimer c reached few).2.2.2 meets
  exact ⟨c, reached, ended, gone.1 _ (List.mem_of_getElem? ended) rfl 2 rfl⟩

/-- The task of an interval of zero is gone, and its id stays in the table. -/
theorem zero_interval_stays_in_table :
    ¬ ∀ (runtime : Runtime) (moves : List (Move TimerTask Branch (Runtime → Runtime)))
      (c : Config TimerTable TimerTask), timerTasks.machine.run ⟨.new runtime, []⟩ moves = some c →
      Program.total TimerTask.isTimer c.threads < 2 ^ 64 →
      ∀ task ∈ c.threads, task.Ended → ∀ id, task.id? = some id → id ∉ c.shared.timers := by
  intro tracks
  have checked : ∃ c, timerTasks.machine.run ⟨.new oneActor, []⟩
      [.start (.scheduled 0 (sendInterval 1 (.user [7]))), .step 0 .deadline, .step 0 .deadline, .step 0 .deadline] =
        some c ∧ (c.threads = [.panicked ⟨true, 1, .user [7], 1, .select⟩] ∧ 1 ∈ c.shared.timers) :=
    Machine.exists_of_check _ (by decide +kernel)
  obtain ⟨c, reached, threads, inside⟩ := checked
  have few : Program.total TimerTask.isTimer c.threads < 2 ^ 64 := by
    rw [threads]
    decide
  have member : .panicked ⟨true, 1, .user [7], 1, .select⟩ ∈ c.threads := by
    rw [threads]
    exact List.mem_singleton_self _
  exact tracks _ _ c reached few _ member trivial 1 rfl inside

end Myrmidon

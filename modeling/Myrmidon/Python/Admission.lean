import Mathlib.Data.Fintype.Card
import Myrmidon.Data.Amount
import Myrmidon.Python.Dedicated
import Myrmidon.Runtime.Lifecycle

namespace Myrmidon.Python

open Slab Data Transition

/-- A thread of the process, by the address of its control block: no two have the
    same one, and none is at the null address. -/
abbrev ThreadId := { address : BitVec 64 // address ≠ 0 }

inductive CallStage where
  | entered
  | added (prev : BitVec 64)
  | rolledBack
  | spawning (tx : Option ThreadId)
  | rejected
  | returned (pid : Pid)
  deriving DecidableEq

/-- A call of `spawn_py_handler` with `release_gil`, and what it has read of the
    limits besides the number of threads. -/
structure SpawnCall where
  callable : PyObject
  poolSize : BitVec 64
  strict : Bool
  stage : CallStage
  deriving DecidableEq

inductive Activity where
  | idle
  | calling (call : SpawnCall)
  | dedicated (thread : GilThread)
  deriving DecidableEq

/-- The statics and tables that the calls share, and what each thread is doing.
    The pool, once there, has the size it was created with. -/
structure Process where
  initialised : Bool
  releaseGilThreads : BitVec 64
  gilWorkerPool : Option (BitVec 64)
  actors : World
  threads : ThreadId → Activity

/-- Messages may come into a thread's channel at any time, and its senders may go. -/
inductive ProcessMove where
  | call (id : ThreadId) (callable : PyObject) (poolSize : BitVec 64) (strict : Bool)
  | proceed (id fresh : ThreadId)
  | loop (id : ThreadId) (input : ThreadInput)
  | leave (id : ThreadId)
  | send (id : ThreadId) (message : Message)
  | dropSenders (id : ThreadId)
  | actors (change : World → World)
  | shutDown

namespace Process

def new (actors : World) : Process := ⟨true, 0, none, actors, fun _ => .idle⟩

def set (p : Process) (id : ThreadId) (activity : Activity) : Process :=
  { p with threads := Function.update p.threads id activity }

/-- One step of a call on thread `id`; a new thread gets the control block `fresh`. -/
def proceed (maxThreads : BitVec 64) (p : Process) (id fresh : ThreadId) (call : SpawnCall) : Option Process :=
  let after (stage : CallStage) : Activity := .calling { call with stage }
  match call.stage with
  | .entered =>
    some { p.set id (after (.added p.releaseGilThreads)) with releaseGilThreads := p.releaseGilThreads + 1 }
  | .added prev =>
    if maxThreads ≤ prev then
      some { p.set id (after .rolledBack) with releaseGilThreads := p.releaseGilThreads - 1 }
    else if p.threads fresh = .idle then
      some ((p.set fresh (.dedicated (.new call.callable))).set id (after (.spawning (some fresh))))
    else none
  | .rolledBack =>
    if call.strict then some (p.set id (after .rejected))
    else
      some { p.set id (after (.spawning none)) with gilWorkerPool := some (p.gilWorkerPool.getD call.poolSize) }
  | .spawning _ =>
    p.actors.spawnActor.map fun (pid, _, actors) => { p.set id (after (.returned pid)) with actors }
  | .rejected | .returned _ => none

def step (maxThreads : BitVec 64) (p : Process) : ProcessMove → Option Process
  | .call id callable poolSize strict =>
    if p.threads id = .idle then some (p.set id (.calling ⟨callable, poolSize, strict, .entered⟩)) else none
  | .proceed id fresh =>
    match p.threads id with
    | .calling call => p.proceed maxThreads id fresh call
    | .idle | .dedicated _ => none
  | .loop id input =>
    match p.threads id with
    | .dedicated thread =>
      (thread.step p.initialised p.releaseGilThreads input).map fun (counter, next) =>
        { p.set id (.dedicated next) with releaseGilThreads := counter }
    | .idle | .calling _ => none
  | .leave id =>
    match p.threads id with
    | .calling ⟨_, _, _, .rejected⟩ | .calling ⟨_, _, _, .returned _⟩ => some (p.set id .idle)
    | .dedicated thread => if thread.stage = .ended then some (p.set id .idle) else none
    | .idle | .calling _ => none
  | .send id message =>
    match p.threads id with
    | .dedicated thread =>
      match thread.channel.send message with
      | .ok channel => some (p.set id (.dedicated { thread with channel }))
      | .error _ => some p
    | .idle | .calling _ => none
  | .dropSenders id =>
    match p.threads id with
    | .dedicated thread => some (p.set id (.dedicated { thread with channel := thread.channel.dropSenders }))
    | .idle | .calling _ => none
  | .actors change => some { p with actors := change p.actors }
  | .shutDown => some { p with initialised := false }

end Process

/-- All calls on one process, with one limit. -/
def admission (maxThreads : BitVec 64) : Machine Process ProcessMove := ⟨Process.step maxThreads⟩

/-- Everything that a move can do in a process. -/
inductive Process.Moves (maxThreads : BitVec 64) (p : Process) : ProcessMove → Process → Prop where
  | calls {id : ThreadId} {callable : PyObject} {poolSize : BitVec 64} {strict : Bool}
      (free : p.threads id = .idle) :
      Moves maxThreads p (.call id callable poolSize strict)
        (p.set id (.calling ⟨callable, poolSize, strict, .entered⟩))
  | adds {id fresh : ThreadId} {call : SpawnCall} (found : p.threads id = .calling call)
      (stage : call.stage = .entered) :
      Moves maxThreads p (.proceed id fresh)
        { p.set id (.calling { call with stage := .added p.releaseGilThreads }) with
          releaseGilThreads := p.releaseGilThreads + 1 }
  | rollsBack {id fresh : ThreadId} {call : SpawnCall} {prev : BitVec 64} (found : p.threads id = .calling call)
      (stage : call.stage = .added prev) (full : maxThreads ≤ prev) :
      Moves maxThreads p (.proceed id fresh) { p.set id (.calling { call with stage := .rolledBack }) with
        releaseGilThreads := p.releaseGilThreads - 1 }
  | starts {id fresh : ThreadId} {call : SpawnCall} {prev : BitVec 64} (found : p.threads id = .calling call)
      (stage : call.stage = .added prev) (room : prev < maxThreads) (free : p.threads fresh = .idle) :
      Moves maxThreads p (.proceed id fresh) ((p.set fresh (.dedicated (.new call.callable))).set id
        (.calling { call with stage := .spawning (some fresh) }))
  | rejects {id fresh : ThreadId} {call : SpawnCall} (found : p.threads id = .calling call)
      (stage : call.stage = .rolledBack) (strict : call.strict = true) :
      Moves maxThreads p (.proceed id fresh) (p.set id (.calling { call with stage := .rejected }))
  | pools {id fresh : ThreadId} {call : SpawnCall} (found : p.threads id = .calling call)
      (stage : call.stage = .rolledBack) (lenient : call.strict = false) :
      Moves maxThreads p (.proceed id fresh) { p.set id (.calling { call with stage := .spawning none }) with
        gilWorkerPool := some (p.gilWorkerPool.getD call.poolSize) }
  | spawns {id fresh : ThreadId} {call : SpawnCall} {tx : Option ThreadId} {pid : Pid} {actors : World}
      (found : p.threads id = .calling call) (stage : call.stage = .spawning tx) :
      Moves maxThreads p (.proceed id fresh)
        { p.set id (.calling { call with stage := .returned pid }) with actors }
  | loops {id : ThreadId} {input : ThreadInput} {thread next : GilThread} {counter : BitVec 64}
      (found : p.threads id = .dedicated thread)
      (steps : GilThread.Steps p.initialised p.releaseGilThreads thread.channel thread.behavior thread.stage
        counter next) :
      Moves maxThreads p (.loop id input) { p.set id (.dedicated next) with releaseGilThreads := counter }
  | returns {id : ThreadId} {call : SpawnCall} (found : p.threads id = .calling call)
      (finished : call.stage = .rejected ∨ ∃ pid, call.stage = .returned pid) :
      Moves maxThreads p (.leave id) (p.set id .idle)
  | ends {id : ThreadId} {thread : GilThread} (found : p.threads id = .dedicated thread)
      (ended : thread.stage = .ended) : Moves maxThreads p (.leave id) (p.set id .idle)
  | channel {id : ThreadId} {move : ProcessMove} {thread next : GilThread} (found : p.threads id = .dedicated thread)
      (stage : next.stage = thread.stage) : Moves maxThreads p move (p.set id (.dedicated next))
  | elsewhere {move : ProcessMove} {initialised : Bool} {actors : World} :
      Moves maxThreads p move { p with initialised, actors }

theorem Process.moves_of_proceed {maxThreads : BitVec 64} {p q : Process} {id fresh : ThreadId} {call : SpawnCall}
    (found : p.threads id = .calling call) (stepped : p.proceed maxThreads id fresh call = some q) :
    p.Moves maxThreads (.proceed id fresh) q := by
  unfold proceed at stepped
  cases stage : call.stage with
  | entered =>
    simp only [stage] at stepped
    cases stepped
    exact .adds found stage
  | added prev =>
    simp only [stage] at stepped
    split at stepped
    · rename_i full
      cases stepped
      exact .rollsBack found stage full
    · rename_i room
      split at stepped
      · rename_i free
        cases stepped
        exact .starts found stage (BitVec.not_le.mp room) free
      · cases stepped
  | rolledBack =>
    simp only [stage] at stepped
    split at stepped
    · rename_i strict
      cases stepped
      exact .rejects found stage strict
    · rename_i lenient
      cases stepped
      exact .pools found stage (by simpa using lenient)
  | spawning tx =>
    simp only [stage] at stepped
    obtain ⟨⟨pid, index, actors⟩, -, same⟩ := Option.map_eq_some_iff.mp stepped
    cases same
    exact .spawns found stage
  | rejected | returned pid =>
    simp only [stage] at stepped
    cases stepped

theorem Process.moves_of_step {maxThreads : BitVec 64} {p q : Process} {move : ProcessMove}
    (stepped : p.step maxThreads move = some q) : p.Moves maxThreads move q := by
  cases move with
  | call id callable poolSize strict =>
    simp only [step] at stepped
    split at stepped
    · rename_i free
      cases stepped
      exact .calls free
    · cases stepped
  | proceed id fresh =>
    simp only [step] at stepped
    split at stepped
    · rename_i call found
      exact moves_of_proceed found stepped
    · cases stepped
    · cases stepped
  | loop id input =>
    simp only [step] at stepped
    split at stepped
    · rename_i thread found
      obtain ⟨⟨counter, next⟩, taken, same⟩ := Option.map_eq_some_iff.mp stepped
      cases same
      exact .loops found (GilThread.steps_of_step taken)
    · cases stepped
    · cases stepped
  | leave id =>
    simp only [step] at stepped
    split at stepped
    · rename_i found
      cases stepped
      exact .returns found (.inl rfl)
    · rename_i pid found
      cases stepped
      exact .returns found (.inr ⟨pid, rfl⟩)
    · rename_i thread found
      split at stepped
      · rename_i ended
        cases stepped
        exact .ends found ended
      · cases stepped
    · cases stepped
    · cases stepped
  | send id message =>
    simp only [step] at stepped
    split at stepped
    · rename_i thread found
      split at stepped
      · cases stepped
        exact .channel found rfl
      · cases stepped
        exact .elsewhere
    · cases stepped
    · cases stepped
  | dropSenders id =>
    simp only [step] at stepped
    split at stepped
    · rename_i thread found
      cases stepped
      exact .channel found rfl
    · cases stepped
    · cases stepped
  | actors change =>
    cases stepped
    exact .elsewhere
  | shutDown =>
    cases stepped
    exact .elsewhere

theorem toFin_injective : Function.Injective fun id : ThreadId => id.val.toFin := by
  intro a b same
  exact Subtype.ext (BitVec.eq_of_toFin_eq same)

noncomputable instance : Fintype ThreadId := @Fintype.ofFinite _ (Finite.of_injective _ toFin_injective)

theorem card_threadId : Fintype.card ThreadId < 2 ^ 64 := by
  have null : 0 ∉ Set.range fun id : ThreadId => id.val.toFin := by
    rintro ⟨id, same⟩
    exact id.property (BitVec.eq_of_toFin_eq same)
  have fewer := Fintype.card_lt_of_injective_of_notMem _ toFin_injective null
  rwa [Fintype.card_fin] at fewer

namespace Activity

def running : Activity → Nat
  | .dedicated thread => if thread.stage = .ended then 0 else 1
  | .idle | .calling _ => 0

/-- A call between its increment and the start of its thread, or its roll-back. -/
def between : Activity → Nat
  | .calling ⟨_, _, _, .added _⟩ => 1
  | .idle | .calling _ | .dedicated _ => 0

/-- The call will start a thread. -/
def admitted (maxThreads : BitVec 64) : Activity → Nat
  | .calling ⟨_, _, _, .added prev⟩ => if prev < maxThreads then 1 else 0
  | .idle | .calling _ | .dedicated _ => 0

theorem running_add_between_le (activity : Activity) : activity.running + activity.between ≤ 1 := by
  unfold running between
  cases activity with
  | idle => simp
  | dedicated thread =>
    simp only
    split <;> omega
  | calling call =>
    obtain ⟨callable, poolSize, strict, stage⟩ := call
    cases stage <;> simp

theorem admitted_le_between (maxThreads : BitVec 64) (activity : Activity) :
    activity.admitted maxThreads ≤ activity.between := by
  unfold admitted between
  cases activity with
  | idle | dedicated _ => simp
  | calling call =>
    obtain ⟨callable, poolSize, strict, stage⟩ := call
    cases stage with
    | added prev =>
      simp only
      split <;> omega
    | entered | rolledBack | spawning _ | rejected | returned _ => simp

end Activity

namespace Process

noncomputable def running (p : Process) : Nat := amount Activity.running p.threads
noncomputable def between (p : Process) : Nat := amount Activity.between p.threads

/-- The counter is the number of running threads and of undecided calls; the
    calls that are let in have room. -/
structure Accounted (maxThreads : BitVec 64) (p : Process) : Prop where
  counted : p.releaseGilThreads.toNat = p.running + p.between
  limited : p.running + amount (Activity.admitted maxThreads) p.threads ≤ maxThreads.toNat

theorem running_add_between_lt (p : Process) : p.running + p.between < 2 ^ 64 :=
  Nat.lt_of_le_of_lt (amount_add_amount_le_card Activity.running_add_between_le p.threads) card_threadId

theorem new_accounted (maxThreads : BitVec 64) (actors : World) : (new actors).Accounted maxThreads := by
  have empty : ∀ weight : Activity → Nat, weight .idle = 0 → amount weight (new actors).threads = 0 := by
    intro weight zero
    exact amount_eq_zero fun _ => zero
  constructor
  · rw [running, between, empty _ rfl, empty _ rfl]
    rfl
  · rw [running, empty _ rfl, empty _ rfl]
    exact Nat.zero_le _

/-- One thread goes on to something else, and the counter follows. -/
theorem Accounted.of_set {maxThreads : BitVec 64} {p q : Process} (accounted : p.Accounted maxThreads) {id : ThreadId}
    {old activity : Activity} (found : p.threads id = old) (threads : q.threads = Function.update p.threads id activity)
    (counter : q.releaseGilThreads.toNat + (old.running + old.between) =
      p.releaseGilThreads.toNat + (activity.running + activity.between))
    (limit : p.running + amount (Activity.admitted maxThreads) p.threads +
        (activity.running + activity.admitted maxThreads) ≤
      maxThreads.toNat + (old.running + old.admitted maxThreads)) :
    q.Accounted maxThreads := by
  have running := amount_update Activity.running p.threads id activity
  have between := amount_update Activity.between p.threads id activity
  have admitted := amount_update (Activity.admitted maxThreads) p.threads id activity
  have counted := accounted.counted
  rw [found, ← threads] at running between admitted
  unfold Process.running Process.between at counted
  unfold Process.running at limit
  constructor
  · unfold Process.running Process.between
    omega
  · unfold Process.running
    omega

theorem Accounted.of_same {maxThreads : BitVec 64} {p q : Process} (accounted : p.Accounted maxThreads) {id : ThreadId}
    {old activity : Activity} (found : p.threads id = old) (threads : q.threads = Function.update p.threads id activity)
    (counter : q.releaseGilThreads = p.releaseGilThreads) (running : activity.running = old.running)
    (between : activity.between = old.between) (admitted : activity.admitted maxThreads = old.admitted maxThreads) :
    q.Accounted maxThreads := by
  have limited := accounted.limited
  refine accounted.of_set found threads ?_ ?_
  · rw [counter, running, between]
  · rw [running, admitted]
    omega

end Process

theorem Activity.weights_of_decided (call : SpawnCall) (decided : ∀ prev, call.stage ≠ .added prev)
    (maxThreads : BitVec 64) :
    (Activity.calling call).between = 0 ∧ (Activity.calling call).admitted maxThreads = 0 := by
  obtain ⟨callable, poolSize, strict, stage⟩ := call
  cases stage with
  | added prev => exact absurd rfl (decided prev)
  | entered | rolledBack | spawning _ | rejected | returned _ => exact ⟨rfl, rfl⟩

/-- A way out of the loop takes one off the counter, and nothing else does. -/
theorem GilThread.Steps.releases {initialised : Bool} {counter later : BitVec 64} {channel : Channel Message}
    {behavior : Behavior} {stage : ThreadStage} {next : GilThread}
    (steps : Steps initialised counter channel behavior stage later next) :
    stage ≠ .ended ∧ later = if next.stage = .ended then counter - 1 else counter := by
  cases steps <;> simp [GilThread.exit]

theorem toNat_add_one {counter : BitVec 64} (room : counter.toNat + 1 < 2 ^ 64) :
    (counter + 1).toNat = counter.toNat + 1 := by
  bv_omega

theorem toNat_sub_one (counter : BitVec 64) (positive : 0 < counter.toNat) :
    (counter - 1).toNat + 1 = counter.toNat := by
  bv_omega

namespace Process

theorem Accounted.adds {maxThreads : BitVec 64} {p : Process} (accounted : p.Accounted maxThreads) {id : ThreadId}
    {call : SpawnCall} (found : p.threads id = .calling call) (stage : call.stage = .entered) :
    (p.releaseGilThreads + 1).toNat = p.releaseGilThreads.toNat + 1 ∧
      Accounted maxThreads { p.set id (.calling { call with stage := .added p.releaseGilThreads }) with
        releaseGilThreads := p.releaseGilThreads + 1 } := by
  have old := Activity.weights_of_decided call (by simp [stage]) maxThreads
  have counted := accounted.counted
  have limited := accounted.limited
  -- With this call there are still fewer than 2^64 threads.
  have room := running_add_between_lt
    (p.set id (.calling { call with stage := .added p.releaseGilThreads }))
  have running := amount_update Activity.running p.threads id (.calling { call with stage := .added p.releaseGilThreads })
  have between := amount_update Activity.between p.threads id (.calling { call with stage := .added p.releaseGilThreads })
  have fewer : amount (Activity.admitted maxThreads) p.threads ≤ p.between :=
    amount_le (Activity.admitted_le_between maxThreads) p.threads
  rw [found] at running
  rw [found, old.1] at between
  simp only [Activity.running] at running
  simp only [Activity.between] at between
  simp only [Process.running, Process.between, set] at room counted limited fewer
  have grown : (p.releaseGilThreads + 1).toNat = p.releaseGilThreads.toNat + 1 := toNat_add_one (by omega)
  refine ⟨grown, accounted.of_set found rfl ?_ ?_⟩
  · rw [old.1]
    simp only [grown, Activity.running, Activity.between]
  · rw [old.2]
    simp only [Process.running, Activity.running, Activity.admitted, Nat.zero_add, Nat.add_zero]
    split
    · rename_i admitted
      have less : p.releaseGilThreads.toNat < maxThreads.toNat := admitted
      omega
    · rw [Nat.add_zero]
      exact limited

theorem Accounted.rollsBack {maxThreads : BitVec 64} {p : Process} (accounted : p.Accounted maxThreads)
    {id : ThreadId} {call : SpawnCall} {prev : BitVec 64} (found : p.threads id = .calling call)
    (stage : call.stage = .added prev) (full : maxThreads ≤ prev) :
    (p.releaseGilThreads - 1).toNat + 1 = p.releaseGilThreads.toNat ∧
      Accounted maxThreads { p.set id (.calling { call with stage := .rolledBack }) with
        releaseGilThreads := p.releaseGilThreads - 1 } := by
  obtain ⟨callable, poolSize, strict, stage'⟩ := call
  cases stage
  have counted := accounted.counted
  have limited := accounted.limited
  have between := amount_update Activity.between p.threads id (.calling ⟨callable, poolSize, strict, .rolledBack⟩)
  rw [found] at between
  simp only [Activity.between] at between
  simp only [Process.running, Process.between] at counted
  have released := toNat_sub_one p.releaseGilThreads (by omega)
  refine ⟨released, accounted.of_set found rfl ?_ ?_⟩
  · simp only [Activity.running, Activity.between]
    omega
  · have closed : ¬ prev < maxThreads := BitVec.not_lt.mpr full
    simp only [Activity.running, Activity.admitted, if_neg closed]
    omega

theorem Accounted.starts {maxThreads : BitVec 64} {p : Process} (accounted : p.Accounted maxThreads)
    {id fresh : ThreadId} {call : SpawnCall} {prev : BitVec 64} (found : p.threads id = .calling call)
    (stage : call.stage = .added prev) (room : prev < maxThreads) (free : p.threads fresh = .idle) :
    Accounted maxThreads ((p.set fresh (.dedicated (.new call.callable))).set id
      (.calling { call with stage := .spawning (some fresh) })) := by
  obtain ⟨callable, poolSize, strict, stage'⟩ := call
  cases stage
  have other : id ≠ fresh := by
    intro same
    rw [same, free] at found
    cases found
  have mine : (p.set fresh (.dedicated (.new callable))).threads id = p.threads id := Function.update_of_ne other _ _
  have counted := accounted.counted
  have limited := accounted.limited
  simp only [Process.running, Process.between] at counted limited
  -- The new thread takes over the place that the call held in the counter.
  have first := fun weight => amount_update weight p.threads fresh (.dedicated (.new callable))
  have second := fun weight => amount_update weight (p.set fresh (.dedicated (.new callable))).threads id
    (.calling ⟨callable, poolSize, strict, .spawning (some fresh)⟩)
  simp only [free] at first
  simp only [mine, found] at second
  have running := first Activity.running
  have running' := second Activity.running
  have between := first Activity.between
  have between' := second Activity.between
  have admitted := first (Activity.admitted maxThreads)
  have admitted' := second (Activity.admitted maxThreads)
  simp only [Activity.running, GilThread.new, reduceCtorEq, if_false, set] at running running'
  simp only [Activity.between, GilThread.new, set] at between between'
  simp only [Activity.admitted, GilThread.new, if_pos room, set] at admitted admitted'
  constructor
  · simp only [Process.running, Process.between, set, GilThread.new]
    omega
  · simp only [Process.running, set, GilThread.new]
    omega

theorem Accounted.loops {maxThreads : BitVec 64} {p : Process} (accounted : p.Accounted maxThreads) {id : ThreadId}
    {thread next : GilThread} {counter : BitVec 64} (found : p.threads id = .dedicated thread)
    (steps : GilThread.Steps p.initialised p.releaseGilThreads thread.channel thread.behavior thread.stage
      counter next) :
    counter.toNat + (if next.stage = .ended then 1 else 0) = p.releaseGilThreads.toNat ∧
      Accounted maxThreads { p.set id (.dedicated next) with releaseGilThreads := counter } := by
  obtain ⟨alive, released⟩ := steps.releases
  have counted := accounted.counted
  have limited := accounted.limited
  have running := amount_update Activity.running p.threads id (.dedicated next)
  rw [found] at running
  simp only [Activity.running, if_neg alive] at running
  simp only [Process.running, Process.between] at counted
  have balance : counter.toNat + (if next.stage = .ended then 1 else 0) = p.releaseGilThreads.toNat := by
    by_cases ended : next.stage = .ended
    · rw [if_pos ended] at released running ⊢
      rw [released, toNat_sub_one _ (by omega)]
    · rw [if_neg ended] at released ⊢
      rw [released, Nat.add_zero]
  refine ⟨balance, accounted.of_set found rfl ?_ ?_⟩
  · simp only [Activity.running, Activity.between, if_neg alive]
    split at balance
    · rename_i ended
      rw [if_pos ended]
      omega
    · rename_i going
      rw [if_neg going]
      omega
  · simp only [Activity.running, Activity.admitted, if_neg alive]
    split <;> omega

theorem Accounted.moves {maxThreads : BitVec 64} {p q : Process} (accounted : p.Accounted maxThreads)
    {move : ProcessMove} (moves : p.Moves maxThreads move q) : q.Accounted maxThreads := by
  -- A call that is not between its increment and its decision weighs nothing.
  have light : ∀ {id call stage}, p.threads id = .calling call → (∀ prev, call.stage ≠ .added prev) →
      (∀ prev, stage ≠ CallStage.added prev) → ∀ {q : Process},
      q.threads = Function.update p.threads id (.calling { call with stage }) →
      q.releaseGilThreads = p.releaseGilThreads → q.Accounted maxThreads := by
    intro id call stage found decided still q threads counter
    have before := Activity.weights_of_decided call decided maxThreads
    have after := Activity.weights_of_decided { call with stage } still maxThreads
    exact accounted.of_same found threads counter rfl (after.1.trans before.1.symm) (after.2.trans before.2.symm)
  cases moves with
  | @calls id callable poolSize strict free =>
    have weights := Activity.weights_of_decided ⟨callable, poolSize, strict, .entered⟩ (by simp) maxThreads
    exact accounted.of_same free rfl rfl rfl weights.1 weights.2
  | adds found stage => exact (accounted.adds found stage).2
  | rollsBack found stage full => exact (accounted.rollsBack found stage full).2
  | starts found stage room free => exact accounted.starts found stage room free
  | rejects found stage strict => exact light found (by simp [stage]) (by simp) rfl rfl
  | pools found stage lenient => exact light found (by simp [stage]) (by simp) rfl rfl
  | spawns found stage => exact light found (by simp [stage]) (by simp) rfl rfl
  | loops found steps => exact (accounted.loops found steps).2
  | @returns id call found finished =>
    have decided := Activity.weights_of_decided call (fun prev added => by simp [added] at finished) maxThreads
    exact accounted.of_same found rfl rfl rfl decided.1.symm decided.2.symm
  | ends found ended =>
    exact accounted.of_same found rfl rfl (by simp [Activity.running, ended]) rfl rfl
  | channel found stage =>
    exact accounted.of_same found rfl rfl (by simp only [Activity.running, stage]) rfl rfl
  | elsewhere => exact ⟨accounted.counted, accounted.limited⟩

theorem accounted_of_run {maxThreads : BitVec 64} {p q : Process} {moves : List ProcessMove}
    (accounted : p.Accounted maxThreads) (reached : (admission maxThreads).run p moves = some q) :
    q.Accounted maxThreads :=
  (admission maxThreads).run_invariant (fun _ _ _ hold stepped => hold.moves (moves_of_step stepped)) accounted reached

/-- A step of the call on thread `id` that leaves everything else as it was; what
    it puts on the counter is what the call then holds of it. -/
structure Spares (id : ThreadId) (s t : Process) : Prop where
  initialised : t.initialised = s.initialised
  actors : t.actors = s.actors
  pool : t.gilWorkerPool = s.gilWorkerPool
  others : ∀ other, other ≠ id → t.threads other = s.threads other
  counter : t.releaseGilThreads.toNat + (s.threads id).between = s.releaseGilThreads.toNat + (t.threads id).between

/-- A call that has its thread or its pool, and is not rejected any more. -/
def LetIn (id : ThreadId) (p : Process) : Prop :=
  ∃ call, p.threads id = .calling call ∧ ((∃ tx, call.stage = .spawning tx) ∨ ∃ pid, call.stage = .returned pid)

@[simp] theorem set_self (p : Process) (id : ThreadId) (activity : Activity) :
    (p.set id activity).threads id = activity := by
  simp [set]

theorem set_other (p : Process) {id other : ThreadId} (different : other ≠ id) (activity : Activity) :
    (p.set id activity).threads other = p.threads other := by
  simp [set, Function.update_of_ne different]

theorem proceed_strict {maxThreads : BitVec 64} {s t : Process} {id fresh : ThreadId} {call : SpawnCall}
    (accounted : s.Accounted maxThreads) (found : s.threads id = .calling call) (strict : call.strict = true)
    (stepped : s.proceed maxThreads id fresh call = some t) :
    LetIn id t ∨ (s.Spares id t ∧ ∃ stage, t.threads id = .calling { call with stage }) := by
  unfold proceed at stepped
  cases stage : call.stage with
  | entered =>
    simp only [stage] at stepped
    cases stepped
    have grown := (accounted.adds found stage).1
    have before := (Activity.weights_of_decided call (by simp [stage]) maxThreads).1
    refine .inr ⟨⟨rfl, rfl, rfl, fun other different => set_other s different _, ?_⟩, _, set_self s id _⟩
    rw [found, before]
    simp only [set_self, grown, Activity.between, Nat.add_zero]
  | added prev =>
    simp only [stage] at stepped
    split at stepped
    · rename_i full
      cases stepped
      have released := (accounted.rollsBack found stage full).1
      obtain ⟨callable, poolSize, strict', stage'⟩ := call
      cases stage
      refine .inr ⟨⟨rfl, rfl, rfl, fun other different => set_other s different _, ?_⟩, _, set_self s id _⟩
      simp only [set_self, found, Activity.between]
      omega
    · split at stepped
      · cases stepped
        exact .inl ⟨_, set_self _ id _, .inl ⟨some fresh, rfl⟩⟩
      · cases stepped
  | rolledBack =>
    simp only [stage] at stepped
    rw [if_pos strict] at stepped
    cases stepped
    have before := (Activity.weights_of_decided call (by simp [stage]) maxThreads).1
    refine .inr ⟨⟨rfl, rfl, rfl, fun other different => set_other s different _, ?_⟩, _, set_self s id _⟩
    rw [found, before]
    simp only [set_self, Activity.between]
    rfl
  | spawning tx =>
    simp only [stage] at stepped
    obtain ⟨⟨pid, index, actors⟩, -, same⟩ := Option.map_eq_some_iff.mp stepped
    cases same
    exact .inl ⟨_, set_self s id _, .inr ⟨pid, rfl⟩⟩
  | rejected | returned pid =>
    simp only [stage] at stepped
    cases stepped

/-- The thread of a call is touched by its own steps only. -/
theorem calling_kept {maxThreads : BitVec 64} {s t : Process} {id : ThreadId} {call : SpawnCall} {move : ProcessMove}
    (found : s.threads id = .calling call) (stays : move ≠ .leave id) (stepped : s.step maxThreads move = some t) :
    t.threads id = .calling call ∨ ∃ fresh, move = .proceed id fresh ∧ s.proceed maxThreads id fresh call = some t := by
  by_cases own : ∃ fresh, move = .proceed id fresh
  · obtain ⟨fresh, rfl⟩ := own
    simp only [step, found] at stepped
    exact .inr ⟨fresh, rfl, stepped⟩
  left
  have untouched : ∀ {p : Process} {other activity}, id ≠ other → p.threads id = s.threads id →
      (p.set other activity).threads id = .calling call := by
    intro p other activity different same
    rw [set_other p different, same, found]
  have different : ∀ {other activity}, s.threads other = activity → (∀ call, activity ≠ .calling call) → id ≠ other := by
    rintro other activity present idle rfl
    exact idle call (present.symm.trans found)
  have proceeding : ∀ {other fresh}, move = .proceed other fresh → id ≠ other := by
    rintro other fresh proceeds rfl
    exact own ⟨fresh, proceeds⟩
  cases moves_of_step stepped with
  | calls free => exact untouched (different free (by simp)) rfl
  | adds present stage => exact untouched (proceeding rfl) rfl
  | rollsBack present stage full => exact untouched (proceeding rfl) rfl
  | starts present stage room free =>
    exact untouched (proceeding rfl) (set_other s (different free (by simp)) _)
  | rejects present stage strict => exact untouched (proceeding rfl) rfl
  | pools present stage lenient => exact untouched (proceeding rfl) rfl
  | spawns present stage => exact untouched (proceeding rfl) rfl
  | loops present steps => exact untouched (different present (by simp)) rfl
  | returns present finished => exact untouched (fun same => stays (same ▸ rfl)) rfl
  | ends present ended => exact untouched (different present (by simp)) rfl
  | channel present stage => exact untouched (different present (by simp)) rfl
  | elsewhere => exact found

theorem letIn_step {maxThreads : BitVec 64} {s t : Process} {id : ThreadId} {move : ProcessMove} (inside : LetIn id s)
    (stays : move ≠ .leave id) (stepped : s.step maxThreads move = some t) : LetIn id t := by
  obtain ⟨call, found, stage⟩ := inside
  rcases calling_kept found stays stepped with kept | ⟨fresh, -, own⟩
  · exact ⟨call, kept, stage⟩
  · rcases stage with ⟨tx, stage⟩ | ⟨pid, stage⟩
    · simp only [proceed, stage] at own
      obtain ⟨⟨pid, index, actors⟩, -, same⟩ := Option.map_eq_some_iff.mp own
      cases same
      exact ⟨_, set_self s id _, .inr ⟨pid, rfl⟩⟩
    · simp only [proceed, stage] at own
      cases own

/-- Up to its rejection a strict call has spared everything. -/
theorem meets_spares {maxThreads : BitVec 64} {s t : Process} {id : ThreadId} {call final : SpawnCall}
    {moves : List ProcessMove} (accounted : s.Accounted maxThreads) (found : s.threads id = .calling call)
    (strict : call.strict = true) (stays : .leave id ∉ moves) (reached : (admission maxThreads).run s moves = some t)
    (ends : t.threads id = .calling final) (rejected : final.stage = .rejected) :
    (admission maxThreads).Meets
      (fun before move => ∀ fresh after, move = .proceed id fresh → before.step maxThreads move = some after →
        before.Spares id after) s moves := by
  induction moves generalizing s call with
  | nil => trivial
  | cons move rest ih =>
    rw [Machine.run_cons] at reached
    obtain ⟨middle, stepped, onward⟩ := Option.bind_eq_some_iff.mp reached
    have hold := accounted.moves (moves_of_step stepped)
    have first : move ≠ .leave id := fun same => stays (same ▸ List.mem_cons_self)
    have others : .leave id ∉ rest := fun member => stays (List.mem_cons_of_mem _ member)
    by_cases own : ∃ fresh, move = .proceed id fresh
    · obtain ⟨fresh, rfl⟩ := own
      have proceeded : s.proceed maxThreads id fresh call = some middle := by
        simpa only [admission, step, found] using stepped
      rcases proceed_strict accounted found strict proceeded with inside | ⟨spares, stage, kept⟩
      · have stays' : (admission maxThreads).Meets (fun _ move => move ≠ .leave id) middle rest := by
          apply Machine.meets_of_forall
          intro move member _ same
          rw [same] at member
          exact others member
        obtain ⟨last, present, stage⟩ := (admission maxThreads).run_invariant_of_meets
          (fun _ _ _ inside stays stepped => letIn_step inside stays stepped) inside stays' onward
        cases ends.symm.trans present
        simp [rejected] at stage
      · apply Machine.meets_cons _ stepped _ (ih hold kept strict others onward)
        intro other after _ taken
        cases stepped.symm.trans taken
        exact spares
    · rcases calling_kept found first stepped with kept | ⟨fresh, same, _⟩
      · apply Machine.meets_cons _ stepped _ (ih hold kept strict others onward)
        intro fresh after same _
        exact absurd ⟨fresh, same⟩ own
      · exact absurd ⟨fresh, same⟩ own

/-- Alone, a strict call at the limit is rejected with everything as it was. -/
theorem rejected_alone {maxThreads : BitVec 64} {p : Process} {id : ThreadId} {call : SpawnCall} (fresh : ThreadId)
    (found : p.threads id = .calling call) (stage : call.stage = .entered) (strict : call.strict = true)
    (full : maxThreads ≤ p.releaseGilThreads) :
    (admission maxThreads).run p (List.replicate 3 (.proceed id fresh)) =
      some (p.set id (.calling { call with stage := .rejected })) := by
  have restored : p.releaseGilThreads + 1 - 1 = p.releaseGilThreads := BitVec.add_sub_cancel _ _
  simp only [List.replicate, Machine.run, admission, step, found, proceed, stage, set_self, if_pos full, if_pos strict]
  simp only [set, restored, Function.update_idem]

/-- In every interleaving the counter is exactly the running dedicated threads and
    the calls between increment and decision, and the threads stay within the
    limit. Every way out of a thread's loop gives back one slot, and nothing else
    of it does. Whatever a strict call does on the way to its rejection leaves
    the actors, the pool and the other threads alone. -/
theorem release_gil_threads_limited (maxThreads : BitVec 64) (actors : World) (moves : List ProcessMove) (p : Process)
    (reached : (admission maxThreads).run (.new actors) moves = some p) :
    p.running ≤ maxThreads.toNat ∧ p.releaseGilThreads.toNat = p.running + p.between ∧
      (∀ id thread input q, p.threads id = .dedicated thread → p.step maxThreads (.loop id input) = some q →
        thread.stage ≠ .ended ∧ ∃ next, q.threads id = .dedicated next ∧
          q.releaseGilThreads.toNat + (if next.stage = .ended then 1 else 0) = p.releaseGilThreads.toNat) ∧
      (∀ id call fresh, p.threads id = .calling call → call.stage = .entered → call.strict = true →
        maxThreads ≤ p.releaseGilThreads →
        (admission maxThreads).run p (List.replicate 3 (.proceed id fresh)) =
          some (p.set id (.calling { call with stage := .rejected }))) ∧
      (∀ id call final more q, p.threads id = .calling call → call.strict = true → .leave id ∉ more →
        (admission maxThreads).run p more = some q → q.threads id = .calling final → final.stage = .rejected →
        (admission maxThreads).Meets
          (fun before move => ∀ fresh after, move = .proceed id fresh → before.step maxThreads move = some after →
            before.Spares id after) p more) := by
  have accounted := accounted_of_run (new_accounted maxThreads actors) reached
  have limited := accounted.limited
  refine ⟨by omega, accounted.counted, ?_, ?_, ?_⟩
  · intro id thread input q found stepped
    simp only [step, found] at stepped
    obtain ⟨⟨counter, next⟩, taken, same⟩ := Option.map_eq_some_iff.mp stepped
    cases same
    have steps := GilThread.steps_of_step taken
    exact ⟨steps.releases.1, next, set_self p id _, (accounted.loops found steps).1⟩
  · intro id call fresh found stage strict full
    exact rejected_alone fresh found stage strict full
  · intro id call final more q found strict stays ran ends rejected
    exact meets_spares accounted found strict stays ran ends rejected

/-- With room for one thread: a call gets it, a strict call is turned away while
    the thread runs, and the thread ends by an Exit message. -/
def oneAdmitted : List ProcessMove :=
  let first : ThreadId := ⟨1, by decide⟩
  let second : ThreadId := ⟨2, by decide⟩
  let thread : ThreadId := ⟨3, by decide⟩
  [.call first 10 8 false, .proceed first thread, .call second 20 8 true, .proceed first thread, .proceed second first,
    .proceed second first, .loop thread .proceed, .proceed second first, .proceed first thread,
    .send thread (.system (.exit ⟨7, .killed, none⟩)), .loop thread .proceed, .loop thread .proceed]

theorem release_gil_threads_limited_oneAdmitted :
    ∃ p, (admission 1).run (.new ⟨.new .new [], []⟩) oneAdmitted = some p ∧
      p.threads ⟨2, by decide⟩ = .calling ⟨20, 8, true, .rejected⟩ ∧ p.releaseGilThreads = 0 ∧
      p.releaseGilThreads.toNat = p.running + p.between := by
  have checked : ∃ p, (admission 1).run (.new ⟨.new .new [], []⟩) oneAdmitted = some p ∧
      (p.threads ⟨2, by decide⟩ = .calling ⟨20, 8, true, .rejected⟩ ∧ p.releaseGilThreads = 0) :=
    Machine.exists_of_check _ (by decide +kernel)
  obtain ⟨p, reached, rejected, counter⟩ := checked
  exact ⟨p, reached, rejected, counter, (release_gil_threads_limited 1 _ oneAdmitted p reached).2.1⟩

end Process

end Myrmidon.Python

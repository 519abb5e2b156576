import Myrmidon.Runtime.Removal
import Myrmidon.Transition.Fair

namespace Myrmidon

open Slab Transition

variable {map : Sharding}

/-- A supervisor is asked for the pid of an exit: a path has it then, and it is
    told of the exit just if it has the pid. -/
structure AskedAt (e : (pathTable map).Execution) (index number : Nat) (pid : Pid) (n : Nat) : Prop where
  listed : ∃ path, (e.config n).shared.paths.lookup path = some number
  first : ∃ tell : Tell, (e.config n).threads[index]? = some (.telling tell) ∧ number ∉ tell.asked
  told : ∃ (s : Supervisor) (tell : Tell), (e.config n).shared.get (some number) = some s ∧
    (e.config (n + 1)).threads[index]? = some (.telling tell) ∧ number ∈ tell.asked ∧
    (s.containsChild pid = true ↔ ∃ part todo, tell.stage = .notifyPath part number (.new pid) todo)

/-- What an exit has done when everybody has been told of it. -/
structure TellsAll (e : (pathTable map).Execution) (start finish index : Nat) (pid : Pid) (tell : Tell) : Prop where
  once : tell.asked.Nodup
  whole : ∀ path number, (∀ n, start ≤ n → n ≤ finish → (e.config n).shared.paths.lookup path = some number) →
    number ∈ tell.asked
  asked : ∀ number ∈ tell.asked, ∃ n, start ≤ n ∧ n < finish ∧ AskedAt e index number pid n

namespace Tell

/-- The iteration will not miss the supervisor of the path. -/
def Covers (map : Sharding) (path : String) (number : Nat) (tell : Tell) : Prop :=
  (∀ call, tell.stage ≠ .notify call) →
    number ∈ tell.asked ∨ number ∈ tell.stage.todo ∨ ∃ part, tell.stage.part = some part ∧ part < map.shard path

variable {h later : Hierarchy} {tell next : Tell} {new : List Aftermath} {path : String} {number : Nat}

theorem covers_of_enters {part : Nat} {stage : TellStage} (enters : h.Enters map part later stage)
    (found : h.paths.lookup path = some number) (ahead : part ≤ map.shard path) :
    number ∈ stage.todo ∨ ∃ part, stage.part = some part ∧ part < map.shard path := by
  cases enters with
  | shard inside whole =>
    rcases Nat.lt_or_eq_of_le ahead with less | same
    · exact .inr ⟨part, rfl, less⟩
    · left
      apply List.mem_filterMap.mpr
      refine ⟨path, whole.mem_iff.mpr ?_, found⟩
      apply List.mem_filter.mpr
      refine ⟨AList.mem_keys.mp ?_, decide_eq_true same.symm⟩
      rw [← AList.lookup_isSome, found]
      rfl
  | past outside =>
    have bound := map.shard_lt path
    omega

theorem Covers.step (covers : tell.Covers map path number) (steps : tell.Steps map h later next new)
    (found : h.paths.lookup path = some number) : next.Covers map path number := by
  have taken : ∀ part other todo, tell.stage = .visit part (other :: todo) →
      number ∈ tell.asked ++ [other] ∨ number ∈ todo ∨ part < map.shard path := by
    intro part other todo stage
    rcases covers (by simp [stage]) with asked | todo | ⟨own, inside, less⟩
    · exact .inl (List.mem_append_left _ asked)
    · rw [stage] at todo
      rcases List.mem_cons.mp todo with rfl | rest
      · exact .inl (by simp)
      · exact .inr (.inl rest)
    · rw [stage] at inside
      cases inside
      exact .inr (.inr less)
  intro begun
  cases steps with
  | notified stage steps => exact absurd rfl (begun _)
  | began stage ended enters => exact .inr (covers_of_enters enters found (Nat.zero_le _))
  | @moved part _ _ stage enters =>
    rcases covers (by simp [stage]) with asked | todo | ⟨own, inside, less⟩
    · exact .inl asked
    · rw [stage] at todo
      cases todo
    · rw [stage] at inside
      cases inside
      exact .inr (covers_of_enters enters found less)
  | asked stage present foreign =>
    rcases taken _ _ _ stage with asked | rest | less
    · exact .inl asked
    · exact .inr (.inl rest)
    · exact .inr (.inr ⟨_, rfl, less⟩)
  | found stage present child =>
    rcases taken _ _ _ stage with asked | rest | less
    · exact .inl asked
    · exact .inr (.inl rest)
    · exact .inr (.inr ⟨_, rfl, less⟩)
  | pathNotified stage present steps =>
    have before := covers (by simp [stage])
    rwa [stage] at before
  | returned stage ended =>
    have before := covers (by simp [stage])
    rwa [stage] at before

/-- A step that asks one more supervisor. -/
theorem Steps.asks (steps : tell.Steps map h later next new) (sound : tell.Sound map h) (fresh : number ∉ tell.asked)
    (member : number ∈ next.asked) :
    (∃ path, h.paths.lookup path = some number) ∧ ∃ s, h.get (some number) = some s ∧
      (s.containsChild tell.pid = true ↔ ∃ part todo, next.stage = .notifyPath part number (.new tell.pid) todo) := by
  have listed : ∀ part other todo, tell.stage = .visit part (other :: todo) → number ∈ tell.asked ++ [other] →
      other = number ∧ ∃ path, h.paths.lookup path = some number := by
    intro part other todo stage member
    rcases List.mem_append.mp member with old | now
    · exact absurd old fresh
    · cases List.mem_singleton.mp now
      obtain ⟨path, found, -⟩ := sound.ahead part (by rw [stage]; rfl) number (by rw [stage]; exact List.mem_cons_self)
      exact ⟨rfl, path, found⟩
  cases steps with
  | asked stage present foreign =>
    obtain ⟨rfl, path⟩ := listed _ _ _ stage member
    exact ⟨path, _, present, by simp [foreign]⟩
  | found stage present child =>
    obtain ⟨rfl, path⟩ := listed _ _ _ stage member
    exact ⟨path, _, present, by simp [child]⟩
  | _ => exact absurd member fresh

theorem Steps.pid (steps : tell.Steps map h later next new) : next.pid = tell.pid := by
  cases steps <;> rfl

end Tell

namespace Telling

variable {e : (pathTable map).Execution} {start index : Nat} {pid : Pid}

theorem guarded (initial : e.config 0 = ⟨.new, []⟩) (n : Nat) : Guarded map (e.config n) := by
  apply e.always (fun c move d old moves => old.move moves) _ (Nat.zero_le n)
  rw [initial]
  exact guarded_start map

/-- An exit, followed from its start. -/
structure Followed (e : (pathTable map).Execution) (start index : Nat) (pid : Pid) (n : Nat) (tell : Tell) : Prop where
  here : (e.config n).threads[index]? = some (.telling tell)
  same : tell.pid = pid
  covers : ∀ path number, (∀ m, start ≤ m → m ≤ n → (e.config m).shared.paths.lookup path = some number) →
    tell.Covers map path number
  asked : ∀ number ∈ tell.asked, ∃ m, start ≤ m ∧ m < n ∧ AskedAt e index number pid m

theorem followed (initial : e.config 0 = ⟨.new, []⟩)
    (called : (e.config start).threads[index]? = some (.telling (.new pid)))
    {n : Nat} (later : start ≤ n) : ∃ tell, Followed e start index pid n tell := by
  induction n, later using Nat.le_induction with
  | base => exact ⟨.new pid, called, rfl, fun path number _ begun => absurd rfl (begun (.new pid)), by simp [Tell.new]⟩
  | succ n later ih =>
    obtain ⟨tell, here, same, covers, asked⟩ := ih
    have earlier : ∀ number ∈ tell.asked, ∃ m, start ≤ m ∧ m < n + 1 ∧ AskedAt e index number pid m := by
      intro number member
      obtain ⟨m, after, before, then_⟩ := asked number member
      exact ⟨m, after, by omega, then_⟩
    rcases e.thread_next here with ⟨choice, thread, new, -, stepped, after⟩ | still
    · have steps := Aftermath.steps_of_step stepped
      generalize shared : (e.config (n + 1)).shared = follower at steps
      cases steps with
      | @told _ next _ _ steps =>
        have sound : tell.Sound map (e.config n).shared := (guarded initial n).sound _ (List.mem_of_getElem? here)
        refine ⟨next, after, steps.pid.trans same, ?_, ?_⟩
        · intro path number bound
          exact (covers path number fun m after before => bound m after (by omega)).step steps
            (bound n later (by omega))
        · intro number member
          by_cases old : number ∈ tell.asked
          · exact earlier number old
          · obtain ⟨listed, s, present, told⟩ := steps.asks sound old member
            rw [same] at told
            exact ⟨n, later, by omega, listed, ⟨tell, here, old⟩, s, next, present, after, member, told⟩
    · exact ⟨tell, still, same,
        fun path number bound => covers path number fun m after before => bound m after (by omega),
        earlier⟩

end Telling

/-- Whatever happens to the table meanwhile, an exit asks every supervisor that
    some path has all the time, and none twice; those that have the pid are told. -/
theorem exit_asks_each_supervisor_once {e : (pathTable map).Execution} (initial : e.config 0 = ⟨.new, []⟩)
    {start finish index : Nat} {pid : Pid} {tell : Tell}
    (called : (e.config start).threads[index]? = some (.telling (.new pid))) (later : start ≤ finish)
    (here : (e.config finish).threads[index]? = some (.telling tell)) (ended : tell.stage = .told) :
    TellsAll e start finish index pid tell := by
  obtain ⟨last, there, -, covers, asked⟩ := Telling.followed initial called later
  cases here.symm.trans there
  have sound : tell.Sound map (e.config finish).shared :=
    (Telling.guarded initial finish).sound _ (List.mem_of_getElem? here)
  refine ⟨sound.once, ?_, asked⟩
  intro path number bound
  rcases covers path number bound (by simp [ended]) with member | todo | ⟨part, inside, -⟩
  · exact member
  · rw [ended] at todo
    cases todo
  · rw [ended] at inside
    cases inside

def twoShards : Sharding :=
  ⟨2, fun path => if path = "a" then 0 else 1, fun path => by split <;> decide⟩

/-- The path `b` gets another supervisor while an exit is being told. -/
def replacedMeanwhile : List (Move Aftermath Choice PathOperation) :=
  [.ambient (.create "a"), .ambient (.create "b"), .ambient (.supervise "a" 7 ⟨.foreign 0, .restartOne⟩),
    .start (.telling (.new 7))] ++ List.replicate 4 (.step 0 ⟨[], ["a"], .ok 8⟩) ++
    [.ambient (.remove "b"), .ambient (.create "b")] ++ List.replicate 8 (.step 0 ⟨[], ["b"], .ok 8⟩)

theorem exit_asks_each_supervisor_once_replaced : ∃ e : (pathTable twoShards).Execution, e.config 0 = ⟨.new, []⟩ ∧
    TellsAll e 4 replacedMeanwhile.length 0 7 ⟨7, [0, 2], .told⟩ := by
  have ran : ∃ d, (pathTable twoShards).machine.run ⟨.new, []⟩ replacedMeanwhile = some d ∧
      d.threads[0]? = some (.telling ⟨7, [0, 2], .told⟩) :=
    (pathTable twoShards).machine.exists_of_check (by decide +kernel)
  obtain ⟨d, reached, told⟩ := ran
  refine ⟨.ofRun (pathTable twoShards) reached, rfl, exit_asks_each_supervisor_once rfl rfl (by decide) ?_ rfl⟩
  rw [Program.Execution.ofRun_config reached (Nat.le_refl _)]
  exact told

end Myrmidon

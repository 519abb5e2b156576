import Myrmidon.Runtime.Paths
import Myrmidon.Transition.Locks

namespace Myrmidon

open Slab Transition

namespace TellStage

/-- The shard that an iteration is in. -/
def part : TellStage → Option Nat
  | .visit part _ | .notifyPath part _ _ _ => some part
  | _ => none

def todo : TellStage → List Nat
  | .visit _ todo | .notifyPath _ _ _ todo => todo
  | _ => []

/-- The supervisors it has yet to deal with there. -/
def ahead : TellStage → List Nat
  | .visit _ todo => todo
  | .notifyPath _ number _ todo => number :: todo
  | _ => []

end TellStage

def Aftermath.reads (part : Nat) : Aftermath → Nat
  | .telling tell => if tell.stage.part = some part then 1 else 0
  | .restart _ _ => 0

def shardLocks : Locks Hierarchy Aftermath Nat where
  taken h part := h.readers part
  holds part thread := thread.reads part

namespace Hierarchy

variable {h later : Hierarchy} {map : Sharding} {part number : Nat} {path : String}

def home (h : Hierarchy) (number : Nat) : Option String := (h.made[number]?).map Prod.fst

@[simp] theorem set_paths (h : Hierarchy) (owner : Option Nat) (s : Supervisor) : (h.set owner s).paths = h.paths := by
  cases owner <;> rfl

@[simp] theorem set_readers (h : Hierarchy) (owner : Option Nat) (s : Supervisor) :
    (h.set owner s).readers = h.readers := by
  cases owner <;> rfl

@[simp] theorem set_home (h : Hierarchy) (owner : Option Nat) (s : Supervisor) : (h.set owner s).home = h.home := by
  cases owner with
  | none => rfl
  | some other =>
    funext number
    show ((h.made.modify other _)[number]?).map Prod.fst = (h.made[number]?).map Prod.fst
    rw [List.getElem?_modify]
    cases h.made[number]? with
    | none => rfl
    | some entry =>
      show some _ = some entry.1
      split <;> rfl

@[simp] theorem set_length (h : Hierarchy) (owner : Option Nat) (s : Supervisor) :
    (h.set owner s).made.length = h.made.length := by
  cases owner with
  | none => rfl
  | some number => exact List.length_modify _ _ _

theorem modify_same (h : Hierarchy) (owner : Option Nat) (change : Supervisor → Supervisor) :
    (h.modify owner change).paths = h.paths ∧ (h.modify owner change).readers = h.readers ∧
      (h.modify owner change).home = h.home ∧ (h.modify owner change).made.length = h.made.length := by
  unfold modify
  split
  · exact ⟨rfl, rfl, rfl, rfl⟩
  · simp

/-- Every supervisor in the table was made for its path. -/
def Homely (h : Hierarchy) : Prop := ∀ path number, h.paths.lookup path = some number → h.home number = some path

/-- The same supervisors, those of paths by their paths alone. -/
structure Shows (h : Hierarchy) (rt : Supervisors) : Prop where
  supervisor : rt.supervisor = h.supervisor
  paths : ∀ path, rt.pathSupervisors.lookup path = (h.paths.lookup path).bind fun number => h.get (some number)

theorem get_set (h : Hierarchy) (number other : Nat) (s : Supervisor) :
    (h.set (some number) s).get (some other) =
      if number = other then (h.get (some other)).map fun _ => s else h.get (some other) := by
  show ((h.made.modify number _)[other]?).map Prod.snd = _
  rw [List.getElem?_modify]
  split
  · show _ = ((h.made[other]?).map Prod.snd).map fun _ => s
    cases h.made[other]? <;> rfl
  · cases found : h.made[other]? <;> simp [get, found]

theorem exists_get (home : h.home number = some path) : ∃ s, h.get (some number) = some s := by
  obtain ⟨entry, listed, -⟩ := Option.map_eq_some_iff.mp home
  exact ⟨entry.2, by rw [get, listed]; rfl⟩

/-- Under a path, or without a supervisor there under the global one. -/
theorem Shows.watch {rt : Supervisors} (shown : h.Shows rt) (homely : h.Homely) (path : String) (pid : Pid) :
    (h.pathSupervisorWatch path pid).Shows (rt.pathSupervisorWatch path pid) := by
  obtain ⟨supervisor, paths⟩ := shown
  have entry := paths path
  unfold pathSupervisorWatch Supervisors.pathSupervisorWatch
  cases found : h.paths.lookup path with
  | none =>
    rw [found] at entry
    rw [entry]
    refine ⟨by rw [supervisor]; rfl, paths⟩
  | some number =>
    obtain ⟨s, present⟩ := exists_get (homely path number found)
    rw [found, Option.bind_some, present] at entry
    rw [entry]
    have changed : h.modify (some number) (fun entry => entry.watch pid) = h.set (some number) (s.watch pid) := by
      rw [modify, present]
    dsimp only
    rw [changed]
    refine ⟨supervisor, fun other => ?_⟩
    show (rt.pathSupervisors.insert path (s.watch pid)).lookup other = _
    rw [set_paths]
    by_cases same : other = path
    · subst same
      rw [AList.lookup_insert, found, Option.bind_some, get_set, if_pos rfl, present]
      rfl
    · rw [AList.lookup_insert_ne same, paths other]
      cases listed : h.paths.lookup other with
      | none => rfl
      | some theirs =>
        have different : number ≠ theirs := by
          rintro rfl
          exact same (Option.some.inj ((homely other number listed).symm.trans (homely path number found)))
        rw [Option.bind_some, Option.bind_some, get_set, if_neg different]
/-- What an operation of the table leaves as it was: the shards that are being
    iterated, and everything that was ever made. -/
structure Tends (map : Sharding) (h later : Hierarchy) : Prop where
  homes : ∀ number path, h.home number = some path → later.home number = some path
  readers : later.readers = h.readers
  locked : ∀ path, h.readers (map.shard path) ≠ 0 → later.paths.lookup path = h.paths.lookup path
  fresh : ∀ path number, later.paths.lookup path = some number →
    h.paths.lookup path = some number ∨ h.made.length ≤ number ∧ later.home number = some path
  grows : h.made.length ≤ later.made.length

theorem Tends.of_same (paths : later.paths = h.paths) (readers : later.readers = h.readers) (home : later.home = h.home)
    (length : later.made.length = h.made.length) : Tends map h later := by
  refine ⟨fun number path found => by rw [home]; exact found, readers, fun path _ => by rw [paths], ?_, length.ge⟩
  intro path number found
  rw [paths] at found
  exact .inl found

theorem Tends.trans {last : Hierarchy} (first : Tends map h later) (second : Tends map later last) :
    Tends map h last := by
  refine ⟨fun number path found => second.homes _ _ (first.homes _ _ found), second.readers.trans first.readers, ?_, ?_,
    first.grows.trans second.grows⟩
  · intro path locked
    have still : later.readers (map.shard path) ≠ 0 := by rwa [first.readers]
    exact (second.locked path still).trans (first.locked path locked)
  · intro path number found
    rcases second.fresh path number found with before | ⟨new, home⟩
    · rcases first.fresh path number before with old | ⟨made, home⟩
      · exact .inl old
      · exact .inr ⟨made, second.homes _ _ home⟩
    · exact .inr ⟨first.grows.trans new, home⟩

theorem tends_create (unread : h.readers (map.shard path) = 0) : Tends map h (h.createPathSupervisor path) := by
  unfold createPathSupervisor
  split
  · exact .of_same rfl rfl rfl rfl
  · have kept : ∀ number other, h.home number = some other →
        (Option.map Prod.fst ((h.made ++ [(path, Supervisor.new)])[number]?)) = some other := by
      intro number other found
      obtain ⟨entry, listed, same⟩ := Option.map_eq_some_iff.mp found
      have inside := (List.getElem?_eq_some_iff.mp listed).1
      rw [List.getElem?_append_left inside, listed]
      exact congrArg some same
    refine ⟨kept, rfl, ?_, ?_, by simp⟩
    · intro other locked
      apply AList.lookup_insert_ne
      rintro rfl
      exact locked unread
    · intro other number found
      by_cases same : other = path
      · subst same
        rw [AList.lookup_insert] at found
        cases found
        exact .inr ⟨Nat.le_refl _, by simp [home]⟩
      · rw [AList.lookup_insert_ne same] at found
        exact .inl found

theorem tends_remove (unread : h.readers (map.shard path) = 0) : Tends map h (h.removePathSupervisor path) := by
  refine ⟨fun _ _ found => found, rfl, ?_, ?_, Nat.le_refl _⟩
  · intro other locked
    apply AList.lookup_erase_ne
    rintro rfl
    exact locked unread
  · intro other number found
    by_cases same : other = path
    · subst same
      rw [removePathSupervisor, AList.lookup_erase] at found
      cases found
    · rw [removePathSupervisor, AList.lookup_erase_ne same] at found
      exact .inl found

theorem tends_modify (owner : Option Nat) (change : Supervisor → Supervisor) : Tends map h (h.modify owner change) := by
  obtain ⟨paths, readers, home, length⟩ := h.modify_same owner change
  exact .of_same paths readers home length

end Hierarchy

open Hierarchy Program

variable {map : Sharding} {h later : Hierarchy}

theorem PathOperation.tends {operation : PathOperation} (done : operation.apply map h = some later) :
    Hierarchy.Tends map h later := by
  cases operation with
  | create path =>
    simp only [apply] at done
    split at done
    · rename_i unread
      cases done
      exact tends_create unread
    · cases done
  | remove path =>
    simp only [apply] at done
    split at done
    · rename_i unread
      cases done
      exact tends_remove unread
    · cases done
  | watch path pid =>
    cases done
    unfold Hierarchy.pathSupervisorWatch
    split <;> exact tends_modify _ _
  | supervise path pid spec =>
    simp only [apply] at done
    split at done
    · rename_i unread
      cases done
      have made := tends_create unread
      unfold Hierarchy.pathSuperviseWithFactory
      dsimp only
      split
      · exact made.trans (tends_modify _ _)
      · exact made
    · cases done
  | register registration =>
    cases done
    exact tends_modify _ _

theorem addReader_readers (h : Hierarchy) (part other : Nat) :
    (h.addReader part).readers other = h.readers other + if part = other then 1 else 0 :=
  Locks.update_take h.readers part other

theorem dropReader_readers (h : Hierarchy) (part other : Nat) :
    (h.dropReader part).readers other = h.readers other - if part = other then 1 else 0 :=
  Locks.update_release h.readers part other

theorem Hierarchy.Enters.readers {part : Nat} {stage : TellStage} (enters : h.Enters map part later stage)
    (other : Nat) :
    later.readers other = h.readers other + if stage.part = some other then 1 else 0 := by
  cases enters with
  | shard inside whole => simp [addReader_readers, TellStage.part]
  | past outside => simp [TellStage.part]

theorem Hierarchy.Enters.tables {part : Nat} {stage : TellStage} (enters : h.Enters map part later stage) :
    later.paths = h.paths ∧ later.made = h.made := by
  cases enters <;> exact ⟨rfl, rfl⟩

namespace Tell

variable {tell next : Tell} {new : List Aftermath}

/-- No step of an iteration changes the table. -/
theorem Steps.tables (steps : tell.Steps map h later next new) :
    later.paths = h.paths ∧ later.home = h.home ∧ later.made.length = h.made.length := by
  cases steps with
  | notified stage steps => simp
  | pathNotified stage present steps => simp
  | began stage ended enters =>
    obtain ⟨paths, made⟩ := enters.tables
    exact ⟨paths, by rw [funext_iff]; intro number; rw [home, home, made], by rw [made]⟩
  | moved stage enters =>
    obtain ⟨paths, made⟩ := enters.tables
    exact ⟨paths, by rw [funext_iff]; intro number; rw [home, home, made]; rfl, by rw [made]; rfl⟩
  | asked stage present foreign => exact ⟨rfl, rfl, rfl⟩
  | found stage present child => exact ⟨rfl, rfl, rfl⟩
  | returned stage ended => exact ⟨rfl, rfl, rfl⟩

theorem Steps.keeps (steps : tell.Steps map h later next new)
    (held : ∀ part, tell.stage.part = some part → h.readers part ≠ 0) :
    shardLocks.Keeps h later (.telling tell) (.telling next) := by
  intro other
  show later.readers other + (if tell.stage.part = some other then 1 else 0) =
    h.readers other + if next.stage.part = some other then 1 else 0
  cases steps with
  | notified stage steps => simp [stage, TellStage.part]
  | began stage ended enters =>
    rw [enters.readers, stage]
    rfl
  | @moved part _ _ stage enters =>
    have mine : h.readers part ≠ 0 := held part (by rw [stage]; rfl)
    rw [enters.readers, dropReader_readers, stage]
    simp only [TellStage.part, Option.some.injEq]
    by_cases same : part = other
    · subst same
      rw [if_pos rfl]
      omega
    · rw [if_neg same]
      omega
  | asked stage present foreign => simp [stage, TellStage.part]
  | found stage present child => simp [stage, TellStage.part]
  | pathNotified stage present steps => simp [stage, TellStage.part]
  | returned stage ended => simp [stage, TellStage.part]

/-- What an iteration relies on: the entries of its shard are still in the table,
    and it has asked no supervisor twice. -/
structure Sound (map : Sharding) (h : Hierarchy) (tell : Tell) : Prop where
  ahead : ∀ part, tell.stage.part = some part → ∀ number ∈ tell.stage.ahead,
    ∃ path, h.paths.lookup path = some number ∧ map.shard path = part
  distinct : tell.stage.todo.Nodup
  once : tell.asked.Nodup
  behind : ∀ number ∈ tell.asked, ∃ path, h.home number = some path ∧ ∀ part, tell.stage.part = some part →
    map.shard path < part ∨ map.shard path = part ∧ number ∉ tell.stage.todo
  early : ∀ call, tell.stage = .notify call → tell.asked = []

theorem sound_new (map : Sharding) (h : Hierarchy) (pid : Pid) : (Tell.new pid).Sound map h :=
  ⟨by simp [Tell.new, TellStage.part], by simp [Tell.new, TellStage.todo], by simp [Tell.new], by simp [Tell.new],
    by simp [Tell.new]⟩

theorem Sound.kept (sound : tell.Sound map h)
    (homes : ∀ number path, h.home number = some path → later.home number = some path)
    (locked : ∀ path, tell.stage.part = some (map.shard path) → later.paths.lookup path = h.paths.lookup path) :
    tell.Sound map later := by
  refine ⟨?_, sound.distinct, sound.once, ?_, sound.early⟩
  · intro part inside number member
    obtain ⟨path, found, same⟩ := sound.ahead part inside number member
    refine ⟨path, ?_, same⟩
    rw [locked path (by rw [same]; exact inside)]
    exact found
  · intro number member
    obtain ⟨path, home, rest⟩ := sound.behind number member
    exact ⟨path, homes _ _ home, rest⟩

/-- Coming to a shard, an iteration has left all supervisors it asked behind. -/
theorem Sound.enters {part : Nat} {stage : TellStage} {asked : List Nat} {pid : Pid} (homely : h.Homely)
    (enters : h.Enters map part later stage) (once : asked.Nodup)
    (behind : ∀ number ∈ asked, ∃ path, h.home number = some path ∧ map.shard path < part) :
    Sound map later ⟨pid, asked, stage⟩ := by
  cases enters with
  | @shard order inside whole =>
    have listed : ∀ number ∈ order.filterMap h.paths.lookup,
        ∃ path, h.paths.lookup path = some number ∧ map.shard path = part := by
      intro number member
      obtain ⟨path, present, found⟩ := List.mem_filterMap.mp member
      have inShard := (List.mem_filter.mp (whole.mem_iff.mp present)).2
      exact ⟨path, found, of_decide_eq_true inShard⟩
    refine ⟨?_, ?_, once, ?_, by simp⟩
    · intro other same number member
      cases same
      exact listed number member
    · have keys : (h.keysIn map part).Nodup := h.paths.nodupKeys.filter _
      apply List.Nodup.filterMap _ (whole.nodup_iff.mpr keys)
      intro first second number one two
      exact Option.some.inj ((homely _ _ one).symm.trans (homely _ _ two))
    · intro number member
      obtain ⟨path, home, less⟩ := behind number member
      refine ⟨path, home, fun other same => ?_⟩
      cases same
      exact .inl less
  | past outside =>
    refine ⟨by simp [TellStage.part], by simp [TellStage.todo], once, ?_, by simp⟩
    intro number member
    obtain ⟨path, home, -⟩ := behind number member
    exact ⟨path, home, by simp [TellStage.part]⟩

theorem Sound.asks {part number : Nat} {todo : List Nat} {stage : TellStage} (homely : h.Homely)
    (sound : tell.Sound map h) (here : tell.stage = .visit part (number :: todo)) (same : stage.part = some part)
    (rest : stage.todo = todo) (ahead : stage.ahead = todo ∨ stage.ahead = number :: todo) :
    Sound map h { tell with asked := tell.asked ++ [number], stage } := by
  obtain ⟨listed, distinct, once, behind, -⟩ := sound
  rw [here] at listed distinct behind
  obtain ⟨path, found, inShard⟩ := listed part rfl number List.mem_cons_self
  have home := homely path number found
  have fresh : number ∉ tell.asked := by
    intro member
    obtain ⟨other, before, left⟩ := behind number member
    cases before.symm.trans home
    rcases left part rfl with less | ⟨-, absent⟩
    · omega
    · exact absent List.mem_cons_self
  refine ⟨?_, ?_, ?_, ?_, ?_⟩
  · intro other inside entry member
    cases inside.symm.trans same
    apply listed part rfl
    rcases ahead with ahead | ahead
    · rw [ahead] at member
      exact List.mem_cons_of_mem _ member
    · rwa [ahead] at member
  · rw [rest]
    exact (List.nodup_cons.mp distinct).2
  · exact List.nodup_append.mpr ⟨once, by simp, by simpa using fun entry member => ne_of_mem_of_not_mem member fresh⟩
  · intro entry member
    rcases List.mem_append.mp member with old | now
    · obtain ⟨other, before, left⟩ := behind entry old
      refine ⟨other, before, fun part' inside => ?_⟩
      cases inside.symm.trans same
      rw [rest]
      rcases left part rfl with less | ⟨equal, absent⟩
      · exact .inl less
      · exact .inr ⟨equal, fun member => absent (List.mem_cons_of_mem _ member)⟩
    · cases List.mem_singleton.mp now
      refine ⟨path, home, fun part' inside => ?_⟩
      cases inside.symm.trans same
      rw [rest]
      exact .inr ⟨inShard, (List.nodup_cons.mp distinct).1⟩
  · intro call notifying
    have notify : stage = .notify call := notifying
    rw [notify] at same
    cases same

theorem Steps.sound (steps : tell.Steps map h later next new) (homely : h.Homely) (sound : tell.Sound map h) :
    next.Sound map later := by
  obtain ⟨paths, homes, -⟩ := steps.tables
  cases steps with
  | notified stage steps =>
    refine ⟨by simp [TellStage.part], by simp [TellStage.todo], sound.once, ?_, fun _ _ => sound.early _ stage⟩
    rw [sound.early _ stage]
    simp
  | began stage ended enters =>
    have none := sound.early _ stage
    exact .enters homely enters sound.once (by rw [none]; simp)
  | @moved part _ _ stage enters =>
    have homely : (h.dropReader part).Homely := homely
    refine .enters homely enters sound.once ?_
    intro number member
    obtain ⟨path, home, left⟩ := sound.behind number member
    refine ⟨path, home, ?_⟩
    rcases left part (by rw [stage]; rfl) with less | ⟨same, -⟩ <;> omega
  | asked stage present foreign => exact sound.asks homely stage rfl rfl (.inl rfl)
  | found stage present child => exact sound.asks homely stage rfl rfl (.inr rfl)
  | @pathNotified part number call following todo s after tasks stage present steps =>
    have kept : tell.Sound map (h.set (some number) after) :=
      sound.kept (fun _ _ home => by rw [set_home]; exact home) (fun _ _ => by rw [set_paths])
    obtain ⟨ahead, distinct, once, behind, -⟩ := kept
    rw [stage] at ahead distinct behind
    exact ⟨ahead, distinct, once, behind, by simp⟩
  | @returned part number call todo stage ended =>
    obtain ⟨ahead, distinct, once, behind, -⟩ := sound
    rw [stage] at ahead distinct behind
    exact ⟨fun other inside entry member => ahead other inside entry (List.mem_cons_of_mem _ member), distinct, once,
      behind, by simp⟩

end Tell

def Aftermath.Sound (map : Sharding) (h : Hierarchy) : Aftermath → Prop
  | .telling tell => tell.Sound map h
  | .restart _ _ => True

theorem Aftermath.Sound.kept {thread : Aftermath} (sound : thread.Sound map h)
    (homes : ∀ number path, h.home number = some path → later.home number = some path)
    (locked : ∀ path, thread.reads (map.shard path) ≠ 0 → later.paths.lookup path = h.paths.lookup path) :
    thread.Sound map later := by
  cases thread with
  | restart owner task => trivial
  | telling tell =>
    apply Tell.Sound.kept sound homes
    intro path inside
    apply locked
    show (if tell.stage.part = some (map.shard path) then 1 else 0) ≠ 0
    rw [if_pos inside]
    decide

theorem Aftermath.Steps.tables {thread next : Aftermath} {new : List Aftermath}
    (steps : thread.Steps map h later next new) :
    later.paths = h.paths ∧ later.home = h.home ∧ later.made.length = h.made.length := by
  cases steps with
  | told steps => exact steps.tables
  | restarted present steps => simp

theorem Aftermath.Steps.keeps {thread next : Aftermath} {new : List Aftermath}
    (steps : thread.Steps map h later next new)
    (held : ∀ part, shardLocks.holds part thread ≤ shardLocks.taken h part) : shardLocks.Keeps h later thread next := by
  cases steps with
  | @told tell following _ _ steps =>
    apply steps.keeps
    intro part inside
    have mine : (if tell.stage.part = some part then 1 else 0) ≤ h.readers part := held part
    rw [if_pos inside] at mine
    omega
  | restarted present steps =>
    intro part
    show (h.set _ _).readers part + 0 = h.readers part + 0
    rw [set_readers]

theorem Aftermath.Steps.sound {thread next : Aftermath} {new : List Aftermath}
    (steps : thread.Steps map h later next new)
    (homely : h.Homely) (sound : thread.Sound map h) : next.Sound map later := by
  cases steps with
  | told steps => exact Tell.Steps.sound steps homely sound
  | restarted present steps => trivial

/-- The iterations have the locks that are taken, and rely on the table they find. -/
structure Guarded (map : Sharding) (c : Config Hierarchy Aftermath) : Prop where
  locked : shardLocks.Balanced c
  homely : c.shared.Homely
  sound : ∀ thread ∈ c.threads, thread.Sound map c.shared

namespace Guarded

variable {c d : Config Hierarchy Aftermath}

theorem new_restarts {thread next : Aftermath} {new : List Aftermath} (steps : thread.Steps map h later next new) :
    ∀ other ∈ new, ∃ owner task, other = .restart owner task ∧ ∀ number, owner = some number →
      ∃ tell, thread = .telling tell ∧ number ∈ tell.stage.ahead ∧ tell.stage.part ≠ none := by
  intro other member
  cases steps with
  | told steps =>
    cases steps with
    | notified stage steps =>
      obtain ⟨task, -, rfl⟩ := List.mem_map.mp member
      exact ⟨none, task, rfl, nofun⟩
    | @pathNotified part number call following todo s after tasks stage present steps =>
      obtain ⟨task, -, rfl⟩ := List.mem_map.mp member
      refine ⟨some number, task, rfl, ?_⟩
      rintro _ ⟨⟩
      refine ⟨_, rfl, ?_, ?_⟩ <;> rw [stage]
      · exact List.mem_cons_self
      · simp [TellStage.part]
    | _ => cases member
  | restarted present steps => cases member

theorem move {move : Move Aftermath Choice PathOperation} (guarded : Guarded map c)
    (moves : (pathTable map).Moves c move d) : Guarded map d := by
  cases moves with
  | @start h threads thread allowed =>
    cases thread with
    | restart owner task => cases allowed
    | telling tell =>
      have fresh : tell = .new tell.pid := of_decide_eq_true allowed
      refine ⟨guarded.locked.start fun part => by rw [fresh]; rfl, guarded.homely, ?_⟩
      rw [List.forall_mem_append, List.forall_mem_singleton, fresh]
      exact ⟨guarded.sound, Tell.sound_new map h _⟩
  | @ambient h later threads operation done =>
    have tends := PathOperation.tends done
    refine ⟨guarded.locked.ambient fun part => congrFun tends.readers part, ?_, ?_⟩
    · intro path number found
      rcases tends.fresh path number found with before | ⟨-, home⟩
      · exact tends.homes _ _ (guarded.homely path number before)
      · exact home
    · intro thread member
      apply (guarded.sound thread member).kept tends.homes
      intro path reads
      exact tends.locked path (guarded.locked.taken_of_mem _ member reads)
  | @step h later before after new thread next choice stepped =>
    have steps := Aftermath.steps_of_step stepped
    have restarts := new_restarts steps
    obtain ⟨paths, homes, -⟩ := steps.tables
    refine ⟨?_, ?_, ?_⟩
    · rw [← List.cons_append, ← List.append_assoc]
      have idle : ∀ other ∈ new, ∀ part, shardLocks.holds part other = 0 := by
        intro other member part
        obtain ⟨owner, task, rfl, -⟩ := restarts other member
        rfl
      apply Locks.Balanced.spawn _ idle
      exact guarded.locked.step (steps.keeps fun part => guarded.locked.held part)
    · intro path number found
      rw [paths] at found
      rw [homes]
      exact guarded.homely path number found
    · apply forall_moved
      · exact steps.sound guarded.homely (guarded.sound thread (by simp))
      · intro other member
        apply (guarded.sound other (Locks.mem_replaced member)).kept (fun _ _ home => by rw [homes]; exact home)
        intro path reads
        rw [paths]
      · intro other member
        obtain ⟨owner, task, rfl, -⟩ := restarts other member
        trivial

end Guarded

theorem guarded_start (map : Sharding) : Guarded map ⟨.new, []⟩ :=
  ⟨Locks.balanced_of_idle (fun _ => rfl) (by simp), by simp [Homely, Hierarchy.new], by simp⟩

theorem guarded_of_run {moves : List (Move Aftermath Choice PathOperation)} {c : Config Hierarchy Aftermath}
    (reached : (pathTable map).machine.run ⟨.new, []⟩ moves = some c) : Guarded map c :=
  (pathTable map).machine.run_invariant (fun _ _ _ old taken => old.move ((pathTable map).moves_of_step taken))
    (guarded_start map) reached

/-- A supervisor that was made, and that no path has any more. -/
def Hierarchy.Removed (h : Hierarchy) (number : Nat) : Prop :=
  number < h.made.length ∧ ∀ path ∈ h.paths.keys, h.paths.lookup path ≠ some number

instance (h : Hierarchy) (number : Nat) : Decidable (h.Removed number) :=
  inferInstanceAs (Decidable (_ ∧ _))

theorem Hierarchy.Removed.lookup_ne {number : Nat} (removed : h.Removed number) (path : String) :
    h.paths.lookup path ≠ some number := by
  intro found
  have listed : path ∈ h.paths.keys := by
    apply AList.mem_keys.mp
    rw [← AList.lookup_isSome, found]
    rfl
  exact removed.2 path listed found

/-- All that is left of a supervisor in the second state was there in the first. -/
structure Retired (number : Nat) (c d : Config Hierarchy Aftermath) : Prop where
  removed : d.shared.Removed number
  restarts : ∀ (index : Nat) (task : Task), d.threads[index]? = some (Aftermath.restart (some number) task) →
    ∃ earlier : Task, c.threads[index]? = some (Aftermath.restart (some number) earlier)
  asked : ∀ (index : Nat) (tell : Tell), d.threads[index]? = some (Aftermath.telling tell) → number ∈ tell.asked →
    ∃ earlier : Tell, c.threads[index]? = some (Aftermath.telling earlier) ∧ number ∈ earlier.asked

theorem Tell.Steps.asked_before {tell next : Tell} {new : List Aftermath} (steps : tell.Steps map h later next new) :
    ∀ number ∈ next.asked, number ∈ tell.asked ∨ number ∈ tell.stage.ahead ∧ tell.stage.part ≠ none := by
  intro number member
  have grown : ∀ part other todo, tell.stage = .visit part (other :: todo) → number ∈ tell.asked ++ [other] →
      number ∈ tell.asked ∨ number ∈ tell.stage.ahead ∧ tell.stage.part ≠ none := by
    intro part other todo stage member
    rcases List.mem_append.mp member with old | now
    · exact .inl old
    · rw [List.mem_singleton.mp now, stage]
      exact .inr ⟨List.mem_cons_self, by simp [TellStage.part]⟩
  cases steps with
  | asked stage present foreign => exact grown _ _ _ stage member
  | found stage present child => exact grown _ _ _ stage member
  | _ => exact .inl member

namespace Retired

variable {number : Nat} {c d e : Config Hierarchy Aftermath}

theorem not_ahead (guarded : Guarded map d) (removed : d.shared.Removed number) {tell : Tell}
    (member : .telling tell ∈ d.threads) : ¬ (number ∈ tell.stage.ahead ∧ tell.stage.part ≠ none) := by
  rintro ⟨ahead, inside⟩
  obtain ⟨part, same⟩ := Option.ne_none_iff_exists'.mp inside
  have sound : tell.Sound map d.shared := guarded.sound _ member
  obtain ⟨path, found, -⟩ := sound.ahead part same number ahead
  exact removed.lookup_ne path found

theorem removed_tends (removed : h.Removed number) (tends : Hierarchy.Tends map h later) : later.Removed number := by
  refine ⟨Nat.lt_of_lt_of_le removed.1 tends.grows, fun path _ found => ?_⟩
  rcases tends.fresh path number found with before | ⟨new, -⟩
  · exact removed.lookup_ne path before
  · exact absurd removed.1 (Nat.not_lt.mpr new)

theorem removed_move {move : Move Aftermath Choice PathOperation} (removed : d.shared.Removed number)
    (moves : (pathTable map).Moves d move e) : e.shared.Removed number := by
  cases moves with
  | start allowed => exact removed
  | step stepped =>
    obtain ⟨paths, -, length⟩ := (Aftermath.steps_of_step stepped).tables
    unfold Hierarchy.Removed
    rw [paths, length]
    exact removed
  | ambient done => exact removed_tends removed (PathOperation.tends done)

theorem move {move : Move Aftermath Choice PathOperation} (retired : Retired number c d) (guarded : Guarded map d)
    (moves : (pathTable map).Moves d move e) : Retired number c e := by
  obtain ⟨removed, restarts, asked⟩ := retired
  refine ⟨removed_move removed moves, ?_, ?_⟩
  · intro index task found
    rcases moves.thread_from found with there | ⟨earlier, choice, new, there, stepped⟩ | started |
      ⟨own, choice, earlier, next, new, member, stepped, fresh⟩
    · exact restarts index task there
    · have steps := Aftermath.steps_of_step stepped
      generalize e.shared = after at steps
      cases steps with
      | restarted present steps => exact restarts index _ there
    · cases started
    · obtain ⟨owner, other, same, source⟩ := Guarded.new_restarts (Aftermath.steps_of_step stepped) _ fresh
      cases same
      obtain ⟨tell, rfl, ahead⟩ := source number rfl
      exact absurd ahead (not_ahead guarded removed member)
  · intro index tell found member
    rcases moves.thread_from found with there | ⟨earlier, choice, new, there, stepped⟩ | started |
      ⟨own, choice, earlier, next, new, present, stepped, fresh⟩
    · exact asked index tell there member
    · have steps := Aftermath.steps_of_step stepped
      generalize e.shared = after at steps
      cases steps with
      | told steps =>
        rcases steps.asked_before number member with old | ahead
        · exact asked index _ there old
        · exact absurd ahead (not_ahead guarded removed (List.mem_of_getElem? there))
    · have new : tell = .new tell.pid := of_decide_eq_true started
      rw [new] at member
      cases member
    · obtain ⟨owner, other, same, -⟩ := Guarded.new_restarts (Aftermath.steps_of_step stepped) _ fresh
      cases same

end Retired

/-- Once no path has a supervisor any more, it starts no restart and is not even
    asked, however exits, restarts and calls interleave from there. -/
theorem removed_supervisor_starts_nothing {moves further : List (Move Aftermath Choice PathOperation)}
    {c d : Config Hierarchy Aftermath} {number : Nat}
    (reached : (pathTable map).machine.run ⟨.new, []⟩ moves = some c) (removed : c.shared.Removed number)
    (more : (pathTable map).machine.run c further = some d) : Retired number c d := by
  have start : Guarded map c ∧ Retired number c c :=
    ⟨guarded_of_run reached, removed, fun _ task found => ⟨task, found⟩,
      fun _ tell found member => ⟨tell, found, member⟩⟩
  have keeps : ∀ s move t, Guarded map s ∧ Retired number c s → (pathTable map).machine.step s move = some t →
      Guarded map t ∧ Retired number c t := by
    intro s move t both taken
    have moves := (pathTable map).moves_of_step taken
    exact ⟨both.1.move moves, both.2.move both.1 moves⟩
  exact ((pathTable map).machine.run_invariant keeps start more).2

def oneShard : Sharding := ⟨1, fun _ => 0, fun _ => Nat.one_pos⟩

/-- The supervisor of a path goes while its restart of a child is under way. -/
def removedMidway : List (Move Aftermath Choice PathOperation) :=
  [.ambient (.supervise "a" 7 ⟨.foreign 0, .restartOne⟩), .start (.telling (.new 7))] ++
    List.replicate 10 (.step 0 ⟨[], ["a"], .ok 8⟩) ++ [.step 1 ⟨[], [], .ok 8⟩, .ambient (.remove "a")]

/-- The child exits once more, and the restart puts the new child in. -/
def toldAgain : List (Move Aftermath Choice PathOperation) :=
  .start (.telling (.new 7)) :: List.replicate 5 (.step 2 ⟨[], [], .ok 8⟩) ++ [.step 1 ⟨[], [], .ok 8⟩]

theorem removed_supervisor_starts_nothing_midway :
    ∃ c d, (pathTable oneShard).machine.run ⟨.new, []⟩ removedMidway = some c ∧ c.shared.Removed 0 ∧
      (pathTable oneShard).machine.run c toldAgain = some d ∧
      d.threads[2]? = some (.telling ⟨7, [], .told⟩) ∧ (d.shared.get (some 0)).map (·.containsChild 8) = some true ∧
      Retired 0 c d := by
  have ran : ∃ c, (pathTable oneShard).machine.run ⟨.new, []⟩ removedMidway = some c ∧ c.shared.Removed 0 ∧
      ((pathTable oneShard).machine.run c toldAgain).any (fun d =>
        decide (d.threads[2]? = some (.telling ⟨7, [], .told⟩) ∧
          (d.shared.get (some 0)).map (·.containsChild 8) = some true)) = true :=
    (pathTable oneShard).machine.exists_of_check (by decide +kernel)
  obtain ⟨c, reached, removed, rest⟩ := ran
  obtain ⟨d, more, checked⟩ := (Option.any_eq_true ..).mp rest
  obtain ⟨told, child⟩ := of_decide_eq_true checked
  exact ⟨c, d, reached, removed, more, told, child, removed_supervisor_starts_nothing reached removed more⟩

end Myrmidon

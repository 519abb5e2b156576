import Myrmidon.Supervisor.Replacement

namespace Myrmidon

open Transition

def Activity.task? : Activity → Option Task
  | .task restart => some restart
  | _ => none

def tasksOf (activities : List Activity) : List Task := activities.filterMap Activity.task?

theorem mem_tasksOf {activities : List Activity} {restart : Task} :
    restart ∈ tasksOf activities ↔ .task restart ∈ activities := by
  unfold tasksOf
  rw [List.mem_filterMap]
  constructor
  · rintro ⟨activity, member, found⟩
    cases activity with
    | task other =>
      cases found
      exact member
    | notify call => cases found
    | removal call => cases found
  · exact fun member => ⟨_, member, rfl⟩

@[simp] theorem tasksOf_task (restart : Task) (rest : List Activity) :
    tasksOf (.task restart :: rest) = restart :: tasksOf rest := rfl

@[simp] theorem tasksOf_notify (call : Notify) (rest : List Activity) :
    tasksOf (.notify call :: rest) = tasksOf rest := rfl

/-- The activity holds the entry of `p` that it has read from `children`. -/
def Activity.Reads (p : Pid) (spec : ChildSpec) : Activity → Prop
  | .notify call =>
    match call.stage with
    | .spawnOne found => call.pid = p ∧ found = spec
    | .flagGroup done todo => (p, spec) ∈ done ++ todo
    | .spawnGroup todo => (p, spec) ∈ todo
    | _ => False
  | .task restart => restart.orig = p ∧ restart.spec = spec
  | .removal _ => False

def Task.inserting (q : Pid) (restart : Task) : Bool := decide (restart.stage = .insertNew q)

/-- A factory has returned nothing before the insertion, and what is inserted is what it returned. -/
def Task.Settled (restart : Task) : Prop :=
  match restart.stage with
  | .call | .pushError _ | .backoff => restart.replacement = none
  | .insertNew q => restart.replacement = some q
  | _ => True

variable {s₀ s later : Supervisor} {p q : Pid} {spec : ChildSpec}

/-- `p` is an actor of the child with this spec: the one at the start, or one
    that a restart has spawned. -/
def Belongs (s₀ : Supervisor) (tasks : List Task) (p : Pid) (spec : ChildSpec) : Prop :=
  s₀.children.lookup p = some spec ∨ ∃ restart ∈ tasks, restart.replacement = some p ∧ restart.spec = spec

def Replaced (tasks : List Task) (p : Pid) : Prop :=
  ∃ restart ∈ tasks, restart.orig = p ∧ restart.replacement ≠ none

/-- The actors of each child form one line: each was replaced by the next, and
    all but the last have a restart task. -/
structure Lineage (s₀ s : Supervisor) (activities : List Activity) : Prop where
  ledger : Ledger ⟨s, activities⟩
  once : ∀ q, s.registered.count q + (tasksOf activities).countP (Task.inserting q) ≤ 1
  initial : ∀ p, p ∈ s₀.children → p ∈ s.registered
  registered : ∀ p, p ∈ s.children → p ∈ s.registered
  settled : ∀ restart ∈ tasksOf activities, restart.Settled
  child : ∀ p spec, s.children.lookup p = some spec → Belongs s₀ (tasksOf activities) p spec
  read : ∀ activity ∈ activities, ∀ p spec, activity.Reads p spec →
    p ∈ s.registered ∧ Belongs s₀ (tasksOf activities) p spec
  functional : ∀ p spec spec', Belongs s₀ (tasksOf activities) p spec → Belongs s₀ (tasksOf activities) p spec' →
    spec = spec'
  kept : ∀ p spec, Belongs s₀ (tasksOf activities) p spec → s.children.lookup p = some spec ∨
    (∃ restart ∈ tasksOf activities, restart.stage = .insertNew p ∧ restart.spec = spec) ∨
      ∃ restart ∈ tasksOf activities, restart.orig = p ∧ restart.spec = spec
  unique : ∀ p p' spec, Belongs s₀ (tasksOf activities) p spec → Belongs s₀ (tasksOf activities) p' spec →
    ¬ Replaced (tasksOf activities) p → ¬ Replaced (tasksOf activities) p' → p = p'

theorem belongs_cons {restart : Task} {tasks : List Task} : Belongs s₀ (restart :: tasks) p spec ↔
    (restart.replacement = some p ∧ restart.spec = spec) ∨ Belongs s₀ tasks p spec := by
  unfold Belongs
  rw [List.exists_mem_cons_iff]
  exact or_left_comm

theorem replaced_cons {restart : Task} {tasks : List Task} : Replaced (restart :: tasks) p ↔
    (restart.orig = p ∧ restart.replacement ≠ none) ∨ Replaced tasks p := List.exists_mem_cons_iff _ _ _

theorem belongs_append {first second : List Task} (unanswered : ∀ restart ∈ second, restart.replacement = none) :
    Belongs s₀ (first ++ second) p spec ↔ Belongs s₀ first p spec := by
  refine or_congr_right ⟨?_, ?_⟩
  · rintro ⟨restart, member, answer, same⟩
    rcases List.mem_append.mp member with old | new
    · exact ⟨restart, old, answer, same⟩
    · rw [unanswered restart new] at answer
      cases answer
  · rintro ⟨restart, member, answer, same⟩
    exact ⟨restart, List.mem_append_left _ member, answer, same⟩

/-- What a step that neither calls a factory with success nor touches `children` must not change. -/
structure Calm (s₀ : Supervisor) (tasks others : List Task) : Prop where
  belongs : ∀ p spec, Belongs s₀ others p spec ↔ Belongs s₀ tasks p spec
  replaced : ∀ p, Replaced tasks p → Replaced others p
  inserting : ∀ q, others.countP (Task.inserting q) = tasks.countP (Task.inserting q)
  insertion : ∀ p spec, (∃ restart ∈ tasks, restart.stage = .insertNew p ∧ restart.spec = spec) →
    ∃ restart ∈ others, restart.stage = .insertNew p ∧ restart.spec = spec
  origin : ∀ p spec, (∃ restart ∈ tasks, restart.orig = p ∧ restart.spec = spec) →
    ∃ restart ∈ others, restart.orig = p ∧ restart.spec = spec

theorem Lineage.calm {activities others : List Activity} (lineage : Lineage s₀ s activities)
    (children : later.children = s.children) (registered : later.registered = s.registered)
    (calm : Calm s₀ (tasksOf activities) (tasksOf others)) (ledger : Ledger ⟨later, others⟩)
    (settled : ∀ restart ∈ tasksOf others, restart.Settled)
    (reads : ∀ activity ∈ others, ∀ p spec, activity.Reads p spec →
      p ∈ s.registered ∧ Belongs s₀ (tasksOf activities) p spec) : Lineage s₀ later others := by
  refine ⟨ledger, ?_, ?_, ?_, settled, ?_, ?_, ?_, ?_, ?_⟩
  · intro q
    rw [registered, calm.inserting]
    exact lineage.once q
  · rw [registered]
    exact lineage.initial
  · rw [children, registered]
    exact lineage.registered
  · intro p spec found
    rw [children] at found
    exact (calm.belongs p spec).mpr (lineage.child p spec found)
  · intro activity member p spec read
    rw [registered, calm.belongs]
    exact reads activity member p spec read
  · intro p spec spec' first second
    exact lineage.functional p spec spec' ((calm.belongs p spec).mp first) ((calm.belongs p spec').mp second)
  · intro p spec belongs
    rw [children]
    rcases lineage.kept p spec ((calm.belongs p spec).mp belongs) with present | inserting | origin
    · exact .inl present
    · exact .inr (.inl (calm.insertion p spec inserting))
    · exact .inr (.inr (calm.origin p spec origin))
  · intro p p' spec first second unreplaced unreplaced'
    exact lineage.unique p p' spec ((calm.belongs p spec).mp first) ((calm.belongs p' spec).mp second)
      (fun replaced => unreplaced (calm.replaced p replaced)) fun replaced => unreplaced' (calm.replaced p' replaced)

theorem Calm.of_perm {tasks others : List Task} (perm : tasks.Perm others) : Calm s₀ tasks others := by
  have move : ∀ condition : Task → Prop,
      (∃ restart ∈ tasks, condition restart) ↔ ∃ restart ∈ others, condition restart := by
    intro condition
    exact exists_congr fun restart => and_congr_left fun _ => perm.mem_iff
  refine ⟨?_, ?_, ?_, ?_, ?_⟩
  · exact fun p spec => or_congr_right (move _).symm
  · exact fun p => (move _).mp
  · exact fun q => (perm.countP_eq _).symm
  · exact fun p spec => (move _).mp
  · exact fun p spec => (move _).mp

/-- New restart tasks, before their first attempt. -/
theorem Calm.append {tasks new : List Task} (fresh : ∀ restart ∈ new, ∃ p spec, restart = Task.new p spec) :
    Calm s₀ tasks (tasks ++ new) := by
  have more : ∀ condition : Task → Prop, (∃ restart ∈ tasks, condition restart) →
      ∃ restart ∈ tasks ++ new, condition restart := by
    rintro condition ⟨restart, member, holds⟩
    exact ⟨restart, List.mem_append_left _ member, holds⟩
  refine ⟨?_, ?_, ?_, ?_, ?_⟩
  · intro p spec
    apply belongs_append
    intro restart member
    obtain ⟨orig, found, rfl⟩ := fresh restart member
    rfl
  · exact fun p => more _
  · intro q
    have none : new.countP (Task.inserting q) = 0 := by
      rw [List.countP_eq_zero]
      intro restart member
      obtain ⟨orig, found, rfl⟩ := fresh restart member
      simp [Task.inserting, Task.new]
    rw [List.countP_append, none, Nat.add_zero]
  · exact fun p spec => more _
  · exact fun p spec => more _

/-- A step of a restart task between its attempts or after its insertion. -/
theorem Calm.step {restart next : Task} {tasks : List Task} (orig : next.orig = restart.orig)
    (spec : next.spec = restart.spec) (replacement : next.replacement = restart.replacement)
    (before : ∀ q, restart.stage ≠ .insertNew q) (after : ∀ q, next.stage ≠ .insertNew q) :
    Calm s₀ (restart :: tasks) (next :: tasks) := by
  refine ⟨?_, ?_, ?_, ?_, ?_⟩
  · intro p found
    rw [belongs_cons, belongs_cons, replacement, spec]
  · intro p
    rw [replaced_cons, replaced_cons, orig, replacement]
    exact id
  · intro q
    simp [Task.inserting, before q, after q]
  · rintro p found ⟨other, member, stage, same⟩
    rcases List.mem_cons.mp member with rfl | member
    · exact absurd stage (before p)
    · exact ⟨other, List.mem_cons_of_mem _ member, stage, same⟩
  · rintro p found ⟨other, member, same, known⟩
    rcases List.mem_cons.mp member with rfl | member
    · exact ⟨next, List.mem_cons_self, orig.trans same, spec.trans known⟩
    · exact ⟨other, List.mem_cons_of_mem _ member, same, known⟩

namespace Lineage

variable {rest : List Activity} {restart next : Task}

/-- No pid has two restart tasks. -/
theorem alone (lineage : Lineage s₀ s (.task restart :: rest)) {other : Task} (member : other ∈ tasksOf rest) :
    other.orig ≠ restart.orig := by
  intro same
  have paid := (lineage.ledger.balanced restart.orig).paid
  have once := lineage.once restart.orig
  have started := countP_restarts_eq restart.orig (.task restart :: rest)
  have mine : Activity.restarts restart.orig (.task restart) = true := decide_eq_true rfl
  have theirs : 0 < rest.countP (Activity.restarts restart.orig) := by
    rw [List.countP_pos_iff]
    exact ⟨.task other, mem_tasksOf.mp member, decide_eq_true same⟩
  rw [List.countP_cons_of_pos mine] at started
  dsimp only at paid
  omega

theorem reads_after (lineage : Lineage s₀ s (.task restart :: rest)) (orig : next.orig = restart.orig)
    (same : next.spec = restart.spec) (known : ∀ p ∈ s.registered, p ∈ later.registered)
    (belongs : ∀ p spec, Belongs s₀ (restart :: tasksOf rest) p spec → Belongs s₀ (next :: tasksOf rest) p spec) :
    ∀ activity ∈ Activity.task next :: rest, ∀ p spec, activity.Reads p spec →
      p ∈ later.registered ∧ Belongs s₀ (next :: tasksOf rest) p spec := by
  rw [List.forall_mem_cons]
  constructor
  · intro p spec read
    have reads : (Activity.task restart).Reads p spec := ⟨orig ▸ read.1, same ▸ read.2⟩
    obtain ⟨registered, mine⟩ := lineage.read _ List.mem_cons_self p spec reads
    exact ⟨known p registered, belongs p spec mine⟩
  · intro activity member p spec read
    obtain ⟨registered, theirs⟩ := lineage.read activity (List.mem_cons_of_mem _ member) p spec read
    exact ⟨known p registered, belongs p spec theirs⟩

theorem unanswered (lineage : Lineage s₀ s (.task restart :: rest)) (stage : restart.stage = .call) :
    restart.replacement = none := by
  have settled := lineage.settled restart List.mem_cons_self
  rwa [Task.Settled, stage] at settled

end Lineage

/-- The factory of `restart` has returned `q`. -/
structure Answer (restart next : Task) (q : Pid) : Prop where
  stage : restart.stage = .call
  unanswered : restart.replacement = none
  orig : next.orig = restart.orig
  spec : next.spec = restart.spec
  replacement : next.replacement = some q
  inserts : next.stage = .insertNew q

namespace Answer

variable {restart next : Task} {tasks : List Task} {rest : List Activity}

theorem belongs_iff (answer : Answer restart next q) : Belongs s₀ (next :: tasks) p spec ↔
    (q = p ∧ restart.spec = spec) ∨ Belongs s₀ (restart :: tasks) p spec := by
  rw [belongs_cons, belongs_cons, answer.replacement, answer.spec, answer.unanswered, Option.some.injEq]
  simp

theorem replaced (answer : Answer restart next q) (replaced : Replaced (restart :: tasks) p) :
    Replaced (next :: tasks) p := by
  rw [replaced_cons] at replaced ⊢
  rcases replaced with ⟨-, given⟩ | replaced
  · exact absurd answer.unanswered given
  · exact .inr replaced

theorem once (answer : Answer restart next q) (lineage : Lineage s₀ s (.task restart :: rest))
    (unused : q ∉ s.registered) (new : ∀ other ∈ tasksOf rest, other.replacement ≠ some q) (other : Pid) :
    s.registered.count other + (next :: tasksOf rest).countP (Task.inserting other) ≤ 1 := by
  have once : s.registered.count other + (restart :: tasksOf rest).countP (Task.inserting other) ≤ 1 :=
    lineage.once other
  have mine : Task.inserting other restart = false := by simp [Task.inserting, answer.stage]
  rw [List.countP_cons, mine] at once
  rw [List.countP_cons]
  by_cases same : other = q
  · subst same
    have nobody : (tasksOf rest).countP (Task.inserting other) = 0 := by
      rw [List.countP_eq_zero]
      intro task member inserting
      have settled := lineage.settled task (List.mem_cons_of_mem _ member)
      rw [Task.Settled, of_decide_eq_true inserting] at settled
      exact new task member settled
    rw [nobody, List.count_eq_zero_of_not_mem unused]
    split <;> omega
  · have theirs : Task.inserting other next = false := by simp [Task.inserting, answer.inserts, Ne.symm same]
    rw [theirs]
    simpa using once

theorem kept (answer : Answer restart next q) (lineage : Lineage s₀ s (.task restart :: rest))
    (belongs : Belongs s₀ (next :: tasksOf rest) p spec) : s.children.lookup p = some spec ∨
      (∃ other ∈ next :: tasksOf rest, other.stage = .insertNew p ∧ other.spec = spec) ∨
      ∃ other ∈ next :: tasksOf rest, other.orig = p ∧ other.spec = spec := by
  rcases answer.belongs_iff.mp belongs with ⟨rfl, rfl⟩ | belongs
  · exact .inr (.inl ⟨next, List.mem_cons_self, answer.inserts, answer.spec⟩)
  · rcases lineage.kept p spec belongs with present | ⟨other, member, inserting, found⟩ | ⟨other, member, origin, found⟩
    · exact .inl present
    · rcases List.mem_cons.mp member with rfl | member
      · cases answer.stage.symm.trans inserting
      · exact .inr (.inl ⟨other, List.mem_cons_of_mem _ member, inserting, found⟩)
    · rcases List.mem_cons.mp member with rfl | member
      · exact .inr (.inr ⟨next, List.mem_cons_self, answer.orig.trans origin, answer.spec.trans found⟩)
      · exact .inr (.inr ⟨other, List.mem_cons_of_mem _ member, origin, found⟩)

theorem stranger (answer : Answer restart next q) (lineage : Lineage s₀ s (.task restart :: rest))
    (unused : q ∉ s.registered) (new : ∀ other ∈ tasksOf rest, other.replacement ≠ some q) :
    ¬ Belongs s₀ (restart :: tasksOf rest) q spec := by
  rw [belongs_cons, answer.unanswered]
  rintro (⟨answered, -⟩ | initial | ⟨other, member, answered, -⟩)
  · cases answered
  · exact unused (lineage.initial q (AList.lookup_isSome.mp (by rw [initial]; rfl)))
  · exact new other member answered

theorem functional (answer : Answer restart next q) (lineage : Lineage s₀ s (.task restart :: rest))
    (unused : q ∉ s.registered) (new : ∀ other ∈ tasksOf rest, other.replacement ≠ some q) {spec' : ChildSpec}
    (first : Belongs s₀ (next :: tasksOf rest) p spec) (second : Belongs s₀ (next :: tasksOf rest) p spec') :
    spec = spec' := by
  rw [answer.belongs_iff] at first second
  rcases first with ⟨rfl, rfl⟩ | first
  · rcases second with ⟨-, same⟩ | second
    · exact same
    · exact absurd second (answer.stranger lineage unused new)
  · rcases second with ⟨rfl, -⟩ | second
    · exact absurd first (answer.stranger lineage unused new)
    · exact lineage.functional p spec spec' first second

/-- Every other actor of this child was replaced before, or is replaced now. -/
theorem last (answer : Answer restart next q) (lineage : Lineage s₀ s (.task restart :: rest))
    (belongs : Belongs s₀ (next :: tasksOf rest) p restart.spec) (unreplaced : ¬ Replaced (next :: tasksOf rest) p) :
    p = q := by
  rcases answer.belongs_iff.mp belongs with ⟨rfl, -⟩ | belongs
  · rfl
  · have waiting : ¬ Replaced (restart :: tasksOf rest) restart.orig := by
      rw [replaced_cons]
      rintro (⟨-, given⟩ | ⟨other, member, origin, -⟩)
      · exact given answer.unanswered
      · exact lineage.alone member origin
    have origin : p = restart.orig :=
      lineage.unique p restart.orig restart.spec belongs (lineage.read _ List.mem_cons_self _ _ ⟨rfl, rfl⟩).2
        (fun replaced => unreplaced (answer.replaced replaced)) waiting
    exfalso
    apply unreplaced
    rw [replaced_cons]
    exact .inl ⟨answer.orig.trans origin.symm, by rw [answer.replacement]; nofun⟩

theorem lineage (answer : Answer restart next q) (lineage : Lineage s₀ s (.task restart :: rest))
    (unused : q ∉ s.registered) (new : ∀ other ∈ tasksOf rest, other.replacement ≠ some q)
    (ledger : Ledger ⟨s, .task next :: rest⟩) : Lineage s₀ s (.task next :: rest) := by
  have grows : ∀ p spec, Belongs s₀ (restart :: tasksOf rest) p spec → Belongs s₀ (next :: tasksOf rest) p spec :=
    fun p spec belongs => answer.belongs_iff.mpr (.inr belongs)
  refine ⟨ledger, answer.once lineage unused new, lineage.initial, lineage.registered, ?_, ?_, ?_, ?_, ?_, ?_⟩
  · rw [tasksOf_task, List.forall_mem_cons]
    refine ⟨?_, fun other member => lineage.settled other (List.mem_cons_of_mem _ member)⟩
    rw [Task.Settled, answer.inserts]
    exact answer.replacement
  · exact fun p spec found => grows p spec (lineage.child p spec found)
  · exact lineage.reads_after answer.orig answer.spec (fun p => id) grows
  · exact fun p spec spec' first second => answer.functional lineage unused new first second
  · exact fun p spec belongs => answer.kept lineage belongs
  · intro p p' spec first second unreplaced unreplaced'
    by_cases mine : restart.spec = spec
    · subst mine
      rw [answer.last lineage first unreplaced, answer.last lineage second unreplaced']
    · have earlier : ∀ p, Belongs s₀ (next :: tasksOf rest) p spec → Belongs s₀ (restart :: tasksOf rest) p spec :=
        fun p belongs => (answer.belongs_iff.mp belongs).resolve_left fun both => mine both.2
      exact lineage.unique p p' spec (earlier p first) (earlier p' second)
        (fun replaced => unreplaced (answer.replaced replaced)) fun replaced => unreplaced' (answer.replaced replaced)

end Answer

namespace Lineage

variable {rest : List Activity} {restart next : Task}

theorem belongs_set_stage (stage : TaskStage) (tasks : List Task) :
    Belongs s₀ ({ restart with stage } :: tasks) p spec ↔ Belongs s₀ (restart :: tasks) p spec := by
  rw [belongs_cons, belongs_cons]

theorem replaced_set_stage (stage : TaskStage) (tasks : List Task) :
    Replaced ({ restart with stage } :: tasks) p ↔ Replaced (restart :: tasks) p := by
  rw [replaced_cons, replaced_cons]

theorem unregistered (lineage : Lineage s₀ s (.task restart :: rest)) (stage : restart.stage = .insertNew q) :
    q ∉ s.registered ∧ ∀ other ∈ tasksOf rest, other.stage ≠ .insertNew q := by
  have once : s.registered.count q + (restart :: tasksOf rest).countP (Task.inserting q) ≤ 1 := lineage.once q
  have mine : Task.inserting q restart = true := decide_eq_true stage
  rw [List.countP_cons_of_pos mine] at once
  constructor
  · intro member
    have positive := List.count_pos_iff.mpr member
    omega
  · intro other member inserts
    have positive : 0 < (tasksOf rest).countP (Task.inserting q) :=
      List.countP_pos_iff.mpr ⟨other, member, decide_eq_true inserts⟩
    omega

theorem inserted_kept (lineage : Lineage s₀ s (.task restart :: rest)) (stage : restart.stage = .insertNew q)
    (belongs : Belongs s₀ (restart :: tasksOf rest) p spec) :
    (s.addChild q restart.spec).children.lookup p = some spec ∨
      (∃ other ∈ { restart with stage := .removeOld } :: tasksOf rest, other.stage = .insertNew p ∧ other.spec = spec) ∨
      ∃ other ∈ { restart with stage := .removeOld } :: tasksOf rest, other.orig = p ∧ other.spec = spec := by
  obtain ⟨unused, alone⟩ := lineage.unregistered stage
  rcases lineage.kept p spec belongs with present | ⟨other, member, inserting, found⟩ | ⟨other, member, origin, found⟩
  · left
    have different : p ≠ q := by
      rintro rfl
      exact unused (lineage.registered p (AList.lookup_isSome.mp (by rw [present]; rfl)))
    rwa [Supervisor.addChild, AList.lookup_insert_ne different]
  · rcases List.mem_cons.mp member with rfl | member
    · cases stage.symm.trans inserting
      left
      rw [Supervisor.addChild, AList.lookup_insert, found]
    · exact .inr (.inl ⟨other, List.mem_cons_of_mem _ member, inserting, found⟩)
  · right
    right
    rcases List.mem_cons.mp member with rfl | member
    · exact ⟨_, List.mem_cons_self, origin, found⟩
    · exact ⟨other, List.mem_cons_of_mem _ member, origin, found⟩

theorem inserted (lineage : Lineage s₀ s (.task restart :: rest)) (stage : restart.stage = .insertNew q)
    (ledger : Ledger ⟨s.addChild q restart.spec, .task { restart with stage := .removeOld } :: rest⟩) :
    Lineage s₀ (s.addChild q restart.spec) (.task { restart with stage := .removeOld } :: rest) := by
  have registered : ∀ p ∈ s.registered, p ∈ (s.addChild q restart.spec).registered :=
    fun p member => List.mem_cons_of_mem _ member
  refine ⟨ledger, ?_, fun p member => registered p (lineage.initial p member), ?_, ?_, ?_, ?_, ?_, ?_, ?_⟩
  · intro other
    have once : s.registered.count other + (restart :: tasksOf rest).countP (Task.inserting other) ≤ 1 :=
      lineage.once other
    rw [List.countP_cons, Task.inserting, stage] at once
    rw [tasksOf_task, List.countP_cons, Supervisor.addChild, List.count_cons]
    by_cases same : q = other
    · simp [Task.inserting, same] at once ⊢
      omega
    · simpa [Task.inserting, same] using once
  · intro p member
    rcases AList.mem_insert _ |>.mp member with rfl | member
    · exact List.mem_cons_self
    · exact registered p (lineage.registered p member)
  · rw [tasksOf_task, List.forall_mem_cons]
    exact ⟨trivial, fun other member => lineage.settled other (List.mem_cons_of_mem _ member)⟩
  · intro p spec found
    rw [tasksOf_task, belongs_set_stage]
    by_cases same : p = q
    · subst same
      rw [Supervisor.addChild, AList.lookup_insert, Option.some.injEq] at found
      have settled := lineage.settled restart List.mem_cons_self
      rw [Task.Settled, stage] at settled
      exact .inr ⟨restart, List.mem_cons_self, settled, found⟩
    · rw [Supervisor.addChild, AList.lookup_insert_ne same] at found
      exact lineage.child p spec found
  · exact lineage.reads_after rfl rfl registered fun p spec => (belongs_set_stage _ _).mpr
  · intro p spec spec' first second
    rw [tasksOf_task, belongs_set_stage] at first second
    exact lineage.functional p spec spec' first second
  · intro p spec belongs
    exact lineage.inserted_kept stage ((belongs_set_stage _ _).mp belongs)
  · intro p p' spec first second unreplaced unreplaced'
    rw [tasksOf_task, belongs_set_stage] at first second
    rw [tasksOf_task, replaced_set_stage] at unreplaced unreplaced'
    exact lineage.unique p p' spec first second unreplaced unreplaced'

theorem removed (lineage : Lineage s₀ s (.task restart :: rest)) (stage : restart.stage = .removeOld)
    (ledger : Ledger ⟨s.dropChild restart.orig, .task { restart with stage := .removeLinks } :: rest⟩) :
    Lineage s₀ (s.dropChild restart.orig) (.task { restart with stage := .removeLinks } :: rest) := by
  refine ⟨ledger, ?_, lineage.initial, ?_, ?_, ?_, ?_, ?_, ?_, ?_⟩
  · intro other
    have once : s.registered.count other + (restart :: tasksOf rest).countP (Task.inserting other) ≤ 1 :=
      lineage.once other
    rw [List.countP_cons, Task.inserting, stage] at once
    simpa [Task.inserting, Supervisor.dropChild] using once
  · exact fun p member => lineage.registered p (AList.mem_erase.mp member).2
  · rw [tasksOf_task, List.forall_mem_cons]
    exact ⟨trivial, fun other member => lineage.settled other (List.mem_cons_of_mem _ member)⟩
  · intro p spec found
    rw [tasksOf_task, belongs_set_stage]
    by_cases same : p = restart.orig
    · rw [Supervisor.dropChild, same, AList.lookup_erase] at found
      cases found
    · rw [Supervisor.dropChild, AList.lookup_erase_ne same] at found
      exact lineage.child p spec found
  · exact lineage.reads_after rfl rfl (fun p => id) fun p spec => (belongs_set_stage _ _).mpr
  · intro p spec spec' first second
    rw [tasksOf_task, belongs_set_stage] at first second
    exact lineage.functional p spec spec' first second
  · intro p spec belongs
    rw [tasksOf_task, belongs_set_stage] at belongs
    by_cases same : restart.orig = p
    · have mine := (lineage.read _ List.mem_cons_self p restart.spec ⟨same, rfl⟩).2
      exact .inr (.inr ⟨_, List.mem_cons_self, same, lineage.functional p _ _ mine belongs⟩)
    · rcases lineage.kept p spec belongs with present | ⟨other, member, inserting, found⟩ | ⟨other, member, origin, found⟩
      · left
        rwa [Supervisor.dropChild, AList.lookup_erase_ne (Ne.symm same)]
      · rcases List.mem_cons.mp member with rfl | member
        · cases stage.symm.trans inserting
        · exact .inr (.inl ⟨other, List.mem_cons_of_mem _ member, inserting, found⟩)
      · rcases List.mem_cons.mp member with rfl | member
        · exact absurd origin same
        · exact .inr (.inr ⟨other, List.mem_cons_of_mem _ member, origin, found⟩)
  · intro p p' spec first second unreplaced unreplaced'
    rw [tasksOf_task, belongs_set_stage] at first second
    rw [tasksOf_task, replaced_set_stage] at unreplaced unreplaced'
    exact lineage.unique p p' spec first second unreplaced unreplaced'

end Lineage

theorem Notify.step_reads {call next : Notify} {tasks : List Task} (steps : Steps s call later next tasks) :
    (∀ p spec, (Activity.notify next).Reads p spec →
      (Activity.notify call).Reads p spec ∨ s.children.lookup p = some spec) ∧
      ∀ restart ∈ tasks, ∃ p spec, restart = Task.new p spec ∧ (Activity.notify call).Reads p spec := by
  cases steps with
  | @foundOne own spec found one =>
    refine ⟨?_, by simp⟩
    rintro p spec ⟨rfl, rfl⟩
    exact .inr found
  | @read own order whole =>
    refine ⟨?_, by simp⟩
    intro p spec member
    have entry : (p, spec) ∈ snapshot s order := member
    exact .inr (snapshot_lookup entry)
  | @claimed own done todo child =>
    refine ⟨?_, by simp⟩
    intro p spec member
    have entry : (p, spec) ∈ done ++ [child] ++ todo := member
    rw [List.append_assoc, List.singleton_append] at entry
    exact .inl entry
  | @marked own done =>
    refine ⟨?_, by simp⟩
    intro p spec member
    have entry : (p, spec) ∈ done ++ [] := by rwa [List.append_nil]
    exact .inl entry
  | @spawned own todo child =>
    refine ⟨fun p spec member => .inl (List.mem_cons_of_mem _ member), ?_⟩
    intro restart member
    exact ⟨child.1, child.2, List.mem_singleton.mp member, List.mem_cons_self⟩
  | @spawnedOne own spec =>
    refine ⟨fun p spec member => absurd member id, ?_⟩
    intro restart member
    exact ⟨own, spec, List.mem_singleton.mp member, rfl, rfl⟩
  | _ => exact ⟨fun p spec member => absurd member id, by simp⟩

theorem tasksOf_append_map (activities : List Activity) (tasks : List Task) :
    tasksOf (activities ++ tasks.map .task) = tasksOf activities ++ tasks := by
  unfold tasksOf
  rw [List.filterMap_append, List.filterMap_map]
  simp [Function.comp_def, Activity.task?]

theorem Ledger.step {activity next : Activity} {rest new : List Activity} {outside : Outside}
    (ledger : Ledger ⟨s, activity :: rest⟩) (orderly : activity.Orderly s)
    (stepped : supervision.step 0 s activity outside = some (later, next, new)) :
    Ledger ⟨later, next :: (rest ++ new)⟩ := by
  have moves : supervision.Moves ⟨s, [] ++ activity :: rest⟩ (.step 0 outside) ⟨later, [] ++ next :: (rest ++ new)⟩ :=
    .step stepped
  refine ledger.move ?_ moves
  intro other found
  cases found
  exact orderly

namespace Lineage

variable {rest : List Activity}

theorem notified {call next : Notify} {tasks : List Task} (lineage : Lineage s₀ s (.notify call :: rest))
    (steps : call.Steps s later next tasks) (ledger : Ledger ⟨later, .notify next :: (rest ++ tasks.map .task)⟩) :
    Lineage s₀ later (.notify next :: (rest ++ tasks.map .task)) := by
  obtain ⟨reads, fresh⟩ := Notify.step_reads steps
  have tables : later.children = s.children ∧ later.registered = s.registered := by
    cases steps <;> exact ⟨rfl, rfl⟩
  have known : ∀ p spec, (Activity.notify call).Reads p spec → p ∈ s.registered ∧ Belongs s₀ (tasksOf rest) p spec :=
    fun p spec read => lineage.read _ List.mem_cons_self p spec read
  have split : tasksOf (.notify next :: (rest ++ tasks.map .task)) = tasksOf rest ++ tasks := by
    rw [tasksOf_notify, tasksOf_append_map]
  refine lineage.calm tables.1 tables.2 ?_ ledger ?_ ?_
  · rw [split]
    apply Calm.append
    intro restart member
    obtain ⟨p, spec, same, -⟩ := fresh restart member
    exact ⟨p, spec, same⟩
  · rw [split]
    intro restart member
    rcases List.mem_append.mp member with old | new
    · exact lineage.settled restart old
    · obtain ⟨p, spec, rfl, -⟩ := fresh restart new
      rfl
  · intro activity member p spec read
    rcases List.mem_cons.mp member with rfl | member
    · rcases reads p spec read with before | found
      · exact known p spec before
      · exact ⟨lineage.registered p (AList.lookup_isSome.mp (by rw [found]; rfl)), lineage.child p spec found⟩
    · rcases List.mem_append.mp member with old | new
      · exact lineage.read activity (List.mem_cons_of_mem _ old) p spec read
      · obtain ⟨restart, spawned, rfl⟩ := List.mem_map.mp new
        obtain ⟨orig, found, rfl, before⟩ := fresh restart spawned
        obtain ⟨rfl, rfl⟩ := read
        exact known _ _ before

/-- A step of a restart task that neither gets an answer nor touches `children`. -/
theorem restarted {restart next : Task} (lineage : Lineage s₀ s (.task restart :: rest))
    (children : later.children = s.children) (registered : later.registered = s.registered)
    (orig : next.orig = restart.orig) (same : next.spec = restart.spec)
    (replacement : next.replacement = restart.replacement) (before : ∀ q, restart.stage ≠ .insertNew q)
    (after : ∀ q, next.stage ≠ .insertNew q) (settled : next.Settled)
    (ledger : Ledger ⟨later, .task next :: rest⟩) : Lineage s₀ later (.task next :: rest) := by
  refine lineage.calm children registered ?_ ledger ?_ ?_
  · exact .step orig same replacement before after
  · rw [tasksOf_task, List.forall_mem_cons]
    exact ⟨settled, fun other member => lineage.settled other (List.mem_cons_of_mem _ member)⟩
  · rw [List.forall_mem_cons]
    refine ⟨?_, fun activity member => lineage.read activity (List.mem_cons_of_mem _ member)⟩
    intro p spec read
    exact lineage.read _ List.mem_cons_self p spec ⟨orig ▸ read.1, same ▸ read.2⟩

theorem step {activity next : Activity} {new : List Activity} {outside : Outside}
    (lineage : Lineage s₀ s (activity :: rest)) (orderly : activity.Orderly s)
    (user : ∀ call, activity ≠ .removal call)
    (fresh : ∀ restart q, next = .task restart → restart.stage = .insertNew q →
      q ∉ s.registered ∧ ∀ other ∈ tasksOf rest, other.replacement ≠ some q)
    (stepped : supervision.step 0 s activity outside = some (later, next, new)) :
    Lineage s₀ later (next :: (rest ++ new)) := by
  have ledger := lineage.ledger.step orderly stepped
  cases Activity.steps_of_step stepped with
  | notify steps => exact lineage.notified steps ledger
  | @task _ restart next _ taken =>
    rw [List.append_nil] at ledger ⊢
    have settled := lineage.settled restart List.mem_cons_self
    cases Task.steps_of_step taken with
    | @answered q result stage answer =>
      obtain ⟨unused, new⟩ := fresh _ q rfl rfl
      exact Answer.lineage ⟨stage, lineage.unanswered stage, rfl, rfl, rfl, rfl⟩ lineage unused new ledger
    | refused stage =>
      rw [Task.Settled, stage] at settled
      exact lineage.restarted rfl rfl rfl rfl rfl (by rw [stage]; nofun) nofun settled ledger
    | inserted stage => exact lineage.inserted stage ledger
    | gaveUp stage last => exact lineage.restarted rfl rfl rfl rfl rfl (by rw [stage]; nofun) nofun trivial ledger
    | failed stage more =>
      rw [Task.Settled, stage] at settled
      exact lineage.restarted rfl rfl rfl rfl rfl (by rw [stage]; nofun) nofun settled ledger
    | waited stage =>
      rw [Task.Settled, stage] at settled
      exact lineage.restarted rfl rfl rfl rfl rfl (by rw [stage]; nofun) nofun settled ledger
    | removed stage => exact lineage.removed stage ledger
    | forgot stage =>
      exact lineage.restarted (s.forget_children _ _) (s.forget_registered _ _) rfl rfl rfl (by rw [stage]; nofun)
        nofun trivial ledger
    | tookLinks stage | forgotAll stage | cleared stage =>
      exact lineage.restarted rfl rfl rfl rfl rfl (by rw [stage]; nofun) nofun trivial ledger
  | removal taken => exact absurd rfl (user _)

theorem perm {activities others : List Activity} (lineage : Lineage s₀ s activities) (perm : activities.Perm others) :
    Lineage s₀ s others := by
  refine lineage.calm rfl rfl (.of_perm (perm.filterMap _)) ?_ ?_ ?_
  · refine ⟨fun pid => ?_, fun activity member => lineage.ledger.sound activity (perm.mem_iff.mpr member)⟩
    have weights : weigh pid others = weigh pid activities := by
      funext aspect
      exact (perm.map _).sum_eq.symm
    rw [weights]
    exact lineage.ledger.balanced pid
  · exact fun restart member => lineage.settled restart ((perm.filterMap _).mem_iff.mpr member)
  · exact fun activity member => lineage.read activity (perm.mem_iff.mpr member)

end Lineage

/-- The pid and the spec of a child that nobody in the group has had. -/
structure Newcomer (s : Supervisor) (tasks : List Task) (p : Pid) (spec : ChildSpec) : Prop where
  unregistered : p ∉ s.registered
  unanswered : ∀ restart ∈ tasks, restart.replacement ≠ some p
  unheld : ∀ entry ∈ s.children.entries, entry.2 ≠ spec
  unclaimed : ∀ restart ∈ tasks, restart.spec ≠ spec

namespace Newcomer

variable {activities : List Activity} {r : Pid} {found : ChildSpec}

theorem stranger (newcomer : Newcomer s (tasksOf activities) p spec) (lineage : Lineage s₀ s activities) :
    ¬ Belongs s₀ (tasksOf activities) p found := by
  rintro (initial | ⟨restart, member, answered, -⟩)
  · exact newcomer.unregistered (lineage.initial p (AList.lookup_isSome.mp (by rw [initial]; rfl)))
  · exact newcomer.unanswered restart member answered

theorem nobody (newcomer : Newcomer s (tasksOf activities) p spec) (lineage : Lineage s₀ s activities) :
    ¬ Belongs s₀ (tasksOf activities) r spec := by
  intro belongs
  rcases lineage.kept r spec belongs with present | ⟨restart, member, -, same⟩ | ⟨restart, member, -, same⟩
  · exact newcomer.unheld ⟨r, spec⟩ (AList.mem_lookup_iff.mp present) rfl
  · exact newcomer.unclaimed restart member same
  · exact newcomer.unclaimed restart member same

theorem belongs_iff (newcomer : Newcomer s (tasksOf activities) p spec) (lineage : Lineage s₀ s activities) :
    Belongs (s₀.addChild p spec) (tasksOf activities) r found ↔
      (r = p ∧ found = spec) ∨ Belongs s₀ (tasksOf activities) r found := by
  unfold Belongs
  by_cases same : r = p
  · subst same
    have stranger : ¬ Belongs s₀ (tasksOf activities) r found := newcomer.stranger lineage
    unfold Belongs at stranger
    rw [not_or] at stranger
    rw [Supervisor.addChild, AList.lookup_insert, Option.some.injEq]
    simp [stranger, eq_comm]
  · rw [Supervisor.addChild, AList.lookup_insert_ne same]
    simp [same]

theorem lineage (newcomer : Newcomer s (tasksOf activities) p spec) (lineage : Lineage s₀ s activities) :
    Lineage (s₀.addChild p spec) (s.addChild p spec) activities := by
  have enters : supervision.Moves ⟨s, activities⟩ (.ambient (.addChild p spec)) ⟨s.addChild p spec, activities⟩ :=
    .ambient rfl
  have orderly : Orderly ⟨s, activities⟩ (.ambient (.addChild p spec)) := trivial
  have later : ∀ q ∈ s.registered, q ∈ (s.addChild p spec).registered := fun q member => List.mem_cons_of_mem _ member
  refine ⟨lineage.ledger.move orderly enters, ?_, ?_, ?_, lineage.settled, ?_, ?_, ?_, ?_, ?_⟩
  · intro q
    have once := lineage.once q
    rw [Supervisor.addChild, List.count_cons]
    by_cases same : p = q
    · subst same
      have nobody : (tasksOf activities).countP (Task.inserting p) = 0 := by
        rw [List.countP_eq_zero]
        intro restart member inserting
        have settled := lineage.settled restart member
        rw [Task.Settled, of_decide_eq_true inserting] at settled
        exact newcomer.unanswered restart member settled
      rw [nobody, List.count_eq_zero_of_not_mem newcomer.unregistered]
      split <;> omega
    · simpa [same] using once
  · intro q member
    rcases AList.mem_insert _ |>.mp member with rfl | member
    · exact List.mem_cons_self
    · exact later q (lineage.initial q member)
  · intro q member
    rcases AList.mem_insert _ |>.mp member with rfl | member
    · exact List.mem_cons_self
    · exact later q (lineage.registered q member)
  · intro q found present
    rw [newcomer.belongs_iff lineage]
    by_cases same : q = p
    · subst same
      rw [Supervisor.addChild, AList.lookup_insert, Option.some.injEq] at present
      exact .inl ⟨rfl, present.symm⟩
    · rw [Supervisor.addChild, AList.lookup_insert_ne same] at present
      exact .inr (lineage.child q found present)
  · intro activity member q found read
    obtain ⟨registered, belongs⟩ := lineage.read activity member q found read
    exact ⟨later q registered, (newcomer.belongs_iff lineage).mpr (.inr belongs)⟩
  · intro q found found' first second
    rw [newcomer.belongs_iff lineage] at first second
    rcases first with ⟨rfl, rfl⟩ | first
    · rcases second with ⟨-, same⟩ | second
      · exact same.symm
      · exact absurd second (newcomer.stranger lineage)
    · rcases second with ⟨rfl, -⟩ | second
      · exact absurd first (newcomer.stranger lineage)
      · exact lineage.functional q found found' first second
  · intro q found belongs
    rw [newcomer.belongs_iff lineage] at belongs
    rcases belongs with ⟨rfl, rfl⟩ | belongs
    · left
      rw [Supervisor.addChild, AList.lookup_insert]
    · have different : q ≠ p := by
        rintro rfl
        exact newcomer.stranger lineage belongs
      rw [Supervisor.addChild, AList.lookup_insert_ne different]
      exact lineage.kept q found belongs
  · intro q q' found first second unreplaced unreplaced'
    rw [newcomer.belongs_iff lineage] at first second
    rcases first with ⟨rfl, rfl⟩ | first
    · rcases second with ⟨rfl, -⟩ | second
      · rfl
      · exact absurd second (newcomer.nobody lineage)
    · rcases second with ⟨rfl, rfl⟩ | second
      · exact absurd first (newcomer.nobody lineage)
      · exact lineage.unique q q' found first second unreplaced unreplaced'

end Newcomer

theorem lineage_start {s : Supervisor}
    (distinct : ∀ p p' spec, s.children.lookup p = some spec → s.children.lookup p' = some spec → p = p') :
    Lineage s s.recorded [] := by
  refine ⟨ledger_start s, ?_, fun p => AList.mem_keys.mp, fun p => AList.mem_keys.mp, by simp [tasksOf], ?_, by simp,
    ?_, ?_, ?_⟩
  · intro q
    exact List.nodup_iff_count_le_one.mp s.children.keys_nodup q
  · exact fun p spec found => .inl found
  · rintro p spec spec' (first | ⟨restart, member, -⟩) (second | ⟨restart, member, -⟩)
    · exact Option.some.inj (first.symm.trans second)
    · cases member
    · cases member
    · cases member
  · rintro p spec (found | ⟨restart, member, -⟩)
    · exact .inl found
    · cases member
  · rintro p p' spec (first | ⟨restart, member, -⟩) (second | ⟨restart, member, -⟩) - -
    · exact distinct p p' spec first second
    · cases member
    · cases member
    · cases member

end Myrmidon

import Myrmidon.Registry.Listing
import Myrmidon.Runtime.Paths
import Myrmidon.Transition.Fair
import Myrmidon.Transition.Locks

namespace Myrmidon

open NameRegistry Transition

/-- The names of a runtime. `readers` counts the iterations in each shard of the table. -/
structure NameTable where
  registry : NameRegistry
  readers : Nat → Nat

inductive ListingKind where
  | children
  | directChildren
  deriving DecidableEq

inductive ListingStage where
  | called
  | visit (part : Nat) (todo : List (String × Pid))
  | panicked
  | returned
  deriving DecidableEq

/-- A call of `list_children` or `list_direct_children`, with what it has pushed so far. -/
structure Listing where
  kind : ListingKind
  path : String
  out : List (String × Pid)
  stage : ListingStage
  deriving DecidableEq

namespace ListingKind

/-- Whether the loop pushes an entry with this key; `none` is a panic. -/
def keeps (kind : ListingKind) (path key : String) : Option Bool :=
  match kind with
  | .children => some (if norm path.toList = [] then true else (norm path.toList ++ ['/']).isPrefixOf key.toList)
  | .directChildren => keepsDirect (if norm path.toList = [] then [] else norm path.toList ++ ['/']) key.toList

/-- The whole call on a registry that nobody changes meanwhile. -/
def alone (kind : ListingKind) (registry : NameRegistry) (order : List String) (path : String) :
    Option (List (String × Pid)) :=
  match kind with
  | .children => some (registry.listChildren order path)
  | .directChildren => registry.listDirectChildren order path

/-- The call would list the entry if nobody changed the registry. -/
def Lists (kind : ListingKind) (registry : NameRegistry) (path : String) (entry : String × Pid) : Prop :=
  ∃ order listed, order.Perm registry.names.keys ∧ kind.alone registry order path = some listed ∧ entry ∈ listed

end ListingKind

namespace NameTable

def new : NameTable := ⟨.new, fun _ => 0⟩

def addReader (t : NameTable) (part : Nat) : NameTable :=
  { t with readers := Function.update t.readers part (t.readers part + 1) }

def dropReader (t : NameTable) (part : Nat) : NameTable :=
  { t with readers := Function.update t.readers part (t.readers part - 1) }

def keysIn (t : NameTable) (map : Sharding) (part : Nat) : List String :=
  t.registry.names.keys.filter fun key => map.shard key = part

/-- The iteration comes to a shard, or to its end. While it is in a shard, that is
    locked for reading, so its entries stay what they are. -/
def enter (t : NameTable) (map : Sharding) (part : Nat) (order : List String) : Option (NameTable × ListingStage) :=
  if part < map.count then
    if order.Perm (t.keysIn map part) then some (t.addReader part, .visit part (t.registry.iter order)) else none
  else some (t, .returned)

end NameTable

namespace Listing

def new (kind : ListingKind) (path : String) : Listing := ⟨kind, path, [], .called⟩

def step (map : Sharding) (t : NameTable) (call : Listing) (order : List String) : Option (NameTable × Listing) :=
  match call.stage with
  | .called => (t.enter map 0 order).map fun (t, stage) => (t, { call with stage })
  | .visit part [] => ((t.dropReader part).enter map (part + 1) order).map fun (t, stage) => (t, { call with stage })
  | .visit part (entry :: todo) =>
    match call.kind.keeps call.path entry.1 with
    | some true => some (t, { call with out := call.out ++ [entry], stage := .visit part todo })
    | some false => some (t, { call with stage := .visit part todo })
    | none => some (t.dropReader part, { call with stage := .panicked })
  | .panicked | .returned => none

end Listing

inductive NameOperation where
  | register (name : String) (pid : Pid)
  | unregister (name : String)
  deriving DecidableEq

/-- A change waits for the iterations in the shard. -/
def NameOperation.apply (map : Sharding) (t : NameTable) : NameOperation → Option NameTable
  | .register name pid =>
    if t.readers (map.shard name) = 0 then some { t with registry := t.registry.register name pid } else none
  | .unregister name =>
    if t.readers (map.shard name) = 0 then some { t with registry := t.registry.unregister name } else none

/-- Any number of listings while names come and go. -/
def nameTable (map : Sharding) : Program NameTable Listing (List String) NameOperation where
  starts call := call = .new call.kind call.path
  step _ t call order := (call.step map t order).map fun (t, call) => (t, call, [])
  ambient t operation := operation.apply map t

namespace ListingKind

/-- The test of the loop, its slices being in range. -/
def selects (kind : ListingKind) (path key : String) : Bool :=
  match kind with
  | .children => (trimEndSlashes path.toList).isEmpty || (trimEndSlashes path.toList ++ ['/']).isPrefixOf key.toList
  | .directChildren => direct (trimEndSlashes path.toList) key.toList

theorem keeps_eq (kind : ListingKind) (path key : String) : kind.keeps path key = some (kind.selects path key) := by
  cases kind with
  | children =>
    rw [keeps, selects, norm_eq]
    by_cases root : trimEndSlashes path.toList = []
    · simp [root]
    · simp [root]
  | directChildren =>
    rw [keeps, selects, norm_eq]
    exact keepsDirect_eq _ _

theorem alone_eq (kind : ListingKind) (registry : NameRegistry) (order : List String) (path : String) :
    kind.alone registry order path = some ((registry.iter order).filter fun entry => kind.selects path entry.1) := by
  cases kind with
  | children => exact congrArg some (listChildren_eq registry order path)
  | directChildren => exact listDirectChildren_eq registry order path

theorem lists_iff {kind : ListingKind} {registry : NameRegistry} {path key : String} {pid : Pid} :
    kind.Lists registry path (key, pid) ↔ registry.resolve key = some pid ∧ kind.selects path key = true := by
  constructor
  · rintro ⟨order, listed, whole, alone, member⟩
    rw [alone_eq] at alone
    cases alone
    rw [List.mem_filter, mem_iter registry whole] at member
    exact member
  · rintro ⟨found, selected⟩
    refine ⟨registry.names.keys, _, .refl _, alone_eq kind registry _ path, ?_⟩
    rw [List.mem_filter, mem_iter registry (.refl _)]
    exact ⟨found, selected⟩

end ListingKind

namespace ListingStage

/-- The shard that the iteration has locked. -/
def part : ListingStage → Option Nat
  | .visit part _ => some part
  | .called | .panicked | .returned => none

def todo : ListingStage → List (String × Pid)
  | .visit _ todo => todo
  | .called | .panicked | .returned => []

end ListingStage

/-- What entering a shard does. -/
inductive NameTable.Enters (t : NameTable) (map : Sharding) (part : Nat) : NameTable → ListingStage → Prop where
  | shard {order : List String} (inside : part < map.count) (whole : order.Perm (t.keysIn map part)) :
      Enters t map part (t.addReader part) (.visit part (t.registry.iter order))
  | past (outside : map.count ≤ part) : Enters t map part t .returned

/-- Everything one step of a listing can do. -/
inductive Listing.Steps (map : Sharding) (t : NameTable) (call : Listing) : NameTable → Listing → Prop where
  | began {later : NameTable} {stage : ListingStage} (here : call.stage = .called)
      (enters : t.Enters map 0 later stage) : Steps map t call later { call with stage }
  | moved {part : Nat} {later : NameTable} {stage : ListingStage} (here : call.stage = .visit part [])
      (enters : (t.dropReader part).Enters map (part + 1) later stage) : Steps map t call later { call with stage }
  | pushed {part : Nat} {entry : String × Pid} {todo : List (String × Pid)}
      (here : call.stage = .visit part (entry :: todo)) (selected : call.kind.selects call.path entry.1 = true) :
      Steps map t call t { call with out := call.out ++ [entry], stage := .visit part todo }
  | skipped {part : Nat} {entry : String × Pid} {todo : List (String × Pid)}
      (here : call.stage = .visit part (entry :: todo)) (unselected : call.kind.selects call.path entry.1 = false) :
      Steps map t call t { call with stage := .visit part todo }

variable {map : Sharding} {t later : NameTable} {call next : Listing}

theorem NameTable.enters_of_enter {part : Nat} {order : List String} {stage : ListingStage}
    (entered : t.enter map part order = some (later, stage)) : t.Enters map part later stage := by
  unfold enter at entered
  split at entered
  · rename_i inside
    split at entered
    · rename_i whole
      cases entered
      exact .shard inside whole
    · cases entered
  · rename_i outside
    cases entered
    exact .past (Nat.not_lt.mp outside)

theorem Listing.steps_of_step {index : Nat} {order : List String} {new : List Listing}
    (stepped : (nameTable map).step index t call order = some (later, next, new)) :
    call.Steps map t later next ∧ new = [] := by
  obtain ⟨⟨_, _⟩, taken, same⟩ := Option.map_eq_some_iff.mp stepped
  cases same
  refine ⟨?_, rfl⟩
  obtain ⟨kind, path, out, stage⟩ := call
  cases stage with
  | called =>
    obtain ⟨⟨_, _⟩, entered, same⟩ := Option.map_eq_some_iff.mp taken
    cases same
    exact .began rfl (NameTable.enters_of_enter entered)
  | visit part todo =>
    cases todo with
    | nil =>
      obtain ⟨⟨_, _⟩, entered, same⟩ := Option.map_eq_some_iff.mp taken
      cases same
      exact .moved rfl (NameTable.enters_of_enter entered)
    | cons entry todo =>
      simp only [step, ListingKind.keeps_eq] at taken
      cases selected : kind.selects path entry.1 with
      | true =>
        rw [selected] at taken
        cases taken
        exact .pushed rfl selected
      | false =>
        rw [selected] at taken
        cases taken
        exact .skipped rfl selected
  | panicked => cases taken
  | returned => cases taken

def nameLocks : Locks NameTable Listing Nat where
  taken t part := t.readers part
  holds part call := if call.stage.part = some part then 1 else 0

theorem NameRegistry.iter_sublist (registry : NameRegistry) (order : List String) :
    ((registry.iter order).map Prod.fst).Sublist order := by
  induction order with
  | nil => exact .slnil
  | cons key order ih =>
    rw [iter, List.filterMap_cons]
    cases registry.names.lookup key with
    | none => exact ih.cons key
    | some pid => exact ih.cons_cons key

namespace NameTable

/-- The entries that an iteration finds in a shard. -/
theorem mem_shard {part : Nat} {order : List String} (whole : order.Perm (t.keysIn map part)) {key : String}
    {pid : Pid} : (key, pid) ∈ t.registry.iter order ↔ t.registry.resolve key = some pid ∧ map.shard key = part := by
  rw [iter, List.mem_filterMap, resolve]
  constructor
  · rintro ⟨other, member, entry⟩
    obtain ⟨value, present, same⟩ := Option.map_eq_some_iff.mp entry
    cases same
    exact ⟨present, of_decide_eq_true (List.mem_filter.mp (whole.mem_iff.mp member)).2⟩
  · rintro ⟨present, own⟩
    have known : key ∈ t.registry.names := AList.lookup_isSome.mp (by rw [present]; rfl)
    refine ⟨key, whole.mem_iff.mpr (List.mem_filter.mpr ⟨known, decide_eq_true own⟩), ?_⟩
    rw [present, Option.map_some]

theorem addReader_readers (t : NameTable) (part other : Nat) :
    (t.addReader part).readers other = t.readers other + if part = other then 1 else 0 :=
  Locks.update_take t.readers part other

theorem dropReader_readers (t : NameTable) (part other : Nat) :
    (t.dropReader part).readers other = t.readers other - if part = other then 1 else 0 :=
  Locks.update_release t.readers part other

theorem Enters.readers {part : Nat} {stage : ListingStage} (enters : t.Enters map part later stage) (other : Nat) :
    later.readers other = t.readers other + if stage.part = some other then 1 else 0 := by
  cases enters with
  | shard inside whole => simp [addReader_readers, ListingStage.part]
  | past outside => simp [ListingStage.part]

theorem Enters.registry {part : Nat} {stage : ListingStage} (enters : t.Enters map part later stage) :
    later.registry = t.registry := by
  cases enters <;> rfl

/-- A change of the table leaves the locked shards alone. -/
structure Tends (map : Sharding) (t later : NameTable) : Prop where
  readers : later.readers = t.readers
  locked : ∀ key, t.readers (map.shard key) ≠ 0 → later.registry.resolve key = t.registry.resolve key

theorem tends_apply {operation : NameOperation} (done : operation.apply map t = some later) : Tends map t later := by
  cases operation with
  | register name pid =>
    simp only [NameOperation.apply] at done
    split at done
    · rename_i unread
      cases done
      refine ⟨rfl, fun key locked => AList.lookup_insert_ne ?_⟩
      rintro rfl
      exact locked unread
    · cases done
  | unregister name =>
    simp only [NameOperation.apply] at done
    split at done
    · rename_i unread
      cases done
      refine ⟨rfl, fun key locked => AList.lookup_erase_ne ?_⟩
      rintro rfl
      exact locked unread
    · cases done

end NameTable

namespace Listing

theorem Steps.registry (steps : call.Steps map t later next) : later.registry = t.registry := by
  cases steps with
  | began here enters => exact enters.registry
  | moved here enters => exact enters.registry
  | pushed here selected => rfl
  | skipped here unselected => rfl

theorem Steps.keeps (steps : call.Steps map t later next)
    (held : ∀ part, nameLocks.holds part call ≤ nameLocks.taken t part) : nameLocks.Keeps t later call next := by
  intro other
  show later.readers other + (if call.stage.part = some other then 1 else 0) =
    t.readers other + if next.stage.part = some other then 1 else 0
  cases steps with
  | began here enters =>
    rw [enters.readers, here]
    rfl
  | @moved part _ _ here enters =>
    have mine : (if call.stage.part = some other then 1 else 0) ≤ t.readers other := held other
    rw [here] at mine ⊢
    rw [enters.readers, NameTable.dropReader_readers]
    simp only [ListingStage.part, Option.some.injEq] at mine ⊢
    omega
  | pushed here selected => simp [here, ListingStage.part]
  | skipped here unselected => simp [here, ListingStage.part]

/-- What a listing relies on: the entries of its shard are still in the table, and
    it has pushed no key twice. -/
structure Sound (map : Sharding) (t : NameTable) (call : Listing) : Prop where
  ahead : ∀ part, call.stage.part = some part → ∀ key pid, (key, pid) ∈ call.stage.todo →
    t.registry.resolve key = some pid ∧ map.shard key = part
  distinct : (call.stage.todo.map Prod.fst).Nodup
  once : (call.out.map Prod.fst).Nodup
  behind : ∀ key ∈ call.out.map Prod.fst, ∀ part, call.stage.part = some part →
    map.shard key < part ∨ map.shard key = part ∧ key ∉ call.stage.todo.map Prod.fst
  early : call.stage = .called → call.out = []
  whole : call.stage ≠ .panicked

theorem sound_new (map : Sharding) (t : NameTable) (kind : ListingKind) (path : String) :
    (new kind path).Sound map t :=
  ⟨by simp [new, ListingStage.part], by simp [new, ListingStage.todo], by simp [new], by simp [new], fun _ => rfl,
    by simp [new]⟩

theorem Sound.kept (sound : call.Sound map t)
    (locked : ∀ key, call.stage.part = some (map.shard key) → later.registry.resolve key = t.registry.resolve key) :
    call.Sound map later := by
  refine ⟨?_, sound.distinct, sound.once, sound.behind, sound.early, sound.whole⟩
  intro part inside key pid member
  obtain ⟨found, same⟩ := sound.ahead part inside key pid member
  refine ⟨?_, same⟩
  rw [locked key (by rw [same]; exact inside)]
  exact found

/-- Coming to a shard, a listing has left all keys it pushed behind. -/
theorem Sound.enters {part : Nat} {stage : ListingStage} (enters : t.Enters map part later stage)
    (once : (call.out.map Prod.fst).Nodup) (behind : ∀ key ∈ call.out.map Prod.fst, map.shard key < part) :
    Sound map later { call with stage } := by
  cases enters with
  | @shard order inside whole =>
    refine ⟨?_, ?_, once, ?_, nofun, nofun⟩
    · intro other same key pid member
      cases same
      exact (NameTable.mem_shard whole).mp member
    · have keys : (t.keysIn map part).Nodup := t.registry.names.nodupKeys.filter _
      exact (whole.nodup_iff.mpr keys).sublist (iter_sublist t.registry order)
    · intro key member other same
      cases same
      exact .inl (behind key member)
  | past outside =>
    exact ⟨by simp [ListingStage.part], by simp [ListingStage.todo], once, by simp [ListingStage.part], nofun, nofun⟩

theorem Steps.sound (steps : call.Steps map t later next) (sound : call.Sound map t) : next.Sound map later := by
  cases steps with
  | began here enters =>
    apply Sound.enters enters sound.once
    rw [sound.early here]
    exact List.forall_mem_nil _
  | @moved part _ _ here enters =>
    apply Sound.enters enters sound.once
    intro key member
    rcases sound.behind key member part (by rw [here]; rfl) with less | ⟨same, -⟩ <;> omega
  | @pushed part entry todo here selected =>
    obtain ⟨ahead, distinct, once, behind, -, -⟩ := sound
    rw [here] at ahead distinct behind
    obtain ⟨absent, rest⟩ := List.nodup_cons.mp distinct
    have own := (ahead part rfl entry.1 entry.2 List.mem_cons_self).2
    have fresh : entry.1 ∉ call.out.map Prod.fst := by
      intro member
      rcases behind entry.1 member part rfl with less | ⟨-, left⟩
      · omega
      · exact left List.mem_cons_self
    refine ⟨?_, rest, ?_, ?_, nofun, nofun⟩
    · exact fun other inside key pid member => ahead other inside key pid (List.mem_cons_of_mem _ member)
    · rw [List.map_append, List.nodup_append]
      refine ⟨once, List.nodup_singleton _, ?_⟩
      intro key member other now
      cases List.mem_singleton.mp now
      exact ne_of_mem_of_not_mem member fresh
    · intro key member other inside
      cases inside
      rw [List.map_append, List.mem_append] at member
      rcases member with old | now
      · rcases behind key old part rfl with less | ⟨same, left⟩
        · exact .inl less
        · exact .inr ⟨same, fun member => left (List.mem_cons_of_mem _ member)⟩
      · cases List.mem_singleton.mp now
        exact .inr ⟨own, absent⟩
  | @skipped part entry todo here unselected =>
    obtain ⟨ahead, distinct, once, behind, -, -⟩ := sound
    rw [here] at ahead distinct behind
    refine ⟨?_, (List.nodup_cons.mp distinct).2, once, ?_, nofun, nofun⟩
    · exact fun other inside key pid member => ahead other inside key pid (List.mem_cons_of_mem _ member)
    · intro key member other inside
      rcases behind key member other inside with less | ⟨same, left⟩
      · exact .inl less
      · exact .inr ⟨same, fun member => left (List.mem_cons_of_mem _ member)⟩

/-- The listing will not miss the key. -/
def Covers (map : Sharding) (key : String) (call : Listing) : Prop :=
  call.stage ≠ .called → key ∈ call.out.map Prod.fst ∨ key ∈ call.stage.todo.map Prod.fst ∨
    ∃ part, call.stage.part = some part ∧ part < map.shard key

theorem covers_of_enters {part : Nat} {stage : ListingStage} {key : String} {pid : Pid}
    (enters : t.Enters map part later stage) (found : t.registry.resolve key = some pid)
    (ahead : part ≤ map.shard key) :
    key ∈ stage.todo.map Prod.fst ∨ ∃ part, stage.part = some part ∧ part < map.shard key := by
  cases enters with
  | shard inside whole =>
    rcases Nat.lt_or_eq_of_le ahead with less | same
    · exact .inr ⟨part, rfl, less⟩
    · exact .inl (List.mem_map_of_mem ((NameTable.mem_shard whole).mpr ⟨found, same.symm⟩))
  | past outside =>
    have bound := map.shard_lt key
    omega

theorem Covers.step {key : String} {pid : Pid} (covers : call.Covers map key) (steps : call.Steps map t later next)
    (listed : call.kind.Lists t.registry call.path (key, pid)) : next.Covers map key := by
  obtain ⟨found, selected⟩ := ListingKind.lists_iff.mp listed
  intro _
  cases steps with
  | began here enters => exact .inr (covers_of_enters enters found (Nat.zero_le _))
  | @moved part _ _ here enters =>
    rcases covers (by simp [here]) with out | todo | ⟨own, inside, less⟩
    · exact .inl out
    · rw [here] at todo
      cases todo
    · rw [here] at inside
      cases inside
      exact .inr (covers_of_enters enters found less)
  | @pushed part entry todo here selected =>
    rcases covers (by simp [here]) with out | ahead | ⟨own, inside, less⟩
    · exact .inl (by simp [out])
    · rw [here] at ahead
      rcases List.mem_cons.mp ahead with same | rest
      · exact .inl (by simp [same])
      · exact .inr (.inl rest)
    · rw [here] at inside
      cases inside
      exact .inr (.inr ⟨_, rfl, less⟩)
  | @skipped part entry todo here unselected =>
    rcases covers (by simp [here]) with out | ahead | ⟨own, inside, less⟩
    · exact .inl out
    · rw [here] at ahead
      rcases List.mem_cons.mp ahead with same | rest
      · rw [same, unselected] at selected
        cases selected
      · exact .inr (.inl rest)
    · rw [here] at inside
      cases inside
      exact .inr (.inr ⟨_, rfl, less⟩)

/-- An entry that a step pushes is one that the whole call would list at that moment. -/
theorem Steps.pushes (steps : call.Steps map t later next) (sound : call.Sound map t) {entry : String × Pid}
    (member : entry ∈ next.out) : entry ∈ call.out ∨ call.kind.Lists t.registry call.path entry := by
  cases steps with
  | pushed here selected =>
    rcases List.mem_append.mp member with old | now
    · exact .inl old
    · cases List.mem_singleton.mp now
      have found := (sound.ahead _ (by rw [here]; rfl) entry.1 entry.2 (by rw [here]; exact List.mem_cons_self)).1
      exact .inr (ListingKind.lists_iff.mpr ⟨found, selected⟩)
  | _ => exact .inl member

theorem Steps.same (steps : call.Steps map t later next) : next.kind = call.kind ∧ next.path = call.path := by
  cases steps <;> exact ⟨rfl, rfl⟩

/-- The listings have the locks that are taken, and rely on the table they find. -/
structure Guarded (map : Sharding) (c : Config NameTable Listing) : Prop where
  locked : nameLocks.Balanced c
  sound : ∀ call ∈ c.threads, call.Sound map c.shared

theorem Guarded.move {c d : Config NameTable Listing} {move : Move Listing (List String) NameOperation}
    (guarded : Guarded map c) (moves : (nameTable map).Moves c move d) : Guarded map d := by
  obtain ⟨locked, sound⟩ := guarded
  cases moves with
  | @start t calls call allowed =>
    have fresh : call = new call.kind call.path := of_decide_eq_true allowed
    rw [fresh]
    refine ⟨locked.start fun part => rfl, ?_⟩
    rw [List.forall_mem_append, List.forall_mem_singleton]
    exact ⟨sound, sound_new map t _ _⟩
  | ambient done =>
    have tends := NameTable.tends_apply done
    refine ⟨locked.ambient fun part => congrFun tends.readers part, ?_⟩
    intro call member
    apply (sound call member).kept
    intro key inside
    apply tends.locked key (locked.taken_of_mem _ member _)
    show (if call.stage.part = some (map.shard key) then 1 else 0) ≠ 0
    rw [if_pos inside]
    exact Nat.one_ne_zero
  | @step t later before after new call next order stepped =>
    obtain ⟨steps, rfl⟩ := steps_of_step stepped
    constructor
    · rw [List.append_nil]
      exact locked.step (steps.keeps fun part => locked.held part)
    · apply Program.forall_moved (steps.sound (sound call (by simp))) _ (List.forall_mem_nil _)
      intro other member
      apply (sound other (Locks.mem_replaced member)).kept
      intro key _
      rw [steps.registry]

theorem guarded_start (map : Sharding) : Guarded map ⟨.new, []⟩ :=
  ⟨Locks.balanced_of_idle (fun _ => rfl) (by simp), by simp⟩

end Listing

/-- What a listing amid changes has to do with listings of the registry as it was at single moments. -/
structure Amid (e : (nameTable map).Execution) (start finish : Nat) (call : Listing) : Prop where
  once : (call.out.map Prod.fst).Nodup
  was : ∀ entry ∈ call.out, ∃ n, start ≤ n ∧ n < finish ∧
    call.kind.Lists (e.config n).shared.registry call.path entry
  whole : ∀ key, (∀ n, start ≤ n → n ≤ finish →
    ∃ pid, call.kind.Lists (e.config n).shared.registry call.path (key, pid)) → key ∈ call.out.map Prod.fst

/-- On a registry that stays the same, a listing amid changes is the whole call. -/
theorem Amid.perm_alone {e : (nameTable map).Execution} {start finish : Nat} (amid : Amid e start finish call)
    {registry : NameRegistry} (still : ∀ n, start ≤ n → n ≤ finish → (e.config n).shared.registry = registry)
    {order : List String} (whole : order.Perm registry.names.keys) {listed : List (String × Pid)}
    (alone : call.kind.alone registry order call.path = some listed) : call.out.Perm listed := by
  have entries : ∀ key pid, (key, pid) ∈ listed ↔ call.kind.Lists registry call.path (key, pid) := by
    intro key pid
    rw [ListingKind.alone_eq] at alone
    cases alone
    rw [List.mem_filter, mem_iter registry whole, ListingKind.lists_iff]
  have once : listed.Nodup := by
    rw [ListingKind.alone_eq] at alone
    cases alone
    apply List.Nodup.filter
    apply List.Nodup.of_map Prod.fst
    rw [iter_keys registry whole]
    exact whole.nodup_iff.mpr registry.names.nodupKeys
  have pushed : ∀ key pid, (key, pid) ∈ call.out → call.kind.Lists registry call.path (key, pid) := by
    intro key pid member
    obtain ⟨n, after, before, listed⟩ := amid.was (key, pid) member
    rwa [still n after (Nat.le_of_lt before)] at listed
  apply (List.perm_ext_iff_of_nodup (amid.once.of_map Prod.fst) once).mpr
  rintro ⟨key, pid⟩
  rw [entries]
  constructor
  · exact pushed key pid
  · intro lists
    have missed := amid.whole key fun n after before => ⟨pid, by rw [still n after before]; exact lists⟩
    obtain ⟨⟨_, other⟩, member, rfl⟩ := List.mem_map.mp missed
    have found := (ListingKind.lists_iff.mp (pushed _ other member)).1
    rw [(ListingKind.lists_iff.mp lists).1] at found
    cases found
    exact member

namespace Naming

variable {e : (nameTable map).Execution} {start index : Nat} {kind : ListingKind} {path : String}

/-- A listing, followed from its start: what it pushed was to be listed at some
    moment, and what is to be listed at every moment it does not miss. -/
structure Followed (e : (nameTable map).Execution) (start index : Nat) (kind : ListingKind) (path : String) (n : Nat)
    (call : Listing) : Prop where
  here : (e.config n).threads[index]? = some call
  same : call.kind = kind ∧ call.path = path
  was : ∀ entry ∈ call.out, ∃ m, start ≤ m ∧ m < n ∧ kind.Lists (e.config m).shared.registry path entry
  covers : ∀ key, (∀ m, start ≤ m → m ≤ n → ∃ pid, kind.Lists (e.config m).shared.registry path (key, pid)) →
    call.Covers map key

theorem guarded (initial : e.config 0 = ⟨.new, []⟩) (n : Nat) : Listing.Guarded map (e.config n) := by
  apply e.always (fun c move d old moves => old.move moves) _ (Nat.zero_le n)
  rw [initial]
  exact Listing.guarded_start map

theorem followed (initial : e.config 0 = ⟨.new, []⟩)
    (called : (e.config start).threads[index]? = some (.new kind path)) {n : Nat} (later : start ≤ n) :
    ∃ call, Followed e start index kind path n call := by
  induction n, later using Nat.le_induction with
  | base => exact ⟨_, called, ⟨rfl, rfl⟩, by simp [Listing.new], fun key _ begun => absurd rfl begun⟩
  | succ n later ih =>
    obtain ⟨call, here, ⟨rfl, rfl⟩, was, covers⟩ := ih
    have earlier : ∀ entry ∈ call.out, ∃ m, start ≤ m ∧ m < n + 1 ∧
        call.kind.Lists (e.config m).shared.registry call.path entry := by
      intro entry member
      obtain ⟨m, after, before, listed⟩ := was entry member
      exact ⟨m, after, Nat.lt_succ_of_lt before, listed⟩
    rcases e.thread_next here with ⟨order, next, new, -, stepped, after⟩ | still
    · obtain ⟨steps, -⟩ := Listing.steps_of_step stepped
      have sound := (guarded initial n).sound call (List.mem_of_getElem? here)
      refine ⟨next, after, steps.same, ?_, ?_⟩
      · intro entry member
        rcases steps.pushes sound member with old | listed
        · exact earlier entry old
        · exact ⟨n, later, Nat.lt_succ_self n, listed⟩
      · intro key always
        obtain ⟨pid, listed⟩ := always n later (Nat.le_succ n)
        exact (covers key fun m after before => always m after (Nat.le_succ_of_le before)).step steps listed
    · exact ⟨call, still, ⟨rfl, rfl⟩, earlier,
        fun key always => covers key fun m after before => always m after (Nat.le_succ_of_le before)⟩

end Naming

/-- While names come and go, a listing never panics, pushes each key once and only
    as the registry had it at some moment, and misses none that it would list at
    every moment. -/
theorem listing_amid_changes {e : (nameTable map).Execution} (initial : e.config 0 = ⟨.new, []⟩)
    {start finish index : Nat} {kind : ListingKind} {path : String} {call : Listing}
    (called : (e.config start).threads[index]? = some (.new kind path)) (later : start ≤ finish)
    (here : (e.config finish).threads[index]? = some call) :
    call.kind = kind ∧ call.path = path ∧ call.stage ≠ .panicked ∧
      (call.stage = .returned → Amid e start finish call) := by
  obtain ⟨last, there, ⟨rfl, rfl⟩, was, covers⟩ := Naming.followed initial called later
  cases here.symm.trans there
  have sound := (Naming.guarded initial finish).sound call (List.mem_of_getElem? here)
  refine ⟨rfl, rfl, sound.whole, fun ended => ⟨sound.once, was, ?_⟩⟩
  intro key always
  rcases covers key always (by simp [ended]) with out | todo | ⟨part, inside, -⟩
  · exact out
  · rw [ended] at todo
    cases todo
  · rw [ended] at inside
    cases inside

def evenAndOdd : Sharding := ⟨2, fun key => key.length % 2, fun key => Nat.mod_lt _ (by decide)⟩

/-- Of two names one changes its pid before the listing comes to it, the other goes after it was listed. -/
def changedMeanwhile : List (Move Listing (List String) NameOperation) :=
  [.ambient (.register "/svc/a" 1), .ambient (.register "/svc/bb" 2), .start (.new .directChildren "/svc"),
    .step 0 ["/svc/a"], .step 0 [], .ambient (.register "/svc/bb" 3), .step 0 ["/svc/bb"],
    .ambient (.unregister "/svc/a"), .step 0 [], .step 0 []]

theorem listing_amid_changes_changedMeanwhile : ∃ e : (nameTable evenAndOdd).Execution, e.config 0 = ⟨.new, []⟩ ∧
    Amid e 3 changedMeanwhile.length ⟨.directChildren, "/svc", [("/svc/a", 1), ("/svc/bb", 3)], .returned⟩ := by
  have ran : ∃ d, (nameTable evenAndOdd).machine.run ⟨.new, []⟩ changedMeanwhile = some d ∧
      d.threads[0]? = some ⟨.directChildren, "/svc", [("/svc/a", 1), ("/svc/bb", 3)], .returned⟩ :=
    (nameTable evenAndOdd).machine.exists_of_check (by decide +kernel)
  obtain ⟨d, reached, listed⟩ := ran
  have here : ((Program.Execution.ofRun (nameTable evenAndOdd) reached).config changedMeanwhile.length).threads[0]? =
      some ⟨.directChildren, "/svc", [("/svc/a", 1), ("/svc/bb", 3)], .returned⟩ := by
    rw [Program.Execution.ofRun_config reached (Nat.le_refl _)]
    exact listed
  exact ⟨.ofRun (nameTable evenAndOdd) reached, rfl, (listing_amid_changes rfl rfl (by decide) here).2.2.2 rfl⟩

end Myrmidon

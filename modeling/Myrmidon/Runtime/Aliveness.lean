import Myrmidon.Runtime.Addressing

namespace Myrmidon

open Slab Transition

def Runtime.isAlive (rt : Runtime) (pid : Pid) : Bool := rt.slab.isValid pid

/-- Every actor ever spawned has its slot or has given it back, and a valid pid is that of an actor with its slot. -/
structure Accounted (w : World) (roster : Roster) : Prop where
  spawned : w.spawned.Perm (roster.holders ++ roster.left)
  valid : ∀ pid, w.runtime.slab.isValid pid = true → ∃ id, (pid, id) ∈ roster.holders

namespace Accounted

variable {w later : World} {roster other rest : Roster}

theorem perm (accounted : Accounted w roster) (perm : roster.Perm other) : Accounted w other := by
  refine ⟨accounted.spawned.trans (perm.holders.append perm.left), fun pid valid => ?_⟩
  obtain ⟨id, member⟩ := accounted.valid pid valid
  exact ⟨id, perm.holders.mem_iff.mp member⟩

theorem quiet (accounted : Accounted w roster) (quiet : w.Quiet later) : Accounted later roster := by
  constructor
  · rw [quiet.spawned]
    exact accounted.spawned
  · rw [quiet.slab]
    exact accounted.valid

theorem effect (accounted : Accounted w (roster.append rest)) (addressed : Addressed w (roster.append rest))
    (wf : w.runtime.slab.WellFormed) (bound : later.runtime.slab.entries.length ≤ 2^32)
    (effect : Effect w later roster other) : Accounted later (other.append rest) := by
  cases effect with
  | quiet quiet => exact accounted.quiet quiet
  | @spawn pid id slab s paths allocated number same =>
    obtain ⟨spawned, valid⟩ := accounted
    subst same
    constructor
    · show ((pid, id) :: w.spawned).Perm ((pid, id) :: (rest.holders ++ rest.left))
      exact spawned.cons _
    · intro other live
      rcases ((wf.isValid_allocate allocated bound).2 other).mp live with rfl | before
      · exact ⟨id, List.mem_cons_self⟩
      · obtain ⟨number, member⟩ := valid other before
        exact ⟨number, List.mem_cons_of_mem _ member⟩
  | close same =>
    subst same
    exact ⟨accounted.spawned, accounted.valid⟩
  | @deallocate pid id same =>
    obtain ⟨spawned, valid⟩ := accounted
    subst same
    have mine := addressed.valid (pid, id) List.mem_cons_self
    constructor
    · show w.spawned.Perm (rest.holders ++ (pid, id) :: rest.left)
      have moved : ((pid, id) :: (rest.holders ++ rest.left)).Perm (rest.holders ++ (pid, id) :: rest.left) :=
        List.perm_middle.symm
      exact spawned.trans moved
    · intro other live
      obtain ⟨different, before⟩ := (SlabAllocator.isValid_deallocate w.runtime.slab pid other mine).mp live
      obtain ⟨number, member⟩ := valid other before
      rcases List.mem_cons.mp member with same | member
      · exact absurd (congrArg Prod.fst same) different
      · exact ⟨number, member⟩

end Accounted

/-- The slots and the record agree as long as no index is used twice. -/
structure Settled (c : Config World Life) : Prop extends Consistent c where
  accounted : c.shared.runtime.slab.entries.length ≤ 2^32 → Accounted c.shared (Roster.of c.threads)

theorem Settled.move {c d : Config World Life} {move : Move Life Fate Operation} (settled : Settled c)
    (moves : lifecycle.Moves c move d) : Settled d := by
  refine ⟨settled.toConsistent.move moves, fun bound => ?_⟩
  cases moves with
  | @start shared threads life allowed =>
    have spawning : life = .spawning := of_decide_eq_true allowed
    have same : Roster.of (threads ++ [life]) = Roster.of threads := by
      simp [spawning, Roster.of, Life.holds, Life.feeds, Life.left]
    rw [same]
    exact settled.accounted bound
  | @step shared later before after new life next fate stepped =>
    have effect := Life.step_effect (Life.steps_of_step stepped)
    have grows := (effect.slab settled.wellFormed).2
    have earlier := Nat.le_trans grows bound
    have split := Roster.perm_split before after life
    have accounted := (settled.accounted earlier).perm split
    have addressed := (settled.addressed earlier).perm split
    exact (accounted.effect addressed settled.wellFormed bound effect).perm (Roster.perm_moved before after new next)
  | @ambient shared later threads operation done =>
    have quiet := ambient_quiet done
    rw [quiet.slab] at bound
    exact (settled.accounted bound).quiet quiet

theorem settled_of_run {supervisor : Supervisor} {pathSupervisors : List Supervisor}
    {moves : List (Move Life Fate Operation)} {d : Config World Life}
    (reached : lifecycle.machine.run ⟨.new supervisor pathSupervisors, []⟩ moves = some d) : Settled d := by
  apply lifecycle.machine.run_invariant
    (fun _ _ _ settled taken => settled.move (lifecycle.moves_of_step taken)) _ reached
  refine ⟨consistent_start supervisor pathSupervisors, fun _ => ⟨.nil, ?_⟩⟩
  intro pid valid
  have empty : SlabAllocator.new.isValid pid = false := by
    simp [SlabAllocator.isValid, SlabAllocator.new]
  cases empty.symm.trans valid

theorem Effect.kept {w later : World} {roster other : Roster} (effect : Effect w later roster other) :
    roster.left ⊆ other.left ∧ w.spawned ⊆ later.spawned := by
  cases effect with
  | quiet quiet =>
    rw [quiet.spawned]
    exact ⟨List.Subset.refl _, List.Subset.refl _⟩
  | spawn allocated number same =>
    subst same
    exact ⟨List.Subset.refl _, List.subset_cons_self _ _⟩
  | close same =>
    subst same
    exact ⟨List.Subset.refl _, List.Subset.refl _⟩
  | deallocate same =>
    subst same
    exact ⟨List.nil_subset _, List.Subset.refl _⟩

/-- What was spawned stays on record, and what gave its slot back has given it back. -/
theorem lifecycle_kept {c d : Config World Life} {move : Move Life Fate Operation} (moves : lifecycle.Moves c move d) :
    (Roster.of c.threads).left ⊆ (Roster.of d.threads).left ∧ c.shared.spawned ⊆ d.shared.spawned := by
  cases moves with
  | @start shared threads life allowed =>
    rw [Roster.of_append]
    exact ⟨List.subset_append_left _ _, List.Subset.refl _⟩
  | @step shared later before after new life next fate stepped =>
    obtain ⟨left, spawned⟩ := (Life.step_effect (Life.steps_of_step stepped)).kept
    refine ⟨fun entry member => ?_, spawned⟩
    have split := (Roster.perm_split before after life).left.mem_iff.mp member
    apply (Roster.perm_moved before after new next).left.mem_iff.mp
    rcases List.mem_append.mp split with mine | others
    · exact List.mem_append_left _ (left mine)
    · exact List.mem_append_right _ others
  | @ambient shared later threads operation done =>
    rw [(ambient_quiet done).spawned]
    exact ⟨List.Subset.refl _, List.Subset.refl _⟩

/-- The actor has exited, the supervisors have been told, its slot has been
    given back, and no sender in the table feeds its mailbox. -/
def Gone (w : World) (lives : List Life) (pid : Pid) (id : Nat) : Prop :=
  ∃ ending, Life.ending id ending ∈ lives ∧ ending.pid = pid ∧ ending.deallocated = true ∧
    w.runtime.mailboxes.lookup pid ≠ some id

/-- What `is_alive` says. -/
structure AliveExact (c : Config World Life) : Prop where
  alive : ∀ pid, c.shared.runtime.isAlive pid = true ↔
    ∃ id life, c.shared.newest pid = some id ∧ life ∈ c.threads ∧ life.holds = some (pid, id)
  dead : ∀ pid id, (pid, id) ∈ c.shared.spawned →
    (c.shared.runtime.isAlive pid = false ∨ c.shared.newest pid ≠ some id) → Gone c.shared c.threads pid id
  unreachable : ∀ pid message, c.shared.runtime.isAlive pid = false →
    c.shared.runtime.send pid message = (.error message, c.shared.runtime)

theorem Addressed.gone_of_left {c : Config World Life} (addressed : Addressed c.shared (Roster.of c.threads))
    {pid : Pid} {id : Nat} (member : (pid, id) ∈ (Roster.of c.threads).left) : Gone c.shared c.threads pid id := by
  obtain ⟨life, present, left⟩ := List.mem_filterMap.mp member
  cases life with
  | ending number ending =>
    simp only [Life.left] at left
    split at left
    · rename_i deallocated
      cases left
      refine ⟨ending, present, rfl, deallocated, fun found => ?_⟩
      obtain ⟨valid, newest⟩ := addressed.key found
      obtain ⟨newer, larger, same⟩ := (addressed.left _ member).2 valid
      rw [newest] at same
      cases same
      exact Nat.lt_irrefl _ larger
    · cases left
  | _ => cases left

/-- In every state of every interleaving `is_alive` tells whether the newest
    actor under a pid has its slot, and all the others are gone. -/
theorem is_alive_exact {supervisor : Supervisor} {pathSupervisors : List Supervisor}
    {moves : List (Move Life Fate Operation)} {d : Config World Life}
    (reached : lifecycle.machine.run ⟨.new supervisor pathSupervisors, []⟩ moves = some d)
    (bound : d.shared.runtime.slab.entries.length ≤ 2^32) : AliveExact d := by
  have settled := settled_of_run reached
  have addressed := settled.addressed bound
  have accounted := settled.accounted bound
  constructor
  · intro pid
    constructor
    · intro alive
      obtain ⟨id, member⟩ := accounted.valid pid alive
      obtain ⟨life, present, holds⟩ := List.mem_filterMap.mp member
      exact ⟨id, life, addressed.recent _ member, present, holds⟩
    · rintro ⟨id, life, newest, present, holds⟩
      exact addressed.valid (pid, id) (List.mem_filterMap.mpr ⟨life, present, holds⟩)
  · intro pid id spawned outdated
    rcases List.mem_append.mp (accounted.spawned.mem_iff.mp spawned) with holder | left
    · rcases outdated with dead | older
      · exact absurd (addressed.valid _ holder) (Bool.eq_false_iff.mp dead)
      · exact absurd (addressed.recent _ holder) older
    · exact addressed.gone_of_left left
  · intro pid message dead
    have absent : d.shared.runtime.mailboxes.lookup pid = none := by
      cases found : d.shared.runtime.mailboxes.lookup pid with
      | none => rfl
      | some id => exact absurd (addressed.key found).1 (Bool.eq_false_iff.mp dead)
    simp only [Runtime.send, absent, Option.bind_none]

theorem is_alive_exact_reused :
    (lifecycle.machine.run ⟨.new .new [], []⟩ slotReused).isSome = true ∧
    ∀ d, lifecycle.machine.run ⟨.new .new [], []⟩ slotReused = some d → AliveExact d := by
  refine ⟨by decide +kernel, fun d reached => is_alive_exact reached ?_⟩
  have slots : (lifecycle.machine.run ⟨.new .new [], []⟩ slotReused).map
      (fun d => d.shared.runtime.slab.entries.length) = some 2 := by
    decide +kernel
  rw [reached, Option.map_some, Option.some.injEq] at slots
  rw [slots]
  decide

end Myrmidon

import Myrmidon.Supervisor.Model
import Myrmidon.Transition.Machine

namespace Myrmidon

open Transition

namespace Supervisor

def linksOf (s : Supervisor) (pid : Pid) : List Pid := (s.links.lookup pid).getD []

def linkCount (s : Supervisor) (p b : Pid) : Nat := ((s.links.lookup p).getD []).count b

def unlink (s : Supervisor) (a b : Pid) : Supervisor := (s.forget a b).forget b a

def forgetAll (s : Supervisor) (pid : Pid) (peers : List Pid) : Supervisor :=
  peers.foldl (fun s peer => s.forget peer pid) s

/-- The clean-up as each of its copies spells it out: take the list of `pid`,
    then visit the peers that it names. -/
def cleanupLinks (s : Supervisor) (pid : Pid) : List Pid × Supervisor :=
  ((s.takeLinks pid).1, (s.takeLinks pid).2.forgetAll pid (s.takeLinks pid).1)

def linkedPids (s : Supervisor) (pid : Pid) : List Pid × Supervisor := s.cleanupLinks pid

def cleanupLinksInternal (s : Supervisor) (pid : Pid) : Supervisor := (s.cleanupLinks pid).2

def removeChild (s : Supervisor) (pid : Pid) : Supervisor := ((s.dropChild pid).unflag pid).cleanupLinksInternal pid

/-- `pid` is neither a key nor in any list. -/
def Forgets (s : Supervisor) (pid : Pid) : Prop :=
  s.links.lookup pid = none ∧ ∀ other pids, s.links.lookup other = some pids → pid ∉ pids

def Symmetric (s : Supervisor) : Prop := ∀ a b, s.linkCount a b = s.linkCount b a

theorem linkCount_forget (s : Supervisor) (peer pid p b : Pid) :
    (s.forget peer pid).linkCount p b = if peer = p ∧ pid = b then 0 else s.linkCount p b := by
  unfold Supervisor.forget
  cases found : s.links.lookup peer with
  | none =>
    dsimp only
    by_cases same : peer = p ∧ pid = b
    · rw [if_pos same, Supervisor.linkCount, ← same.1, found, Option.getD_none, List.count_nil]
    · rw [if_neg same]
  | some pids =>
    dsimp only [Supervisor.linkCount]
    by_cases same : peer = p
    · subst same
      rw [AList.lookup_insert, Option.getD_some, found, Option.getD_some]
      by_cases mine : pid = b
      · rw [if_pos ⟨rfl, mine⟩, List.count_eq_zero]
        simp [mine]
      · rw [if_neg fun both => mine both.2, List.count_filter]
        exact decide_eq_true (Ne.symm mine)
    · rw [AList.lookup_insert_ne (Ne.symm same), if_neg fun both => same both.1]

theorem lookup_forget (s : Supervisor) (peer pid other : Pid) :
    (s.forget peer pid).links.lookup other =
      (s.links.lookup other).map fun pids => if other = peer then pids.filter (· ≠ pid) else pids := by
  unfold forget
  by_cases same : other = peer
  · subst same
    cases found : s.links.lookup other with
    | none => simp [found]
    | some pids => simp
  · cases found : s.links.lookup peer with
    | none => simp [same]
    | some pids =>
      dsimp only
      rw [AList.lookup_insert_ne same]
      simp [same]

theorem lookup_forgetAll (s : Supervisor) (pid : Pid) (peers : List Pid) (other : Pid) :
    (s.forgetAll pid peers).links.lookup other =
      (s.links.lookup other).map fun pids => if other ∈ peers then pids.filter (· ≠ pid) else pids := by
  induction peers generalizing s with
  | nil => simp [forgetAll]
  | cons peer peers ih =>
    have later := ih (s.forget peer pid)
    rw [lookup_forget, Option.map_map] at later
    refine later.trans (Option.map_congr fun pids _ => ?_)
    by_cases same : other = peer
    · subst same
      by_cases again : other ∈ peers <;> simp [again]
    · simp [same]

@[simp] theorem forgetAll_children (s : Supervisor) (pid : Pid) (peers : List Pid) :
    (s.forgetAll pid peers).children = s.children := by
  induction peers generalizing s with
  | nil => rfl
  | cons peer peers ih => exact (ih (s.forget peer pid)).trans (forget_children s peer pid)

@[simp] theorem forgetAll_restarting (s : Supervisor) (pid : Pid) (peers : List Pid) :
    (s.forgetAll pid peers).restarting = s.restarting := by
  induction peers generalizing s with
  | nil => rfl
  | cons peer peers ih => exact (ih (s.forget peer pid)).trans (forget_restarting s peer pid)

@[simp] theorem forget_errors (s : Supervisor) (peer pid : Pid) : (s.forget peer pid).errors = s.errors := by
  unfold forget
  split <;> rfl

@[simp] theorem forgetAll_errors (s : Supervisor) (pid : Pid) (peers : List Pid) :
    (s.forgetAll pid peers).errors = s.errors := by
  induction peers generalizing s with
  | nil => rfl
  | cons peer peers ih => exact (ih (s.forget peer pid)).trans (forget_errors s peer pid)

theorem lookup_cleanup (s : Supervisor) (pid other : Pid) :
    (s.cleanupLinksInternal pid).links.lookup other = if other = pid then none else
      (s.links.lookup other).map fun pids => if other ∈ s.linksOf pid then pids.filter (· ≠ pid) else pids := by
  have visited := lookup_forgetAll (s.takeLinks pid).2 pid (s.takeLinks pid).1 other
  apply visited.trans
  by_cases same : other = pid
  · subst same
    rw [if_pos rfl, takeLinks, AList.lookup_erase, Option.map_none]
  · rw [if_neg same, takeLinks, AList.lookup_erase_ne same]
    rfl

theorem count_linksOf (s : Supervisor) (p b : Pid) : (s.linksOf p).count b = s.linkCount p b := rfl

theorem mem_linksOf (s : Supervisor) (p b : Pid) :
    b ∈ s.linksOf p ↔ ∃ pids, s.links.lookup p = some pids ∧ b ∈ pids := by
  unfold linksOf
  cases s.links.lookup p <;> simp

theorem Symmetric.mem_linksOf {s : Supervisor} (symmetric : s.Symmetric) (p b : Pid) :
    b ∈ s.linksOf p ↔ p ∈ s.linksOf b := by
  rw [← List.count_pos_iff, ← List.count_pos_iff, count_linksOf, count_linksOf, symmetric p b]

/-- Where the table is symmetric, the peers that the list of `pid` names are all there are. -/
theorem Symmetric.lookup_cleanup {s : Supervisor} (symmetric : s.Symmetric) (pid other : Pid) :
    (s.cleanupLinksInternal pid).links.lookup other =
      if other = pid then none else (s.links.lookup other).map fun pids => pids.filter (· ≠ pid) := by
  rw [Supervisor.lookup_cleanup]
  by_cases same : other = pid
  · rw [if_pos same, if_pos same]
  · rw [if_neg same, if_neg same]
    refine Option.map_congr fun pids found => ?_
    by_cases named : other ∈ s.linksOf pid
    · rw [if_pos named]
    · rw [if_neg named]
      have absent : pid ∉ pids := by
        intro member
        apply named
        rw [symmetric.mem_linksOf, Supervisor.mem_linksOf]
        exact ⟨pids, found, member⟩
      symm
      rw [List.filter_eq_self]
      intro other member
      exact decide_eq_true fun same => absent (same ▸ member)

theorem Symmetric.linkCount_cleanup {s : Supervisor} (symmetric : s.Symmetric) (pid a b : Pid) :
    (s.cleanupLinksInternal pid).linkCount a b = if a = pid ∨ b = pid then 0 else s.linkCount a b := by
  rw [linkCount, symmetric.lookup_cleanup]
  by_cases first : a = pid
  · simp [first]
  · rw [if_neg first, linkCount]
    cases s.links.lookup a with
    | none => simp
    | some pids =>
      rw [Option.map_some, Option.getD_some, Option.getD_some]
      by_cases second : b = pid
      · rw [if_pos (.inr second), List.count_eq_zero]
        simp [second]
      · rw [if_neg (by simp [first, second]), List.count_filter]
        exact decide_eq_true second

theorem Symmetric.cleanup_forgets {s : Supervisor} (symmetric : s.Symmetric) (pid : Pid) :
    (s.cleanupLinksInternal pid).Forgets pid := by
  constructor
  · rw [symmetric.lookup_cleanup, if_pos rfl]
  · intro other pids found member
    rw [symmetric.lookup_cleanup] at found
    split at found
    · cases found
    · obtain ⟨old, -, rfl⟩ := Option.map_eq_some_iff.mp found
      simp at member

theorem Symmetric.cleanup {s : Supervisor} (symmetric : s.Symmetric) (pid : Pid) :
    (s.cleanupLinksInternal pid).Symmetric := by
  intro a b
  rw [symmetric.linkCount_cleanup, symmetric.linkCount_cleanup, symmetric a b]
  simp only [or_comm]

theorem linkCount_pushLink (s : Supervisor) (x y a b : Pid) :
    (s.pushLink x y).linkCount a b = s.linkCount a b + if a = x ∧ b = y then 1 else 0 := by
  unfold pushLink linkCount
  by_cases same : a = x
  · subst same
    rw [AList.lookup_insert, Option.getD_some, List.count_append, List.count_singleton]
    simp only [beq_iff_eq, true_and, @eq_comm Pid y]
  · dsimp only
    rw [AList.lookup_insert_ne same, if_neg fun both => same both.1, Nat.add_zero]

theorem linkCount_link (s : Supervisor) (x y a b : Pid) :
    (s.link x y).linkCount a b =
      s.linkCount a b + (if a = x ∧ b = y then 1 else 0) + if a = y ∧ b = x then 1 else 0 := by
  rw [link, linkCount_pushLink, linkCount_pushLink]

theorem linkCount_unlink (s : Supervisor) (x y a b : Pid) :
    (s.unlink x y).linkCount a b = if (a = x ∧ b = y) ∨ (a = y ∧ b = x) then 0 else s.linkCount a b := by
  rw [unlink, linkCount_forget, linkCount_forget]
  simp only [@eq_comm Pid x, @eq_comm Pid y]
  by_cases first : a = x ∧ b = y <;> by_cases second : a = y ∧ b = x <;> simp [first, second]

theorem Symmetric.link {s : Supervisor} (symmetric : s.Symmetric) (x y : Pid) : (s.link x y).Symmetric := by
  intro a b
  rw [linkCount_link, linkCount_link, symmetric a b, Nat.add_right_comm]
  simp only [and_comm]

theorem Symmetric.unlink {s : Supervisor} (symmetric : s.Symmetric) (x y : Pid) : (s.unlink x y).Symmetric := by
  intro a b
  rw [linkCount_unlink, linkCount_unlink, symmetric a b]
  simp only [and_comm, or_comm]

end Supervisor

inductive Pairing where
  | link (a b : Pid)
  | unlink (a b : Pid)
  deriving DecidableEq

def Pairing.apply (s : Supervisor) : Pairing → Supervisor
  | .link a b => s.link a b
  | .unlink a b => s.unlink a b

/-- The calls that write to the link table, each of them whole. -/
inductive LinkCall where
  | pair (call : Pairing)
  | removeChild (pid : Pid)
  | linkedPids (pid : Pid)
  | restartCleanup (pid : Pid)
  deriving DecidableEq

def LinkCall.apply (s : Supervisor) : LinkCall → Supervisor
  | .pair call => call.apply s
  | .removeChild pid => s.removeChild pid
  | .linkedPids pid => (s.linkedPids pid).2
  | .restartCleanup pid => s.cleanupLinksInternal pid

/-- The pid that the call takes out of the table. -/
def LinkCall.dead : LinkCall → Option Pid
  | .pair _ => none
  | .removeChild pid | .linkedPids pid | .restartCleanup pid => some pid

def linkTable : Machine Supervisor LinkCall where
  step s call := some (call.apply s)

theorem LinkCall.apply_symmetric {s : Supervisor} (symmetric : s.Symmetric) (call : LinkCall) :
    (call.apply s).Symmetric := by
  cases call with
  | pair call =>
    cases call with
    | link a b => exact symmetric.link a b
    | unlink a b => exact symmetric.unlink a b
  | removeChild pid =>
    have dropped : ((s.dropChild pid).unflag pid).Symmetric := symmetric
    exact dropped.cleanup pid
  | linkedPids pid => exact symmetric.cleanup pid
  | restartCleanup pid => exact symmetric.cleanup pid

theorem LinkCall.apply_forgets {s : Supervisor} (symmetric : s.Symmetric) {call : LinkCall} {pid : Pid}
    (dead : call.dead = some pid) : (call.apply s).Forgets pid := by
  cases call with
  | pair call => cases dead
  | removeChild pid =>
    cases dead
    have dropped : ((s.dropChild pid).unflag pid).Symmetric := symmetric
    exact dropped.cleanup_forgets pid
  | linkedPids pid =>
    cases dead
    exact symmetric.cleanup_forgets pid
  | restartCleanup pid =>
    cases dead
    exact symmetric.cleanup_forgets pid

theorem Supervisor.symmetric_of_empty {s : Supervisor} (empty : s.links = ∅) : s.Symmetric := by
  intro a b
  rw [linkCount, linkCount, empty, AList.lookup_empty, AList.lookup_empty]
  rfl

theorem run_symmetric {start s : Supervisor} {calls : List LinkCall} (empty : start.links = ∅)
    (reached : linkTable.run start calls = some s) : s.Symmetric := by
  refine linkTable.run_invariant ?_ (Supervisor.symmetric_of_empty empty) reached
  intro s call t symmetric stepped
  cases stepped
  exact LinkCall.apply_symmetric symmetric call

/-- Whatever calls the table has seen, it is symmetric, the next call that takes
    a pid out leaves nothing of it, and `linked_pids` returns the peers that
    named the pid, as often as they did. -/
theorem links_symmetric_and_forget {start s : Supervisor} {calls : List LinkCall} (empty : start.links = ∅)
    (reached : linkTable.run start calls = some s) :
    (∀ a b, s.linkCount a b = s.linkCount b a) ∧
    (∀ call pid, LinkCall.dead call = some pid → ∀ t, linkTable.step s call = some t → t.Forgets pid) ∧
    ∀ pid b, (b ∈ (s.linkedPids pid).1 ↔ ∃ pids, s.links.lookup b = some pids ∧ pid ∈ pids) ∧
      (s.linkedPids pid).1.count b = s.linkCount b pid := by
  have symmetric := run_symmetric empty reached
  refine ⟨symmetric, ?_, ?_⟩
  · intro call pid dead t stepped
    cases stepped
    exact LinkCall.apply_forgets symmetric dead
  · intro pid b
    have listed : b ∈ s.linksOf pid ↔ pid ∈ s.linksOf b := symmetric.mem_linksOf pid b
    rw [Supervisor.mem_linksOf s b pid] at listed
    exact ⟨listed, symmetric pid b⟩

/-- Two links between the same pids, a self-link and one that is undone. -/
def linkHistory : List LinkCall :=
  [.pair (.link 1 2), .pair (.link 2 1), .pair (.link 1 1), .pair (.link 3 1), .pair (.unlink 1 3)]

theorem links_symmetric_and_forget_history : ∃ s, linkTable.run .new linkHistory = some s ∧
    (s.linkedPids 2).1 = [1, 1] ∧ (s.linkedPids 2).1.count 1 = s.linkCount 1 2 := by
  have told : ((linkTable.run .new linkHistory).map fun s => decide ((s.linkedPids 2).1 = [1, 1])) = some true := by
    decide +kernel
  obtain ⟨s, reached, peers⟩ := linkTable.exists_of_check told
  exact ⟨s, reached, peers, ((links_symmetric_and_forget rfl reached).2.2 2 1).2⟩

/-- A call of `remove_child` or `unwatch` that nothing interrupts. -/
def Removal.alone : Machine (Supervisor × Removal) Unit where
  step c _ := c.2.step c.1

theorem Removal.alone_retain (s : Supervisor) (pid : Pid) (links : Bool) (peers : List Pid) :
    Removal.alone.run (s, ⟨pid, links, .retain peers⟩) (List.replicate (peers.length + 1) ()) =
      some (s.forgetAll pid peers, ⟨pid, links, .returned⟩) := by
  induction peers generalizing s with
  | nil => rfl
  | cons peer peers ih => exact ih (s.forget peer pid)

/-- The steps of `remove_child`, taken one after the other, are the whole call. -/
theorem Removal.alone_removeChild (s : Supervisor) (pid : Pid) :
    Removal.alone.run (s, .removeChild pid) (List.replicate ((s.linksOf pid).length + 4) ()) =
      some (s.removeChild pid, ⟨pid, true, .returned⟩) :=
  Removal.alone_retain (((s.dropChild pid).unflag pid).takeLinks pid).2 pid true (s.linksOf pid)

end Myrmidon

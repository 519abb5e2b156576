import Myrmidon.Buffer.Registry

namespace Myrmidon.Buffer

open Transition

/-- The pid has a mailbox whose receiver still exists. -/
def takes (rt : Runtime) (pid : Pid) : Bool :=
  ((rt.mailboxes.lookup pid).bind fun number => rt.actors[number]?).any fun mailbox => mailbox.user.receiverAlive

/-- The mailbox of the pid has the bytes at the end of its queue, and every other mailbox is as it was. -/
structure Enqueued (before after : Runtime) (pid : Pid) (number : Nat) (bytes : Bytes) : Prop where
  found : before.mailboxes.lookup pid = some number
  own : ∃ old new, before.actors[number]? = some old ∧ after.actors[number]? = some new ∧
    new.user.queue = old.user.queue ++ [bytes]
  others : ∀ other, other ≠ number → after.actors[other]? = before.actors[other]?

/-- A send is accepted exactly by such a mailbox, and then it is in its queue. -/
theorem send_user (rt : Runtime) (pid : Pid) (bytes : Bytes) :
    (takes rt pid = true ∧ ∃ number, (rt.send pid (.user bytes)).1 = .ok () ∧
      Enqueued rt (rt.send pid (.user bytes)).2 pid number bytes) ∨
    (takes rt pid = false ∧ (rt.send pid (.user bytes)).1 = .error (.user bytes)) := by
  cases found : rt.mailboxes.lookup pid with
  | none => exact .inr ⟨by simp [takes, found], by simp [Runtime.send, found]⟩
  | some number =>
    cases present : rt.actors[number]? with
    | none => exact .inr ⟨by simp [takes, found, present], by simp [Runtime.send, found, present]⟩
    | some mailbox =>
      have inside := (List.getElem?_eq_some_iff.mp present).1
      have sent : rt.send pid (.user bytes) = ((mailbox.send (.user bytes)).1,
          { rt with actors := rt.actors.set number (mailbox.send (.user bytes)).2 }) := by
        simp only [Runtime.send, found, present, Option.bind_some, Option.map_some]
      rw [sent]
      cases alive : mailbox.user.receiverAlive with
      | false =>
        refine .inr ⟨by simp [takes, found, present, alive], ?_⟩
        simp [Mailbox.send, Data.Channel.send, alive]
      | true =>
        refine .inl ⟨by simp [takes, found, present, alive], number, ?_, found, ?_, ?_⟩
        · simp [Mailbox.send, Data.Channel.send, alive]
        · refine ⟨mailbox, (mailbox.send (.user bytes)).2, present, List.getElem?_set_self inside, ?_⟩
          simp [Mailbox.send, Data.Channel.send, alive]
        · intro other different
          exact List.getElem?_set_ne (Ne.symm different)

namespace BufferWorld

/-- In how many places the buffer with this id is. -/
def places (w : BufferWorld) (id : BufferId) : Nat :=
  (if id ∈ w.registry.inner then 1 else 0) + (w.delivered.map Prod.fst).count id + w.freed.count id

/-- A move that moves no buffer out of reach: the next id may be drawn, for a
    buffer or in vain, and buffers may change their place. -/
inductive Keeps (w later : BufferWorld) : Prop where
  | kept (issued : later.issued = w.issued) (next : later.registry.next = w.registry.next)
      (allocated : later.allocated = w.allocated) (places : ∀ id, later.places id = w.places id)
  | drawn (issued : later.issued = w.issued + 1) (next : later.registry.next = w.registry.next + 1)
      (allocated : later.allocated = w.allocated)
      (places : ∀ id, id ≠ w.registry.next → later.places id = w.places id)
      (gone : w.places w.registry.next = 0 → later.places w.registry.next = 0)
  | allocates (issued : later.issued = w.issued + 1) (next : later.registry.next = w.registry.next + 1)
      (allocated : later.allocated = w.allocated ++ [w.registry.next])
      (places : ∀ id, id ≠ w.registry.next → later.places id = w.places id)
      (new : w.places w.registry.next = 0 → later.places w.registry.next = 1)

/-- A move that takes a buffer from the registry and puts it nowhere. -/
structure Loses (w later : BufferWorld) (id : BufferId) : Prop where
  issued : later.issued = w.issued
  next : later.registry.next = w.registry.next
  allocated : later.allocated = w.allocated
  held : id ∈ w.registry.inner
  places : ∀ other, later.places other + (if other = id then 1 else 0) = w.places other

theorem keeps_allocate (w : BufferWorld) (size : Nat) (made : Made) : w.Keeps (w.allocateBuffer size made).2 := by
  have length : BufferRegistry.ptrLen ⟨w.registry.inner.insert w.registry.next (List.replicate size 0),
      w.registry.next + 1⟩ w.registry.next = some size := by
    simp [BufferRegistry.ptrLen]
  cases made with
  | all =>
    refine .allocates ?_ ?_ ?_ ?_ ?_ <;> simp only [allocateBuffer, BufferRegistry.allocate, length]
    · intro id other
      simp [places, AList.mem_insert, other]
    · intro none
      simp only [places] at none ⊢
      rw [if_pos (AList.mem_insert _ |>.mpr (.inl rfl))]
      omega
  | noMemoryview | noCapsule =>
    refine .drawn ?_ ?_ ?_ ?_ ?_ <;>
      simp only [allocateBuffer, BufferRegistry.allocate, BufferRegistry.free, length]
    · intro id other
      simp [places, AList.mem_insert, other]
    · intro none
      simp only [places] at none ⊢
      rw [if_neg (by simp)]
      omega

theorem send_cases (w : BufferWorld) (pid : Pid) (id : BufferId) :
    (id ∉ w.registry.inner ∧ (w.sendBuffer pid id).1 = .error "invalid buffer id or already taken" ∧
      (w.sendBuffer pid id).2 = w) ∨
    (∃ bytes number, w.registry.inner.lookup id = some bytes ∧ takes w.runtime pid = true ∧
      (w.sendBuffer pid id).1 = .ok true ∧
      Enqueued w.runtime (w.sendBuffer pid id).2.runtime pid number bytes ∧
      (w.sendBuffer pid id).2 = { w with
        registry := w.registry.free id, runtime := (w.runtime.send pid (.user bytes)).2,
        delivered := w.delivered ++ [(id, number)] }) ∨
    (∃ bytes, w.registry.inner.lookup id = some bytes ∧ takes w.runtime pid = false ∧
      (w.sendBuffer pid id).1 = .ok false ∧
      (w.sendBuffer pid id).2 = { w with
        registry := w.registry.free id, runtime := (w.runtime.send pid (.user bytes)).2 }) := by
  cases found : w.registry.inner.lookup id with
  | none => exact .inl ⟨AList.lookup_eq_none.mp found, by simp [sendBuffer, BufferRegistry.take, found]⟩
  | some bytes =>
    rcases send_user w.runtime pid bytes with ⟨able, number, accepted, enqueued⟩ | ⟨unable, refused⟩
    · cases sent : w.runtime.send pid (.user bytes) with
      | mk result runtime =>
        rw [sent] at accepted enqueued
        cases accepted
        have mailbox := enqueued.found
        refine .inr (.inl ⟨bytes, number, rfl, able, ?_, ?_, ?_⟩) <;>
          simp [sendBuffer, BufferRegistry.take, BufferRegistry.free, found, sent, mailbox]
        exact enqueued
    · cases sent : w.runtime.send pid (.user bytes) with
      | mk result runtime =>
        rw [sent] at refused
        cases refused
        refine .inr (.inr ⟨bytes, rfl, unable, ?_, ?_⟩) <;>
          simp [sendBuffer, BufferRegistry.take, BufferRegistry.free, found, sent]

end BufferWorld

/-- A registered buffer is only sent to a mailbox that takes it. -/
def SentToReceiver (w : BufferWorld) : BufferMove → Prop
  | .send pid id => id ∈ w.registry.inner → takes w.runtime pid = true
  | .allocate _ _ | .fill _ _ | .destroy _ | .runtime _ => True

instance (w : BufferWorld) : DecidablePred (SentToReceiver w)
  | .send pid id => inferInstanceAs (Decidable (id ∈ w.registry.inner → takes w.runtime pid = true))
  | .allocate _ _ | .fill _ _ | .destroy _ | .runtime _ => .isTrue trivial

namespace BufferWorld

theorem places_of_free {w : BufferWorld} {id : BufferId} (held : id ∈ w.registry.inner) (other : BufferId) :
    (if other ∈ (w.registry.free id).inner then 1 else 0) + (if other = id then 1 else 0) =
      if other ∈ w.registry.inner then 1 else 0 := by
  by_cases same : other = id
  · simp [BufferRegistry.free, same, held]
  · simp [BufferRegistry.free, same]

theorem moved_of_send (w : BufferWorld) (pid : Pid) (id : BufferId) :
    (SentToReceiver w (.send pid id) ∧ w.Keeps (w.sendBuffer pid id).2) ∨
      (¬ SentToReceiver w (.send pid id) ∧ w.Loses (w.sendBuffer pid id).2 id) := by
  rcases w.send_cases pid id with
    ⟨absent, -, same⟩ | ⟨bytes, number, found, able, -, -, same⟩ | ⟨bytes, found, unable, -, same⟩
  · rw [same]
    exact .inl ⟨fun held => absurd held absent, .kept rfl rfl rfl fun _ => rfl⟩
  · have held : id ∈ w.registry.inner := AList.lookup_isSome.mp (by simp [found])
    rw [same]
    refine .inl ⟨fun _ => able, .kept rfl rfl rfl fun other => ?_⟩
    have taken := places_of_free held other
    have count : ((w.delivered ++ [(id, number)]).map Prod.fst).count other =
        (w.delivered.map Prod.fst).count other + if other = id then 1 else 0 := by
      by_cases same : other = id
      · simp [same]
      · simp [same, Ne.symm same]
    simp only [places, count]
    omega
  · have held : id ∈ w.registry.inner := AList.lookup_isSome.mp (by simp [found])
    rw [same]
    refine .inr ⟨fun able => by simp [able held] at unable, rfl, rfl, rfl, held, fun other => ?_⟩
    have taken := places_of_free held other
    simp only [places]
    omega

theorem keeps_destructor (w : BufferWorld) (id : BufferId) : w.Keeps (w.capsuleDestructor id) := by
  refine .kept rfl rfl rfl fun other => ?_
  by_cases held : id ∈ w.registry.inner
  · have taken := places_of_free held other
    have count : (w.freed ++ [id]).count other = w.freed.count other + if other = id then 1 else 0 := by
      by_cases same : other = id
      · simp [same]
      · simp [same, Ne.symm same]
    simp only [places, capsuleDestructor, if_pos held, count]
    omega
  · have untouched : (other ∈ (w.registry.free id).inner) = (other ∈ w.registry.inner) := by
      by_cases same : other = id
      · simp [BufferRegistry.free, same, held]
      · simp [BufferRegistry.free, same]
    simp only [places, capsuleDestructor, if_neg held, untouched]

theorem moved_of_step {w later : BufferWorld} {move : BufferMove} (stepped : buffers.step w move = some later) :
    (SentToReceiver w move ∧ w.Keeps later) ∨ (¬ SentToReceiver w move ∧ ∃ id, w.Loses later id) := by
  cases move with
  | allocate size made =>
    cases stepped
    exact .inl ⟨trivial, w.keeps_allocate size made⟩
  | fill id bytes =>
    simp only [buffers, fill] at stepped
    split at stepped
    · rename_i length
      cases stepped
      have held : id ∈ w.registry.inner := by
        obtain ⟨old, found, -⟩ := Option.map_eq_some_iff.mp length
        exact AList.lookup_isSome.mp (by simp [found])
      refine .inl ⟨trivial, .kept rfl rfl rfl fun other => ?_⟩
      by_cases same : other = id
      · simp [places, same, held]
      · simp [places, same]
    · cases stepped
  | send pid id =>
    cases stepped
    rcases w.moved_of_send pid id with kept | ⟨unsent, loses⟩
    · exact .inl kept
    · exact .inr ⟨unsent, id, loses⟩
  | destroy id =>
    simp only [buffers] at stepped
    split at stepped
    · cases stepped
      exact .inl ⟨trivial, w.keeps_destructor id⟩
    · cases stepped
  | runtime change =>
    cases stepped
    exact .inl ⟨trivial, .kept rfl rfl rfl fun _ => rfl⟩

/-- The ids count up from one; the ids that callers have were drawn before. -/
structure Numbered (w : BufferWorld) : Prop where
  next : w.registry.next = BitVec.ofNat 64 (w.issued + 1)
  drawn : ∀ id ∈ w.allocated, (id - 1).toNat < w.issued

theorem Numbered.next_index {w : BufferWorld} (numbered : w.Numbered) (few : w.issued < 2 ^ 64) :
    (w.registry.next - 1).toNat = w.issued := by
  have index : w.registry.next - 1 = BitVec.ofNat 64 w.issued := by
    rw [numbered.next, BitVec.ofNat_add]
    exact BitVec.add_sub_cancel _ _
  rw [index, BitVec.toNat_ofNat, Nat.mod_eq_of_lt few]

theorem Numbered.next_unused {w : BufferWorld} (numbered : w.Numbered) (few : w.issued < 2 ^ 64) :
    w.registry.next ∉ w.allocated := by
  intro member
  have less := numbered.drawn _ member
  rw [numbered.next_index few] at less
  omega

theorem Numbered.keeps {w later : BufferWorld} (numbered : w.Numbered) (keeps : w.Keeps later)
    (few : later.issued ≤ 2 ^ 64) : later.Numbered := by
  cases keeps with
  | kept issued next allocated _ =>
    refine ⟨?_, ?_⟩
    · rw [next, issued]
      exact numbered.next
    · rw [allocated, issued]
      exact numbered.drawn
  | drawn issued next allocated _ _ =>
    refine ⟨?_, fun id member => ?_⟩
    · rw [next, issued, numbered.next]
      exact (BitVec.ofNat_add _ _).symm
    · rw [allocated] at member
      have less := numbered.drawn id member
      omega
  | allocates issued next allocated _ _ =>
    refine ⟨?_, fun id member => ?_⟩
    · rw [next, issued, numbered.next]
      exact (BitVec.ofNat_add _ _).symm
    · rw [allocated] at member
      rcases List.mem_append.mp member with old | new
      · have less := numbered.drawn id old
        omega
      · rw [List.mem_singleton.mp new, numbered.next_index (by omega)]
        omega

/-- Every buffer that a caller got is in one place, and no other id is anywhere. -/
structure Balanced (w : BufferWorld) : Prop where
  numbered : w.Numbered
  places : ∀ id, w.places id = if id ∈ w.allocated then 1 else 0

theorem new_balanced (runtime : Runtime) : (new runtime).Balanced := by
  refine ⟨⟨rfl, by simp [new]⟩, fun id => ?_⟩
  simp [places, new, BufferRegistry.new]

theorem Balanced.keeps {w later : BufferWorld} (balanced : w.Balanced) (keeps : w.Keeps later)
    (few : later.issued ≤ 2 ^ 64) : later.Balanced := by
  refine ⟨balanced.numbered.keeps keeps few, fun id => ?_⟩
  cases keeps with
  | kept issued next allocated places => rw [places, allocated, balanced.places]
  | drawn issued next allocated places gone =>
    rw [allocated]
    by_cases mine : id = w.registry.next
    · have unused := balanced.numbered.next_unused (by omega)
      have none := balanced.places w.registry.next
      rw [if_neg unused] at none
      rw [mine, gone none, if_neg unused]
    · rw [places id mine, balanced.places]
  | allocates issued next allocated places new =>
    rw [allocated]
    by_cases mine : id = w.registry.next
    · have none := balanced.places w.registry.next
      rw [if_neg (balanced.numbered.next_unused (by omega))] at none
      rw [mine, new none, if_pos (by simp)]
    · rw [places id mine, balanced.places]
      simp [mine]

/-- The buffer that one of the callers has an id of is nowhere any more. -/
structure Lost (w : BufferWorld) : Prop where
  numbered : w.Numbered
  gone : ∃ id ∈ w.allocated, w.places id = 0

theorem Balanced.loses {w later : BufferWorld} {id : BufferId} (balanced : w.Balanced) (loses : w.Loses later id) :
    later.Lost := by
  have placed : 0 < w.places id := by
    unfold BufferWorld.places
    rw [if_pos loses.held]
    omega
  have member : id ∈ w.allocated := by
    by_contra absent
    rw [balanced.places, if_neg absent] at placed
    omega
  have before := balanced.places id
  have after := loses.places id
  rw [if_pos member] at before
  rw [if_pos rfl] at after
  refine ⟨⟨?_, ?_⟩, id, ?_, by omega⟩
  · rw [loses.next, loses.issued]
    exact balanced.numbered.next
  · rw [loses.allocated, loses.issued]
    exact balanced.numbered.drawn
  · rw [loses.allocated]
    exact member

theorem Lost.step {w later : BufferWorld} {move : BufferMove} (lost : w.Lost)
    (stepped : buffers.step w move = some later) (few : later.issued ≤ 2 ^ 64) : later.Lost := by
  obtain ⟨numbered, id, member, gone⟩ := lost
  rcases moved_of_step stepped with ⟨-, keeps⟩ | ⟨-, other, loses⟩
  · refine ⟨numbered.keeps keeps few, id, ?_, ?_⟩
    · cases keeps with
      | kept _ _ allocated _ | drawn _ _ allocated _ _ =>
        rw [allocated]
        exact member
      | allocates _ _ allocated _ _ =>
        rw [allocated]
        exact List.mem_append_left _ member
    · -- A new buffer has an id of its own.
      have old : w.issued < 2 ^ 64 → id ≠ w.registry.next := by
        intro few same
        exact numbered.next_unused few (same ▸ member)
      cases keeps with
      | kept _ _ _ places => rw [places, gone]
      | drawn issued _ _ places _ | allocates issued _ _ places _ => rw [places id (old (by omega)), gone]
  · have after := loses.places id
    refine ⟨⟨?_, ?_⟩, id, ?_, by omega⟩
    · rw [loses.next, loses.issued]
      exact numbered.next
    · rw [loses.allocated, loses.issued]
      exact numbered.drawn
    · rw [loses.allocated]
      exact member

theorem issued_le {w later : BufferWorld} {move : BufferMove} (stepped : buffers.step w move = some later) :
    w.issued ≤ later.issued := by
  rcases moved_of_step stepped with ⟨-, keeps⟩ | ⟨-, id, loses⟩
  · cases keeps with
    | kept issued _ _ _ | drawn issued _ _ _ _ | allocates issued _ _ _ _ => omega
  · exact Nat.le_of_eq loses.issued.symm

theorem balanced_or_lost {runtime : Runtime} {moves : List BufferMove} {w : BufferWorld}
    (reached : buffers.run (new runtime) moves = some w) :
    (buffers.Meets SentToReceiver (new runtime) moves ∧ (w.issued ≤ 2 ^ 64 → w.Balanced)) ∨
      (¬ buffers.Meets SentToReceiver (new runtime) moves ∧ (w.issued ≤ 2 ^ 64 → w.Lost)) := by
  apply buffers.run_dichotomy (P := fun w => w.issued ≤ 2 ^ 64 → w.Balanced) (Q := fun w => w.issued ≤ 2 ^ 64 → w.Lost)
  · intro s move t hold sent stepped few
    have before := issued_le stepped
    rcases moved_of_step stepped with ⟨-, keeps⟩ | ⟨unsent, -⟩
    · exact (hold (by omega)).keeps keeps few
    · exact absurd sent unsent
  · intro s move t hold unsent stepped few
    have before := issued_le stepped
    rcases moved_of_step stepped with ⟨sent, -⟩ | ⟨-, id, loses⟩
    · exact absurd sent unsent
    · exact (hold (by omega)).loses loses
  · intro s move t hold stepped few
    have before := issued_le stepped
    exact (hold (by omega)).step stepped few
  · exact fun _ => new_balanced runtime
  · exact reached

/-- As long as the ids have not run out: every buffer is in exactly one place, the
    registry, one mailbox or freed by its capsule, exactly if no registered
    buffer was sent to a pid without a receiver. A send that returns true puts the
    bytes into one mailbox, and one that returns false puts them nowhere. -/
theorem buffers_placed_once_iff (runtime : Runtime) (moves : List BufferMove) (w : BufferWorld)
    (reached : buffers.run (new runtime) moves = some w) (few : w.issued ≤ 2 ^ 64) :
    ((∀ id ∈ w.allocated, w.places id = 1) ↔ buffers.Meets SentToReceiver (new runtime) moves) ∧
      ∀ pid id bytes, w.registry.inner.lookup id = some bytes →
        ((w.sendBuffer pid id).1 = .ok true ∧ ∃ number,
          Enqueued w.runtime (w.sendBuffer pid id).2.runtime pid number bytes) ∨
        ((w.sendBuffer pid id).1 = .ok false ∧ takes w.runtime pid = false ∧
          (w.sendBuffer pid id).2.places id + 1 = w.places id) := by
  constructor
  · rcases balanced_or_lost reached with ⟨meets, good⟩ | ⟨fails, bad⟩
    · refine iff_of_true (fun id member => ?_) meets
      rw [(good few).places, if_pos member]
    · refine iff_of_false (fun all => ?_) fails
      obtain ⟨id, member, gone⟩ := (bad few).gone
      have one := all id member
      omega
  · intro pid id bytes found
    have held : id ∈ w.registry.inner := AList.lookup_isSome.mp (by simp [found])
    rcases w.send_cases pid id with ⟨absent, -, -⟩ | ⟨other, number, same, -, answer, enqueued, -⟩ |
      ⟨other, -, unable, answer, -⟩
    · exact absurd held absent
    · cases found.symm.trans same
      exact .inl ⟨answer, number, enqueued⟩
    · refine .inr ⟨answer, unable, ?_⟩
      rcases w.moved_of_send pid id with ⟨sent, -⟩ | ⟨-, loses⟩
      · rw [sent held] at unable
        cases unable
      · simpa using loses.places id

/-- One actor, whose mailbox is number 0. -/
def oneMailbox : Runtime := ⟨.new, AList.insert 1 0 ∅, [.channel], .new, []⟩

def sentAndFreed : List BufferMove :=
  [.allocate 2 .all, .fill 1 [104, 105], .allocate 1 .noCapsule, .allocate 3 .all, .send 1 1, .destroy 3, .send 1 1,
    .destroy 1]

theorem buffers_placed_once_iff_sentAndFreed :
    ∃ w, buffers.run (new oneMailbox) sentAndFreed = some w ∧ w.allocated = [1, 3] ∧ w.delivered = [(1, 0)] ∧
      w.freed = [3] ∧ ∀ id ∈ w.allocated, w.places id = 1 := by
  have checked : ∃ w, buffers.run (new oneMailbox) sentAndFreed = some w ∧
      (w.allocated = [1, 3] ∧ w.delivered = [(1, 0)] ∧ w.freed = [3] ∧ w.issued ≤ 2 ^ 64) :=
    Machine.exists_of_check _ (by decide +kernel)
  obtain ⟨w, reached, allocated, delivered, freed, few⟩ := checked
  have meets : buffers.Meets SentToReceiver (new oneMailbox) sentAndFreed :=
    Machine.meets_of_checks _ (by decide +kernel)
  exact ⟨w, reached, allocated, delivered, freed,
    (buffers_placed_once_iff oneMailbox sentAndFreed w reached few).1.mpr meets⟩

/-- A buffer that is sent to a pid without a mailbox is nowhere any more. -/
theorem failed_send_loses_buffer :
    ¬ ∀ (runtime : Runtime) (moves : List BufferMove) (w : BufferWorld),
      buffers.run (new runtime) moves = some w →
      (∀ id ∈ w.allocated, w.places id = 1) ∧ ∀ pid id bytes, w.registry.inner.lookup id = some bytes →
        (w.sendBuffer pid id).1 = .ok false → (w.sendBuffer pid id).2.registry.inner.lookup id = some bytes := by
  intro linear
  have checked : ∃ w, buffers.run (new oneMailbox) [.allocate 2 .all] = some w ∧
      (w.registry.inner.lookup 1 = some [0, 0] ∧ (w.sendBuffer 7 1).1 = .ok false ∧
        (w.sendBuffer 7 1).2.registry.inner.lookup 1 = none) :=
    Machine.exists_of_check _ (by decide +kernel)
  obtain ⟨w, reached, found, answer, gone⟩ := checked
  have kept := (linear _ _ w reached).2 7 1 [0, 0] found answer
  cases gone.symm.trans kept

end BufferWorld

end Myrmidon.Buffer

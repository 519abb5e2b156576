import Myrmidon.Mailbox.Steps

namespace Myrmidon

open Data

/-- The steps of a receiver that nobody interrupts. -/
inductive Leads : Mailbox → RecvStage → Mailbox → RecvStage → Prop where
  | refl (m : Mailbox) (stage : RecvStage) : Leads m stage m stage
  | step {m later : Mailbox} {stage final : RecvStage} (input : RecvInput)
      (rest : Leads (stage.step m input).1 (stage.step m input).2 later final) : Leads m stage later final

namespace Leads

variable {m middle later : Mailbox} {stage between final : RecvStage}

theorem trans (first : Leads m stage middle between) (second : Leads middle between later final) :
    Leads m stage later final := by
  induction first with
  | refl => exact second
  | step input rest ih => exact .step input (ih second)

theorem next (input : RecvInput) (stepped : stage.step m input = (middle, between))
    (rest : Leads middle between later final) : Leads m stage later final := by
  apply Leads.step input
  rw [stepped]
  exact rest

/-- A message on its way is returned, and counted down if it is a user message. -/
theorem deliver (m : Mailbox) (message : Message) :
    Leads m (.deliver message) { m with counter := Mailbox.countDown m.counter (some message) }
      (.returned (some message)) := by
  cases message with
  | user bytes => exact .next ⟨.recv, [], false⟩ rfl (.refl _ _)
  | system message => exact .refl _ _

end Leads

section

variable {m : Mailbox} {kind : RecvKind}

theorem leads_found (input : RecvInput) {pos : Nat} {found : Message}
    (searched : RecvStage.position kind m.stash input.answers = some pos) (present : m.stash[pos]? = some found) :
    Leads m (.searchStash kind)
      { m with stash := m.stash.eraseIdx pos, counter := Mailbox.countDown m.counter (some found) }
      (.returned (some found)) := by
  refine .next input ?_ (Leads.deliver { m with stash := m.stash.eraseIdx pos } found)
  simp only [RecvStage.step, searched, Option.bind_some, present, Option.map_some]

theorem leads_missed (input : RecvInput) (searched : RecvStage.position kind m.stash input.answers = none) :
    (RecvStage.searchStash kind).step m input = (m, .trySys kind) := by
  simp only [RecvStage.step, searched, Option.bind_none]

theorem leads_stashed_system {pos : Nat} (searched : m.stash.findIdx? Message.isSystem = some pos)
    (position : RecvStage.position kind m.stash [] = m.stash.findIdx? Message.isSystem) :
    Leads m (.searchStash kind) { m with stash := m.stash.eraseIdx pos } (.returned m.stash[pos]?) := by
  obtain ⟨inside, system, -⟩ := List.findIdx?_eq_some_iff_getElem.mp searched
  have present : m.stash[pos]? = some m.stash[pos] := List.getElem?_eq_getElem inside
  have found := leads_found ⟨kind, [], false⟩ (position.trans searched) present
  rw [present]
  cases message : m.stash[pos] with
  | system content =>
    rw [message] at found
    exact found
  | user bytes =>
    rw [message] at system
    cases system

end

/-- Where a call stands after it was polled. -/
def RecvStage.ofPoll (kind : RecvKind) : Poll (Option Message) → RecvStage
  | .ready result => .returned result
  | .pending => .waiting kind

theorem recvSelect_alone (m : Mailbox) : Leads m (.selectSys .recv) m.recvSelect.2 (.ofPoll .recv m.recvSelect.1) := by
  rcases m with ⟨⟨queue, userSenders, userReceiver⟩, ⟨sysQueue, sysSenders, sysReceiver⟩, stash, counter⟩
  let input : RecvInput := ⟨.recv, [], false⟩
  cases sysQueue with
  | cons message rest => exact .step input (.refl _ _)
  | nil =>
    cases sysSenders with
    | false => exact .step input (.refl _ _)
    | true =>
      cases queue with
      | cons bytes rest => exact .step input (.step input (.step input (.refl _ _)))
      | nil => cases userSenders <;> exact .step input (.step input (.refl _ _))

/-- Uninterrupted, the steps of `recv` do what it does in one piece. -/
theorem recv_alone (m : Mailbox) : Leads m (.searchStash .recv) m.recv.2 (.ofPoll .recv m.recv.1) := by
  let input : RecvInput := ⟨.recv, [], false⟩
  unfold Mailbox.recv Mailbox.removeFirst
  cases searched : m.stash.findIdx? Message.isSystem with
  | some pos => exact leads_stashed_system searched rfl
  | none =>
    refine .next input (leads_missed input searched) ?_
    rcases m with ⟨user, ⟨sysQueue, sysSenders, sysReceiver⟩, stash, counter⟩
    cases sysQueue with
    | cons message rest => exact .step input (.refl _ _)
    | nil =>
      cases stash with
      | cons front stash => exact .step input (.step input (Leads.deliver _ front))
      | nil => exact .step input (.step input (recvSelect_alone _))

theorem tryRecv_alone (m : Mailbox) : Leads m (.searchStash .tryRecv) m.tryRecv.2 (.returned m.tryRecv.1) := by
  let input : RecvInput := ⟨.tryRecv, [], false⟩
  unfold Mailbox.tryRecv Mailbox.removeFirst
  cases searched : m.stash.findIdx? Message.isSystem with
  | some pos => exact leads_stashed_system searched rfl
  | none =>
    refine .next input (leads_missed input searched) ?_
    rcases m with ⟨⟨queue, userSenders, userReceiver⟩, ⟨sysQueue, sysSenders, sysReceiver⟩, stash, counter⟩
    cases sysQueue with
    | cons message rest => exact .step input (.refl _ _)
    | nil =>
      cases stash with
      | cons front stash => exact .step input (.step input (Leads.deliver _ front))
      | nil =>
        cases queue with
        | cons bytes rest => exact .step input (.step input (.step input (Leads.deliver _ (.user bytes))))
        | nil => exact .step input (.step input (.step input (.refl _ _)))

section

variable (matcher : Message → Bool)

/-- Where a call of `selective_recv` stands after a turn of its loop. -/
def Mailbox.Turn.Reached (m : Mailbox) (stage : RecvStage) : Mailbox.Turn → Prop
  | .done result after => Leads m stage after (.returned result)
  | .again after => Leads m stage after (.trySys .selective)
  | .wait => Leads m stage m (.waiting .selective)

theorem offerSystem_alone (m : Mailbox) (message : SystemMessage) (rest : List SystemMessage) {stage : RecvStage}
    (stepped : stage.step m ⟨.selective, [matcher (.system message)], false⟩ = RecvStage.offer
      { m with sys := { m.sys with queue := rest } } .selective [matcher (.system message)] (.system message)) :
    (m.offerSystem matcher message { m.sys with queue := rest }).Reached m stage := by
  unfold Mailbox.offerSystem
  cases answer : matcher (.system message) with
  | true =>
    rw [answer] at stepped
    exact .next _ stepped (.refl _ _)
  | false =>
    rw [answer] at stepped
    exact .next _ stepped (.refl _ _)

theorem offerUser_alone (m : Mailbox) (bytes : Bytes) (rest : List Bytes) {stage : RecvStage}
    (stepped : stage.step m ⟨.selective, [matcher (.user bytes)], false⟩ = RecvStage.offer
      { m with user := { m.user with queue := rest } } .selective [matcher (.user bytes)] (.user bytes)) :
    (m.offerUser matcher bytes { m.user with queue := rest }).Reached m stage := by
  unfold Mailbox.offerUser
  cases answer : matcher (.user bytes) with
  | true =>
    rw [answer] at stepped
    exact .next _ stepped (Leads.deliver _ (.user bytes))
  | false =>
    rw [answer] at stepped
    exact .next _ stepped (.refl _ _)

theorem Mailbox.Turn.Reached.after {m : Mailbox} {stage next : RecvStage} {turn : Mailbox.Turn}
    (reached : turn.Reached m next) (first : Leads m stage m next) : turn.Reached m stage := by
  cases turn with
  | done result after => exact first.trans reached
  | again after => exact first.trans reached
  | wait => exact first.trans reached

theorem selectiveTurn_alone (m : Mailbox) : (m.selectiveTurn matcher).Reached m (.trySys .selective) := by
  rcases m with ⟨⟨queue, userSenders, userReceiver⟩, ⟨sysQueue, sysSenders, sysReceiver⟩, stash, counter⟩
  let input : RecvInput := ⟨.selective, [], false⟩
  cases sysQueue with
  | cons message rest => exact offerSystem_alone matcher _ message rest rfl
  | nil =>
    cases sysSenders with
    | false => exact .step input (.step input (.refl _ _))
    | true =>
      cases queue with
      | cons bytes rest =>
        have looked : Leads ⟨⟨bytes :: rest, userSenders, userReceiver⟩, ⟨[], true, sysReceiver⟩, stash, counter⟩
            (.trySys .selective) ⟨⟨bytes :: rest, userSenders, userReceiver⟩, ⟨[], true, sysReceiver⟩, stash, counter⟩
            (.selectUser .selective) := .step input (.step input (.refl _ _))
        exact (offerUser_alone matcher _ bytes rest rfl).after looked
      | nil => cases userSenders <;> exact .step input (.step input (.step input (.refl _ _)))

/-- Where a call of `selective_recv` stands when its loop is left. -/
def RecvStage.ofLoop : Option (Poll (Option Message)) → RecvStage
  | none => .trySys .selective
  | some poll => .ofPoll .selective poll

theorem selectiveLoop_alone (turns : Nat) (m : Mailbox) : Leads m (.trySys .selective)
    (m.selectiveLoop matcher turns).2 (.ofLoop (m.selectiveLoop matcher turns).1) := by
  induction turns generalizing m with
  | zero => exact .refl _ _
  | succ turns ih =>
    have turn := selectiveTurn_alone matcher m
    unfold Mailbox.selectiveLoop
    generalize m.selectiveTurn matcher = taken at turn ⊢
    cases taken with
    | done result after => exact turn
    | again after => exact Leads.trans turn (ih after)
    | wait => exact turn

/-- A matcher without a state gives the answers of `position` one by one. -/
theorem position_selective (stash : List Message) :
    RecvStage.position .selective stash (stash.map matcher) = stash.findIdx? matcher := by
  have all : (stash.map matcher).take stash.length = stash.map matcher := List.take_of_length_le (by simp)
  show ((stash.map matcher).take stash.length).findIdx? id = _
  rw [all, List.findIdx?_map, Function.id_comp]

/-- Uninterrupted, the steps of `selective_recv` do what it does in one piece. -/
theorem selectiveRecv_alone (turns : Nat) (m : Mailbox) : Leads m (.searchStash .selective)
    (m.selectiveRecv matcher turns).2 (.ofLoop (m.selectiveRecv matcher turns).1) := by
  let input : RecvInput := ⟨.selective, m.stash.map matcher, false⟩
  have position := position_selective matcher m.stash
  unfold Mailbox.selectiveRecv Mailbox.removeFirst
  cases searched : m.stash.findIdx? matcher with
  | some pos =>
    rw [searched] at position
    have inside := (List.findIdx?_eq_some_iff_getElem.mp searched).1
    have present : m.stash[pos]? = some m.stash[pos] := List.getElem?_eq_getElem inside
    dsimp only
    rw [present]
    exact leads_found input position present
  | none =>
    rw [searched] at position
    exact .next input (leads_missed input position) (selectiveLoop_alone matcher turns m)

end

end Myrmidon

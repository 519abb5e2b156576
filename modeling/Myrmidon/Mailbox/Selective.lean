import Myrmidon.Mailbox.Receive

namespace Myrmidon.Mailbox

open Data

def channelOrder (m : Mailbox) : List Message := m.sys.queue.map .system ++ m.user.queue.map .user

def Unmatched (m : Mailbox) (matcher : Message → Bool) : Prop := ∀ message ∈ m.stash, matcher message = false

theorem Unmatched.not_mem {m : Mailbox} {matcher : Message → Bool} (unmatched : m.Unmatched matcher)
    {message : Message} (passes : matcher message = true) : message ∉ m.stash := by
  intro member
  rw [unmatched message member] at passes
  cases passes

theorem Unmatched.push {m after : Mailbox} {matcher : Message → Bool} (unmatched : m.Unmatched matcher)
    {message : Message} (fails : matcher message = false) (pushed : after.stash = m.stash ++ [message]) :
    after.Unmatched matcher := by
  intro other member
  rw [pushed, List.mem_append, List.mem_singleton] at member
  rcases member with member | rfl
  · exact unmatched other member
  · exact fails

/-- What a call of `selective_recv` may leave behind. A dropped call delivers
    nothing and has used up its turns. -/
inductive Selected (m : Mailbox) (matcher : Message → Bool) (order : List Message) (turns : Nat) :
    Option (Poll (Option Message)) × Mailbox → Prop where
  | found {message : Message} {after : Mailbox} (first : order.find? matcher = some message)
      (backlog : after.backlog = m.backlog.deliver message) :
      Selected m matcher order turns (some (.ready (some message)), after)
  | waiting {after : Mailbox} (absent : order.find? matcher = none) (backlog : after.backlog = m.backlog)
      (unmatched : after.Unmatched matcher) : Selected m matcher order turns (some .pending, after)
  | dropped {after : Mailbox} (short : turns < m.turnsNeeded) (backlog : after.backlog = m.backlog) :
      Selected m matcher order turns (none, after)

/-- A turn that stashes its message leaves the rest of the call as it was. -/
theorem Selected.skip {m next : Mailbox} {matcher : Message → Bool} {turns : Nat} {message : Message}
    {out : Option (Poll (Option Message)) × Mailbox} (fails : matcher message = false)
    (backlog : next.backlog = m.backlog) (order : m.channelOrder = message :: next.channelOrder)
    (selected : next.Selected matcher next.channelOrder turns out) :
    m.Selected matcher m.channelOrder (turns + 1) out := by
  have find : m.channelOrder.find? matcher = next.channelOrder.find? matcher := by
    rw [order, List.find?_cons_of_neg (by simp [fails])]
  have needed : m.turnsNeeded = next.turnsNeeded + 1 := by
    have lengths := congrArg List.length order
    simp only [channelOrder, List.length_append, List.length_map, List.length_cons] at lengths
    simp only [turnsNeeded]
    omega
  cases selected with
  | found first delivered => exact .found (find.trans first) (by rw [delivered, backlog])
  | waiting absent kept unmatched => exact .waiting (find.trans absent) (kept.trans backlog) unmatched
  | dropped short kept => exact .dropped (by omega) (kept.trans backlog)

theorem Selected.of_order {m : Mailbox} {matcher : Message → Bool} {turns : Nat} {order other : List Message}
    {out : Option (Poll (Option Message)) × Mailbox} (same : other.find? matcher = order.find? matcher)
    (selected : m.Selected matcher order turns out) : m.Selected matcher other turns out := by
  cases selected with
  | found first delivered => exact .found (same.trans first) delivered
  | waiting absent kept unmatched => exact .waiting (same.trans absent) kept unmatched
  | dropped short kept => exact .dropped short kept

theorem selectiveTurn_eq_select (m : Mailbox) (matcher : Message → Bool) :
    m.selectiveTurn matcher = m.selectiveSelect matcher := by
  unfold selectiveTurn selectiveSelect Channel.tryRecv Channel.recv
  cases m.sys.queue <;> simp

theorem selectiveLoop_spec (matcher : Message → Bool) (turns : Nat) {m : Mailbox} (isOpen : m.Open)
    (unmatched : m.Unmatched matcher) :
    (selectiveLoop matcher turns m).2.Open ∧
      m.Selected matcher m.channelOrder turns (selectiveLoop matcher turns m) := by
  -- One message leaves a channel per turn; the stash stays free of matches.
  induction turns generalizing m with
  | zero => exact ⟨isOpen, .dropped (by simp [turnsNeeded]) rfl⟩
  | succ turns ih =>
    simp only [selectiveLoop, selectiveTurn_eq_select]
    unfold selectiveSelect Channel.recv
    cases queued : m.sys.queue with
    | cons message rest =>
      simp only [offerSystem]
      by_cases passes : matcher (.system message) = true
      · simp only [passes, if_true]
        refine ⟨isOpen.of_alive ⟨rfl, rfl⟩ ⟨rfl, rfl⟩, .found ?_ ?_⟩
        · simp [channelOrder, queued, passes]
        · exact backlog_take_system m queued (unmatched.not_mem passes)
      · have fails : matcher (.system message) = false := by simpa using passes
        simp only [fails, Bool.false_eq_true, if_false]
        have next := ih (m := { m with
          sys := { m.sys with queue := rest }, stash := m.stash ++ [.system message] })
          (isOpen.of_alive ⟨rfl, rfl⟩ ⟨rfl, rfl⟩) (unmatched.push fails rfl)
        refine ⟨next.1, next.2.skip fails ?_ ?_⟩
        · simp [backlog, systemOf, userOf, queued, Message.system?, Message.user?]
        · simp [channelOrder, queued]
    | nil =>
      simp only [isOpen.sysSender, if_true]
      cases waiting : m.user.queue with
      | cons bytes rest =>
        simp only [offerUser]
        by_cases passes : matcher (.user bytes) = true
        · simp only [passes, if_true]
          refine ⟨isOpen.of_alive ⟨rfl, rfl⟩ ⟨rfl, rfl⟩, .found ?_ ?_⟩
          · simp [channelOrder, queued, waiting, passes]
          · exact backlog_take_user m _ waiting (unmatched.not_mem passes)
        · have fails : matcher (.user bytes) = false := by simpa using passes
          simp only [fails, Bool.false_eq_true, if_false]
          have next := ih (m := { m with
            user := { m.user with queue := rest }, stash := m.stash ++ [.user bytes] })
            (isOpen.of_alive ⟨rfl, rfl⟩ ⟨rfl, rfl⟩) (unmatched.push fails rfl)
          refine ⟨next.1, next.2.skip fails ?_ ?_⟩
          · simp [backlog, systemOf, userOf, waiting, Message.system?, Message.user?]
          · simp [channelOrder, queued, waiting]
      | nil =>
        simp only [isOpen.userSender, if_true]
        exact ⟨isOpen, .waiting (by simp [channelOrder, queued, waiting]) rfl unmatched⟩

theorem selectiveRecv_spec (matcher : Message → Bool) (turns : Nat) {m : Mailbox} (isOpen : m.Open) :
    (m.selectiveRecv matcher turns).2.Open ∧
      m.Selected matcher m.searchOrder turns (m.selectiveRecv matcher turns) := by
  have order : m.searchOrder.find? matcher =
      (m.stash.find? matcher).or (m.channelOrder.find? matcher) := by
    rw [searchOrder, List.append_assoc, List.find?_append]
    rfl
  unfold selectiveRecv
  rw [removeFirst_eq]
  cases found : m.stash.find? matcher with
  | some message =>
    rw [found, Option.some_or] at order
    exact ⟨isOpen.of_alive ⟨rfl, rfl⟩ ⟨rfl, rfl⟩,
      .found order (backlog_erase_stash m _ (List.mem_of_find?_eq_some found))⟩
  | none =>
    rw [found, Option.none_or] at order
    have unmatched : m.Unmatched matcher := by
      intro message member
      simpa using List.find?_eq_none.mp found message member
    have looped := selectiveLoop_spec matcher turns isOpen unmatched
    exact ⟨looped.1, looped.2.of_order order⟩

theorem oldestMatch_of_find? (m : Mailbox) (matcher : Message → Bool) {message : Message}
    (found : m.searchOrder.find? matcher = some message) : m.backlog.OldestMatch matcher message := by
  cases message with
  | system message =>
    have projected := find?_filterMap_of_find? Message.system?_eq_some found
    have shape : m.searchOrder.filterMap Message.system? = m.backlog.system := by
      simp [searchOrder, backlog, systemOf, List.filterMap_append, List.filterMap_map, Function.comp_def,
        Message.system?]
    rwa [shape] at projected
  | user bytes =>
    have projected := find?_filterMap_of_find? Message.user?_eq_some found
    have shape : m.searchOrder.filterMap Message.user? = m.backlog.user := by
      simp [searchOrder, backlog, userOf, List.filterMap_append, List.filterMap_map, Function.comp_def,
        Message.user?]
    rwa [shape] at projected

theorem mem_searchOrder_iff (m : Mailbox) (message : Message) :
    message ∈ m.searchOrder ↔ m.backlog.Holds message := by
  cases message <;> simp [searchOrder, backlog, Backlog.Holds, mem_systemOf, mem_userOf]

end Myrmidon.Mailbox
